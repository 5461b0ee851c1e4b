import LittleLearning.Db.Connections
import LittleLearning.Db.Reads
import LittleLearning.Db.Store

/-!
# How the server ends, and how the queue does

The process dies of a parser's exception, of an empty command or of a dangling
`del`, and of nothing else (`down_cases`). Left alone, the worker ends every
task in a bounded number of steps, unless one of the latter two is in its way
(`drained`).
-/

namespace LittleLearning.Db

open Cxx Transition

/-- The steps to the end of the task in hand. -/
def Worker.left : Worker → Nat
  | .idle => 0
  | .start task => 4 + task.cmd.length
  | .exec task st => 3 + (task.cmd.length - st)
  | .finish _ _ => 2
  | .notify _ => 1

theorem fetch_call_le {cmdPara : List Bytes} {st st' : Nat} {cmd : Cmd}
    (h : fetch cmdPara st = .call cmd st') : st ≤ st' := by
  unfold fetch at h
  split at h
  · cases h
    omega
  · split at h
    · cases h
      omega
    · split at h
      · split at h
        · cases h
          omega
        · cases h
      · cases h

namespace Server

open Event

variable {D : Type} {db : LevelDb D} {contents : D → Bytes → Option Bytes} {d₀ d : D}
  {s s' : Server} {a : Act} {tr : List Event} {p p' : Server × D}

/-- At most this many steps of the worker are left. -/
def workLeft (s : Server) : Nat :=
  if s.down.isSome then 0
  else 1 + s.worker.left + (s.queue.map fun task => 5 + task.cmd.length).sum

theorem workLeft_up (h : s.down = none) :
    s.workLeft = 1 + s.worker.left + (s.queue.map fun task => 5 + task.cmd.length).sum := by
  simp [workLeft, h]

theorem workLeft_down (h : s.down ≠ none) : s.workLeft = 0 := by
  unfold workLeft
  rw [if_pos (Option.isSome_iff_ne_none.2 h)]

/-- A step of the worker brings the end nearer. -/
theorem workLeft_lt {ok : Bool} {value : Bytes} (hs : s.step (.worker ok value) = some s') :
    s'.workLeft < s.workLeft := by
  have hup := down_eq_none hs
  rw [workLeft_up hup]
  have hkeep : ∀ {t : Server}, t.queue = s.queue → t.worker.left < s.worker.left →
      t.workLeft < 1 + s.worker.left + (s.queue.map fun task => 5 + task.cmd.length).sum := by
    intro t hq hw
    unfold workLeft
    rw [hq]
    split <;> omega
  cases step_cases hs with
  | closes _ fd c hcloses => cases hcloses
  | take _ _ task queue hw hq =>
    rw [workLeft_up (show ({ s with queue := queue, worker := .start task } : Server).down = none
      from hup), hq, hw]
    simp only [Worker.left, List.map_cons, List.sum_cons]
    omega
  | startCrash _ _ task e hw he =>
    rw [workLeft_down (show (s.crash e).down ≠ none by simp [crash])]
    omega
  | startExit _ _ task c hw => exact hkeep rfl (by simp only [work, hw, Worker.left]; omega)
  | startExec _ _ task w hw => exact hkeep rfl (by simp [work, hw, Worker.left])
  | execGet _ key task st st' hw hst hf =>
    have := fetch_call_le hf
    exact hkeep (by simp [work]) (by simp only [work, hw, Worker.left]; omega)
  | execCall _ task st st' cmd hw hst hf =>
    have := fetch_call_le hf
    exact hkeep rfl (by simp only [work, hw, Worker.left]; omega)
  | execEnd _ _ task st good hw => exact hkeep rfl (by simp only [work, hw, Worker.left]; omega)
  | execCrash _ _ task st hw =>
    rw [workLeft_down (show (s.crash .pastEnd).down ≠ none by simp [crash])]
    omega
  | finish _ good _ task hw => exact hkeep (by simp [work]) (by simp [work, hw, Worker.left])
  | notify _ _ task hw => exact hkeep rfl (by simp [hw, Worker.left])
  | notifyFull _ _ task hw => exact hkeep rfl (by simp [hw, Worker.left])

/-- The worker waits for nothing but a task. -/
theorem worker_steps (hup : s.down = none) (hbusy : s.worker ≠ .idle ∨ s.queue ≠ []) (ok : Bool)
    (value : Bytes) : ∃ s', s.step (.worker ok value) = some s' := by
  have hd : ¬ s.down.isSome = true := by simp [hup]
  unfold step
  rw [if_neg hd]
  unfold workerStep
  cases hw : s.worker with
  | idle =>
    cases hq : s.queue with
    | nil => simp [hw, hq] at hbusy
    | cons task queue => exact ⟨_, rfl⟩
  | _ => exact ⟨_, rfl⟩

/-- No parser runs in the worker. -/
theorem worker_no_exception {ok : Bool} {value : Bytes} (hs : s.step (.worker ok value) = some s')
    (e : StdException) : s'.down ≠ some (.exception e) := by
  have hup := down_eq_none hs
  cases step_cases hs with
  | closes _ fd c hcloses => cases hcloses
  | startCrash _ _ task e' hw he => rcases he with ⟨-, rfl⟩ | ⟨-, -, rfl⟩ <;> simp [crash]
  | execCrash => simp [crash]
  | execGet | finish => simp [work, hup]
  | _ => simp [work, setClient, hup]

/-- Left alone, the worker goes on until it has no task, or the process is down. -/
theorem worker_alone (db : LevelDb D) (p : Server × D) (hup : p.1.down = none) :
    ∃ n p', n ≤ p.1.workLeft ∧
      exec (stepOn db) p (List.replicate n (.worker false [])) = some p' ∧
      (∀ e, p'.1.down ≠ some (.exception e)) ∧
      (p'.1.down ≠ none ∨ p'.1.worker = .idle ∧ p'.1.queue = []) := by
  have hstep : ∀ q : Server × D, (∀ e, q.1.down ≠ some (.exception e)) →
      (q.1.down ≠ none ∨ q.1.worker = .idle ∧ q.1.queue = []) ∨
        ∃ q', stepOn db q (.worker false []) = some q' ∧
          (∀ e, q'.1.down ≠ some (.exception e)) ∧ q'.1.workLeft < q.1.workLeft := by
    intro q _
    by_cases hup : q.1.down = none
    · by_cases hbusy : q.1.worker ≠ .idle ∨ q.1.queue ≠ []
      · obtain ⟨ok, value, d', hact⟩ := @answered_worker D db q false []
        obtain ⟨s', hs⟩ := worker_steps hup hbusy ok value
        refine .inr ⟨(s', d'), stepOn_eq_some.2 ?_, worker_no_exception hs, workLeft_lt hs⟩
        rw [hact]
        exact ⟨hs, rfl⟩
      · rw [not_or, not_not, not_not] at hbusy
        exact .inl (.inr hbusy)
    · exact .inl (.inl hup)
  exact exec_until (Act.worker false []) hstep p (by simp [hup])

theorem puts_alone (db : LevelDb D) (n : Nat) (p : Server × D) :
    puts (emitted (stepOn db) (observeOn db) p (List.replicate n (.worker false []))) = [] := by
  induction n generalizing p with
  | zero => rfl
  | succ n ih =>
    have hos : puts (observeOn db p (.worker false [])) = [] := by
      obtain ⟨ok, value, d', hact⟩ := @answered_worker D db p false []
      rw [observeOn, hact]
      exact (worker_events p.1 ok value).1
    rw [List.replicate_succ, emitted, puts_append, hos]
    cases stepOn db p (.worker false []) with
    | none => rfl
    | some p' => exact ih p'

/-! ### Why the process is down -/

/-- What is known once the process is down, and of the tasks the worker has looked into. -/
structure PostMortem (s : Server) (tr : List Event) : Prop where
  emptyCmd : s.down = some .emptyCmd → ∃ task, s.worker = .start task ∧ task.cmd = []
  pastEnd : s.down = some .pastEnd → ∃ task st, s.worker = .exec task st ∧
    st < task.cmd.length ∧ fetch task.cmd st = .pastEnd
  ended : ∀ task ∈ ended tr, task.cmd ≠ []
  begun : ∀ task, (task, .executing) ∈ s.worker.tasks → task.cmd ≠ []

theorem postMortem_step (s : Server) (tr : List Event) (a : Act) (s' : Server)
    (h : PostMortem s tr) (hs : s.step a = some s') : PostMortem s' (tr ++ s.observe a) := by
  have hup := down_eq_none hs
  have hended : ∀ task ∈ Event.ended (tr ++ s.observe a), task.cmd ≠ [] := by
    intro task ht
    rw [ended_append, List.mem_append] at ht
    rcases ht with hold | hnew
    · exact h.ended task hold
    · have heff := step_effect hs
      generalize s.observe a = os at heff hnew
      cases heff with
      | exit task' c _ _ _ _ hexit =>
        obtain rfl : task = task' := by simpa [Event.ended] using hnew
        rintro hnil
        simp [hnil] at hexit
      | answer task' good _ hw =>
        obtain rfl : task = task' := by simpa [Event.ended] using hnew
        exact h.begun task (by simp [hw, Worker.tasks])
      | _ => simp [Event.ended] at hnew
  -- a step that neither crashes nor begins a task
  have hkeep : ∀ {t : Server}, t.down ≠ some .emptyCmd → t.down ≠ some .pastEnd →
      (∀ task, (task, .executing) ∈ t.worker.tasks → (task, .executing) ∈ s.worker.tasks) →
      PostMortem t (tr ++ s.observe a) := fun he hp hw =>
    ⟨fun h => absurd h he, fun h => absurd h hp, hended, fun task ht => h.begun task (hw task ht)⟩
  cases step_cases hs with
  | startCrash _ _ task e hw he =>
    refine ⟨fun hd => ?_, fun hd => ?_, hended, fun task' ht => h.begun task' ht⟩
    · rcases he with ⟨-, rfl⟩ | ⟨-, hcmd, rfl⟩
      · cases hd
      · exact ⟨task, hw, hcmd⟩
    · rcases he with ⟨-, rfl⟩ | ⟨-, -, rfl⟩ <;> cases hd
  | execCrash _ _ task st hw hst hf =>
    exact ⟨fun hd => by (cases hd), fun _ => ⟨task, st, hw, hst, hf⟩, hended,
      fun task' ht => h.begun task' ht⟩
  | startExec _ _ task w hw _ hhead _ =>
    refine ⟨fun hd => by simp [work, hup] at hd, fun hd => by simp [work, hup] at hd, hended,
      fun task' ht => ?_⟩
    obtain rfl : task' = task := by simpa [work, Worker.tasks] using ht
    rintro hnil
    simp [hnil] at hhead
  | inputCrash | writableNull =>
    exact hkeep (by simp [crash]) (by simp [crash]) (fun _ ht => ht)
  | take _ _ task queue hw hq =>
    exact hkeep (by simp [hup]) (by simp [hup]) (fun _ ht => by simp [Worker.tasks] at ht)
  | startExit _ _ task c hw =>
    exact hkeep (by simp [work, setClient, hup]) (by simp [work, setClient, hup])
      (fun _ ht => by simp [work, Worker.tasks] at ht)
  | execGet _ key task st st' hw =>
    exact hkeep (by simp [work, hup]) (by simp [work, hup])
      (fun _ ht => by simpa [work, hw, Worker.tasks] using ht)
  | execCall _ task st st' cmd hw | execEnd _ _ task st good hw =>
    exact hkeep (by simp [work, hup]) (by simp [work, hup])
      (fun _ ht => by simpa [work, hw, Worker.tasks] using ht)
  | finish _ good _ task hw =>
    exact hkeep (by simp [work, hup]) (by simp [work, hup])
      (fun _ ht => by simp [work, Worker.tasks] at ht)
  | notify _ _ task hw | notifyFull _ _ task hw =>
    exact hkeep (by simp [hup]) (by simp [hup]) (fun _ ht => by simp [Worker.tasks] at ht)
  | clear | erase =>
    exact hkeep (by simp [goto, hup]) (by simp [goto, hup]) (fun _ ht => by simpa [goto] using ht)
  | _ =>
    exact hkeep (by simp [close, setClient, goto, pendReply, hup])
      (by simp [close, setClient, goto, pendReply, hup]) (fun _ ht => ht)

theorem postMortem_init : PostMortem init [] where
  emptyCmd h := by cases h
  pastEnd h := by cases h
  ended _ h := by cases h
  begun _ h := by cases h

theorem postMortem_run {as : List Act} (hr : exec step init as = some s) :
    PostMortem s (trace as) :=
  invariant_emitted postMortem_step postMortem_init hr

variable {as : List Act}

/-- The task the worker cannot go on with has no course after those before it. -/
theorem serial_dangling (hlaws : db.GetLaws contents) {task : Task} {st : Nat}
    (h : Serving db contents d₀ d tr (.exec task st)) (hst : st < task.cmd.length)
    (hf : fetch task.cmd st = .pastEnd) :
    serial db contents (ended tr) d₀ ≠ none ∧
      serial db contents (ended tr ++ [task]) d₀ = none := by
  cases h with
  | between _ hwait => cases hwait
  | exec _ _ before values d₁ hexit hserial htexts hcourse =>
    have hread := reading_fetch hst
    rw [hf] at hread
    rw [hread, course_nil] at hcourse
    refine ⟨by simp [hserial], ?_⟩
    rw [serial_snoc hserial, serve_eq hlaws _ hexit, hcourse]
    rfl

/-- Where no parser throws, it is the task in the worker's hands that brings the process down. -/
theorem down_worker (hlaws : db.GetLaws contents)
    (hr : exec (stepOn db) (init, d₀) as = some (s, d)) {e : Crash} (hd : s.down = some e)
    (hexc : ∀ x, e ≠ .exception x) :
    ∃ task, takes (traceOn db d₀ as) = ended (traceOn db d₀ as) ++ [task] ∧
      (e = .emptyCmd ∧ task.cmd = [] ∨
        e = .pastEnd ∧ serial db contents (ended (traceOn db d₀ as)) d₀ ≠ none ∧
          serial db contents (takes (traceOn db d₀ as)) d₀ = none) := by
  obtain ⟨bs, hbs, htrace⟩ := run_of_runOn hr
  have hserving := serving_run hlaws hr
  rw [← htrace] at hserving ⊢
  have htakes := (queueing_run hbs).takes
  have hpost := postMortem_run hbs
  cases e with
  | exception x => exact absurd rfl (hexc x)
  | nullClient =>
    exact absurd hd (Transition.invariant (fun _ _ _ h hs => h.step hs) known_init hbs).up
  | emptyCmd =>
    obtain ⟨task, hw, hcmd⟩ := hpost.emptyCmd hd
    rw [hw] at htakes
    exact ⟨task, htakes, .inl ⟨rfl, hcmd⟩⟩
  | pastEnd =>
    obtain ⟨task, st, hw, hst, hf⟩ := hpost.pastEnd hd
    rw [hw] at htakes hserving
    obtain ⟨hbefore, hnone⟩ := serial_dangling hlaws hserving hst hf
    exact ⟨task, htakes, .inr ⟨rfl, hbefore, htakes ▸ hnone⟩⟩

/-- Left alone, the worker ends in a bounded number of steps: with every task of the queue served,
or at an empty command or a dangling `del`, and at these only where there are such. -/
theorem drained (hlaws : db.GetLaws contents)
    (hr : exec (stepOn db) (init, d₀) as = some (s, d)) (hup : s.down = none) :
    ∃ n t d', n ≤ s.workLeft ∧
      exec (stepOn db) (s, d) (List.replicate n (.worker false [])) = some (t, d') ∧
      (t.down = none ∧ t.worker = .idle ∧ t.queue = [] ∧
          (∀ task ∈ puts (traceOn db d₀ as), task.cmd ≠ []) ∧
          serial db contents (puts (traceOn db d₀ as)) d₀ = some
            (said (traceOn db d₀ (as ++ List.replicate n (.worker false []))), d') ∨
        t.down = some .emptyCmd ∧ (∃ task ∈ puts (traceOn db d₀ as), task.cmd = []) ∨
        t.down = some .pastEnd ∧ serial db contents (puts (traceOn db d₀ as)) d₀ = none) := by
  obtain ⟨n, ⟨t, d'⟩, hn, hrun, hexc, hdone⟩ := worker_alone db (s, d) hup
  refine ⟨n, t, d', hn, hrun, ?_⟩
  have hall : exec (stepOn db) (init, d₀) (as ++ List.replicate n (.worker false [])) =
      some (t, d') := by
    rw [exec_append, hr]
    exact hrun
  have hputs : puts (traceOn db d₀ (as ++ List.replicate n (.worker false []))) =
      puts (traceOn db d₀ as) := by
    rw [traceOn, emitted_append hr, puts_append, puts_alone, List.append_nil]
    rfl
  obtain ⟨bs, hbs, htrace⟩ := run_of_runOn hall
  have horder := (queueing_run hbs).in_order
  have hpost := postMortem_run hbs
  rw [htrace, hputs] at horder
  rw [htrace] at hpost
  cases hdown : t.down with
  | none =>
    obtain ⟨hw, hq⟩ : t.worker = .idle ∧ t.queue = [] := hdone.resolve_left (not_not.2 hdown)
    have hserial := served_run hlaws hall (by rw [hw]; rfl)
    rw [hw, hq, List.append_nil] at horder
    have horder' : puts (traceOn db d₀ as) =
        ended (traceOn db d₀ (as ++ List.replicate n (.worker false []))) := by
      rw [horder]
      exact List.append_nil _
    rw [horder']
    exact .inl ⟨rfl, hw, hq, hpost.ended, hserial⟩
  | some e =>
    obtain ⟨task, htakes, hcause⟩ :=
      down_worker hlaws hall hdown fun x he => hexc x (he ▸ hdown)
    have hgiven : puts (traceOn db d₀ as) =
        takes (traceOn db d₀ (as ++ List.replicate n (.worker false []))) ++ t.queue := by
      have h := (queueing_run hbs).puts
      rwa [htrace, hputs] at h
    rcases hcause with ⟨rfl, hcmd⟩ | ⟨rfl, -, hnone⟩
    · refine .inr (.inl ⟨rfl, task, ?_, hcmd⟩)
      rw [hgiven, htakes]
      simp
    · refine .inr (.inr ⟨rfl, ?_⟩)
      rw [hgiven, serial, List.foldlM_append]
      rw [serial] at hnone
      rw [hnone]
      rfl

theorem drained_get : ∃ s d, exec (stepOn LevelDb.ofMap) (init, fun _ => none)
      [.accept 10 false, .input 10 (ascii "set k v get k\n"), .io .again] = some (s, d) ∧
    ∃ n t d', exec (stepOn LevelDb.ofMap) (s, d) (List.replicate n (.worker false [])) =
      some (t, d') ∧ t.down = none ∧ t.worker = .idle ∧ t.queue = [] := by
  have hrun : (exec (stepOn LevelDb.ofMap) (init, fun _ => none)
      [.accept 10 false, .input 10 (ascii "set k v get k\n"), .io .again]).map (·.1.down) =
      some none := by decide +kernel
  have hputs : puts (traceOn LevelDb.ofMap (fun _ => none)
      [.accept 10 false, .input 10 (ascii "set k v get k\n"), .io .again]) = [storeTask] := by
    decide +kernel
  obtain ⟨⟨s, d⟩, hs, hd⟩ := Option.map_eq_some_iff.1 hrun
  obtain ⟨n, t, d', -, hn, hend⟩ := drained LevelDb.ofMap_laws.toGetLaws hs hd
  rw [hputs] at hend
  refine ⟨s, d, hs, n, t, d', hn, ?_⟩
  rcases hend with ⟨hup, hw, hq, -⟩ | ⟨-, task, ht, hcmd⟩ | ⟨-, hnone⟩
  · exact ⟨hup, hw, hq⟩
  · obtain rfl := List.mem_singleton.1 ht
    cases hcmd
  · have hsome : (serial LevelDb.ofMap id [storeTask] fun _ => none).isSome = true := by
      decide +kernel
    rw [hnone] at hsome
    cases hsome

end Server

end LittleLearning.Db
