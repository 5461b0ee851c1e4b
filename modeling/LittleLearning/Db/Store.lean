import LittleLearning.Db.Serial
import LittleLearning.Db.Trace

/-!
# The server with its database

`stepOn` runs the server together with the state of leveldb: where the worker is
at a call, the library answers. The event loop changes outputs in between, and
the worker's `handleCmd` is spread over many steps. What remains of this is
`serial`: the database and the replies are those of the tasks served one after
the other (`serving_run`).
-/

namespace LittleLearning.Db

open Cxx Transition

/-! ### The server on a database -/

section

variable {D : Type} (db : LevelDb D)

/-- What leveldb answers to a call, given the output of the client. -/
def LevelDb.reply (d : D) (out : Bytes) : Cmd → Bool × Bytes × D
  | .set k v => ((db.put d k v).1, [], (db.put d k v).2)
  | .get k => db.get d k out
  | .del k => ((db.delete d k).1, [], (db.delete d k).2)

theorem LevelDb.reply_run {db : LevelDb D} {contents : D → Bytes → Option Bytes}
    (h : db.GetLaws contents) (d : D) (out : Bytes) (cmd : Cmd) :
    (db.reply d out cmd).1 = (db.run d cmd).1 ∧ (db.reply d out cmd).2.2 = (db.run d cmd).2 := by
  cases cmd with
  | get k => exact h.get_out d k out
  | _ => exact ⟨rfl, rfl⟩

namespace Server

/-- The call the worker is at. -/
def atCall (s : Server) : Option (Task × Cmd) :=
  match s.worker with
  | .exec task st =>
    if st < task.cmd.length then
      match fetch task.cmd st with
      | .call cmd _ => some (task, cmd)
      | _ => none
    else none
  | _ => none

/-- The action that is taken, and the database after it: at a call leveldb answers. -/
def answered (p : Server × D) (a : Act) : Act × D :=
  match a, p.1.atCall with
  | .worker _ _, some (task, cmd) =>
    (.worker (db.reply p.2 (p.1.outputBytes task.fd) cmd).1
      (db.reply p.2 (p.1.outputBytes task.fd) cmd).2.1,
      (db.reply p.2 (p.1.outputBytes task.fd) cmd).2.2)
  | a, _ => (a, p.2)

/-- The server together with the state of leveldb. -/
def stepOn (p : Server × D) (a : Act) : Option (Server × D) :=
  (p.1.step (answered db p a).1).map (·, (answered db p a).2)

def observeOn (p : Server × D) (a : Act) : List Event := p.1.observe (answered db p a).1

def traceOn (d₀ : D) (as : List Act) : List Event :=
  emitted (stepOn db) (observeOn db) (init, d₀) as

end Server

end

namespace Server

open Event

variable {D : Type} {db : LevelDb D} {contents : D → Bytes → Option Bytes} {d₀ d : D}
  {s s' : Server} {a : Act} {tr : List Event} {p p' : Server × D}

theorem stepOn_eq_some : stepOn db p a = some p' ↔
    p.1.step (answered db p a).1 = some p'.1 ∧ p'.2 = (answered db p a).2 := by
  rw [stepOn, Option.map_eq_some_iff]
  constructor
  · rintro ⟨s, hs, rfl⟩
    exact ⟨hs, rfl⟩
  · rintro ⟨hs, hd⟩
    exact ⟨p'.1, hs, Prod.ext rfl hd.symm⟩

/-- The server does not see the database but through the answers: its run is one of `step`, with
the same record. -/
theorem run_of_runOn {d₀ : D} {as : List Act} (hr : exec (stepOn db) (init, d₀) as = some p) :
    ∃ bs, exec step init bs = some p.1 ∧ trace bs = traceOn db d₀ as :=
  exec_projection Prod.fst (fun p a => (answered db p a).1)
    (fun _ _ _ hs => (stepOn_eq_some.1 hs).1) hr

/-- How far the serving of the tasks is. -/
inductive Serving (db : LevelDb D) (contents : D → Bytes → Option Bytes) (d₀ d : D)
    (tr : List Event) : Worker → Prop where
  | between (w : Worker) : w.tasks.all (·.2 ≠ .executing) →
      serial db contents (ended tr) d₀ = some (said tr, d) → Serving db contents d₀ d tr w
  /-- The words from `st` on are left. -/
  | exec (task : Task) (st : Nat) (before : List (Task × Bytes)) (values : List Bytes) (d₁ : D) :
      task.cmd.head? ≠ some (ascii "exit") →
      serial db contents (ended tr) d₀ = some (before, d₁) → said tr = before ++ texts task values →
      course db contents (reading task.cmd) d₁ =
        (course db contents (reading (task.cmd.drop st)) d).map
          (fun res => (values ++ res.1, res.2)) → Serving db contents d₀ d tr (.exec task st)
  | finish (task : Task) (good : Bool) (before : List (Task × Bytes)) (values : List Bytes)
      (d₁ : D) : task.cmd.head? ≠ some (ascii "exit") →
      serial db contents (ended tr) d₀ = some (before, d₁) → said tr = before ++ texts task values →
      course db contents (reading task.cmd) d₁ = some (values, good, d) →
      Serving db contents d₀ d tr (.finish task good)

theorem Serving.keep {w : Worker} {os : List Event} (h : Serving db contents d₀ d tr w)
    (hended : ended os = []) (hsaid : said os = []) : Serving db contents d₀ d (tr ++ os) w := by
  have he : ended (tr ++ os) = ended tr := by rw [ended_append, hended, List.append_nil]
  have hs : said (tr ++ os) = said tr := by rw [said_append, hsaid, List.append_nil]
  cases h with
  | between w hw hserial => exact .between w hw (by rw [he, hs]; exact hserial)
  | exec task st before values d₁ hexit hserial htexts hcourse =>
    exact .exec task st before values d₁ hexit (by rw [he]; exact hserial)
      (by rw [hs]; exact htexts) hcourse
  | finish task good before values d₁ hexit hserial htexts hcourse =>
    exact .finish task good before values d₁ hexit (by rw [he]; exact hserial)
      (by rw [hs]; exact htexts) hcourse

theorem event_loop_step (hs : s.step a = some s') (ha : ∀ ok value, a ≠ .worker ok value) :
    s'.worker = s.worker ∧ ended (s.observe a) = [] ∧ said (s.observe a) = [] := by
  have hos : ended (s.observe a) = [] ∧ said (s.observe a) = [] := by
    unfold observe
    cases a with
    | worker ok value => exact absurd rfl (ha ok value)
    | input fd data =>
      by_cases hcl : (s.clients fd).isSome = true
      · simp [hcl, ended, said]
      · simp [hcl, ended, said]
    | io st => cases s.io <;> cases st <;> exact ⟨rfl, rfl⟩
    | _ => exact ⟨rfl, rfl⟩
  refine ⟨?_, hos⟩
  cases step_cases hs with
  | take | startCrash | startExit | startExec | execGet | execCall | execEnd | execCrash | finish
  | notify | notifyFull => exact absurd rfl (ha _ _)
  | clear | erase => simp [goto]
  | _ => rfl

theorem answered_call {task : Task} {st st' : Nat} {cmd : Cmd} {ok : Bool} {value : Bytes}
    (hw : p.1.worker = .exec task st) (hst : st < task.cmd.length)
    (hf : fetch task.cmd st = .call cmd st') : answered db p (.worker ok value) =
      (.worker (db.reply p.2 (p.1.outputBytes task.fd) cmd).1
        (db.reply p.2 (p.1.outputBytes task.fd) cmd).2.1,
        (db.reply p.2 (p.1.outputBytes task.fd) cmd).2.2) := by
  have hcall : p.1.atCall = some (task, cmd) := by simp [atCall, hw, hst, hf]
  simp [answered, hcall]

theorem answered_other (h : p.1.atCall = none) : answered db p a = (a, p.2) := by
  unfold answered
  rw [h]
  cases a <;> rfl

theorem answered_event (ha : ∀ ok value, a ≠ .worker ok value) : answered db p a = (a, p.2) := by
  cases a with
  | worker ok value => exact absurd rfl (ha ok value)
  | _ => rfl

theorem answered_worker (ok : Bool) (value : Bytes) :
    ∃ ok' value' d', answered db p (.worker ok value) = (.worker ok' value', d') := by
  cases hcall : p.1.atCall with
  | none => exact ⟨ok, value, p.2, answered_other hcall⟩
  | some call =>
    refine ⟨(db.reply p.2 (p.1.outputBytes call.1.fd) call.2).1,
      (db.reply p.2 (p.1.outputBytes call.1.fd) call.2).2.1,
      (db.reply p.2 (p.1.outputBytes call.1.fd) call.2).2.2, ?_⟩
    simp only [answered, hcall]

theorem Serving.serial {w : Worker} (h : Serving db contents d₀ d tr w)
    (hw : w.tasks.all (·.2 ≠ .executing) = true) :
    serial db contents (ended tr) d₀ = some (said tr, d) := by
  cases h with
  | between _ _ hserial => exact hserial
  | exec => cases hw
  | finish => cases hw

/-- A round of the loop at a call of leveldb that succeeds. -/
theorem course_round {task : Task} {st st' : Nat} {cmd : Cmd} {d₁ : D} {values : List Bytes}
    (hst : st < task.cmd.length) (hf : fetch task.cmd st = .call cmd st')
    (hok : (db.run d cmd).1 = true)
    (hcourse : course db contents (reading task.cmd) d₁ =
      (course db contents (reading (task.cmd.drop st)) d).map
        fun res => (values ++ res.1, res.2)) :
    course db contents (reading task.cmd) d₁ =
      (course db contents (reading (task.cmd.drop (st' + 1))) (db.run d cmd).2).map
        fun res => (values ++ db.gotten contents [cmd] d ++ res.1, res.2) := by
  have hread := reading_fetch hst
  rw [hf] at hread
  rw [hcourse, hread, course_cons, if_pos hok, Option.map_map]
  simp only [Function.comp_def, List.append_assoc]

/-- How the loop ends: the status, and the database it leaves. -/
theorem course_end {task : Task} {st : Nat} {d' : D} {good : Bool}
    (hend : task.cmd.length ≤ st ∧ good = true ∧ d' = d ∨
      st < task.cmd.length ∧ good = false ∧ (fetch task.cmd st = .invalid ∧ d' = d ∨
        ∃ cmd st', fetch task.cmd st = .call cmd st' ∧ (db.run d cmd).1 = false ∧
          d' = (db.run d cmd).2)) :
    course db contents (reading (task.cmd.drop st)) d = some ([], good, d') := by
  obtain ⟨hst, rfl, rfl⟩ | ⟨hst, rfl, ⟨hf, rfl⟩ | ⟨cmd, st', hf, hrun, rfl⟩⟩ := hend
  · rw [List.drop_eq_nil_of_le hst]
    rfl
  · have hread := reading_fetch hst
    rw [hf] at hread
    rw [hread, course_nil]
  · have hread := reading_fetch hst
    rw [hf] at hread
    rw [hread, course_cons, if_neg (by simp [hrun])]

/-- What leveldb has answered, where the worker is at a call. -/
theorem answered_run (hlaws : db.GetLaws contents) {task : Task} {st st' : Nat} {cmd : Cmd}
    {ok ok' : Bool} {value value' : Bytes} {d' : D} (hw : p.1.worker = .exec task st)
    (hst : st < task.cmd.length) (hf : fetch task.cmd st = .call cmd st')
    (hb : answered db p (.worker ok value) = (.worker ok' value', d')) :
    ok' = (db.run p.2 cmd).1 ∧ d' = (db.run p.2 cmd).2 ∧
      value' = (db.reply p.2 (p.1.outputBytes task.fd) cmd).2.1 := by
  obtain ⟨hok, hd⟩ := LevelDb.reply_run hlaws p.2 (p.1.outputBytes task.fd) cmd
  rw [answered_call hw hst hf] at hb
  obtain ⟨hact, rfl⟩ := Prod.mk.inj hb
  obtain ⟨rfl, rfl⟩ := Act.worker.inj hact
  exact ⟨hok, hd, rfl⟩

theorem answered_rest {b : Act} {d' : D} (hnone : p.1.atCall = none)
    (hb : answered db p a = (b, d')) : d' = p.2 := by
  rw [answered_other hnone] at hb
  exact (Prod.mk.inj hb).2.symm

/-- The worker before and after the loop of `handleCmd` -/
theorem serving_task (hlaws : db.GetLaws contents) {ok : Bool} {value : Bytes}
    (h : Serving db contents d₀ d tr s.worker) (hs : s.step (.worker ok value) = some s')
    (hexec : ∀ task st, s.worker ≠ .exec task st) :
    Serving db contents d₀ d (tr ++ s.observe (.worker ok value)) s'.worker := by
  cases step_cases hs with
  | closes _ _ _ hcloses => cases hcloses
  | take _ _ task queue hw hq =>
    have hos : s.observe (.worker ok value) = [.take task] := by simp [observe, hw, hq]
    rw [hw] at h
    rw [hos]
    exact .between _ rfl ((h.keep (show ended [.take task] = [] from rfl) rfl).serial rfl)
  | startCrash _ _ task e hw he =>
    have hos : s.observe (.worker ok value) = [] := by
      obtain ⟨hcl, -⟩ | ⟨-, hcmd, -⟩ := he
      · simp [observe, hw, hcl]
      · simp [observe, hw, hcmd]
    rw [hos, List.append_nil]
    exact h
  | startExit _ _ task c hw hcl hexit =>
    have hos : s.observe (.worker ok value) = [.exit task] := by simp [observe, hw, hcl, hexit]
    rw [hw] at h
    rw [hos]
    refine .between _ rfl ?_
    have hended : ended (tr ++ [.exit task]) = ended tr ++ [task] := by simp [ended]
    have hsaid : said (tr ++ [.exit task]) = said tr := by simp [said]
    rw [hended, hsaid, serial_snoc (h.serial rfl), serve, if_pos hexit]
  | startExec _ _ task w hw _ hhead hne =>
    have hos : s.observe (.worker ok value) = [] := by simp [observe, hw, hhead, hne]
    rw [hw] at h
    rw [hos, List.append_nil]
    exact .exec task 0 (said tr) [] _ (by simp [hhead, hne]) (h.serial rfl) (by simp [texts])
      (by simp)
  | finish _ good _ task hw =>
    have hos : s.observe (.worker ok value) = [.answer task good] := by simp [observe, hw]
    rw [hw] at h
    rw [hos]
    cases h with
    | between _ hwait => cases hwait
    | finish _ _ before values d₁ hexit hserial htexts hcourse =>
      refine .between _ rfl ?_
      have hended : ended (tr ++ [.answer task good]) = ended tr ++ [task] := by simp [ended]
      have hsaid : said (tr ++ [.answer task good]) = said tr ++ [(task, answer good)] := by
        simp [said]
      rw [hended, hsaid, serial_snoc hserial, serve_eq hlaws _ hexit, hcourse, htexts]
      rfl
  | notify _ _ task hw _ | notifyFull _ _ task hw _ =>
    have hos : s.observe (.worker ok value) = [] := by simp [observe, hw]
    rw [hw] at h
    rw [hos, List.append_nil]
    exact .between _ rfl (h.serial rfl)
  | execGet _ _ task st _ hw | execCall _ task st _ _ hw | execEnd _ _ task st _ hw
  | execCrash _ _ task st hw => exact absurd hw (hexec task st)

/-- A round of the loop of `handleCmd` -/
theorem serving_exec (hlaws : db.GetLaws contents) {ok ok' : Bool} {value value' : Bytes} {d' : D}
    {task : Task} {st : Nat} (h : Serving db contents d₀ p.2 tr (.exec task st))
    (hw : p.1.worker = .exec task st)
    (hb : answered db p (.worker ok value) = (.worker ok' value', d'))
    (hs : p.1.step (.worker ok' value') = some s') :
    Serving db contents d₀ d' (tr ++ p.1.observe (.worker ok' value')) s'.worker := by
  cases h with
  | between _ hwait => cases hwait
  | exec _ _ before values d₁ hexit hserial htexts hcourse =>
    cases step_cases hs with
    | closes _ _ _ hcloses => cases hcloses
    | execGet _ key _ _ st' hw' hst hf =>
      obtain ⟨rfl, rfl⟩ := Worker.exec.inj (hw.symm.trans hw')
      have hos : p.1.observe (.worker true value') = [.got task value'] := by
        simp [observe, hw, hf, hst]
      obtain ⟨hok, rfl, hvalue⟩ := answered_run hlaws hw hst hf hb
      have hgot : db.gotten contents [.get key] p.2 = [value'] := by
        have hget : (db.get p.2 key (p.1.outputBytes task.fd)).1 = true := by
          rw [(hlaws.get_out _ _ _).1]
          exact hok.symm
        have hvalue' : value' = (db.get p.2 key (p.1.outputBytes task.fd)).2.1 := hvalue
        simp [LevelDb.gotten, ← hok, hlaws.get_ok _ _ _ hget, hvalue']
      rw [hos]
      refine .exec task _ before (values ++ [value']) d₁ hexit ?_ ?_ ?_
      · simpa [ended] using hserial
      · rw [said_append, htexts]
        simp [said, texts]
      · have := course_round hst hf hok.symm hcourse
        rwa [hgot] at this
    | execCall _ _ _ st' cmd hw' hst hf hget =>
      obtain ⟨rfl, rfl⟩ := Worker.exec.inj (hw.symm.trans hw')
      obtain ⟨hok, rfl, -⟩ := answered_run hlaws hw hst hf hb
      have hgot : db.gotten contents [cmd] p.2 = [] := by
        cases cmd with
        | get key => exact absurd rfl (hget key)
        | _ => simp [LevelDb.gotten]
      rw [observe_execCall hw hf hget, List.append_nil]
      refine .exec task _ before values d₁ hexit hserial htexts ?_
      have := course_round hst hf hok.symm hcourse
      rwa [hgot, List.append_nil] at this
    | execEnd _ _ _ _ good hw' hend =>
      obtain ⟨rfl, rfl⟩ := Worker.exec.inj (hw.symm.trans hw')
      rw [observe_execEnd hw hend, List.append_nil]
      refine .finish task good before values d₁ hexit hserial htexts ?_
      have hlast : course db contents (reading (task.cmd.drop st)) p.2 = some ([], good, d') := by
        obtain ⟨hst, hgood⟩ | ⟨hst, hgood, hf | ⟨hfail, cmd, st', hf⟩⟩ := hend
        · exact course_end (.inl ⟨hst, hgood,
            answered_rest (by simp [atCall, hw, Nat.not_lt.2 hst]) hb⟩)
        · exact course_end (.inr ⟨hst, hgood, .inl ⟨hf,
            answered_rest (by simp [atCall, hw, hf]) hb⟩⟩)
        · obtain ⟨hok, hd, -⟩ := answered_run hlaws hw hst hf hb
          exact course_end (.inr ⟨hst, hgood, .inr ⟨cmd, st', hf, hok ▸ hfail, hd⟩⟩)
      rw [hcourse, hlast]
      simp
    | execCrash _ _ _ _ hw' hst hf =>
      obtain ⟨rfl, rfl⟩ := Worker.exec.inj (hw.symm.trans hw')
      have hos : p.1.observe (.worker ok' value') = [] := by simp [observe, hw, hf]
      obtain rfl := answered_rest (by simp [atCall, hw, hf]) hb
      have hcrash : (p.1.crash .pastEnd).worker = .exec task st := hw
      rw [hos, List.append_nil, hcrash]
      exact .exec task st before values d₁ hexit hserial htexts hcourse
    | take _ _ _ _ hw' | startCrash _ _ _ _ hw' | startExit _ _ _ _ hw' | startExec _ _ _ _ hw'
    | finish _ _ _ _ hw' | notify _ _ _ hw' | notifyFull _ _ _ hw' => cases hw.symm.trans hw'

/-- The worker's part of a step. -/
theorem serving_work (hlaws : db.GetLaws contents) {b : Act} {d' : D} {ok : Bool} {value : Bytes}
    (h : Serving db contents d₀ p.2 tr p.1.worker)
    (hb : answered db p (.worker ok value) = (b, d')) (hs : p.1.step b = some s') :
    Serving db contents d₀ d' (tr ++ p.1.observe b) s'.worker := by
  obtain ⟨ok', value', d'', hact⟩ := @answered_worker D db p ok value
  obtain ⟨rfl, rfl⟩ := Prod.mk.inj (hb.symm.trans hact)
  by_cases hexec : ∃ task st, p.1.worker = .exec task st
  · obtain ⟨task, st, hw⟩ := hexec
    rw [hw] at h
    exact serving_exec hlaws h hw hb hs
  · have hne : ∀ task st, p.1.worker ≠ .exec task st := fun task st hw => hexec ⟨task, st, hw⟩
    have hnone : p.1.atCall = none := by
      unfold atCall
      split
      · rename_i task st hw
        exact absurd hw (hne task st)
      · rfl
    rw [answered_rest hnone hb]
    exact serving_task hlaws h hs hne

theorem serving_step (hlaws : db.GetLaws contents) (p : Server × D) (tr : List Event) (a : Act)
    (p' : Server × D) (h : Serving db contents d₀ p.2 tr p.1.worker)
    (hs : stepOn db p a = some p') :
    Serving db contents d₀ p'.2 (tr ++ observeOn db p a) p'.1.worker := by
  obtain ⟨hstep, hd⟩ := stepOn_eq_some.1 hs
  rw [hd]
  by_cases ha : ∃ ok value, a = .worker ok value
  · obtain ⟨ok, value, rfl⟩ := ha
    exact serving_work hlaws h rfl hstep
  · have hne : ∀ ok value, a ≠ .worker ok value := fun ok value he => ha ⟨ok, value, he⟩
    rw [observeOn]
    rw [answered_event hne] at hstep ⊢
    obtain ⟨hw, hended, hsaid⟩ := event_loop_step hstep hne
    rw [hw]
    exact h.keep hended hsaid

theorem serving_run (hlaws : db.GetLaws contents) {as : List Act}
    (hr : exec (stepOn db) (init, d₀) as = some (s, d)) :
    Serving db contents d₀ d (traceOn db d₀ as) s.worker :=
  invariant_emitted (I := fun p tr => Serving db contents d₀ p.2 tr p.1.worker)
    (serving_step hlaws) (.between _ rfl rfl) hr

/-! ### Over whole runs -/

theorem served_run (hlaws : db.GetLaws contents) {as : List Act}
    (hr : exec (stepOn db) (init, d₀) as = some (s, d)) (hidle : s.worker.holds = []) :
    serial db contents (ended (traceOn db d₀ as)) d₀ = some (said (traceOn db d₀ as), d) := by
  have hw : s.worker.tasks.all (·.2 ≠ .executing) = true := by
    cases hw : s.worker with
    | idle => rfl
    | notify => rfl
    | _ => simp [hw, Worker.holds] at hidle
  exact (serving_run hlaws hr).serial hw

/-- On a database that fails at nothing but the get of an absent key, a run answers and stores what
a plain map would, given the tasks one after the other. -/
theorem served_map (hdb : db.Healthy contents) {as : List Act}
    (hr : exec (stepOn db) (init, d₀) as = some (s, d)) (hidle : s.worker.holds = []) :
    serial LevelDb.ofMap id (ended (traceOn db d₀ as)) (contents d₀) =
      some (said (traceOn db d₀ as), contents d) := by
  rw [← serial_map hdb, served_run hdb.toGetLaws hr hidle]
  rfl

/-- However the threads interleave, between two tasks the database and all that was said in reply
are what comes of serving the tasks one after the other in the order of the queue. -/
theorem run_serial (hlaws : db.GetLaws contents) {as : List Act}
    (hr : exec (stepOn db) (init, d₀) as = some (s, d)) (hidle : s.worker.holds = []) :
    serial db contents (ended (traceOn db d₀ as)) d₀ = some (said (traceOn db d₀ as), d) ∧
      puts (traceOn db d₀ as) = ended (traceOn db d₀ as) ++ s.queue := by
  obtain ⟨bs, hbs, htrace⟩ := run_of_runOn hr
  have horder := (queueing_run hbs).in_order
  rw [htrace, hidle, List.append_nil] at horder
  exact ⟨served_run hlaws hr hidle, horder⟩

/-- A request of a set and a get, from the read to the notification. -/
def storeRun : List Act :=
  [.accept 10 false, .input 10 (ascii "set k v get k\n"), .io .again] ++
    List.replicate 7 (.worker false [])

def storeTask : Task := ⟨10, [ascii "set", ascii "k", ascii "v", ascii "get", ascii "k"], 0⟩

theorem storeRun_trace : ended (traceOn LevelDb.ofMap (fun _ => none) storeRun) = [storeTask] ∧
    said (traceOn LevelDb.ofMap (fun _ => none) storeRun) =
      [(storeTask, ascii "v\n"), (storeTask, ascii "OK!\n")] := by
  decide +kernel

theorem storeRun_exec : ∃ s d, exec (stepOn LevelDb.ofMap) (init, fun _ => none) storeRun =
    some (s, d) ∧ s.worker.holds = [] := by
  have hrun : (exec (stepOn LevelDb.ofMap) (init, fun _ => none) storeRun).map
      (·.1.worker.holds) = some [] := by decide +kernel
  obtain ⟨⟨s, d⟩, hs, hw⟩ := Option.map_eq_some_iff.1 hrun
  exact ⟨s, d, hs, hw⟩

theorem run_serial_get : ∃ s d, exec (stepOn LevelDb.ofMap) (init, fun _ => none) storeRun =
    some (s, d) ∧ serial LevelDb.ofMap id [storeTask] (fun _ => none) =
      some ([(storeTask, ascii "v\n"), (storeTask, ascii "OK!\n")], d) := by
  obtain ⟨s, d, hs, hw⟩ := storeRun_exec
  have h := (run_serial LevelDb.ofMap_laws.toGetLaws hs hw).1
  rw [storeRun_trace.1, storeRun_trace.2] at h
  exact ⟨s, d, hs, h⟩

end Server

end LittleLearning.Db
