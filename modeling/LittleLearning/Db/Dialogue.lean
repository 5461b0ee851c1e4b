import LittleLearning.Db.Reads
import LittleLearning.Db.Replies

/-!
# A client's dialogue with the server

What a client reads that is alone with the server is what a key-value store says
to its requests, one after the other. `respond` and `dialogue` are that store. The
server comes to it through the parser, the queue, `handleCmd` and the replies, each
with a theorem of its own; here they are put together (`round_trip`).
-/

namespace LittleLearning.Db

open Cxx Transition

/-! ### The key-value store -/

/-- What is said to the commands of a request: the values of the gets, then how it has gone. A get
of an absent key is the end of the request; after a `del` without a key nothing is said. -/
def respond : List Cmd → Ending → (Bytes → Option Bytes) → Option (Bytes × (Bytes → Option Bytes))
  | [], .complete, m => some (ascii "OK!\n", m)
  | [], .malformed, m => some (ascii "Error!\n", m)
  | [], .danglingDel, _ => none
  | .set k v :: cmds, ending, m => respond cmds ending (Function.update m k (some v))
  | .del k :: cmds, ending, m => respond cmds ending (Function.update m k none)
  | .get k :: cmds, ending, m =>
    match m k with
    | some v => (respond cmds ending m).map fun res => (v ++ [lf] ++ res.1, res.2)
    | none => some (ascii "Error!\n", m)

/-- Requests by their words; `exit` is not answered. -/
def dialogue : List (List Bytes) → (Bytes → Option Bytes) →
    Option (Bytes × (Bytes → Option Bytes))
  | [], m => some ([], m)
  | cmd :: cmds, m =>
    if cmd.head? = some (ascii "exit") then dialogue cmds m
    else (respond (reading cmd).1 (reading cmd).2 m).bind fun res =>
      (dialogue cmds res.2).map fun rest => (res.1 ++ rest.1, rest.2)

/-! ### A call of `handleCmd` responds -/

theorem respond_eq (cmds : List Cmd) (ending : Ending) (m : Bytes → Option Bytes) :
    respond cmds ending m = (course LevelDb.ofMap id (cmds, ending) m).map fun res =>
      (appended res.1 ++ Server.answer res.2.1, res.2.2) := by
  induction cmds generalizing m with
  | nil =>
    rw [course_nil]
    cases ending <;> rfl
  | cons cmd cmds ih =>
    rw [course_cons]
    cases cmd with
    | set k v =>
      have hrun : LevelDb.ofMap.run m (.set k v) = (true, Function.update m k (some v)) := rfl
      rw [respond, ih, hrun, if_pos rfl, Option.map_map]
      rfl
    | del k =>
      have hrun : LevelDb.ofMap.run m (.del k) = (true, Function.update m k none) := rfl
      rw [respond, ih, hrun, if_pos rfl, Option.map_map]
      rfl
    | get k =>
      cases hk : m k with
      | none =>
        have hrun : LevelDb.ofMap.run m (.get k) = (false, m) := by
          simp [LevelDb.run, LevelDb.ofMap, hk]
        simp only [respond, hk, hrun]
        rfl
      | some v =>
        have hrun : LevelDb.ofMap.run m (.get k) = (true, m) := by
          simp [LevelDb.run, LevelDb.ofMap, hk]
        have hgotten : LevelDb.ofMap.gotten id [.get k] m = [v] := by
          simp [LevelDb.gotten, hrun, hk]
        simp only [respond, hk, hrun, hgotten, if_true, ih, Option.map_map]
        refine congrArg (Option.map · _) (funext fun res => ?_)
        simp [appended]

/-- The texts of the replies to some tasks, as one text. -/
def textOf (out : List (Task × Bytes)) : Bytes := out.flatMap Prod.snd

theorem serve_respond (p : List (Task × Bytes) × (Bytes → Option Bytes)) {task : Task}
    (hexit : task.cmd.head? ≠ some (ascii "exit")) :
    (serve LevelDb.ofMap id p task).map (Prod.map textOf id) =
      (respond (reading task.cmd).1 (reading task.cmd).2 p.2).map fun res =>
        (textOf p.1 ++ res.1, res.2) := by
  rw [serve_eq LevelDb.ofMap_laws.toGetLaws p hexit, respond_eq, Option.map_map, Option.map_map]
  refine congrArg (Option.map · _) (funext fun res => ?_)
  simp [textOf, texts, appended, List.flatMap_map]

/-- Of the tasks only the words matter. -/
theorem serial_dialogue (tasks : List Task) (m : Bytes → Option Bytes) :
    (serial LevelDb.ofMap id tasks m).map (Prod.map textOf id) =
      dialogue (tasks.map Task.cmd) m := by
  have hfold : ∀ p : List (Task × Bytes) × (Bytes → Option Bytes),
      (tasks.foldlM (serve LevelDb.ofMap id) p).map (Prod.map textOf id) =
        (dialogue (tasks.map Task.cmd) p.2).map fun res => (textOf p.1 ++ res.1, res.2) := by
    induction tasks with
    | nil =>
      intro p
      simp [dialogue, Prod.map]
    | cons task tasks ih =>
      intro p
      rw [List.foldlM_cons, List.map_cons, dialogue]
      by_cases hexit : task.cmd.head? = some (ascii "exit")
      · rw [if_pos hexit, serve, if_pos hexit]
        exact ih p
      · have hserve := serve_respond p hexit
        rw [if_neg hexit]
        cases hp : serve LevelDb.ofMap id p task with
        | none =>
          rw [hp, Option.map_none, eq_comm, Option.map_eq_none_iff] at hserve
          rw [hserve]
          rfl
        | some p' =>
          rw [hp, Option.map_some, eq_comm, Option.map_eq_some_iff] at hserve
          obtain ⟨res, hres, hp'⟩ := hserve
          obtain ⟨htext, hstore⟩ := Prod.mk.inj hp'
          rw [hres]
          refine (ih p').trans ?_
          have hstore : res.2 = p'.2 := hstore
          rw [Option.bind_some, ← htext, hstore, Option.map_map]
          refine congrArg (Option.map · _) (funext fun rest => ?_)
          simp
  rw [serial, hfold]
  simp [textOf]

/-- What is said is said to the tasks. -/
theorem mem_of_serial {D : Type} {db : LevelDb D} {contents : D → Bytes → Option Bytes}
    {tasks : List Task} {d d' : D} {out : List (Task × Bytes)}
    (h : serial db contents tasks d = some (out, d')) {p : Task × Bytes} (hp : p ∈ out) :
    p.1 ∈ tasks := by
  have hfold : ∀ q : List (Task × Bytes) × D, tasks.foldlM (serve db contents) q = some (out, d') →
      p ∈ q.1 ∨ p.1 ∈ tasks := by
    clear h
    induction tasks with
    | nil =>
      intro q hq
      obtain rfl := Option.some.inj hq
      exact .inl hp
    | cons task tasks ih =>
      intro q hq
      rw [List.foldlM_cons, Option.bind_eq_bind, Option.bind_eq_some_iff] at hq
      obtain ⟨q', hserve, hq⟩ := hq
      obtain hmem | hmem := ih q' hq
      · unfold serve at hserve
        split at hserve
        · obtain rfl := Option.some.inj hserve
          exact .inl hmem
        · obtain ⟨res, -, rfl⟩ := Option.map_eq_some_iff.1 hserve
          simp only [List.mem_append, texts, List.mem_map, List.mem_singleton] at hmem
          obtain (hmem | ⟨v, -, rfl⟩) | rfl := hmem
          · exact .inl hmem
          · exact .inr List.mem_cons_self
          · exact .inr List.mem_cons_self
      · exact .inr (List.mem_cons_of_mem _ hmem)
  exact (hfold ([], d) h).resolve_left List.not_mem_nil

namespace Server

open Event

variable {D : Type} {db : LevelDb D} {contents : D → Bytes → Option Bytes} {d₀ d : D} {s : Server}
  {as : List Act}

/-- In a gentle run whose only requests come in under `fd`, in harmless pieces, what has been sent
to that fd and what is left to send are what a key-value store says to the requests that are due,
as soon as nothing of them is under way. -/
theorem round_trip (hdb : db.Healthy contents)
    (hg : Along (stepOn db) (fun p a => Gentle p.1 (answered db p a).1) (init, d₀) as)
    (hr : exec (stepOn db) (init, d₀) as = some (s, d))
    (hquiet : s.worker.holds = [] ∧ s.queue = [] ∧ s.io.tasks = []) (fd : Int) (rs : List Request)
    (hwf : ∀ r ∈ rs, r.WellFormed) (htot : (stream rs).length < 2 ^ 30)
    (hpre : (readsOf fd (traceOn db d₀ as)).flatten <+: stream rs)
    (hne : [] ∉ readsOf fd (traceOn db d₀ as))
    (hharm : HarmlessRun fd (readsOf fd (traceOn db d₀ as)))
    (halone : ∀ fd', fd' ≠ fd → readsOf fd' (traceOn db d₀ as) = []) :
    dialogue ((rs.take (due rs (readsOf fd (traceOn db d₀ as)))).map Request.args) (contents d₀) =
      some (sentTo fd (traceOn db d₀ as) ++ (s.outputBytes fd).drop (s.held fd), contents d) := by
  obtain ⟨hholds, hqueue, htasks⟩ := hquiet
  obtain ⟨bs, hbs, htrace⟩ := run_of_runOn hr
  have hserial := served_map hdb hr hholds
  have hsent := (balanced_run hg hr).bytes fd
  have hputs : puts (traceOn db d₀ as) = ended (traceOn db d₀ as) := by
    have h := (queueing_run hbs).in_order
    rwa [htrace, hholds, hqueue, List.append_nil, List.append_nil] at h
  -- every task is one of `fd`
  have hfd : ∀ task ∈ ended (traceOn db d₀ as), task.fd = fd := by
    intro task htask
    by_contra hother
    have hnone := commands_of_reads hbs task.fd
    rw [htrace, halone _ hother, hputs, htasks] at hnone
    have hmem : task ∈ (ended (traceOn db d₀ as) ++ []).filter
        fun t : Task => t.fd = task.fd := by
      simpa using htask
    have hcmd := List.mem_map_of_mem (f := Task.cmd) hmem
    rw [hnone] at hcmd
    cases hcmd
  have hcmds := commands_of_reads hbs fd
  rw [session_of_requests hbs hwf htot (htrace ▸ hpre) (htrace ▸ hne) (htrace ▸ hharm)] at hcmds
  have hself : (ended (traceOn db d₀ as)).filter (·.fd = fd) = ended (traceOn db d₀ as) :=
    List.filter_eq_self.2 fun (task : Task) htask => decide_eq_true (hfd task htask)
  rw [htrace, hputs, htasks, List.append_nil, hself] at hcmds
  have hout : (said (traceOn db d₀ as)).filter (·.1.fd = fd) = said (traceOn db d₀ as) :=
    List.filter_eq_self.2 fun (p : Task × Bytes) hp =>
      decide_eq_true (hfd p.1 (mem_of_serial hserial hp))
  rw [← hcmds, ← serial_dialogue, hserial, ← hsent, saidTo, hout]
  rfl

theorem round_trip_set : ∃ s d,
    exec (stepOn LevelDb.ofMap) (init, fun _ => none) replyRun = some (s, d) ∧
    dialogue [[ascii "set", ascii "k", ascii "v"]] (fun _ => none) =
      some (ascii "OK!\n" ++ (s.outputBytes 10).drop (s.held 10), d) := by
  have hrun : (exec (stepOn LevelDb.ofMap) (init, fun _ => none) replyRun).map
      (fun p => (p.1.worker.holds, p.1.queue, p.1.io.tasks)) = some ([], [], []) := by
    decide +kernel
  have hg : Along (stepOn LevelDb.ofMap) (fun p a => Gentle p.1 (answered LevelDb.ofMap p a).1)
      (init, fun _ => none) replyRun := by decide +kernel
  have htrace : traceOn LevelDb.ofMap (fun _ => none) replyRun =
      [.read 10 (ascii "set k v\n"), .put ⟨10, [ascii "set", ascii "k", ascii "v"], 0⟩,
        .take ⟨10, [ascii "set", ascii "k", ascii "v"], 0⟩,
        .answer ⟨10, [ascii "set", ascii "k", ascii "v"], 0⟩ true, .sent 10 (ascii "OK!\n")] := by
    decide +kernel
  have hreads : readsOf 10 (traceOn LevelDb.ofMap (fun _ => none) replyRun) =
      [ascii "set k v\n"] := by
    rw [htrace]
    rfl
  obtain ⟨⟨s, d⟩, hs, hquiet⟩ := Option.map_eq_some_iff.1 hrun
  simp only [Prod.mk.injEq] at hquiet
  have h := round_trip LevelDb.ofMap_healthy hg hs hquiet 10
    [.inline [ascii "set", ascii "k", ascii "v"] false]
    (by decide +kernel) (by decide +kernel) (by rw [hreads]; decide +kernel)
    (by rw [hreads]; decide) (fun k data hk => by
      rw [hreads] at hk ⊢
      match k with
      | 0 => exact .inl rfl
      | k + 1 => simp at hk)
    (fun fd' hfd' => by
      rw [htrace]
      simp [readsOf, hfd'.symm])
  rw [hreads, htrace] at h
  exact ⟨s, d, hs, h⟩

end Server

end LittleLearning.Db
