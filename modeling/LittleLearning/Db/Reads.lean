import LittleLearning.Db.Session
import LittleLearning.Db.Trace

/-!
# What the server makes of the bytes it reads

The two threads may interleave in any way, and the worker may change a client
between two reads; still the parser of every client goes through the session of
the bytes read from its fd alone (`Parsing`). So what is known of a session is
known of a run of the server: which tasks the worker gets, and whether a read
ends the process.
-/

namespace LittleLearning.Db

open Cxx Transition

namespace Server

open Event

variable {s s' : Server} {a : Act} {tr : List Event}

/-! ### The parsers -/

/-- The session of the bytes read from `fd` and of nothing else. -/
def session (fd : Int) (tr : List Event) : Session := Session.run fd (readsOf fd tr)

/-- The exit flag under `fd`: end-of-file was read, or an `exit` was executed. -/
def flag (fd : Int) (tr : List Event) : Bool := (readsOf fd tr).any List.isEmpty || exited fd tr

/-- The client under `fd` has the parser of the session. -/
def Follows (fd : Int) (tr : List Event) : Option (Client OutByte) → Prop
  | none => readsOf fd tr = [] ∧ exited fd tr = false
  | some c => c = (session fd tr).client.graft (flag fd tr) c.output

section

variable {fd : Int} {os : List Event} {c c' : Option (Client OutByte)}

theorem session_unread (h : readsOf fd os = []) : session fd (tr ++ os) = session fd tr := by
  rw [session, readsOf_append, h, List.append_nil, session]

theorem Follows.unread (h : Follows fd tr c) (hreads : readsOf fd os = [])
    (hexit : exited fd os = false) (hre : Regraft fd c c') : Follows fd (tr ++ os) c' := by
  have hr : readsOf fd (tr ++ os) = readsOf fd tr := by rw [readsOf_append, hreads, List.append_nil]
  have hx : exited fd (tr ++ os) = exited fd tr := by rw [exited_append, hexit, Bool.or_false]
  cases hre with
  | absent => exact ⟨hr.trans h.1, hx.trans h.2⟩
  | new =>
    show _ = Client.graft _ _ _
    rw [session_unread hreads, session, flag, hr, hx, h.1, h.2]
    rfl
  | graft c out =>
    have hflag := congrArg Client.isExited h
    have hgraft := congrArg (fun d : Client OutByte => d.graft c.isExited out) h
    show _ = Client.graft _ _ _
    rw [session_unread hreads, flag, hr, hx]
    rw [hflag] at hgraft ⊢
    exact hgraft

theorem session_read (fd : Int) (tr : List Event) (data : Bytes) :
    session fd (tr ++ [.read fd data]) = (session fd tr).feed data := by
  have hreads : readsOf fd (tr ++ [.read fd data]) = readsOf fd tr ++ [data] := by
    simp [readsOf]
  rw [session, hreads, Session.run_snoc]
  rfl

theorem readsOf_read_ne {fd' : Int} (h : fd' ≠ fd) (data : Bytes) :
    readsOf fd' [.read fd data] = [] := by
  simp [readsOf, h.symm]

theorem flag_read (fd : Int) (tr : List Event) (data : Bytes) :
    flag fd (tr ++ [.read fd data]) = (flag fd tr || data.isEmpty) := by
  have hreads : readsOf fd [.read fd data] = [data] := by simp [readsOf]
  rw [flag, flag, readsOf_append, hreads, exited_append]
  simp [exited, Bool.or_right_comm]

/-- What the session's parser does with the bytes, the client's does. -/
theorem Follows.processInput {c : Client OutByte} (h : Follows fd tr (some c)) (data : Bytes) :
    c.processInput data = ((session fd tr).client.processInput data).map
      (Prod.map id (·.graft (flag fd tr || data.isEmpty) c.output)) := by
  have heq : c = _ := h
  generalize c.output = out at *
  rw [heq, Client.processInput_graft]

end

/-- The clients follow the sessions, which have dispatched what was put into the queue or is on its
way there. -/
structure Parsing (s : Server) (tr : List Event) : Prop where
  clients : ∀ fd, Follows fd tr (s.clients fd)
  tasks : ∀ fd, ((puts tr ++ s.io.tasks).filter (·.fd = fd)).map Task.cmd = (session fd tr).tasks
  crashed : ∀ fd e, (session fd tr).crashed = some e → s.down = some (.exception e)
  down : ∀ e, s.down = some (.exception e) → ∃ fd, (session fd tr).crashed = some e

theorem Parsing.notCrashed (h : Parsing s tr) (hd : s.down = none) (fd : Int) :
    (session fd tr).crashed = none := by
  cases hc : (session fd tr).crashed with
  | none => rfl
  | some e => simpa [hd] using h.crashed fd e hc

/-- A step that reads nothing and dispatches nothing. -/
theorem Parsing.keep (h : Parsing s tr) {os : List Event} (hd : s.down = none)
    (hreads : ∀ fd, readsOf fd os = []) (hcl : ∀ fd, Follows fd (tr ++ os) (s'.clients fd))
    (htasks : puts os ++ s'.io.tasks = s.io.tasks)
    (hdown : ∀ e, s'.down ≠ some (.exception e)) : Parsing s' (tr ++ os) := by
  refine ⟨hcl, fun fd => ?_, fun fd e he => ?_, fun e he => absurd he (hdown e)⟩
  · rw [session_unread (hreads fd), puts_append, List.append_assoc, htasks]
    exact h.tasks fd
  · rw [session_unread (hreads fd), h.notCrashed hd] at he
    cases he

theorem Parsing.read (h : Parsing s tr) (hd : s.down = none) {fd : Int} {data : Bytes}
    {conn : ConnId} {c c' : Client OutByte} {cmd : Option (List Bytes)} (hio : s.io = .idle)
    (hio' : s'.io.tasks = cmd.toList.map (⟨fd, ·, conn⟩)) (hcl : s.clients fd = some c)
    (hcl' : s'.clients = Function.update s.clients fd (some c'))
    (hp : c.processInput data = .ok (cmd, c')) (hd' : s'.down = none) :
    Parsing s' (tr ++ [.read fd data]) := by
  have hfollows := h.clients fd
  rw [hcl] at hfollows
  rw [hfollows.processInput] at hp
  cases hres : (session fd tr).client.processInput data with
  | error e =>
    rw [hres] at hp
    cases hp
  | ok res =>
    rw [hres] at hp
    obtain ⟨hcmd, hc'⟩ := Prod.mk.inj (Except.ok.inj hp)
    have hfeed : session fd (tr ++ [.read fd data]) =
        ⟨res.2, (session fd tr).tasks ++ cmd.toList, none⟩ := by
      rw [session_read, Session.feed, h.notCrashed hd fd, hres, ← hcmd]
      simp
    have hother : ∀ fd', fd' ≠ fd → session fd' (tr ++ [.read fd data]) = session fd' tr :=
      fun fd' hne => session_unread (readsOf_read_ne hne data)
    refine ⟨fun fd' => ?_, fun fd' => ?_, fun fd' e he => ?_,
      fun e he => by rw [hd'] at he; cases he⟩
    · rw [hcl']
      by_cases he : fd' = fd
      · subst he
        rw [Function.update_self]
        show _ = Client.graft _ _ _
        rw [hfeed, flag_read, ← hc']
        rfl
      · rw [Function.update_of_ne he]
        exact (h.clients fd').unread (readsOf_read_ne he data) rfl (.refl _ _)
    · have hputs : puts (tr ++ [.read fd data]) = puts tr := by simp [puts]
      have hidle : Io.idle.tasks = [] := rfl
      have hbefore := h.tasks fd'
      rw [hio, hidle, List.append_nil] at hbefore
      rw [hputs, hio', List.filter_append, List.map_append, hbefore]
      by_cases he : fd' = fd
      · subst he
        rw [hfeed]
        cases cmd <;> simp
      · rw [hother fd' he]
        have he' : ¬ fd = fd' := fun h => he h.symm
        cases cmd <;> simp [he']
    · by_cases he' : fd' = fd
      · subst he'
        rw [hfeed] at he
        cases he
      · rw [hother fd' he', h.notCrashed hd] at he
        cases he

theorem Parsing.readCrash (h : Parsing s tr) (hd : s.down = none) {fd : Int} {data : Bytes}
    {c : Client OutByte} {e : StdException} (hio : s.io = .idle) (hio' : s'.io = .idle)
    (hcl : s.clients fd = some c) (hcl' : s'.clients = s.clients)
    (hp : c.processInput data = .error e) (hd' : s'.down = some (.exception e)) :
    Parsing s' (tr ++ [.read fd data]) := by
  have hfollows := h.clients fd
  rw [hcl] at hfollows
  rw [hfollows.processInput] at hp
  cases hres : (session fd tr).client.processInput data with
  | ok res =>
    rw [hres] at hp
    cases hp
  | error e' =>
    rw [hres] at hp
    obtain rfl : e' = e := Except.error.inj hp
    have hfeed : session fd (tr ++ [.read fd data]) =
        { session fd tr with crashed := some e' } := by
      rw [session_read, Session.feed, h.notCrashed hd fd, hres]
    have hother : ∀ fd', fd' ≠ fd → session fd' (tr ++ [.read fd data]) = session fd' tr :=
      fun fd' hne => session_unread (readsOf_read_ne hne data)
    refine ⟨fun fd' => ?_, fun fd' => ?_, fun fd' e he => ?_, fun e he => ⟨fd, ?_⟩⟩
    · rw [hcl']
      by_cases he : fd' = fd
      · subst he
        -- only end-of-file sets the flag, and it does not get to a parser
        have hdata : data.isEmpty = false := by
          cases data with
          | nil => cases hres
          | cons => rfl
        rw [hcl]
        show c = Client.graft _ _ _
        rw [hfeed, flag_read, hdata, Bool.or_false]
        exact hfollows
      · exact (h.clients fd').unread (readsOf_read_ne he data) rfl (.refl _ _)
    · have hputs : puts (tr ++ [.read fd data]) = puts tr := by simp [puts]
      have hbefore := h.tasks fd'
      rw [hio] at hbefore
      rw [hputs, hio', hbefore]
      by_cases he : fd' = fd
      · subst he
        rw [hfeed]
      · rw [hother fd' he]
    · by_cases he' : fd' = fd
      · subst he'
        rw [hfeed] at he
        cases he
        exact hd'
      · rw [hother fd' he', h.notCrashed hd] at he
        cases he
    · rw [hd'] at he
      cases he
      rw [hfeed]

theorem parsing_step (s : Server) (tr : List Event) (a : Act) (s' : Server) (h : Parsing s tr)
    (hs : s.step a = some s') : Parsing s' (tr ++ s.observe a) := by
  have heff := step_effect hs
  have hd := down_eq_none hs
  generalize s.observe a = os at heff
  cases heff with
  | quiet _ _ hio hre hdown =>
    exact h.keep hd (fun _ => rfl) (fun fd => (h.clients fd).unread rfl rfl (hre fd)) hio hdown
  | read fd data conn c c' cmd _ _ hio hio' hcl hcl' hp hd' =>
    exact h.read hd hio hio' hcl hcl' hp hd'
  | readCrash fd data c e _ _ hio hio' hcl hcl' hp hd' =>
    exact h.readCrash hd hio hio' hcl hcl' hp hd'
  | sent fd bytes _ _ hio hcl hd' =>
    exact h.keep hd (fun _ => rfl) (fun fd => hcl ▸ (h.clients fd).unread rfl rfl (.refl _ _))
      hio (by simp [hd'])
  | put task _ _ hio hio' hcl hd' =>
    exact h.keep hd (fun _ => rfl) (fun fd => hcl ▸ (h.clients fd).unread rfl rfl (.refl _ _))
      (by rw [hio, hio']; rfl) (by simp [hd'])
  | take task _ _ _ hio hcl hd' =>
    exact h.keep hd (fun _ => rfl) (fun fd => hcl ▸ (h.clients fd).unread rfl rfl (.refl _ _))
      (by rw [hio]; rfl) (by simp [hd'])
  | exit task c _ _ _ hio _ hcl hcl' hd' =>
    refine h.keep hd (fun _ => rfl) (fun fd => ?_) (by rw [hio]; rfl) (by simp [hd'])
    rw [hcl']
    by_cases he : fd = task.fd
    · subst he
      rw [Function.update_self]
      have hfollows := h.clients task.fd
      rw [hcl] at hfollows
      have hflag : flag task.fd (tr ++ [.exit task]) = true := by
        simp [flag, exited]
      show _ = Client.graft _ _ _
      rw [session_unread rfl, hflag]
      exact congrArg (fun d : Client OutByte => d.graft true c.output) hfollows
    · rw [Function.update_of_ne he]
      have hexit : exited fd [.exit task] = false := by simp [exited, Ne.symm he]
      exact (h.clients fd).unread rfl hexit (.refl _ _)
  | answer task good _ _ _ hio hre hd' | got task value _ _ hio hre hd' =>
    exact h.keep hd (fun _ => rfl) (fun fd => (h.clients fd).unread rfl rfl (hre fd))
      (by rw [hio]; rfl) (by simp [hd'])

theorem parsing_run {as : List Act} {s : Server} (hr : exec step init as = some s) :
    Parsing s (trace as) := by
  refine invariant_emitted parsing_step ⟨fun _ => ⟨rfl, rfl⟩, fun _ => rfl, fun _ e he => ?_,
    fun e he => ?_⟩ hr
  · cases he
  · cases he

/-! ### Over whole runs -/

variable {as : List Act}

/-- `read` is given room for `queryBuffLen` bytes. -/
theorem input_bounded {fd : Int} {data : Bytes} (h : s.step (.input fd data) = some s') :
    data.length ≤ queryBuffLen := by
  have hd := down_eq_none h
  simp only [step, hd, Option.isSome_none, Bool.false_eq_true, if_false] at h
  cases hc : s.conns fd with
  | none => simp [hc] at h
  | some conn =>
    simp only [hc, Option.ite_none_right_eq_some] at h
    exact h.1.2.2.1

theorem reads_bounded (hr : exec step init as = some s) (fd : Int) :
    ∀ data ∈ readsOf fd (trace as), data.length ≤ queryBuffLen := by
  let I : Server → List Event → Prop :=
    fun _ tr => ∀ data ∈ readsOf fd tr, data.length ≤ queryBuffLen
  suffices hI : ∀ s tr a s', I s tr → step s a = some s' → I s' (tr ++ observe s a) from
    invariant_emitted hI (fun _ h => by cases h) hr
  intro s tr a s' h hs data hdata
  rw [readsOf_append, List.mem_append] at hdata
  rcases hdata with hold | hnew
  · exact h data hold
  · have hevent := (mem_readsOf fd _).1 hnew
    unfold observe at hevent
    cases a with
    | input fd' data' =>
      by_cases hcl : (s.clients fd').isSome = true
      · simp only [if_pos hcl, List.mem_singleton, Event.read.injEq] at hevent
        exact hevent.2 ▸ input_bounded hs
      · simp [hcl] at hevent
    | io st => cases hio : s.io <;> cases st <;> simp [hio] at hevent
    | worker ok value =>
      cases hw : s.worker with
      | idle => cases hq : s.queue <;> simp [hw, hq] at hevent
      | exec task st =>
        simp only [hw] at hevent
        cases hf : fetch task.cmd st with
        | call cmd st' =>
          cases cmd <;> simp [hf] at hevent
        | _ => simp [hf] at hevent
      | start task =>
        simp only [hw] at hevent
        split at hevent <;> simp at hevent
      | _ => simp [hw] at hevent
    | _ => cases hevent

/-- What comes in under an fd is dispatched as the parser, alone, would. -/
theorem commands_of_reads (hr : exec step init as = some s) (fd : Int) :
    ((puts (trace as) ++ s.io.tasks).filter (·.fd = fd)).map Task.cmd =
      (Session.run fd (readsOf fd (trace as))).tasks :=
  (parsing_run hr).tasks fd

/-- What the worker has done, has in hand and has to do for an fd is what the parser, alone, makes
of the bytes read from it. -/
theorem tasks_of_reads (hr : exec step init as = some s) (fd : Int) :
    ((ended (trace as) ++ s.worker.holds ++ s.queue ++ s.io.tasks).filter (·.fd = fd)).map
      Task.cmd = (Session.run fd (readsOf fd (trace as))).tasks := by
  rw [← (queueing_run hr).in_order]
  exact commands_of_reads hr fd

theorem crossRun_reads : readsOf 10 (trace crossRun) = [ascii "get k\n", ascii "*1\r\n$4\r"] ∧
    ended (trace crossRun) = [] := by decide +kernel

theorem tasks_of_reads_cross : ∃ s, exec step init crossRun = some s ∧
    ([⟨10, [ascii "get", ascii "k"], 0⟩, ⟨11, [ascii "exit"], 1⟩].filter fun task : Task =>
      task.fd = 10).map Task.cmd =
      (Session.run 10 [ascii "get k\n", ascii "*1\r\n$4\r"]).tasks := by
  obtain ⟨s, hs, hw, hq, hio, -⟩ := crossRun_exec
  have h := tasks_of_reads hs 10
  rw [crossRun_reads.1, crossRun_reads.2, hw, hq, hio] at h
  exact ⟨s, hs, h⟩

/-- Whatever the threads do in between, the client under an fd is the one its reads leave, but for
the exit flag and the output. -/
theorem client_of_reads (hr : exec step init as = some s) {fd : Int} {c : Client OutByte}
    (hcl : s.clients fd = some c) :
    c.graft false ([] : List UInt8) =
        (Session.run fd (readsOf fd (trace as))).client.graft false [] ∧
      (c.isExited = true ↔ [] ∈ readsOf fd (trace as) ∨
        ∃ task, .exit task ∈ trace as ∧ task.fd = fd) := by
  have h := (parsing_run hr).clients fd
  rw [hcl] at h
  have hexit : c.isExited = flag fd (trace as) := congrArg Client.isExited h
  refine ⟨congrArg (fun d : Client OutByte => d.graft false ([] : List UInt8)) h, ?_⟩
  rw [hexit, flag, Bool.or_eq_true]
  exact or_congr (by simp) (exited_iff fd _)

theorem client_of_reads_cross : ∃ s c, exec step init crossRun = some s ∧ s.clients 10 = some c ∧
    c.graft false ([] : List UInt8) =
      (Session.run 10 [ascii "get k\n", ascii "*1\r\n$4\r"]).client.graft false [] ∧
    c.isExited = false := by
  obtain ⟨s, hs, -, -, -, hcl⟩ := crossRun_exec
  obtain ⟨c, hc, hx⟩ := Option.map_eq_some_iff.1 hcl
  have h := (client_of_reads hs hc).1
  rw [crossRun_reads.1] at h
  exact ⟨s, c, hs, hc, h, hx⟩

/-- The process dies of an exception if and only if the bytes of some connection are such that
they alone make the parser throw it. -/
theorem down_exception_iff (hr : exec step init as = some s) (e : StdException) :
    s.down = some (.exception e) ↔
      ∃ fd, (Session.run fd (readsOf fd (trace as))).crashed = some e :=
  ⟨(parsing_run hr).down e, fun ⟨fd, he⟩ => (parsing_run hr).crashed fd e he⟩

/-- A count that is no number. -/
theorem down_exception_iff_count : ∃ s, exec step init
    [.accept 10 false, .input 10 (ascii "*a\n")] = some s ∧
      s.down = some (.exception .invalidArgument) := by
  have hrun : (exec step init [.accept 10 false, .input 10 (ascii "*a\n")]).isSome = true := by
    decide +kernel
  obtain ⟨s, hs⟩ := Option.isSome_iff_exists.1 hrun
  exact ⟨s, hs, (down_exception_iff hs .invalidArgument).2 ⟨10, by decide +kernel⟩⟩

theorem session_of_requests (hr : exec step init as = some s) {fd : Int} {rs : List Request}
    (hwf : ∀ r ∈ rs, r.WellFormed) (htot : (stream rs).length < 2 ^ 30)
    (hpre : (readsOf fd (trace as)).flatten <+: stream rs)
    (hne : [] ∉ readsOf fd (trace as)) (hharm : HarmlessRun fd (readsOf fd (trace as))) :
    (Session.run fd (readsOf fd (trace as))).tasks =
      (rs.take (due rs (readsOf fd (trace as)))).map Request.args := by
  have hreads : ∀ data ∈ readsOf fd (trace as), data ≠ [] ∧ data.length ≤ queryBuffLen :=
    fun data hdata => ⟨fun h => hne (h ▸ hdata), reads_bounded hr fd data hdata⟩
  exact (decoding_run hwf htot hpre hreads hharm).tasks

/-- Where the reads of an fd are harmless pieces of a stream of well-formed requests, the worker
gets the requests that are due, in order and argument by argument. -/
theorem tasks_of_requests (hr : exec step init as = some s) {fd : Int} {rs : List Request}
    (hwf : ∀ r ∈ rs, r.WellFormed) (htot : (stream rs).length < 2 ^ 30)
    (hpre : (readsOf fd (trace as)).flatten <+: stream rs)
    (hne : [] ∉ readsOf fd (trace as)) (hharm : HarmlessRun fd (readsOf fd (trace as))) :
    ((ended (trace as) ++ s.worker.holds ++ s.queue ++ s.io.tasks).filter (·.fd = fd)).map
      Task.cmd = (rs.take (due rs (readsOf fd (trace as)))).map Request.args := by
  rw [← (queueing_run hr).in_order, ← session_of_requests hr hwf htot hpre hne hharm]
  exact commands_of_reads hr fd

/-- Both reads find an empty buffer; the second request is not complete. -/
theorem tasks_of_requests_cross : ∃ s, exec step init crossRun = some s ∧
    ([⟨10, [ascii "get", ascii "k"], 0⟩, ⟨11, [ascii "exit"], 1⟩].filter fun task : Task =>
      task.fd = 10).map Task.cmd = ([.inline [ascii "get", ascii "k"] false].map Request.args) := by
  obtain ⟨s, hs, hw, hq, hio, -⟩ := crossRun_exec
  have h := @tasks_of_requests s crossRun hs 10
    [.inline [ascii "get", ascii "k"] false, .bulk [ascii "exit"]] (by decide +kernel)
    (by decide +kernel) (by rw [crossRun_reads.1]; decide +kernel)
    (by rw [crossRun_reads.1]; decide) fun k data hk => by
      rw [crossRun_reads.1] at hk ⊢
      match k with
      | 0 => exact .inl rfl
      | 1 => exact .inl (by decide +kernel)
      | k + 2 => simp at hk
  rw [crossRun_reads.1, crossRun_reads.2, hw, hq, hio] at h
  exact ⟨s, hs, h.trans (by decide +kernel)⟩

end Server

end LittleLearning.Db
