import LittleLearning.Db.Server

/-!
# The steps of the server

`Move` lists the branches of `Server.step`, and `step_cases` says it has no
others. The sections after it say what a step does to the tasks on their way
and to the client under an fd.
-/

namespace LittleLearning.Db

open Cxx

namespace Server

/-! ### What a step can do -/

/-- `freeClient` erases what is not there. -/
@[simp] theorem freeClient_eq (s : Server) (fd : Int) : s.freeClient fd = s := by
  unfold freeClient
  by_cases h : (s.clients fd).isNone = true
  · rw [if_pos h]
    have hnone : s.clients fd = none := by simpa using h
    have hsame : Function.update s.clients fd none = s.clients := by
      rw [← hnone, Function.update_eq_self]
    rw [hsame]
  · rw [if_neg h]

/-- The step calls `freeClient` and `close` for a client: at end-of-file, for a client that is
exited, after a failed write. -/
inductive Closes (s : Server) : Act → Int → Client OutByte → Prop where
  | input (fd : Int) (data : Bytes) (conn : ConnId) (c c' : Client OutByte) : s.io = .idle →
      s.conns fd = some conn → s.clients fd = some c → c.processInput data = .ok (none, c') →
      c'.isExited = true → Closes s (.input fd data) fd c'
  | check (st : WriteResult) (value : Nat) (c : Client OutByte) : s.io = .check value →
      s.clients (int32 value) = some c → c.isExited = true → Closes s (.io st) (int32 value) c
  | settle (st : WriteResult) (fd : Int) (c : Client OutByte) : s.io = .settle fd .error →
      s.clients fd = some c → Closes s (.io st) fd c
  | reSettle (st : WriteResult) (fd : Int) (r : WriteResult) (c : Client OutByte) :
      s.io = .reSettle fd r → r = .error ∨ r = .wrote 0 → s.clients fd = some c →
      Closes s (.io st) fd c

/-- The branches of `step`. -/
inductive Move (s : Server) : Act → Server → Prop where
  | acceptNew (fd : Int) (garbage : Bool) : s.io = .idle → 0 < fd → fd ≤ intMax →
      s.conns fd = none → s.clients fd = none → Move s (.accept fd garbage)
        { s with
          conns := Function.update s.conns fd (some s.nextConn), nextConn := s.nextConn + 1
          clients := Function.update s.clients fd (some (.new fd))
          evRead := Function.update s.evRead fd (!garbage) }
  | acceptOld (fd : Int) (garbage : Bool) (c : Client OutByte) : s.io = .idle → 0 < fd →
      fd ≤ intMax → s.conns fd = none → s.clients fd = some c → Move s (.accept fd garbage)
        { s with conns := Function.update s.conns fd (some s.nextConn), nextConn := s.nextConn + 1 }
  | inputNull (fd : Int) (data : Bytes) (conn : ConnId) : s.io = .idle → s.conns fd = some conn →
      s.clients fd = none → Move s (.input fd data) (s.close fd)
  | inputTask (fd : Int) (data : Bytes) (conn : ConnId) (c c' : Client OutByte)
      (cmd : List Bytes) : s.io = .idle → s.conns fd = some conn → s.clients fd = some c →
      c.processInput data = .ok (some cmd, c') →
      Move s (.input fd data) ((s.setClient fd c').goto (.enqueue ⟨fd, cmd, conn⟩))
  | inputWait (fd : Int) (data : Bytes) (conn : ConnId) (c c' : Client OutByte) : s.io = .idle →
      s.conns fd = some conn → s.clients fd = some c → c.processInput data = .ok (none, c') →
      c'.isExited = false → Move s (.input fd data) (s.setClient fd c')
  | inputCrash (fd : Int) (data : Bytes) (conn : ConnId) (c : Client OutByte)
      (e : StdException) : s.io = .idle → s.conns fd = some conn → s.clients fd = some c →
      c.processInput data = .error e → Move s (.input fd data) (s.crash (.exception e))
  | closes (a : Act) (fd : Int) (c : Client OutByte) : Closes s a fd c →
      Move s a (((s.setClient fd c).close fd).goto .idle)
  | enqueue (st : WriteResult) (task : Task) : s.io = .enqueue task → s.queue.length < maxTasks →
      Move s (.io st) { s with queue := s.queue ++ [task], io := .idle }
  | notified : s.io = .idle → 0 < s.notifyFd.counter → Move s .notified { s with
      io := .check s.notifyFd.counter
      notifyFd := { s.notifyFd with
        counter := 0, pending := [], values := s.notifyFd.values ++ [(s.notifyFd.counter : Int)] } }
  | checkNull (st : WriteResult) (value : Nat) : s.io = .check value →
      s.clients (int32 value) = none → Move s (.io st) ((s.close (int32 value)).goto .idle)
  | checkQuiet (st : WriteResult) (value : Nat) (c : Client OutByte) : s.io = .check value →
      s.clients (int32 value) = some c → c.output = [] → c.isExited = false →
      Move s (.io st) (s.goto .idle)
  | checkFlush (st : WriteResult) (value : Nat) (c : Client OutByte) : s.io = .check value →
      s.clients (int32 value) = some c → c.output ≠ [] → c.isExited = false →
      Move s (.io st) (s.goto (.flush (int32 value)))
  | wrote (fd : Int) (conn : ConnId) (n : Nat) (next : Io) :
      s.io = .flush fd ∧ next = .settle fd (.wrote n) ∨
        s.io = .reFlush fd ∧ next = .reSettle fd (.wrote n) →
      s.conns fd = some conn → n ≤ (s.output fd).length → Move s (.io (.wrote n))
        { s with wire := s.wire ++ ((s.output fd).take n).map (conn, ·), io := next }
  | notWritten (fd : Int) (st : WriteResult) (next : Io) :
      s.io = .flush fd ∧ next = .settle fd st ∨ s.io = .reFlush fd ∧ next = .reSettle fd st →
      st = .again ∧ s.conns fd ≠ none ∨ st = .error → Move s (.io st) (s.goto next)
  | settleAll (st : WriteResult) (fd : Int) : s.io = .settle fd (.wrote (s.output fd).length) →
      Move s (.io st) (s.goto (.clear fd))
  | pend (st r : WriteResult) (fd : Int) :
      s.io = .settle fd r ∧ r ≠ .error ∧ r ≠ .wrote (s.output fd).length ∨
        s.io = .reSettle fd r ∧ r = .again ∨ s.io = .rePend fd ∧ s.output fd ≠ [] →
      Move s (.io st) ((s.pendReply fd).goto .idle)
  | settleNull (st : WriteResult) (fd : Int) (r : WriteResult) :
      s.io = .settle fd .error ∨ s.io = .reSettle fd r ∧ (r = .error ∨ r = .wrote 0) →
      s.clients fd = none → Move s (.io st) ((s.close fd).goto .idle)
  | clear (st : WriteResult) (fd : Int) : s.io = .clear fd →
      Move s (.io st) ((s.setOutput fd []).goto .idle)
  | erase (st : WriteResult) (fd : Int) (n : Nat) : s.io = .reSettle fd (.wrote n) → 0 < n →
      Move s (.io st) ((s.setOutput fd ((s.output fd).drop n)).goto (.rePend fd))
  | rePendNone (st : WriteResult) (fd : Int) : s.io = .rePend fd → s.output fd = [] →
      Move s (.io st) (s.goto .idle)
  | writableNull (fd : Int) : s.io = .idle → s.evWrite fd = true → s.clients fd = none →
      Move s (.writable fd)
        ({ s with evWrite := Function.update s.evWrite fd false }.crash .nullClient)
  | writable (fd : Int) (c : Client OutByte) (io : Io) : s.io = .idle → s.evWrite fd = true →
      s.conns fd ≠ none → s.clients fd = some c →
      io = (if c.output = [] then .idle else .reFlush fd) →
      Move s (.writable fd) { s with evWrite := Function.update s.evWrite fd false, io := io }
  | take (ok : Bool) (value : Bytes) (task : Task) (queue : List Task) : s.worker = .idle →
      s.queue = task :: queue →
      Move s (.worker ok value) { s with queue := queue, worker := .start task }
  | startCrash (ok : Bool) (value : Bytes) (task : Task) (e : Crash) : s.worker = .start task →
      s.clients task.fd = none ∧ e = .nullClient ∨
        s.clients task.fd ≠ none ∧ task.cmd = [] ∧ e = .emptyCmd →
      Move s (.worker ok value) (s.crash e)
  | startExit (ok : Bool) (value : Bytes) (task : Task) (c : Client OutByte) :
      s.worker = .start task → s.clients task.fd = some c → task.cmd.head? = some (ascii "exit") →
      Move s (.worker ok value) ((s.setClient task.fd c.exit).work (.notify task))
  | startExec (ok : Bool) (value : Bytes) (task : Task) (w : Bytes) : s.worker = .start task →
      s.clients task.fd ≠ none → task.cmd.head? = some w → w ≠ ascii "exit" →
      Move s (.worker ok value) (s.work (.exec task 0))
  | execGet (value key : Bytes) (task : Task) (st st' : Nat) : s.worker = .exec task st →
      st < task.cmd.length → fetch task.cmd st = .call (.get key) st' →
      Move s (.worker true value)
        ((s.setOutput task.fd (produced task (value ++ [lf]))).work (.exec task (st' + 1)))
  | execCall (value : Bytes) (task : Task) (st st' : Nat) (cmd : Cmd) : s.worker = .exec task st →
      st < task.cmd.length → fetch task.cmd st = .call cmd st' → (∀ key, cmd ≠ .get key) →
      Move s (.worker true value) (s.work (.exec task (st' + 1)))
  | execEnd (ok : Bool) (value : Bytes) (task : Task) (st : Nat) (good : Bool) :
      s.worker = .exec task st →
      task.cmd.length ≤ st ∧ good = true ∨
        st < task.cmd.length ∧ good = false ∧ (fetch task.cmd st = .invalid ∨
          ok = false ∧ ∃ cmd st', fetch task.cmd st = .call cmd st') →
      Move s (.worker ok value) (s.work (.finish task good))
  | execCrash (ok : Bool) (value : Bytes) (task : Task) (st : Nat) : s.worker = .exec task st →
      st < task.cmd.length → fetch task.cmd st = .pastEnd →
      Move s (.worker ok value) (s.crash .pastEnd)
  | finish (ok good : Bool) (value : Bytes) (task : Task) : s.worker = .finish task good →
      Move s (.worker ok value)
        ((s.setOutput task.fd (s.output task.fd ++ produced task (answer good))).work
          (.notify task))
  | notify (ok : Bool) (value : Bytes) (task : Task) : s.worker = .notify task →
      s.notifyFd.counter + task.fd.toNat ≤ 2 ^ 64 - 2 → Move s (.worker ok value)
        { s with
          worker := .idle
          notifyFd := { s.notifyFd with
            counter := s.notifyFd.counter + task.fd.toNat
            completed := s.notifyFd.completed ++ [task.fd]
            written := s.notifyFd.written ++ [task.fd]
            pending := s.notifyFd.pending ++ [task.fd] } }
  | notifyFull (ok : Bool) (value : Bytes) (task : Task) : s.worker = .notify task →
      2 ^ 64 - 2 < s.notifyFd.counter + task.fd.toNat → Move s (.worker ok value)
        { s with
          worker := .idle
          notifyFd := { s.notifyFd with completed := s.notifyFd.completed ++ [task.fd] } }

variable {s s' : Server} {a : Act}

theorem setClient_self {fd : Int} {c : Client OutByte} (h : s.clients fd = some c) :
    s.setClient fd c = s := by
  unfold setClient
  rw [← h, Function.update_eq_self]

theorem goto_self {io : Io} (h : s.io = io) : s.goto io = s := by
  subst h
  rfl

theorem move_accept {fd : Int} {garbage : Bool} (hio : s.io = .idle) (h0 : 0 < fd)
    (h1 : fd ≤ intMax) (hc : s.conns fd = none) :
    Move s (.accept fd garbage) (s.acceptEventHandler fd garbage) := by
  unfold acceptEventHandler addClientIfNotExited
  cases hcl : s.clients fd with
  | none => simpa [hcl, setClient] using Move.acceptNew fd garbage hio h0 h1 hc hcl
  | some c => simpa [hcl] using Move.acceptOld fd garbage c hio h0 h1 hc hcl

theorem move_input {fd : Int} {conn : ConnId} {data : Bytes} (hio : s.io = .idle)
    (hc : s.conns fd = some conn) : Move s (.input fd data) (s.processInput fd conn data) := by
  unfold processInput
  cases hcl : s.clients fd with
  | none => exact .inputNull fd data conn hio hc hcl
  | some c =>
    cases hp : c.processInput data with
    | error e => simpa [hp] using Move.inputCrash fd data conn c e hio hc hcl hp
    | ok res =>
      obtain ⟨cmd, c'⟩ := res
      cases cmd with
      | some cmd => simpa [hp] using Move.inputTask fd data conn c c' cmd hio hc hcl hp
      | none =>
        by_cases hx : c'.isExited = true
        · have := Move.closes _ fd c' (.input fd data conn c c' hio hc hcl hp hx)
          rw [goto_self (show ((s.setClient fd c').close fd).io = .idle from hio)] at this
          simpa [hp, hx] using this
        · simpa [hp, hx] using
            Move.inputWait fd data conn c c' hio hc hcl hp (by simpa using hx)

theorem move_check {st : WriteResult} {value : Nat} (hio : s.io = .check value) :
    Move s (.io st) (s.check value) := by
  unfold check
  cases hcl : s.clients (int32 value) with
  | none => simpa [hcl] using Move.checkNull st value hio hcl
  | some c =>
    by_cases hx : c.isExited = true
    · have := Move.closes _ _ c (.check st value c hio hcl hx)
      rw [setClient_self hcl] at this
      simpa [hcl, hx] using this
    · have hx' : c.isExited = false := by simpa using hx
      by_cases ho : c.output = []
      · simpa [hcl, hx', ho] using Move.checkQuiet st value c hio hcl ho hx'
      · simpa [hcl, hx', ho] using Move.checkFlush st value c hio hcl ho hx'

theorem move_writeOutput {fd : Int} {st : WriteResult} {next : Io}
    (hio : s.io = .flush fd ∧ next = .settle fd st ∨ s.io = .reFlush fd ∧ next = .reSettle fd st)
    (h : s.writeOutput fd st next = some s') : Move s (.io st) s' := by
  unfold writeOutput at h
  cases hc : s.conns fd with
  | none =>
    cases st with
    | error =>
      simp only [hc, Option.some.injEq] at h
      exact h ▸ .notWritten fd .error next hio (.inr rfl)
    | _ => simp [hc] at h
  | some conn =>
    cases st with
    | wrote n =>
      simp only [hc, Option.ite_none_right_eq_some, Option.some.injEq] at h
      exact h.2 ▸ .wrote fd conn n next hio hc h.1
    | again =>
      simp only [hc, Option.some.injEq] at h
      exact h ▸ .notWritten fd .again next hio (.inl ⟨rfl, by simp [hc]⟩)
    | error =>
      simp only [hc, Option.some.injEq] at h
      exact h ▸ .notWritten fd .error next hio (.inr rfl)

/-- Both handlers give the client up on these results of `write`. -/
theorem move_close {st r : WriteResult} {fd : Int}
    (hio : s.io = .settle fd .error ∨ s.io = .reSettle fd r ∧ (r = .error ∨ r = .wrote 0)) :
    Move s (.io st) ((s.close fd).goto .idle) := by
  cases hcl : s.clients fd with
  | none => exact .settleNull st fd r hio hcl
  | some c =>
    have hcloses : Closes s (.io st) fd c := by
      rcases hio with hio | ⟨hio, hr⟩
      · exact .settle st fd c hio hcl
      · exact .reSettle st fd r c hio hr hcl
    have := Move.closes _ fd c hcloses
    rwa [setClient_self hcl] at this

theorem move_settle {st r : WriteResult} {fd : Int} (hio : s.io = .settle fd r) :
    Move s (.io st) (s.settle fd r) := by
  unfold settle
  cases r with
  | wrote n =>
    by_cases hn : n = (s.output fd).length
    · subst hn
      simpa using Move.settleAll st fd hio
    · simpa [hn] using Move.pend st (.wrote n) fd (.inl ⟨hio, by simp, by simpa using hn⟩)
  | again => exact .pend st .again fd (.inl ⟨hio, by simp, by simp⟩)
  | error => simpa using @move_close s st .error fd (.inl hio)

theorem move_reSettle {st r : WriteResult} {fd : Int} (hio : s.io = .reSettle fd r) :
    Move s (.io st) (s.reSettle fd r) := by
  unfold reSettle
  cases r with
  | wrote n =>
    by_cases hn : 0 < n
    · simpa [hn] using Move.erase st fd n hio hn
    · obtain rfl : n = 0 := by omega
      simpa using @move_close s st (.wrote 0) fd (.inr ⟨hio, .inr rfl⟩)
  | again => exact .pend st .again fd (.inr (.inl ⟨hio, rfl⟩))
  | error => simpa using @move_close s st .error fd (.inr ⟨hio, .inl rfl⟩)

theorem ioStep_cases {st : WriteResult} (h : s.ioStep st = some s') : Move s (.io st) s' := by
  unfold ioStep at h
  cases hio : s.io with
  | idle => simp [hio] at h
  | enqueue task =>
    simp only [hio, Option.ite_none_right_eq_some, Option.some.injEq] at h
    exact h.2 ▸ .enqueue st task hio h.1
  | check value =>
    simp only [hio, Option.some.injEq] at h
    exact h ▸ move_check hio
  | flush fd =>
    simp only [hio] at h
    exact move_writeOutput (.inl ⟨hio, rfl⟩) h
  | settle fd r =>
    simp only [hio, Option.some.injEq] at h
    exact h ▸ move_settle hio
  | clear fd =>
    simp only [hio, Option.some.injEq] at h
    exact h ▸ .clear st fd hio
  | reFlush fd =>
    simp only [hio] at h
    exact move_writeOutput (.inr ⟨hio, rfl⟩) h
  | reSettle fd r =>
    simp only [hio, Option.some.injEq] at h
    exact h ▸ move_reSettle hio
  | rePend fd =>
    simp only [hio, Option.some.injEq] at h
    by_cases ho : s.output fd = []
    · rw [if_pos ho] at h
      exact h ▸ .rePendNone st fd hio ho
    · rw [if_neg ho] at h
      exact h ▸ .pend st .again fd (.inr (.inr ⟨hio, ho⟩))

theorem move_startTask {ok : Bool} {value : Bytes} {task : Task} (hw : s.worker = .start task) :
    Move s (.worker ok value) (s.startTask task) := by
  unfold startTask
  cases hcl : s.clients task.fd with
  | none => exact .startCrash ok value task _ hw (.inl ⟨hcl, rfl⟩)
  | some c =>
    cases hcmd : task.cmd with
    | nil => exact .startCrash ok value task _ hw (.inr ⟨by simp [hcl], hcmd, rfl⟩)
    | cons w ws =>
      by_cases hexit : w = ascii "exit"
      · simpa [hexit] using Move.startExit ok value task c hw hcl (by simp [hcmd, hexit])
      · simpa [hexit] using
          Move.startExec ok value task w hw (by simp [hcl]) (by simp [hcmd]) hexit

theorem move_execCmd {ok : Bool} {value : Bytes} {task : Task} {st : Nat}
    (hw : s.worker = .exec task st) : Move s (.worker ok value) (s.execCmd task st ok value) := by
  unfold execCmd
  by_cases hst : st < task.cmd.length
  · rw [if_pos hst]
    cases hf : fetch task.cmd st with
    | pastEnd => exact .execCrash ok value task st hw hst hf
    | invalid => exact .execEnd ok value task st false hw (.inr ⟨hst, rfl, .inl hf⟩)
    | call cmd st' =>
      cases ok with
      | false => exact .execEnd false value task st false hw (.inr ⟨hst, rfl, .inr ⟨rfl, _, _, hf⟩⟩)
      | true =>
        cases cmd with
        | get key => exact .execGet value key task st st' hw hst hf
        | set k v => exact .execCall value task st st' _ hw hst hf (by simp)
        | del k => exact .execCall value task st st' _ hw hst hf (by simp)
  · rw [if_neg hst]
    exact .execEnd ok value task st true hw (.inl ⟨by omega, rfl⟩)

theorem workerStep_cases {ok : Bool} {value : Bytes} (h : s.workerStep ok value = some s') :
    Move s (.worker ok value) s' := by
  unfold workerStep at h
  cases hw : s.worker with
  | idle =>
    cases hq : s.queue with
    | nil => simp [hw, hq] at h
    | cons task queue =>
      simp only [hw, hq, Option.some.injEq] at h
      exact h ▸ .take ok value task queue hw hq
  | start task =>
    simp only [hw, Option.some.injEq] at h
    exact h ▸ move_startTask hw
  | exec task st =>
    simp only [hw, Option.some.injEq] at h
    exact h ▸ move_execCmd hw
  | finish task good =>
    simp only [hw, Option.some.injEq] at h
    exact h ▸ .finish ok good value task hw
  | notify task =>
    simp only [hw, Option.some.injEq, Server.notify] at h
    by_cases hc : s.notifyFd.counter + task.fd.toNat ≤ 2 ^ 64 - 2
    · rw [if_pos hc] at h
      exact h ▸ .notify ok value task hw hc
    · rw [if_neg hc] at h
      exact h ▸ .notifyFull ok value task hw (by omega)

theorem move_reReply {fd : Int} (hio : s.io = .idle) (hev : s.evWrite fd = true)
    (hc : s.conns fd ≠ none) : Move s (.writable fd) (s.reReply fd) := by
  cases hcl : s.clients fd with
  | none => simpa [reReply, hcl] using Move.writableNull fd hio hev hcl
  | some c =>
    have hmove := Move.writable fd c _ hio hev hc hcl rfl
    by_cases ho : c.output = []
    · simpa [reReply, hcl, ho, ← hio] using hmove
    · simpa [reReply, hcl, ho, goto] using hmove

/-- Nothing happens once the process has ended. -/
theorem down_eq_none (h : s.step a = some s') : s.down = none := by
  unfold step at h
  split at h
  · cases h
  · exact Option.not_isSome_iff_eq_none.1 ‹_›

theorem step_cases (h : s.step a = some s') : Move s a s' := by
  have hd : ¬ s.down.isSome = true := by simp [down_eq_none h]
  unfold step at h
  rw [if_neg hd] at h
  cases a with
  | accept fd garbage =>
    simp only [Option.ite_none_right_eq_some, Option.some.injEq] at h
    obtain ⟨⟨hio, h0, h1, hc⟩, rfl⟩ := h
    exact move_accept hio h0 h1 hc
  | input fd data =>
    cases hc : s.conns fd with
    | none => simp [hc] at h
    | some conn =>
      simp only [hc, Option.ite_none_right_eq_some, Option.some.injEq] at h
      obtain ⟨⟨hio, -, -⟩, rfl⟩ := h
      exact move_input hio hc
  | notified =>
    simp only [Option.ite_none_right_eq_some, Option.some.injEq] at h
    obtain ⟨⟨hio, hcounter⟩, rfl⟩ := h
    exact .notified hio hcounter
  | writable fd =>
    simp only [Option.ite_none_right_eq_some, Option.some.injEq] at h
    obtain ⟨⟨hio, hev, hc⟩, rfl⟩ := h
    exact move_reReply hio hev hc
  | io st => exact ioStep_cases h
  | worker ok value => exact workerStep_cases h

/-! ### Setting the output -/

section

variable (s : Server) (fd : Int) (out : List OutByte)

/-- `setOutput` changes the clients only. -/
theorem setOutput_eq : s.setOutput fd out = { s with clients := (s.setOutput fd out).clients } := by
  unfold setOutput
  cases s.clients fd <;> rfl

@[simp] theorem setOutput_io : (s.setOutput fd out).io = s.io := by rw [setOutput_eq]

@[simp] theorem setOutput_queue : (s.setOutput fd out).queue = s.queue := by rw [setOutput_eq]

@[simp] theorem setOutput_worker : (s.setOutput fd out).worker = s.worker := by rw [setOutput_eq]

@[simp] theorem setOutput_conns : (s.setOutput fd out).conns = s.conns := by rw [setOutput_eq]

@[simp] theorem setOutput_evWrite : (s.setOutput fd out).evWrite = s.evWrite := by
  rw [setOutput_eq]

@[simp] theorem setOutput_notifyFd : (s.setOutput fd out).notifyFd = s.notifyFd := by
  rw [setOutput_eq]

@[simp] theorem setOutput_wire : (s.setOutput fd out).wire = s.wire := by rw [setOutput_eq]

@[simp] theorem setOutput_down : (s.setOutput fd out).down = s.down := by rw [setOutput_eq]

end

/-! ### Tasks on their way -/

/-- The tasks in the hands of the event loop, in the queue and in the worker. -/
def tasks (s : Server) : List (Task × Stage) :=
  (s.io.tasks ++ s.queue).map (·, .waiting) ++ s.worker.tasks

/-- The worker takes a task a stage further. -/
inductive Advances (task : Task) : Stage → Stage → Prop where
  | execute : task.cmd.head? ≠ some (ascii "exit") → Advances task .waiting .executing
  | exit : task.cmd.head? = some (ascii "exit") → Advances task .waiting .answered
  | answer : Advances task .executing .answered

theorem mem_tasks {task : Task} {stage : Stage} :
    (task, stage) ∈ s.tasks ↔
      stage = .waiting ∧ (task ∈ s.io.tasks ∨ task ∈ s.queue) ∨ (task, stage) ∈ s.worker.tasks := by
  simp only [tasks, List.mem_append, List.mem_map, Prod.mk.injEq]
  constructor
  · rintro (⟨t, h, rfl, rfl⟩ | h)
    · exact .inl ⟨rfl, h⟩
    · exact .inr h
  · rintro (⟨rfl, h⟩ | h)
    · exact .inl ⟨task, h, rfl, rfl⟩
    · exact .inr h

theorem tasks_mono {x : Task × Stage} (h : x ∈ s'.tasks) (hio : s'.io.tasks ⊆ s.io.tasks)
    (hq : s'.queue = s.queue) (hw : s'.worker.tasks ⊆ s.worker.tasks) : x ∈ s.tasks := by
  rw [mem_tasks, hq] at h
  exact mem_tasks.2 (h.imp (And.imp_right (Or.imp_left fun h => hio h)) fun h => hw h)

/-- Where only the worker moves, the task it holds may be new at its stage. -/
theorem tasks_worker {x : Task × Stage} (h : x ∈ s'.tasks) (hio : s'.io = s.io)
    (hq : s'.queue = s.queue) : x ∈ s.tasks ∨ x ∈ s'.worker.tasks := by
  rw [mem_tasks, hio, hq] at h
  rcases h with h | h
  · exact .inl (mem_tasks.2 (.inl h))
  · exact .inr h

/-- A task was at its stage before, or the worker took it there, or an input dispatched it. -/
theorem Move.tasks (h : Move s a s') {task : Task} {stage : Stage}
    (ht : (task, stage) ∈ s'.tasks) :
    (task, stage) ∈ s.tasks ∨
      (∃ earlier, (task, earlier) ∈ s.tasks ∧ Advances task earlier stage) ∨
      stage = .waiting ∧ s.conns task.fd = some task.conn ∧ s.clients task.fd ≠ none := by
  have hheld : ∀ {x : Task × Stage}, s.worker.tasks = [x] → x ∈ s.tasks := fun hw =>
    mem_tasks.2 (.inr (by simp [hw]))
  cases h with
  | inputTask fd data conn c c' cmd hio hc hcl _ =>
    rw [mem_tasks] at ht
    simp only [goto, setClient, Io.tasks, List.mem_singleton] at ht
    obtain ⟨rfl, rfl | hq⟩ | hw := ht
    · exact .inr (.inr ⟨rfl, hc, by simp [hcl]⟩)
    · exact .inl (mem_tasks.2 (.inl ⟨rfl, .inr hq⟩))
    · exact .inl (mem_tasks.2 (.inr hw))
  | enqueue st task' hio _ =>
    refine .inl (mem_tasks.2 ?_)
    rw [mem_tasks] at ht
    simp only [hio, Io.tasks, List.mem_append, List.mem_singleton, List.not_mem_nil,
      false_or] at ht ⊢
    exact ht.imp_left (And.imp_right Or.symm)
  | take ok value task' queue hw hq =>
    refine .inl (mem_tasks.2 ?_)
    rw [mem_tasks] at ht
    simp only [Worker.tasks, List.mem_singleton, Prod.mk.injEq] at ht
    obtain ⟨rfl, hio | hmem⟩ | ⟨rfl, rfl⟩ := ht
    · exact .inl ⟨rfl, .inl hio⟩
    · exact .inl ⟨rfl, .inr (by simp [hq, hmem])⟩
    · exact .inl ⟨rfl, .inr (by simp [hq])⟩
  | wrote fd conn n next hio _ _ =>
    refine .inl (tasks_mono ht ?_ rfl (List.Subset.refl _))
    rcases hio with ⟨-, rfl⟩ | ⟨-, rfl⟩ <;> exact List.nil_subset _
  | notWritten fd st next hio _ =>
    refine .inl (tasks_mono ht ?_ rfl (List.Subset.refl _))
    rcases hio with ⟨-, rfl⟩ | ⟨-, rfl⟩ <;> exact List.nil_subset _
  | writable fd c io _ _ _ _ hio =>
    refine .inl (tasks_mono ht ?_ rfl (List.Subset.refl _))
    rw [hio]
    split <;> exact List.nil_subset _
  | startExit ok value task' c hw _ hexit =>
    rcases tasks_worker (s := s) ht rfl rfl with ht | ht
    · exact .inl ht
    · obtain ⟨rfl, rfl⟩ : task = task' ∧ stage = .answered := by simpa [work, Worker.tasks] using ht
      exact .inr (.inl ⟨.waiting, hheld (by simp [hw, Worker.tasks]), .exit hexit⟩)
  | startExec ok value task' w hw _ hcmd hne =>
    rcases tasks_worker (s := s) ht rfl rfl with ht | ht
    · exact .inl ht
    · obtain ⟨rfl, rfl⟩ : task = task' ∧ stage = .executing := by
        simpa [work, Worker.tasks] using ht
      exact .inr (.inl ⟨.waiting, hheld (by simp [hw, Worker.tasks]),
        .execute (by simpa [hcmd] using hne)⟩)
  | finish ok good value task' hw =>
    rcases tasks_worker (s := s) ht (by simp [work]) (by simp [work]) with ht | ht
    · exact .inl ht
    · obtain ⟨rfl, rfl⟩ : task = task' ∧ stage = .answered := by simpa [work, Worker.tasks] using ht
      exact .inr (.inl ⟨.executing, hheld (by simp [hw, Worker.tasks]), .answer⟩)
  | execGet value key task' st st' hw _ _ =>
    exact .inl (tasks_mono ht (by simp [work]) (by simp [work]) (by simp [work, hw, Worker.tasks]))
  | execCall value task' st st' cmd hw _ _ _ =>
    exact .inl (tasks_mono ht (List.Subset.refl _) rfl (by simp [work, hw, Worker.tasks]))
  | execEnd ok value task' st good hw _ =>
    exact .inl (tasks_mono ht (List.Subset.refl _) rfl (by simp [work, hw, Worker.tasks]))
  | notify | notifyFull =>
    exact .inl (tasks_mono ht (List.Subset.refl _) rfl (List.nil_subset _))
  | clear | erase =>
    exact .inl (tasks_mono ht (List.nil_subset _) (by simp [goto]) (by simp [goto]))
  | acceptNew | acceptOld | inputNull | inputWait | inputCrash | startCrash | execCrash
  | writableNull => exact .inl (tasks_mono ht (List.Subset.refl _) rfl (List.Subset.refl _))
  | _ => exact .inl (tasks_mono ht (List.nil_subset _) rfl (List.Subset.refl _))

/-! ### The clients -/

/-- The client the step closes is the one it found, or that one after a read. -/
theorem Closes.client {fd : Int} {c : Client OutByte} (h : Closes s a fd c) :
    ∃ c₀, s.clients fd = some c₀ ∧ c.output = c₀.output ∧
      (c₀.isExited = true → c.isExited = true) := by
  cases h with
  | input fd data conn c c' _ _ hcl hp hx =>
    exact ⟨c, hcl, (Client.processInput_parsed hp).1, fun _ => hx⟩
  | check st value c _ hcl _ => exact ⟨c, hcl, rfl, id⟩
  | settle st fd c _ hcl => exact ⟨c, hcl, rfl, id⟩
  | reSettle st fd r c _ _ hcl => exact ⟨c, hcl, rfl, id⟩

/-- The byte is of the answer to a task of `fd` that the worker is executing. -/
def Answers (s : Server) (fd : Int) (b : OutByte) : Prop :=
  ∃ task, (task, .executing) ∈ s.tasks ∧ task.fd = fd ∧ b.2 = task.conn

/-- What a step does to the client under `fd`: it stays in the map and exited. -/
inductive ClientStep (s : Server) (a : Act) (fd : Int) : Option (Client OutByte) → Prop where
  | same : ClientStep s a fd (s.clients fd)
  | new (garbage : Bool) : a = .accept fd garbage → 0 < fd → s.clients fd = none →
      ClientStep s a fd (some (.new fd))
  | changed (c c' : Client OutByte) : s.clients fd = some c →
      (c.isExited = true → c'.isExited = true) →
      (∀ b ∈ c'.output, b ∈ c.output ∨ Answers s fd b) → ClientStep s a fd (some c')

theorem ClientStep.update {fd fd' : Int} {c : Client OutByte} (h : ClientStep s a fd' (some c)) :
    ClientStep s a fd (Function.update s.clients fd' (some c) fd) := by
  by_cases he : fd = fd'
  · subst he
    rwa [Function.update_self]
  · rw [Function.update_of_ne he]
    exact .same

theorem ClientStep.of_setClient {fd fd' : Int} {c c' : Client OutByte}
    (hcl : s.clients fd' = some c) (hx : c.isExited = true → c'.isExited = true)
    (hout : c'.output = c.output) : ClientStep s a fd ((s.setClient fd' c').clients fd) :=
  .update (.changed c c' hcl hx fun _ hb => .inl (hout ▸ hb))

theorem ClientStep.of_setOutput {fd fd' : Int} {out : List OutByte}
    (hout : ∀ b ∈ out, b ∈ s.output fd' ∨ Answers s fd' b) :
    ClientStep s a fd ((s.setOutput fd' out).clients fd) := by
  unfold setOutput
  cases hcl : s.clients fd' with
  | none => exact .same
  | some c =>
    refine .update (.changed c _ hcl id fun b hb => ?_)
    simpa [output, hcl] using hout b hb

theorem Move.clientStep (h : Move s a s') (fd : Int) : ClientStep s a fd (s'.clients fd) := by
  have hsent : ∀ {task : Task} {text : Bytes} {b : OutByte}, s.worker.tasks = [(task, .executing)] →
      b ∈ produced task text → Answers s task.fd b := by
    intro task text b hw hb
    obtain ⟨x, -, rfl⟩ := List.mem_map.1 hb
    exact ⟨task, mem_tasks.2 (.inr (by simp [hw])), rfl, rfl⟩
  cases h with
  | acceptNew fd' garbage _ h0 _ _ hcl => exact .update (.new garbage rfl h0 hcl)
  | inputTask fd' data conn c c' cmd _ _ hcl hp =>
    have hparsed := Client.processInput_parsed hp
    exact .of_setClient hcl (fun h => by simp [hparsed.2, h]) hparsed.1
  | inputWait fd' data conn c c' _ _ hcl hp _ =>
    have hparsed := Client.processInput_parsed hp
    exact .of_setClient hcl (fun h => by simp [hparsed.2, h]) hparsed.1
  | startExit ok value task c _ hcl _ => exact .of_setClient hcl (fun _ => rfl) rfl
  | closes a fd' c hcloses =>
    obtain ⟨c₀, hcl, hout, hx⟩ := hcloses.client
    exact .of_setClient hcl hx hout
  | clear => exact .of_setOutput fun b hb => by cases hb
  | erase => exact .of_setOutput fun b hb => .inl (List.mem_of_mem_drop hb)
  | execGet value key task st st' hw _ _ =>
    exact .of_setOutput fun b hb => .inr (hsent (by rw [hw, Worker.tasks]) hb)
  | finish ok good value task hw =>
    refine .of_setOutput fun b hb => ?_
    rcases List.mem_append.1 hb with hold | hnew
    · exact .inl hold
    · exact .inr (hsent (by rw [hw, Worker.tasks]) hnew)
  | _ => exact .same

/-- Only an accept makes a key of `clients`, and no step takes one away. -/
theorem Move.clients_eq_none (h : Move s a s') {fd : Int} (ha : ∀ garbage, a ≠ .accept fd garbage) :
    s'.clients fd = none ↔ s.clients fd = none := by
  have hstep := h.clientStep fd
  generalize s'.clients fd = c' at hstep
  cases hstep with
  | same => exact .rfl
  | new garbage he => exact absurd he (ha garbage)
  | changed c c' hcl => simp [hcl]

/-- A byte of an output was there before, or the worker appends it. -/
theorem Move.output (h : Move s a s') {fd : Int} {b : OutByte} (hb : b ∈ s'.output fd) :
    b ∈ s.output fd ∨ Answers s fd b := by
  have hstep := h.clientStep fd
  unfold Server.output at hb ⊢
  generalize s'.clients fd = c' at hstep hb
  cases hstep with
  | same => exact .inl hb
  | new => cases hb
  | changed c c' hcl _ hout =>
    rw [hcl]
    exact hout b hb

end Server

end LittleLearning.Db
