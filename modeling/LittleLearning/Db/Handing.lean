import LittleLearning.Db.Trace

/-!
# The server without its queue

Only `TaskQueues::write` and the worker's `read` look at the queue. Every other
step of the event loop does the same whatever is queued and wherever the worker
is (`step_loop`), and every other step of the worker whatever is queued and
wherever the event loop is (`step_work`).
-/

namespace LittleLearning.Db

open Cxx

namespace Server

variable {s s' : Server} {a : Act} {queue : List Task} {io : Io} {worker : Worker}

/-- The server with other tasks queued and other places for its threads. -/
def handing (s : Server) (queue : List Task) (io : Io) (worker : Worker) : Server :=
  { s with queue := queue, io := io, worker := worker }

section

variable (s : Server) (queue : List Task) (io : Io) (worker : Worker) (fd : Int)

@[simp] theorem handing_clients : (s.handing queue io worker).clients = s.clients := rfl

@[simp] theorem handing_conns : (s.handing queue io worker).conns = s.conns := rfl

@[simp] theorem handing_output : (s.handing queue io worker).output fd = s.output fd := rfl

@[simp] theorem handing_notifyFd : (s.handing queue io worker).notifyFd = s.notifyFd := rfl

@[simp] theorem handing_down : (s.handing queue io worker).down = s.down := rfl

@[simp] theorem handing_io : (s.handing queue io worker).io = io := rfl

@[simp] theorem handing_worker : (s.handing queue io worker).worker = worker := rfl

theorem handing_freeClient : (s.handing queue io worker).freeClient fd =
    (s.freeClient fd).handing queue io worker := by
  unfold freeClient
  rw [handing_clients]
  split_ifs <;> rfl

theorem handing_setOutput (out : List OutByte) : (s.handing queue io worker).setOutput fd out =
    (s.setOutput fd out).handing queue io worker := by
  unfold setOutput
  rw [handing_clients]
  cases s.clients fd <;> rfl

theorem handing_addClient (garbage : Bool) :
    (s.handing queue io worker).addClientIfNotExited fd garbage =
      (s.addClientIfNotExited fd garbage).handing queue io worker := by
  unfold addClientIfNotExited
  rw [handing_clients]
  cases s.clients fd <;> rfl

theorem freeClient_io : (s.freeClient fd).io = s.io := by
  unfold freeClient
  split_ifs <;> rfl

/-- A client that is freed and closed, and the handler's end. -/
theorem handing_freed : ((((s.handing queue io worker).freeClient fd).close fd).goto .idle) =
    (((s.freeClient fd).close fd).goto .idle).handing queue .idle worker := by
  rw [handing_freeClient]
  rfl

theorem handing_processInput (conn : ConnId) (data : Bytes) :
    (s.handing queue s.io worker).processInput fd conn data =
      (s.processInput fd conn data).handing queue (s.processInput fd conn data).io worker := by
  unfold processInput
  rw [handing_clients]
  cases s.clients fd with
  | none => rfl
  | some client =>
    dsimp only
    cases client.processInput data with
    | error e => rfl
    | ok res =>
      obtain ⟨cmd, client⟩ := res
      cases cmd with
      | none =>
        dsimp only
        by_cases he : client.isExited = true
        · rw [if_pos he, if_pos he]
          show close (((s.setClient fd client).handing queue s.io worker).freeClient fd) fd = _
          rw [handing_freeClient]
          show _ = (close ((s.setClient fd client).freeClient fd) fd).handing queue
            ((s.setClient fd client).freeClient fd).io worker
          rw [freeClient_io]
          rfl
        · rw [if_neg he, if_neg he]
          rfl
      | some cmd => rfl

theorem handing_check (value : Nat) : (s.handing queue io worker).check value =
    (s.check value).handing queue (s.check value).io worker := by
  unfold check
  dsimp only
  rw [handing_clients]
  cases s.clients (Cxx.int32 value) with
  | none => rfl
  | some client =>
    dsimp only
    split_ifs
    · rfl
    · exact handing_freed s queue io worker _
    · rfl

theorem handing_reReply : (s.handing queue s.io worker).reReply fd =
    (s.reReply fd).handing queue (s.reReply fd).io worker := by
  unfold reReply
  dsimp only
  rw [handing_clients]
  cases s.clients fd with
  | none => rfl
  | some client =>
    dsimp only
    split_ifs <;> rfl

theorem handing_writeOutput (st : WriteResult) (next : Io) :
    (s.handing queue io worker).writeOutput fd st next =
      (s.writeOutput fd st next).map fun s' => s'.handing queue s'.io worker := by
  unfold writeOutput
  rw [handing_conns]
  cases hc : s.conns fd with
  | none => cases st <;> rfl
  | some conn =>
    cases st with
    | wrote n =>
      dsimp only
      rw [Option.map_if]
      rfl
    | _ => rfl

theorem handing_settle (st : WriteResult) : (s.handing queue io worker).settle fd st =
    (s.settle fd st).handing queue (s.settle fd st).io worker := by
  cases st with
  | wrote n =>
    unfold settle
    dsimp only
    rw [handing_output]
    split_ifs <;> rfl
  | again => rfl
  | error => exact handing_freed s queue io worker fd

theorem handing_reSettle (st : WriteResult) : (s.handing queue io worker).reSettle fd st =
    (s.reSettle fd st).handing queue (s.reSettle fd st).io worker := by
  cases st with
  | wrote n =>
    unfold reSettle
    dsimp only
    by_cases hn : n > 0
    · rw [if_pos hn, if_pos hn]
      show ((s.handing queue io worker).setOutput fd ((s.output fd).drop n)).goto _ = _
      rw [handing_setOutput]
      rfl
    · rw [if_neg hn, if_neg hn]
      exact handing_freed s queue io worker fd
  | again => rfl
  | error => exact handing_freed s queue io worker fd

theorem handing_ioStep (hio : s.io.tasks = []) (st : WriteResult) :
    (s.handing queue s.io worker).ioStep st =
      (s.ioStep st).map fun s' => s'.handing queue s'.io worker := by
  unfold ioStep
  rw [handing_io]
  cases hs : s.io with
  | idle => rfl
  | enqueue task => simp [hs, Io.tasks] at hio
  | check value => exact congrArg some (handing_check s queue _ worker value)
  | flush fd => exact handing_writeOutput s queue _ worker fd st _
  | settle fd st => exact congrArg some (handing_settle s queue _ worker fd st)
  | clear fd =>
    dsimp only
    rw [handing_setOutput]
    rfl
  | reFlush fd => exact handing_writeOutput s queue _ worker fd st _
  | reSettle fd st => exact congrArg some (handing_reSettle s queue _ worker fd st)
  | rePend fd =>
    dsimp only
    rw [handing_output]
    split_ifs <;> rfl

end

theorem step_loop (hio : s.io.tasks = []) (ha : ∀ ok value, a ≠ .worker ok value) :
    (s.handing queue s.io worker).step a =
      (s.step a).map fun s' => s'.handing queue s'.io worker := by
  cases hd : s.down with
  | some e => simp [step, hd]
  | none =>
    simp only [step, handing_down, hd, Option.isSome_none, Bool.false_eq_true, if_false]
    cases a with
    | worker ok value => exact absurd rfl (ha ok value)
    | accept fd garbage =>
      have haccept : (s.handing queue s.io worker).acceptEventHandler fd garbage =
          (s.acceptEventHandler fd garbage).handing queue s.io worker :=
        handing_addClient { s with
          conns := Function.update s.conns fd (some s.nextConn)
          nextConn := s.nextConn + 1 } queue s.io worker fd garbage
      have hsame : (s.acceptEventHandler fd garbage).io = s.io := by
        unfold acceptEventHandler addClientIfNotExited
        split <;> rfl
      dsimp only
      rw [Option.map_if, haccept, hsame]
      rfl
    | input fd data =>
      dsimp only
      rw [handing_conns]
      cases s.conns fd with
      | none => rfl
      | some conn =>
        dsimp only
        rw [Option.map_if, handing_processInput]
        rfl
    | notified =>
      dsimp only
      rw [Option.map_if]
      rfl
    | writable fd =>
      dsimp only
      rw [Option.map_if, handing_reReply]
      rfl
    | io st => exact handing_ioStep s queue worker hio st

/-! ### Nor does the worker, once it has its task -/

theorem handing_startTask (s : Server) (queue : List Task) (io : Io) (task : Task) :
    (s.handing queue io s.worker).startTask task =
      (s.startTask task).handing queue io (s.startTask task).worker := by
  unfold startTask
  rw [handing_clients]
  cases s.clients task.fd with
  | none => rfl
  | some client =>
    dsimp only
    cases task.cmd with
    | nil => rfl
    | cons w cmd =>
      dsimp only
      split_ifs <;> rfl

theorem handing_execCmd (s : Server) (queue : List Task) (io : Io) (task : Task) (st : Nat)
    (ok : Bool) (value : Bytes) : (s.handing queue io s.worker).execCmd task st ok value =
      (s.execCmd task st ok value).handing queue io (s.execCmd task st ok value).worker := by
  unfold execCmd
  by_cases hst : st < task.cmd.length
  · rw [if_pos hst, if_pos hst]
    cases fetch task.cmd st with
    | pastEnd => rfl
    | invalid => rfl
    | call cmd st =>
      dsimp only
      by_cases hok : ok = true
      · rw [if_pos hok, if_pos hok]
        cases cmd with
        | get key =>
          dsimp only
          rw [handing_setOutput]
          rfl
        | _ => rfl
      · rw [if_neg hok, if_neg hok]
        rfl
  · rw [if_neg hst, if_neg hst]
    rfl

theorem step_work (hw : s.worker ≠ .idle) (ok : Bool) (value : Bytes) :
    (s.handing queue io s.worker).step (.worker ok value) =
      (s.step (.worker ok value)).map fun s' => s'.handing queue io s'.worker := by
  cases hd : s.down with
  | some e => simp [step, hd]
  | none =>
    simp only [step, handing_down, hd, Option.isSome_none, Bool.false_eq_true, if_false]
    unfold workerStep
    rw [handing_worker]
    cases hs : s.worker with
    | idle => exact absurd hs hw
    | start task => exact congrArg some (hs ▸ handing_startTask s queue io task)
    | exec task st => exact congrArg some (hs ▸ handing_execCmd s queue io task st ok value)
    | finish task good =>
      dsimp only
      show some (((s.handing queue io _).setOutput task.fd
        (s.output task.fd ++ produced task (answer good))).work (.notify task)) = _
      rw [handing_setOutput]
      rfl
    | notify task =>
      dsimp only
      unfold notify
      rw [handing_notifyFd]
      split_ifs <;> rfl

/-! ### What stays as it is -/

theorem loop_keeps (hio : s.io.tasks = []) (ha : ∀ ok value, a ≠ .worker ok value)
    (hs : s.step a = some s') : s'.queue = s.queue ∧ s'.worker = s.worker := by
  have h : (s.handing s.queue s.io s.worker).step a = _ := step_loop hio ha
  rw [show s.handing s.queue s.io s.worker = s from rfl, hs, Option.map_some] at h
  have h := Option.some.inj h
  exact ⟨(congrArg Server.queue h).trans rfl, (congrArg Server.worker h).trans rfl⟩

theorem work_keeps (hw : s.worker ≠ .idle) {ok : Bool} {value : Bytes}
    (hs : s.step (.worker ok value) = some s') : s'.queue = s.queue ∧ s'.io = s.io := by
  have h : (s.handing s.queue s.io s.worker).step (.worker ok value) = _ := step_work hw ok value
  rw [show s.handing s.queue s.io s.worker = s from rfl, hs, Option.map_some] at h
  have h := Option.some.inj h
  exact ⟨(congrArg Server.queue h).trans rfl, (congrArg Server.io h).trans rfl⟩

theorem observe_loop (ha : ∀ ok value, a ≠ .worker ok value) :
    (s.handing queue s.io worker).observe a = s.observe a := by
  cases a with
  | worker ok value => exact absurd rfl (ha ok value)
  | _ => rfl

theorem observe_work (hw : s.worker ≠ .idle) (ok : Bool) (value : Bytes) :
    (s.handing queue io s.worker).observe (.worker ok value) = s.observe (.worker ok value) := by
  unfold observe
  simp only [handing_worker]
  cases hs : s.worker with
  | idle => exact absurd hs hw
  | _ => rfl

end Server

end LittleLearning.Db
