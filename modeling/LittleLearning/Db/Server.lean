import LittleLearning.Lib.Exec
import LittleLearning.Db.Proxy

/-!
# The server

Two threads: the event loop (`acceptEventHandler`, `processInput`, `reply`,
`reReply`) and the worker (`handleTask`). They share the `clients` map, the
task queue and the eventfd `notifyFd`. A step of `Server.step` is one access to
what is shared; where a handler has several, `Io` and `Worker` say where it is.
The action carries what the kernel and leveldb answer.

A connection is known to the code by its fd only. For the record every
connection has a `ConnId`, and so has every task (the connection it came from)
and every byte of output (the connection whose task produced it).

The lock statement of `reply` and `reReply` makes a temporary and lets the mutex
go at once, so it orders nothing. `freeClient` is as the source has it.
-/

namespace LittleLearning.Db

open Cxx

abbrev ConnId := Nat

/-- A byte of output, with the connection whose task produced it. -/
abbrev OutByte := UInt8 × ConnId

structure Task where
  fd : Int
  cmd : List Bytes
  conn : ConnId
  deriving DecidableEq

/-- The slots of `TaskQueues` that can be used at once. -/
def maxTasks : Nat := 1024 * 1024 - 1

/-- What `write` on a socket comes to. -/
inductive WriteResult where
  | wrote (n : Nat)
  /-- `EAGAIN` -/
  | again
  | error
  deriving DecidableEq

/-- Where the event loop is: between events, or inside a handler. -/
inductive Io where
  | idle
  /-- `processInput` at `TaskQueues::write`. -/
  | enqueue (task : Task)
  /-- `reply` with the value it read from `notifyFd`. -/
  | check (value : Nat)
  | flush (fd : Int)
  /-- `reply` comparing the result with the size of the output. -/
  | settle (fd : Int) (st : WriteResult)
  | clear (fd : Int)
  /-- `reReply` at its `write`. -/
  | reFlush (fd : Int)
  | reSettle (fd : Int) (st : WriteResult)
  | rePend (fd : Int)
  deriving DecidableEq

/-- Where the worker is in `handleTask`. -/
inductive Worker where
  | idle
  | start (task : Task)
  /-- In the `while` of `handleCmd` at index `st`. -/
  | exec (task : Task) (st : Nat)
  /-- About to append the answer. -/
  | finish (task : Task) (ok : Bool)
  /-- At the `write` to `notifyFd`. -/
  | notify (task : Task)
  deriving DecidableEq

/-- What ends the process. -/
inductive Crash where
  | exception (e : StdException)
  /-- A null client is dereferenced. -/
  | nullClient
  /-- `task.cmd[0]` of an empty command. -/
  | emptyCmd
  /-- `cmdPara[++st]` past the end. -/
  | pastEnd
  deriving DecidableEq

/-- The eventfd, and for the record the fds of completed tasks, those written to it, those written
since it was last read, and the values read. -/
structure EventFd where
  counter : Nat
  completed : List Int
  written : List Int
  pending : List Int
  values : List Int
  deriving DecidableEq

structure Server where
  clients : Int → Option (Client OutByte)
  /-- The connection open under an fd. -/
  conns : Int → Option ConnId
  nextConn : ConnId
  /-- The fds with a read event, and those whose write event is pending. -/
  evRead : Int → Bool
  evWrite : Int → Bool
  queue : List Task
  io : Io
  worker : Worker
  notifyFd : EventFd
  down : Option Crash
  /-- Every byte put on a connection. -/
  wire : List (ConnId × OutByte)

inductive Act where
  /-- `accept` returns `fd`; `garbage` is whether the uninitialised `r_event` is not null. -/
  | accept (fd : Int) (garbage : Bool)
  /-- `fd` is readable and `read` delivers `data`, nothing at end-of-file or on an error. -/
  | input (fd : Int) (data : Bytes)
  /-- `notifyFd` is readable. -/
  | notified
  /-- The pending write event of `fd` fires. -/
  | writable (fd : Int)
  /-- The event loop goes on in its handler; `st` is the result where it is at a `write`. -/
  | io (st : WriteResult)
  /-- The worker goes on; `ok` and `value` are what leveldb answers where it is at a call. -/
  | worker (ok : Bool) (value : Bytes)
  deriving DecidableEq

/-- How far a task is: on its way to the worker, being executed, answered. -/
inductive Stage where
  | waiting
  | executing
  | answered
  deriving DecidableEq

/-- The task a handler of the event loop holds. -/
def Io.tasks : Io → List Task
  | .enqueue task => [task]
  | _ => []

def Worker.tasks : Worker → List (Task × Stage)
  | .idle => []
  | .start task => [(task, .waiting)]
  | .exec task _ | .finish task _ => [(task, .executing)]
  | .notify task => [(task, .answered)]

namespace Server

def init : Server where
  clients _ := none
  conns _ := none
  nextConn := 0
  evRead _ := false
  evWrite _ := false
  queue := []
  io := .idle
  worker := .idle
  notifyFd := ⟨0, [], [], [], []⟩
  down := none
  wire := []

/-! ### Parts of the handlers -/

def setClient (s : Server) (fd : Int) (c : Client OutByte) : Server :=
  { s with clients := Function.update s.clients fd (some c) }

def goto (s : Server) (io : Io) : Server := { s with io := io }

def work (s : Server) (w : Worker) : Server := { s with worker := w }

def crash (s : Server) (e : Crash) : Server := { s with down := some e }

def close (s : Server) (fd : Int) : Server := { s with conns := Function.update s.conns fd none }

def freeClient (s : Server) (fd : Int) : Server :=
  if (s.clients fd).isNone then { s with clients := Function.update s.clients fd none } else s

def pendReply (s : Server) (fd : Int) : Server :=
  { s with evWrite := Function.update s.evWrite fd true }

/-- The output buffer of the client under `fd`. -/
def output (s : Server) (fd : Int) : List OutByte :=
  match s.clients fd with
  | some c => c.output
  | none => []

def setOutput (s : Server) (fd : Int) (output : List OutByte) : Server :=
  match s.clients fd with
  | some c => s.setClient fd { c with output := output }
  | none => s

def addClientIfNotExited (s : Server) (fd : Int) (garbage : Bool) : Server :=
  match s.clients fd with
  | some _ => s
  | none => { s.setClient fd (.new fd) with evRead := Function.update s.evRead fd (!garbage) }

/-! ### The event loop -/

def acceptEventHandler (s : Server) (fd : Int) (garbage : Bool) : Server :=
  { s with conns := Function.update s.conns fd (some s.nextConn), nextConn := s.nextConn + 1 }
    |>.addClientIfNotExited fd garbage

def processInput (s : Server) (fd : Int) (conn : ConnId) (data : Bytes) : Server :=
  match s.clients fd with
  | none => s.close fd
  | some client =>
    match client.processInput data with
    | .error e => s.crash (.exception e)
    | .ok (some cmd, client) => (s.setClient fd client).goto (.enqueue ⟨fd, cmd, conn⟩)
    | .ok (none, client) =>
      if client.isExited then ((s.setClient fd client).freeClient fd).close fd
      else s.setClient fd client

/-- `reply` after it has read the value. -/
def check (s : Server) (value : Nat) : Server :=
  let fd := int32 value
  match s.clients fd with
  | none => (s.close fd).goto .idle
  | some client =>
    if client.output = [] ∧ client.isExited = false then s.goto .idle
    else if client.isExited then ((s.freeClient fd).close fd).goto .idle
    else s.goto (.flush fd)

/-- `write(fd, output.c_str(), output.size())` with the result `st`, and what is done next. -/
def writeOutput (s : Server) (fd : Int) (st : WriteResult) (next : Io) : Option Server :=
  match s.conns fd, st with
  | some conn, .wrote n =>
    if n ≤ (s.output fd).length then
      some { s with wire := s.wire ++ ((s.output fd).take n).map (conn, ·), io := next }
    else none
  | some _, .again => some (s.goto next)
  | none, .again => none
  | none, .wrote _ => none
  | _, .error => some (s.goto next)

def settle (s : Server) (fd : Int) (st : WriteResult) : Server :=
  match st with
  | .wrote n => if n = (s.output fd).length then s.goto (.clear fd) else (s.pendReply fd).goto .idle
  | .error => ((s.freeClient fd).close fd).goto .idle
  | .again => (s.pendReply fd).goto .idle

def reSettle (s : Server) (fd : Int) (st : WriteResult) : Server :=
  match st with
  | .wrote n =>
    if n > 0 then (s.setOutput fd ((s.output fd).drop n)).goto (.rePend fd)
    else ((s.freeClient fd).close fd).goto .idle
  | .again => (s.pendReply fd).goto .idle
  | .error => ((s.freeClient fd).close fd).goto .idle

/-- `reReply` up to its `write`. The event is not persistent. -/
def reReply (s : Server) (fd : Int) : Server :=
  let s := { s with evWrite := Function.update s.evWrite fd false }
  match s.clients fd with
  | none => s.crash .nullClient
  | some client => if client.output = [] then s else s.goto (.reFlush fd)

def ioStep (s : Server) (st : WriteResult) : Option Server :=
  match s.io with
  | .idle => none
  | .enqueue task =>
    if s.queue.length < maxTasks then some { s with queue := s.queue ++ [task], io := .idle }
    else none
  | .check value => some (s.check value)
  | .flush fd => s.writeOutput fd st (.settle fd st)
  | .settle fd st => some (s.settle fd st)
  | .clear fd => some ((s.setOutput fd []).goto .idle)
  | .reFlush fd => s.writeOutput fd st (.reSettle fd st)
  | .reSettle fd st => some (s.reSettle fd st)
  | .rePend fd =>
    some (if s.output fd = [] then s.goto .idle else (s.pendReply fd).goto .idle)

/-! ### The worker -/

/-- The bytes of `text` as produced for `task`. -/
def produced (task : Task) (text : Bytes) : List OutByte := text.map (·, task.conn)

def startTask (s : Server) (task : Task) : Server :=
  match s.clients task.fd with
  | none => s.crash .nullClient
  | some client =>
    match task.cmd with
    | [] => s.crash .emptyCmd
    | w :: _ =>
      if w = ascii "exit" then (s.setClient task.fd client.exit).work (.notify task)
      else s.work (.exec task 0)

/-- A round of `handleCmd`. A successful get leaves the value and a LF in the output. -/
def execCmd (s : Server) (task : Task) (st : Nat) (ok : Bool) (value : Bytes) : Server :=
  if st < task.cmd.length then
    match fetch task.cmd st with
    | .pastEnd => s.crash .pastEnd
    | .invalid => s.work (.finish task false)
    | .call cmd st =>
      if ok then
        match cmd with
        | .get _ => (s.setOutput task.fd (produced task (value ++ [lf]))).work (.exec task (st + 1))
        | _ => s.work (.exec task (st + 1))
      else s.work (.finish task false)
  else s.work (.finish task true)

def answer (ok : Bool) : Bytes := if ok then ascii "OK!\n" else ascii "Error!\n"

/-- The `write` to `notifyFd`, which fails where the counter would overflow. -/
def notify (s : Server) (fd : Int) : Server :=
  if s.notifyFd.counter + fd.toNat ≤ 2 ^ 64 - 2 then
    { s with
      worker := .idle
      notifyFd := { s.notifyFd with
        counter := s.notifyFd.counter + fd.toNat
        completed := s.notifyFd.completed ++ [fd]
        written := s.notifyFd.written ++ [fd]
        pending := s.notifyFd.pending ++ [fd] } }
  else
    { s with
      worker := .idle
      notifyFd := { s.notifyFd with completed := s.notifyFd.completed ++ [fd] } }

def workerStep (s : Server) (ok : Bool) (value : Bytes) : Option Server :=
  match s.worker with
  | .idle =>
    match s.queue with
    | [] => none
    | task :: queue => some { s with queue := queue, worker := .start task }
  | .start task => some (s.startTask task)
  | .exec task st => some (s.execCmd task st ok value)
  | .finish task ok =>
    some ((s.setOutput task.fd (s.output task.fd ++ produced task (answer ok))).work (.notify task))
  | .notify task => some (s.notify task.fd)

/-! ### Steps -/

def step (s : Server) (a : Act) : Option Server :=
  if s.down.isSome then none
  else match a with
    | .accept fd garbage =>
      if s.io = .idle ∧ 0 < fd ∧ fd ≤ intMax ∧ s.conns fd = none then
        some (s.acceptEventHandler fd garbage)
      else none
    | .input fd data =>
      match s.conns fd with
      | some conn =>
        -- the code has no meaning where originLen + QUERY_BUFF_LEN does not fit an int
        if s.io = .idle ∧ s.evRead fd ∧ data.length ≤ queryBuffLen ∧
            (s.clients fd).all (·.queryBuff.length + queryBuffLen < 2 ^ 31) then
          some (s.processInput fd conn data)
        else none
      | none => none
    | .notified =>
      if s.io = .idle ∧ 0 < s.notifyFd.counter then
        some { s with
          io := .check s.notifyFd.counter
          notifyFd := { s.notifyFd with
            counter := 0, pending := []
            values := s.notifyFd.values ++ [(s.notifyFd.counter : Int)] } }
      else none
    | .writable fd =>
      if s.io = .idle ∧ s.evWrite fd ∧ s.conns fd ≠ none then some (s.reReply fd) else none
    | .io st => s.ioStep st
    | .worker ok value => s.workerStep ok value

end Server

end LittleLearning.Db
