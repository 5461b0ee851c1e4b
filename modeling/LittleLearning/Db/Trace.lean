import LittleLearning.Db.Graft
import LittleLearning.Db.Step

/-!
# The record of a run

`trace` is the record of a run: the reads that reach a parser, the tasks put
into the queue, taken from it and ended. `Effect` says what a step does to what
the record is about, by what it adds to the record.
-/

namespace LittleLearning.Db

open Cxx Transition

inductive Event where
  /-- `read` delivers `data` to the client under `fd`. -/
  | read (fd : Int) (data : Bytes)
  /-- `TaskQueues::write` -/
  | put (task : Task)
  /-- `TaskQueues::read` -/
  | take (task : Task)
  /-- The command `exit` marks the client. -/
  | exit (task : Task)
  /-- A get of the task has left `value` in the output. -/
  | got (task : Task) (value : Bytes)
  /-- `handleCmd` has returned and its answer is appended. -/
  | answer (task : Task) (good : Bool)
  /-- `write` has put the bytes on the socket. -/
  | sent (fd : Int) (bytes : Bytes)
  deriving DecidableEq

namespace Event

/-- The reads from `fd`. -/
def readsOf (fd : Int) (tr : List Event) : List Bytes :=
  tr.filterMap fun
    | read fd' data => if fd' = fd then some data else none
    | _ => none

def puts (tr : List Event) : List Task := tr.filterMap fun | put task => some task | _ => none

def takes (tr : List Event) : List Task := tr.filterMap fun | take task => some task | _ => none

/-- The tasks the worker is through with. -/
def ended (tr : List Event) : List Task :=
  tr.filterMap fun | exit task | answer task _ => some task | _ => none

/-- An `exit` of `fd` is among the events. -/
def exited (fd : Int) (tr : List Event) : Bool :=
  tr.any fun | exit task => task.fd = fd | _ => false

/-- What the worker says in reply to the tasks, one text after the other. -/
def said (tr : List Event) : List (Task × Bytes) :=
  tr.filterMap fun
    | got task value => some (task, value ++ [lf])
    | answer task good => some (task, Server.answer good)
    | _ => none

/-- The bytes of it for the clients under `fd`. -/
def saidTo (fd : Int) (tr : List Event) : Bytes :=
  ((said tr).filter (·.1.fd = fd)).flatMap Prod.snd

/-- The bytes written to `fd`. -/
def sentTo (fd : Int) (tr : List Event) : Bytes :=
  tr.flatMap fun
    | sent fd' bytes => if fd' = fd then bytes else []
    | _ => []

section

variable (fd : Int) (tr os : List Event)

@[simp] theorem readsOf_append : readsOf fd (tr ++ os) = readsOf fd tr ++ readsOf fd os :=
  List.filterMap_append

@[simp] theorem puts_append : puts (tr ++ os) = puts tr ++ puts os := List.filterMap_append

@[simp] theorem takes_append : takes (tr ++ os) = takes tr ++ takes os := List.filterMap_append

@[simp] theorem ended_append : ended (tr ++ os) = ended tr ++ ended os := List.filterMap_append

@[simp] theorem exited_append : exited fd (tr ++ os) = (exited fd tr || exited fd os) :=
  List.any_append

theorem mem_readsOf {data : Bytes} : data ∈ readsOf fd tr ↔ .read fd data ∈ tr := by
  simp only [readsOf, List.mem_filterMap]
  constructor
  · rintro ⟨ev, hev, hfd⟩
    cases ev with
    | read fd' data' =>
      by_cases he : fd' = fd
      · simp only [if_pos he, Option.some.injEq] at hfd
        rwa [he, hfd] at hev
      · simp [he] at hfd
    | _ => cases hfd
  · exact fun hev => ⟨_, hev, if_pos rfl⟩

theorem exited_iff : exited fd tr = true ↔ ∃ task, .exit task ∈ tr ∧ task.fd = fd := by
  simp only [exited, List.any_eq_true]
  constructor
  · rintro ⟨ev, hev, hfd⟩
    cases ev with
    | exit task => exact ⟨task, hev, by simpa using hfd⟩
    | _ => cases hfd
  · rintro ⟨task, hev, hfd⟩
    exact ⟨_, hev, by simpa using hfd⟩

@[simp] theorem said_append : said (tr ++ os) = said tr ++ said os :=
  List.filterMap_append

@[simp] theorem saidTo_append : saidTo fd (tr ++ os) = saidTo fd tr ++ saidTo fd os := by
  simp [saidTo]

@[simp] theorem sentTo_append : sentTo fd (tr ++ os) = sentTo fd tr ++ sentTo fd os :=
  List.flatMap_append

end

end Event

/-- The task the worker has taken and is not through with. -/
def Worker.holds : Worker → List Task
  | .start task | .exec task _ | .finish task _ => [task]
  | .idle | .notify _ => []

namespace Server

open Event

/-- The bytes of the output under `fd`. -/
def outputBytes (s : Server) (fd : Int) : Bytes := (s.output fd).map Prod.fst

/-- What the step `a` adds to the record. -/
def observe (s : Server) : Act → List Event
  | .input fd data => if (s.clients fd).isSome then [.read fd data] else []
  | .io st =>
    match s.io, st with
    | .enqueue task, _ => [.put task]
    | .flush fd, .wrote n | .reFlush fd, .wrote n => [.sent fd ((s.outputBytes fd).take n)]
    | _, _ => []
  | .worker ok value =>
    match s.worker with
    | .idle =>
      match s.queue with
      | [] => []
      | task :: _ => [.take task]
    | .exec task st =>
      match fetch task.cmd st with
      | .call (.get _) _ => if st < task.cmd.length ∧ ok then [.got task value] else []
      | _ => []
    | .start task =>
      if (s.clients task.fd).isSome ∧ task.cmd.head? = some (ascii "exit") then [.exit task] else []
    | .finish task good => [.answer task good]
    | _ => []
  | _ => []

/-- The record of a run from the first event on. -/
def trace (as : List Act) : List Event := emitted step observe init as

variable {s s' : Server} {a : Act} {tr : List Event}

/-! ### What a step does, as far as it is on record -/

/-- The client under `fd` after a step that reads nothing for it: its parser is as before. -/
inductive Regraft (fd : Int) : Option (Client OutByte) → Option (Client OutByte) → Prop where
  | absent : Regraft fd none none
  | new : Regraft fd none (some (.new fd))
  | graft (c : Client OutByte) (out : List OutByte) :
      Regraft fd (some c) (some (c.graft c.isExited out))

theorem Regraft.refl (fd : Int) (c : Option (Client OutByte)) : Regraft fd c c := by
  cases c with
  | none => exact .absent
  | some c => exact .graft c c.output

/-- The queue, the task in hand of either thread, the clients and a crash, by what the step adds to
the record. -/
inductive Effect (s s' : Server) : List Event → Prop where
  | quiet : s'.queue = s.queue → s'.worker.holds = s.worker.holds → s'.io.tasks = s.io.tasks →
      (∀ fd, Regraft fd (s.clients fd) (s'.clients fd)) →
      (∀ e, s'.down ≠ some (.exception e)) → Effect s s' []
  | read (fd : Int) (data : Bytes) (conn : ConnId) (c c' : Client OutByte)
      (cmd : Option (List Bytes)) : s'.queue = s.queue → s'.worker = s.worker → s.io = .idle →
      s'.io.tasks = cmd.toList.map (⟨fd, ·, conn⟩) → s.clients fd = some c →
      s'.clients = Function.update s.clients fd (some c') → c.processInput data = .ok (cmd, c') →
      s'.down = none → Effect s s' [.read fd data]
  | readCrash (fd : Int) (data : Bytes) (c : Client OutByte) (e : StdException) :
      s'.queue = s.queue → s'.worker = s.worker → s.io = .idle → s'.io = .idle →
      s.clients fd = some c → s'.clients = s.clients → c.processInput data = .error e →
      s'.down = some (.exception e) → Effect s s' [.read fd data]
  | sent (fd : Int) (bytes : Bytes) : s'.queue = s.queue → s'.worker = s.worker →
      s'.io.tasks = s.io.tasks → s'.clients = s.clients → s'.down = none →
      Effect s s' [.sent fd bytes]
  | put (task : Task) : s'.queue = s.queue ++ [task] → s'.worker = s.worker →
      s.io = .enqueue task → s'.io = .idle → s'.clients = s.clients → s'.down = none →
      Effect s s' [.put task]
  | take (task : Task) : s.queue = task :: s'.queue → s.worker = .idle → s'.worker = .start task →
      s'.io = s.io → s'.clients = s.clients → s'.down = none → Effect s s' [.take task]
  | exit (task : Task) (c : Client OutByte) : s'.queue = s.queue → s.worker = .start task →
      s'.worker = .notify task → s'.io = s.io → task.cmd.head? = some (ascii "exit") →
      s.clients task.fd = some c → s'.clients = Function.update s.clients task.fd (some c.exit) →
      s'.down = none →
      Effect s s' [.exit task]
  | got (task : Task) (value : Bytes) : s'.queue = s.queue → s'.worker.holds = s.worker.holds →
      s'.io = s.io → (∀ fd, Regraft fd (s.clients fd) (s'.clients fd)) → s'.down = none →
      Effect s s' [.got task value]
  | answer (task : Task) (good : Bool) : s'.queue = s.queue → s.worker = .finish task good →
      s'.worker = .notify task → s'.io = s.io →
      (∀ fd, Regraft fd (s.clients fd) (s'.clients fd)) → s'.down = none →
      Effect s s' [.answer task good]

theorem observe_input {fd : Int} {data : Bytes} {c : Client OutByte} (h : s.clients fd = some c) :
    s.observe (.input fd data) = [.read fd data] := by
  simp [observe, h]

/-- The worker puts nothing into the queue and sends nothing. -/
theorem worker_events (s : Server) (ok : Bool) (value : Bytes) :
    puts (s.observe (.worker ok value)) = [] ∧
      ∀ fd, sentTo fd (s.observe (.worker ok value)) = [] := by
  unfold observe
  cases s.worker with
  | idle => cases s.queue <;> exact ⟨rfl, fun _ => rfl⟩
  | start task =>
    simp only
    split <;> exact ⟨rfl, fun _ => rfl⟩
  | exec task st =>
    simp only
    split
    · split <;> exact ⟨rfl, fun _ => rfl⟩
    · exact ⟨rfl, fun _ => rfl⟩
  | _ => exact ⟨rfl, fun _ => rfl⟩

/-- Where the loop of `handleCmd` ends there is no get to tell of. -/
theorem observe_execEnd {ok good : Bool} {value : Bytes} {task : Task} {st : Nat}
    (hw : s.worker = .exec task st) (hend : task.cmd.length ≤ st ∧ good = true ∨
      st < task.cmd.length ∧ good = false ∧ (fetch task.cmd st = .invalid ∨
        ok = false ∧ ∃ cmd st', fetch task.cmd st = .call cmd st')) :
    s.observe (.worker ok value) = [] := by
  obtain ⟨hst, -⟩ | ⟨-, -, hf | ⟨rfl, cmd, st', hf⟩⟩ := hend
  · simp only [observe, hw]
    cases fetch task.cmd st with
    | call cmd => cases cmd <;> simp [Nat.not_lt.2 hst]
    | _ => rfl
  · simp [observe, hw, hf]
  · cases cmd <;> simp [observe, hw, hf]

theorem observe_execCall {value : Bytes} {task : Task} {st st' : Nat} {cmd : Cmd} {ok : Bool}
    (hw : s.worker = .exec task st) (hf : fetch task.cmd st = .call cmd st')
    (hget : ∀ key, cmd ≠ .get key) : s.observe (.worker ok value) = [] := by
  cases cmd with
  | get key => exact absurd rfl (hget key)
  | _ => simp [observe, hw, hf]

theorem regraft_setOutput (fd fd' : Int) (out : List OutByte) :
    Regraft fd (s.clients fd) ((s.setOutput fd' out).clients fd) := by
  unfold setOutput
  cases hcl : s.clients fd' with
  | none => exact .refl _ _
  | some c =>
    by_cases he : fd = fd'
    · subst he
      simp only [setClient, Function.update_self, hcl]
      exact .graft c out
    · simp only [setClient, Function.update_of_ne he]
      exact .refl _ _

/-- A step that leaves the queue, the tasks in hand and the clients alone and goes unrecorded. -/
theorem Effect.silent {t : Server} (hos : s.observe a = []) (hq : t.queue = s.queue)
    (hw : t.worker.holds = s.worker.holds) (hio : t.io.tasks = s.io.tasks)
    (hcl : t.clients = s.clients) (hd : ∀ e, t.down ≠ some (.exception e)) :
    Effect s t (s.observe a) := by
  rw [hos]
  exact .quiet hq hw hio (fun fd => hcl ▸ .refl _ _) hd

/-- `handleInput` -/
theorem effect_input {fd : Int} {data : Bytes} (hs : s.step (.input fd data) = some s') :
    Effect s s' (s.observe (.input fd data)) := by
  have hdown := down_eq_none hs
  cases step_cases hs with
  | inputNull _ _ conn hio hc hcl =>
    exact .silent (by simp [observe, hcl]) rfl rfl rfl rfl (by simp [close, hdown])
  | inputTask _ _ conn c c' cmd hio _ hcl hp =>
    rw [observe_input hcl]
    exact .read fd data conn c c' (some cmd) rfl rfl hio rfl hcl rfl hp hdown
  | inputWait _ _ conn c c' hio _ hcl hp _ =>
    rw [observe_input hcl]
    exact .read fd data conn c c' none rfl rfl hio (by simp [setClient, hio, Io.tasks]) hcl rfl hp
      hdown
  | inputCrash _ _ conn c e hio _ hcl hp =>
    rw [observe_input hcl]
    exact .readCrash fd data c e rfl rfl hio hio hcl rfl hp rfl
  | closes _ _ c hcloses =>
    cases hcloses with
    | input _ _ conn c c' hio _ hcl hp _ =>
      rw [observe_input hcl]
      exact .read fd data conn c _ none rfl rfl hio rfl hcl rfl hp hdown

/-- The rest of a handler of the event loop -/
theorem effect_io {st : WriteResult} (hs : s.step (.io st) = some s') :
    Effect s s' (s.observe (.io st)) := by
  have hdown := down_eq_none hs
  cases step_cases hs with
  | closes _ fd c hcloses =>
    cases hcloses with
    | check _ value c hio hcl _ =>
      rw [setClient_self hcl]
      exact .silent (by simp [observe, hio]) rfl rfl (by simp [goto, hio, Io.tasks]) rfl
        (by simp [goto, close, hdown])
    | settle _ fd c hio hcl =>
      rw [setClient_self hcl]
      exact .silent (by simp [observe, hio]) rfl rfl (by simp [goto, hio, Io.tasks]) rfl
        (by simp [goto, close, hdown])
    | reSettle _ fd r c hio _ hcl =>
      rw [setClient_self hcl]
      exact .silent (by simp [observe, hio]) rfl rfl (by simp [goto, hio, Io.tasks]) rfl
        (by simp [goto, close, hdown])
  | enqueue _ task hio _ =>
    have hos : s.observe (.io st) = [.put task] := by simp [observe, hio]
    rw [hos]
    exact .put task rfl rfl hio rfl rfl hdown
  | checkNull _ value hio | checkQuiet _ value c hio | checkFlush _ value c hio =>
    exact .silent (by simp [observe, hio]) rfl rfl (by simp [goto, hio, Io.tasks]) rfl
      (by simp [goto, close, hdown])
  | settleAll _ fd hio | rePendNone _ fd hio =>
    exact .silent (by simp [observe, hio]) rfl rfl (by simp [goto, hio, Io.tasks]) rfl
      (by simp [goto, hdown])
  | wrote fd conn n next hio =>
    have hos : s.observe (.io (.wrote n)) = [.sent fd ((s.outputBytes fd).take n)] := by
      obtain ⟨hio, -⟩ | ⟨hio, -⟩ := hio <;> simp [observe, hio]
    rw [hos]
    refine .sent fd _ rfl rfl ?_ rfl hdown
    obtain ⟨hio, rfl⟩ | ⟨hio, rfl⟩ := hio <;> simp [hio, Io.tasks]
  | notWritten fd _ next hio hst =>
    have hos : s.observe (.io st) = [] := by
      obtain ⟨rfl, -⟩ | rfl := hst <;> obtain ⟨hio, -⟩ | ⟨hio, -⟩ := hio <;> simp [observe, hio]
    obtain ⟨hio, rfl⟩ | ⟨hio, rfl⟩ := hio <;>
      exact .silent hos rfl rfl (by simp [goto, hio, Io.tasks]) rfl (by simp [goto, hdown])
  | pend _ r fd hio =>
    obtain ⟨hio, -⟩ | ⟨hio, -⟩ | ⟨hio, -⟩ := hio <;>
      exact .silent (by simp [observe, hio]) rfl rfl (by simp [goto, hio, Io.tasks]) rfl
        (by simp [goto, pendReply, hdown])
  | settleNull _ fd r hio =>
    obtain hio | ⟨hio, -⟩ := hio <;>
      exact .silent (by simp [observe, hio]) rfl rfl (by simp [goto, hio, Io.tasks]) rfl
        (by simp [goto, close, hdown])
  | clear _ fd hio | erase _ fd n hio =>
    have hos : s.observe (.io st) = [] := by simp [observe, hio]
    rw [hos]
    exact .quiet (by simp [goto]) (by simp [goto]) (by simp [goto, hio, Io.tasks])
      (fun fd' => regraft_setOutput fd' _ _) (by simp [goto, hdown])

/-- The worker before and after the loop of `handleCmd` -/
theorem effect_task {ok : Bool} {value : Bytes} (hs : s.step (.worker ok value) = some s')
    (hexec : ∀ task st, s.worker ≠ .exec task st) : Effect s s' (s.observe (.worker ok value)) := by
  have hdown := down_eq_none hs
  cases step_cases hs with
  | closes _ _ _ hcloses => cases hcloses
  | take _ _ task queue hw hq =>
    have hos : s.observe (.worker ok value) = [.take task] := by simp [observe, hw, hq]
    rw [hos]
    exact .take task hq hw rfl rfl rfl hdown
  | startExit _ _ task c hw hcl hexit =>
    have hos : s.observe (.worker ok value) = [.exit task] := by simp [observe, hw, hcl, hexit]
    rw [hos]
    exact .exit task c rfl hw rfl rfl hexit hcl rfl hdown
  | startCrash _ _ task e hw he =>
    have hos : s.observe (.worker ok value) = [] := by
      obtain ⟨hcl, -⟩ | ⟨-, hcmd, -⟩ := he
      · simp [observe, hw, hcl]
      · simp [observe, hw, hcmd]
    refine .silent hos rfl rfl rfl rfl fun e' => ?_
    obtain ⟨-, rfl⟩ | ⟨-, -, rfl⟩ := he <;> simp [crash]
  | startExec _ _ task w hw _ hhead hne =>
    exact .silent (by simp [observe, hw, hhead, hne]) rfl (by simp [work, hw, Worker.holds]) rfl rfl
      (by simp [work, hdown])
  | finish _ good _ task hw =>
    have hos : s.observe (.worker ok value) = [.answer task good] := by simp [observe, hw]
    rw [hos]
    exact .answer task good (by simp [work]) hw rfl (by simp [work])
      (fun fd => regraft_setOutput fd _ _) (by simp [work, hdown])
  | notify _ _ task hw | notifyFull _ _ task hw =>
    exact .silent (by simp [observe, hw]) rfl (by simp [hw, Worker.holds]) rfl rfl (by simp [hdown])
  | execGet _ _ task st _ hw | execCall _ task st _ _ hw | execEnd _ _ task st _ hw
  | execCrash _ _ task st hw => exact absurd hw (hexec task st)

/-- A round of the loop of `handleCmd` -/
theorem effect_exec {ok : Bool} {value : Bytes} {task : Task} {st : Nat}
    (hs : s.step (.worker ok value) = some s') (hexec : s.worker = .exec task st) :
    Effect s s' (s.observe (.worker ok value)) := by
  have hdown := down_eq_none hs
  cases step_cases hs with
  | closes _ _ _ hcloses => cases hcloses
  | execGet _ key task st st' hw hst hf =>
    have hos : s.observe (.worker true value) = [.got task value] := by
      simp [observe, hw, hf, hst]
    rw [hos]
    exact .got task value (by simp [work]) (by simp [work, hw, Worker.holds]) (by simp [work])
      (fun fd => regraft_setOutput fd _ _) (by simp [work, hdown])
  | execCall _ task st st' cmd hw hst hf hget =>
    exact .silent (observe_execCall hw hf hget) rfl (by simp [work, hw, Worker.holds]) rfl rfl
      (by simp [work, hdown])
  | execEnd _ _ task st good hw hend =>
    exact .silent (observe_execEnd hw hend) rfl (by simp [work, hw, Worker.holds]) rfl rfl
      (by simp [work, hdown])
  | execCrash _ _ task st hw _ hf =>
    exact .silent (by simp [observe, hw, hf]) rfl rfl rfl rfl (by simp [crash])
  | take _ _ _ _ hw | startCrash _ _ _ _ hw | startExit _ _ _ _ hw | startExec _ _ _ _ hw
  | finish _ _ _ _ hw | notify _ _ _ hw | notifyFull _ _ _ hw => cases hexec.symm.trans hw

theorem step_effect (hs : s.step a = some s') : Effect s s' (s.observe a) := by
  have hdown := down_eq_none hs
  cases a with
  | accept fd garbage =>
    cases step_cases hs with
    | acceptNew _ _ hio _ _ _ hcl =>
      refine .quiet rfl rfl rfl (fun fd' => ?_) (by simp [hdown])
      by_cases he : fd' = fd
      · subst he
        simp only [Function.update_self, hcl]
        exact .new
      · simp only [Function.update_of_ne he]
        exact .refl _ _
    | acceptOld => exact .silent rfl rfl rfl rfl rfl (by simp [hdown])
    | closes _ _ _ hcloses => cases hcloses
  | input fd data => exact effect_input hs
  | notified =>
    cases step_cases hs with
    | notified hio _ => exact .silent rfl rfl rfl (by simp [hio, Io.tasks]) rfl (by simp [hdown])
    | closes _ _ _ hcloses => cases hcloses
  | writable fd =>
    cases step_cases hs with
    | writableNull _ hio => exact .silent rfl rfl rfl rfl rfl (by simp [crash])
    | writable _ c io hio _ _ _ hnext =>
      have htasks : io.tasks = s.io.tasks := by
        rw [hnext, hio]
        split <;> rfl
      exact .silent rfl rfl rfl htasks rfl (by simp [hdown])
    | closes _ _ _ hcloses => cases hcloses
  | io st => exact effect_io hs
  | worker ok value =>
    by_cases hexec : ∃ task st, s.worker = .exec task st
    · obtain ⟨task, st, hw⟩ := hexec
      exact effect_exec hs hw
    · exact effect_task hs fun task st hw => hexec ⟨task, st, hw⟩

/-! ### The queue -/

/-- Every task put into the queue is ended, with the worker or still there, in this order. -/
structure Queueing (s : Server) (tr : List Event) : Prop where
  takes : takes tr = ended tr ++ s.worker.holds
  puts : puts tr = Event.takes tr ++ s.queue

theorem Queueing.in_order {s : Server} {tr : List Event} (h : Queueing s tr) :
    Event.puts tr = ended tr ++ s.worker.holds ++ s.queue := by
  rw [h.puts, h.takes]

theorem queueing_step (s : Server) (tr : List Event) (a : Act) (s' : Server) (h : Queueing s tr)
    (hs : s.step a = some s') : Queueing s' (tr ++ s.observe a) := by
  have heff := step_effect hs
  generalize s.observe a = os at heff
  cases heff with
  | quiet hq hw =>
    rw [List.append_nil]
    exact ⟨by rw [h.takes, hw], by rw [h.puts, hq]⟩
  | got _ _ hq hw =>
    refine ⟨?_, ?_⟩
    · rw [takes_append, ended_append, h.takes, hw]
      simp [Event.takes, ended]
    · rw [puts_append, takes_append, h.puts, hq]
      simp [Event.puts, Event.takes]
  | read _ _ _ _ _ _ hq hw | readCrash _ _ _ _ hq hw | sent _ _ hq hw | put _ hq hw =>
    refine ⟨?_, ?_⟩
    · rw [takes_append, ended_append, h.takes, hw]
      simp [Event.takes, ended]
    · rw [puts_append, takes_append, h.puts, hq]
      simp [Event.puts, Event.takes]
  | take task hq hw hw' =>
    refine ⟨?_, ?_⟩
    · rw [takes_append, ended_append, h.takes, hw, hw']
      simp [Event.takes, ended, Worker.holds]
    · rw [puts_append, takes_append, h.puts, hq]
      simp [Event.puts, Event.takes]
  | exit _ _ hq hw hw' | answer _ _ hq hw hw' =>
    refine ⟨?_, ?_⟩
    · rw [takes_append, ended_append, h.takes, hw, hw']
      simp [Event.takes, ended, Worker.holds]
    · rw [puts_append, takes_append, h.puts, hq]
      simp [Event.puts, Event.takes]

theorem queueing_run {as : List Act} {s : Server} (hr : exec step init as = some s) :
    Queueing s (trace as) :=
  invariant_emitted queueing_step ⟨rfl, rfl⟩ hr

variable {as : List Act}

/-- First in, first out: the worker ends the tasks in the order in which they were put into the
queue, each once. -/
theorem ended_in_order (hr : exec step init as = some s) :
    puts (trace as) = ended (trace as) ++ s.worker.holds ++ s.queue :=
  (queueing_run hr).in_order

/-- Two clients; the worker has the first task of the one in hand while the other's `exit` and
the rest of a request arrive. -/
def crossRun : List Act :=
  [.accept 10 false, .accept 11 false, .input 10 (ascii "get k\n"), .io .again, .worker true [],
    .input 11 (ascii "exit\n"), .io .again, .input 10 (ascii "*1\r\n$4\r"), .worker true []]

theorem crossRun_exec : ∃ s, exec step init crossRun = some s ∧
    s.worker = .exec ⟨10, [ascii "get", ascii "k"], 0⟩ 0 ∧ s.queue = [⟨11, [ascii "exit"], 1⟩] ∧
    s.io = .idle ∧ (s.clients 10).map (·.isExited) = some false := by
  have hrun : (exec step init crossRun).map (fun s =>
      (s.worker, s.queue, s.io, (s.clients 10).map (·.isExited))) =
      some (.exec ⟨10, [ascii "get", ascii "k"], 0⟩ 0, [⟨11, [ascii "exit"], 1⟩], .idle,
        some false) := by
    decide +kernel
  obtain ⟨s, hs, hobs⟩ := Option.map_eq_some_iff.1 hrun
  simp only [Prod.mk.injEq] at hobs
  exact ⟨s, hs, hobs⟩

theorem ended_in_order_cross : ∃ s, exec step init crossRun = some s ∧
    puts (trace crossRun) = [] ++ [⟨10, [ascii "get", ascii "k"], 0⟩] ++
      [⟨11, [ascii "exit"], 1⟩] := by
  obtain ⟨s, hs, hw, hq, -⟩ := crossRun_exec
  have hended : ended (trace crossRun) = [] := by decide +kernel
  refine ⟨s, hs, (ended_in_order hs).trans ?_⟩
  rw [hended, hw, hq]
  rfl

end Server

end LittleLearning.Db
