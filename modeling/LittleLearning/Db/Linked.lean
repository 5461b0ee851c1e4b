import LittleLearning.Db.Handing
import LittleLearning.Db.Reads
import LittleLearning.Db.Store
import LittleLearning.Repo.Ring

/-!
# The server over its queue

`Server` puts a task into the queue and takes it out in one step each. In the
source these are calls of `TaskQueue::write` and `read`, with a mutex, condition
variables and the ring below, and in a call a thread does nothing else. `Linked`
is the server over that queue. A task is put where `writeIndex_` is stored and
taken where `readIndex_` is; up to that moment the event loop is still at its
call, and from then on the worker has the task (`atomic`).
-/

namespace LittleLearning.Db

open Cxx Transition

structure Linked where
  server : Server
  /-- `TaskQueues::getInstance()` -/
  queue : Repo.RingQueue Task

namespace Linked

inductive Act where
  /-- A step of one of the threads outside of the queue. -/
  | server (a : Db.Act)
  /-- A call of the queue, a step inside one, a spurious wakeup. -/
  | queue (a : Repo.Act Task)
  deriving DecidableEq

def init : Linked := ⟨.init, .init⟩

/-- The thread whose step it is is neither in a call of the queue nor at one. -/
def outside (s : Linked) : Db.Act → Bool
  | .worker _ _ => s.queue.ctl.consumer = .idle
  | _ => s.queue.ctl.producer = .idle ∧ s.server.io.tasks = []

/-- What a call of `write`, a call of `read` and the return of `read` are in the server. -/
def handOver (s : Linked) : Repo.Act Task → Option Server
  | .write task => if s.server.io = .enqueue task then some (s.server.goto .idle) else none
  | .read => if s.server.worker = .idle then some s.server else none
  | .consumer =>
    match s.queue.ctl.consumer with
    | .notify task => some (s.server.work (.start task))
    | _ => some s.server
  | _ => some s.server

/-- The slots of the ring. -/
def size : Nat := maxTasks + 1

section

variable {D : Type} (db : LevelDb D)

def step (p : Linked × D) : Act → Option (Linked × D)
  | .server a =>
    if p.1.outside a then
      (Server.stepOn db (p.1.server, p.2) a).map fun r => ({ p.1 with server := r.1 }, r.2)
    else none
  | .queue a =>
    if p.1.server.down.isSome then none
    else (p.1.handOver a).bind fun server =>
      (p.1.queue.step size a).map fun queue => (⟨server, queue⟩, p.2)

/-- What is on record of a step. -/
def observe (p : Linked × D) : Act → List Event
  | .server a => Server.observeOn db (p.1.server, p.2) a
  | .queue .producer =>
    match p.1.queue.writing, p.1.queue.ctl.producer.trying with
    | .store _, some task => [.put task]
    | _, _ => []
  | .queue .consumer =>
    match p.1.queue.reading, p.1.queue.ctl.consumer.trying with
    | .store _ task, true => [.take task]
    | _, _ => []
  | .queue _ => []

def trace (d₀ : D) (as : List Act) : List Event :=
  emitted (step db) (observe db) (init, d₀) as

end

/-! ### What the queue stands for -/

open Event

/-- The server as if each call of the queue took its effect at once: a task that is not published
is still with the event loop, one that is consumed is with the worker. -/
def atomic (s : Server) (q : Repo.Queue Task) : Server :=
  s.handing q.pq (q.ctl.producer.pending.head?.elim s.io .enqueue)
    (q.ctl.consumer.record.head?.elim s.worker .start)

/-- The queue is refined, and a thread in a call of it does nothing else. -/
structure Links (s : Linked) (q : Repo.Queue Task) : Prop where
  ring : Repo.Refines size s.queue q
  inWrite : q.ctl.producer ≠ .idle → s.server.io = .idle
  inRead : q.ctl.consumer ≠ .idle → s.server.worker = .idle
  unused : s.server.queue = []

variable {D : Type} {db : LevelDb D} {d d' : D} {s s' : Linked} {q : Repo.Queue Task}

theorem Links.ctl (h : Links s q) : s.queue.ctl = q.ctl := by
  obtain ⟨R, h⟩ := h.ring
  exact h.ctl

/-- The tasks on their way to the queue. -/
theorem Links.tasks (h : Links s q) : (atomic s.server q).io.tasks =
    s.queue.ctl.producer.pending ++ s.server.io.tasks := by
  have hwrite := h.inWrite
  rw [h.ctl]
  cases hp : q.ctl.producer <;>
    simp_all [atomic, Server.handing, Repo.Producer.pending, Io.tasks]

/-- The task the worker has or is about to get. -/
theorem Links.holds (h : Links s q) : (atomic s.server q).worker.holds =
    s.server.worker.holds ++ s.queue.ctl.consumer.record := by
  have hread := h.inRead
  rw [h.ctl]
  cases hc : q.ctl.consumer <;>
    simp_all [atomic, Server.handing, Repo.Consumer.record, Worker.holds]

theorem links_init : Links init .init :=
  ⟨Repo.refines_init (Nat.succ_pos _), fun _ => rfl, fun _ => rfl, rfl⟩

/-- Steps outside of the queue are steps of the server. -/
theorem Links.server {a : Db.Act} (h : Links s q)
    (hs : step db (s, d) (.server a) = some (s', d')) : Links s' q ∧
      Server.stepOn db (atomic s.server q, d) a = some (atomic s'.server q, d') ∧
      Server.observeOn db (atomic s.server q, d) a = Server.observeOn db (s.server, d) a := by
  simp only [step, Option.ite_none_right_eq_some, Option.map_eq_some_iff] at hs
  obtain ⟨hout, ⟨server, d₁⟩, hstep, heq⟩ := hs
  obtain ⟨rfl, rfl⟩ := Prod.mk.inj heq
  obtain ⟨hs, hd⟩ := Server.stepOn_eq_some.1 hstep
  by_cases ha : ∃ ok value, a = .worker ok value
  · obtain ⟨ok, value, rfl⟩ := ha
    have hidle : q.ctl.consumer = .idle := by
      rw [← h.ctl]
      simpa [outside] using hout
    obtain ⟨ok', value', d', hact⟩ := @Server.answered_worker D db (s.server, d) ok value
    rw [hact] at hs hd
    have hd : d₁ = d' := hd
    -- an idle worker finds the unused queue empty
    have hw : s.server.worker ≠ .idle := by
      intro hw
      simp [Server.step, Server.workerStep, hw, h.unused] at hs
    have hatomic : atomic s.server q = s.server.handing q.pq
        (q.ctl.producer.pending.head?.elim s.server.io .enqueue) s.server.worker := by
      simp [atomic, hidle, Repo.Consumer.record]
    have hanswer : Server.answered db (atomic s.server q, d) (.worker ok value) =
        (.worker ok' value', d') := by
      rw [hatomic, ← hact]
      rfl
    obtain ⟨hqueue, hio⟩ := Server.work_keeps hw hs
    have hio : server.io = s.server.io := hio
    refine ⟨⟨h.ring, fun hp => hio.trans (h.inWrite hp), fun hc => absurd hidle hc,
      hqueue.trans h.unused⟩, ?_, ?_⟩
    · rw [Server.stepOn, hanswer, hatomic, Server.step_work hw, hs]
      simp only [Option.map_some, atomic, hidle, Repo.Consumer.record, hio, hd]
      rfl
    · rw [Server.observeOn, Server.observeOn, hanswer, hact, hatomic]
      exact Server.observe_work hw ok' value'
  · have ha : ∀ ok value, a ≠ .worker ok value := fun ok value he => ha ⟨ok, value, he⟩
    have hfree : s.queue.ctl.producer = .idle ∧ s.server.io.tasks = [] := by
      cases a with
      | worker ok value => exact absurd rfl (ha ok value)
      | _ => simpa [outside] using hout
    have hidle : q.ctl.producer = .idle := h.ctl ▸ hfree.1
    rw [Server.answered_event ha] at hs hd
    have hd : d₁ = d := hd
    have hatomic : atomic s.server q = s.server.handing q.pq s.server.io
        (q.ctl.consumer.record.head?.elim s.server.worker .start) := by
      simp [atomic, hidle, Repo.Producer.pending]
    obtain ⟨hqueue, hworker⟩ := Server.loop_keeps hfree.2 ha hs
    have hworker : server.worker = s.server.worker := hworker
    refine ⟨⟨h.ring, fun hp => absurd hidle hp, fun hc => hworker.trans (h.inRead hc),
      hqueue.trans h.unused⟩, ?_, ?_⟩
    · rw [Server.stepOn, Server.answered_event ha, hatomic, Server.step_loop hfree.2 ha, hs]
      simp only [Option.map_some, atomic, hidle, Repo.Producer.pending, hworker, hd]
      rfl
    · rw [Server.observeOn, Server.observeOn, Server.answered_event ha, Server.answered_event ha,
        hatomic]
      exact Server.observe_loop ha

/-- What the record and the server with an atomic queue make of a step of the queue. -/
def Mirrored (db : LevelDb D) (s : Linked) (d : D) (q : Repo.Queue Task) (os : List Event)
    (s' : Linked) : Prop :=
  ∃ bs q', Links s' q' ∧
    exec (Server.stepOn db) (atomic s.server q, d) bs = some (atomic s'.server q', d) ∧
    emitted (Server.stepOn db) (Server.observeOn db) (atomic s.server q, d) bs = os

/-- It is unseen where the task on its way stays with the same thread. -/
theorem Links.unseen {c : Repo.Control Task} (h : Links s' { q with ctl := c })
    (hatomic : atomic s'.server { q with ctl := c } = atomic s.server q) :
    Mirrored db s d q [] s' :=
  ⟨[], { q with ctl := c }, h, congrArg (fun t => some (t, d)) hatomic.symm, rfl⟩

theorem observe_publish {task : Task} {cw : Nat} (hw : s.queue.writing = .store cw)
    (ht : s.queue.ctl.producer.trying = some task) :
    observe db (s, d) (.queue .producer) = [.put task] := by
  simp [observe, hw, ht]

theorem observe_write (hw : ∀ cw, s.queue.writing ≠ .store cw) :
    observe db (s, d) (.queue .producer) = [] := by
  cases hst : s.queue.writing with
  | store cw => exact absurd hst (hw cw)
  | _ => simp [observe, hst]

theorem observe_consume {task : Task} {cr : Nat} (hr : s.queue.reading = .store cr task)
    (ht : s.queue.ctl.consumer.trying = true) :
    observe db (s, d) (.queue .consumer) = [.take task] := by
  simp [observe, hr, ht]

theorem observe_read (hr : ∀ cr task, s.queue.reading ≠ .store cr task) :
    observe db (s, d) (.queue .consumer) = [] := by
  cases hst : s.queue.reading with
  | store cr task => exact absurd hst (hr cr task)
  | _ => simp [observe, hst]

/-- No attempt. -/
theorem observe_ctl {a : Repo.Act Task} (ha : a = .producer → s.queue.ctl.producer.trying = none)
    (hc : a = .consumer → s.queue.ctl.consumer.trying = false) :
    observe db (s, d) (.queue a) = [] := by
  cases a with
  | producer => cases hw : s.queue.writing <;> simp [observe, ha rfl, hw]
  | consumer => cases hr : s.queue.reading <;> simp [observe, hc rfl, hr]
  | _ => rfl

/-- An attempt of `write` is the server's `enqueue` where it stores `writeIndex_`. -/
theorem Links.producer {task : Task} (h : Links s q) (hd : s.server.down = none)
    (ht : s.queue.ctl.producer.trying = some task) :
    Mirrored db s d q (observe db (s, d) (.queue .producer))
      ⟨s.server, s.queue.writeStep size task⟩ := by
  obtain ⟨R, hring⟩ := h.ring
  have htq : q.ctl.producer.trying = some task := h.ctl ▸ ht
  have hne : q.ctl.producer ≠ .idle := by
    intro hidle
    simp [hidle, Repo.Producer.trying] at htq
  have hpending := Repo.Producer.pending_of_trying htq
  obtain ⟨⟨cw, hw⟩, hroom, hring'⟩ | ⟨hw, c, hsame, hconsumer, -, hring'⟩ := hring.published ht
  · have hdown : (atomic s.server q).down = none := hd
    have hio : (atomic s.server q).io = .enqueue task := by
      simp [atomic, Server.handing, hpending]
    have hstep : Server.stepOn db (atomic s.server q, d) (.io .again) =
        some (atomic s.server ⟨q.ctl.wrote true, q.pq ++ [task]⟩, d) := by
      rw [Server.stepOn, Server.answered_event (fun _ _ he => by cases he)]
      have hlen : (atomic s.server q).queue.length < maxTasks := hroom
      simp only [Server.step, hdown, Option.isSome_none, Bool.false_eq_true, if_false,
        Server.ioStep, hio, hlen, if_true, Option.map_some]
      simp [atomic, Server.handing, hd, Repo.Control.pending_wrote htq true,
        Repo.Control.wrote_consumer, h.inWrite hne]
    refine ⟨[.io .again], _, ⟨hring', fun _ => h.inWrite hne, fun hc => h.inRead ?_, h.unused⟩,
      exec_cons_eq_some.2 ⟨_, hstep, rfl⟩, ?_⟩
    · rwa [Repo.Control.wrote_consumer] at hc
    · rw [emitted_cons hstep, observe_publish hw ht, Server.observeOn,
        Server.answered_event (fun _ _ he => by cases he)]
      simp [Server.observe, hio, emitted]
  · rw [observe_write hw]
    refine Links.unseen (c := c) ⟨hring', fun _ => h.inWrite hne, fun hc => h.inRead ?_, h.unused⟩
      ?_
    · rwa [← hconsumer]
    · simp only [atomic, hsame, hconsumer]

/-- An attempt of `read` gives the worker its task where it stores `readIndex_`. -/
theorem Links.consumer (h : Links s q) (hd : s.server.down = none)
    (ht : s.queue.ctl.consumer.trying = true) :
    Mirrored db s d q (observe db (s, d) (.queue .consumer))
      ⟨s.server, s.queue.readStep size⟩ := by
  obtain ⟨R, hring⟩ := h.ring
  have htq : q.ctl.consumer.trying = true := h.ctl ▸ ht
  have hne : q.ctl.consumer ≠ .idle := by
    intro hidle
    simp [hidle, Repo.Consumer.trying] at htq
  have hrecord := Repo.Consumer.record_of_trying htq
  obtain ⟨cr, task, pq, hr, hpq, hring'⟩ | ⟨hr, c, hsame, hproducer, -, hring'⟩ :=
    hring.consumed ht
  · have hdown : (atomic s.server q).down = none := hd
    have hworker : (atomic s.server q).worker = .idle := by
      simp [atomic, Server.handing, hrecord, h.inRead hne]
    have hqueue : (atomic s.server q).queue = task :: pq := hpq
    have hanswer : Server.answered db (atomic s.server q, d) (.worker false []) =
        (.worker false [], d) :=
      Server.answered_other (by simp [Server.atCall, hworker])
    have hstep : Server.stepOn db (atomic s.server q, d) (.worker false []) =
        some (atomic s.server ⟨q.ctl.took (some task), pq⟩, d) := by
      rw [Server.stepOn, hanswer]
      simp only [Server.step, hdown, Option.isSome_none, Bool.false_eq_true, if_false,
        Server.workerStep, hworker, hqueue, Option.map_some]
      simp [atomic, Server.handing, hd, Repo.Control.record_took htq (some task),
        Repo.Control.took_producer]
    refine ⟨[.worker false []], _, ⟨hring', fun hp => h.inWrite ?_, fun _ => h.inRead hne,
      h.unused⟩, exec_cons_eq_some.2 ⟨_, hstep, rfl⟩, ?_⟩
    · rwa [Repo.Control.took_producer] at hp
    · rw [emitted_cons hstep, observe_consume hr ht, Server.observeOn, hanswer]
      simp [Server.observe, hworker, hqueue, emitted]
  · rw [observe_read hr]
    refine Links.unseen (c := c) ⟨hring', fun hp => h.inWrite ?_, fun _ => h.inRead hne, h.unused⟩
      ?_
    · rwa [← hproducer]
    · simp only [atomic, hsame, hproducer]

/-- A step off the ring that hands nothing over. -/
theorem Links.quiet {a : Repo.Act Task} {c : Repo.Control Task} (h : Links s q)
    (hm : s.queue.ctl.Move a c) (hpending : c.producer.pending = s.queue.ctl.producer.pending)
    (hrecord : c.consumer.record = s.queue.ctl.consumer.record)
    (hwrite : c.producer ≠ .idle → s.queue.ctl.producer ≠ .idle)
    (hread : c.consumer ≠ .idle → s.queue.ctl.consumer ≠ .idle) :
    Mirrored db s d q [] ⟨s.server, { s.queue with ctl := c }⟩ := by
  obtain ⟨R, hring⟩ := h.ring
  rw [h.ctl] at hpending hrecord hwrite hread
  refine Links.unseen (c := c) ⟨⟨R, hring.move hm⟩, fun hp => h.inWrite (hwrite hp),
    fun hc => h.inRead (hread hc), h.unused⟩ ?_
  simp only [atomic, hpending, hrecord]

/-- Off the ring the task only changes hands at a call of `write` and the return of `read`. -/
theorem Links.move {a : Repo.Act Task} {c : Repo.Control Task} {server : Server} (h : Links s q)
    (hm : s.queue.ctl.Move a c) (hover : s.handOver a = some server) :
    Mirrored db s d q [] ⟨server, { s.queue with ctl := c }⟩ := by
  obtain ⟨R, hring⟩ := h.ring
  have hring' := hring.move hm
  have hctl := h.ctl
  -- a thread that is woken up was in its call
  have hproducer : s.queue.ctl.producer.notified ≠ .idle → s.queue.ctl.producer ≠ .idle := by
    intro hp hidle
    exact hp (by rw [hidle]; rfl)
  have hconsumer : s.queue.ctl.consumer.notified ≠ .idle → s.queue.ctl.consumer ≠ .idle := by
    intro hc hidle
    exact hc (by rw [hidle]; rfl)
  cases hm with
  | write task hp =>
    simp only [handOver, Option.ite_none_right_eq_some, Option.some.injEq] at hover
    obtain ⟨hio, rfl⟩ := hover
    refine Links.unseen ⟨⟨R, hring'⟩, fun _ => rfl, fun hc => h.inRead (hctl ▸ hc), h.unused⟩ ?_
    rw [hctl] at hp ⊢
    simp [atomic, Server.handing, Server.goto, hp, hio, Repo.Producer.pending]
  | read hc =>
    simp only [handOver, Option.ite_none_right_eq_some, Option.some.injEq] at hover
    obtain ⟨hw, rfl⟩ := hover
    refine Links.unseen ⟨⟨R, hring'⟩, fun hp => h.inWrite (hctl ▸ hp), fun _ => hw, h.unused⟩ ?_
    rw [hctl] at hc ⊢
    simp [atomic, Server.handing, hc, Repo.Consumer.record]
  | consumerNotify task hc =>
    simp only [handOver, hc, Option.some.injEq] at hover
    subst hover
    refine Links.unseen ⟨⟨R, hring'⟩, fun hp => h.inWrite (hctl ▸ hproducer hp),
      fun hidle => absurd rfl hidle, h.unused⟩ ?_
    rw [hctl] at hc ⊢
    simp [atomic, Server.handing, Server.work, hc, Repo.Consumer.record]
  | producerLock task hp hmt =>
    obtain rfl := Option.some.inj hover
    refine h.quiet (.producerLock task hp hmt) ?_ rfl (fun _ => ?_) id <;>
      rcases hp with hp | hp <;> simp [hp, Repo.Producer.pending]
  | producerBlock task hp =>
    obtain rfl := Option.some.inj hover
    exact h.quiet (.producerBlock task hp) (by rw [hp]; rfl) rfl (fun _ => by simp [hp]) id
  | producerRelease hp =>
    obtain rfl := Option.some.inj hover
    exact h.quiet (.producerRelease hp) (by rw [hp]; rfl) rfl (fun _ => by simp [hp]) id
  | producerNotify hp =>
    obtain rfl := Option.some.inj hover
    exact h.quiet (.producerNotify hp) (by rw [hp]; rfl) (Repo.Consumer.record_notified _)
      (fun _ => by simp [hp]) hconsumer
  | consumerLock hc hmt =>
    have hsame : server = s.server := by
      rcases hc with hc | hc <;> simpa [handOver, hc] using hover.symm
    subst hsame
    refine h.quiet (.consumerLock hc hmt) rfl ?_ id (fun _ => ?_) <;>
      rcases hc with hc | hc <;> simp [hc, Repo.Consumer.record]
  | consumerBlock hc =>
    simp only [handOver, hc, Option.some.injEq] at hover
    subst hover
    exact h.quiet (.consumerBlock hc) rfl (by rw [hc]; rfl) id (fun _ => by simp [hc])
  | consumerNotifyHeld task hc =>
    simp only [handOver, hc, Option.some.injEq] at hover
    subst hover
    exact h.quiet (.consumerNotifyHeld task hc) (Repo.Producer.pending_notified _)
      (by rw [hc]; rfl) hproducer (fun _ => by simp [hc])
  | consumerRelease task hc =>
    simp only [handOver, hc, Option.some.injEq] at hover
    subst hover
    exact h.quiet (.consumerRelease task hc) rfl (by rw [hc]; rfl) id (fun _ => by simp [hc])
  | wakeProducer task hp =>
    obtain rfl := Option.some.inj hover
    exact h.quiet (.wakeProducer task hp) (by rw [hp]; rfl) rfl (fun _ => by simp [hp]) id
  | wakeConsumer hc =>
    obtain rfl := Option.some.inj hover
    exact h.quiet (.wakeConsumer hc) rfl (by rw [hc]; rfl) id (fun _ => by simp [hc])

/-- Every step is one or none of the server with an atomic queue, with the same record. -/
theorem Links.step {a : Act} (h : Links s q) (hs : step db (s, d) a = some (s', d')) :
    ∃ bs q', Links s' q' ∧
      exec (Server.stepOn db) (atomic s.server q, d) bs = some (atomic s'.server q', d') ∧
      emitted (Server.stepOn db) (Server.observeOn db) (atomic s.server q, d) bs =
        observe db (s, d) a := by
  cases a with
  | server a =>
    obtain ⟨hlinks, hstep, hos⟩ := h.server hs
    refine ⟨[a], q, hlinks, exec_cons_eq_some.2 ⟨_, hstep, rfl⟩, ?_⟩
    rw [emitted_cons hstep, hos]
    exact List.append_nil _
  | queue a =>
    have hd : s.server.down = none := by
      cases hd : s.server.down with
      | none => rfl
      | some e => simp [Linked.step, hd] at hs
    simp only [Linked.step, hd, Option.isSome_none, Bool.false_eq_true, if_false,
      Option.bind_eq_some_iff, Option.map_eq_some_iff] at hs
    obtain ⟨server, hover, queue, hqueue, heq⟩ := hs
    obtain ⟨rfl, rfl⟩ := Prod.mk.inj heq
    by_cases hp : a = .producer ∧ s.queue.ctl.producer.trying ≠ none
    · obtain ⟨rfl, hp⟩ := hp
      obtain ⟨task, ht⟩ := Option.ne_none_iff_exists'.1 hp
      simp only [Repo.RingQueue.step, ht, Option.some.injEq] at hqueue
      obtain rfl := Option.some.inj hover
      exact hqueue ▸ h.producer hd ht
    by_cases hc : a = .consumer ∧ s.queue.ctl.consumer.trying = true
    · obtain ⟨rfl, ht⟩ := hc
      simp only [Repo.RingQueue.step, ht, Option.some.injEq] at hqueue
      have hsame : server = s.server := by
        rcases Repo.Consumer.trying_cases ht with hc | hc <;>
          simpa [handOver, hc] using hover.symm
      rw [hsame, ← hqueue]
      exact h.consumer hd ht
    · -- no attempt: nothing is on record
      have hpa : a = .producer → s.queue.ctl.producer.trying = none := fun ha => by
        simpa [ha] using hp
      have hca : a = .consumer → s.queue.ctl.consumer.trying = false := fun ha => by
        simpa [ha] using hc
      rw [Repo.RingQueue.step_ctl hpa hca] at hqueue
      obtain ⟨c, hmove, rfl⟩ := Option.map_eq_some_iff.1 hqueue
      rw [observe_ctl hpa hca]
      exact h.move (Repo.Control.step_cases hmove) hover

/-! ### Over whole runs -/

variable {d₀ : D} {as : List Act}

theorem linked_run (hr : exec (step db) (init, d₀) as = some (s, d)) :
    ∃ bs q, Links s q ∧ exec (Server.stepOn db) (.init, d₀) bs = some (atomic s.server q, d) ∧
      Server.traceOn db d₀ bs = trace db d₀ as := by
  let R : Linked × D → Server × D → Prop :=
    fun p t => ∃ q, Links p.1 q ∧ t = (atomic p.1.server q, p.2)
  have hstep : ∀ p t a p', R p t → step db p a = some p' →
      ∃ bs t', exec (Server.stepOn db) t bs = some t' ∧ R p' t' ∧
        emitted (Server.stepOn db) (Server.observeOn db) t bs = observe db p a := by
    rintro ⟨s, d⟩ t a ⟨s', d'⟩ ⟨q, hlinks, rfl⟩ hs
    obtain ⟨bs, q', hlinks', hbs, hos⟩ := hlinks.step hs
    exact ⟨bs, _, hbs, ⟨q', hlinks', rfl⟩, hos⟩
  have hinit : R (init, d₀) (.init, d₀) := ⟨.init, links_init, rfl⟩
  obtain ⟨bs, t, hbs, ⟨q, hlinks, rfl⟩, htrace⟩ := exec_simulation_emitted hstep hinit hr
  exact ⟨bs, q, hlinks, hbs, htrace⟩

/-- A run of the server over its queue is one of the server with an atomic queue: same database,
same record, and the same state but for the queue and the task in a call of it. No slot of the ring
is touched out of turn. -/
theorem linked_refines (hr : exec (step db) (init, d₀) as = some (s, d)) :
    s.queue.fault = false ∧ ∃ bs t, exec (Server.stepOn db) (.init, d₀) bs = some (t, d) ∧
      Server.traceOn db d₀ bs = trace db d₀ as ∧
      s.server = t.handing [] s.server.io s.server.worker ∧
      t.io.tasks = s.queue.ctl.producer.pending ++ s.server.io.tasks ∧
      t.worker.holds = s.server.worker.holds ++ s.queue.ctl.consumer.record := by
  obtain ⟨bs, q, hlinks, hbs, htrace⟩ := linked_run hr
  obtain ⟨R, hring⟩ := hlinks.ring
  refine ⟨hring.holds.noFault, bs, _, hbs, htrace, ?_, hlinks.tasks, hlinks.holds⟩
  rw [← hlinks.unused]
  rfl

/-- One request through the ring: a set and a get, up to the worker's answer. -/
def linkedRun : List Act :=
  [.server (.accept 10 false), .server (.input 10 (ascii "set k v get k\n")),
    .queue (.write Server.storeTask)] ++
    List.replicate 5 (.queue .producer) ++ [.queue .read] ++
    List.replicate 6 (.queue .consumer) ++ List.replicate 6 (.server (.worker false []))

theorem linkedRun_exec : ∃ s d, exec (step LevelDb.ofMap) (init, fun _ => none) linkedRun =
    some (s, d) ∧ s.server.worker.holds = [] ∧ s.queue.ctl.consumer.record = [] := by
  have hrun : (exec (step LevelDb.ofMap) (init, fun _ => none) linkedRun).map
      (fun p => (p.1.server.worker.holds, p.1.queue.ctl.consumer.record)) = some ([], []) := by
    decide +kernel
  obtain ⟨⟨s, d⟩, hs, hobs⟩ := Option.map_eq_some_iff.1 hrun
  obtain ⟨hw, hrecord⟩ := Prod.mk.inj hobs
  exact ⟨s, d, hs, hw, hrecord⟩

theorem linkedRun_trace : ended (trace LevelDb.ofMap (fun _ => none) linkedRun) =
      [Server.storeTask] ∧
    said (trace LevelDb.ofMap (fun _ => none) linkedRun) =
      [(Server.storeTask, ascii "v\n"), (Server.storeTask, ascii "OK!\n")] := by
  decide +kernel

theorem linked_refines_get : ∃ bs, said (Server.traceOn LevelDb.ofMap (fun _ => none) bs) =
    [(Server.storeTask, ascii "v\n"), (Server.storeTask, ascii "OK!\n")] := by
  obtain ⟨s, d, hs, -⟩ := linkedRun_exec
  obtain ⟨-, bs, -, -, htrace, -⟩ := linked_refines hs
  exact ⟨bs, htrace ▸ linkedRun_trace.2⟩

variable {contents : D → Bytes → Option Bytes}

/-- With the mutex, the condition variables and the ring in between, too: what is read from an fd
is dispatched as the parser alone would, and the worker answers the tasks in the order of the
queue, as if nothing else ran. -/
theorem linked_serial (hlaws : db.GetLaws contents)
    (hr : exec (step db) (init, d₀) as = some (s, d)) :
    (∀ fd, ((puts (trace db d₀ as) ++ s.queue.ctl.producer.pending ++ s.server.io.tasks).filter
        (·.fd = fd)).map Task.cmd = (Session.run fd (readsOf fd (trace db d₀ as))).tasks) ∧
      ended (trace db d₀ as) ++ s.server.worker.holds ++ s.queue.ctl.consumer.record <+:
        puts (trace db d₀ as) ∧
      (s.server.worker.holds = [] → s.queue.ctl.consumer.record = [] →
        serial db contents (ended (trace db d₀ as)) d₀ = some (said (trace db d₀ as), d)) := by
  obtain ⟨bs, q, hlinks, hbs, htrace⟩ := linked_run hr
  obtain ⟨cs, hcs, htrace'⟩ := Server.run_of_runOn hbs
  refine ⟨fun fd => ?_, ?_, fun hw hrecord => ?_⟩
  · have hdispatched := Server.commands_of_reads hcs fd
    rwa [hlinks.tasks, htrace', htrace, ← List.append_assoc] at hdispatched
  · have horder := (Server.queueing_run hcs).in_order
    rw [hlinks.holds, htrace', htrace, ← List.append_assoc] at horder
    rw [horder]
    exact List.prefix_append _ _
  · have hidle : (atomic s.server q).worker.holds = [] := by simp [hlinks.holds, hw, hrecord]
    rw [← htrace]
    exact Server.served_run hlaws hbs hidle

theorem linked_serial_get : ∃ s d, exec (step LevelDb.ofMap) (init, fun _ => none) linkedRun =
    some (s, d) ∧ serial LevelDb.ofMap id [Server.storeTask] (fun _ => none) =
      some ([(Server.storeTask, ascii "v\n"), (Server.storeTask, ascii "OK!\n")], d) := by
  obtain ⟨s, d, hs, hw, hrecord⟩ := linkedRun_exec
  have h := (linked_serial LevelDb.ofMap_laws.toGetLaws hs).2.2 hw hrecord
  rw [linkedRun_trace.1, linkedRun_trace.2] at h
  exact ⟨s, d, hs, h⟩

end Linked

end LittleLearning.Db
