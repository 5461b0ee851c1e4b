import LittleLearning.Lib.Exec

/-!
# The task queue between the two threads

`TaskQueue::write` and `TaskQueue::read` as the steps of one producer and one
consumer. `Control` is what they share besides the ring: where each thread is,
who holds the mutex, and for the record the tasks passed to `write` and those
returned by `read`. An attempt on the ring ends in `wrote` or `took`; here it is
one step on a list of at most `cap` tasks.

The source names its condition variables the wrong way round: the producer
waits on `not_empty`, the consumer on `not_full`, and each notifies the other's.
-/

namespace LittleLearning.Repo

inductive Thread where
  | producer
  | consumer
  deriving DecidableEq

/-- Where the producer is in `write`. -/
inductive Producer (T : Type) where
  | idle
  /-- At the `pq.write` of the `if`. -/
  | attempt (task : T)
  | acquire (task : T)
  /-- At the `pq.write` of the predicate, holding the mutex. -/
  | held (task : T)
  /-- The predicate was false: at the release-and-block of `wait`. -/
  | block (task : T)
  | asleep (task : T)
  | wake (task : T)
  | release
  | notify
  deriving DecidableEq

/-- Where the consumer is in `read`, with the record once it has one. -/
inductive Consumer (T : Type) where
  | idle
  | attempt
  | acquire
  | held
  | block
  | asleep
  | wake
  /-- At the `notify_all` inside the `if`, holding the mutex. -/
  | notifyHeld (record : T)
  | release (record : T)
  | notify (record : T)
  deriving DecidableEq

structure Control (T : Type) where
  producer : Producer T
  consumer : Consumer T
  mt : Option Thread
  passed : List T
  returned : List T
  deriving DecidableEq

/-- A call, the next step of a thread, or a spurious wakeup. -/
inductive Act (T : Type) where
  | write (task : T)
  | read
  | producer
  | consumer
  | wakeProducer
  | wakeConsumer
  deriving DecidableEq

variable {T : Type}

/-- The task of the `pq.write` the producer is at. -/
def Producer.trying : Producer T → Option T
  | .attempt task => some task
  | .held task => some task
  | _ => none

def Consumer.trying : Consumer T → Bool
  | .attempt => true
  | .held => true
  | _ => false

/-- What a `notify_all` does to the thread at the condition variable. -/
def Producer.notified : Producer T → Producer T
  | .asleep task => .wake task
  | p => p

def Consumer.notified : Consumer T → Consumer T
  | .asleep => .wake
  | c => c

namespace Control

def init : Control T := ⟨.idle, .idle, none, [], []⟩

/-- The end of a `pq.write`. -/
def wrote (c : Control T) (ok : Bool) : Control T :=
  match c.producer with
  | .attempt task => { c with producer := if ok then .notify else .acquire task }
  | .held task => { c with producer := if ok then .release else .block task }
  | _ => c

/-- The end of a `pq.read`. -/
def took (c : Control T) (record : Option T) : Control T :=
  match c.consumer, record with
  | .attempt, some x => { c with consumer := .notify x }
  | .attempt, none => { c with consumer := .acquire }
  | .held, some x => { c with consumer := .notifyHeld x }
  | .held, none => { c with consumer := .block }
  | _, _ => c

/-- The steps of the producer other than attempts. -/
def producerStep (c : Control T) : Option (Control T) :=
  match c.producer with
  | .acquire task | .wake task =>
    if c.mt = none then some { c with producer := .held task, mt := some .producer } else none
  | .block task => some { c with producer := .asleep task, mt := none }
  | .release => some { c with producer := .notify, mt := none }
  | .notify => some { c with producer := .idle, consumer := c.consumer.notified }
  | _ => none

def consumerStep (c : Control T) : Option (Control T) :=
  match c.consumer with
  | .acquire | .wake =>
    if c.mt = none then some { c with consumer := .held, mt := some .consumer } else none
  | .block => some { c with consumer := .asleep, mt := none }
  | .notifyHeld x => some { c with consumer := .release x, producer := c.producer.notified }
  | .release x => some { c with consumer := .notify x, mt := none }
  | .notify x =>
    some { c with
      consumer := .idle, producer := c.producer.notified, returned := c.returned ++ [x] }
  | _ => none

/-- Calls, steps of threads that are not at an attempt, spurious wakeups. -/
def step (c : Control T) : Act T → Option (Control T)
  | .write task =>
    match c.producer with
    | .idle => some { c with producer := .attempt task, passed := c.passed ++ [task] }
    | _ => none
  | .read =>
    match c.consumer with
    | .idle => some { c with consumer := .attempt }
    | _ => none
  | .producer => c.producerStep
  | .consumer => c.consumerStep
  | .wakeProducer =>
    match c.producer with
    | .asleep task => some { c with producer := .wake task }
    | _ => none
  | .wakeConsumer =>
    match c.consumer with
    | .asleep => some { c with consumer := .wake }
    | _ => none

end Control

/-- The queue with its tasks as a list. -/
structure Queue (T : Type) where
  ctl : Control T
  pq : List T
  deriving DecidableEq

namespace Queue

def init : Queue T := ⟨.init, []⟩

def step (cap : Nat) (s : Queue T) (a : Act T) : Option (Queue T) :=
  match a, s.ctl.producer.trying, s.ctl.consumer.trying with
  | .producer, some task, _ =>
    if s.pq.length < cap then some ⟨s.ctl.wrote true, s.pq ++ [task]⟩
    else some { s with ctl := s.ctl.wrote false }
  | .consumer, _, true =>
    match s.pq with
    | x :: pq => some ⟨s.ctl.took (some x), pq⟩
    | [] => some { s with ctl := s.ctl.took none }
  | a, _, _ => (s.ctl.step a).map ({ s with ctl := · })

end Queue

/-! ### What a step can do -/

/-- The steps of `Control.step`, one constructor each. -/
inductive Control.Move (c : Control T) : Act T → Control T → Prop where
  | write (task : T) : c.producer = .idle →
      Move c (.write task) { c with producer := .attempt task, passed := c.passed ++ [task] }
  | read : c.consumer = .idle → Move c .read { c with consumer := .attempt }
  | producerLock (task : T) : c.producer = .acquire task ∨ c.producer = .wake task → c.mt = none →
      Move c .producer { c with producer := .held task, mt := some .producer }
  | producerBlock (task : T) : c.producer = .block task →
      Move c .producer { c with producer := .asleep task, mt := none }
  | producerRelease : c.producer = .release →
      Move c .producer { c with producer := .notify, mt := none }
  | producerNotify : c.producer = .notify →
      Move c .producer { c with producer := .idle, consumer := c.consumer.notified }
  | consumerLock : c.consumer = .acquire ∨ c.consumer = .wake → c.mt = none →
      Move c .consumer { c with consumer := .held, mt := some .consumer }
  | consumerBlock : c.consumer = .block →
      Move c .consumer { c with consumer := .asleep, mt := none }
  | consumerNotifyHeld (x : T) : c.consumer = .notifyHeld x →
      Move c .consumer { c with consumer := .release x, producer := c.producer.notified }
  | consumerRelease (x : T) : c.consumer = .release x →
      Move c .consumer { c with consumer := .notify x, mt := none }
  | consumerNotify (x : T) : c.consumer = .notify x → Move c .consumer
      { c with consumer := .idle, producer := c.producer.notified, returned := c.returned ++ [x] }
  | wakeProducer (task : T) : c.producer = .asleep task →
      Move c .wakeProducer { c with producer := .wake task }
  | wakeConsumer : c.consumer = .asleep → Move c .wakeConsumer { c with consumer := .wake }

variable {c c' : Control T} {a : Act T}

theorem Control.step_cases (h : c.step a = some c') : c.Move a c' := by
  cases a with
  | write task =>
    cases hp : c.producer <;> simp only [Control.step, hp, Option.some.injEq, reduceCtorEq] at h
    exact h ▸ .write task hp
  | read =>
    cases hc : c.consumer <;> simp only [Control.step, hc, Option.some.injEq, reduceCtorEq] at h
    exact h ▸ .read hc
  | producer =>
    cases hp : c.producer <;>
      simp only [Control.step, Control.producerStep, hp, Option.some.injEq, reduceCtorEq,
        Option.ite_none_right_eq_some] at h
    · exact h.2 ▸ .producerLock _ (.inl hp) h.1
    · exact h ▸ .producerBlock _ hp
    · exact h.2 ▸ .producerLock _ (.inr hp) h.1
    · exact h ▸ .producerRelease hp
    · exact h ▸ .producerNotify hp
  | consumer =>
    cases hc : c.consumer <;>
      simp only [Control.step, Control.consumerStep, hc, Option.some.injEq, reduceCtorEq,
        Option.ite_none_right_eq_some] at h
    · exact h.2 ▸ .consumerLock (.inl hc) h.1
    · exact h ▸ .consumerBlock hc
    · exact h.2 ▸ .consumerLock (.inr hc) h.1
    · exact h ▸ .consumerNotifyHeld _ hc
    · exact h ▸ .consumerRelease _ hc
    · exact h ▸ .consumerNotify _ hc
  | wakeProducer =>
    cases hp : c.producer <;> simp only [Control.step, hp, Option.some.injEq, reduceCtorEq] at h
    exact h ▸ .wakeProducer _ hp
  | wakeConsumer =>
    cases hc : c.consumer <;> simp only [Control.step, hc, Option.some.injEq, reduceCtorEq] at h
    exact h ▸ .wakeConsumer hc

/-- The steps of `Queue.step`: those off the ring, and the two ends of an attempt. -/
inductive Queue.Move (cap : Nat) (s : Queue T) : Act T → Queue T → Prop where
  | ctl (a : Act T) (c : Control T) : s.ctl.Move a c → Move cap s a { s with ctl := c }
  | wrote (task : T) : s.ctl.producer.trying = some task → s.pq.length < cap →
      Move cap s .producer ⟨s.ctl.wrote true, s.pq ++ [task]⟩
  | full (task : T) : s.ctl.producer.trying = some task → cap ≤ s.pq.length →
      Move cap s .producer { s with ctl := s.ctl.wrote false }
  | took (x : T) (pq : List T) : s.ctl.consumer.trying = true → s.pq = x :: pq →
      Move cap s .consumer ⟨s.ctl.took (some x), pq⟩
  | empty : s.ctl.consumer.trying = true → s.pq = [] →
      Move cap s .consumer ⟨s.ctl.took none, []⟩

variable {cap : Nat} {s s' : Queue T}

theorem Queue.step_ctl (ha : a = .producer → s.ctl.producer.trying = none)
    (hc : a = .consumer → s.ctl.consumer.trying = false) :
    s.step cap a = (s.ctl.step a).map ({ s with ctl := · }) := by
  cases a with
  | producer => simp [Queue.step, ha rfl]
  | consumer => simp [Queue.step, hc rfl]
  | _ => rfl

theorem Queue.step_cases (h : s.step cap a = some s') : s.Move cap a s' := by
  by_cases hp : a = .producer ∧ s.ctl.producer.trying ≠ none
  · obtain ⟨rfl, hp⟩ := hp
    obtain ⟨task, htask⟩ := Option.ne_none_iff_exists'.1 hp
    simp only [Queue.step, htask] at h
    by_cases hroom : s.pq.length < cap
    · rw [if_pos hroom] at h
      exact Option.some.inj h ▸ .wrote task htask hroom
    · rw [if_neg hroom] at h
      exact Option.some.inj h ▸ .full task htask (by omega)
  by_cases hc : a = .consumer ∧ s.ctl.consumer.trying = true
  · obtain ⟨rfl, hc⟩ := hc
    simp only [Queue.step, hc] at h
    cases hq : s.pq with
    | nil =>
      simp only [hq] at h
      exact Option.some.inj h ▸ .empty hc hq
    | cons x pq =>
      simp only [hq] at h
      exact Option.some.inj h ▸ .took x pq hc hq
  · rw [Queue.step_ctl (fun ha => by simpa [ha] using hp) (fun ha => by simpa [ha] using hc)] at h
    obtain ⟨c, hstep, rfl⟩ := Option.map_eq_some_iff.1 h
    exact .ctl a c (Control.step_cases hstep)

theorem Producer.trying_cases {p : Producer T} {task : T} (h : p.trying = some task) :
    p = .attempt task ∨ p = .held task := by
  cases p <;> simp_all [Producer.trying]

theorem Consumer.trying_cases {c : Consumer T} (h : c.trying = true) :
    c = .attempt ∨ c = .held := by
  cases c <;> simp_all [Consumer.trying]

/-! ### In order -/

/-- The task the producer has not written yet. -/
def Producer.pending : Producer T → List T
  | .attempt task | .acquire task | .held task | .block task | .asleep task | .wake task => [task]
  | _ => []

/-- The record the consumer has not returned yet. -/
def Consumer.record : Consumer T → List T
  | .notifyHeld x | .release x | .notify x => [x]
  | _ => []

@[simp] theorem Producer.pending_notified (p : Producer T) : p.notified.pending = p.pending := by
  cases p <;> rfl

@[simp] theorem Consumer.record_notified (c : Consumer T) : c.notified.record = c.record := by
  cases c <;> rfl

/-- Every task passed is returned, in the consumer's hand, in the queue or in the producer's hand,
in this order. -/
def InOrder (s : Queue T) : Prop :=
  s.ctl.passed = s.ctl.returned ++ s.ctl.consumer.record ++ s.pq ++ s.ctl.producer.pending

theorem InOrder.step (h : InOrder s) (hs : s.step cap a = some s') : InOrder s' := by
  unfold InOrder at h ⊢
  cases Queue.step_cases hs with
  | ctl _ c hm =>
    cases hm with
    | write task hp => simp [h, hp, Producer.pending]
    | producerLock task hp _ => rcases hp with hp | hp <;> simpa [hp, Producer.pending] using h
    | consumerLock hc _ => rcases hc with hc | hc <;> simpa [hc, Consumer.record] using h
    | producerNotify hp => simpa [hp, Producer.pending] using h
    | producerBlock task hp => simpa [hp, Producer.pending] using h
    | producerRelease hp => simpa [hp, Producer.pending] using h
    | wakeProducer task hp => simpa [hp, Producer.pending] using h
    | read hc => simpa [hc, Consumer.record] using h
    | consumerBlock hc => simpa [hc, Consumer.record] using h
    | consumerNotifyHeld x hc => simpa [hc, Consumer.record] using h
    | consumerRelease x hc => simpa [hc, Consumer.record] using h
    | consumerNotify x hc => simpa [hc, Consumer.record] using h
    | wakeConsumer hc => simpa [hc, Consumer.record] using h
  | wrote task ht _ =>
    rcases Producer.trying_cases ht with hp | hp <;> simp [h, hp, Control.wrote, Producer.pending]
  | full task ht _ =>
    rcases Producer.trying_cases ht with hp | hp <;> simp [h, hp, Control.wrote, Producer.pending]
  | took x pq ht hq =>
    rcases Consumer.trying_cases ht with hc | hc <;>
      simp [h, hc, hq, Control.took, Consumer.record]
  | empty ht hq =>
    rcases Consumer.trying_cases ht with hc | hc <;>
      simp [h, hc, hq, Control.took, Consumer.record]

/-! ### Threads asleep -/

/-- Between the failed test of the predicate and the wakeup. -/
def Producer.Waiting (p : Producer T) : Prop := ∃ task, p = .block task ∨ p = .asleep task

def Consumer.Waiting (c : Consumer T) : Prop := c = .block ∨ c = .asleep

/-- On the way to a `notify_all` with the attempt done. -/
def Producer.Notifying (p : Producer T) : Prop := p = .release ∨ p = .notify

def Consumer.Notifying (c : Consumer T) : Prop :=
  ∃ x, c = .notifyHeld x ∨ c = .release x ∨ c = .notify x

theorem Consumer.waiting_notified {c : Consumer T} : c.notified.Waiting ↔ c = .block := by
  cases c <;> simp [Consumer.notified, Consumer.Waiting]

theorem Producer.waiting_notified {p : Producer T} :
    p.notified.Waiting ↔ ∃ task, p = .block task := by
  cases p <;> simp [Producer.notified, Producer.Waiting]

/-- A thread sleeps on work to do, and the other is outside its call. -/
def Stranded (cap : Nat) (s : Queue T) : Prop :=
  (s.ctl.producer = .idle ∧ s.ctl.consumer = .asleep ∧ s.pq ≠ []) ∨
    (s.ctl.consumer = .idle ∧ (∃ task, s.ctl.producer = .asleep task) ∧ s.pq.length < cap)

/-- The step is no `notify_all` outside the mutex while the other thread is about to block on a
predicate that has become true. -/
def Heard (cap : Nat) (s : Queue T) : Act T → Prop
  | .producer => s.ctl.producer = .notify → s.ctl.consumer = .block → s.pq = []
  | .consumer => (∃ x, s.ctl.consumer = .notify x) → (∃ task, s.ctl.producer = .block task) →
      cap ≤ s.pq.length
  | _ => True

/-- Who waits with work to do is going to be notified. -/
structure Awake (cap : Nat) (s : Queue T) : Prop where
  consumer : s.ctl.consumer.Waiting → s.pq ≠ [] → s.ctl.producer.Notifying
  producer : s.ctl.producer.Waiting → s.pq.length < cap → s.ctl.consumer.Notifying

theorem awake_init : Awake cap (.init : Queue T) where
  consumer h := by simp [Queue.init, Control.init, Consumer.Waiting] at h
  producer h := by simp [Queue.init, Control.init, Producer.Waiting] at h

theorem Awake.not_stranded (h : Awake cap s) : ¬ Stranded cap s := by
  rintro (⟨hp, hc, hq⟩ | ⟨hc, ⟨task, hp⟩, hq⟩)
  · have := h.consumer (.inr hc) hq
    simp [hp, Producer.Notifying] at this
  · have := h.producer ⟨task, .inr hp⟩ hq
    simp [hc, Consumer.Notifying] at this

/-- Off the ring: only a `notify_all` that is not heard could break it. -/
theorem Awake.move {c : Control T} (h : Awake cap s) (hh : Heard cap s a) (hm : s.ctl.Move a c) :
    Awake cap { s with ctl := c } := by
  obtain ⟨h1, h2⟩ := h
  cases hm with
  | write task hp =>
    rw [hp] at h1
    exact ⟨fun hc hq => by simpa [Producer.Notifying] using h1 hc hq,
      fun hw => by simp [Producer.Waiting] at hw⟩
  | read hc =>
    rw [hc] at h2
    exact ⟨fun hw => by simp [Consumer.Waiting] at hw,
      fun hp hq => by simpa [Consumer.Notifying] using h2 hp hq⟩
  | producerLock task hp _ =>
    refine ⟨fun hc hq => ?_, fun hw => by simp [Producer.Waiting] at hw⟩
    have := h1 hc hq
    rcases hp with hp | hp <;> simp [hp, Producer.Notifying] at this
  | producerBlock task hp =>
    exact ⟨fun hc hq => by simpa [hp, Producer.Notifying] using h1 hc hq,
      fun _ hq => h2 ⟨task, .inl hp⟩ hq⟩
  | producerRelease hp =>
    exact ⟨fun _ _ => .inr rfl, fun hw => by simp [Producer.Waiting] at hw⟩
  | producerNotify hp =>
    refine ⟨fun hc hq => absurd (hh hp (Consumer.waiting_notified.1 hc)) hq, fun hw => ?_⟩
    simp [Producer.Waiting] at hw
  | consumerLock hc _ =>
    refine ⟨fun hw => by simp [Consumer.Waiting] at hw, fun hp hq => ?_⟩
    have := h2 hp hq
    rcases hc with hc | hc <;> simp [hc, Consumer.Notifying] at this
  | consumerBlock hc =>
    exact ⟨fun _ hq => h1 (.inl hc) hq,
      fun hp hq => by simpa [hc, Consumer.Notifying] using h2 hp hq⟩
  | consumerNotifyHeld x hc =>
    exact ⟨fun hw => by simp [Consumer.Waiting] at hw, fun _ _ => ⟨x, .inr (.inl rfl)⟩⟩
  | consumerRelease x hc =>
    exact ⟨fun hw => by simp [Consumer.Waiting] at hw, fun _ _ => ⟨x, .inr (.inr rfl)⟩⟩
  | consumerNotify x hc =>
    refine ⟨fun hw => by simp [Consumer.Waiting] at hw, fun hp hq => ?_⟩
    have := hh ⟨x, hc⟩ (Producer.waiting_notified.1 hp)
    exact absurd hq (by simpa using this)
  | wakeProducer task hp =>
    refine ⟨fun hc hq => ?_, fun hw => by simp [Producer.Waiting] at hw⟩
    have := h1 hc hq
    simp [hp, Producer.Notifying] at this
  | wakeConsumer hc =>
    refine ⟨fun hw => by simp [Consumer.Waiting] at hw, fun hp hq => ?_⟩
    have := h2 hp hq
    simp [hc, Consumer.Notifying] at this

theorem Awake.step (h : Awake cap s) (hh : Heard cap s a) (hs : s.step cap a = some s') :
    Awake cap s' := by
  cases Queue.step_cases hs with
  | ctl _ c hm => exact h.move hh hm
  | wrote task ht _ =>
    -- the producer is on its way to notify, and does not wait
    rcases Producer.trying_cases ht with hp | hp <;>
      exact ⟨fun _ _ => by simp [Control.wrote, hp, Producer.Notifying],
        fun hw => by simp [Control.wrote, hp, Producer.Waiting] at hw⟩
  | full task ht hfull =>
    have hc : s.ctl.consumer.Waiting → s.pq = [] := fun hc => by
      by_contra hq
      have := h.consumer hc hq
      rcases Producer.trying_cases ht with hp | hp <;> simp [hp, Producer.Notifying] at this
    rcases Producer.trying_cases ht with hp | hp <;>
      refine ⟨fun hw hq => absurd (hc ?_) hq, fun _ hq => absurd hq (by simpa using hfull)⟩ <;>
      simpa [Control.wrote, hp] using hw
  | took x pq ht hq =>
    rcases Consumer.trying_cases ht with hc | hc <;>
      exact ⟨fun hw => by simp [Control.took, hc, Consumer.Waiting] at hw,
        fun _ _ => by simp [Control.took, hc, Consumer.Notifying]⟩
  | empty ht hq =>
    have hp : s.ctl.producer.Waiting → cap ≤ 0 := fun hp => by
      by_contra hlt
      have := h.producer hp (by rw [hq]; exact Nat.lt_of_not_le hlt)
      rcases Consumer.trying_cases ht with hc | hc <;> simp [hc, Consumer.Notifying] at this
    rcases Consumer.trying_cases ht with hc | hc <;>
      refine ⟨fun _ hne => absurd rfl hne, fun hw hlt => absurd (hp ?_) (Nat.not_le_of_lt hlt)⟩ <;>
      simpa [Control.took, hc] using hw

/-- After a `notify_all` that is not heard, the next step of the other thread strands it. -/
theorem stranded_of_unheard (hs : s.step cap a = some s') (hh : ¬ Heard cap s a) :
    ∃ b s'', s'.step cap b = some s'' ∧ Stranded cap s'' := by
  have hmove := Queue.step_cases hs
  cases a with
  | producer =>
    simp only [Heard, not_forall] at hh
    obtain ⟨hp, hc, hq⟩ := hh
    have hstep : s.step cap .producer =
        some { s with ctl := { s.ctl with producer := .idle, consumer := .block } } := by
      simp [Queue.step, Control.step, Control.producerStep, Producer.trying, Consumer.notified,
        hp, hc]
    rw [hstep] at hs
    obtain rfl := Option.some.inj hs
    exact ⟨.consumer, _, rfl, .inl ⟨rfl, rfl, hq⟩⟩
  | consumer =>
    simp only [Heard, not_forall] at hh
    obtain ⟨⟨x, hc⟩, ⟨task, hp⟩, hq⟩ := hh
    have hstep : s.step cap .consumer = some { s with ctl :=
        { s.ctl with
          consumer := .idle, producer := .block task, returned := s.ctl.returned ++ [x] } } := by
      simp [Queue.step, Control.step, Control.consumerStep, Consumer.trying, Producer.notified,
        hp, hc]
    rw [hstep] at hs
    obtain rfl := Option.some.inj hs
    exact ⟨.producer, _, rfl, .inr ⟨rfl, ⟨task, rfl⟩, Nat.lt_of_not_le hq⟩⟩
  | _ => exact absurd trivial hh

open Transition

/-- No thread is stranded in a run whose notifications are all heard, and every reachable one that
is not heard leaves the other thread a step away from being stranded. -/
theorem heard_not_stranded :
    (∀ as : List (Act T), Along (Queue.step cap) (Heard cap) .init as →
      Always (Queue.step cap) (fun s => ¬ Stranded cap s) .init as) ∧
    ∀ (s s' : Queue T) (a : Act T), Reachable (Queue.step cap) .init s → s.step cap a = some s' →
      ¬ Heard cap s a → ∃ b s'', s'.step cap b = some s'' ∧ Stranded cap s'' := by
  constructor
  · intro as hh
    exact always_of_along (fun _ h => h.not_stranded) (fun _ _ _ h hh hs => h.step hh hs)
      awake_init hh
  · intro s s' a _ hs hh
    exact stranded_of_unheard hs hh

/-- The consumer finds the queue empty under the mutex; the producer writes and notifies before it
blocks. -/
def lostWakeup : List (Act Nat) :=
  [.read, .consumer, .consumer, .consumer, .write 7, .producer, .producer, .consumer]

theorem stranded_after_lostWakeup :
    ¬ ∀ (T : Type) (s : Queue T), Reachable (Queue.step (1024 * 1024 - 1)) .init s →
      ¬ Stranded (1024 * 1024 - 1) s := by
  intro h
  have hrun : exec (Queue.step (1024 * 1024 - 1)) .init lostWakeup = some ⟨{
      producer := .idle, consumer := .asleep, mt := none, passed := [7]
      returned := [] }, [7]⟩ := by
    decide
  exact h Nat _ ⟨lostWakeup, hrun⟩ (.inl ⟨rfl, rfl, by decide⟩)

end LittleLearning.Repo
