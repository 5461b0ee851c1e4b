import LittleLearning.Lib.Cxx
import LittleLearning.Lib.Monitor

/-!
# The blocking queue

`BlockingQueue` is a monitor: `put` waits at `not_full`, `pop` at `not_empty`, and
each notifies the other's condition variable before it lets go of the mutex. The
data are the queue and, for the record, all values pushed and popped.
-/

namespace LittleLearning.Concurrent

open Cxx Transition

namespace BlockingQueue

inductive Call where
  | put (val : Int32)
  | pop
  | size
  deriving DecidableEq

inductive Cond where
  | notEmpty
  | notFull
  deriving DecidableEq

structure Queue where
  data : List Int32
  pushed : List Int32
  popped : List Int32
  deriving DecidableEq

/-- `data.push(val)` -/
def Queue.push (q : Queue) (val : Int32) : Queue :=
  { q with data := q.data ++ [val], pushed := q.pushed ++ [val] }

/-- `data.front()` and `data.pop()`, which are undefined on an empty queue. -/
def Queue.pop (q : Queue) : Queue :=
  match q.data with
  | [] => q
  | val :: data => { q with data := data, popped := q.popped ++ [val] }

end BlockingQueue

open BlockingQueue in
def BlockingQueue (cap : Int32) : Monitor Call Cond Queue where
  waits
    | .put _ => some .notFull
    | .pop => some .notEmpty
    | .size => none
  ready
    | .put _, q => q.data.length < sizeT cap.toInt
    | .pop, q => !q.data.isEmpty
    | .size, _ => true
  act
    | .put val, q => q.push val
    | .pop, q => q.pop
    | .size, q => q
  notifies
    | .put _ => some .notEmpty
    | .pop => some .notFull
    | .size => none

namespace BlockingQueue

variable {τ : Type} [DecidableEq τ] {cap : Int32}

/-- A new queue, and no thread in a call. -/
def start : Monitor.State τ Call Queue := Monitor.init ⟨[], [], []⟩

/-- First in, first out, and at most `cap` in it. -/
structure Fifo (cap : Int32) (q : Queue) : Prop where
  order : q.popped ++ q.data = q.pushed
  bound : q.data.length ≤ sizeT cap.toInt

theorem fifo_preserved : (BlockingQueue cap).Preserves (Fifo cap) := by
  intro i q h hready
  cases i with
  | put val =>
    have hlt : q.data.length < sizeT cap.toInt := by simpa [BlockingQueue] using hready
    refine ⟨?_, ?_⟩
    · show q.popped ++ (q.data ++ [val]) = q.pushed ++ [val]
      rw [← List.append_assoc, h.order]
    · show (q.data ++ [val]).length ≤ sizeT cap.toInt
      rw [List.length_append, List.length_singleton]
      exact hlt
  | pop =>
    obtain ⟨data, pushed, popped⟩ := q
    cases data with
    | nil => cases hready
    | cons val data =>
      refine ⟨?_, Nat.le_of_succ_le h.bound⟩
      show (popped ++ [val]) ++ data = pushed
      rw [List.append_assoc]
      exact h.order
  | size => exact h

/-- A push makes nothing but `pop` ready, and a pop nothing but `put`. -/
theorem signals : (BlockingQueue cap).Signals (Fifo cap) := by
  intro i j q _ _ hbefore hafter
  cases i with
  | put val =>
    cases j with
    | put val' =>
      have h1 : ¬ q.data.length < sizeT cap.toInt := by simpa [BlockingQueue] using hbefore
      have h2 : (q.data ++ [val]).length < sizeT cap.toInt := by
        simpa [BlockingQueue, Queue.push] using hafter
      rw [List.length_append] at h2
      omega
    | pop => exact ⟨by simp [BlockingQueue], rfl⟩
    | size => cases hbefore
  | pop =>
    cases j with
    | put val => exact ⟨by simp [BlockingQueue], rfl⟩
    | pop =>
      have hnil : q.data = [] := by simpa [BlockingQueue] using hbefore
      simp [BlockingQueue, Queue.pop, hnil] at hafter
    | size => cases hbefore
  | size =>
    have hsame : (BlockingQueue cap).ready j q = true := hafter
    rw [hbefore] at hsame
    cases hsame

/-- With room for one value at least, a put or a pop is ready at any time. -/
theorem one_ready (hcap : 0 < cap) (val : Int32) (q : Queue) :
    (BlockingQueue cap).ready (.put val) q = true ∨ (BlockingQueue cap).ready .pop q = true := by
  have h0 : 0 < cap.toInt := Int32.lt_iff_toInt_lt.1 hcap
  have hsize : 0 < sizeT cap.toInt := by
    have := cap.toInt_lt
    unfold sizeT
    omega
  rcases hq : q.data with _ | ⟨v, data⟩
  · exact .inl (by simpa [BlockingQueue, hq] using hsize)
  · exact .inr (by simp [BlockingQueue, hq])

/-! ### Runs -/

/-- What any calls, wakeups and orders of the threads keep. -/
structure Sound (cap : Int32) (s : Monitor.State τ Call Queue) : Prop where
  exclusive : Monitor.Exclusive (BlockingQueue cap) s
  fifo : Fifo cap s.data
  heard : Monitor.Heard (BlockingQueue cap) s
  apart : ∀ val, Monitor.Apart s (.put val) .pop

theorem sound_start : Sound cap (start : Monitor.State τ Call Queue) where
  exclusive := Monitor.exclusive_init _
  fifo := ⟨rfl, Nat.zero_le _⟩
  heard := Monitor.heard_init _
  apart _ _ _ := nofun

variable {s s' : Monitor.State τ Call Queue} {a : Monitor.Act τ Call}
  {as : List (Monitor.Act τ Call)}

theorem Sound.step (hcap : 0 < cap) (h : Sound cap s)
    (hs : (BlockingQueue cap).step s a = some s') :
    Sound cap s' where
  exclusive := h.exclusive.step hs
  fifo := Monitor.data_step fifo_preserved h.exclusive h.fifo hs
  heard := h.heard.step signals h.exclusive h.fifo hs
  apart val := (h.apart val).step (fun q _ => one_ready hcap val q) h.heard h.exclusive h.fifo hs

theorem sound_exec (hcap : 0 < cap) (hs : exec (BlockingQueue cap).step start as = some s) :
    Sound cap s :=
  invariant (fun _ _ _ h hs => h.step hcap hs) sound_start hs

/-- The values come out in the order they went in, at most `cap` are inside, and no `pop` reads the
front of an empty queue. -/
theorem values_in_order (hcap : 0 < cap) (hs : exec (BlockingQueue cap).step start as = some s) :
    s.data.popped ++ s.data.data = s.data.pushed ∧ (s.data.data.length : Int) ≤ cap.toInt ∧
      ∀ t, s.stage t = .acting .pop → s.data.data ≠ [] := by
  have h := sound_exec hcap hs
  have h0 : 0 < cap.toInt := Int32.lt_iff_toInt_lt.1 hcap
  refine ⟨h.fifo.order, ?_, fun t ht hnil => ?_⟩
  · have hbound := h.fifo.bound
    have := cap.toInt_lt
    unfold sizeT at hbound
    omega
  · have hready := h.exclusive.ready t .pop ht
    simp [BlockingQueue, hnil] at hready

/-- Thread 0 finds the queue empty and sleeps, thread 1 puts a value. -/
def handOver : List (Monitor.Act Nat Call) :=
  [.call 0 .pop, .go 0, .go 0, .call 1 (.put 7), .go 1, .go 1, .go 1, .go 1, .go 1, .go 0, .go 0]

theorem values_in_order_handOver : ∃ s, exec (BlockingQueue 1).step start handOver = some s ∧
    s.data.data ≠ [] ∧ s.data.popped ++ s.data.data = s.data.pushed := by
  have hrun : (exec (BlockingQueue 1).step start handOver).map (fun s => decide
      (s.stage 0 = .acting .pop)) = some true := by decide
  obtain ⟨s, hs, hstage⟩ := Option.map_eq_some_iff.1 hrun
  obtain ⟨horder, -, hne⟩ := values_in_order (by decide) hs
  exact ⟨s, hs, hne 0 (by simpa using hstage), horder⟩

/-- With the mutex free, nobody sleeps who could go on, and producers and consumers never sleep at
the same time. -/
theorem no_waiter_stranded (hcap : 0 < cap)
    (hs : exec (BlockingQueue cap).step start as = some s) :
    (s.owner = none → (∀ t, s.stage t = .asleep .pop → s.data.data = []) ∧
      ∀ t val, s.stage t = .asleep (.put val) → ¬ (s.data.data.length : Int) < cap.toInt) ∧
    ∀ t u val, ¬ (s.stage t = .asleep (.put val) ∧ s.stage u = .asleep .pop) := by
  have h := sound_exec hcap hs
  have h0 : 0 < cap.toInt := Int32.lt_iff_toInt_lt.1 hcap
  refine ⟨fun hfree => ⟨fun t ht => ?_, fun t val ht hlt => ?_⟩, fun t u val => h.apart val t u⟩
  · have hno := h.heard.not_ready_of_free h.exclusive hfree ht
    simpa [BlockingQueue] using hno
  · have hno := h.heard.not_ready_of_free h.exclusive hfree ht
    have hno' : ¬ s.data.data.length < sizeT cap.toInt := by simpa [BlockingQueue] using hno
    have := cap.toInt_lt
    unfold sizeT at hno'
    omega

/-- Thread 0 sleeps in `pop` with the mutex free. -/
theorem no_waiter_stranded_asleep :
    ∃ s, exec (BlockingQueue 1).step start (handOver.take 3) = some s ∧
      s.stage 0 = .asleep .pop ∧ s.data.data = [] := by
  have hrun : (exec (BlockingQueue 1).step start (handOver.take 3)).map (fun s => decide
      (s.owner = none ∧ s.stage 0 = .asleep .pop)) = some true := by decide
  obtain ⟨s, hs, hobs⟩ := Option.map_eq_some_iff.1 hrun
  obtain ⟨hfree, hasleep⟩ := of_decide_eq_true hobs
  exact ⟨s, hs, hasleep, ((no_waiter_stranded (by decide) hs).1 hfree).1 0 hasleep⟩

end BlockingQueue

end LittleLearning.Concurrent
