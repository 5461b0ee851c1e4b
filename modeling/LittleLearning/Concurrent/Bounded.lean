import LittleLearning.Concurrent.BlockingQueue
import LittleLearning.Lib.Calls

/-!
# Calls of the blocking queue

For every capacity an `int` can hold, also those that are not positive: what
`put`, `pop` and `size` answer is what a bounded list answers (`calls_linearizable`),
and nobody can go on only where the queue is empty and everyone pops, or full and
everyone puts (`blocked_calls`).
-/

namespace LittleLearning.Concurrent

open Cxx Transition

namespace BlockingQueue

inductive Answer where
  | done
  | val (v : Int32)
  | size (n : Int)
  deriving DecidableEq

/-- What a call answers once it is ready. -/
def answer : Call → Queue → Answer
  | .put _, _ => .done
  | .pop, q => .val (q.data.headD 0)
  | .size, q => .size (int32 q.data.length)

/-- The calls on a list. A capacity below zero is compared as a `size_t`. -/
def Call.apply (cap : Int32) : Call → List Int32 → Option (Answer × List Int32)
  | .put val, q => if q.length < sizeT cap.toInt then some (.done, q ++ [val]) else none
  | .pop, [] => none
  | .pop, v :: q => some (.val v, q)
  | .size, q => some (.size (int32 q.length), q)

variable {τ : Type} [DecidableEq τ] {cap : Int32}

theorem apply_data (c : Call) (q : Queue) :
    c.apply cap q.data = ((BlockingQueue cap).apply answer c q).map (Prod.map id Queue.data) := by
  obtain ⟨data, pushed, popped⟩ := q
  cases c with
  | put val =>
    by_cases hroom : data.length < sizeT cap.toInt <;>
      simp [Call.apply, Monitor.apply, BlockingQueue, answer, Queue.push, hroom]
  | pop => cases data <;> simp [Call.apply, Monitor.apply, BlockingQueue, answer, Queue.pop]
  | size => simp [Call.apply, Monitor.apply, BlockingQueue, answer]

/-- Whatever the threads call, with whatever capacity, their answers are those of a list of less
than `cap` values to which the calls are made one after another, each while it lasts; a `put` or a
`pop` that would have to wait is not made. -/
theorem calls_linearizable {s : Monitor.Logged τ Call Queue Answer}
    (hs : Reachable ((BlockingQueue cap).logStep answer) (.init ⟨[], [], []⟩) s) :
    ∃ t : Atomic.State τ (List Int32) Call Answer,
      Reachable (Atomic.step (Call.apply cap)) (.init []) t ∧ s.log = t.log ∧
        s.state.data.data = t.obj ∧ t.failed = false := by
  obtain ⟨t, ht, hlog, hdata, hup⟩ := Monitor.calls_atomic hs
  exact ⟨t.view Queue.data, Atomic.reachable_view apply_data ht, hlog,
    congrArg Queue.data hdata, hup⟩

/-- Thread 0 puts a value, which thread 1 has been waiting for, and thread 1 asks for the size. -/
def servedRun : List (Monitor.Act Nat Call) :=
  [.call 1 .pop, .go 1, .go 1, .call 0 (.put 7), .go 0, .go 0, .go 0, .go 0, .go 0, .go 1, .go 1,
    .go 1, .go 1, .go 1, .call 1 .size, .go 1, .go 1, .go 1, .go 1, .go 1]

theorem calls_linearizable_served : ∃ s : Monitor.Logged Nat Call Queue Answer,
    s.log = [(1, .call .pop), (0, .call (.put 7)), (0, .ret .done), (1, .ret (.val 7)),
      (1, .call .size), (1, .ret (.size 0))] ∧
    ∃ t : Atomic.State Nat (List Int32) Call Answer,
      Reachable (Atomic.step (Call.apply 1)) (.init []) t ∧ s.log = t.log ∧
        s.state.data.data = t.obj ∧ t.failed = false := by
  have hrun : (exec ((BlockingQueue 1).logStep answer) (.init ⟨[], [], []⟩) servedRun).map
      (·.log) = some [(1, .call .pop), (0, .call (.put 7)), (0, .ret .done), (1, .ret (.val 7)),
        (1, .call .size), (1, .ret (.size 0))] := by decide +kernel
  obtain ⟨s, hs, hlog⟩ := Option.map_eq_some_iff.1 hrun
  exact ⟨s, hlog, calls_linearizable ⟨servedRun, hs⟩⟩

/-! ### Where nobody can go on -/

variable {s : Monitor.State τ Call Queue} {as : List (Monitor.Act τ Call)}

/-- Without a capacity to test there is still the mutex, and nobody who could go on sleeps. -/
theorem heard_exec (hs : exec (BlockingQueue cap).step start as = some s) :
    Monitor.Exclusive (BlockingQueue cap) s ∧ Fifo cap s.data ∧
      Monitor.Heard (BlockingQueue cap) s :=
  invariant (I := fun s => Monitor.Exclusive (BlockingQueue cap) s ∧ Fifo cap s.data ∧
      Monitor.Heard (BlockingQueue cap) s)
    (fun _ _ _ ⟨hex, hfifo, hheard⟩ hstep =>
      ⟨hex.step hstep, Monitor.data_step fifo_preserved hex hfifo hstep,
        hheard.step signals hex hfifo hstep⟩)
    ⟨Monitor.exclusive_init _, ⟨rfl, Nat.zero_le _⟩, Monitor.heard_init _⟩ hs

theorem sizeT_pos (hcap : cap ≠ 0) : 0 < sizeT cap.toInt := by
  have hne : cap.toInt ≠ 0 := fun h => hcap (Int32.toInt_inj.1 h)
  have hlt := cap.toInt_lt
  have hle := cap.le_toInt
  unfold sizeT
  omega

/-- Nobody can go on only where nobody is in a call, or the queue is empty and all calls are `pop`,
or it is full and all are `put`. -/
theorem blocked_calls (hcap : cap ≠ 0) (hs : exec (BlockingQueue cap).step start as = some s)
    (hstuck : ∀ t, (BlockingQueue cap).step s (.go t) = none) :
    (∀ t, s.stage t = .outside) ∨
      s.data.data = [] ∧ (∀ t, s.stage t = .outside ∨ s.stage t = .asleep .pop) ∨
      sizeT cap.toInt ≤ s.data.data.length ∧
        ∀ t, s.stage t = .outside ∨ ∃ val, s.stage t = .asleep (.put val) := by
  obtain ⟨hex, -, hheard⟩ := heard_exec hs
  have hwaits := fun t => hheard.stuck hex hstuck t
  have hput : ∀ {t val}, s.stage t = .asleep (.put val) →
      (BlockingQueue cap).ready (.put val) s.data = false →
      sizeT cap.toInt ≤ s.data.data.length := fun _ hready => by simpa [BlockingQueue] using hready
  by_cases hempty : s.data.data = []
  · refine .inr (.inl ⟨hempty, fun t => (hwaits t).imp_right ?_⟩)
    rintro ⟨i, hi, hready⟩
    cases i with
    | put val =>
      have hzero := hput hi hready
      rw [hempty, List.length_nil] at hzero
      exact absurd (sizeT_pos hcap) (Nat.not_lt.2 hzero)
    | pop => exact hi
    | size => cases hready
  · by_cases hfull : sizeT cap.toInt ≤ s.data.data.length
    · refine .inr (.inr ⟨hfull, fun t => (hwaits t).imp_right ?_⟩)
      rintro ⟨i, hi, hready⟩
      cases i with
      | put val => exact ⟨val, hi⟩
      | pop => exact absurd (by simpa [BlockingQueue] using hready) hempty
      | size => cases hready
    · refine .inl fun t => (hwaits t).resolve_right ?_
      rintro ⟨i, hi, hready⟩
      cases i with
      | put val => exact hfull (hput hi hready)
      | pop => exact hempty (by simpa [BlockingQueue] using hready)
      | size => cases hready

theorem blocked_calls_pop : ∃ s,
    exec (BlockingQueue 1).step start [.call 0 .pop, .go 0, .go 0] = some s ∧
    s.stage 0 = .asleep .pop ∧
    ((∀ t : Fin 2, s.stage t = .outside) ∨
      s.data.data = [] ∧ (∀ t, s.stage t = .outside ∨ s.stage t = .asleep .pop) ∨
      sizeT (1 : Int32).toInt ≤ s.data.data.length ∧
        ∀ t, s.stage t = .outside ∨ ∃ val, s.stage t = .asleep (.put val)) := by
  have hrun : (exec (BlockingQueue 1).step (start : Monitor.State (Fin 2) Call Queue)
      [.call 0 .pop, .go 0, .go 0]).map (fun s => decide (s.stage 0 = .asleep .pop ∧
        ∀ t, ((BlockingQueue 1).step s (.go t)).isNone)) = some true := by decide
  obtain ⟨s, hs, hobs⟩ := Option.map_eq_some_iff.1 hrun
  obtain ⟨hstage, hstuck⟩ := of_decide_eq_true hobs
  exact ⟨s, hs, hstage,
    blocked_calls (by decide) hs fun t => Option.isNone_iff_eq_none.1 (hstuck t)⟩

end BlockingQueue

end LittleLearning.Concurrent
