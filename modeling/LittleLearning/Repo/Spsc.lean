import LittleLearning.Lib.Atomic
import LittleLearning.Lib.Cxx
import LittleLearning.Repo.ProducerConsumerQueue

/-!
# The whole of `ProducerConsumerQueue`

Every method of the queue step by step, a load of an index, a test, the work on
a slot or a store at a time, with the producer and the consumer each in a call
of theirs. `Method.apply` is what a method does to the list of the records.

The operands of `==` and `-` are loaded in any order; `isFull` loads
`writeIndex_` first.
-/

namespace LittleLearning.Repo

open Transition Circular Cxx

inductive Party where
  | producer
  | consumer
  deriving DecidableEq

/-- The methods that look at the two indices. -/
inductive Look where
  | isEmpty
  | isFull
  | sizeGuess
  deriving DecidableEq

inductive Method (T : Type) where
  | write (record : T)
  | read
  | frontPtr
  | popFront
  | look (op : Look)
  deriving DecidableEq

inductive Answer (T : Type) where
  | flag (b : Bool)
  /-- What `read` has moved out. -/
  | record (x : Option T)
  /-- The record under the pointer, none for `nullptr`. -/
  | front (x : Option T)
  | popped
  | size (n : Nat)
  deriving DecidableEq

/-- Where a thread is. -/
inductive Pc (T : Type) where
  | idle
  | write (record : T) (st : WriteStage)
  | read (st : ReadStage T)
  | frontLoad
  | frontCheck (currentRead : Nat)
  | popLoad
  | popCheck (currentRead : Nat)
  | popDestroy (currentRead : Nat)
  | popStore (currentRead : Nat)
  | look (op : Look) (readIndex writeIndex : Option Nat)
  deriving DecidableEq

/-! ### The methods on a list -/

variable {T : Type}

def Look.tells (capacity : Nat) (q : List T) : Look → Answer T
  | .isEmpty => .flag (q.length = 0)
  | .isFull => .flag (q.length = capacity)
  | .sizeGuess => .size q.length

/-- What a method answers and leaves, at one moment. `popFront` asserts that the queue is not
empty. -/
def Method.apply (capacity : Nat) : Method T → List T → Option (Answer T × List T)
  | .write record, q =>
    if q.length < capacity then some (.flag true, q ++ [record]) else some (.flag false, q)
  | .read, [] => some (.record none, [])
  | .read, x :: q => some (.record (some x), q)
  | .frontPtr, q => some (.front q.head?, q)
  | .popFront, [] => none
  | .popFront, _ :: q => some (.popped, q)
  | .look op, q => some (op.tells capacity q, q)

/-- The queue as an object with these methods. -/
abbrev Listed (T : Type) := Atomic.State Party (List T) (Method T) (Answer T)

/-! ### The methods on the ring -/

/-- `int ret = w - r; if(ret < 0) ret += size_;` and the conversion of the result. -/
def Spsc.sizeGuess (size r w : Nat) : Nat :=
  let ret := int32 ((w : Int) - r)
  sizeT (if ret < 0 then int32 (ret + size) else ret)

/-- The answer from the two indices. -/
def Look.answer (size r w : Nat) : Look → Answer T
  | .isEmpty => .flag (r = w)
  | .isFull => .flag (next size w = r)
  | .sizeGuess => .size (Spsc.sizeGuess size r w)

structure Spsc (T : Type) extends pq : ProducerConsumerQueue T where
  pc : Party → Pc T
  log : List (Party × Atomic.Mark (Method T) (Answer T))
  /-- The assertion of `popFront` has failed. -/
  failed : Bool

namespace Spsc

def init : Spsc T where
  pq := .init
  pc _ := .idle
  log := []
  failed := false

def goto (s : Spsc T) (i : Party) (pc : Pc T) : Spsc T :=
  { s with pc := Function.update s.pc i pc }

def enter (s : Spsc T) (i : Party) (m : Method T) (pc : Pc T) : Spsc T :=
  { s.goto i pc with log := s.log ++ [(i, .call m)] }

def answer (s : Spsc T) (i : Party) (a : Answer T) : Spsc T :=
  { s.goto i .idle with log := s.log ++ [(i, .ret a)] }

/-- What one producer and one consumer may call. -/
def entry : Party → Method T → Option (Pc T)
  | .producer, .write record => some (.write record .load)
  | .consumer, .read => some (.read .load)
  | .consumer, .frontPtr => some .frontLoad
  | .consumer, .popFront => some .popLoad
  | _, .look op => some (.look op none none)
  | _, _ => none

def writeStep (size : Nat) (s : Spsc T) (i : Party) (record : T) (st : WriteStage) : Spsc T :=
  match s.pq.writeStep size record st with
  | (pq, .inl st) => { s with pq := pq }.goto i (.write record st)
  | (pq, .inr ok) => { s with pq := pq }.answer i (.flag ok)

def readStep (size : Nat) (s : Spsc T) (i : Party) (st : ReadStage T) : Spsc T :=
  match s.pq.readStep size st with
  | (pq, .inl st) => { s with pq := pq }.goto i (.read st)
  | (pq, .inr record) => { s with pq := pq }.answer i (.record record)

/-- The next step of the call of `i`; `readFirst` is whether `readIndex_` is loaded first where
the order is free. -/
def advance (size : Nat) (s : Spsc T) (i : Party) (readFirst : Bool) : Pc T → Option (Spsc T)
  | .idle => none
  | .write record st => some (s.writeStep size i record st)
  | .read st => some (s.readStep size i st)
  | .frontLoad => some (s.goto i (.frontCheck s.readIndex))
  | .frontCheck currentRead =>
    if currentRead = s.writeIndex then some (s.answer i (.front none))
    else match s.slots currentRead with
      | .live x => some (s.answer i (.front (some x)))
      | _ => some { s with fault := true }
  | .popLoad => some (s.goto i (.popCheck s.readIndex))
  | .popCheck currentRead =>
    if currentRead ≠ s.writeIndex then some (s.goto i (.popDestroy currentRead))
    else some { s with failed := true }
  | .popDestroy currentRead =>
    match s.slots currentRead with
    | .raw => some { s with fault := true }
    | _ => some ({ s with slots := Function.update s.slots currentRead .raw }.goto i
        (.popStore currentRead))
  | .popStore currentRead =>
    some ({ s with readIndex := next size currentRead }.answer i .popped)
  | .look op none none =>
    if readFirst = true ∧ op ≠ .isFull then some (s.goto i (.look op (some s.readIndex) none))
    else some (s.goto i (.look op none (some s.writeIndex)))
  | .look op (some r) none => some (s.answer i (op.answer size r s.writeIndex))
  | .look op none (some w) => some (s.answer i (op.answer size s.readIndex w))
  | .look _ (some _) (some _) => none

inductive Act (T : Type) where
  | call (i : Party) (m : Method T)
  | step (i : Party) (readFirst : Bool)

def step (size : Nat) (s : Spsc T) (a : Act T) : Option (Spsc T) :=
  if s.failed then none
  else match a with
    | .call i m =>
      match s.pc i with
      | .idle => (entry i m).map (s.enter i m)
      | _ => none
    | .step i readFirst => s.advance size i readFirst (s.pc i)

/-- The loop of the destructor: the objects it destroys, and the slots after. -/
def destroyLoop (size endIndex : Nat) : Nat → Nat → (Nat → Slot T) →
    Option (List (Slot T) × (Nat → Slot T))
  | 0, _, _ => none
  | fuel + 1, readIndex, slots =>
    if readIndex = endIndex then some ([], slots)
    else match slots readIndex with
      | .raw => none
      | cell => (destroyLoop size endIndex fuel (next size readIndex)
          (Function.update slots readIndex .raw)).map fun (cells, slots) => (cell :: cells, slots)

/-- `~ProducerConsumerQueue`; the loop ends within a turn. -/
def destroy (triviallyDestructible : Bool) (size : Nat) (s : Spsc T) :
    Option (List (Slot T) × (Nat → Slot T)) :=
  if triviallyDestructible then some ([], s.slots)
  else destroyLoop size s.writeIndex size s.readIndex s.slots

/-- The method; the most records there can be. -/
def capacity (size : Nat) : Nat := size - 1

end Spsc

/-! ### The size in 32 bits -/

/-- The distance from the read to the write index is right up to `2 ^ 31` slots. -/
theorem sizeGuess_eq {size R len : Nat} (hsize : size ≤ 2 ^ 31) (hlen : len < size) :
    Spsc.sizeGuess size (R % size) ((R + len) % size) = len := by
  have hR := Nat.mod_lt R (show 0 < size by omega)
  have hsplit : (R + len) % size = (R % size + len) % size := by rw [Nat.mod_add_mod]
  unfold Spsc.sizeGuess
  rcases Nat.lt_or_ge (R % size + len) size with hlt | hge
  · have hw : (R + len) % size = R % size + len := by rw [hsplit, Nat.mod_eq_of_lt hlt]
    have hret : int32 (((R % size + len : Nat) : Int) - (R % size : Nat)) = len := by
      rw [show (((R % size + len : Nat) : Int) - (R % size : Nat)) = ((len : Nat) : Int) by omega]
      exact int32_natCast (by omega)
    rw [hw, hret]
    dsimp only
    rw [if_neg (by omega)]
    exact sizeT_natCast (by omega)
  · have hw : (R + len) % size = R % size + len - size := by
      rw [hsplit, Nat.mod_eq_sub_mod hge, Nat.mod_eq_of_lt (by omega)]
    have hret : int32 (((R % size + len - size : Nat) : Int) - (R % size : Nat)) =
        (len : Int) - size := by
      rw [show (((R % size + len - size : Nat) : Int) - (R % size : Nat)) = (len : Int) - size by
        omega]
      exact int32_eq (by simp only [intMin]; omega) (by simp only [intMax]; omega)
    rw [hw, hret]
    dsimp only
    rw [if_pos (by omega), show (len : Int) - size + size = (len : Nat) by omega,
      int32_natCast (by omega)]
    exact sizeT_natCast (by omega)

/-- From indices a list apart the methods tell the length of the list. -/
theorem Look.answer_eq {size R : Nat} {q : List T} (hsize : size ≤ 2 ^ 31) (hq : q.length < size)
    (op : Look) :
    op.answer size (R % size) ((R + q.length) % size) = op.tells (Spsc.capacity size) q := by
  cases op with
  | isEmpty =>
    have hiff : R % size = (R + q.length) % size ↔ q.length = 0 := by
      rw [eq_comm, add_mod_eq_iff hq]
    simp [Look.answer, Look.tells, hiff]
  | isFull =>
    have hnext : next size ((R + q.length) % size) = (R + (q.length + 1)) % size := by
      rw [next_mod (by omega), Nat.add_assoc]
    have hiff : next size ((R + q.length) % size) = R % size ↔
        q.length = Spsc.capacity size := by
      rw [hnext, Spsc.capacity]
      rcases Nat.lt_or_ge (q.length + 1) size with hlt | hge
      · rw [add_mod_eq_iff hlt]
        omega
      · have hturn : q.length + 1 = size := by omega
        rw [hturn, Nat.add_mod_right]
        omega
    simp only [Look.answer, Look.tells, hiff]
  | sizeGuess => rw [Look.answer, Look.tells, sizeGuess_eq hsize hq]

end LittleLearning.Repo
