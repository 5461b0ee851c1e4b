import LittleLearning.Lib.Circular

/-!
# `write` and `read` of `ProducerConsumerQueue`

The slots and the two indices, and the two methods step by step: a load of the
own index, a load of the other one with the test, the work on the slot, the
store of the own index. A step goes on to the next stage or returns. `Holds`
says which records the ring holds, also while either thread is in its call.

A slot touched out of turn sets `fault`, and the thread stays where it is. An
index is below the size, so the next one does not wrap in 32 bits.
-/

namespace LittleLearning.Repo

open Circular

inductive Slot (T : Type) where
  /-- No object. -/
  | raw
  | live (task : T)
  /-- An object that was moved from. -/
  | moved
  deriving DecidableEq

def Slot.isRaw {T : Type} : Slot T → Bool
  | .raw => true
  | _ => false

/-- Where the producer is in `write`. -/
inductive WriteStage where
  | load
  | check (currentWrite : Nat)
  | construct (currentWrite : Nat)
  | store (currentWrite : Nat)
  deriving DecidableEq

/-- Where the consumer is in `read`. -/
inductive ReadStage (T : Type) where
  | load
  | check (currentRead : Nat)
  | move (currentRead : Nat)
  | destroy (currentRead : Nat) (record : T)
  | store (currentRead : Nat) (record : T)
  deriving DecidableEq

structure ProducerConsumerQueue (T : Type) where
  slots : Nat → Slot T
  readIndex : Nat
  writeIndex : Nat
  /-- A slot was touched that holds no object, or holds one where it should not. -/
  fault : Bool

variable {T : Type}

namespace ProducerConsumerQueue

def init : ProducerConsumerQueue T where
  slots _ := .raw
  readIndex := 0
  writeIndex := 0
  fault := false

/-- The next step of `write(record)`, with the stage after it or what is returned. -/
def writeStep (size : Nat) (r : ProducerConsumerQueue T) (record : T) :
    WriteStage → ProducerConsumerQueue T × (WriteStage ⊕ Bool)
  | .load => (r, .inl (.check r.writeIndex))
  | .check currentWrite =>
    if next size currentWrite ≠ r.readIndex then (r, .inl (.construct currentWrite))
    else (r, .inr false)
  | .construct currentWrite =>
    match r.slots currentWrite with
    | .raw => ({ r with slots := Function.update r.slots currentWrite (.live record) },
        .inl (.store currentWrite))
    | _ => ({ r with fault := true }, .inl (.construct currentWrite))
  | .store currentWrite => ({ r with writeIndex := next size currentWrite }, .inr true)

/-- The next step of `read`, with the stage after it or what has been moved out at the return. -/
def readStep (size : Nat) (r : ProducerConsumerQueue T) :
    ReadStage T → ProducerConsumerQueue T × (ReadStage T ⊕ Option T)
  | .load => (r, .inl (.check r.readIndex))
  | .check currentRead =>
    if currentRead = r.writeIndex then (r, .inr none) else (r, .inl (.move currentRead))
  | .move currentRead =>
    match r.slots currentRead with
    | .live x => ({ r with slots := Function.update r.slots currentRead .moved },
        .inl (.destroy currentRead x))
    | _ => ({ r with fault := true }, .inl (.move currentRead))
  | .destroy currentRead x =>
    match r.slots currentRead with
    | .raw => ({ r with fault := true }, .inl (.destroy currentRead x))
    | _ => ({ r with slots := Function.update r.slots currentRead .raw },
        .inl (.store currentRead x))
  | .store currentRead x => ({ r with readIndex := next size currentRead }, .inr (some x))

end ProducerConsumerQueue

/-! ### What the slots hold -/

/-- The slot of the oldest record, while the consumer works on it. -/
def ReadStage.frontCell (reading : ReadStage T) (record : T) : Slot T :=
  match reading with
  | .destroy _ _ => .moved
  | .store _ _ => .raw
  | _ => .live record

/-- The record constructed behind the others and not yet published. -/
def WriteStage.backCells (writing : WriteStage) (record : Option T) : List (Slot T) :=
  match writing, record with
  | .store _, some record => [.live record]
  | _, _ => []

/-- The cells from the read index on, for the records `q`; `front` is the cell of the oldest. -/
def cells (front : T → Slot T) : List T → List (Slot T)
  | [] => []
  | x :: q => front x :: q.map .live

/-- What the producer knows inside `write`. -/
def WriteStage.Knows (size writeIndex : Nat) (q : List T) : WriteStage → Prop
  | .load => True
  | .check currentWrite => currentWrite = writeIndex
  | .construct currentWrite | .store currentWrite =>
    currentWrite = writeIndex ∧ q.length + 1 < size

/-- What the consumer knows inside `read`. -/
def ReadStage.Knows (readIndex : Nat) (q : List T) : ReadStage T → Prop
  | .load => True
  | .check currentRead => currentRead = readIndex
  | .move currentRead => currentRead = readIndex ∧ q ≠ []
  | .destroy currentRead x | .store currentRead x => currentRead = readIndex ∧ q.head? = some x

/-- The ring holds the records `q` from position `R` on, and behind them `back`. -/
structure ProducerConsumerQueue.Holds (size R : Nat) (r : ProducerConsumerQueue T) (q : List T)
    (front : T → Slot T) (back : List (Slot T)) : Prop where
  noFault : r.fault = false
  readIndex : r.readIndex = R % size
  writeIndex : r.writeIndex = (R + q.length) % size
  room : q.length < size
  slots : Shows size R r.slots .raw (cells front q ++ back)

section

variable {size R i : Nat} {r : ProducerConsumerQueue T} {q q' : List T} {x record : T}
  {front front' : T → Slot T} {back : List (Slot T)}

theorem cells_length (front : T → Slot T) (q : List T) : (cells front q).length = q.length := by
  cases q <;> simp [cells]

@[simp] theorem cells_live (q : List T) : cells .live q = q.map .live := by cases q <;> rfl

/-- The records behind the oldest are not touched by the consumer. -/
theorem cells_snoc (h : q = [] → ∀ x, front x = .live x) (record : T) :
    cells front (q ++ [record]) = cells front q ++ [.live record] := by
  cases q with
  | cons x q => simp [cells]
  | nil => simp [cells, h rfl]

theorem head?_of_prefix (h : q <+: q') (hx : q.head? = some x) : q'.head? = some x := by
  obtain ⟨t, rfl⟩ := h
  rw [List.head?_append, hx]
  rfl

theorem WriteStage.Knows.mono {st : WriteStage} (h : st.Knows size i q)
    (hlen : q'.length ≤ q.length) : st.Knows size i q' := by
  cases st with
  | load => trivial
  | check cw => exact h
  | construct cw => exact ⟨h.1, by have := h.2; omega⟩
  | store cw => exact ⟨h.1, by have := h.2; omega⟩

theorem ReadStage.Knows.mono {st : ReadStage T} (h : st.Knows i q) (hq : q <+: q') :
    st.Knows i q' := by
  cases st with
  | load => trivial
  | check cr => exact h
  | move cr => exact ⟨h.1, fun he => h.2 (List.prefix_nil.1 (he ▸ hq))⟩
  | destroy cr x => exact ⟨h.1, head?_of_prefix hq h.2⟩
  | store cr x => exact ⟨h.1, head?_of_prefix hq h.2⟩

/-- On an empty ring the consumer has nothing in work. -/
theorem ReadStage.Knows.frontCell_nil {st : ReadStage T} (h : st.Knows i q) (hq : q = []) (x : T) :
    st.frontCell x = .live x := by
  cases st with
  | destroy cr y | store cr y => simp [ReadStage.Knows, hq] at h
  | _ => rfl

namespace ProducerConsumerQueue

theorem holds_init (h : 0 < size) :
    Holds size 0 (init : ProducerConsumerQueue T) [] front [] where
  noFault := rfl
  readIndex := by simp [init]
  writeIndex := by simp [init]
  room := h
  slots := Shows.empty

/-- The cell of the oldest record is the same for two places of the consumer. -/
theorem Holds.congr (h : Holds size R r q front back) (hfront : ∀ x, front' x = front x) :
    Holds size R r q front' back := by
  rwa [funext hfront]

theorem Holds.empty_iff (h : Holds size R r q front back) :
    r.readIndex = r.writeIndex ↔ q = [] := by
  rw [h.readIndex, h.writeIndex, eq_comm, add_mod_eq_iff h.room, List.length_eq_zero_iff]

/-- The slot after the last record is the one of the oldest: one slot is kept free. -/
theorem Holds.full_iff (h : Holds size R r q front back) :
    next size r.writeIndex = r.readIndex ↔ q.length + 1 = size := by
  have hroom := h.room
  rw [h.writeIndex, next_mod (by omega), Nat.add_assoc, h.readIndex]
  constructor
  · intro he
    by_contra hne
    exact absurd ((add_mod_eq_iff (by omega)).1 he) (by omega)
  · intro hfull
    rw [hfull, Nat.add_mod_right]

/-- The producer constructs a record behind the others. -/
theorem Holds.push (h : Holds size R r q front []) (record : T) :
    r.slots r.writeIndex = .raw ∧
      Holds size R { r with slots := Function.update r.slots r.writeIndex (.live record) } q front
        [.live record] := by
  have hlen : (cells front q ++ []).length = q.length := by simp [cells_length]
  have hroom : (cells front q ++ []).length < size := hlen ▸ h.room
  have hindex : (R + (cells front q ++ []).length) % size = r.writeIndex := by
    rw [hlen, h.writeIndex]
  have hpush := h.slots.push hroom (.live record)
  rw [hindex, List.append_nil] at hpush
  exact ⟨hindex ▸ h.slots.back hroom, { h with slots := hpush }⟩

/-- The producer publishes the record it has constructed. -/
theorem Holds.publish (h : Holds size R r q front [.live record]) (hroom : q.length + 1 < size)
    (hfront : q = [] → ∀ x, front x = .live x) :
    Holds size R { r with writeIndex := next size r.writeIndex } (q ++ [record]) front [] where
  noFault := h.noFault
  readIndex := h.readIndex
  writeIndex := by
    show next size r.writeIndex = (R + (q ++ [record]).length) % size
    rw [h.writeIndex, next_mod (by omega)]
    simp [Nat.add_assoc]
  room := by simpa using hroom
  slots := by
    rw [cells_snoc hfront, List.append_nil]
    exact h.slots

theorem Holds.slot_front (h : Holds size R r (x :: q) front back) :
    r.slots r.readIndex = front x := by
  rw [h.readIndex]
  exact h.slots.front

/-- The consumer works on the slot of the oldest record. -/
theorem Holds.setFront (h : Holds size R r (x :: q) front back) {y : Slot T} (hy : front' x = y) :
    Holds size R { r with slots := Function.update r.slots r.readIndex y } (x :: q) front' back :=
  { h with
    slots := by
      have hset := h.slots.setFront y
      rw [← h.readIndex, ← hy] at hset
      rw [← hy]
      exact hset }

/-- The consumer publishes that the oldest record is gone. -/
theorem Holds.pop (h : Holds size R r (x :: q) front back) (hraw : front x = .raw) :
    Holds size (R + 1) { r with readIndex := next size r.readIndex } q .live back where
  noFault := h.noFault
  readIndex := by
    have hroom := h.room
    show next size r.readIndex = (R + 1) % size
    rw [h.readIndex, next_mod (by omega)]
  writeIndex := by
    show r.writeIndex = (R + 1 + q.length) % size
    rw [h.writeIndex, List.length_cons]
    congr 1
    omega
  room := by
    have hroom := h.room
    rw [List.length_cons] at hroom
    omega
  slots := by
    have hslots := h.slots
    rw [cells, hraw] at hslots
    rw [cells_live]
    exact Shows.pop hslots

/-- The oldest record has been taken out, and the producer's index is where it was. -/
theorem Holds.writeIndex_popped {r' : ProducerConsumerQueue T} {back' : List (Slot T)}
    (h : Holds size R r (x :: q) front back) (h' : Holds size (R + 1) r' q front' back') :
    r'.writeIndex = r.writeIndex := by
  rw [h'.writeIndex, h.writeIndex, List.length_cons]
  congr 1
  omega

/-! ### Steps of `write` -/

/-- What a step of `write(record)` does to a ring that holds `q`: on to a stage, or the return. -/
inductive WriteEnds (size R : Nat) (r : ProducerConsumerQueue T) (q : List T) (front : T → Slot T)
    (record : T) : WriteStage ⊕ Bool → Prop where
  | goes (st : WriteStage) : Holds size R r q front (st.backCells (some record)) →
      st.Knows size r.writeIndex q → WriteEnds size R r q front record (.inl st)
  | full : q.length + 1 = size → Holds size R r q front [] →
      WriteEnds size R r q front record (.inr false)
  | wrote : q.length + 1 < size → Holds size R r (q ++ [record]) front [] →
      WriteEnds size R r q front record (.inr true)

theorem Holds.writeStep {st : WriteStage} (h : Holds size R r q front (st.backCells (some record)))
    (hknows : st.Knows size r.writeIndex q) (hfront : q = [] → ∀ x, front x = .live x) :
    WriteEnds size R (r.writeStep size record st).1 q front record
      (r.writeStep size record st).2 := by
  cases st with
  | load => exact .goes _ h rfl
  | check cw =>
    obtain rfl : cw = r.writeIndex := hknows
    by_cases hfull : q.length + 1 = size
    · simp only [ProducerConsumerQueue.writeStep, h.full_iff.2 hfull, ne_eq, not_true_eq_false,
        if_false]
      exact .full hfull h
    · have hroom := h.room
      simp only [ProducerConsumerQueue.writeStep, ne_eq, mt h.full_iff.1 hfull, not_false_eq_true,
        if_true]
      exact .goes _ h ⟨rfl, by omega⟩
  | construct cw =>
    obtain ⟨rfl, hroom⟩ := hknows
    have hfree : Holds size R r q front [] := h
    obtain ⟨hraw, hpush⟩ := hfree.push record
    simp only [ProducerConsumerQueue.writeStep, hraw]
    exact .goes _ hpush ⟨rfl, hroom⟩
  | store cw =>
    obtain ⟨rfl, hroom⟩ := hknows
    exact .wrote hroom (h.publish hroom hfront)

/-- The record is in the ring from the store of `writeIndex_` on. -/
theorem writeStep_eq_true {st : WriteStage} :
    (r.writeStep size record st).2 = .inr true ↔ ∃ cw, st = .store cw := by
  cases st with
  | load => simp [writeStep]
  | check cw =>
    dsimp only [writeStep]
    split_ifs <;> simp
  | construct cw =>
    dsimp only [writeStep]
    split <;> simp
  | store cw => simp [writeStep]

/-! ### Steps of `read` -/

/-- What a step of `read` does to a ring that holds `q`: on to a stage, or the return. -/
inductive ReadEnds (size R : Nat) (r : ProducerConsumerQueue T) (q : List T)
    (back : List (Slot T)) : ReadStage T ⊕ Option T → Prop where
  | goes (st : ReadStage T) : Holds size R r q st.frontCell back → st.Knows r.readIndex q →
      ReadEnds size R r q back (.inl st)
  | empty : q = [] → Holds size R r q .live back → ReadEnds size R r q back (.inr none)
  | took (x : T) (q' : List T) : q = x :: q' → Holds size (R + 1) r q' .live back →
      ReadEnds size R r q back (.inr (some x))

theorem Holds.readStep {st : ReadStage T} (h : Holds size R r q st.frontCell back)
    (hknows : st.Knows r.readIndex q) :
    ReadEnds size R (r.readStep size st).1 q back (r.readStep size st).2 := by
  cases st with
  | load => exact .goes _ h rfl
  | check cr =>
    obtain rfl : cr = r.readIndex := hknows
    by_cases hempty : q = []
    · simp only [ProducerConsumerQueue.readStep, if_pos (h.empty_iff.2 hempty)]
      exact .empty hempty h
    · simp only [ProducerConsumerQueue.readStep, if_neg (mt h.empty_iff.1 hempty)]
      exact .goes _ h ⟨rfl, hempty⟩
  | move cr =>
    obtain ⟨rfl, hne⟩ := hknows
    obtain ⟨x, q, rfl⟩ := List.exists_cons_of_ne_nil hne
    have hlive : r.slots r.readIndex = .live x := h.slot_front
    simp only [ProducerConsumerQueue.readStep, hlive]
    exact .goes _ (h.setFront rfl) ⟨rfl, rfl⟩
  | destroy cr x =>
    obtain ⟨rfl, hhead⟩ := hknows
    obtain ⟨q, rfl⟩ := List.head?_eq_some_iff.1 hhead
    have hmoved : r.slots r.readIndex = .moved := h.slot_front
    simp only [ProducerConsumerQueue.readStep, hmoved]
    exact .goes _ (h.setFront rfl) ⟨rfl, hhead⟩
  | store cr x =>
    obtain ⟨rfl, hhead⟩ := hknows
    obtain ⟨q, rfl⟩ := List.head?_eq_some_iff.1 hhead
    exact .took x q rfl (h.pop rfl)

/-- The record is out of the ring from the store of `readIndex_` on. -/
theorem readStep_eq_some {st : ReadStage T} :
    (r.readStep size st).2 = .inr (some x) ↔ ∃ cr, st = .store cr x := by
  cases st with
  | load => simp [readStep]
  | check cr =>
    dsimp only [readStep]
    split_ifs <;> simp
  | move cr =>
    dsimp only [readStep]
    split <;> simp
  | destroy cr y =>
    dsimp only [readStep]
    split <;> simp
  | store cr y => simp [readStep]

end ProducerConsumerQueue

end

end LittleLearning.Repo
