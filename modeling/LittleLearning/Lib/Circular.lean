import Mathlib.Logic.Function.Basic
import Mathlib.Data.List.Basic
import Mathlib.Data.Nat.ModEq

/-!
# Cells in a ring

`size` slots numbered from 0 are walked round and round by `next`. A position
counts the steps from slot 0, so the slot of position `R` is `R % size`, and
`Shows` says what the slots hold from a position on: some cells, then free
slots up to a full turn. Cells are pushed behind the last and popped at the
front; the position moves on, the slots stay where they are.
-/

namespace Circular

variable {α : Type*} {size R i j : Nat}

/-- The slot after `i`. -/
def next (size i : Nat) : Nat := if i + 1 = size then 0 else i + 1

theorem next_mod (h : 0 < size) (R : Nat) : next size (R % size) = (R + 1) % size := by
  have hlt := Nat.mod_lt R h
  have hsplit : (R + 1) % size = (R % size + 1) % size := by rw [Nat.mod_add_mod]
  unfold next
  by_cases hend : R % size + 1 = size
  · rw [if_pos hend, hsplit, hend, Nat.mod_self]
  · rw [if_neg hend, hsplit, Nat.mod_eq_of_lt (show R % size + 1 < size by omega)]

/-- Positions less than a turn apart have different slots. -/
theorem add_mod_inj (hi : i < size) (hj : j < size) (h : (R + i) % size = (R + j) % size) :
    i = j := by
  have hmod : Nat.ModEq size i j := Nat.ModEq.add_left_cancel' R h
  rwa [Nat.ModEq, Nat.mod_eq_of_lt hi, Nat.mod_eq_of_lt hj] at hmod

theorem add_mod_eq_iff (hi : i < size) : (R + i) % size = R % size ↔ i = 0 := by
  constructor
  · intro h
    exact add_mod_inj (R := R) hi (by omega) h
  · rintro rfl
    rfl

/-- From position `R` on the slots hold `cells`, and `free` for the rest of a turn. -/
def Shows (size R : Nat) (slots : Nat → α) (free : α) (cells : List α) : Prop :=
  cells.length ≤ size ∧ ∀ i, i < size → slots ((R + i) % size) = (cells[i]?).getD free

variable {slots : Nat → α} {free x y : α} {cells : List α}

theorem Shows.empty : Shows size R (fun _ => free) free [] := ⟨Nat.zero_le _, fun _ _ => by simp⟩

theorem Shows.front (h : Shows size R slots free (x :: cells)) : slots (R % size) = x := by
  have := h.2 0 (Nat.lt_of_lt_of_le (Nat.succ_pos _) h.1)
  simpa using this

theorem Shows.back (h : Shows size R slots free cells) (hroom : cells.length < size) :
    slots ((R + cells.length) % size) = free := by
  simpa using h.2 _ hroom

theorem Shows.exists_free (h : Shows size R slots free cells) (hroom : cells.length < size) :
    ∃ k, k < size ∧ slots k = free :=
  ⟨_, Nat.mod_lt _ (by omega), h.back hroom⟩

/-- Writing one slot changes what is shown at one place. -/
theorem Shows.update (h : Shows size R slots free cells) (hj : j < size) (hi : i < size) (y : α) :
    Function.update slots ((R + j) % size) y ((R + i) % size) =
      if i = j then y else (cells[i]?).getD free := by
  by_cases hij : i = j
  · rw [if_pos hij, hij, Function.update_self]
  · rw [if_neg hij, Function.update_of_ne (fun he => hij (add_mod_inj hi hj he)), h.2 i hi]

theorem Shows.push (h : Shows size R slots free cells) (hroom : cells.length < size) (y : α) :
    Shows size R (Function.update slots ((R + cells.length) % size) y) free (cells ++ [y]) := by
  refine ⟨by simp; omega, fun i hi => ?_⟩
  rw [h.update hroom hi]
  rcases Nat.lt_trichotomy i cells.length with hlt | rfl | hgt
  · rw [if_neg (by omega), List.getElem?_append_left hlt]
  · simp
  · rw [if_neg (by omega), List.getElem?_eq_none (by omega), List.getElem?_eq_none (by simp; omega)]

theorem Shows.setFront (h : Shows size R slots free (x :: cells)) (y : α) :
    Shows size R (Function.update slots (R % size) y) free (y :: cells) := by
  refine ⟨h.1, fun i hi => ?_⟩
  have := h.update (show 0 < size by omega) hi y
  rw [Nat.add_zero] at this
  rw [this]
  cases i with
  | zero => simp
  | succ i => simp

/-- A free cell at the front is behind the last after a step on. -/
theorem Shows.pop (h : Shows size R slots free (free :: cells)) :
    Shows size (R + 1) slots free cells := by
  have hlen : cells.length + 1 ≤ size := h.1
  refine ⟨by omega, fun i hi => ?_⟩
  have hshift : R + 1 + i = R + (i + 1) := by omega
  rw [hshift]
  rcases Nat.lt_or_ge (i + 1) size with hlt | hge
  · simpa using h.2 (i + 1) hlt
  · have hturn : (R + (i + 1)) % size = R % size := by
      rw [show i + 1 = size by omega, Nat.add_mod_right]
    rw [hturn, h.front, List.getElem?_eq_none (by omega)]
    rfl

/-- Where no cell is left every slot is free. -/
theorem Shows.all_free (h : Shows size R slots free []) (hj : j < size) : slots j = free := by
  have hR := Nat.mod_lt R (show 0 < size by omega)
  have hslot : (R + (j + (size - R % size)) % size) % size = j := by
    rw [Nat.add_mod_mod, ← Nat.mod_add_mod,
      show R % size + (j + (size - R % size)) = j + size by omega, Nat.add_mod_right,
      Nat.mod_eq_of_lt hj]
  have := h.2 ((j + (size - R % size)) % size) (Nat.mod_lt _ (by omega))
  rw [hslot] at this
  simpa using this

end Circular
