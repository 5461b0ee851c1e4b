import LittleLearning.Lib.Memory

/-!
# Copying memory

`s_memcpy` copies words of eight bytes while it can, then one of four, then
single bytes. `Copying` is the state of all three phases.
-/

namespace LittleLearning.Basic

open Memory

/-- The memory and the variables of `s_memcpy`. -/
structure Memcpy where
  memory : Memory
  dData : Nat
  sData : Nat
  n : Nat

namespace Memcpy

/-- `*d_data = *s_data` for a type of `w` bytes, and past it. -/
def move (w : Nat) (c : Memcpy) : Memcpy where
  memory := c.memory.store c.dData (load w c.memory c.sData)
  dData := c.dData + w
  sData := c.sData + w
  n := c.n - w

@[simp] theorem move_n (w : Nat) (c : Memcpy) : (c.move w).n = c.n - w := rfl

def longs (c : Memcpy) : Memcpy := if 8 ≤ c.n then (c.move 8).longs else c
termination_by c.n
decreasing_by
  rw [move_n]
  omega

def int (c : Memcpy) : Memcpy := if 4 ≤ c.n then c.move 4 else c

def chars (c : Memcpy) : Memcpy := if c.n = 0 then c else (c.move 1).chars
termination_by c.n
decreasing_by
  rw [move_n]
  omega

end Memcpy

/-- The memory after `s_memcpy(dest, src, n)`, and what it returns. -/
def sMemcpy (memory : Memory) (dest src n : Nat) : Memory × Nat :=
  let c : Memcpy := ⟨memory, dest, src, n⟩
  (c.longs.int.chars.memory, dest)

/-! ### What it copies -/

/-- The first `n - c.n` bytes have been copied, and the pointers are behind them. -/
structure Copying (m₀ : Memory) (dest src n : Nat) (c : Memcpy) : Prop where
  le : c.n ≤ n
  dData : c.dData = dest + (n - c.n)
  sData : c.sData = src + (n - c.n)
  copied : Copied m₀ dest src (n - c.n) c.memory

section

variable {m₀ : Memory} {dest src n : Nat} {c : Memcpy}

theorem copying_start (m₀ : Memory) (dest src n : Nat) :
    Copying m₀ dest src n ⟨m₀, dest, src, n⟩ := by
  have h0 : n - n = 0 := Nat.sub_self n
  refine ⟨Nat.le_refl n, ?_, ?_, ?_⟩
  · rw [h0, Nat.add_zero]
  · rw [h0, Nat.add_zero]
  · rw [h0]
    exact .start

variable (hlegal : dest ≤ src ∨ src + n ≤ dest)

include hlegal

theorem Copying.move {w : Nat} (h : Copying m₀ dest src n c) (hw : w ≤ c.n) :
    Copying m₀ dest src n (c.move w) := by
  have hle := h.le
  have hnext : n - (c.n - w) = n - c.n + w := by omega
  refine ⟨Nat.le_trans (Nat.sub_le _ _) hle, ?_, ?_, ?_⟩
  · rw [Memcpy.move, h.dData, hnext, Nat.add_assoc]
  · rw [Memcpy.move, h.sData, hnext, Nat.add_assoc]
  · rw [Memcpy.move, h.dData, h.sData, hnext]
    exact h.copied.move hlegal (by omega)

theorem Copying.longs (h : Copying m₀ dest src n c) : Copying m₀ dest src n c.longs := by
  fun_induction Memcpy.longs c with
  | case1 c hn ih => exact ih (h.move hlegal hn)
  | case2 c hn => exact h

theorem Copying.int (h : Copying m₀ dest src n c) : Copying m₀ dest src n c.int := by
  unfold Memcpy.int
  split
  · exact h.move hlegal ‹_›
  · exact h

theorem Copying.chars (h : Copying m₀ dest src n c) :
    Copying m₀ dest src n c.chars ∧ c.chars.n = 0 := by
  fun_induction Memcpy.chars c with
  | case1 c hn => exact ⟨h, hn⟩
  | case2 c hn ih => exact ih (h.move hlegal (Nat.pos_of_ne_zero hn))

/-- Where a forward copy is legal the bytes of the source, as they were, are at the destination,
nothing else has changed, and the destination is returned. -/
theorem sMemcpy_copies :
    (∀ i < n, (sMemcpy m₀ dest src n).1 (dest + i) = m₀ (src + i)) ∧
      (∀ x, x < dest ∨ dest + n ≤ x → (sMemcpy m₀ dest src n).1 x = m₀ x) ∧
      (sMemcpy m₀ dest src n).2 = dest := by
  obtain ⟨hend, hzero⟩ := (((copying_start m₀ dest src n).longs hlegal).int hlegal).chars hlegal
  have hcopied : Copied m₀ dest src n (sMemcpy m₀ dest src n).1 := by
    have h := hend.copied
    rwa [hzero, Nat.sub_zero] at h
  refine ⟨fun i hi => ?_, fun x hx => ?_, rfl⟩
  · have hread : src + (dest + i - dest) = src + i := by omega
    rw [hcopied, if_pos (by omega), hread]
  · rw [hcopied, if_neg (by omega)]

end

/-- Fifteen bytes moved down by one: a word, an `int` and three single bytes, all overlapping. -/
theorem sMemcpy_copies_down : (sMemcpy UInt8.ofNat 100 101 15).2 = 100 ∧
    ∀ i < 15, (sMemcpy UInt8.ofNat 100 101 15).1 (100 + i) = UInt8.ofNat (101 + i) := by
  obtain ⟨hcopied, -, hdest⟩ := @sMemcpy_copies UInt8.ofNat 100 101 15 (.inl (by decide))
  exact ⟨hdest, hcopied⟩

end LittleLearning.Basic
