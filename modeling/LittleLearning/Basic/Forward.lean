import LittleLearning.Basic.Util

/-!
# Words instead of bytes

The last loop of `s_memcpy` alone copies byte by byte, and repeats what it has
written where the destination is a little above the source. `s_memcpy` does the
same unless the destination begins inside the first word.
-/

namespace LittleLearning.Basic

open Memory

namespace Memcpy

/-- The last loop alone: the memory after `n` single bytes. -/
def bytes (memory : Memory) (dest src n : Nat) : Memory :=
  (⟨memory, dest, src, n⟩ : Memcpy).chars.memory

/-- The destination does not begin inside the next `w` bytes of the source. -/
def Clear (w : Nat) (c : Memcpy) : Prop := ¬ (c.sData < c.dData ∧ c.dData < c.sData + w)

variable {c : Memcpy} {w x : Nat}

@[simp] theorem move_dData (w : Nat) (c : Memcpy) : (c.move w).dData = c.dData + w := rfl

@[simp] theorem move_sData (w : Nat) (c : Memcpy) : (c.move w).sData = c.sData + w := rfl

theorem move_memory : (c.move w).memory x =
    if c.dData ≤ x ∧ x < c.dData + w then c.memory (c.sData + (x - c.dData)) else c.memory x :=
  store_load

theorem eq_of_memory {c' : Memcpy} (hmemory : ∀ x, c.memory x = c'.memory x)
    (hd : c.dData = c'.dData) (hs : c.sData = c'.sData) (hn : c.n = c'.n) : c = c' := by
  have hmemory := funext hmemory
  cases c
  cases c'
  simp_all

theorem Clear.move (h : Clear w c) (v : Nat) : Clear w (c.move v) := by
  unfold Clear at *
  rw [move_dData, move_sData]
  omega

/-- A word and a byte are the next longer word. -/
theorem move_succ (h : Clear (w + 1) c) : (c.move w).move 1 = c.move (w + 1) := by
  refine eq_of_memory (fun x => ?_) (Nat.add_assoc ..) (Nat.add_assoc ..) (Nat.sub_sub ..)
  rw [move_memory, move_memory (w := w + 1), move_dData, move_sData]
  by_cases hx : x = c.dData + w
  · subst hx
    have hlast : (c.move w).memory (c.sData + w) = c.memory (c.sData + w) := by
      rw [move_memory, if_neg]
      unfold Clear at h
      omega
    rw [if_pos ⟨Nat.le_refl _, Nat.lt_succ_self _⟩, if_pos (by omega), Nat.sub_self, Nat.add_zero,
      hlast, Nat.add_sub_cancel_left]
  · rw [if_neg (by omega), move_memory]
    refine ite_congr (propext ?_) (fun _ => rfl) fun _ => rfl
    omega

/-- A word at a time is a byte at a time. -/
theorem chars_move (h : Clear w c) (hw : w ≤ c.n) : (c.move w).chars = c.chars := by
  induction w with
  | zero =>
    have hsame : c.move 0 = c := by
      refine eq_of_memory (fun x => ?_) (Nat.add_zero _) (Nat.add_zero _) (Nat.sub_zero _)
      rw [move_memory, if_neg (by omega)]
    rw [hsame]
  | succ w ih =>
    have hless : Clear w c := by
      unfold Clear at *
      omega
    rw [← move_succ h, ← ih hless (by omega), chars.eq_def (c.move w),
      if_neg (show ¬ (c.move w).n = 0 by rw [move_n]; omega)]

theorem chars_longs (h : 8 ≤ c.n → Clear 8 c) : c.longs.chars = c.chars := by
  fun_induction longs c with
  | case1 c hn ih => rw [ih (fun _ => (h hn).move 8), chars_move (h hn) hn]
  | case2 c hn => rfl

theorem Clear.longs (h : Clear w c) : Clear w c.longs ∧ c.longs.n ≤ c.n := by
  fun_induction Memcpy.longs c with
  | case1 c hn ih =>
    obtain ⟨hclear, hle⟩ := ih (h.move 8)
    exact ⟨hclear, Nat.le_trans hle (Nat.sub_le ..)⟩
  | case2 c hn => exact ⟨h, Nat.le_refl _⟩

theorem chars_int (h : 4 ≤ c.n → Clear 4 c) : c.int.chars = c.chars := by
  unfold int
  split
  · exact chars_move (h ‹_›) ‹_›
  · rfl

/-! ### What is behind the pointers -/

theorem move_below (h : x < c.dData) (w : Nat) : (c.move w).memory x = c.memory x := by
  rw [move_memory, if_neg (by omega)]

theorem chars_below (h : x < c.dData) : c.chars.memory x = c.memory x := by
  fun_induction chars c with
  | case1 c hn => rfl
  | case2 c hn ih => rw [ih (Nat.lt_succ_of_lt h), move_below h]

/-- As far up the destination as that is from the source, the first byte is copied again. -/
theorem chars_again (h : c.sData < c.dData) (hn : c.dData < c.sData + c.n) :
    c.chars.memory (c.dData + (c.dData - c.sData)) = c.memory c.sData := by
  generalize hd : c.dData - c.sData = d
  have hclear : Clear d c := fun hin => by omega
  rw [← chars_move hclear (by omega), chars.eq_def, if_neg (by rw [move_n]; omega),
    chars_below (by rw [move_dData, move_dData]; omega), move_memory, move_dData, move_sData,
    if_pos (by omega), move_memory, if_pos (by omega)]
  congr 1
  omega

theorem int_below (h : x < c.dData) : c.int.memory x = c.memory x ∧ x < c.int.dData := by
  unfold int
  split
  · exact ⟨move_below h 4, Nat.lt_add_right 4 h⟩
  · exact ⟨rfl, h⟩

theorem longs_below (h : x < c.dData) : c.longs.memory x = c.memory x ∧ x < c.longs.dData := by
  fun_induction longs c with
  | case1 c hn ih =>
    obtain ⟨hmemory, hlt⟩ := ih (Nat.lt_add_right 8 h)
    exact ⟨hmemory.trans (move_below h 8), hlt⟩
  | case2 c hn => exact ⟨rfl, h⟩

end Memcpy

open Memcpy

variable {m₀ : Memory} {dest src n x : Nat}

/-- How many bytes the first word of `s_memcpy` has, 0 where there is none. -/
def firstWord (n : Nat) : Nat := if 8 ≤ n then 8 else if 4 ≤ n then 4 else 0

/-- The first word is copied as it was. -/
theorem sMemcpy_firstWord (hx : dest ≤ x) (hlt : x < dest + firstWord n) :
    (sMemcpy m₀ dest src n).1 x = m₀ (src + (x - dest)) := by
  have hword : ∀ w, x < dest + w →
      ((⟨m₀, dest, src, n⟩ : Memcpy).move w).memory x = m₀ (src + (x - dest)) := fun w hw => by
    rw [move_memory]
    exact if_pos ⟨hx, hw⟩
  show (⟨m₀, dest, src, n⟩ : Memcpy).longs.int.chars.memory x = _
  unfold firstWord at hlt
  rw [longs.eq_def]
  by_cases h8 : 8 ≤ n
  · rw [if_pos h8] at hlt
    rw [if_pos h8]
    obtain ⟨hlongs, hlt⟩ := longs_below (c := (⟨m₀, dest, src, n⟩ : Memcpy).move 8) hlt
    obtain ⟨hint, hlt⟩ := int_below hlt
    rw [chars_below hlt, hint, hlongs, hword 8 ‹_›]
  · rw [if_neg h8] at hlt
    rw [if_neg h8, int]
    split at hlt
    · rw [if_pos ‹_›, chars_below hlt, hword 4 hlt]
    · omega

/-- `s_memcpy` copies as the loop of single bytes does, whatever the memory holds, exactly where the
destination does not begin inside the first word. -/
theorem sMemcpy_bytes_iff (dest src n : Nat) :
    (∀ m : Memory, (sMemcpy m dest src n).1 = bytes m dest src n) ↔
      ¬ (src < dest ∧ dest < src + firstWord n) := by
  constructor
  · rintro h ⟨hlt, hin⟩
    have hle : firstWord n ≤ n := by
      unfold firstWord
      split_ifs <;> omega
    have hsame := congrFun (h fun x => if x = src then 1 else 0) (dest + (dest - src))
    rw [sMemcpy_firstWord (by omega) (by omega), bytes,
      chars_again hlt (show dest < src + n by omega), if_neg (by omega)] at hsame
    exact absurd (hsame.trans (if_pos rfl)) (by decide)
  · intro h m
    show (⟨m, dest, src, n⟩ : Memcpy).longs.int.chars.memory = _
    have hclear : Clear (firstWord n) (⟨m, dest, src, n⟩ : Memcpy) := h
    have hint : 4 ≤ (⟨m, dest, src, n⟩ : Memcpy).longs.n →
        Clear 4 (⟨m, dest, src, n⟩ : Memcpy).longs := by
      intro h4 hin
      obtain ⟨hlongs, hle⟩ := hclear.longs
      have hwide : 4 ≤ firstWord n := by
        have hle : _ ≤ n := hle
        unfold firstWord
        split_ifs <;> omega
      exact hlongs ⟨hin.1, by omega⟩
    rw [chars_int hint, chars_longs fun h8 => by rwa [firstWord, if_pos h8] at hclear]
    rfl

/-- Sixteen bytes moved up by eight: the second word is the first one again. -/
example : bytes UInt8.ofNat 108 100 16 120 = 104 := by decide +kernel

end LittleLearning.Basic
