import Mathlib.Algebra.Ring.Nat
import Mathlib.Data.Nat.Bits

/-!
# Byte memories

A memory takes every address to a byte. A word of `w` bytes is stored little end
first, at any address. `Copied` describes a forward copy under way: while the
destination does not start above the source, or lies wholly above it, the bytes
that are still to be read are the old ones, so that a word of any width goes on
with it (`Copied.move`).
-/

abbrev Memory := Nat → UInt8

namespace Memory

/-- The value of the `w` bytes at `a`. -/
def value (m : Memory) (a : Nat) : Nat → Nat
  | 0 => 0
  | w + 1 => (m a).toNat + 256 * m.value (a + 1) w

def load (w : Nat) (m : Memory) (a : Nat) : BitVec (8 * w) := BitVec.ofNat _ (m.value a w)

def store {w : Nat} (m : Memory) (a : Nat) (v : BitVec (8 * w)) : Memory := fun x =>
  if a ≤ x ∧ x < a + w then UInt8.ofNat (v.toNat / 256 ^ (x - a)) else m x

variable {m m' : Memory} {a b x w : Nat}

theorem value_lt (m : Memory) (a w : Nat) : m.value a w < 256 ^ w := by
  induction w generalizing a with
  | zero => exact Nat.one_pos
  | succ w ih =>
    have hrest := ih (a + 1)
    have hbyte := (m a).toNat_lt
    rw [value, Nat.pow_succ]
    omega

/-- The bytes of a word are those it was read from. -/
theorem value_byte {i : Nat} (h : i < w) : m.value a w / 256 ^ i % 256 = (m (a + i)).toNat := by
  induction w generalizing a i with
  | zero => cases h
  | succ w ih =>
    have hbyte := (m a).toNat_lt
    rw [value]
    cases i with
    | zero =>
      rw [Nat.pow_zero, Nat.div_one, Nat.add_zero a]
      omega
    | succ i =>
      have hdiv : ((m a).toNat + 256 * m.value (a + 1) w) / 256 = m.value (a + 1) w := by omega
      rw [Nat.pow_succ', ← Nat.div_div_eq_div_mul, hdiv, ih (by omega)]
      congr 2
      omega

theorem load_toNat : (load w m a).toNat = m.value a w := by
  rw [load, BitVec.toNat_ofNat, Nat.pow_mul]
  exact Nat.mod_eq_of_lt (m.value_lt a w)

theorem store_load : (m.store a (load w m' b)) x =
    if a ≤ x ∧ x < a + w then m' (b + (x - a)) else m x := by
  rw [store, load_toNat]
  split
  · apply UInt8.toNat.inj
    rw [UInt8.toNat_ofNat']
    exact value_byte (by omega)
  · rfl

/-! ### Forward copies -/

/-- Of the bytes at `src` in `m₀` the first `k` have been copied to `dest`. -/
def Copied (m₀ : Memory) (dest src k : Nat) (m : Memory) : Prop :=
  ∀ x, m x = if dest ≤ x ∧ x < dest + k then m₀ (src + (x - dest)) else m₀ x

variable {m₀ : Memory} {dest src k n : Nat}

theorem Copied.start : Copied m₀ dest src 0 m₀ := by
  intro x
  rw [if_neg (by omega)]

/-- What is still to be read has not been written. -/
theorem Copied.unread (h : Copied m₀ dest src k m) (hlegal : dest ≤ src ∨ src + n ≤ dest)
    {i : Nat} (hk : k ≤ i) (hi : i < n) : m (src + i) = m₀ (src + i) := by
  rw [h, if_neg (by omega)]

/-- The next word. -/
theorem Copied.move (h : Copied m₀ dest src k m) (hlegal : dest ≤ src ∨ src + n ≤ dest)
    (hw : k + w ≤ n) :
    Copied m₀ dest src (k + w) (m.store (dest + k) (load w m (src + k))) := by
  intro x
  rw [store_load]
  by_cases hx : dest + k ≤ x ∧ x < dest + k + w
  · have hread : src + k + (x - (dest + k)) = src + (x - dest) := by omega
    rw [if_pos hx, if_pos (by omega), hread, h.unread hlegal (by omega) (by omega)]
  · rw [if_neg hx, h]
    refine ite_congr (propext ?_) (fun _ => rfl) fun _ => rfl
    omega

end Memory
