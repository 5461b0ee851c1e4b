import Mathlib.Algebra.Ring.Int.Defs
import Mathlib.Algebra.Ring.Nat
import Mathlib.Data.List.Basic
import Mathlib.Data.List.TakeDrop

/-!
# C++ integers and byte strings

`int` is 32-bit two's complement (`int32` reduces the exact result of an
operation), `size_t` has 64 bits (`sizeT` converts an `int` to it). A
`std::string` is a list of bytes; `find`, `substr` and `stoi` are the library
functions of those names, with the exceptions they throw. `decimal` is the
shortest decimal numeral, the inverse of `stoi`.
-/

namespace Cxx

abbrev Bytes := List UInt8

/-- The bytes of an ASCII literal. -/
def ascii (s : String) : Bytes := s.toList.map Char.toUInt8

/-- The library functions that throw. -/
inductive Thrower where
  | stoi
  | substr
  deriving DecidableEq, Repr

/-- What the library functions throw. -/
inductive StdException where
  | invalidArgument
  | outOfRange (thrower : Thrower)
  deriving DecidableEq, Repr

theorem bind_eq_ok {ε α β : Type} {x : Except ε α} {f : α → Except ε β} {b : β} :
    x >>= f = .ok b ↔ ∃ a, x = .ok a ∧ f a = .ok b := by
  cases x <;> simp [bind, Except.bind]

theorem pure_eq_ok {ε α : Type} {a : α} : (pure a : Except ε α) = .ok a := rfl

/-! ### Integers -/

def intMin : Int := -2 ^ 31

def intMax : Int := 2 ^ 31 - 1

/-- The `int` an exact result is stored as. -/
def int32 (z : Int) : Int := z.bmod (2 ^ 32)

/-- Conversion to `size_t`: a negative number becomes huge. -/
def sizeT (z : Int) : Nat := (z % 2 ^ 64).toNat

theorem int32_eq {z : Int} (h1 : intMin ≤ z) (h2 : z ≤ intMax) : int32 z = z := by
  simp only [intMin, intMax] at h1 h2
  exact Int.bmod_eq_of_le (by omega) (by omega)

theorem int32_natCast {n : Nat} (h : n < 2 ^ 31) : int32 (n : Int) = n :=
  int32_eq (by simp only [intMin]; omega) (by simp only [intMax]; omega)

theorem int32_bounds (z : Int) : intMin ≤ int32 z ∧ int32 z ≤ intMax := by
  rw [int32, Int.bmod_eq_emod, intMin, intMax]
  split <;> omega

theorem sizeT_natCast {n : Nat} (h : n < 2 ^ 64) : sizeT (n : Int) = n := by
  unfold sizeT
  omega

@[simp] theorem sizeT_zero : sizeT 0 = 0 := rfl

/-- `++i` of an `int` that is not negative; overflow is undefined. -/
def incr (i : Nat) : Option Nat := if i + 1 < 2 ^ 31 then some (i + 1) else none

theorem incr_eq {i : Nat} (h : i + 1 < 2 ^ 31) : incr i = some (i + 1) := if_pos h

/-! ### Searching and cutting -/

/-- `s[i]`: a NUL at the end, beyond it undefined. -/
def charAt (s : Bytes) (i : Nat) : Option UInt8 := if i = s.length then some 0 else s[i]?

theorem charAt_eq {s : Bytes} {i : Nat} (h : i < s.length) : charAt s i = s[i]? :=
  if_neg (Nat.ne_of_lt h)

/-- `s.find(c, start)`, `none` for `npos`. -/
def find (s : Bytes) (c : UInt8) (start : Nat) : Option Nat :=
  ((s.drop start).findIdx? (· == c)).map (· + start)

/-- `s.substr(pos, n)`. -/
def substr (s : Bytes) (pos n : Nat) : Except StdException Bytes :=
  if pos ≤ s.length then .ok ((s.drop pos).take n) else .error (.outOfRange .substr)

theorem find_append {p t : Bytes} {c : UInt8} :
    find (p ++ t) c p.length = (t.findIdx? (· == c)).map (· + p.length) := by
  simp [find]

theorem find_of_notMem {p t : Bytes} {c : UInt8} (h : c ∉ t) : find (p ++ t) c p.length = none := by
  have : t.findIdx? (· == c) = none :=
    List.findIdx?_eq_none_iff.2 fun x hx => by
      simpa using fun e : x = c => h (e ▸ hx)
  rw [find_append, this]
  rfl

theorem find_first {p w r : Bytes} {c : UInt8} (h : c ∉ w) :
    find (p ++ (w ++ c :: r)) c p.length = some (p.length + w.length) := by
  have : (w ++ c :: r).findIdx? (· == c) = some w.length := by
    rw [List.findIdx?_append, List.findIdx?_eq_none_iff.2 fun x hx => by
      simpa using fun e : x = c => h (e ▸ hx)]
    simp [List.findIdx?_cons]
  rw [find_append, this]
  simp [Nat.add_comm]

/-- `p` is the first position from `start` on at which `s` has `c`. -/
def FirstAt (s : Bytes) (c : UInt8) (start p : Nat) : Prop :=
  start ≤ p ∧ s[p]? = some c ∧ ∀ i, start ≤ i → i < p → s[i]? ≠ some c

theorem find_eq_some {s : Bytes} {c : UInt8} {start p : Nat} :
    find s c start = some p ↔ FirstAt s c start p := by
  simp only [find, Option.map_eq_some_iff, List.findIdx?_eq_some_iff_getElem, beq_iff_eq,
    List.getElem_drop]
  constructor
  · rintro ⟨k, ⟨hk, hc, hbefore⟩, rfl⟩
    rw [List.length_drop] at hk
    refine ⟨by omega, ?_, fun i h1 h2 hi => ?_⟩
    · rw [List.getElem?_eq_getElem (by omega), ← hc]
      simp only [Nat.add_comm]
    · obtain ⟨j, rfl⟩ := Nat.exists_eq_add_of_le h1
      exact hbefore j (by omega) (List.getElem?_eq_some_iff.1 hi).2
  · rintro ⟨hle, hp, hbefore⟩
    obtain ⟨k, rfl⟩ := Nat.exists_eq_add_of_le hle
    obtain ⟨hlt, hp⟩ := List.getElem?_eq_some_iff.1 hp
    refine ⟨k, ⟨by rw [List.length_drop]; omega, hp, fun j hj hc => ?_⟩, Nat.add_comm _ _⟩
    exact hbefore (start + j) (by omega) (by omega) (List.getElem?_eq_some_iff.2 ⟨by omega, hc⟩)

theorem FirstAt.lt_length {s : Bytes} {c : UInt8} {start p : Nat} (h : FirstAt s c start p) :
    p < s.length := (List.getElem?_eq_some_iff.1 h.2.1).1

/-- What is between the start and the first `c`, and what is behind it. -/
theorem FirstAt.split {s : Bytes} {c : UInt8} {start p : Nat} (h : FirstAt s c start p) :
    ∃ w r, s.drop start = w ++ c :: r ∧ c ∉ w ∧ p = start + w.length := by
  obtain ⟨hle, hc, hbefore⟩ := h
  obtain ⟨hlt, hc⟩ := List.getElem?_eq_some_iff.1 hc
  refine ⟨(s.drop start).take (p - start), s.drop (p + 1), ?_, fun hmem => ?_, ?_⟩
  · conv_lhs => rw [← List.take_append_drop (p - start) (s.drop start), List.drop_drop,
      Nat.add_sub_cancel' hle, List.drop_eq_getElem_cons hlt, hc]
  · obtain ⟨i, hi⟩ := List.mem_iff_getElem?.1 hmem
    have hip : i < p - start := by
      have := (List.getElem?_eq_some_iff.1 hi).1
      rw [List.length_take] at this
      omega
    rw [List.getElem?_take_of_lt hip, List.getElem?_drop] at hi
    exact hbefore _ (Nat.le_add_right _ _) (by omega) hi
  · rw [List.length_take, List.length_drop]
    omega

theorem substr_append {p w r : Bytes} : substr (p ++ (w ++ r)) p.length w.length = .ok w := by
  simp [substr]

/-! ### Numerals -/

/-- White space of `strtol` in the C locale. -/
def isSpace (b : UInt8) : Bool := b == 32 || (9 ≤ b && b ≤ 13)

def isDigit (b : UInt8) : Bool := 48 ≤ b && b ≤ 57

/-- The value of a run of digits. -/
def digitsValue (ds : Bytes) : Nat := ds.foldl (fun v b => 10 * v + (b.toNat - 48)) 0

/-- `strtol` after white space: an optional sign. -/
def readSign : Bytes → Bool × Bytes
  | [] => (false, [])
  | b :: s => if b = 45 then (true, s) else if b = 43 then (false, s) else (false, b :: s)

/-- `std::stoi(s)` in base ten: leading white space, a sign, digits; what follows is ignored. -/
def stoi (s : Bytes) : Except StdException Int :=
  let (negative, s) := readSign (s.dropWhile isSpace)
  let ds := s.takeWhile isDigit
  if ds = [] then .error .invalidArgument
  else
    let v : Int := if negative then -(digitsValue ds) else digitsValue ds
    if intMin ≤ v ∧ v ≤ intMax then .ok v else .error (.outOfRange .stoi)

/-- The decimal numeral of `n`. -/
def decimal (n : Nat) : Bytes := (Nat.toDigits 10 n).map Char.toUInt8

theorem toNat_toUInt8 {c : Char} (h : c.isDigit = true) : c.toUInt8.toNat = c.toNat := by
  simp only [Char.isDigit, Bool.and_eq_true, decide_eq_true_eq, ge_iff_le,
    UInt32.le_iff_toNat_le] at h
  have h2 : c.val.toNat ≤ 57 := h.2
  show c.val.toNat % 256 = c.val.toNat
  omega

theorem isDigit_decimal {n : Nat} {b : UInt8} (h : b ∈ decimal n) : isDigit b = true := by
  obtain ⟨c, hc, rfl⟩ := List.mem_map.1 h
  have hd := Nat.isDigit_of_mem_toDigits (b := 10) (by decide) (by decide) hc
  have e := toNat_toUInt8 hd
  simp only [Char.isDigit, Bool.and_eq_true, decide_eq_true_eq, ge_iff_le,
    UInt32.le_iff_toNat_le] at hd
  simp only [isDigit, Bool.and_eq_true, decide_eq_true_eq, UInt8.le_iff_toNat_le]
  have h1 : 48 ≤ c.toNat := hd.1
  have h2 : c.toNat ≤ 57 := hd.2
  rw [e]
  exact ⟨h1, h2⟩

theorem decimal_ne_nil (n : Nat) : decimal n ≠ [] := by
  simp [decimal]

theorem digitsValue_decimal (n : Nat) : digitsValue (decimal n) = n := by
  have key : ∀ (l : List Char) (v : Nat), (∀ c ∈ l, c.isDigit = true) →
      (l.map Char.toUInt8).foldl (fun v b => 10 * v + (b.toNat - 48)) v =
        Nat.ofDigitChars 10 l v := by
    intro l
    induction l with
    | nil => exact fun _ _ => rfl
    | cons c l ih =>
      intro v h
      rw [List.map_cons, List.foldl_cons, Nat.ofDigitChars_cons, toNat_toUInt8 (h c (by simp)),
        ih _ fun d hd => h d (by simp [hd])]
      rfl
  rw [digitsValue, decimal, key _ _ fun c hc =>
    Nat.isDigit_of_mem_toDigits (by decide) (by decide) hc, Nat.ofDigitChars_ten_toDigits]

/-- `stoi` reads a numeral back, whatever non-digit follows it. -/
theorem stoi_decimal {n : Nat} {r : Bytes} (hn : (n : Int) ≤ intMax)
    (hr : ∀ b ∈ r.head?, isDigit b = false) : stoi (decimal n ++ r) = .ok (n : Int) := by
  have htake : (decimal n ++ r).takeWhile isDigit = decimal n := by
    rw [List.takeWhile_append_of_pos fun b hb => isDigit_decimal hb]
    cases r with
    | nil => simp
    | cons b r => simp [hr b (by simp)]
  have hstart : readSign ((decimal n ++ r).dropWhile isSpace) = (false, decimal n ++ r) := by
    obtain ⟨b, w, hw⟩ := List.exists_cons_of_ne_nil (decimal_ne_nil n)
    have hb : isDigit b = true := isDigit_decimal (n := n) (by simp [hw])
    simp only [isDigit, Bool.and_eq_true, decide_eq_true_eq, UInt8.le_iff_toNat_le] at hb
    have h1 : 48 ≤ b.toNat := hb.1
    have hs : isSpace b = false := by
      simp only [isSpace, Bool.or_eq_false_iff, beq_eq_false_iff_ne, ne_eq, Bool.and_eq_false_iff,
        decide_eq_false_iff_not, UInt8.le_iff_toNat_le, ← UInt8.toNat_inj]
      simp only [UInt8.reduceToNat]
      omega
    have h45 : b ≠ 45 := by
      rintro rfl
      simp at h1
    have h43 : b ≠ 43 := by
      rintro rfl
      simp at h1
    simp [hw, hs, readSign, h45, h43]
  unfold stoi
  rw [hstart]
  have hlo : intMin ≤ (n : Int) := by simp only [intMin]; omega
  simp only [htake, decimal_ne_nil, digitsValue_decimal, hlo, hn, and_self, if_true, if_false,
    Bool.false_eq_true]

end Cxx
