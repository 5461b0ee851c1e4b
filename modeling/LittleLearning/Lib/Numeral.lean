import LittleLearning.Lib.Cxx
import Mathlib.Data.List.Induction
import Mathlib.Data.List.TakeWhile

/-!
# What `stoi` accepts

`Numeral s z`: the text `s` starts, after white space, with a decimal numeral of
the `int` `z`. `stoi` returns exactly these numbers and throws on every other
text.
-/

namespace Cxx

/-- A sign and the factor it stands for. -/
inductive Sign : Bytes → Int → Prop where
  | none : Sign [] 1
  | plus : Sign [43] 1
  | minus : Sign [45] (-1)

/-- White space, a sign, digits up to something else; and the value fits an `int`. -/
structure NumeralParts (s spaces sign digits rest : Bytes) (factor z : Int) : Prop where
  split : s = spaces ++ (sign ++ (digits ++ rest))
  white : ∀ b ∈ spaces, isSpace b = true
  signed : Sign sign factor
  nonempty : digits ≠ []
  allDigits : ∀ b ∈ digits, isDigit b = true
  stops : ∀ b ∈ rest.head?, isDigit b = false
  value : z = factor * digitsValue digits
  lower : intMin ≤ z
  upper : z ≤ intMax

def Numeral (s : Bytes) (z : Int) : Prop :=
  ∃ spaces sign digits rest factor, NumeralParts s spaces sign digits rest factor z

theorem readSign_cases (s : Bytes) :
    ∃ sign factor, Sign sign factor ∧ s = sign ++ (readSign s).2 ∧
      ∀ n : Int, (if (readSign s).1 then -n else n) = factor * n := by
  cases s with
  | nil => exact ⟨[], 1, .none, rfl, fun n => (Int.one_mul n).symm⟩
  | cons b s =>
    by_cases h45 : b = 45
    · subst h45
      exact ⟨[45], -1, .minus, by simp [readSign], fun n => by simp [readSign]⟩
    by_cases h43 : b = 43
    · subst h43
      exact ⟨[43], 1, .plus, by simp [readSign], fun n => by simp [readSign]⟩
    · exact ⟨[], 1, .none, by simp [readSign, h45, h43], fun n => by simp [readSign, h45, h43]⟩

theorem digit_ne {b : UInt8} (h : isDigit b = true) : isSpace b = false ∧ b ≠ 45 ∧ b ≠ 43 := by
  simp only [isDigit, Bool.and_eq_true, decide_eq_true_eq, UInt8.le_iff_toNat_le] at h
  have h1 : 48 ≤ b.toNat := h.1
  simp only [isSpace, Bool.or_eq_false_iff, beq_eq_false_iff_ne, ne_eq, Bool.and_eq_false_iff,
    decide_eq_false_iff_not, UInt8.le_iff_toNat_le, ← UInt8.toNat_inj]
  simp only [UInt8.reduceToNat]
  omega

theorem readSign_sign {sign t : Bytes} {factor : Int} (h : Sign sign factor)
    (ht : ∀ b ∈ t.head?, isDigit b = true) (n : Int) :
    (readSign (sign ++ t)).2 = t ∧ (if (readSign (sign ++ t)).1 then -n else n) = factor * n := by
  cases h with
  | none =>
    cases t with
    | nil => simp [readSign]
    | cons b t =>
      obtain ⟨-, h45, h43⟩ := digit_ne (ht b (by simp))
      simp [readSign, h45, h43]
  | plus => simp [readSign]
  | minus => simp [readSign]

theorem stoi_eq_ok_iff {s : Bytes} {z : Int} : stoi s = .ok z ↔ Numeral s z := by
  unfold stoi
  constructor
  · obtain ⟨sign, factor, hsign, hsplit, hvalue⟩ := readSign_cases (s.dropWhile isSpace)
    generalize readSign (s.dropWhile isSpace) = r at hsplit hvalue
    obtain ⟨negative, t⟩ := r
    simp only at hsplit hvalue
    simp only [hvalue]
    intro h
    split at h
    · cases h
    · rename_i hne
      split at h
      · rename_i hrange
        obtain rfl := Except.ok.inj h
        refine ⟨s.takeWhile isSpace, sign, t.takeWhile isDigit, t.dropWhile isDigit, factor, ?_,
          fun b hb => List.mem_takeWhile_imp hb, hsign, hne, fun b hb => List.mem_takeWhile_imp hb,
          ?_, rfl, hrange.1, hrange.2⟩
        · rw [List.takeWhile_append_dropWhile, ← hsplit, List.takeWhile_append_dropWhile]
        · intro b hb
          have := List.head?_dropWhile_not isDigit t
          rw [Option.mem_def.1 hb] at this
          simpa using this
      · cases h
  · rintro ⟨spaces, sign, digits, rest, factor, h⟩
    obtain ⟨d, ds, hd⟩ := List.exists_cons_of_ne_nil h.nonempty
    have hdigit : isDigit d = true := h.allDigits d (by simp [hd])
    have hhead : ∀ b ∈ (digits ++ rest).head?, isDigit b = true := by
      intro b hb
      rw [hd] at hb
      obtain rfl : d = b := by simpa using hb
      exact hdigit
    -- white space ends at the sign, the digits at `rest`
    have hstart : s.dropWhile isSpace = sign ++ (digits ++ rest) := by
      rw [h.split, List.dropWhile_append_of_pos h.white, List.dropWhile_eq_self_iff]
      cases h.signed with
      | none => simp [hd, (digit_ne hdigit).1]
      | plus => simp; decide
      | minus => simp; decide
    obtain ⟨hrest, hvalue⟩ := readSign_sign h.signed hhead (digitsValue digits)
    have htake : (digits ++ rest).takeWhile isDigit = digits := by
      rw [List.takeWhile_append_of_pos h.allDigits]
      cases hr : rest with
      | nil => simp
      | cons b r => simp [h.stops b (by simp [hr])]
    rw [hstart]
    simp only [hrest, htake, if_neg h.nonempty, hvalue, ← h.value, h.lower, h.upper, and_self,
      if_true]

theorem stoi_bounds {s : Bytes} {z : Int} (h : stoi s = .ok z) : intMin ≤ z ∧ z ≤ intMax := by
  obtain ⟨_, _, _, _, _, h⟩ := stoi_eq_ok_iff.1 h
  exact ⟨h.lower, h.upper⟩

/-- A negative numeral has at least two bytes. -/
theorem numeral_singleton {b : UInt8} {z : Int} (h : Numeral [b] z) : 0 ≤ z := by
  obtain ⟨spaces, sign, digits, rest, factor, h⟩ := h
  have hlen := congrArg List.length h.split
  have hpos := List.length_pos_iff.2 h.nonempty
  simp only [List.length_append, List.length_singleton] at hlen
  have hz := h.value
  cases h.signed with
  | minus =>
    rw [List.length_singleton] at hlen
    omega
  | _ => omega

/-- The exceptions of `stoi` are its own. -/
theorem stoi_ne_substr (s : Bytes) : stoi s ≠ .error (.outOfRange .substr) := by
  unfold stoi
  simp only
  split
  · simp
  · split <;> split <;> simp

/-- A last byte that is no digit changes nothing. -/
theorem numeral_snoc {w : Bytes} {b : UInt8} {z : Int} (hb : isDigit b = false) :
    Numeral (w ++ [b]) z ↔ Numeral w z := by
  constructor
  · rintro ⟨spaces, sign, digits, rest, factor, h⟩
    rcases List.eq_nil_or_concat' rest with rfl | ⟨rest, x, rfl⟩
    · -- the byte would be the last digit
      obtain ⟨ds, d, hd⟩ := (List.eq_nil_or_concat' digits).resolve_left h.nonempty
      have hsplit := h.split
      rw [hd, List.append_nil, ← List.append_assoc, ← List.append_assoc] at hsplit
      obtain ⟨-, he⟩ := List.append_inj' hsplit rfl
      have := h.allDigits d (by simp [hd])
      rw [← (List.cons.inj he).1, hb] at this
      cases this
    · have hsplit := h.split
      rw [← List.append_assoc digits, ← List.append_assoc sign,
        ← List.append_assoc spaces] at hsplit
      obtain ⟨hw, -⟩ := List.append_inj' hsplit rfl
      refine ⟨spaces, sign, digits, rest, factor, hw, h.white, h.signed, h.nonempty,
        h.allDigits, ?_, h.value, h.lower, h.upper⟩
      intro c hc
      apply h.stops c
      cases rest with
      | nil => cases hc
      | cons => exact hc
  · rintro ⟨spaces, sign, digits, rest, factor, h⟩
    refine ⟨spaces, sign, digits, rest ++ [b], factor, ?_, h.white, h.signed, h.nonempty,
      h.allDigits, ?_, h.value, h.lower, h.upper⟩
    · rw [h.split]
      simp
    · intro c hc
      cases rest with
      | nil =>
        obtain rfl : b = c := by simpa using hc
        exact hb
      | cons x rest => exact h.stops c hc

theorem stoi_snoc {w : Bytes} {b : UInt8} {z : Int} (hb : isDigit b = false) :
    stoi (w ++ [b]) = .ok z ↔ stoi w = .ok z := by
  rw [stoi_eq_ok_iff, stoi_eq_ok_iff, numeral_snoc hb]

/-! ### Runs of digits -/

theorem digitsValue_lt {ds : Bytes} (h : ∀ b ∈ ds, isDigit b = true) :
    digitsValue ds < 10 ^ ds.length := by
  induction ds using List.reverseRecOn with
  | nil => exact Nat.one_pos
  | append_singleton ds b ih =>
    have hb := h b (by simp)
    simp only [isDigit, Bool.and_eq_true, decide_eq_true_eq, UInt8.le_iff_toNat_le] at hb
    have hle : b.toNat ≤ 57 := hb.2
    have hrest := ih fun x hx => h x (by simp [hx])
    rw [digitsValue, List.foldl_append, List.length_append, List.length_singleton, Nat.pow_succ]
    show 10 * digitsValue ds + (b.toNat - 48) < _
    omega

/-- Without its first digit a numeral is smaller. -/
theorem digitsValue_tail_lt {n : Nat} (h : 1 < (decimal n).length) :
    digitsValue (decimal n).tail < n := by
  have hdigits : ∀ b ∈ (decimal n).tail, isDigit b = true := fun b hb =>
    isDigit_decimal (List.mem_of_mem_tail hb)
  have hlt := digitsValue_lt hdigits
  have hlen : (decimal n).length = (Nat.toDigits 10 n).length := List.length_map _
  have hiff : (Nat.toDigits 10 n).length ≤ (decimal n).length - 1 ↔
      n < 10 ^ ((decimal n).length - 1) := Nat.length_toDigits_le_iff (by decide) (by omega)
  rw [List.length_tail] at hlt
  omega

theorem stoi_digits {ds r : Bytes} (hne : ds ≠ []) (hds : ∀ b ∈ ds, isDigit b = true)
    (hr : ∀ b ∈ r.head?, isDigit b = false) (hmax : (digitsValue ds : Int) ≤ intMax) :
    stoi (ds ++ r) = .ok (digitsValue ds : Int) := by
  refine stoi_eq_ok_iff.2 ⟨[], [], ds, r, 1, rfl, by simp, .none, hne, hds, hr, ?_, ?_, hmax⟩
  · rw [Int.one_mul]
  · unfold intMin
    omega

end Cxx
