import LittleLearning.Algorithm.StringMatcher
import Mathlib.Data.List.Sort

/-!
# All matches

`matchAll` runs the loop of `match` to the end of the text. After a full match
`matched` is the length of the pattern, where the table has no entry: the next
byte of the text is compared with the NUL behind the pattern, and if it differs
the fallback reads past the table.
-/

namespace LittleLearning.Algorithm

open Cxx Matching

namespace KmpMatcher

def matchAllFrom (kmp : KmpMatcher) : Bytes → Nat → Nat → List Int → Option (List Int)
  | [], _, _, ans => some ans
  | c :: text, i, matched, ans => do
    let matched ← kmp.advance c matched
    kmp.matchAllFrom text (i + 1) matched
      (if matched = kmp.pat.length then ans ++ [(i : Int) + 1 - matched] else ans)

/-- `matchAll(text)` -/
def matchAll (kmp : KmpMatcher) (text : Bytes) : Option (List Int) := kmp.matchAllFrom text 0 0 []

variable {kmp : KmpMatcher} {pat text : Bytes} {a k i : Nat} {ans : List Int}

/-! ### After a full match -/

/-- The byte after a full match: a NUL counts as matched, any other is looked up past the table. -/
theorem advance_full (hdfs : kmp.dfs.length = kmp.pat.length) (hne : kmp.pat ≠ []) (c : UInt8) :
    kmp.advance c kmp.pat.length = if c = 0 then some (kmp.pat.length + 1) else none := by
  have hpos : kmp.pat.length ≠ 0 := (List.length_pos_iff.2 hne).ne'
  have hnul : charAt kmp.pat kmp.pat.length = some 0 := if_pos rfl
  have hout : kmp.dfs[kmp.pat.length]? = none := by
    rw [List.getElem?_eq_none (Nat.le_of_eq hdfs)]
  by_cases hc : c = 0
  · simp [advance, fallBack, hpos, hnul, hc]
  · simp [advance, fallBack, hpos, hnul, hc, hout, Ne.symm hc]

/-- One byte further there is no byte of the pattern to compare with. -/
theorem advance_past (c : UInt8) : kmp.advance c (kmp.pat.length + 1) = none := by
  have hout : charAt kmp.pat (kmp.pat.length + 1) = none := by
    rw [charAt, if_neg (by omega), List.getElem?_eq_none (by omega)]
  simp [advance, fallBack, hout]

/-- After an occurrence only the end of the text, or a last NUL, is survived. -/
theorem matchAllFrom_full (hdfs : kmp.dfs.length = kmp.pat.length) (hne : kmp.pat ≠ [])
    {rest : Bytes} :
    kmp.matchAllFrom rest i kmp.pat.length ans =
      if rest = [] ∨ rest = [0] then some ans else none := by
  cases rest with
  | nil => rw [if_pos (.inl rfl), matchAllFrom]
  | cons c rest =>
    by_cases hc : c = 0
    · subst hc
      simp only [matchAllFrom, advance_full hdfs hne 0, if_true, bind, Option.bind]
      rw [if_neg (Nat.succ_ne_self _)]
      cases rest with
      | nil => rw [if_pos (.inr rfl), matchAllFrom]
      | cons c' rest => simp [matchAllFrom, advance_past]
    · simp [matchAllFrom, advance_full hdfs hne c, hc]

/-! ### What it returns -/

/-- The first attempt that finds the pattern is the last thing the matcher gets right. -/
theorem matchAllFrom_eq {read rest : Bytes} (htext : text = read ++ rest)
    (hi : read.length = i) (ha : a + k = i) (hk : k < pat.length)
    (h : Scanning pat text a k) :
    (∃ p : Nat, Attempt pat text p ∧ Occurs pat text p ∧
        (new pat).matchAllFrom rest i k [] =
          if text.drop (p + pat.length) = [] ∨ text.drop (p + pat.length) = [0] then
            some [(p : Int)]
          else none) ∨
      (∀ t, Attempt pat text t → ¬ Occurs pat text t) ∧
        (new pat).matchAllFrom rest i k [] = some [] := by
  have hne : pat ≠ [] := List.ne_nil_of_length_pos (by omega)
  induction rest generalizing read i a k with
  | nil =>
    refine .inr ⟨fun t hatt hocc => ?_, rfl⟩
    have hroom := hocc.lt_length hne
    rw [htext, List.append_nil, hi] at hroom
    rw [htext, List.append_nil] at hatt hocc h
    exact h.before t (by omega) hatt hocc
  | cons c rest ih =>
    have hc : text[a + k]? = some c := by
      rw [htext, List.getElem?_append_right (by omega), ha, hi, Nat.sub_self]
      rfl
    obtain ⟨b, l, hadv, hb, hl, hscan⟩ := h.advance hk hc
    simp only [matchAllFrom, hadv, bind, Option.bind]
    have htext' : text = (read ++ [c]) ++ rest := by rw [htext]; simp
    by_cases hfull : l = pat.length
    · rw [if_pos (show l = (new pat).pat.length from hfull)]
      subst hfull
      have hocc : Occurs pat text b := occurs_iff.2 hscan.agree
      have hrest : text.drop (b + pat.length) = rest := by
        rw [htext', List.drop_left' (by rw [List.length_append, hi, List.length_singleton]; omega)]
      have he : ((i : Int) + 1 - pat.length) = (b : Nat) := by omega
      refine .inl ⟨b, hscan.attempt, hocc, ?_⟩
      rw [hrest, he, List.nil_append]
      have hdfs : (new pat).dfs.length = (new pat).pat.length := List.length_replicate
      exact matchAllFrom_full hdfs hne
    · rw [if_neg (show ¬ l = (new pat).pat.length from hfull)]
      exact ih htext' (by simp [hi]) (by omega) (by omega) hscan

theorem matchAll_eq (hne : pat ≠ []) :
    (∃ p : Nat, Attempt pat text p ∧ Occurs pat text p ∧
        (new pat).matchAll text =
          if text.drop (p + pat.length) = [] ∨ text.drop (p + pat.length) = [0] then
            some [(p : Int)]
          else none) ∨
      (∀ t, Attempt pat text t → ¬ Occurs pat text t) ∧ (new pat).matchAll text = some [] :=
  matchAllFrom_eq (List.nil_append text).symm rfl rfl (List.length_pos_iff.2 hne)
    ⟨.start, fun j hj => absurd hj (Nat.not_lt_zero j), fun t ht => absurd ht (Nat.not_lt_zero t)⟩

/-- It is defined and returns all the places, in order. -/
def FindsAll (pat text : Bytes) : Prop :=
  (new pat).matchAll text = some ((occurrences pat text).map Nat.cast)

instance (pat text : Bytes) : Decidable (FindsAll pat text) :=
  inferInstanceAs (Decidable (_ = _))

/-- The pattern occurs nowhere, or only once, where the matcher begins an attempt, and at the end of
the text or before a last NUL. -/
def OnlyAtEnd (pat text : Bytes) : Prop :=
  (∀ i, ¬ Occurs pat text i) ∨
    ∃ p, Occurs pat text p ∧ (∀ i, Occurs pat text i → i = p) ∧ Attempt pat text p ∧
      (text.drop (p + pat.length) = [] ∨ text.drop (p + pat.length) = [0])

/-- All occurrences are found, without a read out of range, exactly in the texts that end with the
only one. -/
theorem matchAll_iff (hne : pat ≠ []) : FindsAll pat text ↔ OnlyAtEnd pat text := by
  have hmem : ∀ {i}, i ∈ occurrences pat text ↔ Occurs pat text i := mem_occurrences hne
  constructor
  · intro h
    rcases @matchAll_eq pat text hne with ⟨p, hatt, hocc, heq⟩ | ⟨-, heq⟩
    · rw [h] at heq
      split at heq
      · rename_i hend
        have hone : occurrences pat text = [p] :=
          List.map_injective_iff.2 Nat.cast_injective (Option.some.inj heq)
        refine .inr ⟨p, hocc, fun i hi => ?_, hatt, hend⟩
        rw [← hmem, hone, List.mem_singleton] at hi
        exact hi
      · cases heq
    · rw [h, Option.some.injEq, List.map_eq_nil_iff] at heq
      exact .inl ((occurrences_eq_nil hne).1 heq)
  · rintro (hnone | ⟨p, hocc, honly, hatt, hend⟩)
    · rw [FindsAll, (occurrences_eq_nil hne).2 hnone]
      rcases @matchAll_eq pat text hne with ⟨p, -, hocc, -⟩ | ⟨-, heq⟩
      · exact absurd hocc (hnone p)
      · exact heq
    · have hone : occurrences pat text = [p] := by
        refine (occurrences_increasing pat text).eq_of_mem_iff (List.pairwise_singleton _ p) ?_
        intro i
        rw [hmem, List.mem_singleton]
        exact ⟨honly i, fun hi => hi ▸ hocc⟩
      rw [FindsAll, hone]
      rcases @matchAll_eq pat text hne with ⟨q, -, hq, heq⟩ | ⟨hno, -⟩
      · obtain rfl := honly q hq
        rw [heq, if_pos hend]
        rfl
      · exact absurd hocc (hno p hatt)

theorem matchAll_ab : OnlyAtEnd (ascii "ab") (ascii "xxab") :=
  (matchAll_iff (by decide)).1 (show FindsAll (ascii "ab") (ascii "xxab") by decide +kernel)

/-- The byte after the first match is looked up past the table. -/
theorem not_matchAll : ¬ ∀ pat text : Bytes, pat ≠ [] → FindsAll pat text := by
  intro h
  exact absurd (h (ascii "a") (ascii "aa") (by decide)) (by decide +kernel)

end KmpMatcher

end LittleLearning.Algorithm
