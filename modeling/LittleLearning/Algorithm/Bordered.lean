import LittleLearning.Algorithm.MatchAll

/-!
# The matcher with a table of borders

What the loops of `KmpMatcher` do once `dfs[k]` is the longest border of the first
`k` bytes of the pattern. The matcher is then at the first place that is not
passed (`Progress`), so `match` is the naive matcher; `matchAll` still stops
being defined at the byte after an occurrence.
-/

namespace LittleLearning.Algorithm

open Cxx Matching

namespace KmpMatcher

/-- The table has an entry for every byte of the pattern, the longest border of what comes before
it. The entry 0 is not used. -/
structure Bordered (kmp : KmpMatcher) : Prop where
  length : kmp.dfs.length = kmp.pat.length
  longest : ∀ k, 0 < k → k < kmp.pat.length → ∃ b, kmp.dfs[k]? = some b ∧ LongestBorder kmp.pat k b

variable {kmp : KmpMatcher} {pat text : Bytes} {a k i : Nat} {c : UInt8}

/-- The fallback ends at the first place that may go on with the byte `c`, or with nothing
matched. -/
theorem Bordered.fallBack (hb : Bordered kmp) {fuel : Nat} (hfuel : k < fuel)
    (hk : k < kmp.pat.length) (hc : text[i]? = some c) (hi : a + k = i)
    (hat : Agree kmp.pat text a k) (hpassed : Passed kmp.pat text (i + 1) a) :
    ∃ b l, kmp.fallBack c fuel k = some l ∧ b + l = i ∧ l < kmp.pat.length ∧
      Agree kmp.pat text b l ∧ Passed kmp.pat text (i + 1) b ∧ (l = 0 ∨ kmp.pat[l]? = some c) := by
  induction fuel generalizing a k with
  | zero => omega
  | succ fuel ih =>
    rw [KmpMatcher.fallBack]
    by_cases h0 : k = 0
    · rw [if_pos h0]
      exact ⟨a, k, rfl, hi, hk, hat, hpassed, .inl h0⟩
    · rw [if_neg h0]
      have hchar : charAt kmp.pat k = some kmp.pat[k] := by
        rw [charAt_eq hk, List.getElem?_eq_getElem]
      by_cases hmatch : kmp.pat[k] = c
      · refine ⟨a, k, by simp [hchar, hmatch], hi, hk, hat, hpassed, .inr ?_⟩
        rw [List.getElem?_eq_getElem hk, hmatch]
      · obtain ⟨b, hdfs, hlongest⟩ := hb.longest k (Nat.pos_of_ne_zero h0) hk
        have hdiff : text[a + k]? ≠ kmp.pat[k]? := by
          rw [hi, hc, List.getElem?_eq_getElem hk]
          exact fun he => hmatch (Option.some.inj he).symm
        have hlt := hlongest.lt
        subst hi
        obtain ⟨b', l, hfall, hrest⟩ := ih (a := a + (k - b)) (k := b) (by omega) (by omega)
          (by omega) (hat.of_border hlt.le hlongest.border) (hpassed.fall hat hk hdiff hlongest)
        exact ⟨b', l, by simp [hchar, hmatch, hdfs, hfall], hrest⟩

/-- The matcher has read `i` bytes, `k` of them the beginning of the pattern, and every place before
is passed. -/
structure Progress (pat text : Bytes) (i k : Nat) : Prop where
  le : k ≤ i
  agree : Agree pat text (i - k) k
  passed : Passed pat text i (i - k)

theorem Bordered.advance (hb : Bordered kmp) (h : Progress kmp.pat text i k)
    (hk : k < kmp.pat.length) (hc : text[i]? = some c) :
    ∃ l, kmp.advance c k = some l ∧ l ≤ kmp.pat.length ∧ Progress kmp.pat text (i + 1) l := by
  have hle := h.le
  obtain ⟨b, l, hfall, hl, hlt, hat, hpassed, hend⟩ := hb.fallBack (Nat.lt_succ_self k) hk hc
    (Nat.sub_add_cancel hle) h.agree (h.passed.mono (Nat.le_succ i))
  have hchar : charAt kmp.pat l = some kmp.pat[l] := by
    rw [charAt_eq hlt, List.getElem?_eq_getElem]
  by_cases hmatch : kmp.pat[l] = c
  · refine ⟨l + 1, by simp [KmpMatcher.advance, hfall, hchar, hmatch], hlt, by omega, ?_, ?_⟩
    · rw [show i + 1 - (l + 1) = b by omega]
      exact hat.snoc (by rw [hl, hc, List.getElem?_eq_getElem hlt, hmatch])
    · rw [show i + 1 - (l + 1) = b by omega]
      exact hpassed
  · have hne : kmp.pat[l]? ≠ some c := by
      rw [List.getElem?_eq_getElem hlt]
      exact fun he => hmatch (Option.some.inj he)
    obtain rfl : l = 0 := hend.resolve_right hne
    obtain rfl : b = i := hl
    refine ⟨0, by simp [KmpMatcher.advance, hfall, hchar, hmatch], Nat.zero_le _, Nat.zero_le _,
      fun j hj => absurd hj (Nat.not_lt_zero j), ?_⟩
    exact hpassed.skip hlt (by rw [hc]; exact fun he => hne he.symm)

theorem progress_start (pat text : Bytes) : Progress pat text 0 0 :=
  ⟨Nat.le_refl 0, fun j hj => absurd hj (Nat.not_lt_zero j),
    fun t ht => absurd ht (Nat.not_lt_zero t)⟩

/-- With the whole pattern matched the matcher is at its first occurrence. -/
theorem Progress.first (h : Progress pat text i pat.length) : First pat text (i - pat.length) :=
  ⟨occurs_iff.2 h.agree, fun _ ht => h.passed.not_occurs ht⟩

theorem Progress.not_occurs (h : Progress pat text text.length k) (hk : k < pat.length) (t : Nat) :
    ¬ Occurs pat text t := by
  intro hocc
  have hroom := hocc.lt_length (List.ne_nil_of_length_pos (by omega))
  exact h.passed.not_occurs (by omega) hocc

/-! ### The first match -/

theorem Bordered.matchFrom (hb : Bordered kmp) {read rest : Bytes} (htext : text = read ++ rest)
    (hi : read.length = i) (hk : k < kmp.pat.length)
    (h : Progress kmp.pat text i k) :
    ∃ r, kmp.matchFrom rest i k = some r ∧ LeastIndex kmp.pat text r := by
  induction rest generalizing read i k with
  | nil =>
    have hend : text.length = i := by rw [htext, List.append_nil, hi]
    rw [← hend] at h
    exact ⟨-1, rfl, .inr ⟨rfl, h.not_occurs hk⟩⟩
  | cons c rest ih =>
    have hc : text[i]? = some c := by
      rw [htext, List.getElem?_append_right (by omega), hi, Nat.sub_self]
      rfl
    obtain ⟨l, hadv, hl, hnext⟩ := hb.advance h hk hc
    simp only [KmpMatcher.matchFrom, hadv, bind, Option.bind, pure]
    by_cases hfull : l = kmp.pat.length
    · subst hfull
      have hle := hnext.le
      rw [if_pos rfl]
      exact ⟨_, rfl, .inl ⟨i + 1 - kmp.pat.length, by omega, hnext.first⟩⟩
    · rw [if_neg hfull]
      have htext' : text = (read ++ [c]) ++ rest := by rw [htext]; simp
      exact ih htext' (by simp [hi]) (by omega) hnext

/-- With a table of borders `match` returns the least index in every text, and the naive matcher
returns the same. -/
theorem bordered_match (hb : Bordered kmp) (hne : kmp.pat ≠ []) (text : Bytes) :
    ∃ r, kmp.matchText text = some r ∧ LeastIndex kmp.pat text r ∧
      usiMatch text kmp.pat = some r := by
  obtain ⟨r, hr, hleast⟩ := hb.matchFrom (List.nil_append text).symm rfl
    (List.length_pos_iff.2 hne) (progress_start kmp.pat text)
  exact ⟨r, hr, hleast, (usiMatch_eq_some_iff hne).2 hleast⟩

/-- The pattern `aab`, which the matcher passes over in `aaab` with the table it has. -/
def aab : KmpMatcher := ⟨[0, 0, 1], ascii "aab"⟩

theorem aab_bordered : Bordered aab where
  length := rfl
  longest k h0 hk := by
    obtain rfl | rfl : k = 1 ∨ k = 2 := by
      have : k < 3 := hk
      omega
    · exact ⟨0, rfl, by decide, by decide, by decide⟩
    · exact ⟨1, rfl, by decide, by decide, by decide⟩

theorem bordered_match_aab : ∃ r, aab.matchText (ascii "aaab") = some r ∧
    LeastIndex (ascii "aab") (ascii "aaab") r ∧
      usiMatch (ascii "aaab") (ascii "aab") = some r :=
  bordered_match aab_bordered (by decide) (ascii "aaab")

/-! ### All matches -/

theorem Bordered.matchAllFrom (hb : Bordered kmp) {read rest : Bytes} (htext : text = read ++ rest)
    (hi : read.length = i) (hk : k < kmp.pat.length)
    (h : Progress kmp.pat text i k) :
    (∃ p : Nat, First kmp.pat text p ∧ kmp.matchAllFrom rest i k [] =
        if text.drop (p + kmp.pat.length) = [] ∨ text.drop (p + kmp.pat.length) = [0] then
          some [(p : Int)]
        else none) ∨
      (∀ t, ¬ Occurs kmp.pat text t) ∧ kmp.matchAllFrom rest i k [] = some [] := by
  induction rest generalizing read i k with
  | nil =>
    have hend : text.length = i := by rw [htext, List.append_nil, hi]
    rw [← hend] at h
    exact .inr ⟨h.not_occurs hk, rfl⟩
  | cons c rest ih =>
    have hc : text[i]? = some c := by
      rw [htext, List.getElem?_append_right (by omega), hi, Nat.sub_self]
      rfl
    obtain ⟨l, hadv, hl, hnext⟩ := hb.advance h hk hc
    simp only [KmpMatcher.matchAllFrom, hadv, bind, Option.bind]
    have htext' : text = (read ++ [c]) ++ rest := by rw [htext]; simp
    by_cases hfull : l = kmp.pat.length
    · subst hfull
      have hle := hnext.le
      have hrest : text.drop (i + 1 - kmp.pat.length + kmp.pat.length) = rest := by
        rw [Nat.sub_add_cancel hle, htext', List.drop_left' (by simp [hi])]
      refine .inl ⟨i + 1 - kmp.pat.length, hnext.first, ?_⟩
      have hplace : (i : Int) + 1 - kmp.pat.length = (i + 1 - kmp.pat.length : Nat) := by omega
      rw [if_pos rfl, hrest, List.nil_append, hplace]
      exact matchAllFrom_full hb.length (List.ne_nil_of_length_pos (by omega))
    · rw [if_neg hfull]
      exact ih htext' (by simp [hi]) (by omega) hnext

/-- The pattern occurs nowhere, or only once and at the end of the text or before a last NUL. -/
def OnceAtEnd (pat text : Bytes) : Prop :=
  (∀ i, ¬ Occurs pat text i) ∨
    ∃ p, Occurs pat text p ∧ (∀ i, Occurs pat text i → i = p) ∧
      (text.drop (p + pat.length) = [] ∨ text.drop (p + pat.length) = [0])

/-- With a table of borders `matchAll` no longer passes an occurrence over, but it still finds all
of them only where none is followed by anything. -/
theorem bordered_matchAll_iff (hb : Bordered kmp) (hne : kmp.pat ≠ []) :
    kmp.matchAll text = some ((occurrences kmp.pat text).map Nat.cast) ↔
      OnceAtEnd kmp.pat text := by
  have hmem : ∀ {i}, i ∈ occurrences kmp.pat text ↔ Occurs kmp.pat text i := mem_occurrences hne
  have hall := hb.matchAllFrom (List.nil_append text).symm List.length_nil
    (List.length_pos_iff.2 hne) (progress_start kmp.pat text)
  constructor
  · intro h
    rcases hall with ⟨p, hp, heq⟩ | ⟨hno, -⟩
    · rw [show kmp.matchAllFrom text 0 0 [] = _ from h] at heq
      split at heq
      · rename_i hend
        have hone : occurrences kmp.pat text = [p] :=
          List.map_injective_iff.2 Nat.cast_injective (Option.some.inj heq)
        refine .inr ⟨p, hp.1, fun i hi => ?_, hend⟩
        rw [← hmem, hone, List.mem_singleton] at hi
        exact hi
      · cases heq
    · exact .inl hno
  · rintro (hno | ⟨p, hocc, honly, hend⟩)
    · rw [(occurrences_eq_nil hne).2 hno]
      rcases hall with ⟨p, hp, -⟩ | ⟨-, heq⟩
      · exact absurd hp.1 (hno p)
      · exact heq
    · have hone : occurrences kmp.pat text = [p] := by
        refine (occurrences_increasing kmp.pat text).eq_of_mem_iff (List.pairwise_singleton _ p) ?_
        intro i
        rw [hmem, List.mem_singleton]
        exact ⟨honly i, fun hi => hi ▸ hocc⟩
      rcases hall with ⟨q, hq, heq⟩ | ⟨hno, -⟩
      · obtain rfl := honly q hq.1
        rw [hone]
        rw [if_pos hend] at heq
        exact heq
      · exact absurd hocc (hno p)

theorem bordered_matchAll_aab : ¬ OnceAtEnd (ascii "aab") (ascii "aaabb") := fun h =>
  absurd ((bordered_matchAll_iff aab_bordered (by decide)).2 h) (by decide +kernel)

end KmpMatcher

end LittleLearning.Algorithm
