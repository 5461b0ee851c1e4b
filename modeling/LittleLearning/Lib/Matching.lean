import Mathlib.Data.List.Basic
import Mathlib.Data.List.Infix
import Mathlib.Data.List.TakeDrop
import Mathlib.Data.Nat.Find

/-!
# Occurrences and attempts

`Occurs pat text i`: the pattern stands in the text at `i`. `Attempt` are the
places a matcher tries that never goes back in the text and remembers nothing of
a failed attempt: the next one begins at the element the last one failed at. Such
a matcher passes an occurrence over exactly where an attempt fails inside it, and
there are texts where it does exactly if some border of a proper prefix of the
pattern cannot be extended like that prefix (`Extensible`).
-/

namespace Matching

variable {α : Type*} {pat text : List α} {a k p b : Nat}

def Occurs (pat text : List α) (i : Nat) : Prop := pat <+: text.drop i

/-- The least index at which the pattern occurs. -/
def First (pat text : List α) (i : Nat) : Prop :=
  Occurs pat text i ∧ ∀ j < i, ¬ Occurs pat text j

instance [DecidableEq α] (pat text : List α) : DecidablePred (Occurs pat text) :=
  fun i => inferInstanceAs (Decidable (pat <+: text.drop i))

instance [DecidableEq α] (pat text : List α) : DecidablePred (First pat text) :=
  fun i => inferInstanceAs (Decidable (Occurs pat text i ∧ ∀ j < i, ¬ Occurs pat text j))

/-- All the places at which a pattern that is not empty occurs, in order. -/
def occurrences [DecidableEq α] (pat text : List α) : List Nat :=
  (List.range text.length).filter fun i => Occurs pat text i

/-- The first `k` elements of the pattern stand in the text at `a`. -/
def Agree (pat text : List α) (a k : Nat) : Prop := ∀ j < k, text[a + j]? = pat[j]?

/-- The attempt at `a` matches `k` elements, and not the next. -/
structure Fails (pat text : List α) (a k : Nat) : Prop where
  agree : Agree pat text a k
  lt : k < pat.length
  lt_text : a + k < text.length
  differs : text[a + k]? ≠ pat[k]?

inductive Attempt (pat text : List α) : Nat → Prop where
  | start : Attempt pat text 0
  | next {a k : Nat} : Attempt pat text a → Fails pat text a k → Attempt pat text (a + max k 1)

/-- The first `b` elements of the pattern are also the last of its first `k`. -/
def Border (pat : List α) (b k : Nat) : Prop := pat.take b = (pat.drop (k - b)).take b

instance [DecidableEq α] (pat : List α) (b k : Nat) : Decidable (Border pat b k) :=
  inferInstanceAs (Decidable (_ = _))

/-- `b` is the length of the longest border of the first `k` elements but themselves. -/
structure LongestBorder (pat : List α) (k b : Nat) : Prop where
  lt : b < k
  border : Border pat b k
  longest : ∀ b' < k, Border pat b' k → b' ≤ b

/-- Every border of a proper prefix goes on like it. -/
def Extensible (pat : List α) : Prop :=
  ∀ k b, 1 ≤ b → b < k → k < pat.length → Border pat b k → pat[b]? = pat[k]?

/-! ### Occurrences -/

theorem occurs_iff : Occurs pat text a ↔ Agree pat text a pat.length := by
  unfold Occurs Agree
  rw [List.prefix_iff_getElem?]
  constructor
  · intro h j hj
    rw [← List.getElem?_drop, h j hj, List.getElem?_eq_getElem hj]
  · intro h j hj
    rw [List.getElem?_drop, h j hj, List.getElem?_eq_getElem hj]

theorem Occurs.lt_length (h : Occurs pat text a) (hne : pat ≠ []) :
    a + pat.length ≤ text.length := by
  have hlen := h.length_le
  have hpos := List.length_pos_iff.2 hne
  rw [List.length_drop] at hlen
  omega

theorem mem_occurrences [DecidableEq α] (hne : pat ≠ []) {i : Nat} :
    i ∈ occurrences pat text ↔ Occurs pat text i := by
  rw [occurrences, List.mem_filter, List.mem_range, decide_eq_true_eq, and_iff_right_iff_imp]
  intro h
  have hroom := h.lt_length hne
  have hpos := List.length_pos_iff.2 hne
  omega

theorem occurrences_increasing [DecidableEq α] (pat text : List α) :
    (occurrences pat text).Pairwise (· < ·) := List.pairwise_lt_range.filter _

theorem occurrences_eq_nil [DecidableEq α] (hne : pat ≠ []) :
    occurrences pat text = [] ↔ ∀ i, ¬ Occurs pat text i := by
  rw [List.eq_nil_iff_forall_not_mem]
  exact forall_congr' fun i => not_congr (mem_occurrences hne)

theorem Fails.not_occurs (h : Fails pat text a k) : ¬ Occurs pat text a := fun ho =>
  h.differs (occurs_iff.1 ho k h.lt)

/-- How far an attempt matches is determined. -/
theorem Fails.unique {k' : Nat} (h : Fails pat text a k) (h' : Fails pat text a k') : k = k' := by
  rcases Nat.lt_trichotomy k k' with hlt | heq | hlt
  · exact absurd (h'.agree k hlt) h.differs
  · exact heq
  · exact absurd (h.agree k' hlt) h'.differs

/-- An attempt with room for the pattern finds it or fails. -/
theorem occurs_or_fails (h : a + pat.length ≤ text.length) :
    Occurs pat text a ∨ ∃ k, Fails pat text a k := by
  classical
  by_cases hall : ∃ j, j < pat.length ∧ text[a + j]? ≠ pat[j]?
  · obtain ⟨hlt, hne⟩ := Nat.find_spec hall
    refine .inr ⟨Nat.find hall, fun j hj => ?_, hlt, by omega, hne⟩
    by_contra hj'
    exact Nat.find_min hall hj ⟨by omega, hj'⟩
  · push Not at hall
    exact .inl (occurs_iff.2 hall)

theorem First.unique {q : Nat} (h : First pat text p) (h' : First pat text q) : p = q := by
  rcases Nat.lt_trichotomy p q with hlt | heq | hlt
  · exact absurd h.1 (h'.2 p hlt)
  · exact heq
  · exact absurd h'.1 (h.2 q hlt)

theorem exists_first (h : Occurs pat text a) : ∃ p ≤ a, First pat text p := by
  classical
  have hex : ∃ i, Occurs pat text i := ⟨a, h⟩
  exact ⟨Nat.find hex, Nat.find_min' hex h, Nat.find_spec hex, fun j hj => Nat.find_min hex hj⟩

/-! ### Attempts -/

/-- Between a failed attempt and the next there is none. -/
theorem Attempt.gap (ha : Attempt pat text a) (hk : Fails pat text a k)
    (hp : Attempt pat text p) : p ≤ a ∨ a + max k 1 ≤ p := by
  generalize hn : a + p = n
  induction n using Nat.strong_induction_on generalizing a k p with
  | _ n ih =>
    cases hp with
    | start => exact .inl (Nat.zero_le a)
    | @next c l hc hl =>
      rcases Nat.lt_trichotomy c a with hlt | rfl | hlt
      · rcases ih (c + a) (by omega) hc hl ha rfl with hle | hle
        · omega
        · exact .inl hle
      · rw [hk.unique hl]
        exact .inr (Nat.le_refl _)
      · rcases ih (a + c) (by omega) ha hk hc rfl with hle | hle
        · omega
        · exact .inr (Nat.le_trans hle (Nat.le_add_right c _))

/-- No attempt begins inside of what a failed attempt matched. -/
theorem Attempt.not_inside (ha : Attempt pat text a) (hk : Fails pat text a k) (h1 : a < p)
    (h2 : p < a + k) : ¬ Attempt pat text p := by
  intro hp
  rcases ha.gap hk hp with hle | hle <;> omega

/-- An attempt that fails inside an occurrence leaves a border that does not go on. -/
theorem Fails.border (hk : Fails pat text a k) (hp : Occurs pat text p) (h1 : a < p)
    (h2 : p < a + k) : Border pat (a + k - p) k ∧ pat[a + k - p]? ≠ pat[k]? := by
  have hlt := hk.lt
  have hocc := occurs_iff.1 hp
  constructor
  · unfold Border
    apply List.ext_getElem?
    intro j
    by_cases hj : j < a + k - p
    · have hat := hocc j (by omega)
      have hag := hk.agree (p - a + j) (by omega)
      have e : a + (p - a + j) = p + j := by omega
      have e' : k - (a + k - p) + j = p - a + j := by omega
      rw [e, hat] at hag
      rw [List.getElem?_take_of_lt hj, List.getElem?_take_of_lt hj, List.getElem?_drop, e', hag]
    · rw [List.getElem?_take_eq_none (by omega), List.getElem?_take_eq_none (by omega)]
  · have hat := hocc (a + k - p) (by omega)
    have e : p + (a + k - p) = a + k := by omega
    rw [e] at hat
    rw [← hat]
    exact hk.differs

/-- Every attempt up to an occurrence leads to it, where borders go on. -/
theorem Attempt.reaches (hext : Extensible pat) (hne : pat ≠ []) (hp : First pat text p)
    (ha : Attempt pat text a) (hle : a ≤ p) : Attempt pat text p := by
  have hroom := hp.1.lt_length hne
  generalize hn : p - a = n
  induction n using Nat.strong_induction_on generalizing a with
  | _ n ih =>
    rcases Nat.lt_or_ge a p with hlt | hge
    · have hfits : a + pat.length ≤ text.length := by omega
      obtain hocc | ⟨k, hk⟩ := occurs_or_fails hfits
      · exact absurd hocc (hp.2 a hlt)
      · by_cases hover : p < a + k
        · obtain ⟨hborder, hdiff⟩ := hk.border hp.1 hlt hover
          have hlt' := hk.lt
          exact absurd (hext k _ (by omega) (by omega) hlt' hborder) hdiff
        · exact ih _ (by omega) (ha.next hk) (by omega) rfl
    · obtain rfl : a = p := by omega
      exact ha

/-- A border that does not go on: after the part before it the pattern is passed over. -/
theorem exists_passed_over (h1 : 1 ≤ b) (h2 : b < k) (h3 : k < pat.length)
    (hborder : Border pat b k) (hdiff : pat[b]? ≠ pat[k]?) :
    ∃ p, First pat (pat.take (k - b) ++ pat) p ∧ ¬ Attempt pat (pat.take (k - b) ++ pat) p := by
  have hwidth : (pat.take (k - b)).length = k - b := by
    rw [List.length_take]
    omega
  have hright : ∀ j, (pat.take (k - b) ++ pat)[k - b + j]? = pat[j]? := by
    intro j
    rw [List.getElem?_append_right (by omega), hwidth, Nat.add_sub_cancel_left]
  have hfails : Fails pat (pat.take (k - b) ++ pat) 0 k := by
    refine ⟨fun j hj => ?_, h3, ?_, ?_⟩
    · rw [Nat.zero_add]
      by_cases hj' : j < k - b
      · rw [List.getElem?_append_left (by omega), List.getElem?_take_of_lt hj']
      · obtain ⟨i, rfl⟩ := Nat.exists_eq_add_of_le (Nat.not_lt.1 hj')
        have hi := congrArg (·[i]?) hborder
        simp only [List.getElem?_take_of_lt (show i < b by omega), List.getElem?_drop] at hi
        rw [hright, hi]
    · rw [List.length_append]
      omega
    · have hat := hright b
      rw [show k - b + b = k by omega] at hat
      rwa [Nat.zero_add, hat]
  have hocc : Occurs pat (pat.take (k - b) ++ pat) (k - b) := by
    rw [occurs_iff]
    exact fun j _ => hright j
  obtain ⟨p, hle, hp⟩ := exists_first hocc
  have hpos : 0 < p := by
    refine Nat.pos_of_ne_zero fun h0 => ?_
    subst h0
    exact hfails.not_occurs hp.1
  exact ⟨p, hp, Attempt.start.not_inside hfails hpos (by omega)⟩

/-- The first occurrence begins an attempt in all texts exactly if the borders go on. -/
theorem extensible_iff (hne : pat ≠ []) :
    (∀ text : List α, ∀ p, First pat text p → Attempt pat text p) ↔ Extensible pat := by
  constructor
  · intro h k b h1 h2 h3 hborder
    by_contra hdiff
    obtain ⟨p, hp, hnot⟩ := exists_passed_over h1 h2 h3 hborder hdiff
    exact hnot (h _ p hp)
  · intro hext text p hp
    exact Attempt.start.reaches hext hne hp (Nat.zero_le p)

/-! ### The furthest place -/

theorem Agree.mono {l : Nat} (h : Agree pat text a k) (hl : l ≤ k) : Agree pat text a l :=
  fun j hj => h j (by omega)

theorem Agree.snoc (h : Agree pat text a k) (he : text[a + k]? = pat[k]?) :
    Agree pat text a (k + 1) := by
  intro j hj
  rcases Nat.lt_succ_iff_lt_or_eq.1 hj with hj | rfl
  · exact h j hj
  · exact he

/-- What stands at two places up to the same end overlaps in a border. -/
theorem Agree.border (h : Agree pat text a k) (hp : Agree pat text p b) (hap : a ≤ p)
    (hend : p + b = a + k) : Border pat b k := by
  unfold Border
  apply List.ext_getElem?
  intro j
  by_cases hj : j < b
  · have hat := h (k - b + j) (by omega)
    rw [show a + (k - b + j) = p + j by omega, hp j hj] at hat
    rw [List.getElem?_take_of_lt hj, List.getElem?_take_of_lt hj, List.getElem?_drop, hat]
  · rw [List.getElem?_take_eq_none (by omega), List.getElem?_take_eq_none (by omega)]

theorem Agree.of_border (h : Agree pat text a k) (hb : b ≤ k) (hborder : Border pat b k) :
    Agree pat text (a + (k - b)) b := by
  intro j hj
  have hat := congrArg (·[j]?) hborder
  simp only [List.getElem?_take_of_lt hj, List.getElem?_drop] at hat
  rw [hat, ← h (k - b + j) (by omega), Nat.add_assoc]

/-- No place before `a` can still be one of an occurrence, by the first `i` elements of the
text. -/
def Passed (pat text : List α) (i a : Nat) : Prop :=
  ∀ t < a, ¬ Agree pat text t (min (i - t) pat.length)

theorem Passed.mono {i i' : Nat} (h : Passed pat text i a) (hi : i ≤ i') :
    Passed pat text i' a := by
  intro t ht hat
  exact h t ht (hat.mono (by omega))

theorem Passed.not_occurs {i t : Nat} (h : Passed pat text i a) (ht : t < a) :
    ¬ Occurs pat text t := fun hocc =>
  h t ht ((occurs_iff.1 hocc).mono (Nat.min_le_right _ _))

/-- A place that fails is passed, and with it all up to the longest border. -/
theorem Passed.fall (h : Passed pat text (a + k + 1) a) (hat : Agree pat text a k)
    (hk : k < pat.length) (hne : text[a + k]? ≠ pat[k]?) (hb : LongestBorder pat k b) :
    Passed pat text (a + k + 1) (a + (k - b)) := by
  intro t ht hagree
  rcases Nat.lt_trichotomy t a with hlt | rfl | hgt
  · exact h t hlt hagree
  · exact hne (hagree k (by omega))
  · have hover : Agree pat text t (a + k - t) := hagree.mono (by omega)
    have hlen := hb.longest _ (by omega) (hat.border hover hgt.le (by omega))
    omega

/-- A place that fails at once is passed. -/
theorem Passed.skip (h : Passed pat text (a + 1) a) (hpos : 0 < pat.length)
    (hne : text[a]? ≠ pat[0]?) : Passed pat text (a + 1) (a + 1) := by
  intro t ht hagree
  rcases Nat.lt_succ_iff_lt_or_eq.1 ht with hlt | rfl
  · exact h t hlt hagree
  · exact hne (hagree 0 (by omega))

end Matching
