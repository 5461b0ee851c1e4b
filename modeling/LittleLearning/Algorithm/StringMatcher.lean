import LittleLearning.Lib.Cxx
import LittleLearning.Lib.Matching

/-!
# The string matchers

`usiMatch` is `usi::match`, which tries every place. `KmpMatcher` never goes back
in the text, but its constructor leaves the fallback table zero (`computeDfs` has
no caller): it makes the attempts of `Matching.Attempt`. Positions are `S32`, a
`long` of 64 bits (`BasicType.h`): the size of a string is one, and no loop counts
beyond it, so that they are plain numbers. An index out of range is `none`.
-/

namespace LittleLearning.Algorithm

open Cxx Matching

/-! ### The naive matcher -/

/-- The inner loop of `match`: `j` at its end, after `left` more rounds at most. -/
def agreeFrom (str pat : Bytes) (i : Nat) : Nat → Nat → Option Nat
  | 0, j => some j
  | left + 1, j => do
    if (← charAt str (i + j)) ≠ (← charAt pat j) then return j
    agreeFrom str pat i left (j + 1)

def usiMatchFrom (str pat : Bytes) : Nat → Nat → Option Int
  | 0, _ => some (-1)
  | left + 1, i => do
    let j ← agreeFrom str pat i pat.length 0
    if j = pat.length then return i
    usiMatchFrom str pat left (i + 1)

def usiMatch (str pat : Bytes) : Option Int :=
  let n : Int := str.length
  let m : Int := pat.length
  usiMatchFrom str pat (n - m + 1).toNat 0

/-! ### The matcher with a table -/

structure KmpMatcher where
  dfs : List Nat
  pat : Bytes

namespace KmpMatcher

def new (pat : Bytes) : KmpMatcher := ⟨List.replicate pat.length 0, pat⟩

@[simp] theorem new_pat (pat : Bytes) : (new pat).pat = pat := rfl

/-- The `while` loop, for `fuel` tests of its condition. -/
def fallBack (kmp : KmpMatcher) (c : UInt8) : Nat → Nat → Option Nat
  | 0, _ => none
  | fuel + 1, matched =>
    if matched = 0 then some matched
    else do
      if (← charAt kmp.pat matched) = c then return matched
      kmp.fallBack c fuel (← kmp.dfs[matched]?)

/-- `matched` after the next byte of the text. -/
def advance (kmp : KmpMatcher) (c : UInt8) (matched : Nat) : Option Nat := do
  let matched ← kmp.fallBack c (matched + 1) matched
  if (← charAt kmp.pat matched) = c then return matched + 1 else return matched

def matchFrom (kmp : KmpMatcher) : Bytes → Nat → Nat → Option Int
  | [], _, _ => some (-1)
  | c :: text, i, matched => do
    let matched ← kmp.advance c matched
    if matched = kmp.pat.length then return (i : Int) + 1 - matched
    kmp.matchFrom text (i + 1) matched

/-- `match(text)` -/
def matchText (kmp : KmpMatcher) (text : Bytes) : Option Int := kmp.matchFrom text 0 0

end KmpMatcher

/-! ### What the naive matcher returns -/

section

variable {str pat : Bytes} {i : Nat}

theorem agreeFrom_eq {left j : Nat} (hpat : j + left ≤ pat.length)
    (hstr : i + (j + left) ≤ str.length) (hagree : Agree pat str i j) :
    ∃ k, agreeFrom str pat i left j = some k ∧ Agree pat str i k ∧ k ≤ j + left ∧
      (k < j + left → str[i + k]? ≠ pat[k]?) := by
  induction left generalizing j with
  | zero => exact ⟨j, rfl, hagree, Nat.le_refl j, fun h => absurd h (Nat.lt_irrefl j)⟩
  | succ left ih =>
    have hs : charAt str (i + j) = some str[i + j] := by
      rw [charAt_eq (by omega), List.getElem?_eq_getElem]
    have hp : charAt pat j = some pat[j] := by rw [charAt_eq (by omega), List.getElem?_eq_getElem]
    simp only [agreeFrom, hs, hp, bind, Option.bind, pure]
    by_cases heq : str[i + j] = pat[j]
    · have hnext : Agree pat str i (j + 1) := by
        intro t ht
        rcases Nat.lt_succ_iff_lt_or_eq.1 ht with ht | rfl
        · exact hagree t ht
        · rw [List.getElem?_eq_getElem (by omega), List.getElem?_eq_getElem (by omega), heq]
      rw [if_neg (by simpa using heq)]
      simpa only [Nat.add_assoc, Nat.add_comm 1 left] using
        ih (j := j + 1) (by omega) (by omega) hnext
    · rw [if_pos heq]
      refine ⟨j, rfl, hagree, by omega, fun _ => ?_⟩
      rw [List.getElem?_eq_getElem (by omega), List.getElem?_eq_getElem (by omega)]
      simpa using heq

/-- The last `left` places hold all the occurrences from `i` on. -/
theorem usiMatchFrom_eq {left : Nat} (hne : pat ≠ [])
    (hleft : left = str.length + 1 - pat.length - i) :
    (∃ p : Nat, usiMatchFrom str pat left i = some (p : Int) ∧ i ≤ p ∧ Occurs pat str p ∧
        ∀ t, i ≤ t → t < p → ¬ Occurs pat str t) ∨
      usiMatchFrom str pat left i = some (-1) ∧ ∀ t, i ≤ t → ¬ Occurs pat str t := by
  induction left generalizing i with
  | zero =>
    refine .inr ⟨rfl, fun t ht hocc => ?_⟩
    have hroom := hocc.lt_length hne
    omega
  | succ left ih =>
    have hstart : Agree pat str i 0 := fun j hj => absurd hj (Nat.not_lt_zero j)
    obtain ⟨k, hk, hagree, hle, hdiff⟩ :=
      @agreeFrom_eq str pat i pat.length 0 (by omega) (by omega) hstart
    rw [Nat.zero_add] at hle hdiff
    simp only [usiMatchFrom, hk, bind, Option.bind, pure]
    by_cases heq : k = pat.length
    · subst heq
      rw [if_pos rfl]
      exact .inl ⟨i, rfl, Nat.le_refl i, occurs_iff.2 hagree, fun t h1 h2 => by omega⟩
    · have hnot : ¬ Occurs pat str i := fun ho =>
        hdiff (by omega) (occurs_iff.1 ho k (by omega))
      rw [if_neg heq]
      have hstep : ∀ t, i ≤ t → t ≠ i → i + 1 ≤ t := fun t h1 h2 => by omega
      rcases ih (i := i + 1) (by omega) with ⟨p, hp, h1, h2, h3⟩ | ⟨hp, h1⟩
      · refine .inl ⟨p, hp, by omega, h2, fun t ht htp => ?_⟩
        by_cases he : t = i
        · exact he ▸ hnot
        · exact h3 t (hstep t ht he) htp
      · refine .inr ⟨hp, fun t ht => ?_⟩
        by_cases he : t = i
        · exact he ▸ hnot
        · exact h1 t (hstep t ht he)

/-- What a matcher has to return. -/
def LeastIndex (pat text : Bytes) (r : Int) : Prop :=
  (∃ p : Nat, r = p ∧ First pat text p) ∨ r = -1 ∧ ∀ i, ¬ Occurs pat text i

theorem LeastIndex.unique {r r' : Int} (h : LeastIndex pat str r) (h' : LeastIndex pat str r') :
    r = r' := by
  rcases h with ⟨p, rfl, hp⟩ | ⟨rfl, hno⟩ <;> rcases h' with ⟨q, rfl, hq⟩ | ⟨rfl, hno'⟩
  · rw [hp.unique hq]
  · exact absurd hp.1 (hno' p)
  · exact absurd hq.1 (hno q)
  · rfl

/-- The naive matcher returns the least index. -/
theorem usiMatch_eq_some_iff (hne : pat ≠ []) {r : Int} :
    usiMatch str pat = some r ↔ LeastIndex pat str r := by
  have hleast : ∃ r, usiMatch str pat = some r ∧ LeastIndex pat str r := by
    have hleft : ((str.length : Int) - pat.length + 1).toNat = str.length + 1 - pat.length - 0 := by
      omega
    rcases usiMatchFrom_eq hne hleft with ⟨p, hp, -, hocc, hbefore⟩ | ⟨hp, hnone⟩
    · exact ⟨p, hp, .inl ⟨p, rfl, hocc, fun t ht => hbefore t (Nat.zero_le t) ht⟩⟩
    · exact ⟨-1, hp, .inr ⟨rfl, fun t => hnone t (Nat.zero_le t)⟩⟩
  obtain ⟨r', hr', hleast⟩ := hleast
  rw [hr', Option.some.injEq]
  exact ⟨fun he => he ▸ hleast, hleast.unique⟩

end

/-! ### What the matcher with the zero table returns -/

namespace KmpMatcher

variable {pat text : Bytes} {a k i : Nat}

theorem fallBack_eq (c : UInt8) (hk : k < pat.length) :
    (new pat).fallBack c (k + 1) k = some (if pat[k]? = some c then k else 0) := by
  cases k with
  | zero => simp [fallBack]
  | succ k =>
    have hp : charAt (new pat).pat (k + 1) = some pat[k + 1] := by
      rw [new, charAt_eq hk, List.getElem?_eq_getElem]
    have hd : (new pat).dfs[k + 1]? = some 0 := by
      rw [new, List.getElem?_replicate, if_pos hk]
    rw [fallBack, if_neg (Nat.succ_ne_zero k), hp, List.getElem?_eq_getElem hk]
    by_cases hc : pat[k + 1] = c
    · simp [hc]
    · simp [hc, hd, fallBack]

/-- The next byte goes on with the attempt, or begins one, or neither. -/
theorem advance_eq (c : UInt8) (hk : k < pat.length) : (new pat).advance c k =
    some (if pat[k]? = some c then k + 1 else if pat[0]? = some c then 1 else 0) := by
  rw [advance, fallBack_eq c hk]
  by_cases hc : pat[k]? = some c
  · simp [hc, charAt_eq hk]
  · have h0 : charAt pat 0 = some pat[0] := by
      rw [charAt_eq (by omega), List.getElem?_eq_getElem]
    have hg : pat[0]? = some pat[0] := List.getElem?_eq_getElem (by omega)
    rw [if_neg hc, if_neg hc, hg]
    by_cases hc0 : pat[0] = c
    · simp [h0, hc0]
    · simp [h0, hc0]

/-- The matcher is `k` bytes into its attempt at `a`, and none before found the pattern. -/
structure Scanning (pat text : Bytes) (a k : Nat) : Prop where
  attempt : Attempt pat text a
  agree : Agree pat text a k
  before : ∀ t < a, Attempt pat text t → ¬ Occurs pat text t

theorem Scanning.snoc (h : Scanning pat text a k) (he : text[a + k]? = pat[k]?) :
    Scanning pat text a (k + 1) := by
  refine ⟨h.attempt, fun j hj => ?_, h.before⟩
  rcases Nat.lt_succ_iff_lt_or_eq.1 hj with hj | rfl
  · exact h.agree j hj
  · exact he

/-- After a failed attempt no other begins before the next. -/
theorem Scanning.next (h : Scanning pat text a k) (hf : Fails pat text a k) :
    Scanning pat text (a + max k 1) 0 := by
  refine ⟨h.attempt.next hf, fun j hj => absurd hj (Nat.not_lt_zero j), fun t ht hatt => ?_⟩
  rcases h.attempt.gap hf hatt with hle | hle
  · rcases Nat.lt_or_ge t a with hlt | hge
    · exact h.before t hlt hatt
    · obtain rfl : t = a := by omega
      exact hf.not_occurs
  · omega

/-- The attempt the matcher is in after a byte, and how far. -/
theorem Scanning.advance {c : UInt8} (h : Scanning pat text a k) (hk : k < pat.length)
    (hc : text[a + k]? = some c) :
    ∃ b l, (new pat).advance c k = some l ∧ b + l = a + k + 1 ∧ l ≤ pat.length ∧
      Scanning pat text b l := by
  have hlt : a + k < text.length := (List.getElem?_eq_some_iff.1 hc).1
  rw [advance_eq c hk]
  by_cases hp : pat[k]? = some c
  · rw [if_pos hp]
    exact ⟨a, k + 1, rfl, by omega, hk, h.snoc (hc.trans hp.symm)⟩
  · rw [if_neg hp]
    have hf : Fails pat text a k := ⟨h.agree, hk, hlt, fun he => hp (he ▸ hc)⟩
    have hn := h.next hf
    cases k with
    | zero =>
      rw [if_neg hp]
      exact ⟨a + 1, 0, rfl, rfl, Nat.zero_le _, hn⟩
    | succ k =>
      rw [Nat.max_eq_left (by omega)] at hn
      by_cases h0 : pat[0]? = some c
      · rw [if_pos h0]
        exact ⟨a + (k + 1), 1, rfl, rfl, by omega, hn.snoc (hc.trans h0.symm)⟩
      · rw [if_neg h0]
        have hf0 : Fails pat text (a + (k + 1)) 0 :=
          ⟨hn.agree, by omega, hlt, fun he => h0 (he ▸ hc)⟩
        exact ⟨a + (k + 1) + 1, 0, rfl, rfl, Nat.zero_le _, hn.next hf0⟩

/-- What the matcher returns: the first attempt that finds the pattern, or -1 at the end of the
text. -/
inductive Returns (pat text : Bytes) : Option Int → Prop where
  | found {p : Nat} : Attempt pat text p → Occurs pat text p →
      (∀ t < p, Attempt pat text t → ¬ Occurs pat text t) → Returns pat text (some p)
  | none : (∀ t, Attempt pat text t → ¬ Occurs pat text t) → Returns pat text (some (-1))

theorem Returns.attempt {p : Nat} (h : Returns pat text (some (p : Int))) : Attempt pat text p := by
  generalize hr : (some (p : Int)) = o at h
  cases h with
  | @found q hatt _ _ =>
    obtain rfl : p = q := by simpa using hr
    exact hatt
  | none =>
    rw [Option.some.injEq] at hr
    omega

theorem Returns.eq_none {o : Option Int} (h : Returns pat text o)
    (hno : ∀ t, ¬ Occurs pat text t) : o = some (-1) := by
  cases h with
  | found _ hocc => exact absurd hocc (hno _)
  | none => rfl

/-- An attempt at the first occurrence is the first to find the pattern. -/
theorem Returns.eq_first {o : Option Int} {p : Nat} (h : Returns pat text o)
    (hp : First pat text p) (hatt : Attempt pat text p) : o = some (p : Int) := by
  cases h with
  | @found q hatt' hocc hbefore =>
    have hq : First pat text q := by
      refine ⟨hocc, fun t ht hocc' => ?_⟩
      rcases Nat.lt_trichotomy p q with hlt | rfl | hlt
      · exact hbefore p hlt hatt hp.1
      · exact hp.2 t ht hocc'
      · exact hp.2 q hlt hocc
    rw [hp.unique hq]
  | none hno => exact absurd hp.1 (hno p hatt)

theorem matchFrom_returns {read rest : Bytes} (htext : text = read ++ rest)
    (hi : read.length = i) (ha : a + k = i) (hk : k < pat.length)
    (h : Scanning pat text a k) : Returns pat text ((new pat).matchFrom rest i k) := by
  have hne : pat ≠ [] := List.ne_nil_of_length_pos (by omega)
  induction rest generalizing read i a k with
  | nil =>
    have hlen : text.length = i := by rw [htext, List.append_nil, hi]
    refine .none fun t hatt hocc => ?_
    have hroom := hocc.lt_length hne
    exact h.before t (by omega) hatt hocc
  | cons c rest ih =>
    have hc : text[a + k]? = some c := by
      rw [htext, List.getElem?_append_right (by omega), ha, hi, Nat.sub_self]
      rfl
    obtain ⟨b, l, hadv, hb, hl, hscan⟩ := h.advance hk hc
    simp only [matchFrom, hadv, bind, Option.bind, pure]
    by_cases hfull : l = pat.length
    · rw [if_pos (show l = (new pat).pat.length from hfull)]
      have he : ((i : Int) + 1 - l) = (b : Nat) := by omega
      rw [he]
      have hocc : Occurs pat text b := occurs_iff.2 (hfull ▸ hscan.agree)
      exact .found hscan.attempt hocc hscan.before
    · rw [if_neg (show ¬ l = (new pat).pat.length from hfull)]
      have htext' : text = (read ++ [c]) ++ rest := by rw [htext]; simp
      exact ih htext' (by simp [hi]) (by omega) (by omega) hscan

theorem matchText_returns (hne : pat ≠ []) : Returns pat text ((new pat).matchText text) :=
  matchFrom_returns (List.nil_append text).symm rfl rfl (List.length_pos_iff.2 hne)
    ⟨.start, fun j hj => absurd hj (Nat.not_lt_zero j), fun t ht => absurd ht (Nat.not_lt_zero t)⟩

/-- It returns the least index exactly if it begins an attempt there. -/
theorem matchText_least_iff (hne : pat ≠ []) :
    (∃ r, (new pat).matchText text = some r ∧ LeastIndex pat text r) ↔
      ∀ p, First pat text p → Attempt pat text p := by
  have hret : Returns pat text _ := matchText_returns hne
  constructor
  · rintro ⟨r, hkmp, hleast⟩ p hp
    obtain rfl : r = p := hleast.unique (.inl ⟨p, rfl, hp⟩)
    exact (hkmp ▸ hret).attempt
  · intro hreach
    by_cases hocc : ∃ i, Occurs pat text i
    · obtain ⟨i, hi⟩ := hocc
      obtain ⟨p, -, hp⟩ := exists_first hi
      exact ⟨p, hret.eq_first hp (hreach p hp), .inl ⟨p, rfl, hp⟩⟩
    · push Not at hocc
      exact ⟨-1, hret.eq_none hocc, .inr ⟨rfl, hocc⟩⟩

end KmpMatcher

/-! ### When the matchers agree -/

section

variable {pat text : Bytes}

/-- The inputs on which both return the least index: no occurrence, or a first one the matcher
begins an attempt at. -/
def Handled (pat text : Bytes) : Prop :=
  (∀ i, ¬ Occurs pat text i) ∨ ∃ p, First pat text p ∧ Attempt pat text p

theorem handled_iff : Handled pat text ↔ ∀ p, First pat text p → Attempt pat text p := by
  constructor
  · rintro (hnone | ⟨q, hq, hatt⟩) p hp
    · exact absurd hp.1 (hnone p)
    · exact hq.unique hp ▸ hatt
  · intro hreach
    by_cases hocc : ∃ i, Occurs pat text i
    · obtain ⟨i, hi⟩ := hocc
      obtain ⟨p, -, hp⟩ := exists_first hi
      exact .inr ⟨p, hp, hreach p hp⟩
    · exact .inl (not_exists.1 hocc)

/-- Both matchers return the least index, or -1 where there is none, exactly on these inputs. -/
theorem match_agree_iff (hne : pat ≠ []) :
    (∃ r, (KmpMatcher.new pat).matchText text = some r ∧ usiMatch text pat = some r ∧
      LeastIndex pat text r) ↔ Handled pat text := by
  simp only [usiMatch_eq_some_iff hne, and_self]
  rw [KmpMatcher.matchText_least_iff hne, handled_iff]

/-- The pattern has no border, so no occurrence can be passed over. -/
theorem match_agree_cssx : Handled (ascii "cssx") (ascii "abcssxxsdab") :=
  (match_agree_iff (by decide)).1 ⟨2, by decide +kernel, by decide +kernel,
    .inl ⟨2, rfl, by decide +kernel⟩⟩

/-- The attempt at 0 matches `aa` and fails inside the occurrence at 1. -/
theorem not_match_agree : ¬ ∀ pat text : Bytes, pat ≠ [] →
    (KmpMatcher.new pat).matchText text = usiMatch text pat := by
  intro h
  have hne := h (ascii "aab") (ascii "aaab") (by decide)
  revert hne
  decide +kernel

/-! ### Which patterns are matched right in every text -/

/-- In all texts: exactly the patterns whose borders go on. -/
theorem match_agree_always_iff (hne : pat ≠ []) :
    (∀ text : Bytes, ∃ r, (KmpMatcher.new pat).matchText text = some r ∧
      usiMatch text pat = some r) ↔ Extensible pat := by
  rw [← extensible_iff hne]
  refine forall_congr' fun text => ?_
  simp only [usiMatch_eq_some_iff hne]
  exact KmpMatcher.matchText_least_iff hne

/-- `aab` has the border `a` of `aa`, and goes on with `b` instead of `a`. -/
theorem match_agree_always_aab : ¬ ∀ text : Bytes,
    ∃ r, (KmpMatcher.new (ascii "aab")).matchText text = some r ∧
      usiMatch text (ascii "aab") = some r := by
  rw [match_agree_always_iff (by decide)]
  intro h
  exact absurd (h 2 1 (by decide) (by decide) (by decide) rfl) (by decide)

end

end LittleLearning.Algorithm
