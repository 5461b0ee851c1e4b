import LittleLearning.Algorithm.StringMatcher

/-!
# The fallback table

`computeDfs` compares `pat[k + 1]` with `pat[i]`, as if the bytes were counted from
one. `k + 1` is `i` in every round, so that the byte is compared with itself and
every entry of the table becomes its own index. That is never the length of a
border that is not the whole, and a fallback with this table never ends.
-/

namespace LittleLearning.Algorithm

open Cxx Matching

namespace KmpMatcher

/-- The `while` loop of `computeDfs`, for `fuel` tests of its condition. -/
def borderBack (kmp : KmpMatcher) (c : UInt8) : Nat → Nat → Option Nat
  | 0, _ => none
  | fuel + 1, k =>
    if k = 0 then some k
    else do
      if (← charAt kmp.pat (k + 1)) = c then return k
      kmp.borderBack c fuel (← kmp.dfs[k]?)

/-- `k` after a round for the byte `c`. -/
def border (kmp : KmpMatcher) (c : UInt8) (fuel k : Nat) : Option Nat := do
  let k ← kmp.borderBack c fuel k
  if (← charAt kmp.pat (k + 1)) = c then return k + 1 else return k

/-- The last `left` rounds of the `for` loop. -/
def computeDfsFrom (fuel : Nat) : Nat → Nat → Nat → KmpMatcher → Option KmpMatcher
  | 0, _, _, kmp => some kmp
  | left + 1, i, k, kmp => do
    let c ← charAt kmp.pat i
    let k ← kmp.border c fuel k
    if i < kmp.dfs.length then
      computeDfsFrom fuel left (i + 1) k { kmp with dfs := kmp.dfs.set i k }
    else none

/-- `computeDfs()`, where no `while` loop tests its condition more than `fuel` times. -/
def computeDfs (fuel : Nat) (kmp : KmpMatcher) : Option KmpMatcher :=
  computeDfsFrom fuel (kmp.pat.length - 1) 1 0 kmp

/-- On the zero table `computeDfs` returns, and each entry behind the first is then the length of
the longest border of that many bytes. -/
def FindsBorders (pat : Bytes) : Prop :=
  ∃ fuel kmp, (new pat).computeDfs fuel = some kmp ∧
    ∀ k, 1 ≤ k → k < pat.length → ∃ b, kmp.dfs[k]? = some b ∧ LongestBorder pat k b

variable {pat : Bytes} {kmp kmp' : KmpMatcher} {c : UInt8} {fuel left i j k : Nat}

/-! ### A round -/

/-- Where the byte at `k + 1` is the one compared with, there is no falling back. -/
theorem border_self (hc : charAt kmp.pat (k + 1) = some c) :
    kmp.border c (fuel + 1) k = some (k + 1) := by
  have hback : kmp.borderBack c (fuel + 1) k = some k := by
    rw [borderBack]
    by_cases h0 : k = 0
    · rw [if_pos h0]
    · rw [if_neg h0]
      simp [hc]
  simp [border, hback, hc]

/-- Behind the byte at `k` the byte at `k + 1` is compared with itself. -/
theorem computeDfsFrom_round (hk : k + 1 < kmp.pat.length)
    (hdfs : kmp.dfs.length = kmp.pat.length) :
    computeDfsFrom (fuel + 1) (left + 1) (k + 1) k kmp =
      computeDfsFrom (fuel + 1) left (k + 2) (k + 1)
        { kmp with dfs := kmp.dfs.set (k + 1) (k + 1) } := by
  obtain ⟨c, hc⟩ : ∃ c, charAt kmp.pat (k + 1) = some c :=
    ⟨kmp.pat[k + 1], by rw [charAt_eq hk, List.getElem?_eq_getElem hk]⟩
  rw [computeDfsFrom, hc]
  simp only [bind, Option.bind_some, border_self hc]
  rw [if_pos (by omega)]

/-- The entries before `i` are left as they are. -/
theorem computeDfsFrom_frame (hr : computeDfsFrom fuel left i k kmp = some kmp') (hj : j < i) :
    kmp'.dfs[j]? = kmp.dfs[j]? := by
  induction left generalizing i k kmp with
  | zero =>
    cases hr
    rfl
  | succ left ih =>
    simp only [computeDfsFrom, bind, Option.bind_eq_some_iff] at hr
    obtain ⟨c, -, b, -, hr⟩ := hr
    split at hr
    · rw [ih hr (by omega)]
      exact List.getElem?_set_ne (by omega)
    · cases hr

/-! ### The table -/

theorem computeDfsFrom_range (hlen : k + 1 + left = pat.length) :
    computeDfsFrom (fuel + 1) left (k + 1) k ⟨List.range (k + 1) ++ List.replicate left 0, pat⟩ =
      some ⟨List.range pat.length, pat⟩ := by
  induction left generalizing k with
  | zero =>
    rw [Nat.add_zero] at hlen
    rw [computeDfsFrom, ← hlen, List.replicate_zero, List.append_nil]
  | succ left ih =>
    have hset : (List.range (k + 1) ++ List.replicate (left + 1) 0).set (k + 1) (k + 1) =
        List.range (k + 2) ++ List.replicate left 0 := by
      rw [List.set_append_right _ _ (by simp), List.length_range, Nat.sub_self,
        List.replicate_succ, List.set_cons_zero, List.range_succ (n := k + 1), List.append_assoc]
      rfl
    rw [computeDfsFrom_round (by simp only; omega) (by simp; omega), hset]
    exact ih (by omega)

/-- Every entry is its own index. -/
theorem computeDfs_eq (hne : pat ≠ []) :
    (new pat).computeDfs (fuel + 1) = some ⟨List.range pat.length, pat⟩ := by
  obtain ⟨c, rest, rfl⟩ := List.exists_cons_of_ne_nil hne
  have hlen : (c :: rest).length = 1 + rest.length := Nat.add_comm ..
  have hzero : List.replicate (c :: rest).length 0 = List.range 1 ++ List.replicate rest.length 0 :=
    List.replicate_succ
  show computeDfsFrom (fuel + 1) rest.length 1 0
    ⟨List.replicate (c :: rest).length 0, c :: rest⟩ = _
  rw [hzero]
  exact computeDfsFrom_range (by rw [hlen, Nat.zero_add])

/-- With the table that `computeDfs` makes, the fallback of `match` stays where it is. -/
theorem fallBack_computed (h0 : 0 < k) (hk : k < pat.length) (hne : pat[k]? ≠ some c) :
    ∃ kmp, (new pat).computeDfs 1 = some kmp ∧ ∀ fuel, kmp.fallBack c fuel k = none := by
  have hat : charAt pat k = some pat[k] := by rw [charAt_eq hk, List.getElem?_eq_getElem hk]
  rw [List.getElem?_eq_getElem hk] at hne
  refine ⟨_, computeDfs_eq (List.ne_nil_of_length_pos (by omega)), fun fuel => ?_⟩
  induction fuel with
  | zero => rfl
  | succ fuel ih =>
    have hsame : (List.range pat.length)[k]? = some k := by simp [hk]
    rw [fallBack, if_neg (by omega)]
    simp only [hat, hsame, bind, Option.bind_some]
    rw [if_neg (fun h => hne (congrArg some h)), ih]

/-- The second entry is 1, whatever the bytes are. -/
theorem dfs_one (hlen : 2 ≤ pat.length) (hr : (new pat).computeDfs fuel = some kmp) :
    kmp.dfs[1]? = some 1 := by
  obtain ⟨left, hleft⟩ : ∃ left, pat.length - 1 = left + 1 := ⟨pat.length - 2, by omega⟩
  unfold computeDfs at hr
  rw [new_pat, hleft] at hr
  cases fuel with
  | zero => simp [computeDfsFrom, border, borderBack] at hr
  | succ fuel =>
    have hdfs : (new pat).dfs.length = pat.length := List.length_replicate
    rw [computeDfsFrom_round (by rw [new_pat]; omega) hdfs] at hr
    rw [computeDfsFrom_frame hr (by decide)]
    exact List.getElem?_set_self (by rw [hdfs]; omega)

/-- The table is that of the borders exactly for the patterns without a second byte. -/
theorem findsBorders_iff (pat : Bytes) : FindsBorders pat ↔ pat.length ≤ 1 := by
  constructor
  · rintro ⟨fuel, kmp, hr, hborders⟩
    by_contra hlen
    obtain ⟨b, hb, hlongest⟩ := hborders 1 (Nat.le_refl 1) (by omega)
    rw [dfs_one (by omega) hr] at hb
    obtain rfl := Option.some.inj hb
    exact Nat.lt_irrefl 1 hlongest.lt
  · intro hlen
    have hnone : pat.length - 1 = 0 := by omega
    refine ⟨0, new pat, ?_, fun k h1 h2 => by omega⟩
    rw [computeDfs, new_pat, hnone]
    rfl

/-- The table of `ab` has 1 where the longest border of `a` is empty. -/
theorem not_findsBorders : ¬ ∀ pat : Bytes, pat ≠ [] → FindsBorders pat := by
  intro h
  obtain ⟨fuel, kmp, hr, hborders⟩ := h (ascii "ab") (by decide)
  obtain ⟨b, hb, hlongest⟩ := hborders 1 (Nat.le_refl 1) (by decide)
  rw [dfs_one (by decide) hr] at hb
  obtain rfl := Option.some.inj hb
  exact Nat.lt_irrefl 1 hlongest.lt

end KmpMatcher

end LittleLearning.Algorithm
