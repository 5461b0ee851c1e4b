import Mathlib.Data.List.AList
import Mathlib.Data.List.Dedup
import Mathlib.Data.List.Induction
import Mathlib.Data.List.MinMax
import Mathlib.Data.List.TakeWhile
import Mathlib.Data.Prod.Lex
import Mathlib.Logic.Function.Basic

/-!
# Histories of a cache

A history of touches, the newest first, orders the keys by their last touch.
`recency` is that order as a list: every touch moves its key to the front. The
place of a key in it is the number of other keys touched since (`idxOf_recency`),
so the keys within the last `n` are its first `n` entries. `touches` and
`latest` read a least-recently-used cache off its calls.
-/

namespace Cache

/-- A call of a cache. -/
inductive Call (κ υ : Type*) where
  | get (key : κ)
  | put (key : κ) (val : υ)

variable {κ υ : Type*} [DecidableEq κ]

def Call.key : Call κ υ → κ
  | .get key | .put key _ => key

/-! ### The order of recency -/

def moveToFront (k : κ) (l : List κ) : List κ := k :: l.erase k

/-- The keys touched, by their last touch, the newest first. -/
def recency (touches : List κ) : List κ := touches.foldr moveToFront []

/-- The number of keys other than `k` touched since `k` was. -/
def othersSince (touches : List κ) (k : κ) : Nat := (touches.takeWhile (· ≠ k)).dedup.length

/-- `k` was touched, and fewer than `n` others since. -/
def Within (n : Nat) (touches : List κ) (k : κ) : Prop := k ∈ touches ∧ othersSince touches k < n

instance (n : Nat) (touches : List κ) (k : κ) : Decidable (Within n touches k) :=
  inferInstanceAs (Decidable (_ ∧ _))

section

variable {n : Nat} {k k' : κ} {l touches : List κ}

@[simp] theorem recency_cons : recency (k :: touches) = moveToFront k (recency touches) := rfl

theorem mem_moveToFront (h : l.Nodup) : k' ∈ moveToFront k l ↔ k' = k ∨ k' ∈ l := by
  rw [moveToFront, List.mem_cons, h.mem_erase_iff]
  tauto

theorem nodup_moveToFront (h : l.Nodup) : (moveToFront k l).Nodup :=
  List.nodup_cons.2 ⟨h.not_mem_erase, h.erase k⟩

theorem nodup_recency (touches : List κ) : (recency touches).Nodup := by
  induction touches with
  | nil => exact List.nodup_nil
  | cons k touches ih => exact nodup_moveToFront ih

theorem mem_recency : k ∈ recency touches ↔ k ∈ touches := by
  induction touches with
  | nil => rfl
  | cons k' touches ih =>
    rw [recency_cons, mem_moveToFront (nodup_recency touches), ih, List.mem_cons]

/-! ### The place of a key -/

theorem takeWhile_erase (h : k' ≠ k) :
    (l.erase k').takeWhile (· ≠ k) = (l.takeWhile (· ≠ k)).erase k' := by
  induction l with
  | nil => rfl
  | cons x l ih =>
    by_cases hx : x = k'
    · subst hx
      rw [List.erase_cons_head, List.takeWhile_cons_of_pos (by simpa using h),
        List.erase_cons_head]
    · rw [List.erase_cons_tail (by simpa using hx)]
      by_cases hk : x = k
      · simp [hk]
      · rw [List.takeWhile_cons_of_pos (by simpa using hk),
          List.takeWhile_cons_of_pos (by simpa using hk), List.erase_cons_tail (by simpa using hx),
          ih]

/-- Before `k` come the keys touched since, by their recency. -/
theorem takeWhile_recency (k : κ) (touches : List κ) :
    (recency touches).takeWhile (· ≠ k) = recency (touches.takeWhile (· ≠ k)) := by
  induction touches with
  | nil => rfl
  | cons t touches ih =>
    by_cases ht : t = k
    · simp [ht, moveToFront, recency]
    · rw [recency_cons, moveToFront, List.takeWhile_cons_of_pos (by simpa using ht),
        List.takeWhile_cons_of_pos (by simpa using ht), takeWhile_erase ht, ih]
      rfl

theorem length_recency (touches : List κ) : (recency touches).length = touches.dedup.length := by
  apply List.Perm.length_eq
  rw [List.perm_ext_iff_of_nodup (nodup_recency touches) touches.nodup_dedup]
  intro k
  rw [mem_recency, List.mem_dedup]

theorem idxOf_eq_length_takeWhile (k : κ) (l : List κ) :
    l.idxOf k = (l.takeWhile (· ≠ k)).length := by
  induction l with
  | nil => rfl
  | cons x l ih =>
    by_cases hx : x = k
    · simp [hx]
    · rw [List.idxOf_cons_ne l hx, List.takeWhile_cons_of_pos (by simpa using hx), ih]
      rfl

theorem idxOf_recency (k : κ) (touches : List κ) :
    (recency touches).idxOf k = othersSince touches k := by
  rw [idxOf_eq_length_takeWhile, takeWhile_recency, length_recency]
  rfl

/-- The first `n` keys are those within the last `n`. -/
theorem mem_take_recency : k ∈ (recency touches).take n ↔ Within n touches k := by
  constructor
  · intro h
    have hm : k ∈ recency touches := List.mem_of_mem_take h
    rw [List.mem_take_iff_idxOf_lt hm, idxOf_recency] at h
    exact ⟨mem_recency.1 hm, h⟩
  · rintro ⟨hm, hlt⟩
    rw [List.mem_take_iff_idxOf_lt (mem_recency.2 hm), idxOf_recency]
    exact hlt

/-! ### The first keys after a touch -/

theorem take_moveToFront_of_mem (h : k ∈ l.take n) :
    (moveToFront k l).take n = moveToFront k (l.take n) := by
  obtain ⟨m, rfl⟩ : ∃ m, n = m + 1 := ⟨n - 1, by rcases n with - | n <;> simp at h ⊢⟩
  rw [moveToFront, moveToFront, List.take_succ_cons]
  congr 1
  induction l generalizing m with
  | nil => cases h
  | cons x l ih =>
    by_cases hx : x = k
    · subst hx
      simp
    · rw [List.take_succ_cons] at h ⊢
      have hmem : k ∈ l.take m := (List.mem_cons.1 h).resolve_left (Ne.symm hx)
      obtain ⟨j, rfl⟩ : ∃ j, m = j + 1 := ⟨m - 1, by rcases m with - | m <;> simp at hmem ⊢⟩
      rw [List.erase_cons_tail (by simpa using hx), List.erase_cons_tail (by simpa using hx),
        List.take_succ_cons, ih j hmem]

theorem take_moveToFront_of_notMem (h : k ∉ l.take (n + 1)) :
    (moveToFront k l).take (n + 1) = k :: l.take n := by
  rw [moveToFront, List.take_succ_cons]
  congr 1
  induction l generalizing n with
  | nil => rfl
  | cons x l ih =>
    rw [List.take_succ_cons, List.mem_cons, not_or] at h
    rw [List.erase_cons_tail (by simpa using Ne.symm h.1)]
    cases n with
    | zero => rfl
    | succ n => rw [List.take_succ_cons, List.take_succ_cons, ih h.2]

end

/-! ### Least recently used -/

/-- A put touches its key, and a get one that is among the last `cap`. -/
def touch (cap : Nat) (touches : List κ) : Call κ υ → List κ
  | .put k _ => k :: touches
  | .get k => if Within cap touches k then k :: touches else touches

/-- The touches of a history, the newest first. -/
def touches (cap : Nat) (calls : List (Call κ υ)) : List κ := calls.foldl (touch cap) []

def store (values : κ → Option υ) : Call κ υ → κ → Option υ
  | .put k v => Function.update values k (some v)
  | .get _ => values

/-- The value last put under a key. -/
def latest (calls : List (Call κ υ)) : κ → Option υ := calls.foldl store fun _ => none

section

variable {cap : Nat} {calls : List (Call κ υ)} {call : Call κ υ} {k : κ}

theorem touches_snoc : touches cap (calls ++ [call]) = touch cap (touches cap calls) call := by
  simp [touches]

theorem latest_snoc : latest (calls ++ [call]) = store (latest calls) call := by
  simp [latest]

/-- The keys touched are those that were put. -/
theorem latest_isSome : (latest calls k).isSome ↔ k ∈ touches cap calls := by
  induction calls using List.reverseRecOn with
  | nil => simp [latest, touches]
  | append_singleton calls call ih =>
    rw [touches_snoc, latest_snoc]
    cases call with
    | get k' =>
      rw [store, touch]
      split
      · rename_i hw
        rw [List.mem_cons, ih]
        exact ⟨.inr, fun h => h.elim (fun he => he ▸ hw.1) id⟩
      · exact ih
    | put k' v =>
      rw [store, touch, List.mem_cons]
      by_cases hk : k = k'
      · subst hk
        simp
      · rw [Function.update_of_ne hk, ih]
        exact ⟨.inr, fun h => h.resolve_left hk⟩

end

/-! ### Room for every key -/

/-- The keys put, and how many they are. -/
def putKeys (calls : List (Call κ υ)) : List κ :=
  calls.filterMap fun
    | .put k _ => some k
    | .get _ => none

def distinct (calls : List (Call κ υ)) : Nat := (putKeys calls).dedup.length

section

variable {cap : Nat} {calls : List (Call κ υ)} {call : Call κ υ} {k : κ}

theorem mem_putKeys : k ∈ putKeys calls ↔ (latest calls k).isSome := by
  rw [putKeys]
  induction calls using List.reverseRecOn with
  | nil => simp [latest]
  | append_singleton calls call ih =>
    rw [List.filterMap_append, List.mem_append, ih, latest_snoc]
    cases call with
    | get k' => simp [store]
    | put k' v =>
      by_cases hk : k = k'
      · subst hk
        simp [store]
      · simp [store, hk]

/-- Keys put, each once, are no more than there are. -/
theorem length_le_distinct {keys : List κ} (hnodup : keys.Nodup)
    (hput : ∀ k ∈ keys, (latest calls k).isSome) : keys.length ≤ distinct calls :=
  List.Nodup.length_le_of_subset hnodup fun k hk =>
    List.mem_dedup.2 (mem_putKeys.2 (hput k hk))

theorem distinct_le_length (calls : List (Call κ υ)) : distinct calls ≤ calls.length :=
  (List.dedup_sublist _).length_le.trans (List.length_filterMap_le _ _)

theorem distinct_le_snoc (calls : List (Call κ υ)) (call : Call κ υ) :
    distinct calls ≤ distinct (calls ++ [call]) := by
  refine length_le_distinct (List.nodup_dedup _) fun k hk => ?_
  rw [List.mem_dedup] at hk
  rw [← mem_putKeys, putKeys, List.filterMap_append]
  exact List.mem_append_left _ hk

/-- Where every key put fits, those touched are among the last `cap`. -/
theorem within_iff_of_room (hroom : distinct calls ≤ cap) :
    Within cap (touches cap calls) k ↔ (latest calls k).isSome := by
  rw [latest_isSome]
  refine ⟨And.left, fun hk => ⟨hk, ?_⟩⟩
  have hlt := List.idxOf_lt_length_of_mem (mem_recency.2 hk)
  have hle := length_le_distinct (nodup_recency (touches cap calls)) fun k hk =>
    latest_isSome.2 (mem_recency.1 hk)
  rw [idxOf_recency] at hlt
  omega

end

/-! ### The keys it holds -/

/-- The keys of a least-recently-used cache after the calls, the newest first. -/
def resident (cap : Nat) (calls : List (Call κ υ)) : List κ :=
  (recency (touches cap calls)).take cap

/-- What a call does to the keys held. -/
def serve (cap : Nat) (keys : List κ) : Call κ υ → List κ
  | .get k => if k ∈ keys then moveToFront k keys else keys
  | .put k _ => if k ∈ keys then moveToFront k keys else k :: keys.take (cap - 1)

/-- `keys` is `keys'`, or has `cap` of them in their order. -/
def Inside (cap : Nat) (keys keys' : List κ) : Prop :=
  keys = keys' ∨ keys.length = cap ∧ keys.Sublist keys'

section

variable {cap cap' : Nat} {calls : List (Call κ υ)} {call : Call κ υ} {k : κ} {keys keys' : List κ}

theorem length_resident_le : (resident cap calls).length ≤ cap := List.length_take_le _ _

theorem length_moveToFront (h : k ∈ keys) : (moveToFront k keys).length = keys.length := by
  have hpos := List.length_pos_of_mem h
  rw [moveToFront, List.length_cons, List.length_erase_of_mem h]
  omega

theorem resident_snoc (hcap : 0 < cap) :
    resident cap (calls ++ [call]) = serve cap (resident cap calls) call := by
  obtain ⟨m, rfl⟩ : ∃ m, cap = m + 1 := ⟨cap - 1, by omega⟩
  have hin : ∀ k, Within (m + 1) (touches (m + 1) calls) k ↔ k ∈ resident (m + 1) calls :=
    fun k => mem_take_recency.symm
  have hfront : ∀ k ∈ resident (m + 1) calls,
      (moveToFront k (recency (touches (m + 1) calls))).take (m + 1) =
        moveToFront k (resident (m + 1) calls) := fun k hk => take_moveToFront_of_mem hk
  rw [resident, touches_snoc]
  cases call with
  | get k =>
    rw [touch, serve]
    by_cases hk : k ∈ resident (m + 1) calls
    · rw [if_pos ((hin k).2 hk), if_pos hk, recency_cons, hfront k hk]
    · rw [if_neg (mt (hin k).1 hk), if_neg hk, resident]
  | put k v =>
    rw [touch, serve, recency_cons]
    by_cases hk : k ∈ resident (m + 1) calls
    · rw [if_pos hk, hfront k hk]
    · rw [if_neg hk, take_moveToFront_of_notMem hk, resident, List.take_take]
      simp

omit [DecidableEq κ] in
/-- Without the last key of both. -/
theorem take_sublist_take (hcap : cap ≤ cap') (hlen : keys.length = cap)
    (hlen' : keys'.length ≤ cap') (h : keys.Sublist keys') :
    (keys.take (cap - 1)).Sublist (keys'.take (cap' - 1)) := by
  rcases Nat.lt_or_ge keys'.length cap' with hlt | hge
  · rw [List.take_of_length_le (l := keys') (by omega)]
    exact (List.take_sublist _ _).trans h
  · obtain rfl : keys'.length = cap' := by omega
    subst hlen
    rw [← List.dropLast_eq_take, ← List.dropLast_eq_take]
    simpa using (List.reverse_sublist.2 h).tail.reverse

/-- A larger cache keeps what the smaller keeps, in the same order. -/
theorem Inside.serve (hcap : 0 < cap) (hle : cap ≤ cap') (hlen : keys.length ≤ cap)
    (hlen' : keys'.length ≤ cap') (h : Inside cap keys keys') (call : Call κ υ) :
    Inside cap (serve cap keys call) (Cache.serve cap' keys' call) := by
  have hput : ∀ k, (keys.length = cap ∧ keys.Sublist keys') →
      Inside cap (k :: keys.take (cap - 1)) (k :: keys'.take (cap' - 1)) := by
    rintro k ⟨hfull, hsub⟩
    refine .inr ⟨?_, (take_sublist_take hle hfull hlen' hsub).cons_cons k⟩
    rw [List.length_cons, List.length_take]
    omega
  rcases h with rfl | ⟨hfull, hsub⟩
  · cases call with
    | get k => exact .inl rfl
    | put k v =>
      rw [Cache.serve, Cache.serve]
      by_cases hk : k ∈ keys
      · rw [if_pos hk, if_pos hk]
        exact .inl rfl
      · rw [if_neg hk, if_neg hk]
        rcases Nat.lt_or_ge keys.length cap with hlt | hge
        · rw [List.take_of_length_le (by omega), List.take_of_length_le (by omega)]
          exact .inl rfl
        · exact hput k ⟨by omega, .refl _⟩
  · have hboth : ∀ k ∈ keys, Inside cap (moveToFront k keys) (moveToFront k keys') := fun k hk =>
      .inr ⟨by rw [length_moveToFront hk, hfull], (hsub.erase k).cons_cons k⟩
    -- a key found in the larger one only moves past those of the smaller
    have hkept : ∀ k, k ∉ keys → keys.Sublist (keys'.erase k) := by
      intro k hk
      have herase := hsub.erase k
      rwa [List.erase_of_not_mem hk] at herase
    cases call with
    | get k =>
      rw [Cache.serve, Cache.serve]
      by_cases hk : k ∈ keys
      · rw [if_pos hk, if_pos (hsub.subset hk)]
        exact hboth k hk
      · rw [if_neg hk]
        split
        · exact .inr ⟨hfull, (hkept k hk).cons k⟩
        · exact .inr ⟨hfull, hsub⟩
    | put k v =>
      rw [Cache.serve, Cache.serve]
      by_cases hk : k ∈ keys
      · rw [if_pos hk, if_pos (hsub.subset hk)]
        exact hboth k hk
      · rw [if_neg hk]
        split
        · refine .inr ⟨?_, ((List.take_sublist _ _).trans (hkept k hk)).cons_cons k⟩
          rw [List.length_cons, List.length_take]
          omega
        · exact hput k ⟨hfull, hsub⟩

theorem inside_resident (hcap : 0 < cap) (hle : cap ≤ cap') (calls : List (Call κ υ)) :
    Inside cap (resident cap calls) (resident cap' calls) := by
  induction calls using List.reverseRecOn with
  | nil => exact .inl (by simp [resident, touches, recency])
  | append_singleton calls call ih =>
    rw [resident_snoc hcap, resident_snoc (by omega)]
    exact ih.serve hcap hle length_resident_le length_resident_le call

/-- Of two capacities the larger holds all that the smaller does. -/
theorem resident_sublist (hcap : 0 < cap) (hle : cap ≤ cap') (calls : List (Call κ υ)) :
    (resident cap calls).Sublist (resident cap' calls) := by
  rcases inside_resident hcap hle calls with heq | ⟨-, hsub⟩
  · rw [heq]
  · exact hsub

end

/-! ### Least frequently used -/

/-- What a least-frequently-used cache knows of a resident key. -/
structure Entry (υ : Type*) where
  value : υ
  /-- One, and one more for every hit and overwrite since the key was inserted. -/
  freq : Nat
  /-- When the last hit or put was, in hits and puts. -/
  last : Nat

/-- Less frequently used, or as often and less recently. -/
def Entry.Before (e e' : Entry υ) : Prop := e.freq < e'.freq ∨ e.freq = e'.freq ∧ e.last < e'.last

structure Lfu (κ υ : Type*) where
  entries : AList fun _ : κ => Entry υ
  /-- The hits and puts so far. -/
  clock : Nat

namespace Lfu

def empty : Lfu κ υ := ⟨∅, 0⟩

/-- The least frequently used key, of these the one whose last hit or put is oldest. -/
def victim (entries : AList fun _ : κ => Entry υ) : Option κ :=
  (entries.entries.argmin fun e => toLex (e.2.freq, e.2.last)).map Sigma.fst

/-- Room for one more. -/
def evict (cap : Nat) (entries : AList fun _ : κ => Entry υ) : AList fun _ : κ => Entry υ :=
  if entries.keys.length = cap then
    match victim entries with
    | some k => entries.erase k
    | none => entries
  else entries

/-- A hit or an overwrite of an entry. -/
def again (r : Lfu κ υ) (k : κ) (e : Entry υ) (v : υ) : Lfu κ υ :=
  ⟨r.entries.insert k ⟨v, e.freq + 1, r.clock + 1⟩, r.clock + 1⟩

/-- The value of a resident key. -/
def get (r : Lfu κ υ) (k : κ) : Option υ × Lfu κ υ :=
  match r.entries.lookup k with
  | none => (none, r)
  | some e => (some e.value, r.again k e e.value)

def put (cap : Nat) (r : Lfu κ υ) (k : κ) (v : υ) : Lfu κ υ :=
  if cap = 0 then r
  else match r.entries.lookup k with
    | some e => r.again k e v
    | none => ⟨(evict cap r.entries).insert k ⟨v, 1, r.clock + 1⟩, r.clock + 1⟩

def step (cap : Nat) (r : Lfu κ υ) : Call κ υ → Lfu κ υ
  | .get k => (r.get k).2
  | .put k v => r.put cap k v

/-- The reference map after the calls. -/
def run (cap : Nat) (calls : List (Call κ υ)) : Lfu κ υ := calls.foldl (step cap) empty

theorem run_snoc {cap : Nat} {calls : List (Call κ υ)} {call : Call κ υ} :
    run cap (calls ++ [call]) = (run cap calls).step cap call := by simp [run]

theorem step_clock (cap : Nat) (r : Lfu κ υ) (call : Call κ υ) :
    (r.step cap call).clock ≤ r.clock + 1 := by
  cases call with
  | get k =>
    rw [step, get]
    split
    · exact Nat.le_succ _
    · exact Nat.le_refl _
  | put k v =>
    rw [step, put]
    split
    · exact Nat.le_succ _
    · split
      · exact Nat.le_refl _
      · exact Nat.le_refl _

/-- A call ticks at most once. -/
theorem run_clock (cap : Nat) (calls : List (Call κ υ)) : (run cap calls).clock ≤ calls.length := by
  induction calls using List.reverseRecOn with
  | nil => exact Nat.le_refl _
  | append_singleton calls call ih =>
    rw [run_snoc, List.length_append]
    exact (step_clock cap _ call).trans (Nat.succ_le_succ ih)

/-- The clock does not go back. -/
theorem le_step_clock (cap : Nat) (r : Lfu κ υ) (call : Call κ υ) :
    r.clock ≤ (r.step cap call).clock := by
  cases call with
  | get k =>
    rw [step, get]
    split
    · exact Nat.le_refl _
    · exact Nat.le_succ _
  | put k v =>
    rw [step, put]
    split
    · exact Nat.le_refl _
    · split
      · exact Nat.le_succ _
      · exact Nat.le_succ _

/-- With room for one every put ticks. -/
theorem run_clock_of_puts {cap : Nat} (hcap : 0 < cap) (calls : List (Call κ υ))
    (hputs : ∀ call ∈ calls, ∃ k v, call = .put k v) : (run cap calls).clock = calls.length := by
  induction calls using List.reverseRecOn with
  | nil => rfl
  | append_singleton calls call ih =>
    obtain ⟨k, v, rfl⟩ := hputs call (by simp)
    have hput : ∀ r : Lfu κ υ, (r.put cap k v).clock = r.clock + 1 := by
      intro r
      rw [put, if_neg (by omega)]
      split <;> rfl
    rw [run_snoc, step, hput, ih fun call hcall => hputs call (by simp [hcall]),
      List.length_append]
    rfl

/-- Without capacity nothing is ever stored. -/
theorem run_zero (calls : List (Call κ υ)) : (run 0 calls).entries = ∅ := by
  induction calls using List.reverseRecOn with
  | nil => rfl
  | append_singleton calls call ih =>
    rw [run_snoc]
    cases call with
    | get k =>
      rw [step, get, ih, AList.lookup_empty]
      exact ih
    | put k v => exact ih

theorem lookup_evict_eq_none {cap : Nat} {entries : AList fun _ : κ => Entry υ} {k : κ}
    (h : entries.lookup k = none) : (evict cap entries).lookup k = none := by
  rw [evict]
  split
  · split
    · rw [AList.lookup_eq_none, AList.mem_erase]
      exact fun hk => AList.lookup_eq_none.1 h hk.2
    · exact h
  · exact h

/-- An entry strictly before all the others is the victim. -/
theorem victim_eq {entries : AList fun _ : κ => Entry υ} {k : κ} {e : Entry υ}
    (h : entries.lookup k = some e)
    (hleast : ∀ k' e', entries.lookup k' = some e' → k' ≠ k → e.Before e') :
    victim entries = some k := by
  have hmem : (⟨k, e⟩ : Sigma fun _ : κ => Entry υ) ∈ entries.entries := AList.mem_lookup_iff.1 h
  unfold victim
  cases ha : entries.entries.argmin fun e => toLex (e.2.freq, e.2.last) with
  | none => rw [List.argmin_eq_none.1 ha] at hmem; cases hmem
  | some m =>
    obtain ⟨k', e'⟩ := m
    by_cases hk : k' = k
    · rw [hk]
      rfl
    · have hm : entries.lookup k' = some e' := AList.mem_lookup_iff.2 (List.argmin_mem ha)
      have hnot := List.not_lt_of_mem_argmin hmem (Option.mem_def.2 ha)
      have hlt : toLex (e.freq, e.last) < toLex (e'.freq, e'.last) :=
        Prod.Lex.toLex_lt_toLex.2 (hleast k' e' hm hk)
      exact absurd hlt hnot

/-! ### Its size -/

section

variable {cap : Nat} {entries : AList fun _ : κ => Entry υ} {k : κ}

theorem length_keys_insert (e : Entry υ) (h : k ∈ entries) :
    (entries.insert k e).keys.length = entries.keys.length := by
  have hpos := List.length_pos_of_mem (AList.mem_keys.1 h)
  rw [AList.keys_insert, List.length_cons, List.length_erase_of_mem (AList.mem_keys.1 h)]
  omega

theorem length_keys_insert_le (e : Entry υ) :
    (entries.insert k e).keys.length ≤ entries.keys.length + 1 := by
  rw [AList.keys_insert, List.length_cons]
  exact Nat.succ_le_succ List.length_erase_le

omit [DecidableEq κ] in
/-- There is a victim where there is anything, and it is one of the keys. -/
theorem exists_victim (h : 0 < entries.keys.length) :
    ∃ k, victim entries = some k ∧ k ∈ entries := by
  unfold victim
  cases ha : entries.entries.argmin fun e => toLex (e.2.freq, e.2.last) with
  | none =>
    rw [AList.keys, List.argmin_eq_none.1 ha] at h
    cases h
  | some m =>
    refine ⟨m.1, rfl, ?_⟩
    exact AList.mem_keys.2 (List.mem_map_of_mem (List.argmin_mem ha))

theorem length_evict_lt (hcap : 0 < cap) (h : entries.keys.length ≤ cap) :
    (evict cap entries).keys.length < cap := by
  unfold evict
  split
  · have hpos : 0 < entries.keys.length := by omega
    obtain ⟨k, hk, hmem⟩ := exists_victim hpos
    rw [hk]
    show (entries.erase k).keys.length < cap
    rw [AList.keys_erase, List.length_erase_of_mem (AList.mem_keys.1 hmem)]
    omega
  · omega

theorem step_length_le {r : Lfu κ υ} (h : r.entries.keys.length ≤ cap) (call : Call κ υ) :
    (r.step cap call).entries.keys.length ≤ cap := by
  have hagain : ∀ k e v, r.entries.lookup k = some e →
      (r.again k e v).entries.keys.length ≤ cap := by
    intro k e v hk
    rw [again, length_keys_insert _ (AList.lookup_isSome.1 (by rw [hk]; rfl))]
    exact h
  cases call with
  | get k =>
    rw [step, get]
    split
    · exact h
    · exact hagain k _ _ ‹_›
  | put k v =>
    rw [step, put]
    split
    · exact h
    · rename_i hne
      split
      · exact hagain k _ _ ‹_›
      · have hlt := length_evict_lt (by omega) h
        exact (length_keys_insert_le _).trans hlt

/-- The cache never holds more than `cap` keys. -/
theorem run_length_le (cap : Nat) (calls : List (Call κ υ)) :
    (run cap calls).entries.keys.length ≤ cap := by
  induction calls using List.reverseRecOn with
  | nil => exact Nat.zero_le _
  | append_singleton calls call ih =>
    rw [run_snoc]
    exact step_length_le ih call

/-- Where a key that is not held is put, the keys held are less than those put. -/
theorem length_keys_lt {r : Lfu κ υ} {calls : List (Call κ υ)} {v : υ}
    (hvalues : ∀ k, (r.entries.lookup k).map Entry.value = latest calls k)
    (hk : r.entries.lookup k = none) :
    r.entries.keys.length < distinct (calls ++ [.put k v]) := by
  have hnot : k ∉ r.entries.keys := fun h => AList.lookup_eq_none.1 hk (AList.mem_keys.2 h)
  refine length_le_distinct (List.nodup_cons.2 ⟨hnot, r.entries.keys_nodup⟩) fun k' hk' => ?_
  rw [latest_snoc, store]
  obtain rfl | hk' := List.mem_cons.1 hk'
  · simp
  · have hne : k' ≠ k := fun h => hnot (h ▸ hk')
    rw [Function.update_of_ne hne, ← hvalues, Option.isSome_map]
    exact AList.lookup_isSome.2 (AList.mem_keys.2 hk')

/-- With room for every key put the reference map holds what was put last. -/
theorem lookup_run_of_room {calls : List (Call κ υ)} (hroom : distinct calls ≤ cap) :
    ∀ k, ((run cap calls).entries.lookup k).map Entry.value = latest calls k := by
  induction calls using List.reverseRecOn with
  | nil => exact fun _ => rfl
  | append_singleton calls call ih =>
    have hvalues := ih ((distinct_le_snoc calls call).trans hroom)
    intro k'
    rw [run_snoc, latest_snoc]
    have hagain : ∀ k e v, ((Lfu.again (run cap calls) k e v).entries.lookup k').map Entry.value =
        Function.update (latest calls) k (some v) k' := by
      intro k e v
      rw [again]
      by_cases hk : k' = k
      · subst hk
        simp
      · rw [AList.lookup_insert_ne hk, Function.update_of_ne hk, hvalues]
    cases call with
    | get k =>
      rw [step, get, store]
      cases hk : (run cap calls).entries.lookup k with
      | none => exact hvalues k'
      | some e =>
        refine (hagain k e e.value).trans ?_
        have hlatest : latest calls k = some e.value := by rw [← hvalues, hk]; rfl
        rw [← hlatest, Function.update_eq_self]
    | put k v =>
      have hone : [k].length ≤ distinct (calls ++ [.put k v]) := by
        refine length_le_distinct (List.nodup_singleton k) fun k' hk' => ?_
        rw [List.mem_singleton.1 hk', latest_snoc, store]
        simp
      rw [step, put, store]
      split
      · rename_i hzero
        rw [List.length_singleton] at hone
        omega
      · cases hk : (run cap calls).entries.lookup k with
        | some e => exact hagain k e v
        | none =>
          have hless := length_keys_lt (v := v) hvalues hk
          have hkeep : evict cap (run cap calls).entries = (run cap calls).entries :=
            if_neg (by omega)
          rw [hkeep]
          exact hagain k ⟨v, 0, 0⟩ v
end

end Lfu

end Cache
