import LittleLearning.Algorithm.LFUCache
import LittleLearning.Algorithm.LruCache

/-!
# Caches with room

Where every key put fits, the two caches lose nothing and answer as a map does. For
`LFUCache` a negative capacity is room for any number of keys: `size` is compared
with it as a `size_t`.
-/

namespace LittleLearning.Algorithm

open Transition Cache

namespace LFUCache

variable {c : LFUCache} {r : Lfu Int32 Int32} {key value : Int32} {n : Nat}

/-- No element has to go for a new key. -/
theorem Represents.put_roomy (h : Represents c r) (hcap : c.cap ≠ 0) (hn : n ≠ 0)
    (hroom : r.entries.lookup key = none →
      r.entries.keys.length ≠ Cxx.sizeT c.cap.toInt ∧ r.entries.keys.length ≠ n)
    (hclock : (r.clock : Int) + 1 < 2 ^ 31) :
    ∃ d, c.put key value = some d ∧ d.cap = c.cap ∧ Represents d (r.put n key value) := by
  unfold LFUCache.put Lfu.put
  rw [if_neg hcap, if_neg hn]
  cases hit : c.datas.lookup key with
  | some it =>
    obtain ⟨e, he, rfl⟩ := (h.index key it).1 hit
    rw [h.entries, h.index.find_eq_some.2 ⟨it, he, rfl⟩]
    obtain ⟨temp, t, rb, hinsert, herase, hderef, -, hrep⟩ := h.again hclock he value
    simp only [Nodes.deref_eq_some.2 he, hinsert, herase, bind, Option.bind, pure]
    exact ⟨_, rfl, rfl, hrep⟩
  | none =>
    have hnone := h.lookup_eq_none.2 hit
    obtain ⟨hsize, hsize'⟩ := hroom hnone
    have hevict : c.evict = some c := if_neg (by rw [h.size]; exact hsize)
    have hevict' : Lfu.evict n r.entries = r.entries := if_neg hsize'
    obtain ⟨temp, t, hinsert, -, hrep⟩ := h.add hclock hit value
    rw [hnone, hevict']
    simp only [hevict, hinsert, bind, Option.bind, pure]
    exact ⟨_, rfl, rfl, hrep⟩

/-- Every key put fits. -/
def Roomy (capacity : Int32) (calls : List (Call Int32 Int32)) : Prop :=
  capacity < 0 ∨ distinct calls ≤ capacity.toInt.toNat

theorem Roomy.of_snoc {capacity : Int32} {calls : List (Call Int32 Int32)}
    {call : Call Int32 Int32} (h : Roomy capacity (calls ++ [call])) : Roomy capacity calls :=
  h.imp_right ((distinct_le_snoc calls call).trans ·)

/-- A negative `int` is a huge `size_t`. -/
theorem Roomy.lt_sizeT {capacity : Int32} {calls : List (Call Int32 Int32)}
    (h : Roomy capacity calls) (hlen : calls.length < 2 ^ 31) {size : Nat}
    (hsize : size < distinct calls) : size ≠ Cxx.sizeT capacity.toInt := by
  have hle := distinct_le_length calls
  have hlo := capacity.le_toInt
  have hhi := capacity.toInt_lt
  unfold Cxx.sizeT
  obtain hneg | hfits := h
  · rw [Int32.lt_iff_toInt_lt] at hneg
    simp at hneg
    omega
  · omega

theorem Roomy.ne_zero {capacity : Int32} {calls : List (Call Int32 Int32)}
    (h : Roomy capacity (calls ++ [.put key value])) : capacity ≠ 0 := by
  rintro rfl
  have hone : [key].length ≤ distinct (calls ++ [.put key value]) := by
    refine length_le_distinct (List.nodup_singleton key) fun k hk => ?_
    rw [List.mem_singleton.1 hk, latest_snoc, store]
    simp
  obtain hneg | hfits := h
  · exact absurd hneg (by decide)
  · have hzero : (0 : Int32).toInt.toNat = 0 := rfl
    rw [hzero] at hfits
    simp only [List.length_singleton] at hone
    omega

theorem represents_exec_roomy {capacity : Int32} (calls : List (Call Int32 Int32))
    (hlen : calls.length < 2 ^ 31) (hroom : Roomy capacity calls) :
    ∃ c, exec step (new capacity) calls = some c ∧ c.cap = capacity ∧
      Represents c (Lfu.run (2 ^ 31) calls) := by
  induction calls using List.reverseRecOn with
  | nil => exact ⟨_, rfl, rfl, represents_new capacity⟩
  | append_singleton calls call ih =>
    rw [List.length_append, List.length_singleton] at hlen
    obtain ⟨c, hexec, rfl, hrep⟩ := ih (by omega) hroom.of_snoc
    have hclock := Lfu.run_clock (2 ^ 31) calls
    have hsnoc : ∀ d, c.step call = some d → exec step (new c.cap) (calls ++ [call]) = some d :=
      fun d hs => by simp [exec_append, hexec, hs]
    rw [Lfu.run_snoc]
    cases call with
    | get key =>
      have htick := Lfu.step_clock (2 ^ 31) (Lfu.run (2 ^ 31) calls) (.get key)
      rw [Lfu.step] at htick ⊢
      obtain ⟨d, hget, hd, hrep', -⟩ := hrep.get key (by omega)
      exact ⟨d, hsnoc d (by rw [LFUCache.step, hget]; rfl), hd, hrep'⟩
    | put key value =>
      have hdistinct := distinct_le_length calls
      have hvalues := Lfu.lookup_run_of_room (show distinct calls ≤ 2 ^ 31 by omega)
      have hfits : (Lfu.run (2 ^ 31) calls).entries.lookup key = none →
          (Lfu.run (2 ^ 31) calls).entries.keys.length ≠ Cxx.sizeT c.cap.toInt ∧
            (Lfu.run (2 ^ 31) calls).entries.keys.length ≠ 2 ^ 31 := by
        intro hnone
        have hless := Lfu.length_keys_lt (v := value) hvalues hnone
        have hall := distinct_le_length (calls ++ [.put key value])
        rw [List.length_append, List.length_singleton] at hall
        refine ⟨hroom.lt_sizeT ?_ hless, by omega⟩
        rw [List.length_append, List.length_singleton]
        exact hlen
      have hput : ∃ d, c.put key value = some d ∧ d.cap = c.cap ∧
          Represents d ((Lfu.run (2 ^ 31) calls).put (2 ^ 31) key value) :=
        hrep.put_roomy hroom.ne_zero (by decide) hfits (by omega)
      obtain ⟨d, hput, hd, hrep'⟩ := hput
      exact ⟨d, hsnoc d hput, hd, hrep'⟩

/-- With room for every key put, or with a negative capacity, a get returns the value put last. -/
theorem get_of_roomy {capacity : Int32} (calls : List (Call Int32 Int32))
    (hlen : calls.length + 1 < 2 ^ 31) (hroom : Roomy capacity calls) (key : Int32) :
    ∃ c c', exec step (new capacity) calls = some c ∧
      c.get key = some ((latest calls key).getD (-1), c') := by
  obtain ⟨c, hexec, -, hrep⟩ := represents_exec_roomy calls (by omega) hroom
  have hclock := Lfu.run_clock (2 ^ 31) calls
  have htick := Lfu.step_clock (2 ^ 31) (Lfu.run (2 ^ 31) calls) (.get key)
  have hdistinct := distinct_le_length calls
  rw [Lfu.step] at htick
  obtain ⟨c', hget, -, -, -⟩ := hrep.get key (by omega)
  have hvalue := Lfu.lookup_run_of_room (show distinct calls ≤ 2 ^ 31 by omega) key
  refine ⟨c, c', hexec, hget.trans ?_⟩
  rw [← hvalue, Lfu.get]
  cases (Lfu.run (2 ^ 31) calls).entries.lookup key <;> rfl

/-- With the capacity -1. -/
theorem get_of_roomy_negative : ∃ c c',
    exec step (new (-1)) [.put 1 1, .put 2 2, .put 3 3, .put 1 4] = some c ∧
      c.get 1 = some (4, c') :=
  get_of_roomy [.put 1 1, .put 2 2, .put 3 3, .put 1 4] (by decide) (.inl (by decide)) 1

end LFUCache

namespace LruCache

/-- With room for every key put a get returns the value put last. -/
theorem get_of_fits {cap : U32} (hcap : 1 ≤ cap) (calls : List (Call S32 S32))
    (hroom : distinct calls ≤ cap.toNat) (key : S32) :
    ∃ c c', exec step (new cap) calls = some c ∧
      c.get key = some ((latest calls key).getD invalidU32.toInt64, c') := by
  obtain ⟨c, hexec, rfl, hrep⟩ := represents_exec hcap calls
  obtain ⟨c', hget, -, -⟩ := hrep.get key
  refine ⟨c, c', hexec, hget.trans ?_⟩
  cases hvalue : latest calls key with
  | none =>
    rw [if_neg fun hwithin => ?_]
    · rfl
    · have hsome := (within_iff_of_room hroom).1 hwithin
      rw [hvalue] at hsome
      cases hsome
  | some v => rw [if_pos ((within_iff_of_room hroom).2 (by rw [hvalue]; rfl))]

theorem get_of_fits_two : ∃ c c',
    exec step (new 2) [.put 1 1, .put 2 2, .get 2, .get 2, .put 2 3] = some c ∧
      c.get 1 = some (1, c') :=
  get_of_fits (show (1 : U32) ≤ 2 by decide) [.put 1 1, .put 2 2, .get 2, .get 2, .put 2 3]
    (by decide) 1

end LruCache

end LittleLearning.Algorithm
