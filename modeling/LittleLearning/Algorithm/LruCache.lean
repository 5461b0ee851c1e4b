import LittleLearning.Lib.Cache
import LittleLearning.Lib.Exec
import LittleLearning.Lib.Nodes

/-!
# The LRU cache

`LruCache` keeps its pairs in a `std::list`, the most recent in front, and in a
hash map the iterator of every key. `Represents` connects it to its calls: the
list holds the first keys of the recency order with the values put last.
-/

namespace LittleLearning.Algorithm

open Transition Cache

/-- `BasicType.h` makes `S32` a `signed long` and `U32` an `unsigned long`, of 64 bits. -/
abbrev S32 := Int64

abbrev U32 := UInt64

def invalidU32 : U32 := 0xffffffff

structure LruCache where
  capacity : U32
  cacheMap : AList fun _ : S32 => Iterator
  cacheList : Nodes (S32 × S32)

namespace LruCache

def new (cap : U32) : LruCache := ⟨cap, ∅, .empty⟩

def get (c : LruCache) (key : S32) : Option (S32 × LruCache) :=
  match c.cacheMap.lookup key with
  | none => some (invalidU32.toInt64, c)
  | some iter => do
    let item ← c.cacheList.deref iter
    let cacheList ← (c.cacheList.pushFront item).erase iter
    let front ← cacheList.begin
    return (item.2, { c with cacheList := cacheList, cacheMap := c.cacheMap.insert key front })

/-- The last pair makes room in a full list. -/
def evict (c : LruCache) : Option LruCache :=
  if c.cacheList.size = c.capacity.toNat then do
    let last ← c.cacheList.back
    let cacheList ← c.cacheList.popBack
    return { c with cacheMap := c.cacheMap.erase last.1, cacheList := cacheList }
  else some c

def put (c : LruCache) (key val : S32) : Option LruCache :=
  match c.cacheMap.lookup key with
  | some iter => do
    let cacheList ← (c.cacheList.pushFront (key, val)).erase iter
    let front ← cacheList.begin
    return { c with cacheList := cacheList, cacheMap := c.cacheMap.insert key front }
  | none => do
    let c ← c.evict
    let cacheList := c.cacheList.pushFront (key, val)
    let front ← cacheList.begin
    return { c with cacheList := cacheList, cacheMap := c.cacheMap.insert key front }

def step (c : LruCache) : Call S32 S32 → Option LruCache
  | .get key => (c.get key).map Prod.snd
  | .put key val => c.put key val

end LruCache

/-! ### The cache represents its history -/

namespace LruCache

/-- The list holds the keys of the last touches, with the values put last. -/
structure Represents (c : LruCache) (calls : List (Call S32 S32)) : Prop where
  index : Nodes.Indexes Prod.fst c.cacheMap c.cacheList
  keys : c.cacheList.toList.map Prod.fst =
    (recency (touches c.capacity.toNat calls)).take c.capacity.toNat
  values : ∀ p ∈ c.cacheList.toList, latest calls p.1 = some p.2

variable {c c' : LruCache} {calls : List (Call S32 S32)} {key val : S32} {it : Iterator}

theorem represents_new (cap : U32) : Represents (new cap) [] where
  index := .empty
  keys := by simp [new, Nodes.toList, touches, recency]
  values p hp := by simp [new, Nodes.toList] at hp

/-- A key is found exactly when it is among the last touched. -/
theorem Represents.found (h : Represents c calls) :
    (c.cacheMap.lookup key).isSome ↔
      Within c.capacity.toNat (touches c.capacity.toNat calls) key := by
  rw [← mem_take_recency, ← h.keys, Option.isSome_iff_exists]
  simp only [Nodes.toList, List.map_map, List.mem_map, Function.comp_apply]
  constructor
  · rintro ⟨it, hit⟩
    obtain ⟨a, ha, hk⟩ := (h.index key it).1 hit
    exact ⟨(it, a), ha, hk⟩
  · rintro ⟨n, hn, hk⟩
    exact ⟨n.1, (h.index key n.1).2 ⟨n.2, hn, hk⟩⟩

/-- The pair found under a key. -/
theorem Represents.pair (h : Represents c calls) (hit : c.cacheMap.lookup key = some it) :
    ∃ v, (it, (key, v)) ∈ c.cacheList.nodes ∧ latest calls key = some v := by
  obtain ⟨⟨k, v⟩, ha, rfl⟩ := (h.index key it).1 hit
  exact ⟨v, ha, h.values (k, v) (List.mem_map.2 ⟨_, ha, rfl⟩)⟩

/-- The list once the pair found is moved to the front, with the value `val`. -/
theorem Represents.refresh (h : Represents c calls) {old : S32} (call : Call S32 S32)
    (hit : c.cacheMap.lookup key = some it) (ha : (it, (key, old)) ∈ c.cacheList.nodes)
    (htouch : touch c.capacity.toNat (touches c.capacity.toNat calls) call =
      key :: touches c.capacity.toNat calls)
    (hstore : store (latest calls) call = Function.update (latest calls) key (some val)) :
    ∃ cacheList, (c.cacheList.pushFront (key, val)).erase it = some cacheList ∧
      cacheList.begin = some c.cacheList.next ∧
      Represents { c with
        cacheList := cacheList, cacheMap := c.cacheMap.insert key c.cacheList.next }
        (calls ++ [call]) := by
  have hmem : (it, (key, old)) ∈ (c.cacheList.pushFront (key, val)).nodes := by simp [ha]
  have hnodes := Nodes.without_pushFront (a := (key, val)) ha
  have hsome : (c.cacheMap.lookup key).isSome := by simp [hit]
  refine ⟨_, Nodes.erase_of_mem hmem, by simp [Nodes.begin, hnodes], ?_, ?_, ?_⟩
  · apply h.index.replace ha (b := (key, val)) rfl
    intro n
    rw [hnodes, List.mem_cons, Nodes.mem_without]
  · have hin := mem_take_recency.2 (h.found.1 hsome)
    simp only [Nodes.toList, hnodes, List.map_cons, touches_snoc, htouch, recency_cons,
      take_moveToFront_of_mem hin, ← h.keys]
    rw [moveToFront]
    congr 1
    exact h.index.keys_without ha
  · intro p hp
    rw [latest_snoc, hstore]
    simp only [Nodes.toList, hnodes, List.map_cons, List.mem_cons] at hp
    rcases hp with rfl | hp
    · simp
    · obtain ⟨n, hn, rfl⟩ := List.mem_map.1 hp
      obtain ⟨hn, hne⟩ := Nodes.mem_without.1 hn
      have hinj : n.2.1 = key → n.1 = it ∧ n.2 = (key, old) := h.index.inj hn ha
      have hk : n.2.1 ≠ key := fun he => hne (hinj he).1
      rw [Function.update_of_ne hk]
      exact h.values n.2 (List.mem_map.2 ⟨n, hn, rfl⟩)

/-- A full list loses its last pair, and there is room. -/
theorem Represents.evict (h : Represents c calls) (hcap : 0 < c.capacity.toNat)
    (hkey : c.cacheMap.lookup key = none) :
    ∃ c', c.evict = some c' ∧ c'.capacity = c.capacity ∧
      Nodes.Indexes Prod.fst c'.cacheMap c'.cacheList ∧ c'.cacheMap.lookup key = none ∧
      c'.cacheList.toList.map Prod.fst =
        (recency (touches c.capacity.toNat calls)).take (c.capacity.toNat - 1) ∧
      c'.cacheList.toList ⊆ c.cacheList.toList := by
  unfold LruCache.evict
  have hsize : c.cacheList.size = (c.cacheList.toList.map Prod.fst).length := by
    simp [Nodes.size, Nodes.toList]
  rw [h.keys, List.length_take] at hsize
  by_cases hfull : c.cacheList.size = c.capacity.toNat
  · have hne : c.cacheList.nodes ≠ [] := by
      intro hnil
      rw [Nodes.size, hnil, List.length_nil] at hfull
      omega
    obtain ⟨n, hlast, hn, hpop, hnodes⟩ := Nodes.popBack_eq hne
    rw [if_pos hfull, Nodes.back, hlast, hpop]
    refine ⟨_, rfl, rfl, h.index.without (a := n.2) hn, ?_, ?_, ?_⟩
    · by_cases hk : key = n.2.1
      · subst hk
        exact AList.lookup_erase _ _
      · rw [← hkey]
        exact AList.lookup_erase_ne hk
    · have hinit : (c.cacheList.without n.1).toList.map Prod.fst =
          (c.cacheList.toList.map Prod.fst).dropLast := by
        simp [Nodes.toList, hnodes, List.map_dropLast]
      rw [hinit, h.keys, List.dropLast_eq_take, List.length_take, List.take_take]
      congr 1
      omega
    · intro p hp
      obtain ⟨m, hm, rfl⟩ := List.mem_map.1 hp
      exact List.mem_map.2 ⟨m, (Nodes.mem_without.1 hm).1, rfl⟩
  · rw [if_neg hfull]
    refine ⟨c, rfl, rfl, h.index, hkey, ?_, List.Subset.refl _⟩
    rw [h.keys, List.take_of_length_le (by omega), List.take_of_length_le (by omega)]

theorem Represents.put (h : Represents c calls) (hcap : 0 < c.capacity.toNat) :
    ∃ c', c.put key val = some c' ∧ c'.capacity = c.capacity ∧
      Represents c' (calls ++ [.put key val]) := by
  unfold LruCache.put
  cases hit : c.cacheMap.lookup key with
  | some it =>
    obtain ⟨old, ha, -⟩ := h.pair hit
    obtain ⟨cacheList, herase, hbegin, hrep⟩ := h.refresh (.put key val) hit ha rfl rfl
    simp only [herase, hbegin, bind, Option.bind, pure]
    exact ⟨_, rfl, rfl, hrep⟩
  | none =>
    obtain ⟨d, hevict, hc, hindex, hnone, hkeys, hsub⟩ := h.evict hcap hit
    have hout : key ∉ (recency (touches c.capacity.toNat calls)).take c.capacity.toNat := by
      rw [mem_take_recency, ← h.found, hit]
      simp
    obtain ⟨m, hm⟩ : ∃ m, c.capacity.toNat = m + 1 := ⟨c.capacity.toNat - 1, by omega⟩
    simp only [hevict, bind, Option.bind, pure, Nodes.pushFront_begin]
    refine ⟨_, rfl, hc, ?_, ?_, ?_⟩
    · exact hindex.insert (a := (key, val)) hnone fun n => by simp
    · simp only [Nodes.toList, Nodes.pushFront_nodes, List.map_cons, hc, touches_snoc, touch,
        recency_cons]
      rw [hm] at hout hkeys ⊢
      rw [take_moveToFront_of_notMem hout]
      congr 1
    · intro p hp
      rw [latest_snoc, store]
      simp only [Nodes.toList, Nodes.pushFront_nodes, List.map_cons, List.mem_cons] at hp
      rcases hp with rfl | hp
      · simp
      · obtain ⟨n, hn, rfl⟩ := List.mem_map.1 hp
        rw [Function.update_of_ne (hindex.lookup_eq_none.1 hnone n hn)]
        exact h.values n.2 (hsub (List.mem_map.2 ⟨n, hn, rfl⟩))

/-- A get answers from the history. -/
theorem Represents.get (h : Represents c calls) (key : S32) :
    ∃ c', c.get key = some
        (if Within c.capacity.toNat (touches c.capacity.toNat calls) key then
          (latest calls key).getD invalidU32.toInt64 else invalidU32.toInt64, c') ∧
      c'.capacity = c.capacity ∧ Represents c' (calls ++ [.get key]) := by
  unfold LruCache.get
  cases hit : c.cacheMap.lookup key with
  | none =>
    have hout : ¬ Within c.capacity.toNat (touches c.capacity.toNat calls) key := by
      rw [← h.found, hit]
      simp
    rw [if_neg hout]
    refine ⟨c, rfl, rfl, h.index, ?_, ?_⟩
    · rw [touches_snoc, touch, if_neg hout, h.keys]
    · intro p hp
      rw [latest_snoc]
      exact h.values p hp
  | some it =>
    have hin : Within c.capacity.toNat (touches c.capacity.toNat calls) key := by
      rw [← h.found, hit]
      rfl
    obtain ⟨v, ha, hv⟩ := h.pair hit
    have hstore : store (latest calls) (.get key) =
        Function.update (latest calls) key (some v) := by
      rw [← hv, Function.update_eq_self]
      rfl
    obtain ⟨cacheList, herase, hbegin, hrep⟩ :=
      h.refresh (.get key) hit ha (if_pos hin) hstore
    rw [if_pos hin, hv]
    simp only [Nodes.deref_eq_some.2 ha, herase, hbegin, bind, Option.bind, pure]
    exact ⟨_, rfl, rfl, hrep⟩

/-- Every call succeeds, and what follows represents the longer history. -/
theorem Represents.step (h : Represents c calls) (hcap : 0 < c.capacity.toNat)
    (call : Call S32 S32) :
    ∃ c', c.step call = some c' ∧ c'.capacity = c.capacity ∧ Represents c' (calls ++ [call]) := by
  cases call with
  | get key =>
    obtain ⟨c', hget, hc, hrep⟩ := h.get key
    exact ⟨c', by rw [LruCache.step, hget]; rfl, hc, hrep⟩
  | put key val => exact h.put hcap

theorem represents_exec {cap : U32} (hcap : 1 ≤ cap) (calls : List (Call S32 S32)) :
    ∃ c, exec step (new cap) calls = some c ∧ c.capacity = cap ∧ Represents c calls := by
  have hpos : 0 < cap.toNat := by
    rw [UInt64.le_iff_toNat_le] at hcap
    exact hcap
  induction calls using List.reverseRecOn with
  | nil => exact ⟨_, rfl, rfl, represents_new cap⟩
  | append_singleton calls call ih =>
    obtain ⟨c, hexec, hc, hrep⟩ := ih
    obtain ⟨c', hstep, hc', hrep'⟩ := hrep.step (by rw [hc]; exact hpos) call
    exact ⟨c', by simp [exec_append, hexec, hstep], hc'.trans hc, hrep'⟩

/-- After any calls a get returns the value put last under the key if fewer than `cap` other keys
were touched since the key was, and `INVALID_U32` if that many were or it was never put. A call
touches the key exactly when it is a put or its key is found. -/
theorem get_leastRecentlyUsed {cap : U32} (hcap : 1 ≤ cap) (calls : List (Call S32 S32))
    (key : S32) :
    ∃ c r c', exec step (new cap) calls = some c ∧ c.get key = some (r, c') ∧
      ((c.cacheMap.lookup key).isSome ↔ Within cap.toNat (touches cap.toNat calls) key) ∧
      (∀ v, latest calls key = some v →
        othersSince (touches cap.toNat calls) key < cap.toNat → r = v) ∧
      (latest calls key = none ∨ cap.toNat ≤ othersSince (touches cap.toNat calls) key →
        r = invalidU32.toInt64) := by
  obtain ⟨c, hexec, rfl, hrep⟩ := represents_exec hcap calls
  obtain ⟨c', hget, -, -⟩ := hrep.get key
  refine ⟨c, _, c', hexec, hget, hrep.found, fun v hv hlt => ?_, ?_⟩
  · have hin : key ∈ touches c.capacity.toNat calls := latest_isSome.1 (by simp [hv])
    rw [if_pos ⟨hin, hlt⟩, hv]
    rfl
  · rintro (hnone | hge)
    · rw [hnone]
      exact ite_self _
    · exact if_neg fun hw => Nat.not_lt.2 hge hw.2

/-- The key 2 has gone: 1 and 3 were touched since. -/
theorem get_leastRecentlyUsed_gone :
    ∃ c c', exec step (new 2) [.put 1 1, .put 2 2, .get 1, .put 3 3] = some c ∧
      c.get 2 = some (4294967295, c') := by
  obtain ⟨c, r, c', hexec, hget, -, -, hgone⟩ :=
    get_leastRecentlyUsed (show (1 : U32) ≤ 2 by decide) [.put 1 1, .put 2 2, .get 1, .put 3 3] 2
  exact ⟨c, c', hexec, by rw [hget, hgone (.inr (by decide))]; rfl⟩

/-! ### The list and the map -/

/-- The map takes the keys of the list, `capacity` at most and all different, to their nodes. -/
structure Coherent (c : LruCache) : Prop where
  keys : (c.cacheList.toList.map Prod.fst).Nodup
  domain : ∀ k, k ∈ c.cacheMap ↔ k ∈ c.cacheList.toList.map Prod.fst
  live : ∀ k it, c.cacheMap.lookup k = some it → ∃ val, c.cacheList.deref it = some (k, val)
  size : c.cacheList.size ≤ c.capacity.toNat

theorem Represents.size_le (h : Represents c calls) : c.cacheList.size ≤ c.capacity.toNat := by
  have hsize : c.cacheList.size = (c.cacheList.toList.map Prod.fst).length := by
    simp [Nodes.size, Nodes.toList]
  rw [hsize, h.keys]
  exact length_resident_le

theorem Represents.coherent (h : Represents c calls) : Coherent c where
  keys := h.index.nodup
  domain _ := h.index.mem_iff
  live k it hit := by
    obtain ⟨val, hmem, -⟩ := h.pair hit
    exact ⟨val, Nodes.deref_eq_some.2 hmem⟩
  size := h.size_le

/-- No call uses an iterator that is not valid, and all leave the list and the map coherent. -/
theorem list_map_coherent {cap : U32} (hcap : 1 ≤ cap) (calls : List (Call S32 S32)) :
    ∃ c, exec step (new cap) calls = some c ∧ c.capacity = cap ∧ Coherent c := by
  obtain ⟨c, hexec, hc, hrep⟩ := represents_exec hcap calls
  exact ⟨c, hexec, hc, hrep.coherent⟩

/-- One key was hit, one overwritten, one evicted. -/
theorem list_map_coherent_evicted : ∃ c,
    exec step (new 2) [.put 1 1, .put 2 2, .get 1, .put 1 5, .put 3 3] = some c ∧ Coherent c := by
  obtain ⟨c, hexec, -, hcoherent⟩ := list_map_coherent (show (1 : U32) ≤ 2 by decide)
    [.put 1 1, .put 2 2, .get 1, .put 1 5, .put 3 3]
  exact ⟨c, hexec, hcoherent⟩

/-! ### The capacity -/

/-- Every call is defined, and after each the list has `cap` pairs at most. -/
def Respects (cap : U32) (calls : List (Call S32 S32)) : Prop :=
  (exec step (new cap) calls).isSome ∧
    Always step (fun c => c.cacheList.size ≤ cap.toNat) (new cap) calls

/-- A put into the cache of capacity zero finds its empty list full. -/
theorem put_zero (key val : S32) : (new 0).put key val = none := rfl

theorem get_new (cap : U32) (key : S32) :
    (new cap).get key = some (invalidU32.toInt64, new cap) := rfl

theorem exec_zero (calls : List (Call S32 S32)) :
    (exec step (new 0) calls).isSome ↔ ∀ call ∈ calls, ∃ key, call = .get key := by
  induction calls with
  | nil => simp
  | cons call calls ih =>
    cases call with
    | get key =>
      have hstep : (new 0).step (.get key) = some (new 0) := by rw [step, get_new]; rfl
      rw [exec_cons, hstep, Option.bind_some, ih, List.forall_mem_cons]
      exact ⟨fun h => ⟨⟨key, rfl⟩, h⟩, And.right⟩
    | put key val =>
      have hstep : (new 0).step (.put key val) = none := put_zero key val
      rw [exec_cons, hstep, List.forall_mem_cons]
      refine ⟨fun h => (Bool.false_ne_true h).elim, fun h => ?_⟩
      obtain ⟨k, hk⟩ := h.1
      cases hk

/-- The cache of capacity zero stays empty as long as it is defined. -/
theorem eq_new_of_exec_zero (hexec : exec step (new 0) calls = some c) : c = new 0 := by
  apply invariant (I := fun c => c = new 0) _ rfl hexec
  rintro c call c' rfl hstep
  cases call with
  | get key => exact (Option.some.inj hstep).symm
  | put key val => cases hstep

theorem one_le_of_ne_zero {cap : U32} (h : cap ≠ 0) : 1 ≤ cap :=
  UInt64.le_iff_toNat_le.2 (Nat.pos_of_ne_zero fun he => h (UInt64.toNat.inj he))

theorem size_le_of_exec {cap : U32} (hexec : exec step (new cap) calls = some c) :
    c.cacheList.size ≤ cap.toNat := by
  by_cases hcap : cap = 0
  · subst hcap
    rw [eq_new_of_exec_zero hexec]
    exact Nat.zero_le _
  · obtain ⟨c', hexec', rfl, hrep⟩ := represents_exec (one_le_of_ne_zero hcap) calls
    obtain rfl : c' = c := Option.some.inj (hexec'.symm.trans hexec)
    exact hrep.size_le

theorem always_size (cap : U32) (calls : List (Call S32 S32)) :
    Always step (fun c => c.cacheList.size ≤ cap.toNat) (new cap) calls := by
  apply always_of_along (P := fun _ _ => True) (I := Reachable step (new cap))
  · rintro c ⟨before, hc⟩
    exact size_le_of_exec hc
  · rintro c call c' ⟨before, hc⟩ - hstep
    exact ⟨before ++ [call], by simp [exec_append, hc, hstep]⟩
  · exact ⟨[], rfl⟩
  · exact along_of_forall fun _ _ _ => trivial

/-- The capacity is respected unless it is zero and something is put. -/
theorem respects_iff (cap : U32) (calls : List (Call S32 S32)) :
    Respects cap calls ↔ 1 ≤ cap ∨ ∀ call ∈ calls, ∃ key, call = .get key := by
  rw [Respects, and_iff_left (always_size cap calls)]
  by_cases hcap : cap = 0
  · subst hcap
    rw [exec_zero]
    exact ⟨.inr, fun h => h.resolve_left (by decide)⟩
  · have hpos := one_le_of_ne_zero hcap
    obtain ⟨c, hexec, -⟩ := represents_exec hpos calls
    exact iff_of_true (by rw [hexec]; rfl) (.inl hpos)

/-- The first put into a cache of capacity zero takes the last pair of its empty list. -/
theorem not_respects : ¬ Respects 0 [.put 1 1] := fun h => Bool.false_ne_true h.1

/-! ### Two capacities -/

theorem Represents.mem_iff {key : S32} (h : Represents c calls) :
    key ∈ c.cacheMap ↔ key ∈ resident c.capacity.toNat calls := by
  rw [h.index.mem_iff, h.keys]
  rfl

/-- The pairs are the keys held with the values put last. -/
theorem Represents.mem_toList {p : S32 × S32} (h : Represents c calls) :
    p ∈ c.cacheList.toList ↔
      p.1 ∈ resident c.capacity.toNat calls ∧ latest calls p.1 = some p.2 := by
  have hkeys : c.cacheList.toList.map Prod.fst = resident c.capacity.toNat calls := h.keys
  rw [← hkeys]
  constructor
  · exact fun hp => ⟨List.mem_map_of_mem hp, h.values p hp⟩
  · rintro ⟨hmem, hval⟩
    obtain ⟨q, hq, hk⟩ := List.mem_map.1 hmem
    have hqval := h.values q hq
    rw [hk, hval] at hqval
    obtain rfl : p = q := Prod.ext hk.symm (Option.some.inj hqval)
    exact hq

/-- What a get of a key held answers. -/
theorem Represents.get_of_mem (h : Represents c calls) (hkey : key ∈ c.cacheMap) :
    ∃ c', c.get key = some ((latest calls key).getD invalidU32.toInt64, c') := by
  obtain ⟨c', hget, -, -⟩ := h.get key
  have hin : Within c.capacity.toNat (touches c.capacity.toNat calls) key := by
    rw [← h.found, AList.lookup_isSome]
    exact hkey
  rw [if_pos hin] at hget
  exact ⟨c', hget⟩

/-- After any calls on two caches the larger holds every pair of the smaller: a key found in the
smaller is found in the larger, with the same value. -/
theorem larger_keeps {cap cap' : U32} (hcap : 1 ≤ cap) (hle : cap ≤ cap')
    (calls : List (Call S32 S32)) :
    ∃ c d, exec step (new cap) calls = some c ∧ exec step (new cap') calls = some d ∧
      c.cacheList.toList ⊆ d.cacheList.toList ∧
      ∀ key, key ∈ c.cacheMap → key ∈ d.cacheMap ∧
        ∃ r c' d', c.get key = some (r, c') ∧ d.get key = some (r, d') := by
  obtain ⟨c, hc, rfl, hrepc⟩ := represents_exec hcap calls
  obtain ⟨d, hd, rfl, hrepd⟩ := represents_exec (UInt64.le_trans hcap hle) calls
  rw [UInt64.le_iff_toNat_le] at hcap hle
  have hsub := (resident_sublist hcap hle calls).subset
  refine ⟨c, d, hc, hd, fun p hp => ?_, fun key hkey => ?_⟩
  · obtain ⟨hmem, hval⟩ := hrepc.mem_toList.1 hp
    exact hrepd.mem_toList.2 ⟨hsub hmem, hval⟩
  · have hkey' := hrepd.mem_iff.2 (hsub (hrepc.mem_iff.1 hkey))
    obtain ⟨c', hget⟩ := hrepc.get_of_mem hkey
    obtain ⟨d', hget'⟩ := hrepd.get_of_mem hkey'
    exact ⟨hkey', _, c', d', hget, hget'⟩

/-- The get of 1 hits only in the larger, and the key 3 is in both. -/
theorem larger_keeps_three : ∃ c d,
    exec step (new 1) [.put 1 1, .put 2 2, .get 1, .put 3 3] = some c ∧
      exec step (new 2) [.put 1 1, .put 2 2, .get 1, .put 3 3] = some d ∧
      c.cacheList.toList ⊆ d.cacheList.toList := by
  obtain ⟨c, d, hc, hd, hsub, -⟩ := larger_keeps (show (1 : U32) ≤ 1 by decide)
    (show (1 : U32) ≤ 2 by decide) [.put 1 1, .put 2 2, .get 1, .put 3 3]
  exact ⟨c, d, hc, hd, hsub⟩

end LruCache

end LittleLearning.Algorithm
