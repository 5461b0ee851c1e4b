import LittleLearning.Algorithm.LFUCache

/-!
# The clock of the LFU cache

Every element carries the time of its last use, so the times in the set differ
and so do the elements. The clock is an `int`: what a call needs of it holds at
every call exactly when the calls tick at most `INT_MAX` times. As long as they
do, the map and the set index the same elements.
-/

namespace LittleLearning.Algorithm

open Transition Cache

namespace LFUCache

/-- What the call passes to `insert`, and the set it is inserted into. -/
def insertion (c : LFUCache) : Call Int32 Int32 → Option (Nodes Elem × Elem)
  | .get key => do
    let it ← c.datas.lookup key
    let e ← c.rb.deref it
    return (c.rb, ⟨e.val, e.key, e.count + 1, c.gTime + 1⟩)
  | .put key value =>
    if c.cap = 0 then none
    else match c.datas.lookup key with
      | some it => do
        let e ← c.rb.deref it
        return (c.rb, ⟨value, e.key, e.count + 1, c.gTime + 1⟩)
      | none => do
        let c ← c.evict
        return (c.rb, ⟨value, key, 1, c.gTime + 1⟩)

/-- If the call inserts, `++g_time` and `count + 1` are at most `INT_MAX`, no element of the set is
equivalent to the one inserted, and the element of its key is later than all the others after it. -/
structure InOrder (c : LFUCache) (call : Call Int32 Int32) : Prop where
  time : c.insertion call ≠ none → c.gTime.toInt + 1 ≤ Cxx.intMax
  count : c.insertion call ≠ none → ∀ it e, c.datas.lookup call.key = some it →
    c.rb.deref it = some e → e.count.toInt + 1 ≤ Cxx.intMax
  insert : ∀ set x, c.insertion call = some (set, x) →
    ∀ n ∈ set.nodes, n.2.count ≠ x.count ∨ n.2.time ≠ x.time
  latest : c.insertion call ≠ none → ∀ d, c.step call = some d →
    ∃ it e, d.datas.lookup call.key = some it ∧ d.rb.deref it = some e ∧
      ∀ n ∈ d.rb.nodes, n.1 ≠ it → n.2.time.toInt < e.time.toInt

variable {c d : LFUCache} {r : Lfu Int32 Int32} {call : Call Int32 Int32}

theorem evict_kept (h : c.evict = some d) :
    d.gTime = c.gTime ∧ ∀ n ∈ d.rb.nodes, n ∈ c.rb.nodes := by
  unfold evict at h
  split at h
  · simp only [Option.bind_eq_bind, Option.bind_eq_some_iff, Option.pure_def,
      Option.some.injEq] at h
    obtain ⟨it, -, e, -, rb, herase, rfl⟩ := h
    rw [Nodes.erase_eq_some herase]
    exact ⟨rfl, fun n hn => (Nodes.mem_without.1 hn).1⟩
  · cases h
    exact ⟨rfl, fun _ hn => hn⟩

/-- The element inserted has the next time, and those of the set were there before. -/
theorem insertion_spec {set : Nodes Elem} {x : Elem} (h : c.insertion call = some (set, x)) :
    x.time = c.gTime + 1 ∧ ∀ n ∈ set.nodes, n ∈ c.rb.nodes := by
  cases call with
  | get key =>
    simp only [insertion, Option.bind_eq_bind, Option.bind_eq_some_iff, Option.pure_def,
      Option.some.injEq, Prod.mk.injEq] at h
    obtain ⟨it, -, e, -, rfl, rfl⟩ := h
    exact ⟨rfl, fun _ hn => hn⟩
  | put key value =>
    rw [insertion] at h
    by_cases hzero : c.cap = 0
    · rw [if_pos hzero] at h
      cases h
    rw [if_neg hzero] at h
    cases hit : c.datas.lookup key with
    | some it =>
      simp only [hit, Option.bind_eq_bind, Option.bind_eq_some_iff, Option.pure_def,
        Option.some.injEq, Prod.mk.injEq] at h
      obtain ⟨e, -, rfl, rfl⟩ := h
      exact ⟨rfl, fun _ hn => hn⟩
    | none =>
      simp only [hit, Option.bind_eq_bind, Option.bind_eq_some_iff, Option.pure_def,
        Option.some.injEq, Prod.mk.injEq] at h
      obtain ⟨d, hd, rfl, rfl⟩ := h
      obtain ⟨htime, hkept⟩ := evict_kept hd
      exact ⟨by rw [htime], hkept⟩

/-- The clock ticks at the calls that insert. -/
theorem Represents.ticks (h : Represents c r) (hcap : 0 ≤ c.cap.toInt) :
    (r.step c.cap.toInt.toNat call).clock =
      if (c.insertion call).isSome then r.clock + 1 else r.clock := by
  cases call with
  | get key =>
    rw [Lfu.step, Lfu.get, insertion]
    cases hit : c.datas.lookup key with
    | none =>
      rw [h.lookup_eq_none.2 hit]
      rfl
    | some it =>
      obtain ⟨e, he, rfl⟩ := (h.index key it).1 hit
      rw [h.entries, h.index.find_eq_some.2 ⟨it, he, rfl⟩]
      simp [Nodes.deref_eq_some.2 he, Lfu.again]
  | put key value =>
    rw [Lfu.step, Lfu.put, insertion]
    by_cases hzero : c.cap = 0
    · rw [if_pos hzero, if_pos (by rw [hzero]; rfl)]
      rfl
    have hpos : 0 < c.cap.toInt := by
      have : c.cap.toInt ≠ 0 := fun h0 => hzero (Int32.toInt_inj.1 h0)
      omega
    rw [if_neg hzero, if_neg (by omega)]
    cases hit : c.datas.lookup key with
    | none =>
      obtain ⟨d, hd, -⟩ := h.evict hpos
      rw [h.lookup_eq_none.2 hit]
      simp [hd]
    | some it =>
      obtain ⟨e, he, rfl⟩ := (h.index key it).1 hit
      rw [h.entries, h.index.find_eq_some.2 ⟨it, he, rfl⟩]
      simp [Nodes.deref_eq_some.2 he, Lfu.again]

/-- The times of the elements are behind the next one. -/
theorem Represents.time_lt (h : Represents c r) (hclock : (r.clock : Int) + 1 < 2 ^ 31)
    {n : Iterator × Elem} (hn : n ∈ c.rb.nodes) : n.2.time.toInt < (c.gTime + 1).toInt := by
  have htime := h.time n hn
  rw [toInt_succ (by rw [h.clock]; exact hclock), h.clock]
  omega

theorem Represents.inOrder (h : Represents c r) (hcap : 0 ≤ c.cap.toInt)
    (hclock : ((r.step c.cap.toInt.toNat call).clock : Int) < 2 ^ 31) : InOrder c call := by
  have hlt : c.insertion call ≠ none → (r.clock : Int) + 1 < 2 ^ 31 := by
    intro hne
    rw [h.ticks hcap, if_pos (Option.isSome_iff_ne_none.2 hne)] at hclock
    exact_mod_cast hclock
  refine ⟨fun hne => ?_, fun hne it e hit he => ?_, fun set x hx n hn => .inr fun htime => ?_,
    fun hne d hd => ?_⟩
  · have := hlt hne
    rw [h.clock, Cxx.intMax]
    omega
  · have := hlt hne
    have hcount : e.count.toInt ≤ r.clock := (h.count _ (Nodes.deref_eq_some.1 he)).2
    rw [Cxx.intMax]
    omega
  · obtain ⟨hxtime, hkept⟩ := insertion_spec hx
    have hlater := h.time_lt (hlt (by simp [hx])) (hkept n hn)
    rw [htime, hxtime] at hlater
    exact lt_irrefl _ hlater
  · obtain ⟨d', hstep, -, hrep, hafter⟩ := h.step call hclock hcap
    obtain rfl : d' = d := Option.some.inj (hstep.symm.trans hd)
    have htick : (r.step c.cap.toInt.toNat call).clock = r.clock + 1 := by
      rw [h.ticks hcap, if_pos (Option.isSome_iff_ne_none.2 hne)]
    generalize r.step c.cap.toInt.toNat call = r' at hafter htick
    cases hafter with
    | same => omega
    | renewed d r' it e _ htime hetime hlookup hmem hnodes =>
      refine ⟨it, e, hlookup, Nodes.deref_eq_some.2 hmem, fun n hn hne' => ?_⟩
      rcases hnodes n hn with rfl | hold
      · exact absurd rfl hne'
      · rw [hetime, htime]
        exact h.time_lt (hlt hne) hold

/-! ### How far the clock goes -/

variable {capacity : Int32}

theorem along_inOrder (hcap : 0 ≤ capacity) (calls : List (Call Int32 Int32))
    (hclock : (Lfu.run capacity.toInt.toNat calls).clock < 2 ^ 31) :
    Along step InOrder (new capacity) calls := by
  induction calls using List.reverseRecOn with
  | nil => trivial
  | append_singleton calls call ih =>
    rw [Lfu.run_snoc] at hclock
    have hle := Lfu.le_step_clock capacity.toInt.toNat (Lfu.run capacity.toInt.toNat calls) call
    have hbefore := ih (by omega)
    obtain ⟨c, hexec, rfl, hrep⟩ := represents_exec hcap calls (by omega)
    have hlast := hrep.inOrder (Int32.le_iff_toInt_le.1 hcap) (by exact_mod_cast hclock)
    exact hbefore.append hexec ⟨hlast, fun _ _ => trivial⟩

theorem clock_lt_of_along (hcap : 0 ≤ capacity) (calls : List (Call Int32 Int32))
    (h : Along step InOrder (new capacity) calls) :
    (Lfu.run capacity.toInt.toNat calls).clock < 2 ^ 31 := by
  induction calls using List.reverseRecOn with
  | nil => exact Nat.two_pow_pos 31
  | append_singleton calls call ih =>
    obtain ⟨hbefore, hlast⟩ := (along_append _ _).1 h
    have hclock := ih hbefore
    obtain ⟨c, hexec, rfl, hrep⟩ := represents_exec hcap calls hclock
    rw [Lfu.run_snoc, hrep.ticks (Int32.le_iff_toInt_le.1 hcap)]
    split
    · rename_i hsome
      have htime := (hlast c hexec).1.time (Option.isSome_iff_ne_none.1 hsome)
      rw [hrep.clock, Cxx.intMax] at htime
      omega
    · exact hclock

/-- Every call of a sequence finds the clock and the counts in range exactly when at most `INT_MAX`
of the calls are puts or gets that find their key. -/
theorem inOrder_iff (hcap : 0 ≤ capacity) (calls : List (Call Int32 Int32)) :
    Along step InOrder (new capacity) calls ↔
      ((Lfu.run capacity.toInt.toNat calls).clock : Int) ≤ Cxx.intMax := by
  have hlt : ((Lfu.run capacity.toInt.toNat calls).clock : Int) ≤ Cxx.intMax ↔
      (Lfu.run capacity.toInt.toNat calls).clock < 2 ^ 31 := by
    rw [Cxx.intMax]
    omega
  rw [hlt]
  exact ⟨clock_lt_of_along hcap calls, along_inOrder hcap calls⟩

theorem inOrder_iff_get : Along step InOrder (new 1) [.put 1 1, .get 1, .get 2] :=
  (inOrder_iff (show (0 : Int32) ≤ 1 by decide) [.put 1 1, .get 1, .get 2]).2 (by decide)

/-- The put after `INT_MAX` others. -/
theorem not_inOrder : ¬ Along step InOrder (new 1) (List.replicate (2 ^ 31) (.put 1 1)) := by
  intro h
  have hclock := clock_lt_of_along (by decide) _ h
  rw [Lfu.run_clock_of_puts (by decide) _ fun call hcall => ⟨1, 1, List.eq_of_mem_replicate hcall⟩,
    List.length_replicate] at hclock
  exact lt_irrefl _ hclock

/-! ### The two indices -/

/-- No two elements have the same time. -/
def Timed (c : LFUCache) : Prop :=
  ∀ m ∈ c.rb.nodes, ∀ n ∈ c.rb.nodes, m.2.time = n.2.time → m = n

theorem After.timed {key : Int32} {r' : Lfu Int32 Int32} (hafter : After c r key d r')
    (h : Represents c r) (hclock : (r'.clock : Int) < 2 ^ 31) (htimed : Timed c) : Timed d := by
  cases hafter with
  | same => exact htimed
  | renewed _ _ it e htick htime hetime _ _ hnodes =>
    have hlater : ∀ n ∈ c.rb.nodes, n.2.time ≠ e.time := by
      intro n hn he
      have hlt := h.time_lt (by omega) hn
      rw [he, hetime, htime] at hlt
      exact lt_irrefl _ hlt
    intro m hm n hn he
    rcases hnodes m hm with rfl | hm
    · rcases hnodes n hn with rfl | hn
      · rfl
      · exact absurd he.symm (hlater n hn)
    · rcases hnodes n hn with rfl | hn
      · exact absurd he (hlater m hm)
      · exact htimed m hm n hn he

theorem timed_exec (hcap : 0 ≤ capacity) (calls : List (Call Int32 Int32))
    (hclock : (Lfu.run capacity.toInt.toNat calls).clock < 2 ^ 31)
    (hexec : exec step (new capacity) calls = some c) : Timed c := by
  induction calls using List.reverseRecOn generalizing c with
  | nil =>
    cases hexec
    exact fun m hm => by cases hm
  | append_singleton calls call ih =>
    rw [Lfu.run_snoc] at hclock
    have hle := Lfu.le_step_clock capacity.toInt.toNat (Lfu.run capacity.toInt.toNat calls) call
    obtain ⟨b, hb, rfl, hrep⟩ := represents_exec hcap calls (by omega)
    obtain ⟨d, hstep, -, -, hafter⟩ := hrep.step call (by exact_mod_cast hclock)
      (Int32.le_iff_toInt_le.1 hcap)
    obtain rfl : d = c := by simpa [exec_append, hb, hstep] using hexec
    exact hafter.timed hrep (by exact_mod_cast hclock) (ih (by omega) hb)

/-- The map and the set index the same elements, `cap` at most, each with a key and a time of its
own. -/
structure Coherent (c : LFUCache) : Prop where
  keys : (c.rb.toList.map Elem.key).Nodup
  times : (c.rb.toList.map Elem.time).Nodup
  range : ∀ e ∈ c.rb.toList, 1 ≤ e.time.toInt ∧ e.time.toInt ≤ c.gTime.toInt
  domain : ∀ k, k ∈ c.datas ↔ k ∈ c.rb.toList.map Elem.key
  live : ∀ k it, c.datas.lookup k = some it → ∃ e, c.rb.deref it = some e ∧ e.key = k
  size : c.datas.keys.length = c.rb.size ∧ (c.rb.size : Int) ≤ c.cap.toInt

theorem Represents.coherent (h : Represents c r) (htimed : Timed c)
    (hsize : (r.entries.keys.length : Int) ≤ c.cap.toInt) : Coherent c where
  keys := h.index.nodup
  times := by
    rw [Nodes.toList, List.map_map]
    exact List.Nodup.map_on htimed (c.rb.nodup.of_map _)
  range e he := by
    obtain ⟨n, hn, rfl⟩ := List.mem_map.1 he
    rw [h.clock]
    exact h.time n hn
  domain _ := h.index.mem_iff
  live k it hit := by
    obtain ⟨e, he, hk⟩ := (h.index k it).1 hit
    exact ⟨e, Nodes.deref_eq_some.2 he, hk⟩
  size := by
    refine ⟨h.index.length_keys, ?_⟩
    rw [← h.index.length_keys, h.size]
    exact hsize

/-- Fewer than `2 ^ 31` calls use no iterator that is not valid, and leave the indices coherent. -/
theorem indices_coherent (hcap : 0 ≤ capacity) (calls : List (Call Int32 Int32))
    (hlen : calls.length < 2 ^ 31) :
    ∃ c, exec step (new capacity) calls = some c ∧ c.cap = capacity ∧ Coherent c := by
  have hclock := Lfu.run_clock capacity.toInt.toNat calls
  obtain ⟨c, hexec, rfl, hrep⟩ := represents_exec hcap calls (by omega)
  have htimed := timed_exec hcap calls (by omega) hexec
  have hsize := Lfu.run_length_le c.cap.toInt.toNat calls
  have hcap' := Int32.le_iff_toInt_le.1 hcap
  refine ⟨c, hexec, rfl, hrep.coherent htimed ?_⟩
  rw [Int32.toInt_zero] at hcap'
  omega

/-- One key was used again, the other evicted. -/
theorem indices_coherent_evicted : ∃ c,
    exec step (new 2) [.put 1 1, .put 2 2, .get 1, .put 3 3] = some c ∧ Coherent c := by
  obtain ⟨c, hexec, -, hcoherent⟩ := indices_coherent (show (0 : Int32) ≤ 2 by decide)
    [.put 1 1, .put 2 2, .get 1, .put 3 3] (by decide)
  exact ⟨c, hexec, hcoherent⟩

end LFUCache

end LittleLearning.Algorithm
