import LittleLearning.Lib.Cache
import LittleLearning.Lib.Cxx
import LittleLearning.Lib.Exec
import LittleLearning.Lib.Nodes

/-!
# The LFU cache

`LFUCache` keeps its elements in a `std::set` ordered by use count and time and
in a hash map the iterator of every key. A hit inserts the element anew and
erases the old one. `Represents` connects it to the reference map of the calls:
no two elements compare equal, so each has a node, and `begin()` is the victim.
-/

namespace LittleLearning.Algorithm

open Transition Cache

structure Elem where
  val : Int32
  key : Int32
  count : Int32
  time : Int32
  deriving DecidableEq

/-- `operator<` -/
def Elem.lt (lhs rhs : Elem) : Bool :=
  if lhs.count = rhs.count then lhs.time < rhs.time else lhs.count < rhs.count

structure LFUCache where
  datas : AList fun _ : Int32 => Iterator
  rb : Nodes Elem
  cap : Int32
  gTime : Int32

namespace LFUCache

def new (capacity : Int32) : LFUCache := ⟨∅, .empty, capacity, 0⟩

def get (c : LFUCache) (key : Int32) : Option (Int32 × LFUCache) :=
  match c.datas.lookup key with
  | none => some (-1, c)
  | some it => do
    let e ← c.rb.deref it
    let gTime := c.gTime + 1
    let (temp, rb) := c.rb.insert Elem.lt ⟨e.val, e.key, e.count + 1, gTime⟩
    let rb ← rb.erase it
    let e ← rb.deref temp
    return (e.val, { c with datas := c.datas.insert key temp, rb := rb, gTime := gTime })

/-- The first element makes room when the map has `cap` keys. -/
def evict (c : LFUCache) : Option LFUCache :=
  if c.datas.keys.length = Cxx.sizeT c.cap.toInt then do
    let it ← c.rb.begin
    let e ← c.rb.deref it
    let rb ← c.rb.erase it
    return { c with datas := c.datas.erase e.key, rb := rb }
  else some c

def put (c : LFUCache) (key value : Int32) : Option LFUCache :=
  if c.cap = 0 then some c
  else match c.datas.lookup key with
    | some it => do
      let e ← c.rb.deref it
      let gTime := c.gTime + 1
      let (temp, rb) := c.rb.insert Elem.lt ⟨value, e.key, e.count + 1, gTime⟩
      let rb ← rb.erase it
      return { c with datas := c.datas.insert key temp, rb := rb, gTime := gTime }
    | none => do
      let c ← c.evict
      let gTime := c.gTime + 1
      let (temp, rb) := c.rb.insert Elem.lt ⟨value, key, 1, gTime⟩
      return { c with datas := c.datas.insert key temp, rb := rb, gTime := gTime }

def step (c : LFUCache) : Call Int32 Int32 → Option LFUCache
  | .get key => (c.get key).map Prod.snd
  | .put key value => c.put key value

/-! ### The cache represents the reference map -/

end LFUCache

namespace Elem

/-- What the reference map knows of the element. -/
def entry (e : Elem) : Entry Int32 := ⟨e.val, e.count.toInt.toNat, e.time.toInt.toNat⟩

theorem lt_iff {lhs rhs : Elem} : lhs.lt rhs = true ↔ lhs.count.toInt < rhs.count.toInt ∨
    lhs.count.toInt = rhs.count.toInt ∧ lhs.time.toInt < rhs.time.toInt := by
  unfold lt
  split
  · rename_i h
    simp [h, Int32.lt_iff_toInt_lt]
  · rename_i h
    rw [← Int32.toInt_inj] at h
    simp [h, Int32.lt_iff_toInt_lt]

theorem lt_trans (a b c : Elem) (h : a.lt b = true) (h' : b.lt c = true) : a.lt c = true := by
  rw [lt_iff] at *
  omega

/-- The order of the set is that of the reference map. -/
theorem entry_before {a b : Elem} (h : a.lt b = true) (hcount : 0 ≤ a.count.toInt)
    (htime : 0 ≤ a.time.toInt) : a.entry.Before b.entry := by
  rw [lt_iff] at h
  simp only [Entry.Before, entry]
  omega

end Elem

theorem toInt_succ {n : Int32} (h : n.toInt + 1 < 2 ^ 31) : (n + 1).toInt = n.toInt + 1 := by
  have hlo := n.le_toInt
  rw [Int32.toInt_add]
  exact Int.bmod_eq_of_le (by simp; omega) (by simp; omega)

namespace LFUCache

structure Represents (c : LFUCache) (r : Lfu Int32 Int32) : Prop where
  index : Nodes.Indexes Elem.key c.datas c.rb
  sorted : Nodes.Sorted Elem.lt c.rb
  count : ∀ n ∈ c.rb.nodes, 1 ≤ n.2.count.toInt ∧ n.2.count.toInt ≤ r.clock
  time : ∀ n ∈ c.rb.nodes, 1 ≤ n.2.time.toInt ∧ n.2.time.toInt ≤ r.clock
  clock : c.gTime.toInt = r.clock
  entries : ∀ k, r.entries.lookup k = (Nodes.find c.datas c.rb k).map Elem.entry

variable {c : LFUCache} {r : Lfu Int32 Int32} {key value : Int32} {it : Iterator} {e : Elem}

theorem represents_new (capacity : Int32) : Represents (new capacity) Lfu.empty where
  index := .empty
  sorted := .empty
  count n hn := by cases hn
  time n hn := by cases hn
  clock := rfl
  entries k := by simp [new, Lfu.empty, Nodes.find]

theorem Represents.lookup_eq_none (h : Represents c r) :
    r.entries.lookup key = none ↔ c.datas.lookup key = none := by
  rw [h.entries, Option.map_eq_none_iff, h.index.find_eq_none]

/-- Both maps have the same keys. -/
theorem Represents.size (h : Represents c r) :
    c.datas.keys.length = r.entries.keys.length := by
  apply List.Perm.length_eq
  rw [List.perm_ext_iff_of_nodup c.datas.keys_nodup r.entries.keys_nodup]
  intro k
  rw [← AList.mem_keys, ← AList.mem_keys, ← AList.lookup_isSome, ← AList.lookup_isSome,
    ← not_iff_not, Option.not_isSome_iff_eq_none, Option.not_isSome_iff_eq_none,
    h.lookup_eq_none]

/-- The next element stands at its place in the set, under a new iterator. -/
theorem Represents.insert (h : Represents c r) (hclock : (r.clock : Int) + 1 < 2 ^ 31)
    (htime : e.time = c.gTime + 1) :
    ∃ t, c.rb.insert Elem.lt e = (c.rb.next, t) ∧ Nodes.Sorted Elem.lt t ∧
      ∀ n, n ∈ t.nodes ↔ n = (c.rb.next, e) ∨ n ∈ c.rb.nodes := by
  refine Nodes.insert_of_comparable h.sorted Elem.lt_trans fun n hn => ?_
  have hlater : n.2.time.toInt < e.time.toInt := by
    have := h.time n hn
    rw [htime, toInt_succ (by rw [h.clock]; exact hclock), h.clock]
    omega
  rw [Elem.lt_iff, Elem.lt_iff]
  omega

/-- The newest element takes the place of what there is under its key. -/
theorem Represents.renew (h : Represents c r) (hclock : (r.clock : Int) + 1 < 2 ^ 31)
    {datas : AList fun _ : Int32 => Iterator} {t : Nodes Elem}
    (hindex : Nodes.Indexes Elem.key datas t) (hsorted : Nodes.Sorted Elem.lt t)
    (hmem : ∀ n, n ∈ t.nodes ↔ n = (it, e) ∨ n ∈ c.rb.nodes ∧ n.2.key ≠ e.key)
    (htime : e.time = c.gTime + 1) (hcount : 1 ≤ e.count.toInt ∧ e.count.toInt ≤ r.clock + 1) :
    Represents { c with datas := datas, rb := t, gTime := c.gTime + 1 }
      ⟨r.entries.insert e.key e.entry, r.clock + 1⟩ := by
  have hnext : (c.gTime + 1).toInt = r.clock + 1 := by
    rw [toInt_succ (by rw [h.clock]; exact hclock), h.clock]
  refine ⟨hindex, hsorted, fun n hn => ?_, fun n hn => ?_, ?_, fun k => ?_⟩
  · push_cast
    rcases (hmem n).1 hn with rfl | ⟨hold, -⟩
    · exact hcount
    · have := h.count n hold
      omega
  · push_cast
    rcases (hmem n).1 hn with rfl | ⟨hold, -⟩
    · rw [htime, hnext]
      omega
    · have := h.time n hold
      omega
  · exact_mod_cast hnext
  · by_cases hk : k = e.key
    · subst hk
      have hfind : Nodes.find datas t e.key = some e :=
        hindex.find_eq_some.2 ⟨it, (hmem _).2 (.inl rfl), rfl⟩
      rw [hfind, AList.lookup_insert, Option.map_some]
    · rw [AList.lookup_insert_ne hk, h.entries]
      apply congrArg (Option.map Elem.entry) (h.index.find_congr hindex fun n hn => ?_).symm
      rw [hmem]
      constructor
      · rintro (rfl | ⟨hold, -⟩)
        · exact absurd hn.symm hk
        · exact hold
      · exact fun hold => .inr ⟨hold, fun he => hk (hn.symm.trans he)⟩

theorem Represents.entry_of_time (h : Represents c r) (hclock : (r.clock : Int) + 1 < 2 ^ 31)
    (htime : e.time = c.gTime + 1) : e.entry = ⟨e.val, e.count.toInt.toNat, r.clock + 1⟩ := by
  have hnext : (c.gTime + 1).toInt = r.clock + 1 := by
    rw [toInt_succ (by rw [h.clock]; exact hclock), h.clock]
  rw [Elem.entry, htime, hnext]
  rfl

/-- A hit or an overwrite: the element anew with one use more, then the old one erased. -/
theorem Represents.again (h : Represents c r) (hclock : (r.clock : Int) + 1 < 2 ^ 31)
    (he : (it, e) ∈ c.rb.nodes) (val : Int32) :
    ∃ temp t rb, c.rb.insert Elem.lt ⟨val, e.key, e.count + 1, c.gTime + 1⟩ = (temp, t) ∧
      t.erase it = some rb ∧ rb.deref temp = some ⟨val, e.key, e.count + 1, c.gTime + 1⟩ ∧
      (∀ n ∈ rb.nodes,
        n = (temp, ⟨val, e.key, e.count + 1, c.gTime + 1⟩) ∨ n ∈ c.rb.nodes) ∧
      Represents { c with datas := c.datas.insert e.key temp, rb := rb, gTime := c.gTime + 1 }
        (r.again e.key e.entry val) := by
  have hcount := h.count _ he
  simp only at hcount
  generalize hx : (⟨val, e.key, e.count + 1, c.gTime + 1⟩ : Elem) = x
  have hkey : x.key = e.key := by rw [← hx]
  have hxtime : x.time = c.gTime + 1 := by rw [← hx]
  have hxcount : x.count.toInt = e.count.toInt + 1 := by
    rw [← hx]
    exact toInt_succ (by omega)
  obtain ⟨t, ht, hsorted, hmem⟩ := h.insert hclock hxtime
  have hrb : ∀ n, n ∈ (t.without it).nodes ↔
      n = (c.rb.next, x) ∨ n ∈ c.rb.nodes ∧ n.1 ≠ it := by
    intro n
    rw [Nodes.mem_without, hmem]
    constructor
    · rintro ⟨rfl | hn, hne⟩
      · exact .inl rfl
      · exact .inr ⟨hn, hne⟩
    · rintro (rfl | ⟨hn, hne⟩)
      · exact ⟨.inl rfl, (Nodes.ne_next he).symm⟩
      · exact ⟨.inr hn, hne⟩
  have hindex : Nodes.Indexes Elem.key (c.datas.insert e.key c.rb.next) (t.without it) :=
    h.index.replace he hkey hrb
  -- the node of the key is the one erased
  have hrb' : ∀ n, n ∈ (t.without it).nodes ↔
      n = (c.rb.next, x) ∨ n ∈ c.rb.nodes ∧ n.2.key ≠ x.key := by
    intro n
    rw [hrb, hkey]
    refine or_congr_right (and_congr_right fun hn => not_congr ⟨fun hit => ?_, fun hk => ?_⟩)
    · obtain ⟨m, a⟩ := n
      obtain rfl : m = it := hit
      rw [Nodes.eq_of_mem hn he]
    · exact (h.index.inj hn he hk).1
  have hentry : x.entry = ⟨val, e.entry.freq + 1, r.clock + 1⟩ := by
    rw [h.entry_of_time hclock hxtime, hxcount, ← hx, Elem.entry, Entry.mk.injEq]
    refine ⟨rfl, ?_, rfl⟩
    show (e.count.toInt + 1).toNat = e.count.toInt.toNat + 1
    omega
  have hrep := h.renew hclock hindex hsorted.without hrb' hxtime (by omega)
  rw [hkey, hentry] at hrep
  exact ⟨_, t, _, ht, Nodes.erase_of_mem ((hmem _).2 (.inr he)),
    Nodes.deref_eq_some.2 ((hrb _).2 (.inl rfl)), fun n hn => ((hrb n).1 hn).imp_right And.left,
    hrep⟩

/-- A new element, under a key that is not in the map. -/
theorem Represents.add (h : Represents c r) (hclock : (r.clock : Int) + 1 < 2 ^ 31)
    (hnone : c.datas.lookup key = none) (value : Int32) :
    ∃ temp t, c.rb.insert Elem.lt ⟨value, key, 1, c.gTime + 1⟩ = (temp, t) ∧
      (∀ n, n ∈ t.nodes ↔ n = (temp, ⟨value, key, 1, c.gTime + 1⟩) ∨ n ∈ c.rb.nodes) ∧
      Represents { c with datas := c.datas.insert key temp, rb := t, gTime := c.gTime + 1 }
        ⟨r.entries.insert key ⟨value, 1, r.clock + 1⟩, r.clock + 1⟩ := by
  generalize hx : (⟨value, key, 1, c.gTime + 1⟩ : Elem) = x
  have hkey : x.key = key := by rw [← hx]
  have hxtime : x.time = c.gTime + 1 := by rw [← hx]
  have hxcount : x.count.toInt = 1 := by
    rw [← hx]
    rfl
  obtain ⟨t, ht, hsorted, hmem⟩ := h.insert hclock hxtime
  have hindex : Nodes.Indexes Elem.key (c.datas.insert key c.rb.next) t :=
    hkey ▸ h.index.insert (hkey.symm ▸ hnone) hmem
  have hmem' : ∀ n, n ∈ t.nodes ↔
      n = (c.rb.next, x) ∨ n ∈ c.rb.nodes ∧ n.2.key ≠ x.key := by
    intro n
    rw [hmem, hkey]
    exact or_congr_right (and_iff_left_of_imp (h.index.lookup_eq_none.1 hnone n)).symm
  have hentry : x.entry = ⟨value, 1, r.clock + 1⟩ := by
    rw [h.entry_of_time hclock hxtime, hxcount, ← hx]
    rfl
  have hrep := h.renew hclock hindex hsorted hmem' hxtime (by omega)
  rw [hkey, hentry] at hrep
  exact ⟨_, t, ht, hmem, hrep⟩

/-- The first element of the set is the victim, strictly before all the others. -/
theorem Represents.victim (h : Represents c r) (hne : c.rb.nodes ≠ []) :
    ∃ it e, c.rb.begin = some it ∧ (it, e) ∈ c.rb.nodes ∧
      Lfu.victim r.entries = some e.key ∧ r.entries.lookup e.key = some e.entry ∧
      ∀ k e', r.entries.lookup k = some e' → k ≠ e.key → e.entry.Before e' := by
  obtain ⟨it, e, hbegin, he, hleast⟩ := h.sorted.begin hne
  have hlookup : r.entries.lookup e.key = some e.entry := by
    rw [h.entries, h.index.find_eq_some.2 ⟨it, he, rfl⟩]
    rfl
  have hbefore : ∀ k e', r.entries.lookup k = some e' → k ≠ e.key → e.entry.Before e' := by
    intro k e' hk hne
    rw [h.entries, Option.map_eq_some_iff] at hk
    obtain ⟨b, hb, rfl⟩ := hk
    obtain ⟨it', hm, rfl⟩ := h.index.find_eq_some.1 hb
    have hlt : e.lt b = true := hleast (it', b) hm fun heq => hne (by rw [(Prod.mk.inj heq).2])
    have hcount : 1 ≤ e.count.toInt := (h.count _ he).1
    have htime : 1 ≤ e.time.toInt := (h.time _ he).1
    exact Elem.entry_before hlt (by omega) (by omega)
  exact ⟨it, e, hbegin, he, Lfu.victim_eq hlookup hbefore, hlookup, hbefore⟩

theorem Represents.evict (h : Represents c r) (hcap : 0 < c.cap.toInt) :
    ∃ d, c.evict = some d ∧ d.cap = c.cap ∧ d.gTime = c.gTime ∧
      (∀ n ∈ d.rb.nodes, n ∈ c.rb.nodes) ∧
      Represents d ⟨Lfu.evict c.cap.toInt.toNat r.entries, r.clock⟩ := by
  have hsize : Cxx.sizeT c.cap.toInt = c.cap.toInt.toNat := by
    have := c.cap.toInt_lt
    unfold Cxx.sizeT
    omega
  unfold LFUCache.evict Lfu.evict
  rw [hsize, ← h.size]
  by_cases hfull : c.datas.keys.length = c.cap.toInt.toNat
  · rw [if_pos hfull, if_pos hfull]
    have hne : c.rb.nodes ≠ [] := by
      obtain ⟨k, hk⟩ := List.exists_mem_of_length_pos (l := c.datas.keys) (by omega)
      rw [← AList.mem_keys, ← AList.lookup_isSome, Option.isSome_iff_exists] at hk
      obtain ⟨it, hit⟩ := hk
      obtain ⟨a, ha, -⟩ := (h.index k it).1 hit
      exact List.ne_nil_of_mem ha
    obtain ⟨it, e, hbegin, he, hvictim, -, -⟩ := h.victim hne
    have hindex := h.index.without he
    rw [hvictim]
    simp only [hbegin, Nodes.deref_eq_some.2 he, Nodes.erase_of_mem he, bind, Option.bind, pure]
    refine ⟨_, rfl, rfl, rfl, fun n hn => (Nodes.mem_without.1 hn).1, hindex, h.sorted.without,
      fun n hn => ?_, fun n hn => ?_, h.clock, fun k => ?_⟩
    · exact h.count n (Nodes.mem_without.1 hn).1
    · exact h.time n (Nodes.mem_without.1 hn).1
    · by_cases hk : k = e.key
      · subst hk
        rw [AList.lookup_erase, hindex.find_eq_none.2 (AList.lookup_erase _ _)]
        rfl
      · rw [AList.lookup_erase_ne hk, h.entries]
        refine congrArg (Option.map Elem.entry) (h.index.find_congr hindex fun n hn => ?_).symm
        rw [Nodes.mem_without]
        refine ⟨And.left, fun hm => ⟨hm, fun he' => hk ?_⟩⟩
        obtain ⟨m, a⟩ := n
        obtain rfl : m = it := he'
        rw [← hn, Nodes.eq_of_mem hm he]
  · rw [if_neg hfull, if_neg hfull]
    exact ⟨c, rfl, rfl, rfl, fun _ hn => hn, h⟩

/-! ### Calls -/

/-- What a call leaves: all as it was, or `key` with the newest element. -/
inductive After (c : LFUCache) (r : Lfu Int32 Int32) (key : Int32) :
    LFUCache → Lfu Int32 Int32 → Prop where
  | same : After c r key c r
  | renewed (d : LFUCache) (r' : Lfu Int32 Int32) (it : Iterator) (e : Elem) :
      r'.clock = r.clock + 1 → d.gTime = c.gTime + 1 → e.time = d.gTime →
      d.datas.lookup key = some it → (it, e) ∈ d.rb.nodes →
      (∀ n ∈ d.rb.nodes, n = (it, e) ∨ n ∈ c.rb.nodes) → After c r key d r'

theorem Represents.get (h : Represents c r) (key : Int32)
    (hclock : ((r.get key).2.clock : Int) < 2 ^ 31) :
    ∃ d, c.get key = some ((r.get key).1.getD (-1), d) ∧ d.cap = c.cap ∧
      Represents d (r.get key).2 ∧ After c r key d (r.get key).2 := by
  unfold LFUCache.get
  unfold Lfu.get at hclock ⊢
  cases hit : c.datas.lookup key with
  | none =>
    rw [h.lookup_eq_none.2 hit]
    exact ⟨c, rfl, rfl, h, .same⟩
  | some it =>
    obtain ⟨e, he, rfl⟩ := (h.index key it).1 hit
    rw [h.entries, h.index.find_eq_some.2 ⟨it, he, rfl⟩] at hclock ⊢
    have hlt : (r.clock : Int) + 1 < 2 ^ 31 := by exact_mod_cast hclock
    obtain ⟨temp, t, rb, hinsert, herase, hderef, hnodes, hrep⟩ := h.again hlt he e.val
    simp only [Nodes.deref_eq_some.2 he, hinsert, herase, hderef, bind, Option.bind, pure]
    exact ⟨_, rfl, rfl, hrep, .renewed _ _ temp _ rfl rfl rfl (AList.lookup_insert _)
      (Nodes.deref_eq_some.1 hderef) hnodes⟩

theorem Represents.put (h : Represents c r)
    (hclock : ((r.put c.cap.toInt.toNat key value).clock : Int) < 2 ^ 31) (hcap : 0 ≤ c.cap.toInt) :
    ∃ d, c.put key value = some d ∧ d.cap = c.cap ∧
      Represents d (r.put c.cap.toInt.toNat key value) ∧
      After c r key d (r.put c.cap.toInt.toNat key value) := by
  unfold LFUCache.put
  unfold Lfu.put at hclock ⊢
  by_cases hzero : c.cap = 0
  · rw [if_pos hzero, if_pos (by rw [hzero]; rfl)]
    exact ⟨c, rfl, rfl, h, .same⟩
  have hpos : 0 < c.cap.toInt := by
    have : c.cap.toInt ≠ 0 := fun h0 => hzero (Int32.toInt_inj.1 h0)
    omega
  rw [if_neg (by omega)] at hclock
  rw [if_neg hzero, if_neg (by omega)]
  cases hit : c.datas.lookup key with
  | some it =>
    obtain ⟨e, he, rfl⟩ := (h.index key it).1 hit
    rw [h.entries, h.index.find_eq_some.2 ⟨it, he, rfl⟩] at hclock ⊢
    have hlt : (r.clock : Int) + 1 < 2 ^ 31 := by exact_mod_cast hclock
    obtain ⟨temp, t, rb, hinsert, herase, hderef, hnodes, hrep⟩ := h.again hlt he value
    simp only [Nodes.deref_eq_some.2 he, hinsert, herase, bind, Option.bind, pure]
    exact ⟨_, rfl, rfl, hrep, .renewed _ _ temp _ rfl rfl rfl (AList.lookup_insert _)
      (Nodes.deref_eq_some.1 hderef) hnodes⟩
  | none =>
    obtain ⟨d, hevict, hd, htime, hkept, hrep⟩ := h.evict hpos
    have hnone := h.lookup_eq_none.2 hit
    have hnone' : d.datas.lookup key = none :=
      hrep.lookup_eq_none.1 (Lfu.lookup_evict_eq_none hnone)
    rw [hnone] at hclock ⊢
    have hlt : (r.clock : Int) + 1 < 2 ^ 31 := by exact_mod_cast hclock
    obtain ⟨temp, t, hinsert, hnodes, hrep'⟩ := hrep.add hlt hnone' value
    simp only [hevict, hinsert, bind, Option.bind, pure]
    refine ⟨_, rfl, hd, hrep', .renewed _ _ temp _ rfl (by rw [htime]) rfl (AList.lookup_insert _)
      ((hnodes _).2 (.inl rfl)) fun n hn => ((hnodes n).1 hn).imp_right (hkept n)⟩

theorem Represents.step (h : Represents c r) (call : Call Int32 Int32)
    (hclock : ((r.step c.cap.toInt.toNat call).clock : Int) < 2 ^ 31) (hcap : 0 ≤ c.cap.toInt) :
    ∃ d, c.step call = some d ∧ d.cap = c.cap ∧
      Represents d (r.step c.cap.toInt.toNat call) ∧
      After c r call.key d (r.step c.cap.toInt.toNat call) := by
  cases call with
  | get key =>
    obtain ⟨d, hget, hd, hrep, hafter⟩ := h.get key hclock
    exact ⟨d, by rw [LFUCache.step, hget]; rfl, hd, hrep, hafter⟩
  | put key value => exact h.put hclock hcap

/-- The cache after calls that tick the clock less than `2 ^ 31` times. -/
theorem represents_exec {capacity : Int32} (hcap : 0 ≤ capacity) (calls : List (Call Int32 Int32))
    (hclock : (Lfu.run capacity.toInt.toNat calls).clock < 2 ^ 31) :
    ∃ c, exec step (new capacity) calls = some c ∧ c.cap = capacity ∧
      Represents c (Lfu.run capacity.toInt.toNat calls) := by
  induction calls using List.reverseRecOn with
  | nil => exact ⟨_, rfl, rfl, represents_new capacity⟩
  | append_singleton calls call ih =>
    rw [Lfu.run_snoc] at hclock ⊢
    have hle := Lfu.le_step_clock capacity.toInt.toNat (Lfu.run capacity.toInt.toNat calls) call
    obtain ⟨c, hexec, rfl, hrep⟩ := ih (by omega)
    obtain ⟨d, hstep, hd, hrep', -⟩ := hrep.step call (by exact_mod_cast hclock)
      (Int32.le_iff_toInt_le.1 hcap)
    exact ⟨d, by simp [exec_append, hexec, hstep], hd, hrep'⟩

/-- After any calls a get returns what the reference map holds, `-1` exactly where it holds nothing
or `-1`. Both hold the same keys, none with capacity zero; what the reference map evicts next is
before everything else it holds. -/
theorem get_leastFrequentlyUsed {capacity : Int32} (hcap : 0 ≤ capacity)
    (calls : List (Call Int32 Int32)) (hlen : calls.length + 1 < 2 ^ 31) (key : Int32) :
    ∃ c v c' ref, ref = Lfu.run capacity.toInt.toNat calls ∧
      exec step (new capacity) calls = some c ∧ c.get key = some (v, c') ∧
      v = (ref.get key).1.getD (-1) ∧
      (v = -1 ↔ ∀ e, ref.entries.lookup key = some e → e.value = -1) ∧
      (∀ k, c.datas.lookup k = none ↔ ref.entries.lookup k = none) ∧
      (capacity = 0 → ∀ k, c.datas.lookup k = none) ∧
      (∀ k e, Lfu.victim ref.entries = some k → ref.entries.lookup k = some e →
        ∀ k' e', ref.entries.lookup k' = some e' → k' ≠ k → e.Before e') := by
  have hclock := Lfu.run_clock capacity.toInt.toNat calls
  obtain ⟨c, hexec, rfl, hrep⟩ := represents_exec hcap calls (by omega)
  have htick := Lfu.step_clock c.cap.toInt.toNat (Lfu.run c.cap.toInt.toNat calls) (.get key)
  rw [Lfu.step] at htick
  obtain ⟨c', hget, -, -, -⟩ := hrep.get key (by omega)
  refine ⟨c, _, c', _, rfl, hexec, hget, rfl, ?_, fun k => hrep.lookup_eq_none.symm, ?_, ?_⟩
  · rw [Lfu.get]
    cases (Lfu.run c.cap.toInt.toNat calls).entries.lookup key with
    | none => simp
    | some e => simp
  · rintro h0 k
    rw [← hrep.lookup_eq_none, h0]
    exact congrArg (AList.lookup k) (Lfu.run_zero calls)
  · intro k e hvictim hk k' e' hk' hne
    have hnodes : c.rb.nodes ≠ [] := by
      rw [hrep.entries, Option.map_eq_some_iff] at hk
      obtain ⟨a, ha, -⟩ := hk
      obtain ⟨it, hm, -⟩ := hrep.index.find_eq_some.1 ha
      exact List.ne_nil_of_mem hm
    obtain ⟨it, a, -, -, hvictim', hlookup, hbefore⟩ := hrep.victim hnodes
    obtain rfl : a.key = k := Option.some.inj (hvictim'.symm.trans hvictim)
    rw [← Option.some.inj (hlookup.symm.trans hk)]
    exact hbefore k' e' hk' hne

/-- The key 2 was evicted: it was used once, and 1 twice. -/
theorem get_leastFrequentlyUsed_evicted :
    ∃ c c', exec step (new 2) [.put 1 1, .put 2 2, .get 1, .put 3 3] = some c ∧
      c.get 2 = some (-1, c') := by
  obtain ⟨c, v, c', ref, rfl, hexec, hget, hv, -, -, -, -⟩ :=
    get_leastFrequentlyUsed (show (0 : Int32) ≤ 2 by decide) [.put 1 1, .put 2 2, .get 1, .put 3 3]
      (by decide) 2
  exact ⟨c, c', hexec, by rw [hget, hv]; rfl⟩

end LFUCache

end LittleLearning.Algorithm
