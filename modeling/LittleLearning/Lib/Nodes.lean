import Mathlib.Data.List.AList
import Mathlib.Data.List.Basic
import Mathlib.Data.List.Nodup
import Mathlib.Data.List.TakeWhile

/-!
# Node containers

`std::list` and `std::set` keep each element in a node of its own, and an
iterator is the address of a node: it stays valid until that node is erased.
`Nodes` is such a container, its nodes in order, an address never used twice.
What the standard leaves undefined, an erased iterator used or the last element
of nothing asked for, is `none`.

`Indexes` relates a hash map of iterators to the container it points into.
-/

abbrev Iterator := Nat

structure Nodes (α : Type*) where
  nodes : List (Iterator × α)
  /-- The address of the next node. -/
  next : Iterator
  nodup : (nodes.map Prod.fst).Nodup
  fresh : ∀ n ∈ nodes, n.1 < next

namespace Nodes

variable {α κ : Type*}

def empty : Nodes α := ⟨[], 0, List.nodup_nil, by simp⟩

def size (s : Nodes α) : Nat := s.nodes.length

/-- The elements in order. -/
def toList (s : Nodes α) : List α := s.nodes.map Prod.snd

/-- `begin()`, `none` for `end()`. -/
def begin (s : Nodes α) : Option Iterator := s.nodes.head?.map Prod.fst

/-- `*it` -/
def deref (s : Nodes α) (it : Iterator) : Option α :=
  (s.nodes.find? fun n => n.1 = it).map Prod.snd

def back (s : Nodes α) : Option α := s.nodes.getLast?.map Prod.snd

/-- The node at `it` taken out. -/
def without (s : Nodes α) (it : Iterator) : Nodes α where
  nodes := s.nodes.filter fun n => n.1 ≠ it
  next := s.next
  nodup := s.nodup.sublist (List.filter_sublist.map _)
  fresh n h := s.fresh n (List.mem_of_mem_filter h)

def erase (s : Nodes α) (it : Iterator) : Option (Nodes α) :=
  if (s.deref it).isSome then some (s.without it) else none

def popBack (s : Nodes α) : Option (Nodes α) :=
  s.nodes.getLast?.map fun n => s.without n.1

theorem next_notMem (s : Nodes α) : s.next ∉ s.nodes.map Prod.fst := by
  intro h
  obtain ⟨n, hn, he⟩ := List.mem_map.1 h
  exact absurd (s.fresh n hn) (by rw [he]; exact Nat.lt_irrefl _)

/-- A new node for `a` between `l` and `r`. -/
def place (s : Nodes α) (a : α) (l r : List (Iterator × α)) (h : s.nodes = l ++ r) : Nodes α where
  nodes := l ++ (s.next, a) :: r
  next := s.next + 1
  nodup := by
    have hn := s.next_notMem
    have hd := s.nodup
    rw [h] at hn hd
    simp only [List.map_append, List.map_cons] at hn hd ⊢
    exact List.nodup_middle.2 (List.nodup_cons.2 ⟨hn, hd⟩)
  fresh n hn := by
    rcases List.mem_append.1 hn with hn | hn
    · exact Nat.lt_succ_of_lt (s.fresh n (by simp [h, hn]))
    · rcases List.mem_cons.1 hn with rfl | hn
      · exact Nat.lt_succ_self _
      · exact Nat.lt_succ_of_lt (s.fresh n (by simp [h, hn]))

def pushFront (s : Nodes α) (a : α) : Nodes α := s.place a [] s.nodes rfl

/-- `insert` of a set ordered by `lt`: at the first element that is not less than `a`. Where that
one is equivalent to `a` nothing is inserted and the iterator is to it. -/
def insert (lt : α → α → Bool) (s : Nodes α) (a : α) : Iterator × Nodes α :=
  let l := s.nodes.takeWhile fun n => lt n.2 a
  let r := s.nodes.dropWhile fun n => lt n.2 a
  match r.head? with
  | some n =>
    if lt a n.2 then (s.next, s.place a l r List.takeWhile_append_dropWhile.symm) else (n.1, s)
  | none => (s.next, s.place a l r List.takeWhile_append_dropWhile.symm)

/-! ### Nodes and elements -/

variable {s t : Nodes α} {it it' : Iterator} {a b : α}

@[simp] theorem empty_nodes : (empty : Nodes α).nodes = [] := rfl

@[simp] theorem place_nodes {l r : List (Iterator × α)} (h : s.nodes = l ++ r) :
    (s.place a l r h).nodes = l ++ (s.next, a) :: r := rfl

@[simp] theorem pushFront_nodes : (s.pushFront a).nodes = (s.next, a) :: s.nodes := rfl

@[simp] theorem pushFront_begin : (s.pushFront a).begin = some s.next := rfl

theorem mem_place {l r : List (Iterator × α)} (h : s.nodes = l ++ r) {n : Iterator × α} :
    n ∈ (s.place a l r h).nodes ↔ n = (s.next, a) ∨ n ∈ s.nodes := by
  rw [place_nodes, h]
  simp only [List.mem_append, List.mem_cons]
  tauto

@[simp] theorem mem_without {n : Iterator × α} :
    n ∈ (s.without it).nodes ↔ n ∈ s.nodes ∧ n.1 ≠ it := by
  simp [without]

/-- One node stands at an address. -/
theorem eq_of_mem (h : (it, a) ∈ s.nodes) (h' : (it, b) ∈ s.nodes) : a = b :=
  (Prod.mk.inj (List.inj_on_of_nodup_map s.nodup h h' rfl)).2

theorem deref_eq_some : s.deref it = some a ↔ (it, a) ∈ s.nodes := by
  unfold deref
  constructor
  · intro h
    obtain ⟨n, hn, rfl⟩ := Option.map_eq_some_iff.1 h
    have hit : n.1 = it := by simpa using List.find?_some hn
    exact hit ▸ List.mem_of_find?_eq_some hn
  · intro h
    cases hf : s.nodes.find? fun n => n.1 = it with
    | none => exact absurd (List.find?_eq_none.1 hf _ h) (by simp)
    | some n =>
      have hit : n.1 = it := by simpa using List.find?_some hf
      have hn : (it, n.2) ∈ s.nodes := hit ▸ List.mem_of_find?_eq_some hf
      exact congrArg some (eq_of_mem hn h)

theorem erase_of_mem (h : (it, a) ∈ s.nodes) : s.erase it = some (s.without it) := by
  rw [erase, deref_eq_some.2 h]
  rfl

theorem erase_eq_some (h : s.erase it = some t) : t = s.without it := by
  unfold erase at h
  split at h
  · exact (Option.some.inj h).symm
  · cases h

/-- A new node is not at the address of an old one. -/
theorem ne_next (h : (it, a) ∈ s.nodes) : it ≠ s.next := Nat.ne_of_lt (s.fresh _ h)

theorem without_pushFront (h : (it, b) ∈ s.nodes) :
    ((s.pushFront a).without it).nodes = (s.next, a) :: (s.without it).nodes := by
  simp [without, (ne_next h).symm]

/-- Without its last node. -/
theorem popBack_eq (h : s.nodes ≠ []) : ∃ n, s.nodes.getLast? = some n ∧ n ∈ s.nodes ∧
    s.popBack = some (s.without n.1) ∧ (s.without n.1).nodes = s.nodes.dropLast := by
  obtain ⟨l, n, hl⟩ := List.eq_nil_or_concat s.nodes |>.resolve_left h
  have hd := s.nodup
  rw [hl] at hd
  simp only [List.concat_eq_append, List.map_append, List.map_cons, List.map_nil] at hd
  have hn : ∀ m ∈ l, m.1 ≠ n.1 := fun m hm he =>
    (List.disjoint_of_nodup_append hd) (List.mem_map.2 ⟨m, hm, rfl⟩) (by simp [he])
  refine ⟨n, by simp [hl], by simp [hl], by simp [popBack, hl], ?_⟩
  have hself : [n].filter (fun m => decide (m.1 ≠ n.1)) = [] := by simp
  have hrest : l.filter (fun m => decide (m.1 ≠ n.1)) = l := by simpa using hn
  show s.nodes.filter (fun m => decide (m.1 ≠ n.1)) = s.nodes.dropLast
  rw [hl, List.concat_eq_append, List.filter_append, hself, hrest, List.append_nil,
    List.dropLast_concat]

/-! ### A set in order -/

def Sorted (lt : α → α → Bool) (s : Nodes α) : Prop :=
  s.nodes.Pairwise fun m n => lt m.2 n.2 = true

variable {lt : α → α → Bool}

theorem Sorted.empty : Sorted lt (empty : Nodes α) := List.Pairwise.nil

theorem Sorted.without (h : Sorted lt s) : Sorted lt (s.without it) := List.Pairwise.filter _ h

/-- `begin()` is less than all the others. -/
theorem Sorted.begin (h : Sorted lt s) (hne : s.nodes ≠ []) :
    ∃ it a, s.begin = some it ∧ (it, a) ∈ s.nodes ∧
      ∀ n ∈ s.nodes, n ≠ (it, a) → lt a n.2 = true := by
  obtain ⟨⟨it, a⟩, l, hl⟩ := List.exists_cons_of_ne_nil hne
  unfold Sorted at h
  rw [hl, List.pairwise_cons] at h
  refine ⟨it, a, by simp [Nodes.begin, hl], by simp [hl], fun n hn hne => ?_⟩
  rw [hl, List.mem_cons] at hn
  exact h.1 n (hn.resolve_left hne)

/-- An element that compares with all the others gets a node of its own. -/
theorem insert_of_comparable (h : Sorted lt s) (htrans : ∀ a b c, lt a b → lt b c → lt a c)
    (hcmp : ∀ n ∈ s.nodes, lt n.2 a = true ∨ lt a n.2 = true) :
    ∃ t, s.insert lt a = (s.next, t) ∧ Sorted lt t ∧
      ∀ n, n ∈ t.nodes ↔ n = (s.next, a) ∨ n ∈ s.nodes := by
  have hsplit : s.nodes.takeWhile (fun n => lt n.2 a) ++ s.nodes.dropWhile (fun n => lt n.2 a) =
      s.nodes := List.takeWhile_append_dropWhile
  have hbefore : ∀ n ∈ s.nodes.takeWhile (fun n => lt n.2 a), lt n.2 a = true := fun n hn =>
    List.mem_takeWhile_imp (p := fun n : Iterator × α => lt n.2 a) hn
  have hafter : ∀ n ∈ s.nodes.dropWhile (fun n => lt n.2 a), lt a n.2 = true := by
    unfold Sorted at h
    rw [← hsplit] at h
    cases hr : s.nodes.dropWhile (fun n => lt n.2 a) with
    | nil => simp
    | cons m r =>
      have hm : lt a m.2 = true := by
        have hnot : lt m.2 a = false := by
          have := List.head?_dropWhile_not (fun n : Iterator × α => lt n.2 a) s.nodes
          simpa [hr] using this
        have hmem : m ∈ s.nodes := by rw [← hsplit, hr]; simp
        rcases hcmp m hmem with hc | hc
        · simp [hnot] at hc
        · exact hc
      rw [hr] at h
      have hrest := (List.pairwise_cons.1 (List.pairwise_append.1 h).2.1).1
      intro n hn
      rcases List.mem_cons.1 hn with rfl | hn
      · exact hm
      · exact htrans _ _ _ hm (hrest n hn)
  have hplace : s.insert lt a = (s.next, s.place a _ _ hsplit.symm) := by
    unfold Nodes.insert
    dsimp only
    split
    · rename_i m hm
      exact if_pos (hafter m (List.mem_of_mem_head? hm))
    · rfl
  refine ⟨_, hplace, ?_, fun n => mem_place hsplit.symm⟩
  unfold Sorted at h ⊢
  rw [← hsplit] at h
  obtain ⟨h1, h2, h12⟩ := List.pairwise_append.1 h
  rw [place_nodes, List.pairwise_append, List.pairwise_cons]
  refine ⟨h1, ⟨hafter, h2⟩, fun m hm n hn => ?_⟩
  rcases List.mem_cons.1 hn with rfl | hn
  · exact hbefore m hm
  · exact h12 m hm n hn

/-! ### A hash map of iterators -/

variable [DecidableEq κ]

/-- `map` takes the key of each element, and nothing else, to the node of the element. -/
def Indexes (key : α → κ) (map : AList fun _ : κ => Iterator) (s : Nodes α) : Prop :=
  ∀ k it, map.lookup k = some it ↔ ∃ a, (it, a) ∈ s.nodes ∧ key a = k

variable {key : α → κ} {map : AList fun _ : κ => Iterator} {k : κ}

theorem Indexes.empty : Indexes key ∅ (empty : Nodes α) := by
  intro k it
  simp

theorem Indexes.lookup (h : Indexes key map s) (hm : (it, a) ∈ s.nodes) :
    map.lookup (key a) = some it := (h _ _).2 ⟨a, hm, rfl⟩

/-- An element is known by its key. -/
theorem Indexes.inj (h : Indexes key map s) (ha : (it, a) ∈ s.nodes) (hb : (it', b) ∈ s.nodes)
    (hk : key a = key b) : it = it' ∧ a = b := by
  have hit : it = it' := Option.some.inj ((h.lookup ha).symm.trans (hk ▸ h.lookup hb))
  subst hit
  exact ⟨rfl, eq_of_mem ha hb⟩

theorem Indexes.lookup_eq_none (h : Indexes key map s) :
    map.lookup k = none ↔ ∀ n ∈ s.nodes, key n.2 ≠ k := by
  constructor
  · intro hn n hm hk
    have hl : map.lookup (key n.2) = some n.1 := h.lookup hm
    rw [← hk, hl] at hn
    cases hn
  · intro hall
    cases hl : map.lookup k with
    | none => rfl
    | some it =>
      obtain ⟨a, ha, hk⟩ := (h k it).1 hl
      exact absurd hk (hall _ ha)

theorem Indexes.nodup (h : Indexes key map s) : (s.toList.map key).Nodup := by
  rw [toList, List.map_map]
  exact List.Nodup.map_on (fun m hm n hn he => by
    obtain ⟨h1, h2⟩ : m.1 = n.1 ∧ m.2 = n.2 := h.inj hm hn he
    exact Prod.ext h1 h2) (s.nodup.of_map _)

/-- The keys of the map are those of the elements. -/
theorem Indexes.mem_iff (h : Indexes key map s) : k ∈ map ↔ k ∈ s.toList.map key := by
  rw [← AList.lookup_isSome, Option.isSome_iff_exists, toList, List.map_map, List.mem_map]
  constructor
  · rintro ⟨it, hit⟩
    obtain ⟨a, ha, hk⟩ := (h k it).1 hit
    exact ⟨(it, a), ha, hk⟩
  · rintro ⟨n, hn, hk⟩
    exact ⟨n.1, (h k n.1).2 ⟨n.2, hn, hk⟩⟩

theorem Indexes.length_keys (h : Indexes key map s) : map.keys.length = s.size := by
  have hperm : map.keys.Perm (s.toList.map key) := by
    rw [List.perm_ext_iff_of_nodup map.keys_nodup h.nodup]
    exact fun k => AList.mem_keys.symm.trans h.mem_iff
  rw [hperm.length_eq, List.length_map, toList, List.length_map, size]

/-- Taking the node of an element out takes its key out. -/
theorem Indexes.keys_without (h : Indexes key map s) (ha : (it, a) ∈ s.nodes) :
    (s.without it).toList.map key = (s.toList.map key).erase (key a) := by
  rw [h.nodup.erase_eq_filter, toList, toList, without, List.map_map, List.map_map,
    List.filter_map]
  refine congrArg (List.map _) (List.filter_congr fun n hn => ?_)
  have hiff : n.1 = it ↔ key n.2 = key a := by
    have hinj : key n.2 = key a → n.1 = it ∧ n.2 = a := h.inj hn ha
    refine ⟨fun he => ?_, fun he => (hinj he).1⟩
    obtain ⟨m, b⟩ := n
    obtain rfl : m = it := he
    rw [eq_of_mem hn ha]
  rw [Bool.eq_iff_iff]
  simp [hiff]

theorem Indexes.without (h : Indexes key map s) (ha : (it, a) ∈ s.nodes) :
    Indexes key (map.erase (key a)) (s.without it) := by
  intro k it'
  by_cases hk : k = key a
  · subst hk
    rw [AList.lookup_erase]
    refine ⟨fun hn => (Option.some_ne_none _ hn.symm).elim, ?_⟩
    rintro ⟨b, hb, hkey⟩
    obtain ⟨hb, hne⟩ := mem_without.1 hb
    exact absurd (h.inj hb ha hkey).1 hne
  · rw [AList.lookup_erase_ne hk, h k it']
    constructor
    · rintro ⟨b, hb, rfl⟩
      have hne : it' ≠ it := by
        rintro rfl
        exact hk (by rw [eq_of_mem hb ha])
      exact ⟨b, mem_without.2 ⟨hb, hne⟩, rfl⟩
    · rintro ⟨b, hb, rfl⟩
      exact ⟨b, (mem_without.1 hb).1, rfl⟩

/-- The element under a key. -/
def find (map : AList fun _ : κ => Iterator) (s : Nodes α) (k : κ) : Option α :=
  (map.lookup k).bind s.deref

theorem Indexes.find_eq_some (h : Indexes key map s) :
    find map s k = some a ↔ ∃ it, (it, a) ∈ s.nodes ∧ key a = k := by
  rw [find, Option.bind_eq_some_iff]
  constructor
  · rintro ⟨it, hit, ha⟩
    rw [deref_eq_some] at ha
    obtain ⟨b, hb, hk⟩ := (h k it).1 hit
    exact ⟨it, ha, by rw [eq_of_mem ha hb, hk]⟩
  · rintro ⟨it, ha, rfl⟩
    exact ⟨it, h.lookup ha, deref_eq_some.2 ha⟩

theorem Indexes.find_eq_none (h : Indexes key map s) :
    find map s k = none ↔ map.lookup k = none := by
  rw [h.lookup_eq_none, Option.eq_none_iff_forall_ne_some]
  constructor
  · exact fun hn n hm hk => hn n.2 (h.find_eq_some.2 ⟨n.1, hm, hk⟩)
  · intro hall a ha
    obtain ⟨it, hm, hk⟩ := h.find_eq_some.1 ha
    exact hall (it, a) hm hk

/-- Where the nodes of a key stay the same, so does the element found. -/
theorem Indexes.find_congr {map' : AList fun _ : κ => Iterator} (h : Indexes key map s)
    (h' : Indexes key map' t)
    (heq : ∀ n : Iterator × α, key n.2 = k → (n ∈ t.nodes ↔ n ∈ s.nodes)) :
    find map' t k = find map s k := by
  apply Option.ext
  intro a
  rw [h.find_eq_some, h'.find_eq_some]
  constructor
  · rintro ⟨it, hm, hk⟩
    exact ⟨it, (heq (it, a) hk).1 hm, hk⟩
  · rintro ⟨it, hm, hk⟩
    exact ⟨it, (heq (it, a) hk).2 hm, hk⟩

/-- A new element under a new key. -/
theorem Indexes.insert (h : Indexes key map s) (hn : map.lookup (key a) = none)
    (ht : ∀ n, n ∈ t.nodes ↔ n = (it, a) ∨ n ∈ s.nodes) :
    Indexes key (map.insert (key a) it) t := by
  intro k it'
  by_cases hk : k = key a
  · subst hk
    rw [AList.lookup_insert]
    constructor
    · intro he
      exact ⟨a, (ht _).2 (.inl (by rw [Option.some.inj he])), rfl⟩
    · rintro ⟨b, hb, hkey⟩
      rcases (ht _).1 hb with he | hb
      · rw [(Prod.mk.inj he).1]
      · exact absurd hkey (h.lookup_eq_none.1 hn _ hb)
  · rw [AList.lookup_insert_ne hk, h k it']
    constructor
    · rintro ⟨b, hb, rfl⟩
      exact ⟨b, (ht _).2 (.inr hb), rfl⟩
    · rintro ⟨b, hb, rfl⟩
      rcases (ht _).1 hb with he | hb
      · exact absurd (by rw [(Prod.mk.inj he).2]) hk
      · exact ⟨b, hb, rfl⟩

/-- The element under a key replaced: the new node first, then the old one erased. -/
theorem Indexes.replace (h : Indexes key map s) (ha : (it, a) ∈ s.nodes) (hk : key b = key a)
    (ht : ∀ n, n ∈ t.nodes ↔ n = (it', b) ∨ n ∈ s.nodes ∧ n.1 ≠ it) :
    Indexes key (map.insert (key a) it') t := by
  have h' : Indexes key ((map.erase (key a)).insert (key b) it') t :=
    (h.without ha).insert (by rw [hk, AList.lookup_erase]) fun n => by rw [ht, mem_without]
  intro k it''
  rw [← h' k it'', hk]
  by_cases he : k = key a
  · subst he
    rw [AList.lookup_insert, AList.lookup_insert]
  · rw [AList.lookup_insert_ne he, AList.lookup_insert_ne he, AList.lookup_erase_ne he]

end Nodes
