import LittleLearning.Lib.Exec
import Mathlib.Data.List.Nodup

/-!
# Thread-local objects

Threads that call `get` of several `ThreadLocal`s, each of them a key of
`pthread_key_create`, which succeeds. A key is there until it is deleted, and a new
one has no value in any thread. A thread that ends has `destroy` called on its
values, but for the keys that are there no more.
-/

namespace LittleLearning.Concurrent

open Transition

/-- `value` is what `pthread_getspecific` finds for a thread and a key, `objects` counts the calls
of `new`, and `deleted` has the objects in the order of their deletion. -/
structure ThreadLocal where
  keys : List Bool
  value : Nat → Nat → Option Nat
  objects : Nat
  exited : List Nat
  deleted : List Nat

namespace ThreadLocal

/-- A constructor, a destructor, a call of `get` by a thread, or the end of a thread. -/
inductive Act where
  | construct
  | destruct (key : Nat)
  | get (thread key : Nat)
  | exit (thread : Nat)
  deriving DecidableEq

def init : ThreadLocal := ⟨[], fun _ _ => none, 0, [], []⟩

/-- `pthread_getspecific`, where the key is there. -/
def getspecific (s : ThreadLocal) (thread key : Nat) : Option Nat :=
  if s.keys[key]? = some true then s.value thread key else none

def setspecific (s : ThreadLocal) (thread key : Nat) (temp : Option Nat) : ThreadLocal :=
  { s with value := Function.update s.value thread (Function.update (s.value thread) key temp) }

/-- The object `get` refers to. -/
def get (s : ThreadLocal) (thread key : Nat) : ThreadLocal × Nat :=
  match s.getspecific thread key with
  | some temp => (s, temp)
  | none => ({ s with objects := s.objects + 1 }.setspecific thread key (some s.objects), s.objects)

/-- `delete ptr` -/
def destroy (s : ThreadLocal) (ptr : Nat) : ThreadLocal := { s with deleted := s.deleted ++ [ptr] }

/-- A thread ends: each value it has is taken from it and given to `destroy`. -/
def exitFrom (thread : Nat) (s : ThreadLocal) (key : Nat) : ThreadLocal :=
  match s.getspecific thread key with
  | some data => (s.setspecific thread key none).destroy data
  | none => s

def exit (s : ThreadLocal) (thread : Nat) : ThreadLocal :=
  let s := (List.range s.keys.length).foldl (exitFrom thread) s
  { s with exited := thread :: s.exited }

def step (s : ThreadLocal) : Act → Option ThreadLocal
  | .construct => some { s with keys := s.keys ++ [true] }
  | .destruct key =>
    if s.keys[key]? = some true then some { s with keys := s.keys.set key false } else none
  | .get thread key =>
    if thread ∉ s.exited ∧ s.keys[key]? = some true then some (s.get thread key).1 else none
  | .exit thread => if thread ∉ s.exited then some (s.exit thread) else none

inductive Event where
  | destructed (key : Nat)
  | got (thread key object : Nat)
  | exited (thread : Nat)
  deriving DecidableEq

def observe (s : ThreadLocal) : Act → List Event
  | .construct => []
  | .destruct key => [.destructed key]
  | .get thread key => [.got thread key (s.get thread key).2]
  | .exit thread => [.exited thread]

def trace (as : List Act) : List Event := emitted step observe init as

/-- The thread has ended, and the key was there then. -/
def EndsWith (tr : List Event) (thread key : Nat) : Prop :=
  ∃ before after, tr = before ++ .exited thread :: after ∧ .destructed key ∉ before

/-! ### A thread that ends -/

variable {s s' : ThreadLocal} {as : List Act} {tr : List Event} {thread key object : Nat}

@[simp] theorem setspecific_self (s : ThreadLocal) (thread key : Nat) (temp : Option Nat) :
    (s.setspecific thread key temp).value thread key = temp := by
  simp [setspecific]

theorem setspecific_other (s : ThreadLocal) {thread key t k : Nat} (temp : Option Nat)
    (h : ¬(t = thread ∧ k = key)) : (s.setspecific thread key temp).value t k = s.value t k := by
  unfold setspecific
  by_cases ht : t = thread
  · subst ht
    have hk : k ≠ key := fun hk => h ⟨rfl, hk⟩
    simp [hk]
  · simp [ht]

@[simp] theorem setspecific_keys (s : ThreadLocal) (thread key : Nat) (temp : Option Nat) :
    (s.setspecific thread key temp).keys = s.keys := rfl

@[simp] theorem setspecific_exited (s : ThreadLocal) (thread key : Nat) (temp : Option Nat) :
    (s.setspecific thread key temp).exited = s.exited := rfl

theorem lt_length {b : Bool} (h : s.keys[key]? = some b) : key < s.keys.length := by
  by_contra hlt
  rw [List.getElem?_eq_none (Nat.le_of_not_lt hlt)] at h
  cases h

/-- `u` is `s` after the thread has given up its values of `those` keys, the objects `data`. -/
structure GivesUp (s u : ThreadLocal) (thread : Nat) (those : Nat → Prop) (data : List Nat) :
    Prop where
  keys : u.keys = s.keys
  objects : u.objects = s.objects
  exited : u.exited = s.exited
  taken : ∀ k, those k → s.keys[k]? = some true → u.value thread k = none
  other : ∀ t k, ¬(t = thread ∧ those k ∧ s.keys[k]? = some true) → u.value t k = s.value t k
  deleted : u.deleted = s.deleted ++ data

theorem exitFrom_spec (s : ThreadLocal) (thread key : Nat) :
    GivesUp s (exitFrom thread s key) thread (· = key) (s.getspecific thread key).toList := by
  unfold exitFrom
  cases hdata : s.getspecific thread key with
  | none =>
    refine ⟨rfl, rfl, rfl, ?_, fun _ _ _ => rfl, (List.append_nil _).symm⟩
    rintro k rfl hkey
    rwa [getspecific, if_pos hkey] at hdata
  | some data =>
    have hkey : s.keys[key]? = some true := by
      by_contra hkey
      simp [getspecific, hkey] at hdata
    refine ⟨rfl, rfl, rfl, ?_, fun t k hother => ?_, rfl⟩
    · rintro k rfl -
      exact setspecific_self s thread k none
    · exact setspecific_other s none fun h => hother ⟨h.1, h.2, h.2 ▸ hkey⟩

theorem foldl_exitFrom (s : ThreadLocal) (thread n : Nat) :
    GivesUp s ((List.range n).foldl (exitFrom thread) s) thread (· < n)
      ((List.range n).filterMap (s.getspecific thread)) := by
  induction n with
  | zero => exact ⟨rfl, rfl, rfl, nofun, fun _ _ _ => rfl, (List.append_nil _).symm⟩
  | succ n ih =>
    rw [List.range_succ, List.foldl_append, List.filterMap_append]
    generalize (List.range n).foldl (exitFrom thread) s = u at ih
    have hlast := exitFrom_spec u thread n
    have hsame : u.getspecific thread n = s.getspecific thread n := by
      rw [getspecific, ih.keys, ih.other thread n (by omega), getspecific]
    refine ⟨hlast.keys.trans ih.keys, hlast.objects.trans ih.objects,
      hlast.exited.trans ih.exited, fun k hk hkey => ?_, fun t k hother => ?_, ?_⟩
    · by_cases hn : k = n
      · exact hlast.taken k hn (ih.keys ▸ hkey)
      · rw [List.foldl_cons, List.foldl_nil, hlast.other thread k fun h => hn h.2.1]
        exact ih.taken k (by omega) hkey
    · rw [List.foldl_cons, List.foldl_nil, hlast.other t k fun h => hother ⟨h.1, by omega, ?_⟩,
        ih.other t k fun h => hother ⟨h.1, by omega, h.2.2⟩]
      exact ih.keys ▸ h.2.2
    · rw [List.foldl_cons, List.foldl_nil, hlast.deleted, ih.deleted, hsame, List.append_assoc]
      cases hdata : s.getspecific thread n <;> simp [hdata]

/-! ### The objects of a run -/

structure Sound (s : ThreadLocal) (tr : List Event) : Prop where
  exited : ∀ t, t ∈ s.exited ↔ .exited t ∈ tr
  destructed : ∀ k, s.keys[k]? = some false ↔ .destructed k ∈ tr
  got : ∀ t k p, .got t k p ∈ tr →
    k < s.keys.length ∧ p < s.objects ∧ (t ∉ s.exited → s.value t k = some p)
  value : ∀ t k p, s.value t k = some p → .got t k p ∈ tr
  same : ∀ t k p t' k' p', .got t k p ∈ tr → .got t' k' p' ∈ tr → (p = p' ↔ t = t' ∧ k = k')
  deleted : ∀ t k p, .got t k p ∈ tr → (p ∈ s.deleted ↔ EndsWith tr t k)
  owned : ∀ p ∈ s.deleted, ∃ t k, .got t k p ∈ tr
  nodup : s.deleted.Nodup

theorem sound_init : Sound init [] where
  exited t := by simp [init]
  destructed k := by simp [init]
  got t k p h := by cases h
  value t k p h := by cases h
  same t k p t' k' p' h := by cases h
  deleted t k p h := by cases h
  owned p h := by cases h
  nodup := List.nodup_nil

theorem endsWith_snoc (tr : List Event) (e : Event) (thread key : Nat) :
    EndsWith (tr ++ [e]) thread key ↔
      EndsWith tr thread key ∨ e = .exited thread ∧ .destructed key ∉ tr := by
  constructor
  · rintro ⟨before, after, htr, hnot⟩
    rcases List.eq_nil_or_concat after with rfl | ⟨after, last, rfl⟩
    · obtain ⟨rfl, hlast⟩ := List.append_inj' htr rfl
      exact .inr ⟨(List.cons.inj hlast).1, hnot⟩
    · rw [List.concat_eq_append, ← List.cons_append, ← List.append_assoc] at htr
      exact .inl ⟨before, after, (List.append_inj' htr rfl).1, hnot⟩
  · rintro (⟨before, after, rfl, hnot⟩ | ⟨rfl, hnot⟩)
    · exact ⟨before, after ++ [e], by simp, hnot⟩
    · exact ⟨tr, [], rfl, hnot⟩

theorem EndsWith.exited (h : EndsWith tr thread key) : .exited thread ∈ tr := by
  obtain ⟨before, after, rfl, -⟩ := h
  simp

theorem getspecific_eq_some : s.getspecific thread key = some object ↔
    s.keys[key]? = some true ∧ s.value thread key = some object := by
  unfold getspecific
  split <;> simp [*]

/-- An event that says what an earlier one has said. -/
theorem Sound.again (h : Sound s tr) (hgot : .got thread key object ∈ tr) :
    Sound s (tr ++ [.got thread key object]) := by
  have hmem : ∀ e, e ∈ tr ++ [.got thread key object] ↔ e ∈ tr := by
    intro e
    rw [List.mem_append, List.mem_singleton]
    exact or_iff_left_of_imp fun he => he ▸ hgot
  have hends : ∀ t k, EndsWith (tr ++ [.got thread key object]) t k ↔ EndsWith tr t k := by
    intro t k
    rw [endsWith_snoc]
    exact or_iff_left fun he => by cases he.1
  refine ⟨?_, ?_, ?_, ?_, ?_, ?_, ?_, h.nodup⟩ <;> simp only [hmem, hends]
  · exact h.exited
  · exact h.destructed
  · exact h.got
  · exact h.value
  · exact h.same
  · exact h.deleted
  · exact h.owned

theorem Sound.construct (h : Sound s tr) : Sound { s with keys := s.keys ++ [true] } tr where
  exited := h.exited
  destructed k := by
    rw [← h.destructed k, List.getElem?_append]
    split
    · rfl
    · rename_i hk
      rw [List.getElem?_eq_none (Nat.le_of_not_lt hk)]
      cases k - s.keys.length <;> simp
  got t k p hgot := by
    obtain ⟨hk, hp⟩ := h.got t k p hgot
    exact ⟨by simp; omega, hp⟩
  value := h.value
  same := h.same
  deleted := h.deleted
  owned := h.owned
  nodup := h.nodup

theorem Sound.destruct (h : Sound s tr) (hkey : s.keys[key]? = some true) :
    Sound { s with keys := s.keys.set key false } (tr ++ [.destructed key]) where
  exited t := by simpa using h.exited t
  destructed k := by
    have hlt := lt_length hkey
    rw [List.mem_append, List.mem_singleton, Event.destructed.injEq, ← h.destructed k]
    by_cases hk : key = k
    · subst hk
      simp [hlt]
    · simp [hk, Ne.symm hk]
  got t k p hgot := by
    have hgot : .got t k p ∈ tr := by simpa using hgot
    obtain ⟨hk, hp⟩ := h.got t k p hgot
    exact ⟨by simpa using hk, hp⟩
  value t k p hvalue := List.mem_append_left _ (h.value t k p hvalue)
  same t k p t' k' p' hgot hgot' :=
    h.same t k p t' k' p' (by simpa using hgot) (by simpa using hgot')
  deleted t k p hgot := by
    rw [endsWith_snoc, h.deleted t k p (by simpa using hgot)]
    exact (or_iff_left fun he => by cases he.1).symm
  owned p hp := by
    obtain ⟨t, k, hgot⟩ := h.owned p hp
    exact ⟨t, k, List.mem_append_left _ hgot⟩
  nodup := h.nodup

/-- A thread that has no value for the key gets a new object. -/
theorem Sound.new (h : Sound s tr) (hon : thread ∉ s.exited) (hkey : key < s.keys.length)
    (hvalue : s.value thread key = none) :
    Sound ({ s with objects := s.objects + 1 }.setspecific thread key (some s.objects))
      (tr ++ [.got thread key s.objects]) := by
  have hmem : ∀ t k p, .got t k p ∈ tr ++ [.got thread key s.objects] ↔
      .got t k p ∈ tr ∨ t = thread ∧ k = key ∧ p = s.objects := by
    simp
  have hfirst : ∀ p, .got thread key p ∉ tr := fun p hgot => by
    have hsome := (h.got thread key p hgot).2.2 hon
    rw [hvalue] at hsome
    cases hsome
  have hfresh : ∀ t k, .got t k s.objects ∉ tr := fun t k hgot =>
    Nat.lt_irrefl _ (h.got t k _ hgot).2.1
  have hends : ∀ t k, EndsWith (tr ++ [.got thread key s.objects]) t k ↔ EndsWith tr t k := by
    intro t k
    rw [endsWith_snoc]
    exact or_iff_left fun he => by cases he.1
  refine ⟨fun t => ?_, fun k => ?_, fun t k p hgot => ?_, fun t k p hp => ?_,
    fun t k p t' k' p' hgot hgot' => ?_, fun t k p hgot => ?_, fun p hp => ?_, h.nodup⟩
  · simpa using h.exited t
  · simpa using h.destructed k
  · rw [hmem] at hgot
    obtain hgot | ⟨rfl, rfl, rfl⟩ := hgot
    · obtain ⟨hk, hp, hval⟩ := h.got t k p hgot
      refine ⟨hk, Nat.lt_succ_of_lt hp, fun ht => ?_⟩
      have hother : ¬(t = thread ∧ k = key) := by
        rintro ⟨rfl, rfl⟩
        exact hfirst p hgot
      exact (setspecific_other _ _ hother).trans (hval ht)
    · exact ⟨hkey, Nat.lt_succ_self _, fun _ => setspecific_self _ _ _ _⟩
  · rw [hmem]
    by_cases hsame : t = thread ∧ k = key
    · obtain ⟨rfl, rfl⟩ := hsame
      rw [setspecific_self] at hp
      exact .inr ⟨rfl, rfl, (Option.some.inj hp).symm⟩
    · rw [setspecific_other _ _ hsame] at hp
      exact .inl (h.value t k p hp)
  · rw [hmem] at hgot hgot'
    obtain hgot | ⟨rfl, rfl, rfl⟩ := hgot <;> obtain hgot' | ⟨rfl, rfl, rfl⟩ := hgot'
    · exact h.same t k p t' k' p' hgot hgot'
    · refine iff_of_false (fun hp => hfresh t k (hp ▸ hgot)) ?_
      rintro ⟨rfl, rfl⟩
      exact hfirst p hgot
    · refine iff_of_false (fun hp => hfresh t' k' (hp ▸ hgot')) ?_
      rintro ⟨rfl, rfl⟩
      exact hfirst p' hgot'
    · simp
  · rw [hends]
    rw [hmem] at hgot
    obtain hgot | ⟨rfl, rfl, rfl⟩ := hgot
    · exact h.deleted t k p hgot
    · refine iff_of_false (fun hp => ?_) fun he => hon ((h.exited t).2 he.exited)
      obtain ⟨t', k', hgot⟩ := h.owned _ hp
      exact hfresh t' k' hgot
  · obtain ⟨t, k, hgot⟩ := h.owned p hp
    exact ⟨t, k, List.mem_append_left _ hgot⟩

theorem Sound.exit (h : Sound s tr) (hon : thread ∉ s.exited) :
    Sound (s.exit thread) (tr ++ [.exited thread]) := by
  have hgives := foldl_exitFrom s thread s.keys.length
  unfold ThreadLocal.exit
  generalize (List.range s.keys.length).foldl (exitFrom thread) s = u at hgives
  -- what the thread gives up are the objects it has got under the keys that are there
  have hdata : ∀ p, p ∈ (List.range s.keys.length).filterMap (s.getspecific thread) ↔
      ∃ k, s.keys[k]? = some true ∧ s.value thread k = some p := by
    intro p
    simp only [List.mem_filterMap, List.mem_range, getspecific_eq_some]
    constructor
    · rintro ⟨k, -, hk⟩
      exact ⟨k, hk⟩
    · rintro ⟨k, hkey, hk⟩
      exact ⟨k, lt_length hkey, hkey, hk⟩
  have hthere : ∀ k, k < s.keys.length → (s.keys[k]? = some true ↔ .destructed k ∉ tr) := by
    intro k hk
    rw [← h.destructed k, List.getElem?_eq_getElem hk]
    cases s.keys[k] <;> simp
  refine ⟨fun t => ?_, fun k => ?_, fun t k p hgot => ?_, fun t k p hp => ?_,
    fun t k p t' k' p' hgot hgot' => ?_, fun t k p hgot => ?_, fun p hp => ?_, ?_⟩
  · simp only [List.mem_cons, List.mem_append, hgives.exited, h.exited t]
    simp [or_comm]
  · simpa [hgives.keys] using h.destructed k
  · obtain ⟨hk, hp, hval⟩ := h.got t k p (by simpa using hgot)
    refine ⟨by rw [hgives.keys]; exact hk, by rw [hgives.objects]; exact hp, fun ht => ?_⟩
    simp only [List.mem_cons, not_or, hgives.exited] at ht
    exact (hgives.other t k fun hsame => ht.1 hsame.1).trans (hval ht.2)
  · refine List.mem_append_left _ (h.value t k p ?_)
    by_cases hsame : t = thread ∧ k < s.keys.length ∧ s.keys[k]? = some true
    · obtain ⟨rfl, hk, hkey⟩ := hsame
      exact absurd (hp.symm.trans (hgives.taken k hk hkey)) nofun
    · exact (hgives.other t k hsame).symm.trans hp
  · exact h.same t k p t' k' p' (by simpa using hgot) (by simpa using hgot')
  · have hgot : .got t k p ∈ tr := by simpa using hgot
    have hk := (h.got t k p hgot).1
    show p ∈ u.deleted ↔ _
    rw [hgives.deleted, List.mem_append, h.deleted t k p hgot, endsWith_snoc, hdata]
    refine or_congr_right ⟨?_, ?_⟩
    · rintro ⟨k', hkey, hvalue⟩
      obtain ⟨rfl, rfl⟩ := (h.same _ _ _ _ _ _ hgot (h.value _ _ _ hvalue)).1 rfl
      exact ⟨rfl, (hthere k hk).1 hkey⟩
    · rintro ⟨ht, hnot⟩
      obtain rfl := Event.exited.inj ht
      exact ⟨k, (hthere k hk).2 hnot, (h.got thread k p hgot).2.2 hon⟩
  · have hp : p ∈ u.deleted := hp
    rw [hgives.deleted, List.mem_append, hdata] at hp
    obtain hp | ⟨k, -, hvalue⟩ := hp
    · obtain ⟨t, k, hgot⟩ := h.owned p hp
      exact ⟨t, k, List.mem_append_left _ hgot⟩
    · exact ⟨thread, k, List.mem_append_left _ (h.value thread k p hvalue)⟩
  · show u.deleted.Nodup
    rw [hgives.deleted, List.nodup_append]
    refine ⟨h.nodup, ?_, fun p hp q hq => ?_⟩
    · refine List.Nodup.filterMap (fun k k' p hp hp' => ?_) List.nodup_range
      have hgot := h.value _ _ _ (getspecific_eq_some.1 hp).2
      have hgot' := h.value _ _ _ (getspecific_eq_some.1 hp').2
      exact ((h.same _ _ _ _ _ _ hgot hgot').1 rfl).2
    · rintro rfl
      obtain ⟨k, -, hvalue⟩ := (hdata p).1 hq
      have hends := (h.deleted thread k p (h.value thread k p hvalue)).1 hp
      exact hon ((h.exited thread).2 hends.exited)

theorem Sound.step {a : Act} (h : Sound s tr) (hs : s.step a = some s') :
    Sound s' (tr ++ s.observe a) := by
  cases a with
  | construct =>
    obtain rfl := Option.some.inj hs
    rw [observe, List.append_nil]
    exact h.construct
  | destruct key =>
    simp only [ThreadLocal.step, Option.ite_none_right_eq_some, Option.some.injEq] at hs
    obtain ⟨hkey, rfl⟩ := hs
    exact h.destruct hkey
  | get thread key =>
    simp only [ThreadLocal.step, Option.ite_none_right_eq_some, Option.some.injEq] at hs
    obtain ⟨⟨hon, hkey⟩, rfl⟩ := hs
    rw [observe, ThreadLocal.get]
    cases hvalue : s.getspecific thread key with
    | some object => exact h.again (h.value _ _ _ (getspecific_eq_some.1 hvalue).2)
    | none =>
      refine h.new hon (lt_length hkey) ?_
      rwa [getspecific, if_pos hkey] at hvalue
  | exit thread =>
    simp only [ThreadLocal.step, Option.ite_none_right_eq_some, Option.some.injEq] at hs
    obtain ⟨hon, rfl⟩ := hs
    exact h.exit hon

theorem sound_run (hr : exec step init as = some s) : Sound s (trace as) :=
  invariant_emitted (fun _ _ _ _ h hs => h.step hs) sound_init hr

theorem get_deleted (s : ThreadLocal) (thread key : Nat) :
    (s.get thread key).1.deleted = s.deleted := by
  unfold ThreadLocal.get
  split <;> rfl

/-- `get` refers to one object for a thread and a `ThreadLocal`, the same in every call, and to
another one for any other; it never refers to an object that is deleted. -/
theorem own_object (hr : exec step init as = some s) :
    (∀ t k p t' k' p', .got t k p ∈ trace as → .got t' k' p' ∈ trace as →
      (p = p' ↔ t = t' ∧ k = k')) ∧
    ∀ t k s', s.step (.get t k) = some s' → (s.get t k).2 ∉ s.deleted := by
  refine ⟨(sound_run hr).same, fun t k s' hs hdeleted => ?_⟩
  have hnext := (sound_run hr).step hs
  simp only [ThreadLocal.step, Option.ite_none_right_eq_some, Option.some.injEq] at hs
  obtain ⟨⟨hon, -⟩, rfl⟩ := hs
  have hgot : .got t k (s.get t k).2 ∈ trace as ++ s.observe (.get t k) := by simp [observe]
  have hends := (hnext.deleted t k _ hgot).1 (by rwa [get_deleted])
  refine hon ((sound_run hr).exited t |>.2 ?_)
  simpa [observe] using hends.exited

/-- Two threads, each with its object of one `ThreadLocal`; the second ends after that is gone. -/
def localRun : List Act :=
  [.construct, .get 1 0, .get 2 0, .get 1 0, .exit 1, .destruct 0, .exit 2]

theorem own_object_local : ∃ s, exec step init (localRun.take 5) = some s ∧ s.deleted = [0] ∧
    (s.get 2 0).2 ∉ s.deleted := by
  have hrun : (exec step init (localRun.take 5)).map
      (fun s => (s.deleted, (s.step (.get 2 0)).isSome)) = some ([0], true) := by decide +kernel
  obtain ⟨s, hs, hobs⟩ := Option.map_eq_some_iff.1 hrun
  obtain ⟨hdeleted, hget⟩ := Prod.mk.inj hobs
  obtain ⟨s', hs'⟩ := Option.isSome_iff_exists.1 hget
  exact ⟨s, hs, hdeleted, (own_object hs).2 2 0 s' hs'⟩

/-- An object is deleted if and only if its thread ends while the `ThreadLocal` is there, and only
once; otherwise it is lost, or still in use. -/
theorem deleted_iff (hr : exec step init as = some s) : s.deleted.Nodup ∧
    ∀ t k p, .got t k p ∈ trace as → (p ∈ s.deleted ↔ EndsWith (trace as) t k) :=
  ⟨(sound_run hr).nodup, (sound_run hr).deleted⟩

theorem deleted_iff_local : ∃ s, exec step init localRun = some s ∧ s.deleted = [0] ∧
    EndsWith (trace localRun) 1 0 ∧ ¬ EndsWith (trace localRun) 2 0 := by
  have hrun : (exec step init localRun).map (·.deleted) = some [0] := by decide +kernel
  obtain ⟨s, hs, hdeleted⟩ := Option.map_eq_some_iff.1 hrun
  have h := (deleted_iff hs).2
  refine ⟨s, hs, hdeleted, (h 1 0 0 (by decide +kernel)).1 ?_, fun he => ?_⟩
  · simp [hdeleted]
  · have hlost := (h 2 0 1 (by decide +kernel)).2 he
    simp [hdeleted] at hlost

end ThreadLocal

end LittleLearning.Concurrent
