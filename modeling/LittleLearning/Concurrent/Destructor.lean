import LittleLearning.Concurrent.Release

/-!
# The destructor of a thread's object

`~Thread` destroys the attributes and the semaphore that the two constructors
initialise. The move constructor initialises none: it swaps, and what is left to
the object moved from is what the new one had, nothing. Every object is destroyed
in the end, also that one.
-/

namespace LittleLearning.Concurrent.Thread

variable {Exec Func Args : Type*}

/-- The body of the move constructor: the new object and the one moved from. -/
def moved (other : Thread Exec Func Args) : Thread Exec Func Args × Thread Exec Func Args :=
  [Member.tid, .threadId, .attr, .semaphore, .exec, .func, .args].foldl
    (fun pair member => pair.1.swap pair.2 member) (fresh, other)

/-- The body of `~Thread`: `pthread_attr_destroy` and `sem_destroy` on what is initialised. -/
def destructible (x : Thread Exec Func Args) : Bool := x.attr.isSome && x.semaphore.isSome

inductive Use (Exec Func Args : Type*) where
  /-- A constructor returns; the new thread is `threadId` and has recorded `tid`. -/
  | constructExec (tid : Int) (threadId : Nat) (exec : Exec)
  | constructFunc (tid : Int) (threadId : Nat) (func : Func) (args : Option Args)
  /-- `Thread(std::move(x))`, with `x` the `i`-th of the objects there are. -/
  | move (i : Nat)
  | destroy (i : Nat)
  deriving DecidableEq

/-- `undefined`: something was destroyed that was not initialised. -/
structure Scope (Exec Func Args : Type*) where
  objects : List (Thread Exec Func Args)
  undefined : Bool
  deriving DecidableEq

namespace Scope

def init : Scope Exec Func Args := ⟨[], false⟩

def construct (s : Scope Exec Func Args) (tid : Int) (x : Thread Exec Func Args) :
    Scope Exec Func Args :=
  { s with objects := s.objects ++ [{ x with tid := tid }] }

def step (s : Scope Exec Func Args) : Use Exec Func Args → Option (Scope Exec Func Args)
  | .constructExec tid threadId exec => some (s.construct tid (startExec threadId exec).object)
  | .constructFunc tid threadId func args =>
    some (s.construct tid (start threadId func args).object)
  | .move i =>
    s.objects[i]?.map fun x =>
      { s with objects := s.objects.set i (moved x).2 ++ [(moved x).1] }
  | .destroy i =>
    s.objects[i]?.map fun x =>
      { objects := s.objects.eraseIdx i, undefined := s.undefined || !x.destructible }

end Scope

def Use.isMove : Use Exec Func Args → Bool
  | .move _ => true
  | _ => false

/-- All that the object moved from had is the new one's, and what that had is its own. -/
theorem moved_eq (other : Thread Exec Func Args) : moved other = (other, fresh) := rfl

namespace Scope

variable {s s' : Scope Exec Func Args} {use : Use Exec Func Args}
  {uses : List (Use Exec Func Args)} {i : Nat}

/-- How many objects cannot be destroyed. -/
def blank (s : Scope Exec Func Args) : Nat := s.objects.countP fun x => !x.destructible

/-- After `n` moves there are `n` of them, but for those that were destroyed all the same. -/
structure Counted (s : Scope Exec Func Args) (n : Nat) : Prop where
  kept : s.undefined = false → s.blank = n
  lost : s.undefined = true → s.blank < n

/-- An object among the others. -/
theorem objects_split {x : Thread Exec Func Args} (hx : s.objects[i]? = some x) :
    ∃ before after, s.objects = before ++ x :: after ∧ before.length = i := by
  obtain ⟨hlt, rfl⟩ := List.getElem?_eq_some_iff.1 hx
  refine ⟨s.objects.take i, s.objects.drop (i + 1), ?_,
    List.length_take_of_le (Nat.le_of_lt hlt)⟩
  rw [List.getElem_cons_drop, List.take_append_drop]

theorem construct_blank (s : Scope Exec Func Args) (tid : Int) {x : Thread Exec Func Args}
    (hx : x.destructible = true) : (s.construct tid x).blank = s.blank := by
  have hx : ({ x with tid := tid } : Thread Exec Func Args).destructible = true := hx
  simp [blank, construct, List.countP_append, hx]

/-- The object moved from is one more, whatever it was. -/
theorem move_blank (hs : s.step (.move i) = some s') :
    s'.undefined = s.undefined ∧ s'.blank = s.blank + 1 := by
  obtain ⟨x, hx, rfl⟩ := Option.map_eq_some_iff.1 hs
  obtain ⟨before, after, hobjects, rfl⟩ := objects_split hx
  have hfresh : (fresh : Thread Exec Func Args).destructible = false := rfl
  refine ⟨rfl, ?_⟩
  simp only [blank, hobjects, moved_eq, List.set_append_right _ _ (Nat.le_refl _), Nat.sub_self,
    List.set_cons_zero, List.countP_append, List.countP_cons, List.countP_nil, hfresh,
    Bool.not_false, if_true]
  omega

theorem destroy_blank (hs : s.step (.destroy i) = some s') :
    s'.undefined = s.undefined ∧ s'.blank = s.blank ∨
      s'.undefined = true ∧ s'.blank + 1 = s.blank := by
  obtain ⟨x, hx, rfl⟩ := Option.map_eq_some_iff.1 hs
  obtain ⟨before, after, hobjects, rfl⟩ := objects_split hx
  have herase : (before ++ x :: after).eraseIdx before.length = before ++ after := by
    rw [List.eraseIdx_append_of_length_le (Nat.le_refl _), Nat.sub_self]
    rfl
  cases hd : x.destructible with
  | true =>
    refine .inl ⟨by simp, ?_⟩
    simp [blank, hobjects, herase, List.countP_append, hd]
  | false =>
    refine .inr ⟨by simp, ?_⟩
    simp [blank, hobjects, herase, List.countP_append, hd, Nat.add_assoc]

theorem Counted.step {n : Nat} (h : Counted s n) (hs : step s use = some s') :
    Counted s' (n + [use].countP Use.isMove) := by
  have hsame : s'.undefined = s.undefined → s'.blank = s.blank → Counted s' n := fun hu hb =>
    ⟨fun hn => hb.trans (h.kept (hu ▸ hn)), fun hn => hb ▸ h.lost (hu ▸ hn)⟩
  cases use with
  | constructExec tid threadId exec =>
    obtain rfl := Option.some.inj hs
    exact hsame rfl (s.construct_blank tid rfl)
  | constructFunc tid threadId func args =>
    obtain rfl := Option.some.inj hs
    exact hsame rfl (s.construct_blank tid rfl)
  | move i =>
    obtain ⟨hu, hb⟩ := move_blank hs
    refine ⟨fun hn => ?_, fun hn => ?_⟩
    · rw [hb, h.kept (hu ▸ hn)]
      rfl
    · rw [hb]
      exact Nat.succ_lt_succ (h.lost (hu ▸ hn))
  | destroy i =>
    obtain ⟨hu, hb⟩ | ⟨hu, hb⟩ := destroy_blank hs
    · exact hsame hu hb
    · refine ⟨fun hn => by simp [hu] at hn, fun _ => ?_⟩
      cases hold : s.undefined with
      | false =>
        have hkept := h.kept hold
        show s'.blank < n
        omega
      | true =>
        have hlost := h.lost hold
        show s'.blank < n
        omega

theorem counted_exec {n : Nat} (h : Counted s n) (hr : Transition.exec step s uses = some s') :
    Counted s' (n + uses.countP Use.isMove) := by
  induction uses generalizing s n with
  | nil =>
    obtain rfl := Option.some.inj hr
    exact h
  | cons use uses ih =>
    obtain ⟨t, hs, hr⟩ := Transition.exec_cons_eq_some.1 hr
    have hcounted := ih (h.step hs) hr
    rwa [Nat.add_assoc, ← List.countP_append] at hcounted

/-- Where every object there was has been destroyed, in whatever order, that was defined throughout
if and only if nothing was moved. -/
theorem destroyed_iff (hr : Transition.exec step init uses = some s) (hall : s.objects = []) :
    s.undefined = false ↔ ∀ use ∈ uses, use.isMove = false := by
  have h : Counted s (0 + uses.countP Use.isMove) :=
    counted_exec ⟨fun _ => rfl, fun hu => by cases hu⟩ hr
  have hblank : s.blank = 0 := by simp [blank, hall]
  constructor
  · intro hu
    have hcount := h.kept hu
    rw [hblank, Nat.zero_add, eq_comm, List.countP_eq_zero] at hcount
    exact fun use huse => Bool.eq_false_iff.2 (hcount use huse)
  · intro hno
    have hcount : uses.countP Use.isMove = 0 :=
      List.countP_eq_zero.2 fun use huse => Bool.eq_false_iff.1 (hno use huse)
    cases hu : s.undefined with
    | false => rfl
    | true =>
      have hlost := h.lost hu
      omega

/-- A thread is made, moved to a new object, and both are destroyed. -/
theorem destroyed_iff_moved : ∃ s : Scope Nat Nat Nat,
    Transition.exec step init [.constructExec 7 1 3, .move 0, .destroy 1, .destroy 0] = some s ∧
      ¬ s.undefined = false := by
  have hrun : (Transition.exec step (init : Scope Nat Nat Nat)
      [.constructExec 7 1 3, .move 0, .destroy 1, .destroy 0]).map (·.objects) = some [] := by
    decide
  obtain ⟨s, hs, hall⟩ := Option.map_eq_some_iff.1 hrun
  refine ⟨s, hs, fun hu => ?_⟩
  have hno := (destroyed_iff hs hall).1 hu (.move 0) (by decide)
  cases hno

end Scope

end LittleLearning.Concurrent.Thread
