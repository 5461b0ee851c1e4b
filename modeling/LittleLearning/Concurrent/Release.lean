import LittleLearning.Concurrent.Thread

/-!
# Joining and detaching a thread

`join` and `detach` ask `isDetached` first. That reads the detach state of the
attributes the thread was created with, which neither of them writes, nor does
anything else: the second call on an object releases the thread as the first did.
-/

namespace LittleLearning.Concurrent.Thread

variable {Exec Func Args : Type*}

/-- `pthread_create` has made the thread `threadId` for a function that takes no argument. -/
def startExec (threadId : Nat) (exec : Exec) : State Exec Func Args where
  object := ⟨-1, threadId, some .joinable, some 0, some exec, none, none⟩
  made := []
  run := .recordTid
  creator := .wait

/-- In one of the two constructors, at `sem_wait`. -/
inductive Starts : State Exec Func Args → Prop
  | exec (threadId : Nat) (exec : Exec) : Starts (startExec threadId exec)
  | func (threadId : Nat) (func : Func) (args : Option Args) : Starts (start threadId func args)

/-- The objects of a state, the one being made by the move constructor included. -/
def State.objects (s : State Exec Func Args) : List (Thread Exec Func Args) :=
  match s.creator with
  | .moving _ made => made :: s.object :: s.made
  | _ => s.object :: s.made

inductive Call where
  | join
  | detach
  deriving DecidableEq

/-- What a call does to the world. -/
inductive Effect where
  | printf (text : String)
  | pthreadJoin (threadId : Nat)
  | pthreadDetach (threadId : Nat)
  deriving DecidableEq

/-- An object and what the calls on it have done. -/
structure Used (Exec Func Args : Type*) where
  object : Thread Exec Func Args
  effects : List Effect

/-- `none` where the attributes are not initialised. -/
def isDetached (x : Thread Exec Func Args) : Option Bool := x.attr.map (· == .detached)

def join (x : Used Exec Func Args) : Option (Used Exec Func Args) :=
  x.object.isDetached.map fun detached =>
    if detached then { x with effects := x.effects ++ [.printf "The thread is detached!!\n"] }
    else { x with effects := x.effects ++ [.pthreadJoin x.object.threadId] }

def detach (x : Used Exec Func Args) : Option (Used Exec Func Args) :=
  x.object.isDetached.map fun detached =>
    if detached then x
    else { x with effects := x.effects ++ [.pthreadDetach x.object.threadId] }

def call (x : Used Exec Func Args) : Call → Option (Used Exec Func Args)
  | .join => join x
  | .detach => detach x

/-- The effect gives the handle `threadId` back. -/
def Effect.releases (threadId : Nat) : Effect → Bool
  | .printf _ => false
  | .pthreadJoin t | .pthreadDetach t => t == threadId

/-- The calls are made, and at most one of them gives the object's handle back. -/
def ReleasedOnce (x : Thread Exec Func Args) (calls : List Call) : Prop :=
  ∃ u, Transition.exec call ⟨x, []⟩ calls = some u ∧
    u.effects.countP (Effect.releases x.threadId) ≤ 1

/-! ### The attributes -/

variable {s s' : State Exec Func Args} {x other : Thread Exec Func Args} {p : Party} {tid : Int}

/-- The attributes that are initialised are those of `pthread_attr_init`. -/
def Joinable (s : State Exec Func Args) : Prop := ∀ x ∈ s.objects, x.attr ≠ some .detached

theorem joinable_of_starts (h : Starts s) : Joinable s := by
  cases h with
  | exec threadId exec => simp [Joinable, State.objects, startExec]
  | func threadId func args => simp [Joinable, State.objects, start]

/-- A swap hands attributes on, it makes none. -/
theorem swap_attr (member : Member) (h : x.attr ≠ some .detached)
    (hother : other.attr ≠ some .detached) :
    (x.swap other member).1.attr ≠ some .detached ∧
      (x.swap other member).2.attr ≠ some .detached := by
  cases member with
  | attr => exact ⟨hother, h⟩
  | _ => exact ⟨h, hother⟩

theorem runStep_spec (hs : runStep tid s = some s') :
    s'.object.attr = s.object.attr ∧ s'.made = s.made ∧ s'.creator = s.creator := by
  unfold runStep at hs
  cases hr : s.run with
  | post =>
    simp only [hr, Option.map_eq_some_iff] at hs
    obtain ⟨n, -, rfl⟩ := hs
    exact ⟨rfl, rfl, rfl⟩
  | done job => simp [hr] at hs
  | _ =>
    simp only [hr, Option.some.injEq] at hs
    subst hs
    exact ⟨rfl, rfl, rfl⟩

theorem Joinable.runStep (h : Joinable s) (hs : Thread.runStep tid s = some s') : Joinable s' := by
  obtain ⟨hattr, hmade, hcreator⟩ := runStep_spec hs
  unfold Joinable State.objects at h ⊢
  rw [hmade, hcreator]
  cases hc : s.creator with
  | moving member made =>
    simp only [hc, List.forall_mem_cons] at h ⊢
    exact ⟨h.1, hattr ▸ h.2.1, h.2.2⟩
  | _ =>
    simp only [hc, List.forall_mem_cons] at h ⊢
    exact ⟨hattr ▸ h.1, h.2⟩

theorem Joinable.createStep (h : Joinable s) (hs : Thread.createStep s = some s') :
    Joinable s' := by
  obtain ⟨hc, n, -, rfl⟩ | ⟨hc, rfl⟩ | ⟨hc, rfl⟩ | ⟨member, made, hc, rfl⟩ := createStep_cases hs
  · simp only [Joinable, State.objects, hc, List.forall_mem_cons] at h
    exact List.forall_mem_cons.2 h
  · simp only [Joinable, State.objects, hc, List.forall_mem_cons] at h
    exact List.forall_mem_cons.2 h
  · simp only [Joinable, State.objects, hc, List.forall_mem_cons] at h
    exact List.forall_mem_cons.2 ⟨nofun, List.forall_mem_cons.2 h⟩
  · simp only [Joinable, State.objects, hc, List.forall_mem_cons] at h
    obtain ⟨hmade, hobject, hrest⟩ := h
    obtain ⟨hmade, hobject⟩ := swap_attr member hmade hobject
    cases member.next with
    | some next =>
      exact List.forall_mem_cons.2 ⟨hmade, List.forall_mem_cons.2 ⟨hobject, hrest⟩⟩
    | none =>
      refine List.forall_mem_cons.2 ⟨hobject, List.forall_mem_append.2 ⟨hrest, ?_⟩⟩
      exact List.forall_mem_singleton.2 hmade

theorem Joinable.step (h : Joinable s) (hs : Thread.step tid s p = some s') : Joinable s' := by
  cases p with
  | new => exact h.runStep hs
  | creating => exact h.createStep hs

/-! ### The calls -/

variable {u u' : Used Exec Func Args} {c : Call} {calls : List Call}

/-- A call is made, releases the handle once more and leaves the object as it was. -/
theorem call_joinable (h : u.object.attr = some .joinable) (c : Call) :
    ∃ u', call u c = some u' ∧ u'.object = u.object ∧
      u'.effects.countP (Effect.releases u.object.threadId) =
        u.effects.countP (Effect.releases u.object.threadId) + 1 := by
  have hdetached : u.object.isDetached = some false := by simp [isDetached, h]
  cases c with
  | join =>
    have hcall : call u .join =
        some { u with effects := u.effects ++ [.pthreadJoin u.object.threadId] } := by
      simp [call, join, hdetached]
    refine ⟨_, hcall, rfl, ?_⟩
    simp [List.countP_append, Effect.releases]
  | detach =>
    have hcall : call u .detach =
        some { u with effects := u.effects ++ [.pthreadDetach u.object.threadId] } := by
      simp [call, detach, hdetached]
    refine ⟨_, hcall, rfl, ?_⟩
    simp [List.countP_append, Effect.releases]

theorem exec_call_joinable (h : u.object.attr = some .joinable) (calls : List Call) :
    ∃ u', Transition.exec call u calls = some u' ∧
      u'.effects.countP (Effect.releases u.object.threadId) =
        u.effects.countP (Effect.releases u.object.threadId) + calls.length := by
  induction calls generalizing u with
  | nil => exact ⟨u, rfl, rfl⟩
  | cons c calls ih =>
    obtain ⟨v, hv, hobject, hcount⟩ := call_joinable h c
    obtain ⟨u', hu', hcount'⟩ := ih (u := v) (by rw [hobject]; exact h)
    refine ⟨u', Transition.exec_cons_eq_some.2 ⟨v, hv, hu'⟩, ?_⟩
    rw [hobject] at hcount'
    rw [hcount', hcount, List.length_cons]
    omega

/-- On an object that holds a thread, whatever was moved before, `join` and `detach` release it at
most once exactly if they are called at most once. -/
theorem releasedOnce_iff (s₀ : State Exec Func Args) (hs₀ : Starts s₀) (tid : Int)
    (ps : List Party) (s : State Exec Func Args)
    (hr : Transition.exec (step tid) s₀ ps = some s) (x : Thread Exec Func Args)
    (hx : x ∈ s.objects) (hattr : x.attr ≠ none) (calls : List Call) :
    ReleasedOnce x calls ↔ calls.length ≤ 1 := by
  have hjoinable : Joinable s :=
    Transition.invariant (fun _ _ _ h hs => h.step hs) (joinable_of_starts hs₀) hr
  have hx : x.attr = some .joinable := by
    cases hd : x.attr with
    | none => exact absurd hd hattr
    | some state =>
      cases state with
      | joinable => rfl
      | detached => exact absurd hd (hjoinable x hx)
  obtain ⟨u, hu, hcount⟩ := exec_call_joinable (u := ⟨x, []⟩) hx calls
  rw [List.countP_nil, Nat.zero_add] at hcount
  unfold ReleasedOnce
  rw [hu]
  constructor
  · rintro ⟨u', hu', hle⟩
    cases hu'
    rwa [hcount] at hle
  · exact fun hle => ⟨u, rfl, by
      rw [hcount]
      exact hle⟩

/-- The constructor has returned and the job is done. -/
def doneRun : List Party := [.new, .new, .creating, .creating, .new, .new]

theorem releasedOnce_done : ∃ s : State Nat Nat Nat,
    Transition.exec (step 7) (startExec 1 3) doneRun = some s ∧
      ReleasedOnce s.object [.join] := by
  have hrun : (Transition.exec (step 7) (startExec 1 3 : State Nat Nat Nat) doneRun).map
      (fun s => (s.object.attr, s.creator)) = some (some .joinable, .constructed) := by decide
  obtain ⟨s, hs, hobs⟩ := Option.map_eq_some_iff.1 hrun
  obtain ⟨hattr, hcreator⟩ := Prod.mk.inj hobs
  refine ⟨s, hs, (releasedOnce_iff _ (.exec 1 3) 7 doneRun s hs s.object ?_ ?_ [.join]).2 ?_⟩
  · simp [State.objects, hcreator]
  · simp [hattr]
  · decide

theorem not_releasedOnce : ¬ ∀ (ps : List Party) (s : State Nat Nat Nat) (calls : List Call),
    Transition.exec (step 7) (startExec 1 3) ps = some s → s.creator = .constructed →
      ReleasedOnce s.object calls := by
  intro h
  have hrun : (Transition.exec (step 7) (startExec 1 3 : State Nat Nat Nat) doneRun).map
      (fun s => (s.creator, (Transition.exec call ⟨s.object, []⟩ [.detach, .join]).map
        (·.effects))) = some (.constructed, some [.pthreadDetach 1, .pthreadJoin 1]) := by decide
  have hid : (Transition.exec (step 7) (startExec 1 3 : State Nat Nat Nat) doneRun).map
      (·.object.threadId) = some 1 := by decide
  obtain ⟨s, hs, hobs⟩ := Option.map_eq_some_iff.1 hrun
  obtain ⟨hcreator, heffects⟩ := Prod.mk.inj hobs
  have hid : s.object.threadId = 1 := by simpa [hs] using hid
  obtain ⟨u, hu, hle⟩ := h doneRun s [.detach, .join] hs hcreator
  have hu : u.effects = [.pthreadDetach 1, .pthreadJoin 1] := by simpa [hu] using heffects
  rw [hu, hid] at hle
  exact absurd hle (by decide)

end LittleLearning.Concurrent.Thread
