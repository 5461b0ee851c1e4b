import LittleLearning.Lib.Exec

/-!
# A thread and its object

The constructor of `Thread` gives the new thread a pointer to the object and
waits until it has recorded its tid there; the job is read through the same
pointer after that. A step is one of the new thread in `Thread::run`, or one of
the creating thread: the wait, the return, and the swap of one member in the
move constructor. The job is the thread's own exactly in the runs in which
`func` is swapped after it was called.
-/

namespace LittleLearning.Concurrent

open Transition

inductive DetachState where
  | joinable
  | detached
  deriving DecidableEq

/-- What is not initialised, a function object that holds none and a null pointer are `none`. -/
structure Thread (Exec Func Args : Type*) where
  tid : Int
  threadId : Nat
  attr : Option DetachState
  semaphore : Option Nat
  exec : Option Exec
  func : Option Func
  args : Option Args
  deriving DecidableEq

namespace Thread

variable {Exec Func Args : Type*}

/-- The members, in the order the move constructor swaps them. -/
inductive Member where
  | tid
  | threadId
  | attr
  | semaphore
  | exec
  | func
  | args
  deriving DecidableEq

def Member.next : Member → Option Member
  | .tid => some .threadId
  | .threadId => some .attr
  | .attr => some .semaphore
  | .semaphore => some .exec
  | .exec => some .func
  | .func => some .args
  | .args => none

/-- An object when the body of the move constructor begins. -/
def fresh : Thread Exec Func Args := ⟨-1, 0, none, none, none, none, none⟩

/-- `std::swap` of a member of both. -/
def swap (x other : Thread Exec Func Args) :
    Member → Thread Exec Func Args × Thread Exec Func Args
  | .tid => ({ x with tid := other.tid }, { other with tid := x.tid })
  | .threadId => ({ x with threadId := other.threadId }, { other with threadId := x.threadId })
  | .attr => ({ x with attr := other.attr }, { other with attr := x.attr })
  | .semaphore => ({ x with semaphore := other.semaphore }, { other with semaphore := x.semaphore })
  | .exec => ({ x with exec := other.exec }, { other with exec := x.exec })
  | .func => ({ x with func := other.func }, { other with func := x.func })
  | .args => ({ x with args := other.args }, { other with args := x.args })

/-- What the new thread has called. -/
inductive Job (Exec Func Args : Type*) where
  | func (func : Func) (args : Option Args)
  | exec (exec : Exec)
  /-- The function object holds none: `std::bad_function_call`. -/
  | badFunctionCall
  deriving DecidableEq

/-- Where the new thread is in `Thread::run`. -/
inductive Run (Exec Func Args : Type*) where
  | recordTid
  | post
  /-- At the test of `thread->args`. -/
  | test
  | func
  | exec
  | done (job : Job Exec Func Args)
  deriving DecidableEq

/-- Where the creating thread is. -/
inductive Creator (Exec Func Args : Type*) where
  /-- At `sem_wait`. -/
  | wait
  /-- At the end of the constructor. -/
  | returning
  | constructed
  /-- In the move constructor of `made`, at the swap of `member`. -/
  | moving (member : Member) (made : Thread Exec Func Args)
  deriving DecidableEq

/-- `object` is the one whose address `pthread_create` was given. -/
structure State (Exec Func Args : Type*) where
  object : Thread Exec Func Args
  made : List (Thread Exec Func Args)
  run : Run Exec Func Args
  creator : Creator Exec Func Args
  deriving DecidableEq

/-- `pthread_create` has made the thread `threadId`. -/
def start (threadId : Nat) (func : Func) (args : Option Args) : State Exec Func Args where
  object := ⟨-1, threadId, some .joinable, some 0, none, some func, args⟩
  made := []
  run := .recordTid
  creator := .wait

inductive Party where
  | new
  | creating
  deriving DecidableEq

/-- `thread->func(thread->args)` -/
def callFunc (object : Thread Exec Func Args) : Job Exec Func Args :=
  match object.func with
  | some func => .func func object.args
  | none => .badFunctionCall

/-- `thread->exec()` -/
def callExec (object : Thread Exec Func Args) : Job Exec Func Args :=
  match object.exec with
  | some exec => .exec exec
  | none => .badFunctionCall

/-- A step of `run`; `tid` is what `GetTid` returns. -/
def runStep (tid : Int) (s : State Exec Func Args) : Option (State Exec Func Args) :=
  match s.run with
  | .recordTid => some { s with object := { s.object with tid := tid }, run := .post }
  | .post =>
    s.object.semaphore.map fun n =>
      { s with object := { s.object with semaphore := some (n + 1) }, run := .test }
  | .test => some { s with run := if s.object.args.isSome then .func else .exec }
  | .func => some { s with run := .done (callFunc s.object) }
  | .exec => some { s with run := .done (callExec s.object) }
  | .done _ => none

def createStep (s : State Exec Func Args) : Option (State Exec Func Args) :=
  match s.creator with
  | .wait =>
    match s.object.semaphore with
    | some (n + 1) =>
      some { s with object := { s.object with semaphore := some n }, creator := .returning }
    | _ => none
  | .returning => some { s with creator := .constructed }
  | .constructed => some { s with creator := .moving .tid fresh }
  | .moving member made =>
    let (made, object) := made.swap s.object member
    match member.next with
    | some next => some { s with object := object, creator := .moving next made }
    | none => some { s with object := object, made := s.made ++ [made], creator := .constructed }

def step (tid : Int) (s : State Exec Func Args) : Party → Option (State Exec Func Args)
  | .new => runStep tid s
  | .creating => createStep s

variable {s s' : State Exec Func Args} {p : Party} {tid : Int} {func : Func} {args : Args}

/-- The steps of the creating thread. -/
theorem createStep_cases (hs : createStep s = some s') :
    (s.creator = .wait ∧ ∃ n, s.object.semaphore = some (n + 1) ∧
      s' = { s with
        object := { s.object with semaphore := some n }
        creator := .returning }) ∨
    (s.creator = .returning ∧ s' = { s with creator := .constructed }) ∨
    (s.creator = .constructed ∧ s' = { s with creator := .moving .tid fresh }) ∨
    ∃ member made, s.creator = .moving member made ∧
      s' = match member.next with
        | some next =>
          { s with
            object := (made.swap s.object member).2
            creator := .moving next (made.swap s.object member).1 }
        | none =>
          { s with
            object := (made.swap s.object member).2
            made := s.made ++ [(made.swap s.object member).1]
            creator := .constructed } := by
  unfold createStep at hs
  cases hc : s.creator with
  | wait =>
    simp only [hc] at hs
    split at hs
    · rename_i n hsem
      exact .inl ⟨rfl, n, hsem, (Option.some.inj hs).symm⟩
    · cases hs
  | returning =>
    simp only [hc] at hs
    exact .inr (.inl ⟨rfl, (Option.some.inj hs).symm⟩)
  | constructed =>
    simp only [hc] at hs
    exact .inr (.inr (.inl ⟨rfl, (Option.some.inj hs).symm⟩))
  | moving member made =>
    simp only [hc] at hs
    refine .inr (.inr (.inr ⟨member, made, rfl, ?_⟩))
    cases hn : member.next with
    | some next =>
      simp only [hn] at hs
      exact (Option.some.inj hs).symm
    | none =>
      simp only [hn] at hs
      exact (Option.some.inj hs).symm

/-! ### The handshake and the moves -/

/-- The creating thread waits until the tid is recorded, and an object that is being made takes
`func` and `args` in place of nothing. -/
structure Sound (s : State Exec Func Args) : Prop where
  waits : s.run = .recordTid ∨ s.run = .post → s.creator = .wait ∧ s.object.semaphore = some 0
  func : ∀ member made, s.creator = .moving member made → member ≠ .args → made.func = none
  args : ∀ member made, s.creator = .moving member made → made.args = none
  swapped : ∀ made, s.creator = .moving .args made → s.object.func = none

/-- Between two moves there is only the handshake. -/
theorem Sound.of_constructed (hwaits : s.run = .recordTid ∨ s.run = .post →
      s.creator = .wait ∧ s.object.semaphore = some 0)
    (hno : ∀ member made, s.creator ≠ .moving member made) : Sound s where
  waits := hwaits
  func member made hm := absurd hm (hno member made)
  args member made hm := absurd hm (hno member made)
  swapped made hm := absurd hm (hno .args made)

theorem sound_start (threadId : Nat) (func : Func) (args : Option Args) :
    Sound (start threadId func args : State Exec Func Args) :=
  .of_constructed (fun _ => ⟨rfl, rfl⟩) fun member made hm => by cases hm

theorem Sound.runStep (h : Sound s) (hs : runStep tid s = some s') : Sound s' := by
  unfold Thread.runStep at hs
  cases hr : s.run with
  | recordTid =>
    simp only [hr, Option.some.injEq] at hs
    subst hs
    exact ⟨fun _ => h.waits (.inl hr), h.func, h.args, h.swapped⟩
  | post =>
    have hwait := h.waits (.inr hr)
    simp only [hr, hwait.2, Option.map_some, Option.some.injEq] at hs
    subst hs
    exact ⟨by simp, h.func, h.args, h.swapped⟩
  | test =>
    simp only [hr, Option.some.injEq] at hs
    subst hs
    refine ⟨fun hrun => ?_, h.func, h.args, h.swapped⟩
    by_cases ha : s.object.args.isSome = true <;> simp [ha] at hrun
  | func | exec =>
    simp only [hr, Option.some.injEq] at hs
    subst hs
    exact ⟨by simp, h.func, h.args, h.swapped⟩
  | done job => simp [hr] at hs

/-- Once the creating thread goes on, the new one is past the handshake. -/
theorem Sound.posted (h : Sound s) (hc : s.creator ≠ .wait) :
    ¬ (s.run = .recordTid ∨ s.run = .post) :=
  fun hrun => hc (h.waits hrun).1

theorem Sound.createStep (h : Sound s) (hs : createStep s = some s') : Sound s' := by
  obtain ⟨hc, n, hsem, rfl⟩ | ⟨hc, rfl⟩ | ⟨hc, rfl⟩ | ⟨member, made, hc, rfl⟩ :=
    createStep_cases hs
  · refine .of_constructed (fun hrun => ?_) fun member made hm => by cases hm
    have hzero := (h.waits hrun).2
    rw [hsem] at hzero
    cases hzero
  · have hposted := h.posted (by simp [hc])
    exact .of_constructed (fun hrun => absurd hrun hposted) fun member made hm => by cases hm
  · have hposted := h.posted (by simp [hc])
    refine ⟨fun hrun => absurd hrun hposted, ?_, ?_, fun made hm => by cases hm⟩
    · rintro member made hm -
      cases hm
      rfl
    · rintro member made hm
      cases hm
      rfl
  · have hposted := h.posted (by simp [hc])
    have hfunc := h.func member made hc
    have hargs := h.args member made hc
    cases member with
    | args =>
      exact .of_constructed (fun hrun => absurd hrun hposted) fun member made hm => by cases hm
    | func =>
      refine ⟨fun hrun => absurd hrun hposted, ?_, ?_, ?_⟩
      · rintro member made' hm hne
        cases hm
        exact absurd rfl hne
      · rintro member made' hm
        cases hm
        exact hargs
      · exact fun _ _ => hfunc (by simp)
    | _ =>
      refine ⟨fun hrun => absurd hrun hposted, ?_, ?_, fun made hm => by cases hm⟩
      · rintro member made' hm -
        cases hm
        exact hfunc (by simp)
      · rintro member made' hm
        cases hm
        exact hargs

theorem Sound.step (h : Sound s) (hs : Thread.step tid s p = some s') : Sound s' := by
  cases p with
  | new => exact h.runStep hs
  | creating => exact h.createStep hs

/-! ### Whose job runs -/

/-- The object holds the job until it is called, and then it was that. -/
def OwnJob (func : Func) (args : Args) (s : State Exec Func Args) : Prop :=
  match s.run with
  | .recordTid | .post | .test | .func => s.object.func = some func ∧ s.object.args = some args
  | .exec => False
  | .done job => job = .func func (some args)

/-- The step does not swap `func` before the new thread has called it. -/
def CalledFirst (s : State Exec Func Args) (p : Party) : Prop :=
  p = .creating → (∃ made, s.creator = .moving .func made) → ∃ job, s.run = .done job

theorem ownJob_congr (hrun : s'.run = s.run) (hfunc : s'.object.func = s.object.func)
    (hargs : s'.object.args = s.object.args) : OwnJob func args s' ↔ OwnJob func args s := by
  unfold OwnJob
  rw [hrun, hfunc, hargs]

/-- Without `func` in the object the job is the thread's own if it was called already. -/
theorem ownJob_of_none (h : s.object.func = none) :
    OwnJob func args s ↔ s.run = .done (.func func (some args)) := by
  unfold OwnJob
  rw [h]
  cases s.run <;> simp

theorem ownJob_runStep (hs : runStep tid s = some s') :
    OwnJob func args s' ↔ OwnJob func args s := by
  unfold Thread.runStep at hs
  cases hr : s.run with
  | recordTid =>
    simp only [hr, Option.some.injEq] at hs
    subst hs
    simp [OwnJob, hr]
  | post =>
    simp only [hr, Option.map_eq_some_iff] at hs
    obtain ⟨n, -, rfl⟩ := hs
    simp [OwnJob, hr]
  | test =>
    simp only [hr, Option.some.injEq] at hs
    subst hs
    cases ha : s.object.args with
    | none => simp [OwnJob, hr, ha]
    | some args' => simp [OwnJob, hr, ha]
  | func =>
    simp only [hr, Option.some.injEq] at hs
    subst hs
    cases hf : s.object.func <;> simp [OwnJob, hr, callFunc, hf]
  | exec =>
    simp only [hr, Option.some.injEq] at hs
    subst hs
    cases he : s.object.exec <;> simp [OwnJob, hr, callExec, he]
  | done job => simp [hr] at hs

theorem Sound.ownJob_createStep (h : Sound s) (hs : Thread.createStep s = some s') :
    OwnJob func args s' ↔ OwnJob func args s ∧ CalledFirst s .creating := by
  have hother : (∀ made, s.creator ≠ .moving .func made) → CalledFirst s .creating :=
    fun hne _ ⟨made, hm⟩ => absurd hm (hne made)
  obtain ⟨hc, n, -, rfl⟩ | ⟨hc, rfl⟩ | ⟨hc, rfl⟩ | ⟨member, made, hc, rfl⟩ := createStep_cases hs
  · rw [and_iff_left (hother (by simp [hc]))]
    exact ownJob_congr rfl rfl rfl
  · rw [and_iff_left (hother (by simp [hc]))]
    exact ownJob_congr rfl rfl rfl
  · rw [and_iff_left (hother (by simp [hc]))]
    exact ownJob_congr rfl rfl rfl
  · cases member with
    | func =>
      refine (ownJob_of_none (h.func .func made hc (by simp))).trans ?_
      constructor
      · intro (hdone : s.run = .done (.func func (some args)))
        exact ⟨by simp [OwnJob, hdone], fun _ _ => ⟨_, hdone⟩⟩
      · rintro ⟨hown, hfirst⟩
        obtain ⟨job, hdone⟩ := hfirst rfl ⟨made, hc⟩
        simp only [OwnJob, hdone] at hown
        exact hown ▸ hdone
    | args =>
      rw [and_iff_left (hother (by simp [hc]))]
      have hnone := h.swapped made hc
      exact Iff.trans (ownJob_of_none hnone) (ownJob_of_none hnone).symm
    | _ =>
      rw [and_iff_left (hother (by simp [hc]))]
      exact ownJob_congr rfl rfl rfl

theorem Sound.ownJob_step (h : Sound s) (hs : Thread.step tid s p = some s') :
    OwnJob func args s' ↔ OwnJob func args s ∧ CalledFirst s p := by
  cases p with
  | new =>
    rw [ownJob_runStep hs]
    exact (and_iff_left nofun).symm
  | creating => exact h.ownJob_createStep hs

/-- Nothing keeps the new thread from its call. -/
theorem Sound.new_step (h : Sound s) (hrun : ∀ job, s.run ≠ .done job) :
    Thread.step tid s .new ≠ none := by
  show Thread.runStep tid s ≠ none
  unfold Thread.runStep
  cases hr : s.run with
  | post => simp [(h.waits (.inr hr)).2]
  | done job => exact absurd hr (hrun job)
  | _ => simp

/-- The new thread always comes to a call, and what it has called is the function it was made for on
the argument it was made for exactly in the runs that swap `func` after the call. -/
theorem runs_own_job_iff (threadId : Nat) (tid : Int) (func : Func) (args : Args)
    (ps : List Party) (s : State Exec Func Args)
    (hr : Transition.exec (step tid) (start threadId func (some args)) ps = some s) :
    ((∀ job, s.run ≠ .done job) → step tid s .new ≠ none) ∧
      ∀ job, s.run = .done job → (job = .func func (some args) ↔
        Along (step tid) CalledFirst
          (start threadId func (some args) : State Exec Func Args) ps) := by
  have hstart : Sound (start threadId func (some args) : State Exec Func Args) := sound_start ..
  have hsound : Sound s := Transition.invariant (fun _ _ _ h hs => h.step hs) hstart hr
  refine ⟨hsound.new_step, fun job hdone => ?_⟩
  have hiff := exec_iff_along (I := Sound) (Q := OwnJob func args) (fun _ _ _ h hs => h.step hs)
    (fun _ _ _ h hs => h.ownJob_step hs) hstart hr
  have hown : OwnJob func args s ↔ job = .func func (some args) := by
    unfold OwnJob
    rw [hdone]
  rw [← hown, hiff]
  exact and_iff_right ⟨rfl, rfl⟩

/-- The job is called, and then the object is moved from. -/
def calledRun : List Party :=
  [.new, .new, .creating, .creating, .new, .new] ++ List.replicate 8 .creating

theorem runs_own_job_iff_called : ∃ s : State Nat Nat Nat,
    Transition.exec (step 7) (start 1 3 (some 5)) calledRun = some s ∧
      s.made.map (·.func) = [some 3] ∧
      Along (step 7) CalledFirst (start 1 3 (some 5) : State Nat Nat Nat) calledRun := by
  have hrun : (Transition.exec (step 7) (start 1 3 (some 5) : State Nat Nat Nat) calledRun).map
      (fun s => (s.made.map (·.func), s.run)) = some ([some 3], .done (.func 3 (some 5))) := by
    decide
  obtain ⟨s, hs, hobs⟩ := Option.map_eq_some_iff.1 hrun
  obtain ⟨hmade, hdone⟩ := Prod.mk.inj hobs
  exact ⟨s, hs, hmade, ((runs_own_job_iff 1 7 3 5 calledRun s hs).2 _ hdone).1 rfl⟩

/-- The constructor returns and the object is moved from before the new thread goes on. -/
def movedRun : List Party :=
  [.new, .new, .creating, .creating] ++ List.replicate 8 .creating ++ [.new, .new]

theorem not_runs_own_job : ¬ ∀ (ps : List Party) (s : State Nat Nat Nat) (job : Job Nat Nat Nat),
    Transition.exec (step 7) (start 1 3 (some 5)) ps = some s → s.run = .done job →
      job = .func 3 (some 5) := by
  intro h
  have hrun : (Transition.exec (step 7) (start 1 3 (some 5) : State Nat Nat Nat) movedRun).map
      (·.run) = some (.done .badFunctionCall) := by decide
  obtain ⟨s, hs, hdone⟩ := Option.map_eq_some_iff.1 hrun
  cases h movedRun s _ hs hdone

end Thread

end LittleLearning.Concurrent
