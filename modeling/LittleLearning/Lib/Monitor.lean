import LittleLearning.Lib.Exec
import Mathlib.Logic.Function.Basic

/-!
# Monitors

Calls on data under one mutex, by any threads. A call takes the mutex, waits at a
condition variable until it is ready (`wait(lock, ready)`: it tests, and sleeps
where the test fails, with the mutex let go in the same step), acts, notifies
all that wait at some condition variable, and lets go of the mutex. A thread
that is woken, for whatever reason, takes the mutex again and tests again.

The rules: what the acts preserve holds of the data at any time; an act finds
its call ready; and where each act notifies those it makes ready, nobody sleeps
who could go on, except while a notification is on its way.
-/

/-- What the calls `ι` on data `σ` do; `κ` are the condition variables. -/
structure Monitor (ι κ σ : Type*) where
  waits : ι → Option κ
  ready : ι → σ → Bool
  act : ι → σ → σ
  notifies : ι → Option κ

namespace Monitor

open Transition

/-- Where a thread is in a call. -/
inductive Stage (ι : Type*) where
  | outside
  /-- At the mutex, for the first time or after a wakeup. -/
  | locking (i : ι)
  | testing (i : ι)
  | asleep (i : ι)
  | acting (i : ι)
  | notifying (i : ι)
  | leaving (i : ι)
  deriving DecidableEq

structure State (τ ι σ : Type*) where
  data : σ
  /-- Who has the mutex. -/
  owner : Option τ
  stage : τ → Stage ι

inductive Act (τ ι : Type*) where
  | call (t : τ) (i : ι)
  | go (t : τ)
  /-- A wakeup without a notification. -/
  | wake (t : τ)

/-- The stages with the mutex. -/
def Stage.Inside {ι : Type*} : Stage ι → Prop
  | .testing _ | .acting _ | .notifying _ | .leaving _ => True
  | .outside | .locking _ | .asleep _ => False

variable {τ ι κ σ : Type*} [DecidableEq τ] [DecidableEq κ]

def State.goto (s : State τ ι σ) (t : τ) (stage : Stage ι) : State τ ι σ :=
  { s with stage := Function.update s.stage t stage }

def init (data : σ) : State τ ι σ := ⟨data, none, fun _ => .outside⟩

/-- A call of `i` notifies where one of `j` waits. -/
def Wakes (m : Monitor ι κ σ) (i j : ι) : Prop :=
  m.notifies i ≠ none ∧ m.notifies i = m.waits j

instance (m : Monitor ι κ σ) (i j : ι) : Decidable (m.Wakes i j) :=
  inferInstanceAs (Decidable (_ ∧ _))

/-- `notify_all` -/
def notifyAll (m : Monitor ι κ σ) (i : ι) (stage : τ → Stage ι) (t : τ) : Stage ι :=
  match stage t with
  | .asleep j => if m.Wakes i j then .locking j else .asleep j
  | st => st

def step (m : Monitor ι κ σ) (s : State τ ι σ) : Act τ ι → Option (State τ ι σ)
  | .call t i =>
    match s.stage t with
    | .outside => some (s.goto t (.locking i))
    | _ => none
  | .go t =>
    match s.stage t with
    | .outside | .asleep _ => none
    | .locking i =>
      if s.owner.isNone then some { s.goto t (.testing i) with owner := some t } else none
    | .testing i =>
      if m.ready i s.data then some (s.goto t (.acting i))
      else some { s.goto t (.asleep i) with owner := none }
    | .acting i => some { s.goto t (.notifying i) with data := m.act i s.data }
    | .notifying i => some ({ s with stage := m.notifyAll i s.stage }.goto t (.leaving i))
    | .leaving _ => some { s.goto t .outside with owner := none }
  | .wake t =>
    match s.stage t with
    | .asleep i => some (s.goto t (.locking i))
    | _ => none

/-! ### What a step can do -/

inductive Move (m : Monitor ι κ σ) (s : State τ ι σ) : State τ ι σ → Prop where
  | call (t : τ) (i : ι) : s.stage t = .outside → Move m s (s.goto t (.locking i))
  | wake (t : τ) (i : ι) : s.stage t = .asleep i → Move m s (s.goto t (.locking i))
  | lock (t : τ) (i : ι) : s.stage t = .locking i → s.owner = none →
      Move m s { s.goto t (.testing i) with owner := some t }
  | ready (t : τ) (i : ι) : s.stage t = .testing i → m.ready i s.data = true →
      Move m s (s.goto t (.acting i))
  | sleep (t : τ) (i : ι) : s.stage t = .testing i → m.ready i s.data = false →
      Move m s { s.goto t (.asleep i) with owner := none }
  | act (t : τ) (i : ι) : s.stage t = .acting i →
      Move m s { s.goto t (.notifying i) with data := m.act i s.data }
  | notify (t : τ) (i : ι) : s.stage t = .notifying i →
      Move m s ({ s with stage := m.notifyAll i s.stage }.goto t (.leaving i))
  | leave (t : τ) (i : ι) : s.stage t = .leaving i →
      Move m s { s.goto t .outside with owner := none }

set_option linter.unusedSectionVars false

variable {m : Monitor ι κ σ} {s s' : State τ ι σ} {t u : τ} {i j : ι} {a : Act τ ι}

theorem step_cases (h : m.step s a = some s') : m.Move s s' := by
  cases a with
  | call t i =>
    simp only [step] at h
    split at h
    · rename_i hout
      cases h
      exact .call t i hout
    · cases h
  | go t =>
    simp only [step] at h
    split at h
    · cases h
    · cases h
    · rename_i i hst
      simp only [Option.ite_none_right_eq_some, Option.isNone_iff_eq_none, Option.some.injEq] at h
      exact h.2 ▸ .lock t i hst h.1
    · rename_i i hst
      split at h <;> rename_i hready <;> cases h
      · exact .ready t i hst hready
      · exact .sleep t i hst (by simpa using hready)
    · rename_i i hst
      cases h
      exact .act t i hst
    · rename_i i hst
      cases h
      exact .notify t i hst
    · rename_i i hst
      cases h
      exact .leave t i hst
  | wake t =>
    simp only [step] at h
    split at h
    · rename_i i hst
      cases h
      exact .wake t i hst
    · cases h

@[simp] theorem goto_stage_self (st : Stage ι) : (s.goto t st).stage t = st :=
  Function.update_self ..

theorem goto_stage_ne (st : Stage ι) (h : u ≠ t) : (s.goto t st).stage u = s.stage u :=
  Function.update_of_ne h ..

/-- A notification leaves those inside where they are. -/
theorem notifyAll_inside {stage : τ → Stage ι} :
    (m.notifyAll i stage t).Inside ↔ (stage t).Inside := by
  unfold notifyAll
  split
  · rename_i j hst
    rw [hst]
    split <;> exact .rfl
  · exact .rfl

theorem notifyAll_acting {stage : τ → Stage ι} (h : m.notifyAll i stage t = .acting j) :
    stage t = .acting j := by
  unfold notifyAll at h
  split at h
  · split at h <;> cases h
  · exact h

theorem notifyAll_asleep {stage : τ → Stage ι} (h : m.notifyAll i stage t = .asleep j) :
    stage t = .asleep j ∧ ¬ m.Wakes i j := by
  unfold notifyAll at h
  split at h
  · rename_i k hst
    split at h
    · cases h
    · rename_i hno
      cases h
      exact ⟨hst, hno⟩
  · rename_i hno
    exact absurd h (hno j)

/-! ### The mutex -/

/-- The owner of the mutex is the one thread inside, and an act finds its call ready. -/
structure Exclusive (m : Monitor ι κ σ) (s : State τ ι σ) : Prop where
  owner : ∀ t, s.owner = some t ↔ (s.stage t).Inside
  ready : ∀ t i, s.stage t = .acting i → m.ready i s.data = true

theorem exclusive_init (data : σ) : Exclusive m (init data : State τ ι σ) :=
  ⟨fun _ => iff_of_false nofun id, fun _ _ => nofun⟩

theorem Exclusive.eq (h : Exclusive m s) (ht : (s.stage t).Inside) (hu : (s.stage u).Inside) :
    t = u :=
  Option.some.inj (((h.owner t).2 ht).symm.trans ((h.owner u).2 hu))

/-- One thread goes to another stage without taking the mutex or letting it go. -/
theorem Exclusive.goto {st : Stage ι} (h : Exclusive m s)
    (hst : st.Inside ↔ (s.stage t).Inside)
    (hready : ∀ i, st = .acting i → m.ready i s.data = true) : Exclusive m (s.goto t st) := by
  constructor
  · intro u
    by_cases hu : u = t
    · subst hu
      rw [goto_stage_self, hst]
      exact h.owner u
    · rw [goto_stage_ne st hu]
      exact h.owner u
  · intro u i hui
    by_cases hu : u = t
    · subst hu
      rw [goto_stage_self] at hui
      exact hready i hui
    · rw [goto_stage_ne st hu] at hui
      exact h.ready u i hui

/-- The thread inside lets go of the mutex. -/
theorem Exclusive.release {st : Stage ι} (h : Exclusive m s) (ht : (s.stage t).Inside)
    (hst : ¬ st.Inside) : Exclusive m { s.goto t st with owner := none } := by
  have hno : ∀ u, ¬ (((s.goto t st).stage u).Inside) := by
    intro u hin
    by_cases hu : u = t
    · subst hu
      rw [goto_stage_self] at hin
      exact hst hin
    · rw [goto_stage_ne st hu] at hin
      exact hu (h.eq hin ht)
  refine ⟨fun u => iff_of_false nofun (hno u), fun u i hu => ?_⟩
  have hin : ((s.goto t st).stage u).Inside := by
    rw [show (s.goto t st).stage u = .acting i from hu]
    trivial
  exact absurd hin (hno u)

theorem Exclusive.step (h : Exclusive m s) (hs : m.step s a = some s') : Exclusive m s' := by
  cases step_cases hs with
  | call t i hst => exact h.goto (by rw [hst]; exact .rfl) (by simp)
  | wake t i hst => exact h.goto (by rw [hst]; exact .rfl) (by simp)
  | lock t i hst hfree =>
    have hno : ∀ u, ¬ (s.stage u).Inside := by
      intro u hin
      have := (h.owner u).2 hin
      rw [hfree] at this
      cases this
    constructor
    · intro u
      by_cases hu : u = t
      · subst hu
        exact iff_of_true rfl (by rw [goto_stage_self]; trivial)
      · refine iff_of_false (fun he => hu (Option.some.inj he).symm) ?_
        rw [goto_stage_ne _ hu]
        exact hno u
    · intro u j hj
      by_cases hu : u = t
      · subst hu
        rw [goto_stage_self] at hj
        cases hj
      · rw [goto_stage_ne _ hu] at hj
        exact h.ready u j hj
  | ready t i hst hready =>
    refine h.goto (by rw [hst]; exact .rfl) fun j hj => ?_
    cases hj
    exact hready
  | sleep t i hst _ => exact h.release (by rw [hst]; trivial) id
  | act t i hst =>
    have hin : (s.stage t).Inside := by
      rw [hst]
      trivial
    have hg : Exclusive m (s.goto t (.notifying i)) := h.goto (by rw [hst]; exact .rfl) (by simp)
    refine ⟨hg.owner, fun u j hj => ?_⟩
    -- nobody else is inside to see the data change
    by_cases hu : u = t
    · subst hu
      rw [goto_stage_self] at hj
      cases hj
    · rw [goto_stage_ne _ hu] at hj
      exact absurd (h.eq (by rw [hj]; trivial) hin) hu
  | notify t i hst =>
    have hn : Exclusive m { s with stage := m.notifyAll i s.stage } :=
      ⟨fun u => (h.owner u).trans notifyAll_inside.symm,
        fun u j hj => h.ready u j (notifyAll_acting hj)⟩
    refine hn.goto ?_ (by simp)
    rw [show ({ s with stage := m.notifyAll i s.stage } : State τ ι σ).stage t =
      m.notifyAll i s.stage t from rfl, notifyAll_inside, hst]
    exact .rfl
  | leave t i hst => exact h.release (by rw [hst]; trivial) id

/-! ### The data -/

/-- What the acts of ready calls preserve. -/
def Preserves (m : Monitor ι κ σ) (I : σ → Prop) : Prop :=
  ∀ i d, I d → m.ready i d = true → I (m.act i d)

theorem data_step {I : σ → Prop} (hI : m.Preserves I) (h : Exclusive m s) (hd : I s.data)
    (hs : m.step s a = some s') : I s'.data := by
  cases step_cases hs with
  | act t i hst => exact hI i s.data hd (h.ready t i hst)
  | _ => exact hd

/-! ### Sleepers -/

/-- An act that makes a call ready notifies where it waits. -/
def Signals (m : Monitor ι κ σ) (I : σ → Prop) : Prop :=
  ∀ i j d, I d → m.ready i d = true → m.ready j d = false → m.ready j (m.act i d) = true →
    m.Wakes i j

/-- Whoever sleeps is not ready, or about to be notified. -/
def Heard (m : Monitor ι κ σ) (s : State τ ι σ) : Prop :=
  ∀ t j, s.stage t = .asleep j →
    m.ready j s.data = false ∨ ∃ u i, s.stage u = .notifying i ∧ m.Wakes i j

theorem heard_init (data : σ) : Heard m (init data : State τ ι σ) := fun _ _ => nofun

/-- While the thread inside is not notifying, whoever sleeps is not ready. -/
theorem Heard.not_ready (hh : Heard m s) (h : Exclusive m s) (ht : (s.stage t).Inside)
    (hno : ∀ i, s.stage t ≠ .notifying i) (hu : s.stage u = .asleep j) :
    m.ready j s.data = false := by
  apply (hh u j hu).resolve_right
  rintro ⟨v, i, hv, -⟩
  have hvt : v = t := h.eq (by rw [hv]; trivial) ht
  exact hno i (hvt ▸ hv)

/-- With the mutex free, whoever sleeps is not ready. -/
theorem Heard.not_ready_of_free (hh : Heard m s) (h : Exclusive m s) (hfree : s.owner = none)
    (hu : s.stage u = .asleep j) : m.ready j s.data = false := by
  apply (hh u j hu).resolve_right
  rintro ⟨v, i, hv, -⟩
  have := (h.owner v).2 (by rw [hv]; trivial)
  rw [hfree] at this
  cases this

/-- A thread that neither falls asleep nor was notifying goes to another stage. -/
theorem Heard.goto {st : Stage ι} {owner : Option τ} (hh : Heard m s)
    (hsleep : ∀ j, st = .asleep j → m.ready j s.data = false)
    (hno : ∀ i, s.stage t ≠ .notifying i) : Heard m { s.goto t st with owner := owner } := by
  intro u j hu
  by_cases hut : u = t
  · subst hut
    exact .inl (hsleep j ((goto_stage_self st).symm.trans hu))
  · apply (hh u j ((goto_stage_ne st hut).symm.trans hu)).imp_right
    rintro ⟨v, i, hv, hw⟩
    have hvt : v ≠ t := by
      rintro rfl
      exact hno i hv
    exact ⟨v, i, (goto_stage_ne st hvt).trans hv, hw⟩

theorem Heard.step {I : σ → Prop} (hI : m.Signals I) (hh : Heard m s) (h : Exclusive m s)
    (hd : I s.data) (hs : m.step s a = some s') : Heard m s' := by
  cases step_cases hs with
  | call t i hst | wake t i hst | lock t i hst _ | ready t i hst _ | leave t i hst =>
    exact hh.goto (by simp) (by simp [hst])
  | sleep t i hst hready =>
    refine hh.goto (fun j hj => ?_) (by simp [hst])
    cases hj
    exact hready
  | act t i hst =>
    intro u j hu
    have hut : u ≠ t := by
      rintro rfl
      rw [goto_stage_self] at hu
      cases hu
    rw [goto_stage_ne _ hut] at hu
    have hbefore := hh.not_ready h (t := t) (by rw [hst]; trivial) (by simp [hst]) hu
    cases hafter : m.ready j (m.act i s.data) with
    | false => exact .inl rfl
    | true =>
      exact .inr ⟨t, i, goto_stage_self _, hI i j s.data hd (h.ready t i hst) hbefore hafter⟩
  | notify t i hst =>
    intro u j hu
    have hut : u ≠ t := by
      rintro rfl
      rw [goto_stage_self] at hu
      cases hu
    rw [goto_stage_ne _ hut] at hu
    obtain ⟨hu, hno⟩ := notifyAll_asleep hu
    refine .inl ((hh u j hu).resolve_right ?_)
    rintro ⟨v, k, hv, hw⟩
    obtain rfl : v = t := h.eq (by rw [hv]; trivial) (by rw [hst]; trivial)
    rw [hst] at hv
    cases hv
    exact hno hw

/-- Whoever sleeps after a step slept before it, or has just tested. -/
theorem Move.asleep (hm : m.Move s s') (hu : s'.stage u = .asleep j) :
    s.stage u = .asleep j ∨ s.stage u = .testing j ∧ m.ready j s.data = false := by
  have hgoto : ∀ {t : τ} {st : Stage ι}, (∀ k, st ≠ .asleep k) → (s.goto t st).stage u = .asleep j →
      s.stage u = .asleep j := by
    intro t st hst hu
    by_cases hut : u = t
    · subst hut
      rw [goto_stage_self] at hu
      exact absurd hu (hst j)
    · rwa [goto_stage_ne st hut] at hu
  cases hm with
  | sleep t i hst hready =>
    by_cases hut : u = t
    · subst hut
      rw [goto_stage_self] at hu
      cases hu
      exact .inr ⟨hst, hready⟩
    · rw [goto_stage_ne _ hut] at hu
      exact .inl hu
  | notify t i hst =>
    by_cases hut : u = t
    · subst hut
      rw [goto_stage_self] at hu
      cases hu
    · rw [goto_stage_ne _ hut] at hu
      exact .inl (notifyAll_asleep hu).1
  | _ => exact .inl (hgoto (by simp) hu)

/-- No two threads sleep in these calls. -/
def Apart (s : State τ ι σ) (i j : ι) : Prop :=
  ∀ t u, ¬ (s.stage t = .asleep i ∧ s.stage u = .asleep j)

/-- Of two calls one of which is ready at any time, not both sleep. -/
theorem Apart.step {I : σ → Prop} (hI : ∀ d, I d → m.ready i d = true ∨ m.ready j d = true)
    (ha : Apart s i j) (hh : Heard m s) (h : Exclusive m s) (hd : I s.data)
    (hs : m.step s a = some s') : Apart s' i j := by
  rintro t u ⟨ht, hu⟩
  have hm := step_cases hs
  have htested : ∀ {v w : τ} {k l : ι}, s.stage v = .testing k → s.stage w = .asleep l →
      m.ready l s.data = false := fun hv hw =>
    hh.not_ready h (by rw [hv]; trivial) (by simp [hv]) hw
  have hone : m.ready i s.data = true ∨ m.ready j s.data = true := hI s.data hd
  rcases hm.asleep ht with ht | ⟨ht, hti⟩
  · rcases hm.asleep hu with hu | ⟨hu, huj⟩
    · exact ha t u ⟨ht, hu⟩
    · simp [huj, htested hu ht] at hone
  · rcases hm.asleep hu with hu | ⟨hu, huj⟩
    · simp [hti, htested ht hu] at hone
    · simp [hti, huj] at hone

end Monitor
