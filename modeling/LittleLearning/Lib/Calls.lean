import LittleLearning.Lib.Atomic
import LittleLearning.Lib.Monitor

/-!
# The calls of a monitor

`logStep` is a monitor with a log of its calls and what they answer. A call is
as if made where it acts, if it is ready there (`calls_atomic`). Where nobody
can go on, whoever is in a call sleeps and is not ready (`Heard.stuck`).
-/

namespace Monitor

open Transition Atomic

variable {τ ι κ σ ρ : Type*} [DecidableEq τ] [DecidableEq κ]

/-- A monitor, what the calls that have acted will answer, and the log. -/
structure Logged (τ ι σ ρ : Type*) where
  state : State τ ι σ
  answer : τ → Option ρ
  log : List (τ × Mark ι ρ)

def Logged.init (data : σ) : Logged τ ι σ ρ := ⟨Monitor.init data, fun _ => none, []⟩

/-- What a step logs: a call, what it answers once it acts, the return. -/
def Logged.note (answer : ι → σ → ρ) (s : Logged τ ι σ ρ) (state : State τ ι σ) :
    Act τ ι → Logged τ ι σ ρ
  | .call t i => { s with state := state, log := s.log ++ [(t, .call i)] }
  | .go t =>
    match s.state.stage t, s.answer t with
    | .acting i, _ =>
      { s with state := state, answer := Function.update s.answer t (some (answer i s.state.data)) }
    | .leaving _, some r => { s with state := state, log := s.log ++ [(t, .ret r)] }
    | _, _ => { s with state := state }
  | .wake _ => { s with state := state }

def logStep (m : Monitor ι κ σ) (answer : ι → σ → ρ) (s : Logged τ ι σ ρ) (a : Act τ ι) :
    Option (Logged τ ι σ ρ) :=
  (m.step s.state a).map fun state => s.note answer state a

/-- A call at one moment; one that is not ready cannot be made. -/
def apply (m : Monitor ι κ σ) (answer : ι → σ → ρ) (i : ι) (d : σ) : Option (ρ × σ) :=
  if m.ready i d then some (answer i d, m.act i d) else none

/-- What has become of a call, by where its thread is. -/
inductive At (r : Option ρ) : Stage ι → Pending ι ρ → Prop where
  | outside : At r .outside .idle
  | locking (i : ι) : At r (.locking i) (.called i)
  | testing (i : ι) : At r (.testing i) (.called i)
  | asleep (i : ι) : At r (.asleep i) (.called i)
  | acting (i : ι) : At r (.acting i) (.called i)
  | notifying (i : ι) {a : ρ} : r = some a → At r (.notifying i) (.done a)
  | leaving (i : ι) {a : ρ} : r = some a → At r (.leaving i) (.done a)

structure Acts (m : Monitor ι κ σ) (s : Logged τ ι σ ρ) (t : Atomic.State τ σ ι ρ) : Prop where
  log : s.log = t.log
  data : s.state.data = t.obj
  up : t.failed = false
  exclusive : Exclusive m s.state
  at_ : ∀ u, At (s.answer u) (s.state.stage u) (t.pending u)

set_option linter.unusedSectionVars false

section

variable {m : Monitor ι κ σ} {answer : ι → σ → ρ} {s s' : Logged τ ι σ ρ}
  {t : Atomic.State τ σ ι ρ} {a : Act τ ι} {u : τ}

/-- One thread goes on, and its call with it. -/
theorem At.update {ans : τ → Option ρ} {stage : τ → Stage ι} {pending : τ → Pending ι ρ}
    (h : ∀ v, At (ans v) (stage v) (pending v)) {r : Option ρ} {st : Stage ι} {p : Pending ι ρ}
    (hu : At r st p) (v : τ) : At (Function.update ans u r v) (Function.update stage u st v)
      (Function.update pending u p v) := by
  by_cases hv : v = u
  · subst hv
    simpa using hu
  · simpa [Function.update_of_ne hv] using h v

/-- A notification lets a thread go on that its call has not acted in. -/
theorem At.notifyAll {stage : τ → Stage ι} {i : ι} {r : Option ρ} {p : Pending ι ρ}
    (h : At r (stage u) p) : At r (m.notifyAll i stage u) p := by
  unfold Monitor.notifyAll
  split
  · rename_i j hst
    rw [hst] at h
    cases h
    split
    · exact .locking j
    · exact .asleep j
  · exact h

theorem At.goto {ans : τ → Option ρ} {stage : τ → Stage ι} {pending : τ → Pending ι ρ}
    (h : ∀ v, At (ans v) (stage v) (pending v)) {st : Stage ι} {p : Pending ι ρ}
    (hu : At (ans u) st p) (v : τ) :
    At (ans v) (Function.update stage u st v) (Function.update pending u p v) := by
  have hv := At.update (u := u) h hu v
  rwa [Function.update_eq_self] at hv

/-- A thread goes on in its call, which the object does not see. -/
theorem Acts.unseen (h : Acts m s t) {st : Stage ι} {owner : Option τ}
    (hex : Exclusive m { s.state.goto u st with owner := owner })
    (hu : At (s.answer u) st (t.pending u)) :
    Acts m { s with state := { s.state.goto u st with owner := owner } } t where
  log := h.log
  data := h.data
  up := h.up
  exclusive := hex
  at_ v := by
    have hv := At.goto h.at_ hu v
    rwa [Function.update_eq_self] at hv

/-- Some steps of the object match a step of the monitor. -/
theorem Acts.step (h : Acts m s t) (hs : m.logStep answer s a = some s') :
    ∃ bs t', exec (Atomic.step (m.apply answer)) t bs = some t' ∧ Acts m s' t' := by
  simp only [logStep, Option.map_eq_some_iff] at hs
  obtain ⟨st, hst, rfl⟩ := hs
  have hex := h.exclusive.step hst
  cases a with
  | call u i =>
    have hu := h.at_ u
    cases hstage : s.state.stage u with
    | outside =>
      simp only [Monitor.step, hstage, Option.some.injEq] at hst
      subst hst
      rw [hstage] at hu
      generalize hp : t.pending u = p at hu
      cases hu
      exact ⟨_, _, exec_call h.up hp i, congrArg (· ++ _) h.log, h.data, h.up, hex,
        At.goto h.at_ (.locking i)⟩
    | _ => simp [Monitor.step, hstage] at hst
  | wake u =>
    have hu := h.at_ u
    cases hstage : s.state.stage u with
    | asleep i =>
      simp only [Monitor.step, hstage, Option.some.injEq] at hst
      subst hst
      rw [hstage] at hu
      generalize hp : t.pending u = p at hu
      cases hu
      exact ⟨[], t, rfl, h.unseen hex (hp ▸ .locking i)⟩
    | _ => simp [Monitor.step, hstage] at hst
  | go u =>
    have hu := h.at_ u
    cases hstage : s.state.stage u with
    | outside | asleep => simp [Monitor.step, hstage] at hst
    | locking i =>
      simp only [Monitor.step, hstage, Option.ite_none_right_eq_some, Option.some.injEq] at hst
      obtain ⟨-, rfl⟩ := hst
      rw [hstage] at hu
      generalize hp : t.pending u = p at hu
      cases hu
      simp only [Logged.note, hstage]
      exact ⟨[], t, rfl, h.unseen hex (hp ▸ .testing i)⟩
    | testing i =>
      rw [hstage] at hu
      generalize hp : t.pending u = p at hu
      cases hu
      simp only [Monitor.step, hstage] at hst
      simp only [Logged.note, hstage]
      split at hst <;> obtain rfl := Option.some.inj hst
      · exact ⟨[], t, rfl, h.unseen hex (hp ▸ .acting i)⟩
      · exact ⟨[], t, rfl, h.unseen hex (hp ▸ .asleep i)⟩
    | acting i =>
      simp only [Monitor.step, hstage, Option.some.injEq] at hst
      subst hst
      rw [hstage] at hu
      generalize hp : t.pending u = p at hu
      cases hu
      simp only [Logged.note, hstage]
      have happly : m.apply answer i t.obj =
          some (answer i s.state.data, m.act i s.state.data) := by
        rw [← h.data, Monitor.apply, if_pos (h.exclusive.ready u i hstage)]
      exact ⟨_, _, exec_act h.up hp happly, h.log, rfl, h.up, hex,
        At.update h.at_ (.notifying i rfl)⟩
    | notifying i =>
      simp only [Monitor.step, hstage, Option.some.injEq] at hst
      subst hst
      rw [hstage] at hu
      generalize hp : t.pending u = p at hu
      cases hu with
      | notifying _ hr =>
        simp only [Logged.note, hstage]
        refine ⟨[], t, rfl, h.log, h.data, h.up, hex, fun v => ?_⟩
        have hv := At.goto (fun v => (h.at_ v).notifyAll (m := m) (i := i)) (.leaving i hr) v
        rwa [← hp, Function.update_eq_self] at hv
    | leaving i =>
      simp only [Monitor.step, hstage, Option.some.injEq] at hst
      subst hst
      rw [hstage] at hu
      generalize hp : t.pending u = p at hu
      cases hu with
      | leaving _ hr =>
        simp only [Logged.note, hstage, hr]
        exact ⟨_, _, exec_ret h.up hp, congrArg (· ++ _) h.log, h.data, h.up, hex,
          At.goto h.at_ .outside⟩

/-- What the calls answer can be answered one call after another, each made while it lasts and where
it is ready. -/
theorem calls_atomic {data : σ} (hs : Reachable (m.logStep answer) (.init data) s) :
    ∃ t : Atomic.State τ σ ι ρ, Reachable (Atomic.step (m.apply answer)) (.init data) t ∧
      s.log = t.log ∧ s.state.data = t.obj ∧ t.failed = false := by
  obtain ⟨as, has⟩ := hs
  have hinit : Acts m (.init data : Logged τ ι σ ρ) (.init data) :=
    ⟨rfl, rfl, rfl, exclusive_init data, fun _ => .outside⟩
  obtain ⟨bs, t, hbs, ht⟩ := exec_simulation (R := Acts m) (fun s t a s' h hs => h.step hs) hinit
    has
  exact ⟨t, ⟨bs, hbs⟩, ht.log, ht.data, ht.up⟩

/-- Where nobody can go on, whoever is in a call sleeps and is not ready. -/
theorem Heard.stuck {s : State τ ι σ} (hh : Heard m s) (h : Exclusive m s)
    (hstuck : ∀ u, m.step s (.go u) = none) (u : τ) :
    s.stage u = .outside ∨ ∃ i, s.stage u = .asleep i ∧ m.ready i s.data = false := by
  have hout : ∀ v, ¬ (s.stage v).Inside := by
    intro v hv
    have hgo := hstuck v
    cases hstage : s.stage v with
    | outside | locking | asleep =>
      rw [hstage] at hv
      exact hv
    | testing i =>
      simp only [Monitor.step, hstage] at hgo
      split at hgo <;> cases hgo
    | acting | notifying | leaving => simp [Monitor.step, hstage] at hgo
  have hfree : s.owner = none := by
    cases howner : s.owner with
    | none => rfl
    | some v => exact absurd ((h.owner v).1 howner) (hout v)
  cases hstage : s.stage u with
  | outside => exact .inl rfl
  | asleep i => exact .inr ⟨i, rfl, hh.not_ready_of_free h hfree hstage⟩
  | locking i =>
    have hgo := hstuck u
    simp [Monitor.step, hstage, hfree] at hgo
  | _ => exact absurd (hstage ▸ trivial) (hout u)

end

end Monitor
