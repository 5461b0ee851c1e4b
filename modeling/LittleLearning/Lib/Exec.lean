import Mathlib.Data.List.Basic

/-!
# Executions of a partial step function

A transition system is given by `step : σ → α → Option σ`: the state after
action `a`, or `none` where `a` cannot happen. An action carries everything the
environment decides, so a run is a list of actions. `exec` is the state a run
ends in, `Along P` says that every step of a run meets `P` before it is taken,
`Always Q` that every state of it satisfies `Q`.
-/

namespace Transition

variable {σ α τ β : Type*}

/-- The state reached by the actions, in order. -/
def exec (step : σ → α → Option σ) : σ → List α → Option σ
  | s, [] => some s
  | s, a :: as => (step s a).bind fun s' => exec step s' as

/-- `s` is the end of some run from `s₀`. -/
def Reachable (step : σ → α → Option σ) (s₀ s : σ) : Prop := ∃ as, exec step s₀ as = some s

/-- Every step of the run meets `P` in the state it is taken from. -/
def Along (step : σ → α → Option σ) (P : σ → α → Prop) : σ → List α → Prop
  | _, [] => True
  | s, a :: as => P s a ∧ ∀ s', step s a = some s' → Along step P s' as

/-- Every state of the run satisfies `Q`, the first one included. -/
def Always (step : σ → α → Option σ) (Q : σ → Prop) : σ → List α → Prop
  | s, [] => Q s
  | s, a :: as => Q s ∧ ∀ s', step s a = some s' → Always step Q s' as

instance (step : σ → α → Option σ) (P : σ → α → Prop) [∀ s a, Decidable (P s a)] :
    ∀ s as, Decidable (Along step P s as)
  | _, [] => .isTrue trivial
  | s, a :: as =>
    match hs : step s a with
    | none => decidable_of_iff (P s a) ⟨fun h => ⟨h, fun _ hs' => by simp [hs] at hs'⟩, And.left⟩
    | some s' =>
      have := instDecidableAlong step P s' as
      decidable_of_iff (P s a ∧ Along step P s' as)
        ⟨fun h => ⟨h.1, fun _ hs' => Option.some.inj (hs.symm.trans hs') ▸ h.2⟩,
          fun h => ⟨h.1, h.2 s' hs⟩⟩

section

variable {step : σ → α → Option σ} {s s' : σ} {a : α} {as : List α}

@[simp] theorem exec_nil : exec step s [] = some s := rfl

@[simp] theorem exec_cons :
    exec step s (a :: as) = (step s a).bind fun s' => exec step s' as := rfl

theorem exec_cons_eq_some {u : σ} :
    exec step s (a :: as) = some u ↔ ∃ t, step s a = some t ∧ exec step t as = some u := by
  simp [Option.bind_eq_some_iff]

theorem exec_append (as bs : List α) :
    exec step s (as ++ bs) = (exec step s as).bind fun t => exec step t bs := by
  induction as generalizing s with
  | nil => rfl
  | cons a as ih =>
    simp only [List.cons_append, exec_cons]
    cases step s a with
    | none => rfl
    | some t => exact ih

/-! ### Invariants -/

/-- What every step meeting `P` preserves holds at the end of a run of such steps. -/
theorem invariant_along {P : σ → α → Prop} {I : σ → Prop}
    (hI : ∀ s a s', I s → P s a → step s a = some s' → I s') :
    ∀ {as : List α} {s s' : σ}, I s → Along step P s as → exec step s as = some s' → I s'
  | [], _, _, h0, _, hr => by cases hr; exact h0
  | _ :: _, _, _, h0, hP, hr => by
    obtain ⟨t, ht, hr⟩ := exec_cons_eq_some.1 hr
    exact invariant_along hI (hI _ _ _ h0 hP.1 ht) (hP.2 t ht) hr

theorem invariant {I : σ → Prop} (hI : ∀ s a s', I s → step s a = some s' → I s')
    (h0 : I s) (hr : exec step s as = some s') : I s' := by
  have htriv : ∀ (as : List α) (s : σ), Along step (fun _ _ => True) s as := by
    intro as
    induction as with
    | nil => exact fun _ => trivial
    | cons a as ih => exact fun s => ⟨trivial, fun s' _ => ih s'⟩
  exact invariant_along (P := fun _ _ => True) (fun s a s' h _ hs => hI s a s' h hs) h0
    (htriv as s) hr

theorem Reachable.invariant {s₀ : σ} {I : σ → Prop} (h : Reachable step s₀ s)
    (hI : ∀ s a s', I s → step s a = some s' → I s') (h0 : I s₀) : I s := by
  obtain ⟨as, has⟩ := h
  exact Transition.invariant hI h0 has

theorem Reachable.snoc {s₀ : σ} (h : Reachable step s₀ s) (hs : step s a = some s') :
    Reachable step s₀ s' := by
  obtain ⟨as, has⟩ := h
  refine ⟨as ++ [a], ?_⟩
  rw [exec_append, has, Option.bind_some, exec_cons, hs]
  rfl

theorem Always.head {Q : σ → Prop} (h : Always step Q s as) : Q s := by
  cases as with
  | nil => exact h
  | cons a as => exact h.1

/-- `Q` holds at the end too. -/
theorem Always.exec {Q : σ → Prop} (h : Always step Q s as) (hr : exec step s as = some s') :
    Q s' := by
  induction as generalizing s with
  | nil =>
    cases hr
    exact h
  | cons a as ih =>
    obtain ⟨t, ht, hr⟩ := exec_cons_eq_some.1 hr
    exact ih (h.2 t ht) hr

theorem along_of_forall {P : σ → α → Prop} (h : ∀ a ∈ as, ∀ s, P s a) : Along step P s as := by
  induction as generalizing s with
  | nil => trivial
  | cons a as ih =>
    exact ⟨h a (by simp) s, fun s' _ => ih fun b hb => h b (by simp [hb])⟩

theorem Along.cons {P : σ → α → Prop} (hP : P s a) (hs : step s a = some s')
    (h : Along step P s' as) : Along step P s (a :: as) :=
  ⟨hP, fun t ht => by rwa [Option.some.inj (ht.symm.trans hs)]⟩

theorem along_append {P : σ → α → Prop} (as bs : List α) : Along step P s (as ++ bs) ↔
    Along step P s as ∧ ∀ t, exec step s as = some t → Along step P t bs := by
  induction as generalizing s with
  | nil =>
    refine ⟨fun h => ⟨trivial, fun t ht => ?_⟩, fun h => h.2 s rfl⟩
    cases ht
    exact h
  | cons a as ih =>
    constructor
    · intro h
      refine ⟨⟨h.1, fun s' hs => (ih.1 (h.2 s' hs)).1⟩, fun t ht => ?_⟩
      obtain ⟨u, hu, ht⟩ := exec_cons_eq_some.1 ht
      exact (ih.1 (h.2 u hu)).2 t ht
    · rintro ⟨h, h'⟩
      exact ⟨h.1, fun s' hs => ih.2 ⟨h.2 s' hs, fun t ht =>
        h' t (exec_cons_eq_some.2 ⟨s', hs, ht⟩)⟩⟩

theorem Along.append {P : σ → α → Prop} {bs : List α} (h : Along step P s as)
    (hr : exec step s as = some s') (h' : Along step P s' bs) : Along step P s (as ++ bs) :=
  (along_append as bs).2 ⟨h, fun t ht => by rwa [Option.some.inj (ht.symm.trans hr)]⟩

theorem Along.and {P P' : σ → α → Prop} (h : Along step P s as) (h' : Along step P' s as) :
    Along step (fun s a => P s a ∧ P' s a) s as := by
  induction as generalizing s with
  | nil => trivial
  | cons a as ih => exact ⟨⟨h.1, h'.1⟩, fun s' hs => ih (h.2 s' hs) (h'.2 s' hs)⟩

/-- Under an invariant of the steps meeting `P` these meet what follows from it. -/
theorem Along.imp {P P' : σ → α → Prop} {I : σ → Prop} (himp : ∀ s a, I s → P s a → P' s a)
    (hI : ∀ s a s', I s → P s a → step s a = some s' → I s') (h0 : I s)
    (hP : Along step P s as) : Along step P' s as := by
  induction as generalizing s with
  | nil => trivial
  | cons a as ih =>
    exact ⟨himp s a h0 hP.1, fun s' hs => ih (hI s a s' h0 hP.1 hs) (hP.2 s' hs)⟩

/-- An invariant of the steps meeting `P` holds throughout a run of such steps. -/
theorem always_of_along {P : σ → α → Prop} {I Q : σ → Prop} (hQ : ∀ s, I s → Q s)
    (hI : ∀ s a s', I s → P s a → step s a = some s' → I s') (h0 : I s)
    (hP : Along step P s as) : Always step Q s as := by
  induction as generalizing s with
  | nil => exact hQ s h0
  | cons a as ih => exact ⟨hQ s h0, fun s' hs => ih (hI s a s' h0 hP.1 hs) (hP.2 s' hs)⟩

/-- Where a step breaking `P` breaks `Q`, a run that keeps `Q` has no such step. -/
theorem along_of_always {P : σ → α → Prop} {I Q : σ → Prop}
    (hI : ∀ s a s', I s → step s a = some s' → I s')
    (hbad : ∀ s a, I s → Q s → (∀ s', step s a = some s' → Q s') → P s a) (h0 : I s)
    (hQ : Always step Q s as) : Along step P s as := by
  induction as generalizing s with
  | nil => trivial
  | cons a as ih =>
    exact ⟨hbad s a h0 hQ.1 fun s' hs => (hQ.2 s' hs).head,
      fun s' hs => ih (hI s a s' h0 hs) (hQ.2 s' hs)⟩

/-- A property of states that is lost for good by exactly the steps breaking `P`. -/
theorem exec_iff_along {P : σ → α → Prop} {I Q : σ → Prop}
    (hI : ∀ s a s', I s → step s a = some s' → I s')
    (hQ : ∀ s a s', I s → step s a = some s' → (Q s' ↔ Q s ∧ P s a)) (h0 : I s)
    (hr : exec step s as = some s') : Q s' ↔ Q s ∧ Along step P s as := by
  induction as generalizing s with
  | nil =>
    cases hr
    exact (and_iff_left trivial).symm
  | cons a as ih =>
    obtain ⟨t, ht, hr⟩ := exec_cons_eq_some.1 hr
    rw [ih (hI s a t h0 ht) hr, hQ s a t h0 ht, and_assoc]
    refine and_congr_right fun _ => and_congr_right fun _ => ⟨fun h u hu => ?_, fun h => h t ht⟩
    rwa [← Option.some.inj (ht.symm.trans hu)]

/-- Conditions that agree on the steps from states an invariant of theirs holds of. -/
theorem along_iff {P P' : σ → α → Prop} {I : σ → Prop}
    (hP : ∀ s a s', I s → step s a = some s' → (P s a ↔ P' s a))
    (hI : ∀ s a s', I s → P s a → step s a = some s' → I s') (h0 : I s)
    (hr : exec step s as = some s') : Along step P s as ↔ Along step P' s as := by
  induction as generalizing s with
  | nil => exact Iff.rfl
  | cons a as ih =>
    obtain ⟨t, ht, hr⟩ := exec_cons_eq_some.1 hr
    constructor
    · rintro ⟨hp, hrest⟩
      have ht' := (ih (hI s a t h0 hp ht) hr).1 (hrest t ht)
      exact .cons ((hP s a t h0 ht).1 hp) ht ht'
    · rintro ⟨hp', hrest⟩
      have hp := (hP s a t h0 ht).2 hp'
      exact .cons hp ht ((ih (hI s a t h0 hp ht) hr).2 (hrest t ht))

/-- An action that can be taken until `done`, and that lowers a measure, gets there. -/
theorem exec_until {μ : σ → Nat} {I done : σ → Prop} (a : α)
    (hstep : ∀ s, I s → done s ∨ ∃ s', step s a = some s' ∧ I s' ∧ μ s' < μ s) :
    ∀ s, I s → ∃ n s', n ≤ μ s ∧ exec step s (List.replicate n a) = some s' ∧ I s' ∧ done s' := by
  intro s
  induction h : μ s using Nat.strongRecOn generalizing s with
  | ind m ih =>
    intro hI
    rcases hstep s hI with hdone | ⟨t, ht, hIt, hlt⟩
    · exact ⟨0, s, Nat.zero_le _, rfl, hI, hdone⟩
    · obtain ⟨n, s', hn, hr, hI', hdone⟩ := ih (μ t) (h ▸ hlt) t rfl hIt
      refine ⟨n + 1, s', by omega, ?_, hI', hdone⟩
      rw [List.replicate_succ]
      exact exec_cons_eq_some.2 ⟨t, ht, hr⟩

/-- Where some action lowers a measure until `done`, a run gets there. -/
theorem exec_to {μ : σ → Nat} {I done : σ → Prop}
    (hstep : ∀ s, I s → done s ∨ ∃ a s', step s a = some s' ∧ I s' ∧ μ s' < μ s) :
    ∀ s, I s → ∃ as s', exec step s as = some s' ∧ I s' ∧ done s' := by
  intro s
  induction h : μ s using Nat.strongRecOn generalizing s with
  | ind m ih =>
    intro hI
    rcases hstep s hI with hdone | ⟨a, t, ht, hIt, hlt⟩
    · exact ⟨[], s, rfl, hI, hdone⟩
    · obtain ⟨as, s', hr, hI', hdone⟩ := ih (μ t) (h ▸ hlt) t rfl hIt
      exact ⟨a :: as, s', exec_cons_eq_some.2 ⟨t, ht, hr⟩, hI', hdone⟩

/-- Where no step raises a measure and those of a kind lower it, a run has no more of the kind than
that. -/
theorem countP_le_of_exec {p : α → Bool} {μ : σ → Nat} {I : σ → Prop}
    (hstep : ∀ s a s', I s → step s a = some s' → I s' ∧ [a].countP p + μ s' ≤ μ s) (h0 : I s)
    (hr : exec step s as = some s') : as.countP p + μ s' ≤ μ s := by
  induction as generalizing s with
  | nil =>
    cases hr
    exact Nat.le_of_eq (Nat.zero_add _)
  | cons a as ih =>
    obtain ⟨t, ht, hr⟩ := exec_cons_eq_some.1 hr
    obtain ⟨hI, hle⟩ := hstep s a t h0 ht
    have hrest := ih hI hr
    rw [← List.singleton_append, List.countP_append]
    omega

/-- A run whose steps all lower a measure is no longer than that. -/
theorem length_le_of_exec {μ : σ → Nat} {I : σ → Prop}
    (hstep : ∀ s a s', I s → step s a = some s' → I s' ∧ μ s' < μ s) (h0 : I s)
    (hr : exec step s as = some s') : as.length + μ s' ≤ μ s := by
  have hcount := countP_le_of_exec (p := fun _ => true) (μ := μ) (I := I) (fun s a s' hI hs => by
    obtain ⟨hI', hlt⟩ := hstep s a s' hI hs
    refine ⟨hI', ?_⟩
    rw [List.countP_true, List.length_singleton]
    omega) h0 hr
  rwa [List.countP_true] at hcount

/-! ### What a run emits -/

/-- The outputs of the steps of a run, in order. -/
def emitted (step : σ → α → Option σ) (out : σ → α → List β) : σ → List α → List β
  | _, [] => []
  | s, a :: as => out s a ++ (step s a).elim [] fun s' => emitted step out s' as

theorem emitted_cons {out : σ → α → List β} (h : step s a = some s') :
    emitted step out s (a :: as) = out s a ++ emitted step out s' as := by
  rw [emitted, h, Option.elim_some]

theorem emitted_append {out : σ → α → List β} (h : exec step s as = some s') (bs : List α) :
    emitted step out s (as ++ bs) = emitted step out s as ++ emitted step out s' bs := by
  induction as generalizing s with
  | nil =>
    cases h
    rfl
  | cons a as ih =>
    obtain ⟨t, ht, h⟩ := exec_cons_eq_some.1 h
    rw [List.cons_append, emitted_cons ht, emitted_cons ht, ih h, List.append_assoc]

/-- A relation to the outputs so far that every step meeting `P` keeps, appending its own. -/
theorem invariant_emitted_along {P : σ → α → Prop} {out : σ → α → List β} {I : σ → List β → Prop}
    (hI : ∀ s os a s', I s os → P s a → step s a = some s' → I s' (os ++ out s a)) (h0 : I s [])
    (hP : Along step P s as) (hr : exec step s as = some s') :
    I s' (emitted step out s as) := by
  have hrun : ∀ (as : List α) (s : σ) (os : List β), I s os → Along step P s as →
      exec step s as = some s' → I s' (os ++ emitted step out s as) := by
    intro as
    induction as with
    | nil =>
      intro s os h _ hr
      cases hr
      simpa [emitted] using h
    | cons a as ih =>
      intro s os h hP hr
      obtain ⟨t, ht, hr⟩ := exec_cons_eq_some.1 hr
      rw [emitted_cons ht, ← List.append_assoc]
      exact ih t _ (hI s os a t h hP.1 ht) (hP.2 t ht) hr
  simpa using hrun as s [] h0 hP hr

theorem invariant_emitted {out : σ → α → List β} {I : σ → List β → Prop}
    (hI : ∀ s os a s', I s os → step s a = some s' → I s' (os ++ out s a)) (h0 : I s [])
    (hr : exec step s as = some s') : I s' (emitted step out s as) :=
  invariant_emitted_along (P := fun _ _ => True) (fun s os a s' h _ hs => hI s os a s' h hs) h0
    (along_of_forall fun _ _ _ => trivial) hr

/-- Where every step on the left is one on the right, with the same output, so are runs. -/
theorem exec_projection {step' : τ → β → Option τ} {γ : Type*} {out : σ → α → List γ} (π : τ → σ)
    (act : τ → β → α) (hπ : ∀ t b t', step' t b = some t' → step (π t) (act t b) = some (π t')) :
    ∀ {bs : List β} {t t' : τ}, exec step' t bs = some t' → ∃ as,
      exec step (π t) as = some (π t') ∧
      emitted step out (π t) as = emitted step' (fun t b => out (π t) (act t b)) t bs
  | [], _, _, hr => by cases hr; exact ⟨[], rfl, rfl⟩
  | b :: _, t, _, hr => by
    obtain ⟨u, hu, hr⟩ := exec_cons_eq_some.1 hr
    obtain ⟨as, has, hout⟩ := exec_projection π act hπ hr
    have hstep := hπ t b u hu
    exact ⟨act t b :: as, exec_cons_eq_some.2 ⟨_, hstep, has⟩, by
      rw [emitted_cons hstep, emitted_cons hu, hout]⟩

/-! ### Simulation -/

/-- Each step on the left is matched by finitely many on the right: so are runs. -/
theorem exec_simulation {step' : τ → β → Option τ} {R : σ → τ → Prop}
    (hR : ∀ s t a s', R s t → step s a = some s' →
      ∃ bs t', exec step' t bs = some t' ∧ R s' t') :
    ∀ {as : List α} {s s' : σ} {t : τ}, R s t → exec step s as = some s' →
      ∃ bs t', exec step' t bs = some t' ∧ R s' t'
  | [], _, _, t, h0, hr => by cases hr; exact ⟨[], t, rfl, h0⟩
  | _ :: _, _, _, _, h0, hr => by
    obtain ⟨u, hu, hr⟩ := exec_cons_eq_some.1 hr
    obtain ⟨bs, t', hbs, hR'⟩ := hR _ _ _ _ h0 hu
    obtain ⟨bs', t'', hbs', hR''⟩ := exec_simulation hR hR' hr
    exact ⟨bs ++ bs', t'', by simp [exec_append, hbs, hbs'], hR''⟩

/-- And with them what the steps emit, where each is matched with its output. -/
theorem exec_simulation_emitted {γ : Type*} {step' : τ → β → Option τ} {R : σ → τ → Prop}
    {out : σ → α → List γ} {out' : τ → β → List γ}
    (hR : ∀ s t a s', R s t → step s a = some s' →
      ∃ bs t', exec step' t bs = some t' ∧ R s' t' ∧ emitted step' out' t bs = out s a) :
    ∀ {as : List α} {s s' : σ} {t : τ}, R s t → exec step s as = some s' →
      ∃ bs t', exec step' t bs = some t' ∧ R s' t' ∧
        emitted step' out' t bs = emitted step out s as
  | [], _, _, t, h0, hr => by cases hr; exact ⟨[], t, rfl, h0, rfl⟩
  | _ :: _, _, _, _, h0, hr => by
    obtain ⟨u, hu, hr⟩ := exec_cons_eq_some.1 hr
    obtain ⟨bs, t', hbs, hR', hout⟩ := hR _ _ _ _ h0 hu
    obtain ⟨bs', t'', hbs', hR'', hout'⟩ := exec_simulation_emitted hR hR' hr
    refine ⟨bs ++ bs', t'', by simp [exec_append, hbs, hbs'], hR'', ?_⟩
    rw [emitted_append hbs, emitted_cons hu, hout, hout']

end

end Transition
