import LittleLearning.Lib.Exec
import Mathlib.Data.List.Induction
import Mathlib.Logic.Function.Basic

/-!
# Objects whose calls take effect at one moment

An object is `apply`: what a call answers and the object after it, or `none`
where the call is an error. Parties call it at the same time. A call is made,
at some later moment it acts, all at once, and after that it returns; calls and
returns are logged in order. An implementation whose runs have the logs of runs
of this system is linearizable: every call is as if made at one moment while it
lasts. `exists_serial` puts the moments in order: the calls made one after
another by anyone answer the same, and each party has made its own in order.
-/

namespace Atomic

open Transition

variable {ι σ γ ρ : Type*} [DecidableEq ι]

/-- What there is of a party's call. -/
inductive Pending (γ ρ : Type*) where
  | idle
  | called (c : γ)
  | done (r : ρ)

/-- What a party sees of its calls. -/
inductive Mark (γ ρ : Type*) where
  | call (c : γ)
  | ret (r : ρ)
  deriving DecidableEq

structure State (ι σ γ ρ : Type*) where
  obj : σ
  pending : ι → Pending γ ρ
  log : List (ι × Mark γ ρ)
  /-- An erroneous call has ended the process. -/
  failed : Bool

inductive Act (ι γ : Type*) where
  | call (i : ι) (c : γ)
  | act (i : ι)
  | ret (i : ι)

def State.init (obj : σ) : State ι σ γ ρ where
  obj := obj
  pending _ := .idle
  log := []
  failed := false

def State.set (s : State ι σ γ ρ) (i : ι) (p : Pending γ ρ) : State ι σ γ ρ :=
  { s with pending := Function.update s.pending i p }

def State.enter (s : State ι σ γ ρ) (i : ι) (c : γ) : State ι σ γ ρ :=
  { s.set i (.called c) with log := s.log ++ [(i, .call c)] }

def State.answer (s : State ι σ γ ρ) (i : ι) (r : ρ) : State ι σ γ ρ :=
  { s.set i .idle with log := s.log ++ [(i, .ret r)] }

def step (apply : γ → σ → Option (ρ × σ)) (s : State ι σ γ ρ) : Act ι γ → Option (State ι σ γ ρ)
  | .call i c =>
    match s.failed, s.pending i with
    | false, .idle => some (s.enter i c)
    | _, _ => none
  | .act i =>
    match s.failed, s.pending i with
    | false, .called c =>
      match apply c s.obj with
      | some (r, obj) => some ({ s with obj := obj }.set i (.done r))
      | none => some { s with failed := true }
    | _, _ => none
  | .ret i =>
    match s.failed, s.pending i with
    | false, .done r => some (s.answer i r)
    | _, _ => none

section

variable {apply : γ → σ → Option (ρ × σ)} {s : State ι σ γ ρ} {i : ι} {c : γ} {r : ρ} {obj : σ}

theorem exec_call (hup : s.failed = false) (hi : s.pending i = .idle) (c : γ) :
    exec (step apply) s [.call i c] = some (s.enter i c) := by
  simp [step, hup, hi]

theorem exec_act (hup : s.failed = false) (hi : s.pending i = .called c)
    (ha : apply c s.obj = some (r, obj)) :
    exec (step apply) s [.act i] = some ({ s with obj := obj }.set i (.done r)) := by
  simp [step, hup, hi, ha]

theorem exec_fail (hup : s.failed = false) (hi : s.pending i = .called c)
    (ha : apply c s.obj = none) :
    exec (step apply) s [.act i] = some { s with failed := true } := by
  simp [step, hup, hi, ha]

theorem exec_ret (hup : s.failed = false) (hi : s.pending i = .done r) :
    exec (step apply) s [.ret i] = some (s.answer i r) := by
  simp [step, hup, hi]

/-- A call that acts and returns at once. -/
theorem exec_act_ret (hup : s.failed = false) (hi : s.pending i = .called c)
    (ha : apply c s.obj = some (r, obj)) :
    exec (step apply) s [.act i, .ret i] = some ({ s with obj := obj }.answer i r) := by
  have hact := exec_act hup hi ha
  generalize ht : State.set { s with obj := obj } i (.done r) = t at hact
  have hdone : t.pending i = .done r := by rw [← ht]; simp [State.set]
  have hret := @exec_ret ι σ γ ρ _ apply t i r (show t.failed = false by rw [← ht]; exact hup) hdone
  have hsplit : ([.act i, .ret i] : List (Act ι γ)) = [.act i] ++ [.ret i] := rfl
  rw [hsplit, exec_append, hact]
  refine hret.trans ?_
  rw [← ht]
  simp [State.answer, State.set]

/-- What a step can do. -/
theorem step_cases {a : Act ι γ} {s' : State ι σ γ ρ} (h : step apply s a = some s') :
    s.failed = false ∧
    ((∃ i c, a = .call i c ∧ s.pending i = .idle ∧ s' = s.enter i c) ∨
      (∃ i c r obj, a = .act i ∧ s.pending i = .called c ∧ apply c s.obj = some (r, obj) ∧
        s' = { s with obj := obj }.set i (.done r)) ∨
      (∃ i c, a = .act i ∧ s.pending i = .called c ∧ apply c s.obj = none ∧
        s' = { s with failed := true }) ∨
      (∃ i r, a = .ret i ∧ s.pending i = .done r ∧ s' = s.answer i r)) := by
  cases hup : s.failed with
  | true => cases a <;> simp [step, hup] at h
  | false =>
    refine ⟨rfl, ?_⟩
    cases a with
    | call i c =>
      cases hi : s.pending i with
      | idle =>
        simp only [step, hup, hi, Option.some.injEq] at h
        exact .inl ⟨i, c, rfl, hi, h.symm⟩
      | _ => simp [step, hup, hi] at h
    | act i =>
      cases hi : s.pending i with
      | called c =>
        cases ha : apply c s.obj with
        | none =>
          simp only [step, hup, hi, ha, Option.some.injEq] at h
          exact .inr (.inr (.inl ⟨i, c, rfl, hi, ha, h.symm⟩))
        | some e =>
          simp only [step, hup, hi, ha, Option.some.injEq] at h
          exact .inr (.inl ⟨i, c, e.1, e.2, rfl, hi, ha, h.symm⟩)
      | _ => simp [step, hup, hi] at h
    | ret i =>
      cases hi : s.pending i with
      | done r =>
        simp only [step, hup, hi, Option.some.injEq] at h
        exact .inr (.inr (.inr ⟨i, r, rfl, hi, h.symm⟩))
      | _ => simp [step, hup, hi] at h

end

/-! ### Another view of the object -/

section

variable {σ' : Type*} {apply : γ → σ → Option (ρ × σ)} {apply' : γ → σ' → Option (ρ × σ')}
  {f : σ → σ'}

/-- The same with less of the object. -/
def State.view (f : σ → σ') (s : State ι σ γ ρ) : State ι σ' γ ρ :=
  { obj := f s.obj, pending := s.pending, log := s.log, failed := s.failed }

theorem step_view (h : ∀ c d, apply' c (f d) = (apply c d).map (Prod.map id f))
    (s : State ι σ γ ρ) (a : Act ι γ) :
    step apply' (s.view f) a = (step apply s a).map (State.view f) := by
  cases hup : s.failed with
  | true => cases a <;> simp [step, State.view, hup]
  | false =>
    cases a with
    | call i c =>
      cases hi : s.pending i <;> simp [step, State.view, hup, hi, State.enter, State.set]
    | act i =>
      cases hi : s.pending i with
      | called c =>
        cases ha : apply c s.obj <;> simp [step, State.view, hup, hi, h, ha, State.set]
      | _ => simp [step, State.view, hup, hi]
    | ret i =>
      cases hi : s.pending i <;> simp [step, State.view, hup, hi, State.answer, State.set]

theorem reachable_view (h : ∀ c d, apply' c (f d) = (apply c d).map (Prod.map id f)) {obj : σ}
    {s : State ι σ γ ρ} (hs : Reachable (step apply) (.init obj) s) :
    Reachable (step apply') (.init (f obj)) (s.view f) := by
  obtain ⟨as, has⟩ := hs
  have hmatch : ∀ (s : State ι σ γ ρ) (t : State ι σ' γ ρ) (a : Act ι γ) (s' : State ι σ γ ρ),
      t = s.view f → step apply s a = some s' →
      ∃ bs t', exec (step apply') t bs = some t' ∧ t' = s'.view f := by
    rintro s t a s' rfl hstep
    exact ⟨[a], _, by rw [exec_cons, step_view h, hstep]; rfl, rfl⟩
  obtain ⟨bs, t, hbs, rfl⟩ := exec_simulation hmatch rfl has
  exact ⟨bs, hbs⟩

end

/-! ### One after another -/

/-- A mark later: the call of `i` that is open, and those that have returned. -/
def note (i : ι) (b : Option γ × List (γ × ρ)) : ι × Mark γ ρ → Option γ × List (γ × ρ)
  | (j, .call c) => if j = i then (some c, b.2) else b
  | (j, .ret r) => if j = i then (none, b.2 ++ (b.1.map (·, r)).toList) else b

def book (i : ι) (log : List (ι × Mark γ ρ)) : Option γ × List (γ × ρ) :=
  log.foldl (note i) (none, [])

/-- The calls of `i` that have returned, in order. -/
def returned (i : ι) (log : List (ι × Mark γ ρ)) : List (γ × ρ) := (book i log).2

/-- The call of `i` that has not returned. -/
def current (i : ι) (log : List (ι × Mark γ ρ)) : Option γ := (book i log).1

/-- Calls made one after another, by anyone, and how they are answered. -/
inductive Serial (apply : γ → σ → Option (ρ × σ)) (obj : σ) : List (ι × γ × ρ) → σ → Prop
  | nil : Serial apply obj [] obj
  | snoc {h : List (ι × γ × ρ)} {s s' : σ} {i : ι} {c : γ} {r : ρ} :
    Serial apply obj h s → apply c s = some (r, s') → Serial apply obj (h ++ [(i, c, r)]) s'

/-- The calls of `i` among them. -/
def own (i : ι) (h : List (ι × γ × ρ)) : List (γ × ρ) :=
  h.filterMap fun e => if e.1 = i then some e.2 else none

/-- The calls of a party that have acted are those that have returned, and the open one once it is
done. -/
def Pending.Acted (h returned : List (γ × ρ)) (current : Option γ) : Pending γ ρ → Prop
  | .idle => current = none ∧ h = returned
  | .called c => current = some c ∧ h = returned
  | .done r => ∃ c, current = some c ∧ h = returned ++ [(c, r)]

section

variable {apply : γ → σ → Option (ρ × σ)} {s : State ι σ γ ρ} {i j : ι} {c : γ} {r : ρ} {obj : σ}
  {log : List (ι × Mark γ ρ)} {h : List (ι × γ × ρ)}

theorem book_snoc (m : ι × Mark γ ρ) : book i (log ++ [m]) = note i (book i log) m := by
  simp [book]

@[simp] theorem current_call : current i (log ++ [(i, .call c)]) = some c := by
  simp [current, book_snoc, note]

@[simp] theorem current_ret : current i (log ++ [(i, .ret r)]) = none := by
  simp [current, book_snoc, note]

@[simp] theorem returned_call : returned i (log ++ [(j, .call c)]) = returned i log := by
  simp only [returned, book_snoc, note]
  split <;> rfl

theorem returned_ret (hc : current i log = some c) :
    returned i (log ++ [(i, .ret r)]) = returned i log ++ [(c, r)] := by
  rw [current] at hc
  simp [returned, book_snoc, note, hc]

theorem current_other (hij : j ≠ i) (m : Mark γ ρ) :
    current i (log ++ [(j, m)]) = current i log := by
  cases m <;> simp [current, book_snoc, note, hij]

theorem returned_other (hij : j ≠ i) (m : Mark γ ρ) :
    returned i (log ++ [(j, m)]) = returned i log := by
  cases m <;> simp [returned, book_snoc, note, hij]

@[simp] theorem own_snoc : own i (h ++ [(i, c, r)]) = own i h ++ [(c, r)] := by simp [own]

theorem own_other (hij : j ≠ i) : own i (h ++ [(j, c, r)]) = own i h := by simp [own, hij]

/-- The moments at which the calls act, in order, are a serial execution in which every party makes
its own calls in order. -/
theorem exists_serial (hs : Reachable (step apply) (.init obj) s) :
    ∃ h : List (ι × γ × ρ), Serial apply obj h s.obj ∧
      ∀ i, (s.pending i).Acted (own i h) (returned i s.log) (current i s.log) := by
  refine hs.invariant (I := fun s => ∃ h : List (ι × γ × ρ), Serial apply obj h s.obj ∧
    ∀ i, (s.pending i).Acted (own i h) (returned i s.log) (current i s.log)) ?_ ?_
  · rintro s a s' ⟨h, hserial, hacted⟩ hstep
    obtain ⟨-, ⟨i, c, -, hi, rfl⟩ | ⟨i, c, r, obj, -, hi, happly, rfl⟩ | ⟨i, c, -, -, -, rfl⟩ |
      ⟨i, r, -, hi, rfl⟩⟩ := step_cases hstep
    · refine ⟨h, hserial, fun j => ?_⟩
      have hj := hacted j
      by_cases hij : i = j
      · subst hij
        rw [hi] at hj
        simpa [State.enter, State.set, Pending.Acted] using hj.2
      · simpa [State.enter, State.set, Function.update_of_ne (Ne.symm hij), current_other hij]
          using hj
    · refine ⟨h ++ [(i, c, r)], hserial.snoc happly, fun j => ?_⟩
      have hj := hacted j
      by_cases hij : i = j
      · subst hij
        rw [hi] at hj
        simpa [State.set, Pending.Acted, hj.1] using hj.2
      · simpa [State.set, Function.update_of_ne (Ne.symm hij), own_other hij] using hj
    · exact ⟨h, hserial, hacted⟩
    · refine ⟨h, hserial, fun j => ?_⟩
      have hj := hacted j
      by_cases hij : i = j
      · subst hij
        rw [hi] at hj
        obtain ⟨c, hc, hown⟩ := hj
        simpa [State.answer, State.set, Pending.Acted, returned_ret hc] using hown
      · simpa [State.answer, State.set, Function.update_of_ne (Ne.symm hij), current_other hij,
          returned_other hij] using hj
  · exact ⟨[], .nil, fun i => ⟨rfl, rfl⟩⟩

/-- A process that has ended has ended in a call that is an error. -/
theorem call_of_failed (hs : Reachable (step apply) (.init obj) s) (hf : s.failed = true) :
    ∃ i c, s.pending i = .called c ∧ apply c s.obj = none := by
  revert hf
  refine hs.invariant (I := fun s => s.failed = true →
    ∃ i c, s.pending i = .called c ∧ apply c s.obj = none) ?_ ?_
  · rintro s a s' - hstep hf
    obtain ⟨hup, ⟨i, c, -, -, rfl⟩ | ⟨i, c, r, obj, -, -, -, rfl⟩ | ⟨i, c, -, hi, happly, rfl⟩ |
      ⟨i, r, -, -, rfl⟩⟩ := step_cases hstep
    · exact absurd (hup.symm.trans hf) (by decide)
    · exact absurd (hup.symm.trans hf) (by decide)
    · exact ⟨i, c, hi, happly⟩
    · exact absurd (hup.symm.trans hf) (by decide)
  · exact fun hf => absurd hf (by simp [State.init])

/-- An open call is in the log, and nothing has returned to its party since. -/
theorem call_of_current (hc : current i log = some c) :
    ∃ l₁ l₂, log = l₁ ++ (i, .call c) :: l₂ ∧ returned i l₁ = returned i log := by
  induction log using List.reverseRecOn with
  | nil => cases hc
  | append_singleton log m ih =>
    obtain ⟨j, m⟩ := m
    by_cases hij : j = i
    · subst hij
      cases m with
      | call c' =>
        obtain rfl : c' = c := by simpa using hc
        exact ⟨log, [], rfl, by simp⟩
      | ret r => simp at hc
    · rw [current_other hij] at hc
      obtain ⟨l₁, l₂, rfl, hl⟩ := ih hc
      exact ⟨l₁, l₂ ++ [(j, m)], by simp, by rw [returned_other hij, hl]⟩

theorem call_of_returned (hc : (c, r) ∈ returned i log) : (i, .call c) ∈ log := by
  induction log using List.reverseRecOn with
  | nil => cases hc
  | append_singleton log m ih =>
    obtain ⟨j, m⟩ := m
    by_cases hij : j = i
    · subst hij
      cases m with
      | call c' => exact List.mem_append_left _ (ih (by simpa using hc))
      | ret r' =>
        cases hcur : current j log with
        | none =>
          have hsame : returned j (log ++ [(j, .ret r')]) = returned j log := by
            rw [current] at hcur
            simp [returned, book_snoc, note, hcur]
          exact List.mem_append_left _ (ih (hsame ▸ hc))
        | some c' =>
          rw [returned_ret hcur, List.mem_append, List.mem_singleton, Prod.mk.injEq] at hc
          rcases hc with hc | ⟨rfl, -⟩
          · exact List.mem_append_left _ (ih hc)
          · obtain ⟨l₁, l₂, rfl, -⟩ := call_of_current hcur
            simp
    · rw [returned_other hij] at hc
      exact List.mem_append_left _ (ih hc)

theorem mem_own {e : ι × γ × ρ} (he : e ∈ h) : e.2 ∈ own e.1 h :=
  List.mem_filterMap.2 ⟨e, he, if_pos rfl⟩

/-- What has acted was called. -/
theorem Pending.Acted.called {p : Pending γ ρ}
    (hp : p.Acted (own i h) (returned i log) (current i log)) {e : γ × ρ}
    (he : e ∈ own i h) : (i, .call e.1) ∈ log := by
  cases p with
  | idle => exact call_of_returned (hp.2 ▸ he)
  | called c => exact call_of_returned (hp.2 ▸ he)
  | done r =>
    obtain ⟨c, hc, hown⟩ := hp
    rw [hown, List.mem_append, List.mem_singleton] at he
    rcases he with he | rfl
    · exact call_of_returned he
    · obtain ⟨l₁, l₂, rfl, -⟩ := call_of_current hc
      simp

end

end Atomic
