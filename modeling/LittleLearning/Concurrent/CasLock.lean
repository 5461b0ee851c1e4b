import LittleLearning.Lib.Exec
import Mathlib.Algebra.BigOperators.Fin
import Mathlib.Algebra.BigOperators.Group.Finset.Piecewise
import Mathlib.Data.BitVec

/-!
# The lock made of a flag

`CasLock::lock` spins on the flag of the lock. Each of `n` threads runs
`assginCas`: `lock`, `k` increments of the counter they share, `unlock`. An
increment is a load and a store; a step is one access to the flag or to the
counter, in any order of the threads.
-/

namespace LittleLearning.Concurrent

open Transition

namespace CasLock

variable {n w k : Nat}

/-- Where a thread is in `assginCas`. -/
inductive Stage (w : Nat) where
  | locking
  /-- At the test of the loop, after `i` increments. -/
  | counting (i : Nat)
  /-- `v` is loaded. -/
  | storing (i : Nat) (v : BitVec w)
  | finished
  deriving DecidableEq

structure State (n w : Nat) where
  mLock : Bool
  counter : BitVec w
  stage : Fin n → Stage w

def start (counter : BitVec w) : State n w := ⟨false, counter, fun _ => .locking⟩

def State.goto (s : State n w) (t : Fin n) (stage : Stage w) : State n w :=
  { s with stage := Function.update s.stage t stage }

/-- `test_and_set`: the flag before. -/
def State.testAndSet (s : State n w) : Bool × State n w := (s.mLock, { s with mLock := true })

/-- `clear` -/
def State.clear (s : State n w) : State n w := { s with mLock := false }

/-- The next access of thread `t`. -/
def step (k : Nat) (s : State n w) (t : Fin n) : Option (State n w) :=
  match s.stage t with
  | .locking =>
    let (set, s) := s.testAndSet
    some (if set then s else s.goto t (.counting 0))
  | .counting i =>
    if i < k then some (s.goto t (.storing i s.counter)) else some (s.clear.goto t .finished)
  | .storing i v => some ({ s with counter := v + 1 }.goto t (.counting (i + 1)))
  | .finished => none

/-- Between `lock` and `unlock`. -/
def Stage.Inside : Stage w → Prop
  | .counting _ | .storing _ _ => True
  | .locking | .finished => False

/-- The increments a thread has made. -/
def Stage.made (k : Nat) : Stage w → Nat
  | .locking => 0
  | .counting i | .storing i _ => i
  | .finished => k

def State.made (k : Nat) (s : State n w) : Nat := ∑ t, (s.stage t).made k

variable {s s' : State n w} {t u : Fin n} {c : BitVec w}

@[simp] theorem goto_stage_self (st : Stage w) : (s.goto t st).stage t = st :=
  Function.update_self ..

theorem goto_stage_ne (st : Stage w) (h : u ≠ t) : (s.goto t st).stage u = s.stage u :=
  Function.update_of_ne h ..

/-- Only the thread that moves adds to the increments. -/
theorem made_goto (st : Stage w) :
    (s.goto t st).made k + (s.stage t).made k = s.made k + st.made k := by
  have hupdate : (fun u => ((s.goto t st).stage u).made k) =
      Function.update (fun u => (s.stage u).made k) t (st.made k) := by
    funext u
    by_cases hu : u = t
    · subst hu
      rw [goto_stage_self, Function.update_self]
    · rw [goto_stage_ne st hu, Function.update_of_ne hu]
  unfold State.made
  rw [hupdate, Finset.sum_update_of_mem (Finset.mem_univ t), Finset.sdiff_singleton_eq_erase,
    ← Finset.add_sum_erase _ _ (Finset.mem_univ t)]
  omega

/-! ### What holds in every state -/

/-- The flag is set while a thread is inside; there is one at most, and the value it has loaded is
the counter: the increments made. -/
structure Sound (k : Nat) (c : BitVec w) (s : State n w) : Prop where
  flag : s.mLock = true ↔ ∃ t, (s.stage t).Inside
  one : ∀ t u, (s.stage t).Inside → (s.stage u).Inside → t = u
  loaded : ∀ t i v, s.stage t = .storing i v → v = s.counter
  rounds : ∀ t i, s.stage t = .counting i → i ≤ k
  below : ∀ t i v, s.stage t = .storing i v → i < k
  counter : s.counter = c + BitVec.ofNat w (s.made k)

theorem sound_start (c : BitVec w) : Sound k c (start c : State n w) where
  flag := iff_of_false (by simp [start]) (by rintro ⟨t, h⟩; exact h)
  one _ _ h := h.elim
  loaded _ _ _ := nofun
  rounds _ _ := nofun
  below _ _ _ := nofun
  counter := by simp [start, State.made, Stage.made]

/-- Where no thread but `t` can be inside, `t` is all there is to look at. -/
theorem Sound.of_alone (hno : ∀ u, u ≠ t → ¬ (s.stage u).Inside)
    (hflag : s.mLock = true ↔ (s.stage t).Inside)
    (hloaded : ∀ i v, s.stage t = .storing i v → v = s.counter ∧ i < k)
    (hrounds : ∀ i, s.stage t = .counting i → i ≤ k)
    (hcounter : s.counter = c + BitVec.ofNat w (s.made k)) : Sound k c s := by
  have ht : ∀ u, (s.stage u).Inside → u = t := fun u hu => by_contra fun he => hno u he hu
  refine ⟨hflag.trans ⟨fun h => ⟨t, h⟩, fun ⟨u, hu⟩ => ht u hu ▸ hu⟩,
    fun u u' hu hu' => (ht u hu).trans (ht u' hu').symm, fun u i v hv => ?_, fun u i hi => ?_,
    fun u i v hv => ?_, hcounter⟩
  · obtain rfl := ht u (by rw [hv]; trivial)
    exact (hloaded i v hv).1
  · obtain rfl := ht u (by rw [hi]; trivial)
    exact hrounds i hi
  · obtain rfl := ht u (by rw [hv]; trivial)
    exact (hloaded i v hv).2

/-- The counter stays the sum of the increments where `t` adds to it what it has made. -/
theorem counter_goto {st : Stage w} {v : BitVec w} (h : s.counter = c + BitVec.ofNat w (s.made k))
    (hv : v + BitVec.ofNat w ((s.stage t).made k) = s.counter + BitVec.ofNat w (st.made k)) :
    v = c + BitVec.ofNat w ((s.goto t st).made k) := by
  have hmade : BitVec.ofNat w ((s.goto t st).made k) + BitVec.ofNat w ((s.stage t).made k) =
      BitVec.ofNat w (s.made k) + BitVec.ofNat w (st.made k) := by
    rw [← BitVec.ofNat_add, ← BitVec.ofNat_add, made_goto]
  -- both sides are the same once the increments `t` had made are added
  apply (BitVec.add_left_inj (BitVec.ofNat w ((s.stage t).made k))).1
  calc v + BitVec.ofNat w ((s.stage t).made k)
      = c + (BitVec.ofNat w (s.made k) + BitVec.ofNat w (st.made k)) := by
        rw [hv, h, BitVec.add_assoc]
    _ = _ := by rw [← hmade, BitVec.add_assoc]

/-- A thread may go to `st` while the others are outside, if the flag, the counter and what it has
loaded agree with that. -/
theorem Sound.goto (h : Sound k c s) (hno : ∀ u, u ≠ t → ¬ (s.stage u).Inside) {st : Stage w}
    {flag : Bool} {v : BitVec w} (hflag : flag = true ↔ st.Inside)
    (hloaded : ∀ i x, st = .storing i x → x = v ∧ i < k) (hrounds : ∀ i, st = .counting i → i ≤ k)
    (hv : v + BitVec.ofNat w ((s.stage t).made k) = s.counter + BitVec.ofNat w (st.made k)) :
    Sound k c (State.goto ⟨flag, v, s.stage⟩ t st) := by
  refine .of_alone (t := t) (fun u hu => ?_) ?_ ?_ ?_ ?_
  · rw [goto_stage_ne _ hu]
    exact hno u hu
  · rw [goto_stage_self]
    exact hflag
  · rw [goto_stage_self]
    exact hloaded
  · rw [goto_stage_self]
    exact hrounds
  · show v = c + BitVec.ofNat w ((s.goto t st).made k)
    exact counter_goto h.counter hv

/-- The others are outside while `t` is inside. -/
theorem Sound.outside (h : Sound k c s) (ht : (s.stage t).Inside) (u : Fin n) (hu : u ≠ t) :
    ¬ (s.stage u).Inside :=
  fun hin => hu (h.one u t hin ht)

/-- The thread that finds the flag clear comes in. -/
theorem Sound.lock (h : Sound k c s) (ht : s.stage t = .locking) (hflag : s.mLock = false) :
    Sound k c (s.testAndSet.2.goto t (.counting 0)) := by
  have hno : ∀ u, ¬ (s.stage u).Inside := by
    intro u hu
    have hset := h.flag.2 ⟨u, hu⟩
    rw [hflag] at hset
    cases hset
  apply h.goto fun u _ => hno u
  · exact iff_of_true rfl trivial
  · exact nofun
  · intro i hi
    cases hi
    exact Nat.zero_le k
  · rw [ht]
    rfl

/-- It loads the counter. -/
theorem Sound.load (h : Sound k c s) {i : Nat} (ht : s.stage t = .counting i) (hi : i < k) :
    Sound k c (s.goto t (.storing i s.counter)) := by
  have hin : (s.stage t).Inside := by rw [ht]; trivial
  apply h.goto (h.outside hin)
  · exact iff_of_true (h.flag.2 ⟨t, hin⟩) trivial
  · intro j v hv
    cases hv
    exact ⟨rfl, hi⟩
  · exact nofun
  · rw [ht]
    rfl

/-- It stores what it has loaded, plus one: no other thread has stored since. -/
theorem Sound.store (h : Sound k c s) {i : Nat} {v : BitVec w} (ht : s.stage t = .storing i v) :
    Sound k c ({ s with counter := v + 1 }.goto t (.counting (i + 1))) := by
  have hin : (s.stage t).Inside := by rw [ht]; trivial
  apply h.goto (h.outside hin)
  · exact iff_of_true (h.flag.2 ⟨t, hin⟩) trivial
  · exact nofun
  · intro j hj
    cases hj
    exact h.below t i v ht
  · rw [ht, h.loaded t i v ht]
    show s.counter + 1 + BitVec.ofNat w i = s.counter + BitVec.ofNat w (i + 1)
    rw [BitVec.ofNat_add, BitVec.add_assoc, BitVec.add_comm 1]
    rfl

/-- It has made its `k` increments when it clears the flag. -/
theorem Sound.unlock (h : Sound k c s) {i : Nat} (ht : s.stage t = .counting i) (hi : ¬ i < k) :
    Sound k c (s.clear.goto t .finished) := by
  have hin : (s.stage t).Inside := by rw [ht]; trivial
  have hik : i = k := by
    have := h.rounds t i ht
    omega
  apply h.goto (h.outside hin)
  · exact iff_of_false Bool.false_ne_true id
  · exact nofun
  · exact nofun
  · rw [ht, hik]
    rfl

theorem Sound.step (h : Sound k c s) (hs : step k s t = some s') : Sound k c s' := by
  unfold CasLock.step at hs
  cases ht : s.stage t with
  | locking =>
    rw [ht] at hs
    cases hflag : s.mLock with
    | true =>
      -- the flag is set already: the thread spins
      have hspin : s.testAndSet = (true, s) := by rw [State.testAndSet, ← hflag]
      simp only [hspin] at hs
      cases hs
      exact h
    | false =>
      simp only [State.testAndSet, hflag] at hs
      cases hs
      exact h.lock ht hflag
  | counting i =>
    simp only [ht] at hs
    split at hs
    · cases hs
      exact h.load ht ‹_›
    · cases hs
      exact h.unlock ht ‹_›
  | storing i v =>
    simp only [ht] at hs
    cases hs
    exact h.store ht
  | finished =>
    rw [ht] at hs
    cases hs

/-- Every state of every run has one thread inside at most, and no increment is lost. -/
theorem one_inside_none_lost (n w k : Nat) (c : BitVec w) {as : List (Fin n)} {s : State n w}
    (hr : exec (step k) (start c) as = some s) :
    (∀ t u, (s.stage t).Inside → (s.stage u).Inside → t = u) ∧
      ((∀ t, s.stage t = .finished) → s.counter.toNat = (c.toNat + n * k) % 2 ^ w) := by
  have h : Sound k c s := Transition.invariant (fun _ _ _ h hs => h.step hs) (sound_start c) hr
  refine ⟨h.one, fun hfin => ?_⟩
  have hmade : s.made k = n * k := by
    unfold State.made
    simp only [hfin, Stage.made, Finset.sum_const, Finset.card_univ, Fintype.card_fin,
      smul_eq_mul]
  rw [h.counter, hmade, BitVec.toNat_add, BitVec.toNat_ofNat, Nat.add_mod_mod]

/-- Two threads, one increment each: the second spins while the first is inside. -/
def spinningRun : List (Fin 2) := [0, 1, 0, 0, 1, 0, 1, 1, 1, 1]

theorem one_inside_none_lost_two : ∃ s : State 2 8, exec (step 1) (start 255) spinningRun = some s ∧
    s.stage 0 = .finished ∧ s.stage 1 = .finished ∧ s.counter.toNat = 1 := by
  have hrun : (exec (step 1) (start 255 : State 2 8) spinningRun).map (fun s =>
      (s.stage 0, s.stage 1)) = some (.finished, .finished) := by decide
  obtain ⟨s, hs, hobs⟩ := Option.map_eq_some_iff.1 hrun
  obtain ⟨h0, h1⟩ := Prod.mk.inj hobs
  have hfinished : ∀ t, s.stage t = .finished := Fin.forall_fin_two.2 ⟨h0, h1⟩
  exact ⟨s, hs, h0, h1, (one_inside_none_lost 2 8 1 255 hs).2 hfinished⟩

end CasLock

end LittleLearning.Concurrent
