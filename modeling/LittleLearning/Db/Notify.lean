import LittleLearning.Db.Step
import Mathlib.Data.List.Perm.Basic

/-!
# Completion notifications

The worker adds the fd of each completed task to the counter of `notifyFd`, and
`reply` takes what the counter holds for one fd. `Accounted` relates the counter
to the fds written since it was last read. The notifications arrive as they were
sent exactly in the runs whose reads all find a single one of them.
-/

namespace LittleLearning.Db

open Cxx Transition

namespace Server

variable {s s' : Server} {a : Act}

/-- What a step does to the eventfd. -/
inductive EventFdStep (s : Server) : Act → EventFd → Prop where
  | same (a : Act) : EventFdStep s a s.notifyFd
  | read : s.io = .idle → 0 < s.notifyFd.counter → EventFdStep s .notified
      { s.notifyFd with
        counter := 0, pending := [], values := s.notifyFd.values ++ [(s.notifyFd.counter : Int)] }
  | write (ok : Bool) (value : Bytes) (task : Task) : (task, .answered) ∈ s.tasks →
      EventFdStep s (.worker ok value) { s.notifyFd with
        counter := s.notifyFd.counter + task.fd.toNat
        completed := s.notifyFd.completed ++ [task.fd]
        written := s.notifyFd.written ++ [task.fd]
        pending := s.notifyFd.pending ++ [task.fd] }
  | full (ok : Bool) (value : Bytes) (task : Task) : (task, .answered) ∈ s.tasks →
      EventFdStep s (.worker ok value)
        { s.notifyFd with completed := s.notifyFd.completed ++ [task.fd] }

theorem Move.eventFdStep (h : Move s a s') : EventFdStep s a s'.notifyFd := by
  have hmem : ∀ {task : Task}, s.worker = .notify task → (task, .answered) ∈ s.tasks :=
    fun hw => mem_tasks.2 (.inr (by simp [hw, Worker.tasks]))
  cases h with
  | notified hio hc => exact .read hio hc
  | notify ok value task hw _ => exact .write ok value task (hmem hw)
  | notifyFull ok value task hw _ => exact .full ok value task (hmem hw)
  | clear | erase | execGet | finish => simpa [goto, work] using EventFdStep.same _
  | _ => exact .same _

/-- Clients are known by positive fds. -/
theorem Move.clients_pos (h : Move s a s') (hpos : ∀ fd, s.clients fd ≠ none → 0 < fd) :
    ∀ fd, s'.clients fd ≠ none → 0 < fd := by
  intro fd hfd
  have hstep := h.clientStep fd
  generalize s'.clients fd = c' at hstep hfd
  cases hstep with
  | same => exact hpos fd hfd
  | new garbage _ h0 => exact h0
  | changed c c' hcl => exact hpos fd (by simp [hcl])

/-- The counter holds the fds written since it was last read, one added to the other. -/
structure Accounted (s : Server) : Prop where
  clients : ∀ fd, s.clients fd ≠ none → 0 < fd
  tasks : ∀ task stage, (task, stage) ∈ s.tasks → 0 < task.fd
  pending : ∀ fd ∈ s.notifyFd.pending, 0 < fd
  counter : (s.notifyFd.counter : Int) = s.notifyFd.pending.sum
  length : s.notifyFd.values.length + s.notifyFd.pending.length ≤ s.notifyFd.written.length
  written : s.notifyFd.written ⊆ s.notifyFd.completed

theorem accounted_init : Accounted .init where
  clients _ h := absurd rfl h
  tasks _ _ h := by cases h
  pending _ h := by cases h
  counter := rfl
  length := Nat.le_refl _
  written := List.nil_subset _

theorem Accounted.step (h : Accounted s) (hs : s.step a = some s') : Accounted s' := by
  have hm := step_cases hs
  have htasks : ∀ task stage, (task, stage) ∈ s'.tasks → 0 < task.fd := by
    intro task stage ht
    rcases hm.tasks ht with ht | ⟨earlier, ht, -⟩ | ⟨-, -, hcl⟩
    · exact h.tasks task stage ht
    · exact h.tasks task earlier ht
    · exact h.clients _ hcl
  have hclients := hm.clients_pos h.clients
  have hefd := hm.eventFdStep
  generalize hn : s'.notifyFd = e at hefd
  cases hefd with
  | same a =>
    exact ⟨hclients, htasks, hn ▸ h.pending, hn ▸ h.counter, hn ▸ h.length, hn ▸ h.written⟩
  | read _ hc =>
    have hne : s.notifyFd.pending ≠ [] := by
      intro hnil
      have := h.counter
      rw [hnil, List.sum_nil] at this
      omega
    have hlen := h.length
    have hpos := List.length_pos_iff.2 hne
    refine ⟨hclients, htasks, ?_, ?_, ?_, ?_⟩ <;> rw [hn]
    · intro fd hfd
      cases hfd
    · rfl
    · simp only [List.length_append, List.length_cons, List.length_nil]
      omega
    · exact h.written
  | write ok value task ht =>
    have h0 := h.tasks task .answered ht
    have hlen := h.length
    refine ⟨hclients, htasks, ?_, ?_, ?_, ?_⟩ <;> rw [hn]
    · intro fd hfd
      rcases List.mem_append.1 hfd with hfd | hfd
      · exact h.pending fd hfd
      · exact List.mem_singleton.1 hfd ▸ h0
    · have := h.counter
      simp only [List.sum_append, List.sum_cons, List.sum_nil]
      omega
    · simp only [List.length_append, List.length_cons, List.length_nil]
      omega
    · exact List.append_subset.2 ⟨fun fd hfd => List.mem_append_left _ (h.written hfd),
        List.subset_append_right _ _⟩
  | full ok value task ht =>
    refine ⟨hclients, htasks, ?_, ?_, ?_, ?_⟩ <;> rw [hn]
    · exact h.pending
    · exact h.counter
    · exact h.length
    · exact fun fd hfd => List.mem_append_left _ (h.written hfd)

/-! ### One read per completion -/

/-- The values read are fds of completed tasks, and all that were written once the counter is 0. -/
def Delivered (s : Server) : Prop :=
  (∀ v ∈ s.notifyFd.values, v ∈ s.notifyFd.completed) ∧
    (s.notifyFd.counter = 0 → s.notifyFd.values.Perm s.notifyFd.written)

/-- If the step is `reply` reading `notifyFd`, one completion was written since the last read. -/
def ReadsOne (s : Server) (a : Act) : Prop :=
  a = .notified → s.step .notified ≠ none → s.notifyFd.pending.length = 1

/-- Read and still to be read are what was written. -/
def Matched (s : Server) : Prop :=
  (s.notifyFd.values ++ s.notifyFd.pending).Perm s.notifyFd.written

theorem Matched.step (h : Matched s) (ha : Accounted s) (hone : ReadsOne s a)
    (hs : s.step a = some s') : Matched s' := by
  have hefd := (step_cases hs).eventFdStep
  unfold Matched at h ⊢
  generalize hn : s'.notifyFd = e at hefd
  cases hefd with
  | same a => exact h
  | full => exact h
  | write ok value task _ =>
    simp only [← List.append_assoc]
    exact h.append_right _
  | read _ _ =>
    obtain ⟨v, hv⟩ := List.length_eq_one_iff.1 (hone rfl (by simp [hs]))
    have hcounter := ha.counter
    rw [hv] at h hcounter
    have hvalue : (s.notifyFd.counter : Int) = v := by simpa using hcounter
    simpa [hvalue] using h

theorem sum_pos : ∀ {l : List Int}, (∀ x ∈ l, 0 < x) → l ≠ [] → 0 < l.sum
  | [x], h, _ => by simpa using h x (by simp)
  | x :: y :: l, h, _ => by
    have hx := h x (by simp)
    have := sum_pos (l := y :: l) (fun z hz => h z (by simp [hz])) (by simp)
    rw [List.sum_cons]
    omega

theorem Matched.delivered (h : Matched s) (ha : Accounted s) : Delivered s := by
  refine ⟨fun v hv => ha.written (h.subset (List.mem_append_left _ hv)), fun h0 => ?_⟩
  have hnil : s.notifyFd.pending = [] := by
    by_contra hne
    have hsum := sum_pos ha.pending hne
    have := ha.counter
    omega
  unfold Matched at h
  rwa [hnil, List.append_nil] at h

/-- A read that finds more than one completion leaves more written than read. -/
theorem readsOne_of_delivered (ha : Accounted s) (h : ∀ s', s.step a = some s' → Delivered s') :
    ReadsOne s a := by
  rintro rfl hstep
  obtain ⟨s', hs⟩ := Option.ne_none_iff_exists'.1 hstep
  have hd := (h s' hs).2
  have hlen := ha.length
  cases step_cases hs with
  | closes a fd c hc => cases hc
  | notified _ hc =>
    have hperm := (hd rfl).length_eq
    simp only [List.length_append, List.length_cons, List.length_nil] at hperm
    have hne : s.notifyFd.pending ≠ [] := by
      intro hnil
      have := ha.counter
      rw [hnil, List.sum_nil] at this
      omega
    have := List.length_pos_iff.2 hne
    omega

/-- Notifications are neither merged nor lost in a run if and only if every read of `notifyFd`
finds a single one. -/
theorem notifications_exact_iff (as : List Act) :
    Always step Delivered .init as ↔ Along step ReadsOne .init as := by
  constructor
  · exact along_of_always (I := Accounted) (fun _ _ _ h hs => h.step hs)
      (fun _ _ ha _ h => readsOne_of_delivered ha h) accounted_init
  · refine always_of_along (I := fun s => Accounted s ∧ Matched s) (fun s h => h.2.delivered h.1)
      (fun s a s' h hone hs => ⟨h.1.step hs, h.2.step h.1 hone hs⟩) ⟨accounted_init, ?_⟩
    exact List.Perm.nil

/-- Two clients send `exit`, and both tasks are done before `reply` runs. -/
def mergedRun : List Act :=
  [.accept 10 false, .accept 11 false, .input 10 (ascii "exit\n"), .io .again,
    .input 11 (ascii "exit\n"), .io .again] ++ List.replicate 6 (.worker true []) ++ [.notified]

theorem mergedRun_values :
    ¬ ∀ (as : List Act) (s : Server), exec step .init as = some s → Delivered s := by
  intro h
  have hrun : (exec step .init mergedRun).map (·.notifyFd) = some {
      counter := 0, completed := [10, 11], written := [10, 11], pending := []
      values := [21] } := by
    decide
  obtain ⟨s, hs, hfd⟩ := Option.map_eq_some_iff.1 hrun
  have hmem := (h mergedRun s hs).1 21 (by rw [hfd]; simp)
  rw [hfd] at hmem
  exact absurd hmem (by decide)

end Server

end LittleLearning.Db
