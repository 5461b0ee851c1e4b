import LittleLearning.Db.Append
import LittleLearning.Db.Connections

/-!
# The record of the replies

A get replaces what is in an output, so that to the worker's appends come the
values of the gets. `Flow.follow` takes the record of an output through them, from
the first accept on. As long as a get finds nothing to replace and nothing is put
into the output while `reply` is about to clear it, the record stays a `Flowing`
one, and what is written of it is on the wire.
-/

namespace LittleLearning.Db

open Cxx Transition

/-- The step `a` of the server, seen from the output under `fd`: what a get leaves there is appended
to the rest, and removes it from the buffer. -/
def Flow.follow (fd : Int) (s : Server) (a : Act) (f : Flow) : Flow :=
  match a, s.worker with
  | .worker true value, .exec task st =>
    match fetch task.cmd st with
    | .call (.get _) _ =>
      if task.fd = fd then
        { f with
          appended := f.appended ++ Server.produced task (value ++ [lf])
          removed := f.appended.length }
      else f
    | _ => f
  | _, _ => f.next fd s a

namespace Server

variable {s s' : Server} {a : Act} {fd : Int} {f : Flow}

/-- The server, with what has become of all that was put into the output under `fd`. -/
def follow (fd : Int) (p : Server × Flow) (a : Act) : Option (Server × Flow) :=
  (p.1.step a).map (·, p.2.follow fd p.1 a)

/-- A get of `fd` that leaves a value finds the output empty, and not about to be cleared. -/
def GetsAlone (fd : Int) (s : Server) : Act → Prop
  | .worker ok _ =>
    ok = true → s.worker.getting = some fd → s.output fd = [] ∧ s.io ≠ .clear fd
  | _ => True

instance (fd : Int) (s : Server) : DecidablePred (GetsAlone fd s)
  | .worker ok _ => inferInstanceAs (Decidable (ok = true → s.worker.getting = some fd → _ ∧ _))
  | .accept _ _ | .input _ _ | .notified | .writable _ | .io _ => .isTrue trivial

theorem fetch_get_lt {cmd : List Bytes} {st st' : Nat} {key : Bytes}
    (hf : fetch cmd st = .call (.get key) st') : st < cmd.length := by
  by_contra hlt
  have hnone : cmd[st]? = none := List.getElem?_eq_none (Nat.not_lt.1 hlt)
  simp [fetch, hnone] at hf

theorem Aside.appendsOnly (ha : s.Aside a) : AppendsOnly fd s a := by
  rintro value task st key st' rfl hw hf -
  simp only [Aside, hw] at ha
  exact ha trivial (fetch_get_lt hf) key st' hf

/-- Where the worker gets nothing for `fd` the record goes on as before. -/
theorem Flow.follow_eq (ha : AppendsOnly fd s a) : f.follow fd s a = f.next fd s a := by
  unfold Flow.follow
  split
  · rename_i value task st hw
    have hnext : f.next fd s (.worker true value) = f := by simp [Flow.next, hw]
    split
    · rename_i key st' hf
      rw [if_neg (ha value task st key st' rfl hw hf), hnext]
    · exact hnext.symm
  · rfl

theorem Flow.follow_get {value key : Bytes} {task : Task} {st st' : Nat}
    (hw : s.worker = .exec task st) (hf : fetch task.cmd st = .call (.get key) st') :
    f.follow task.fd s (.worker true value) =
      { f with
        appended := f.appended ++ produced task (value ++ [lf])
        removed := f.appended.length } := by
  simp [Flow.follow, hw, hf]

/-- A get that finds the output empty appends its value. -/
theorem Flowing.got (h : Flowing fd s f) {text : List OutByte} {w : Worker}
    (hempty : s.output fd = []) (hno : s.io ≠ .clear fd) :
    Flowing fd ((s.setOutput fd text).work w)
      { f with appended := f.appended ++ text, removed := f.appended.length } := by
  have hremoved : f.removed = f.appended.length := by
    have hlen := h.length
    rw [hempty, List.length_nil] at hlen
    have hle := h.removed
    omega
  have happ : Flowing fd ((s.setOutput fd (s.output fd ++ text)).work w)
      { f with appended := f.appended ++ text } := h.append hno
  rw [hempty, List.nil_append] at happ
  rwa [← hremoved]

theorem Flowing.follow (h : Flowing fd s f) (hget : GetsAlone fd s a) (halone : ClearAlone fd s a)
    (hs : s.step a = some s') : Flowing fd s' (f.follow fd s a) := by
  by_cases ha : AppendsOnly fd s a
  · rw [Flow.follow_eq ha]
    exact h.step ha halone hs
  · simp only [AppendsOnly, not_forall, not_not] at ha
    obtain ⟨value, task, st, key, st', rfl, hw, hf, rfl⟩ := ha
    obtain ⟨hempty, hno⟩ := hget rfl (by simp [hw, Worker.getting, hf])
    rw [Flow.follow_get hw hf]
    cases (step_cases hs).touch with
    | aside _ _ haside => exact absurd rfl (haside.appendsOnly value task st key st' rfl hw hf)
    | got _ key' task' st₁ st₂ hw' _ hf' =>
      obtain ⟨rfl, rfl⟩ : task' = task ∧ st₁ = st := by simpa [hw, eq_comm] using hw'
      exact h.got hempty hno
    | answer _ _ _ _ hw' =>
      rw [hw] at hw'
      cases hw'

/-- What was written of the record is on the wire. -/
theorem Flowing.onWire (h : Flowing fd s f)
    (hwire : (f.appended.take f.written).Sublist (s.wire.map Prod.snd))
    (hs : s.step a = some s') :
    ((f.follow fd s a).appended.take (f.follow fd s a).written).Sublist (s'.wire.map Prod.snd) := by
  have hwri := h.written
  have hkept : f.removed ≤ f.written := h.kept
  -- nothing is written, and what was appended stays
  have hstay : ∀ {f' : Flow} {more : List OutByte}, f'.written = f.written →
      f'.appended = f.appended ++ more → s'.wire = s.wire →
      (f'.appended.take f'.written).Sublist (s'.wire.map Prod.snd) := by
    intro f' more hw happ hsame
    rw [hw, happ, List.take_append_of_le_length hwri, hsame]
    exact hwire
  cases (step_cases hs).touch with
  | aside a s' haside hsame =>
    rw [Flow.follow_eq haside.appendsOnly, Flow.next_aside haside]
    exact hstay rfl (List.append_nil _).symm hsame
  | wrote fd' conn n next hnext hconn hle =>
    have hfollow : f.follow fd s (.io (.wrote n)) =
        if fd' = fd then { f with written := max f.written (f.removed + n) } else f := by
      rcases hnext with ⟨hio, -⟩ | ⟨hio, -⟩ <;> simp [Flow.follow, Flow.next, hio]
    have hput : (s.wire ++ ((s.output fd').take n).map (conn, ·)).map Prod.snd =
        s.wire.map Prod.snd ++ (s.output fd').take n := by
      simp [Function.comp_def]
    rw [hfollow, hput]
    by_cases he : fd' = fd
    · subst he
      simp only [if_true]
      rcases Nat.le_total (f.removed + n) f.written with hle' | hge
      · rw [Nat.max_eq_left hle']
        exact hwire.trans (List.sublist_append_left _ _)
      · rw [Nat.max_eq_right hge, List.take_add, ← h.output]
        have hbefore : (f.appended.take f.removed).Sublist (f.appended.take f.written) :=
          List.take_sublist_take_left hkept
        exact (hbefore.trans hwire).append (List.Sublist.refl _)
    · rw [if_neg he]
      exact hwire.trans (List.sublist_append_left _ _)
  | dropped st s' fd' n hr hsame =>
    refine hstay ?_ ((List.append_nil _).trans ?_).symm hsame
    all_goals rcases hr with ⟨hio, -⟩ | ⟨hio, rfl⟩ <;> simp [Flow.follow, Flow.next, hio]
  | settleAll st fd' hio =>
    refine hstay ?_ ((List.append_nil _).trans ?_).symm rfl <;> simp [Flow.follow, Flow.next, hio]
  | clear st fd' hio =>
    refine hstay ?_ ((List.append_nil _).trans ?_).symm (by simp [goto])
    all_goals by_cases he : fd' = fd <;> simp [Flow.follow, Flow.next, hio, he]
  | erase st fd' n hio hn =>
    refine hstay ?_ ((List.append_nil _).trans ?_).symm (by simp [goto])
    all_goals by_cases he : fd' = fd <;> simp [Flow.follow, Flow.next, hio, he]
  | got value key task st st' hw hst hf =>
    by_cases he : task.fd = fd
    · subst he
      rw [Flow.follow_get hw hf]
      exact hstay rfl rfl (by simp [work])
    · have hsame : f.follow fd s (.worker true value) = f := by simp [Flow.follow, hw, hf, he]
      rw [hsame]
      exact hstay rfl (List.append_nil _).symm (by simp [work])
  | answer ok good value task hw =>
    by_cases he : task.fd = fd
    · have hfollow : f.follow fd s (.worker ok value) =
          { f with appended := f.appended ++ produced task (answer good) } := by
        simp [Flow.follow, Flow.next, hw, he]
      rw [hfollow]
      exact hstay rfl rfl (by simp [work])
    · have hfollow : f.follow fd s (.worker ok value) = f := by
        simp [Flow.follow, Flow.next, hw, he]
      rw [hfollow]
      exact hstay rfl (List.append_nil _).symm (by simp [work])

/-- The record of the output under `fd`: empty until it has a client. -/
inductive Recorded (fd : Int) (s : Server) (f : Flow) : Prop where
  | fresh : s.clients fd = none → f = ⟨[], 0, 0⟩ → Recorded fd s f
  | flowing : Flowing fd s f → (f.appended.take f.written).Sublist (s.wire.map Prod.snd) →
      Recorded fd s f

theorem Recorded.kept (h : Recorded fd s f) : f.Kept := by
  cases h with
  | fresh _ hf =>
    subst hf
    exact Nat.le_refl 0
  | flowing hf => exact hf.kept

/-- Without a client nothing of the output under `fd` is on record. -/
theorem Known.follow (hk : Known s) (hnone : s.clients fd = none) : f.follow fd s a = f := by
  have htarget : s.io.target ≠ some fd := fun ht => hk.sending fd (.inl ht) hnone
  have htask : ∀ {task : Task}, s.worker.tasks = [(task, .executing)] → task.fd ≠ fd := by
    rintro task hw rfl
    exact hk.tasks task .executing (mem_tasks.2 (.inr (by simp [hw]))) hnone
  cases a with
  | io st =>
    show f.next fd s (.io st) = f
    unfold Flow.next
    cases hio : s.io with
    | flush fd' | reFlush fd' | clear fd' =>
      have he : fd' ≠ fd := fun he => htarget (by rw [hio, he]; rfl)
      cases st <;> simp [he]
    | reSettle fd' r =>
      have he : fd' ≠ fd := fun he => htarget (by rw [hio, he]; rfl)
      cases r <;> simp [he]
    | _ => rfl
  | worker ok value =>
    cases hw : s.worker with
    | exec task st =>
      have he : task.fd ≠ fd := htask (by rw [hw]; rfl)
      cases ok with
      | true =>
        simp only [Flow.follow, hw]
        split
        · exact if_neg he
        · rfl
      | false => simp [Flow.follow, Flow.next, hw]
    | finish task good =>
      have he : task.fd ≠ fd := htask (by rw [hw]; rfl)
      simp [Flow.follow, Flow.next, hw, he]
    | _ => simp [Flow.follow, Flow.next, hw]
  | _ => rfl

theorem Recorded.step (h : Recorded fd s f) (hk : Known s) (hget : GetsAlone fd s a)
    (halone : ClearAlone fd s a) (hs : s.step a = some s') : Recorded fd s' (f.follow fd s a) := by
  cases h with
  | flowing hf hwire => exact .flowing (hf.follow hget halone hs) (hf.onWire hwire hs)
  | fresh hnone hf =>
    subst hf
    rw [hk.follow hnone]
    have hm := step_cases hs
    by_cases hnone' : s'.clients fd = none
    · exact .fresh hnone' rfl
    · by_cases ha : ∃ fd' garbage, a = .accept fd' garbage
      · obtain ⟨fd', garbage, rfl⟩ := ha
        have hout : s'.output fd = [] ∧ s'.io = .idle := by
          cases hm with
          | acceptNew _ _ hio _ _ _ hcl =>
            refine ⟨?_, hio⟩
            by_cases he : fd = fd'
            · subst he
              simp [Server.output, Client.new]
            · simp [Server.output, Function.update_of_ne he, hnone]
          | acceptOld _ _ _ hio => exact ⟨by simp [Server.output, hnone], hio⟩
          | closes _ _ _ hcloses => cases hcloses
        refine .flowing ⟨hnone', hout.1, Nat.le_refl 0, Nat.le_refl 0, Nat.le_refl 0, ?_, ?_⟩
          (List.nil_sublist _)
        · simp [hout.2]
        · simp [hout.2]
      · exact absurd ((hm.clients_eq_none fun garbage he => ha ⟨fd, garbage, he⟩).2 hnone) hnone'

end Server

end LittleLearning.Db
