import LittleLearning.Db.Flush

/-!
# Appends during a flush

The worker appends to an output while `reply` sends it. `Flow` follows the bytes
appended to one output by their place in the order of the appends: how many were
written to the socket, how many removed from the buffer. The lock statement of
`reply` covers nothing, so an append can come between the comparison of the
write's result with the size and the clear: exactly those appends are lost.
-/

namespace LittleLearning.Db

open Cxx Transition

/-- The fd the worker is about to append an answer for. -/
def Worker.answering : Worker → Option Int
  | .finish task _ => some task.fd
  | _ => none

/-- The fd the worker is about to get a value for. -/
def Worker.getting : Worker → Option Int
  | .exec task st =>
    match fetch task.cmd st with
    | .call (.get _) _ => some task.fd
    | _ => none
  | _ => none

/-- What has become of the bytes appended to one output, in the order of the appends. -/
structure Flow where
  appended : List OutByte
  /-- How many of them, from the first on, were written to the socket. -/
  written : Nat
  /-- How many of them, from the first on, were removed from the buffer. -/
  removed : Nat

/-- The step `a` of the server, seen from the output under `fd`. -/
def Flow.next (fd : Int) (s : Server) (a : Act) (f : Flow) : Flow :=
  match a with
  | .io st =>
    match s.io, st with
    | .flush fd', .wrote n | .reFlush fd', .wrote n =>
      if fd' = fd then { f with written := max f.written (f.removed + n) } else f
    | .clear fd', _ => if fd' = fd then { f with removed := f.appended.length } else f
    | .reSettle fd' (.wrote n), _ =>
      if fd' = fd then { f with removed := f.removed + n } else f
    | _, _ => f
  | .worker _ _ =>
    match s.worker with
    | .finish task good =>
      if task.fd = fd then
        { f with appended := f.appended ++ Server.produced task (Server.answer good) }
      else f
    | _ => f
  | _ => f

/-- No byte is removed that was not written. -/
def Flow.Kept (f : Flow) : Prop := f.removed ≤ f.written

namespace Server

/-- The server, with what has become of the output under `fd`. -/
def track (fd : Int) (p : Server × Flow) (a : Act) : Option (Server × Flow) :=
  (p.1.step a).map (·, p.2.next fd p.1 a)

/-- What the worker does to the output under `fd` is to append to it: a get that leaves a value
there is not of `fd`. -/
def AppendsOnly (fd : Int) (s : Server) (a : Act) : Prop :=
  ∀ value task st key st', a = .worker true value → s.worker = .exec task st →
    fetch task.cmd st = .call (.get key) st' → task.fd ≠ fd

/-- No append to the output while `reply` is about to clear it. -/
def ClearAlone (fd : Int) (s : Server) (a : Act) : Prop :=
  s.io = .clear fd → ∀ ok value task good, a = .worker ok value → s.worker = .finish task good →
    task.fd ≠ fd

instance (fd : Int) (s : Server) : DecidablePred (ClearAlone fd s)
  | .worker _ _ => decidable_of_iff (s.io = .clear fd → s.worker.answering ≠ some fd) <| by
    refine imp_congr_right fun _ => ⟨?_, fun h he => ?_⟩
    · rintro h ok value task good - hw rfl
      exact h (by rw [hw]; rfl)
    · cases hw : s.worker with
      | finish task good =>
        rw [hw] at he
        exact h _ _ task good rfl hw (Option.some.inj he)
      | exec | idle | start | notify =>
        rw [hw] at he
        cases he
  | .accept _ _ | .input _ _ | .notified | .writable _ | .io _ =>
    .isTrue fun _ _ _ _ _ h => by cases h

variable {s s' : Server} {a : Act} {fd : Int} {f : Flow}

structure Flowing (fd : Int) (s : Server) (f : Flow) : Prop where
  client : s.clients fd ≠ none
  output : s.output fd = f.appended.drop f.removed
  removed : f.removed ≤ f.appended.length
  written : f.written ≤ f.appended.length
  kept : f.Kept
  inHand : ∀ n, s.io = .settle fd (.wrote n) ∨ s.io = .reSettle fd (.wrote n) →
    f.removed + n ≤ f.written
  clear : s.io = .clear fd → f.written = f.appended.length

theorem Flowing.length (h : Flowing fd s f) :
    (s.output fd).length = f.appended.length - f.removed := by
  rw [h.output, List.length_drop]

/-- A step that leaves the output alone and does not begin to hold any of it. -/
theorem Flowing.keep {f' : Flow} (h : Flowing fd s f) (hf : f' = f) (hcl : s'.clients fd ≠ none)
    (hout : s'.output fd = s.output fd) (hio : s'.io = s.io ∨ EmptyHanded fd s'.io) :
    Flowing fd s' f' := by
  subst hf
  refine ⟨hcl, hout ▸ h.output, h.removed, h.written, h.kept, fun n hn => ?_, fun hc => ?_⟩
  · rcases hio with hio | hq
    · exact h.inHand n (hio ▸ hn)
    · rcases hn with hn | hn
      · exact absurd hn (hq.settle n)
      · exact absurd hn (hq.reSettle n)
  · rcases hio with hio | hq
    · exact h.clear (hio ▸ hc)
    · exact absurd hc hq.clear

/-! ### Steps on the output -/

theorem Flowing.wrote (h : Flowing fd s f) {n : Nat} {io : Io} {wire : List (ConnId × OutByte)}
    (hle : n ≤ (s.output fd).length)
    (hio : io = .settle fd (.wrote n) ∨ io = .reSettle fd (.wrote n)) :
    Flowing fd { s with wire := wire, io := io }
      { f with written := max f.written (f.removed + n) } := by
  have hlen := h.length
  have hrem := h.removed
  have hwri := h.written
  have hkept : f.removed ≤ f.written := h.kept
  refine ⟨h.client, h.output, hrem, ?_, ?_, fun m hm => ?_, fun hc => ?_⟩
  · show max f.written (f.removed + n) ≤ f.appended.length
    omega
  · simp only [Flow.Kept]
    omega
  · obtain rfl : m = n := by
      rcases hio with rfl | rfl <;> simpa [eq_comm] using hm
    exact Nat.le_max_right _ _
  · rcases hio with rfl | rfl <;> cases hc

theorem Flowing.cleared (h : Flowing fd s f) (hio : s.io = .clear fd) :
    Flowing fd ((s.setOutput fd []).goto .idle) { f with removed := f.appended.length } := by
  refine ⟨?_, ?_, Nat.le_refl _, h.written, Nat.le_of_eq (h.clear hio).symm, by simp [goto],
    by simp [goto]⟩
  · obtain ⟨c, hc⟩ := Option.ne_none_iff_exists'.1 h.client
    simp [goto, setOutput, hc, setClient]
  · rw [List.drop_length]
    exact output_setOutput h.client

theorem Flowing.erased (h : Flowing fd s f) {n : Nat} (hio : s.io = .reSettle fd (.wrote n)) :
    Flowing fd ((s.setOutput fd ((s.output fd).drop n)).goto (.rePend fd))
      { f with removed := f.removed + n } := by
  have hin := h.inHand n (.inr hio)
  refine ⟨?_, ?_, Nat.le_trans hin h.written, h.written, hin, by simp [goto], by simp [goto]⟩
  · obtain ⟨c, hc⟩ := Option.ne_none_iff_exists'.1 h.client
    simp [goto, setOutput, hc, setClient]
  · rw [h.output, List.drop_drop]
    exact output_setOutput h.client

theorem Flowing.append (h : Flowing fd s f) {text : List OutByte} {w : Worker}
    (hno : s.io ≠ .clear fd) :
    Flowing fd ((s.setOutput fd (s.output fd ++ text)).work w)
      { f with appended := f.appended ++ text } := by
  have hrem := h.removed
  have hwri := h.written
  have hio : ((s.setOutput fd (s.output fd ++ text)).work w).io = s.io := by simp [work]
  refine ⟨?_, ?_, ?_, ?_, h.kept, fun n hn => h.inHand n (hio ▸ hn), fun hc => ?_⟩
  · obtain ⟨c, hc⟩ := Option.ne_none_iff_exists'.1 h.client
    simp [work, setOutput, hc, setClient]
  · rw [List.drop_append_of_le_length hrem, ← h.output]
    exact output_setOutput h.client
  · simp only [List.length_append]
    omega
  · simp only [List.length_append]
    omega
  · exact absurd (hio ▸ hc) hno

theorem Flow.next_aside (ha : s.Aside a) : f.next fd s a = f := by
  cases a with
  | io st =>
    simp only [Aside] at ha
    simp only [Flow.next]
    cases hio : s.io with
    | flush | reFlush => cases st <;> simp_all
    | reSettle fd' r => cases r <;> simp_all
    | clear => simp_all
    | _ => rfl
  | worker ok value =>
    simp only [Aside] at ha
    simp only [Flow.next]
    cases hw : s.worker with
    | finish => simp_all
    | _ => rfl
  | _ => rfl

theorem Flowing.step (h : Flowing fd s f) (ha : AppendsOnly fd s a) (halone : ClearAlone fd s a)
    (hs : s.step a = some s') : Flowing fd s' (f.next fd s a) := by
  have hcl' := (step_cases hs).client_ne_none h.client
  cases (step_cases hs).touch with
  | aside a s' haside _ hout hio =>
    exact h.keep (Flow.next_aside haside) hcl' (hout fd) (hio.imp_right fun hio => hio.2 fd)
  | wrote fd' conn n next hnext hconn hle =>
    by_cases he : fd' = fd
    · subst he
      have hf : f.next fd' s (.io (.wrote n)) =
          { f with written := max f.written (f.removed + n) } := by
        rcases hnext with ⟨hio, -⟩ | ⟨hio, -⟩ <;> simp [Flow.next, hio]
      rw [hf]
      exact h.wrote hle (hnext.imp And.right And.right)
    · refine h.keep ?_ hcl' rfl (.inr ⟨?_, ?_, ?_⟩)
      · rcases hnext with ⟨hio, -⟩ | ⟨hio, -⟩ <;> simp [Flow.next, hio, he]
      all_goals rcases hnext with ⟨-, rfl⟩ | ⟨-, rfl⟩ <;> simp [he]
  | dropped st s' fd' n hr _ hout hidle =>
    refine h.keep ?_ hcl' (hout fd) (.inr (hidle ▸ emptyHanded trivial))
    rcases hr with ⟨hio, -⟩ | ⟨hio, rfl⟩ <;> simp [Flow.next, hio]
  | settleAll st fd' hio =>
    by_cases he : fd' = fd
    · subst he
      have hf : f.next fd' s (.io st) = f := by simp [Flow.next, hio]
      rw [hf]
      refine ⟨hcl', h.output, h.removed, h.written, h.kept, by simp [goto], fun _ => ?_⟩
      have hin := h.inHand _ (.inl hio)
      have hlen := h.length
      have hwri := h.written
      omega
    · exact h.keep (by simp [Flow.next, hio]) hcl' rfl
        (.inr ⟨by simp [goto], by simp [goto], by simp [goto, he]⟩)
  | clear st fd' hio =>
    by_cases he : fd' = fd
    · subst he
      have hf : f.next fd' s (.io st) = { f with removed := f.appended.length } := by
        simp [Flow.next, hio]
      rw [hf]
      exact h.cleared hio
    · exact h.keep (by simp [Flow.next, hio, he]) hcl' (output_setOutput_ne (Ne.symm he))
        (.inr (emptyHanded trivial))
  | erase st fd' n hio hn =>
    by_cases he : fd' = fd
    · subst he
      have hf : f.next fd' s (.io st) = { f with removed := f.removed + n } := by
        simp [Flow.next, hio]
      rw [hf]
      exact h.erased hio
    · exact h.keep (by simp [Flow.next, hio, he]) hcl' (output_setOutput_ne (Ne.symm he))
        (.inr (emptyHanded trivial))
  | got value key task st st' hw hst hfetch =>
    exact h.keep (by simp [Flow.next, hw]) hcl'
      (output_setOutput_ne (Ne.symm (ha value task st key st' rfl hw hfetch)))
      (.inl (by simp [work]))
  | answer ok good value task hw =>
    by_cases he : task.fd = fd
    · have hf : f.next fd s (.worker ok value) =
          { f with appended := f.appended ++ produced task (answer good) } := by
        simp [Flow.next, hw, he]
      rw [hf, he]
      exact h.append fun hc => halone hc ok value task good rfl hw he
    · exact h.keep (by simp [Flow.next, hw, he]) hcl' (output_setOutput_ne (Ne.symm he))
        (.inl (by simp [work]))

/-! ### When no byte is lost -/

theorem worker_io {ok : Bool} {value : Bytes} (hs : s.step (.worker ok value) = some s') :
    s'.io = s.io := by
  cases step_cases hs with
  | closes _ _ _ hcloses => cases hcloses
  | execGet | finish => simp [work]
  | _ => rfl

theorem Flow.next_worker {ok : Bool} {value : Bytes} :
    (f.next fd s (.worker ok value)).written = f.written ∧
      f.appended.length ≤ (f.next fd s (.worker ok value)).appended.length := by
  simp only [Flow.next]
  split
  · split <;> simp
  · simp

/-- Once `reply` is about to clear more than was written, nothing can save it. -/
theorem lost_of_clear {as : List Act} {t : Server × Flow} (hio : s.io = .clear fd)
    (hlt : f.written < f.appended.length) (hrun : exec (track fd) (s, f) as = some t)
    (hend : t.1.io ≠ .clear fd) : ¬ Always (track fd) (fun p => p.2.Kept) (s, f) as := by
  intro hkept
  induction as generalizing s f with
  | nil =>
    cases hrun
    exact hend hio
  | cons a as ih =>
    obtain ⟨⟨s', f'⟩, hs, hrun⟩ := exec_cons_eq_some.1 hrun
    have hkept' := hkept.2 _ hs
    simp only [track, Option.map_eq_some_iff, Prod.mk.injEq] at hs
    obtain ⟨s'', hs, rfl, rfl⟩ := hs
    cases a with
    | io st =>
      have hremoved : f.appended.length ≤ f.written := by
        have := hkept'.head
        simpa [Flow.next, hio, Flow.Kept] using this
      omega
    | worker ok value =>
      have hnext : (f.next fd s (.worker ok value)).written = f.written ∧
          f.appended.length ≤ (f.next fd s (.worker ok value)).appended.length := Flow.next_worker
      refine ih ((worker_io hs).trans hio) ?_ hrun hkept'
      omega
    | input fd' data => cases hc : s.conns fd' <;> simp [step, hc, hio] at hs
    | _ => simp [step, hio] at hs

theorem Flowing.run {as : List Act} {t : Server × Flow} (h : Flowing fd s f)
    (ha : Along (track fd) (fun p a => AppendsOnly fd p.1 a) (s, f) as)
    (hrun : exec (track fd) (s, f) as = some t) (hend : t.1.io ≠ .clear fd) :
    Always (track fd) (fun p => p.2.Kept) (s, f) as ↔
      Along (track fd) (fun p a => ClearAlone fd p.1 a) (s, f) as := by
  induction as generalizing s f with
  | nil => exact ⟨fun _ => trivial, fun _ => h.kept⟩
  | cons a as ih =>
    obtain ⟨⟨s', f'⟩, hs, hrun'⟩ := exec_cons_eq_some.1 hrun
    have hstep : s.step a = some s' ∧ f' = f.next fd s a := by
      obtain ⟨u, hu, he⟩ := Option.map_eq_some_iff.1 hs
      cases he
      exact ⟨hu, rfl⟩
    have hrest : ∀ p, track fd (s, f) a = some p → p = (s', f') := fun p hp =>
      Option.some.inj (hp.symm.trans hs)
    have hnext : ClearAlone fd s a → Flowing fd s' f' := fun halone =>
      hstep.2 ▸ h.step ha.1 halone hstep.1
    constructor
    · intro hkept
      have halone : ClearAlone fd s a := by
        rintro hio ok value task good rfl hw rfl
        -- the append is not among the bytes written
        have hlt : f.written < f'.appended.length := by
          have hwri := h.written
          have hpos : 0 < (produced task (answer good)).length := by
            rw [produced, List.length_map]
            cases good <;> decide
          rw [hstep.2]
          simp only [Flow.next, hw, if_true, List.length_append]
          omega
        have hw' : f'.written = f.written := by
          rw [hstep.2]
          exact Flow.next_worker.1
        exact lost_of_clear ((worker_io hstep.1).trans hio) (hw' ▸ hlt) hrun' hend (hkept.2 _ hs)
      refine ⟨halone, fun p hp => ?_⟩
      rw [hrest p hp]
      exact (ih (hnext halone) (ha.2 _ hs) hrun').1 (hkept.2 _ hs)
    · intro halone
      refine ⟨h.kept, fun p hp => ?_⟩
      rw [hrest p hp]
      exact (ih (hnext halone.1) (ha.2 _ hs) hrun').2 (halone.2 _ hs)

/-- From a state between two events, in any interleaving in which the worker does no more to the
output than append to it: no byte appended is removed before it is written if and only if no append
comes while `reply` is about to clear the output. -/
theorem appended_survive_iff {as : List Act} {t : Server × Flow} (hio : s.io = .idle)
    (hcl : s.clients fd ≠ none)
    (ha : Along (track fd) (fun p a => AppendsOnly fd p.1 a) (s, ⟨s.output fd, 0, 0⟩) as)
    (hrun : exec (track fd) (s, ⟨s.output fd, 0, 0⟩) as = some t) (hend : t.1.io ≠ .clear fd) :
    Always (track fd) (fun p => p.2.Kept) (s, ⟨s.output fd, 0, 0⟩) as ↔
      Along (track fd) (fun p a => ClearAlone fd p.1 a) (s, ⟨s.output fd, 0, 0⟩) as := by
  refine Flowing.run ⟨hcl, rfl, Nat.zero_le _, Nat.zero_le _, Nat.le_refl _, ?_, ?_⟩ ha hrun hend
  · simp [hio]
  · simp [hio]

/-- Every write writes all of the output. -/
def writesAll (s : Server) (a : Act) : Bool :=
  match s.io, a with
  | .flush fd, .io st | .reFlush fd, .io st => st = .wrote (s.output fd).length
  | _, _ => true

/-- A client has an answer in its output, and the worker is about to append the next. -/
def appending : Server := { replying with
  io := .idle
  worker := .finish ⟨10, [ascii "set"], 0⟩ true
  notifyFd := ⟨10, [10], [10], [10], []⟩ }

/-- The append comes before `reply`. -/
theorem appended_survive_iff_before :
    Always (track 10) (fun p => p.2.Kept) (appending, ⟨appending.output 10, 0, 0⟩)
        [.worker false [], .notified, .io .again, .io (.wrote 8), .io .again, .io .again] ↔
      Along (track 10) (fun p a => ClearAlone 10 p.1 a) (appending, ⟨appending.output 10, 0, 0⟩)
        [.worker false [], .notified, .io .again, .io (.wrote 8), .io .again, .io .again] := by
  have hrun : (exec (track 10) (appending, ⟨appending.output 10, 0, 0⟩)
      [.worker false [], .notified, .io .again, .io (.wrote 8), .io .again, .io .again]).map
        (·.1.io) = some .idle := by
    decide +kernel
  obtain ⟨t, hexec, ht⟩ := Option.map_eq_some_iff.1 hrun
  refine appended_survive_iff rfl (by simp [appending, replying]) ?_ hexec (by simp [ht])
  refine along_of_forall fun a ha p value task st key st' hw => ?_
  subst hw
  simp at ha

/-- The append comes between the comparison and the clear. -/
def lostRun : List Act :=
  [.notified, .io .again, .io (.wrote 4), .io .again, .worker false [], .io .again]

/-- The second answer is removed without having been written. -/
theorem not_appended_survive :
    ¬ ∀ (s : Server) (fd : Int) (as : List Act), s.io = .idle → s.clients fd ≠ none →
      Along (track fd) (fun p a => AppendsOnly fd p.1 a ∧ writesAll p.1 a = true)
        (s, ⟨s.output fd, 0, 0⟩) as →
      Always (track fd) (fun p => p.2.Kept) (s, ⟨s.output fd, 0, 0⟩) as := by
  intro h
  have happ : Along (track 10) (fun p a => AppendsOnly 10 p.1 a)
      (appending, ⟨appending.output 10, 0, 0⟩) lostRun := by
    refine along_of_forall fun a ha p value task st key st' hw => ?_
    subst hw
    simp [lostRun] at ha
  have hrun : (exec (track 10) (appending, ⟨appending.output 10, 0, 0⟩) lostRun).map
      (fun p => (p.2.written, p.2.removed)) = some (4, 8) := by decide +kernel
  obtain ⟨t, hexec, ht⟩ := Option.map_eq_some_iff.1 hrun
  have hkept := (h appending 10 lostRun rfl (by simp [appending, replying])
    (happ.and (by decide +kernel))).exec hexec
  simp only [Prod.mk.injEq] at ht
  rw [Flow.Kept, ht.1, ht.2] at hkept
  omega

end Server

end LittleLearning.Db
