import LittleLearning.Db.Follow

/-!
# Exit after replies

The worker marks a client exited and notifies; `reply` closes an exited client
before it looks at the output. No reply is discarded in the runs in which a get
finds nothing to replace, nothing is appended while `reply` is about to clear, and
the output is flushed when the client is marked: `Settled` is what such a client
keeps. Where the output is not flushed, the notification of the exit itself can
close the connection with the output still there.
-/

namespace LittleLearning.Db

open Cxx Transition

/-- The worker is executing a task of `fd`, and may still write to its output. -/
def Worker.Executes (fd : Int) : Worker → Prop
  | .exec task _ | .finish task _ => task.fd = fd
  | _ => False

/-- The task the worker is about to begin. -/
def Worker.starting : Worker → Option Task
  | .start task => some task
  | _ => none

/-- How much of the output under `fd` `reReply` has written and is about to remove. -/
def Io.erasing (fd : Int) : Io → Nat
  | .reSettle fd' (.wrote n) => if fd' = fd then n else 0
  | _ => 0

/-- Steps of the event loop left in a handler, at most. -/
def Io.left : Io → Nat
  | .idle => 0
  | .enqueue _ | .clear _ | .rePend _ => 1
  | .settle _ _ | .reSettle _ _ => 2
  | .flush _ | .reFlush _ => 3
  | .check _ => 4

namespace Server

variable {s s' : Server} {a : Act} {fd : Int} {c c' : Client OutByte} {f : Flow}

/-- No end-of-file is read from `fd`, and no task of its client is begun once it is exited. -/
def ExitLast (fd : Int) (s : Server) : Act → Prop
  | .input fd' data => fd' = fd → data ≠ []
  | .worker _ _ =>
    ∀ task ∈ s.worker.starting, task.fd = fd → ∀ c ∈ s.clients fd, c.isExited = false
  | _ => True

instance (fd : Int) (s : Server) : DecidablePred (ExitLast fd s)
  | .input fd' data => inferInstanceAs (Decidable (fd' = fd → data ≠ []))
  | .worker _ _ =>
    inferInstanceAs (Decidable (∀ task ∈ s.worker.starting, task.fd = fd → ∀ c ∈ _, _))
  | .accept _ _ | .notified | .writable _ | .io _ => .isTrue trivial

/-- The handler at work is about to remove all of the output, as it has written it. -/
def Emptying (s : Server) (fd : Int) : Prop :=
  s.io = .clear fd ∨ s.io = .settle fd (.wrote (s.output fd).length) ∨
    0 < s.io.erasing fd ∧ (s.output fd).length ≤ s.io.erasing fd

instance (s : Server) (fd : Int) : Decidable (Emptying s fd) :=
  inferInstanceAs (Decidable (_ ∨ _ ∨ _ ∧ _))

/-- There is nothing in the output, or it is about to be removed. -/
def Flushed (s : Server) (fd : Int) : Prop := s.output fd = [] ∨ Emptying s fd

instance (s : Server) (fd : Int) : Decidable (Flushed s fd) := inferInstanceAs (Decidable (_ ∨ _))

/-- Where the client of `fd` is marked exited its output is flushed. -/
def FlushedExit (fd : Int) (s : Server) : Act → Prop
  | .worker _ _ => ∀ task ∈ s.worker.starting, task.fd = fd →
      task.cmd.head? = some (ascii "exit") → Flushed s fd
  | _ => True

instance (fd : Int) (s : Server) : DecidablePred (FlushedExit fd s)
  | .worker _ _ =>
    inferInstanceAs (Decidable (∀ task ∈ s.worker.starting, task.fd = fd → _ → Flushed s fd))
  | .accept _ _ | .input _ _ | .notified | .writable _ | .io _ => .isTrue trivial

/-- Where `reply` is about to close the exited client of `fd`, its output is empty. -/
def ClosesEmpty (fd : Int) (s : Server) : Prop :=
  ∀ value c, s.io = .check value → int32 value = fd → s.clients fd = some c →
    c.isExited = true → c.output = []

/-- Where `reply` is about to close the exited client of `fd`, every byte of its replies was
written, and they are on the wire. -/
def ClosesAnswered (fd : Int) (p : Server × Flow) : Prop :=
  ∀ value c, p.1.io = .check value → int32 value = fd → p.1.clients fd = some c →
    c.isExited = true → c.output = [] ∧ p.2.written = p.2.appended.length ∧
      p.2.appended.Sublist (p.1.wire.map Prod.snd)

/-! ### An exited client -/

/-- What an exited client keeps. -/
structure Settled (fd : Int) (s : Server) : Prop where
  flushed : Exited s fd → Flushed s fd
  worker : Exited s fd → ¬ s.worker.Executes fd

theorem settled_init (fd : Int) : Settled fd init where
  flushed h := by
    obtain ⟨c, hc, -⟩ := h
    cases hc
  worker _ h := h

theorem EmptyHanded.not_emptying {io : Io} (h : EmptyHanded fd io) (hio : s.io = io) :
    ¬ Emptying s fd := by
  have hnone : io.erasing fd = 0 := by
    unfold Io.erasing
    split
    · rename_i fd' n
      exact if_neg fun he => h.reSettle n (by rw [he])
    · rfl
  rintro (hc | hc | ⟨hpos, -⟩)
  · exact h.clear (hio.symm.trans hc)
  · exact h.settle _ (hio.symm.trans hc)
  · rw [hio, hnone] at hpos
    exact Nat.lt_irrefl 0 hpos

theorem Settled.output_eq_nil (h : Settled fd s) (hx : Exited s fd) {value : Nat}
    (hio : s.io = .check value) : s.output fd = [] :=
  (h.flushed hx).resolve_right ((emptyHanded trivial : EmptyHanded fd _).not_emptying hio)

/-- A client is exited since before, by an end-of-file, or by the command. -/
theorem Move.exited_of (h : Move s a s') (hx : Exited s' fd) :
    Exited s fd ∨ a = .input fd [] ∨ ∃ ok value task, a = .worker ok value ∧
      s.worker = .start task ∧ task.fd = fd ∧ task.cmd.head? = some (ascii "exit") ∧
      ¬ s'.worker.Executes fd := by
  have hsame : ∀ {fd' : Int} {d d' : Client OutByte}, s.clients fd' = some d →
      (d'.isExited = true → fd' = fd → d.isExited = true) →
      (∃ c, Function.update s.clients fd' (some d') fd = some c ∧ c.isExited = true) →
      Exited s fd := by
    rintro fd' d d' hd hback ⟨c, hc, hcx⟩
    by_cases he : fd = fd'
    · subst he
      rw [Function.update_self] at hc
      obtain rfl := Option.some.inj hc
      exact ⟨d, hd, hback hcx rfl⟩
    · rw [Function.update_of_ne he] at hc
      exact ⟨c, hc, hcx⟩
  have hread : ∀ {fd' : Int} {data : Bytes} {d d' : Client OutByte} {cmd : Option (List Bytes)},
      s.clients fd' = some d → d.processInput data = .ok (cmd, d') →
      (∃ c, Function.update s.clients fd' (some d') fd = some c ∧ c.isExited = true) →
      Exited s fd ∨ Act.input fd' data = .input fd [] := by
    intro fd' data d d' cmd hd hp hx
    have hflag := (Client.processInput_parsed hp).2
    by_cases heof : fd' = fd ∧ data = []
    · obtain ⟨rfl, rfl⟩ := heof
      exact .inr rfl
    · refine .inl (hsame hd (fun hx' he => ?_) hx)
      have hor : d.isExited = true ∨ data = [] := by simpa [hx'] using hflag.symm
      exact hor.resolve_right fun hd => heof ⟨he, hd⟩
  have hput : ∀ {fd' : Int} {out : List OutByte},
      (∃ c, (s.setOutput fd' out).clients fd = some c ∧ c.isExited = true) → Exited s fd := by
    rintro fd' out ⟨c, hc, hcx⟩
    cases hd : s.clients fd' with
    | none =>
      simp only [setOutput, hd] at hc
      exact ⟨c, hc, hcx⟩
    | some d =>
      simp only [setOutput, hd] at hc
      have hnew : ∃ c, Function.update s.clients fd' (some { d with output := out }) fd = some c ∧
          c.isExited = true := ⟨c, hc, hcx⟩
      refine hsame hd ?_ hnew
      exact fun hx _ => hx
  cases h with
  | acceptNew fd' garbage hio _ _ _ hnone =>
    obtain ⟨c, hc, hcx⟩ := hx
    have hc' : Function.update s.clients fd' (some (.new fd')) fd = some c := hc
    by_cases he : fd = fd'
    · subst he
      rw [Function.update_self] at hc'
      obtain rfl := Option.some.inj hc'
      cases hcx
    · rw [Function.update_of_ne he] at hc'
      exact .inl ⟨c, hc', hcx⟩
  | inputTask fd' data conn c c' cmd hio _ hc hp => exact (hread hc hp hx).imp_right .inl
  | inputWait fd' data conn c c' hio _ hc hp => exact (hread hc hp hx).imp_right .inl
  | closes a fd' c hcloses =>
    cases hcloses with
    | input fd' data conn c c' hio _ hc hp => exact (hread hc hp hx).imp_right .inl
    | check st value c hio hc hcx => exact .inl (hsame hc (fun hx _ => hx) hx)
    | settle st fd' c hio hc => exact .inl (hsame hc (fun hx _ => hx) hx)
    | reSettle st fd' r c hio hr hc => exact .inl (hsame hc (fun hx _ => hx) hx)
  | startExit ok value task c hw hc hexit =>
    by_cases he : task.fd = fd
    · exact .inr (.inr ⟨ok, value, task, rfl, hw, he, hexit, id⟩)
    · exact .inl (hsame hc (fun _ h => absurd h he) hx)
  | clear | erase | execGet | finish => exact .inl (hput hx)
  | _ => exact .inl hx

/-- The worker executes a task of `fd` since before, or begins one. -/
theorem Move.executes (h : Move s a s') (hexec : s'.worker.Executes fd) :
    s.worker.Executes fd ∨
      ∃ ok value task, a = .worker ok value ∧ s.worker = .start task ∧ task.fd = fd := by
  cases h with
  | startExec ok value task w hw => exact .inr ⟨ok, value, task, rfl, hw, hexec⟩
  | execGet _ _ _ _ _ hw | execCall _ _ _ _ _ hw | execEnd _ _ _ _ _ hw =>
    rw [hw]
    exact .inl hexec
  | take | startExit | finish | notify | notifyFull => exact hexec.elim
  | clear | erase => exact .inl (by simpa [goto] using hexec)
  | _ => exact .inl hexec

theorem Flushed.aside (h : Flushed s fd) (hio : s'.io = s.io) (hout : s'.output fd = s.output fd) :
    Flushed s' fd := by
  unfold Flushed Emptying
  rwa [hio, hout]

/-- A step of which no handler is emptying the output of `fd` leaves it flushed where it does. -/
theorem Flushed.quiet (h : Flushed s fd) (hno : ¬ Emptying s fd)
    (hout : s'.output fd = s.output fd) : Flushed s' fd :=
  .inl (hout.trans (h.resolve_right hno))

theorem emptying_settle {fd' : Int} {r : WriteResult} (hio : s.io = .settle fd' r)
    (h : fd ≠ fd' ∨ r ≠ .wrote (s.output fd').length) : ¬ Emptying s fd := by
  rintro (hc | hc | ⟨hpos, -⟩)
  · cases hio.symm.trans hc
  · cases hio.symm.trans hc
    rcases h with h | h <;> exact h rfl
  · rw [hio] at hpos
    cases hpos

theorem emptying_reSettle {fd' : Int} {n : Nat} (hio : s.io = .reSettle fd' (.wrote n))
    (h : fd ≠ fd' ∨ n = 0) : ¬ Emptying s fd := by
  rintro (hc | hc | ⟨hpos, -⟩)
  · cases hio.symm.trans hc
  · cases hio.symm.trans hc
  · rw [hio] at hpos
    simp only [Io.erasing] at hpos
    rcases h with h | rfl
    · rw [if_neg (Ne.symm h)] at hpos
      exact Nat.lt_irrefl 0 hpos
    · simp at hpos

/-- With the worker at no task of `fd`, its output stays flushed. -/
theorem Flushed.step (h : Flushed s fd) (hw : ¬ s.worker.Executes fd) (hs : s.step a = some s') :
    Flushed s' fd := by
  cases (step_cases hs).touch with
  | aside a s' _ _ hout hio =>
    rcases hio with hio | ⟨hio, -⟩
    · exact h.aside hio (hout fd)
    · exact h.quiet ((hio fd).not_emptying rfl) (hout fd)
  | wrote fd' conn n next hnext =>
    have hempty : EmptyHanded fd s.io := by
      rcases hnext with ⟨hio, -⟩ | ⟨hio, -⟩ <;> exact hio ▸ emptyHanded trivial
    exact h.quiet (hempty.not_emptying rfl) rfl
  | dropped st s' fd' n hr _ hout hidle =>
    refine h.quiet ?_ (hout fd)
    rcases hr with ⟨hio, hne⟩ | ⟨hio, hn⟩
    · exact emptying_settle hio (.inr fun he => hne (WriteResult.wrote.inj he))
    · exact emptying_reSettle hio (.inr hn)
  | settleAll st fd' hio =>
    by_cases he : fd = fd'
    · exact .inr (.inl (he ▸ rfl))
    · exact h.quiet (emptying_settle hio (.inl he)) rfl
  | clear st fd' hio =>
    by_cases he : fd = fd'
    · subst he
      have hout := output_setOutput_drop s fd (s.output fd).length
      rw [List.drop_length] at hout
      exact .inl hout
    · refine h.quiet ?_ (output_setOutput_ne he)
      rintro (hc | hc | ⟨hpos, -⟩)
      · cases hio.symm.trans hc
        exact he rfl
      · cases hio.symm.trans hc
      · rw [hio] at hpos
        cases hpos
  | erase st fd' n hio hn =>
    by_cases he : fd = fd'
    · subst he
      refine .inl ((output_setOutput_drop s fd n).trans ?_)
      rcases h with ho | hc | hc | ⟨-, hle⟩
      · rw [ho, List.drop_nil]
      · cases hio.symm.trans hc
      · cases hio.symm.trans hc
      · rw [hio] at hle
        exact List.drop_eq_nil_of_le (by simpa [Io.erasing] using hle)
    · exact h.quiet (emptying_reSettle hio (.inl he)) (output_setOutput_ne he)
  | got value key task st st' hexec =>
    have he : fd ≠ task.fd := fun he => hw (by rw [hexec, he]; rfl)
    exact h.aside (by simp [work]) (output_setOutput_ne he)
  | answer ok good value task hexec =>
    have he : fd ≠ task.fd := fun he => hw (by rw [hexec, he]; rfl)
    exact h.aside (by simp [work]) (output_setOutput_ne he)

theorem Settled.step (h : Settled fd s) (hlast : ExitLast fd s a) (hflush : FlushedExit fd s a)
    (hs : s.step a = some s') : Settled fd s' := by
  have hm := step_cases hs
  -- the client was exited before, or the worker has just marked it
  have hexited : Exited s' fd → Exited s fd ∨ Flushed s fd ∧ ¬ s.worker.Executes fd ∧
      ¬ s'.worker.Executes fd := by
    intro hx
    rcases hm.exited_of hx with hx | rfl | ⟨ok, value, task, rfl, hw, hfd, hexit, hnot⟩
    · exact .inl hx
    · exact absurd rfl (hlast rfl)
    · exact .inr ⟨hflush task (by rw [hw]; rfl) hfd hexit, by rw [hw]; exact id, hnot⟩
  refine ⟨fun hx => ?_, fun hx hexec => ?_⟩
  · rcases hexited hx with hx | ⟨hfl, hnot, -⟩
    · exact (h.flushed hx).step (h.worker hx) hs
    · exact hfl.step hnot hs
  · rcases hexited hx with hx | ⟨-, -, hnot⟩
    · rcases hm.executes hexec with hold | ⟨ok, value, task, rfl, hw, hfd⟩
      · exact h.worker hx hold
      · obtain ⟨c, hc, hcx⟩ := hx
        have hlast' : c.isExited = false := hlast task (by rw [hw]; rfl) hfd c hc
        rw [hcx] at hlast'
        cases hlast'
    · exact hnot hexec

/-! ### Where the output is not flushed -/

/-- The client of `task` was marked exited with something in its output, and the worker is about to
notify. -/
structure Doomed (task : Task) (s : Server) : Prop where
  up : s.down = none
  worker : s.worker = .notify task
  client : ∃ c, s.clients task.fd = some c ∧ c.isExited = true ∧ c.output ≠ []
  emptying : ¬ Emptying s task.fd
  room : ∀ task', s.io = .enqueue task' → s.queue.length < maxTasks

variable {task : Task}

/-- A step within a handler that leaves the client of `task` as it is. -/
theorem Doomed.keep (h : Doomed task s) (hup : s'.down = s.down) (hw : s'.worker = s.worker)
    (hcl : s'.clients task.fd = s.clients task.fd) (hio : EmptyHanded task.fd s'.io)
    (hno : ∀ task', s'.io ≠ .enqueue task') : Doomed task s' := by
  refine ⟨hup.trans h.up, hw.trans h.worker, ?_, hio.not_emptying rfl, fun t ht => ?_⟩
  · rw [hcl]
    exact h.client
  · exact absurd ht (hno t)

/-- A handler at work can go on, with a write that comes to nothing. -/
theorem Doomed.progress (h : Doomed task s) (hio : s.io ≠ .idle) :
    ∃ st s', (∀ n, st ≠ .wrote n) ∧ s.step (.io st) = some s' := by
  have hwrite : ∀ fd (next : WriteResult → Io), ∃ st s', (∀ n, st ≠ .wrote n) ∧
      s.writeOutput fd st (next st) = some s' := by
    intro fd next
    cases hc : s.conns fd with
    | none => exact ⟨.error, s.goto (next .error), by simp, by simp only [writeOutput, hc]⟩
    | some conn => exact ⟨.again, s.goto (next .again), by simp, by simp only [writeOutput, hc]⟩
  have hstep : ∀ st, s.step (.io st) = s.ioStep st := fun st => by simp [Server.step, h.up]
  simp only [hstep, ioStep]
  cases hi : s.io with
  | idle => exact absurd hi hio
  | enqueue task' => exact ⟨.again, _, by simp, if_pos (h.room task' hi)⟩
  | flush fd => exact hwrite fd fun st => .settle fd st
  | reFlush fd => exact hwrite fd fun st => .reSettle fd st
  | _ => exact ⟨.again, _, by simp, rfl⟩

theorem Doomed.io (h : Doomed task s) {st : WriteResult} (hst : ∀ n, st ≠ .wrote n)
    (hs : s.step (.io st) = some s') :
    Doomed task s' ∧ s'.io.left < s.io.left ∧ s'.notifyFd = s.notifyFd := by
  obtain ⟨c, hcl, hx, hne⟩ := h.client
  have hidle : EmptyHanded task.fd .idle := emptyHanded trivial
  cases step_cases hs with
  | closes _ fd' c' hcloses =>
    have hsame : s.clients fd' = some c' ∧ 0 < s.io.left := by
      cases hcloses with
      | check _ value c' hio hc' _ => exact ⟨hc', by simp [hio, Io.left]⟩
      | settle _ fd' c' hio hc' => exact ⟨hc', by simp [hio, Io.left]⟩
      | reSettle _ fd' r c' hio _ hc' => exact ⟨hc', by simp [hio, Io.left]⟩
    rw [setClient_self hsame.1]
    exact ⟨h.keep rfl rfl rfl hidle (by simp [goto]), hsame.2, rfl⟩
  | enqueue _ task' hio hroom =>
    exact ⟨h.keep rfl rfl rfl hidle (by simp), by simp [hio, Io.left], rfl⟩
  | checkNull _ value hio _ | checkQuiet _ value c' hio _ =>
    exact ⟨h.keep rfl rfl rfl hidle (by simp [goto]), by simp [hio, goto, Io.left], rfl⟩
  | checkFlush _ value c' hio _ =>
    exact ⟨h.keep rfl rfl rfl (emptyHanded trivial) (by simp [goto]),
      by simp [hio, goto, Io.left], rfl⟩
  | wrote _ _ n => exact absurd rfl (hst n)
  | notWritten fd' _ next hnext hr =>
    rcases hnext with ⟨hio, rfl⟩ | ⟨hio, rfl⟩ <;> rcases hr with ⟨rfl, -⟩ | rfl <;>
      exact ⟨h.keep rfl rfl rfl (emptyHanded trivial) (by simp [goto]),
        by simp [hio, goto, Io.left], rfl⟩
  | settleAll _ fd' hio =>
    have hfd : fd' ≠ task.fd := fun he => h.emptying (.inr (.inl (he ▸ hio)))
    exact ⟨h.keep rfl rfl rfl ⟨by simp [goto], by simp [goto], by simp [goto, hfd]⟩
      (by simp [goto]), by simp [hio, goto, Io.left], rfl⟩
  | pend _ r fd' hr =>
    refine ⟨h.keep rfl rfl rfl hidle (by simp [goto]), ?_, rfl⟩
    rcases hr with ⟨hio, -⟩ | ⟨hio, -⟩ | ⟨hio, -⟩ <;> simp [hio, goto, Io.left]
  | settleNull _ fd' r hr _ =>
    refine ⟨h.keep rfl rfl rfl hidle (by simp [goto]), ?_, rfl⟩
    rcases hr with hio | ⟨hio, -⟩ <;> simp [hio, goto, Io.left]
  | clear _ fd' hio =>
    have hfd : task.fd ≠ fd' := fun he => h.emptying (.inl (he ▸ hio))
    refine ⟨h.keep ?_ (by simp [goto]) (setOutput_clients_ne hfd) hidle (by simp [goto]),
      by simp [hio, goto, Io.left], by simp [goto]⟩
    rw [setOutput_eq]
    rfl
  | erase _ fd' n hio hn =>
    refine ⟨⟨?_, by simpa [goto] using h.worker, ?_, ?_, by simp [goto]⟩,
      by simp [hio, goto, Io.left], by simp [goto]⟩
    · rw [setOutput_eq]
      exact h.up
    · by_cases hfd : task.fd = fd'
      · subst hfd
        refine ⟨_, setOutput_clients hcl, hx, fun hnil => ?_⟩
        have herasing : s.io.erasing task.fd = n := by simp [hio, Io.erasing]
        exact h.emptying (.inr (.inr (by rw [herasing]; exact ⟨hn, List.drop_eq_nil_iff.1 hnil⟩)))
      · exact ⟨c, (setOutput_clients_ne hfd).trans hcl, hx, hne⟩
    · exact (emptyHanded trivial : EmptyHanded task.fd (.rePend fd')).not_emptying rfl
  | rePendNone _ fd' hio _ =>
    exact ⟨h.keep rfl rfl rfl hidle (by simp [goto]), by simp [hio, goto, Io.left], rfl⟩

/-- The steps of a run are requests of clients that are not exited yet, and so is each of these. -/
theorem Doomed.toIdle (h : Doomed task s) : ∃ as s', exec step s as = some s' ∧
    Along step (ExitLast task.fd) s as ∧ Doomed task s' ∧ s'.io = .idle ∧
      s'.notifyFd = s.notifyFd := by
  generalize hn : s.io.left = n
  induction n using Nat.strong_induction_on generalizing s with
  | _ n ih =>
    by_cases hio : s.io = .idle
    · exact ⟨[], s, rfl, trivial, h, hio, rfl⟩
    · obtain ⟨st, u, hst, hu⟩ := h.progress hio
      obtain ⟨hd, hlt, hfd⟩ := h.io hst hu
      obtain ⟨as, s', hrun, hlast, hd', hidle, hfd'⟩ := ih _ (hn ▸ hlt) hd rfl
      refine ⟨.io st :: as, s', exec_cons_eq_some.2 ⟨u, hu, hrun⟩, .cons ?_ hu hlast, hd', hidle,
        hfd'.trans hfd⟩
      exact trivial

theorem step_notified (hup : s.down = none) (hio : s.io = .idle) (hc : 0 < s.notifyFd.counter) :
    ∃ v, s.step .notified = some v ∧ v.io = .check s.notifyFd.counter ∧
      v.clients = s.clients ∧ v.down = s.down ∧ v.worker = s.worker ∧ v.notifyFd.counter = 0 := by
  refine ⟨{ s with
    io := .check s.notifyFd.counter
    notifyFd := { s.notifyFd with
      counter := 0, pending := []
      values := s.notifyFd.values ++ [(s.notifyFd.counter : Int)] } }, ?_, rfl, rfl, rfl, rfl, rfl⟩
  simp [Server.step, hup, hio, hc]

/-- With nothing else notified, the notification of the exit closes the client. -/
theorem Doomed.closes (h : Doomed task s) (hio : s.io = .idle) (hzero : s.notifyFd.counter = 0)
    (h0 : 0 < task.fd) (h1 : task.fd ≤ intMax) : ∃ as s', exec step s as = some s' ∧
      Along step (ExitLast task.fd) s as ∧ ¬ ClosesEmpty task.fd s' := by
  obtain ⟨c, hcl, hx, hne⟩ := h.client
  simp only [intMax] at h1
  have hnotify : ∃ u, s.step (.worker true []) = some u ∧ u.down = none ∧ u.io = .idle ∧
      u.clients = s.clients ∧ u.worker = .idle ∧ u.notifyFd.counter = task.fd.toNat := by
    refine ⟨s.notify task.fd, by simp [Server.step, h.up, workerStep, h.worker], ?_⟩
    unfold Server.notify
    rw [if_pos (by omega), hzero, Nat.zero_add]
    exact ⟨h.up, hio, rfl, rfl, rfl⟩
  obtain ⟨u, hu, hup, hidle, hclients, hw, hcounter⟩ := hnotify
  obtain ⟨v, hv, hcheck, hsame, -⟩ := step_notified hup hidle (by omega)
  rw [hcounter] at hcheck
  refine ⟨[.worker true [], .notified], v, by simp [hu, hv], ?_, fun hempty => ?_⟩
  · refine .cons (fun t ht => ?_) hu (.cons (by exact trivial) hv trivial)
    rw [h.worker] at ht
    cases ht
  · have hfd : int32 (task.fd.toNat : Int) = task.fd := by
      rw [int32_natCast (by omega)]
      omega
    exact hne (hempty _ c hcheck hfd (by rw [hsame, hclients, hcl]) hx)

/-- A client marked exited with something in its output can be closed with it. -/
theorem Doomed.lost (h : Doomed task s) (h0 : 0 < task.fd) (h1 : task.fd ≤ intMax) :
    ∃ as s', exec step s as = some s' ∧ Along step (ExitLast task.fd) s as ∧
      ¬ ClosesEmpty task.fd s' := by
  obtain ⟨as, u, hu, hlast, hd, hidle, -⟩ := h.toIdle
  have hrest : ∃ bs v, exec step u bs = some v ∧ Along step (ExitLast task.fd) u bs ∧
      Doomed task v ∧ v.io = .idle ∧ v.notifyFd.counter = 0 := by
    by_cases hzero : u.notifyFd.counter = 0
    · exact ⟨[], u, rfl, trivial, hd, hidle, hzero⟩
    · obtain ⟨v, hv, hcheck, hcl, hup, hw, hcounter⟩ := step_notified hd.up hidle (by omega)
      have hdv : Doomed task v := hd.keep hup hw (by rw [hcl])
        (hcheck ▸ emptyHanded trivial) (by simp [hcheck])
      obtain ⟨bs, w, hw, hlastw, hdw, hidlew, hsame⟩ := hdv.toIdle
      refine ⟨.notified :: bs, w, exec_cons_eq_some.2 ⟨v, hv, hw⟩, .cons ?_ hv hlastw, hdw, hidlew,
        hsame ▸ hcounter⟩
      exact trivial
  obtain ⟨bs, v, hv, hlastv, hdv, hidlev, hzero⟩ := hrest
  obtain ⟨cs, t, ht, hlastt, hbad⟩ := hdv.closes hidlev hzero h0 h1
  refine ⟨as ++ (bs ++ cs), t, by simp [exec_append, hu, hv, ht], ?_, hbad⟩
  exact hlast.append hu (hlastv.append hv hlastt)

/-! ### When exit discards nothing -/

theorem clients_range {as : List Act} (hs : exec step init as = some s) :
    ∀ fd, s.clients fd ≠ none → 0 < fd ∧ fd ≤ intMax := by
  refine invariant (I := fun s => ∀ fd, s.clients fd ≠ none → 0 < fd ∧ fd ≤ intMax)
    (fun s a s' h hs fd hfd => ?_) (fun _ h => absurd rfl h) hs
  have hm := step_cases hs
  have hstep := hm.clientStep fd
  generalize hc : s'.clients fd = c' at hstep hfd
  cases hstep with
  | same => exact h fd hfd
  | new garbage ha h0 hnone =>
    subst ha
    cases hm with
    | acceptNew _ _ _ h0 h1 => exact ⟨h0, h1⟩
    | acceptOld _ _ c _ _ _ _ hcl => simp [hnone] at hcl
    | closes _ _ _ hcloses => cases hcloses
  | changed c c' hcl => exact h fd (by simp [hcl])

/-- A client marked exited with its output not flushed is closed with it in some continuation. -/
theorem exit_unflushed_lost {as : List Act} {s s' : Server} (hrun : exec step init as = some s)
    (hs : s.step a = some s') (hbreak : ¬ FlushedExit fd s a)
    (hroom : ∀ task, s.io = .enqueue task → s.queue.length < maxTasks) :
    ∃ bs t, exec step s' bs = some t ∧ Along step (ExitLast fd) s' bs ∧ ¬ ClosesEmpty fd t := by
  obtain ⟨ok, value, task, rfl, hw, rfl, hexit, hbreak⟩ : ∃ ok value task, a = .worker ok value ∧
      s.worker = .start task ∧ task.fd = fd ∧ task.cmd.head? = some (ascii "exit") ∧
      ¬ Flushed s fd := by
    cases a with
    | worker ok value =>
      simp only [FlushedExit, not_forall] at hbreak
      obtain ⟨task, htask, hfd, hexit, hbreak⟩ := hbreak
      refine ⟨ok, value, task, rfl, ?_, hfd, hexit, hbreak⟩
      cases hw : s.worker with
      | start t =>
        rw [hw] at htask
        rw [Option.some.inj htask]
      | _ =>
        rw [hw] at htask
        cases htask
    | _ => exact absurd trivial hbreak
  obtain ⟨hout, hem⟩ := not_or.1 hbreak
  have hup := down_eq_none hs
  cases step_cases hs with
  | startExit _ _ task' c hw' hcl _ =>
    obtain rfl : task' = task := by simpa [hw] using hw'.symm
    have hsame : ((s.setClient task'.fd c.exit).work (.notify task')).output task'.fd =
        s.output task'.fd := output_setClient hcl rfl
    have hne : c.output ≠ [] := by
      rw [Server.output, hcl] at hout
      exact hout
    have hd : Doomed task' ((s.setClient task'.fd c.exit).work (.notify task')) := by
      refine ⟨hup, rfl, ⟨c.exit, Function.update_self .., rfl, hne⟩, ?_, hroom⟩
      unfold Emptying
      rwa [hsame]
    have hrange := clients_range hrun task'.fd (by simp [hcl])
    exact hd.lost hrange.1 hrange.2
  | startCrash _ _ task' e hw' hnull =>
    obtain rfl : task' = task := by simpa [hw] using hw'.symm
    rcases hnull with ⟨hnone, -⟩ | ⟨-, hnil, -⟩
    · simp [Server.output, hnone] at hout
    · simp [hnil] at hexit
  | startExec _ _ task' w hw' _ hcmd hne =>
    obtain rfl : task' = task := by simpa [hw] using hw'.symm
    rw [hcmd] at hexit
    exact absurd (Option.some.inj hexit) hne
  | take _ _ _ _ hw' | execGet _ _ _ _ _ hw' | execCall _ _ _ _ _ hw' | execEnd _ _ _ _ _ hw'
  | execCrash _ _ _ _ hw' | finish _ _ _ _ hw' | notify _ _ _ hw' | notifyFull _ _ _ hw' =>
    simp [hw] at hw'
  | closes _ _ _ hcloses => cases hcloses

/-- What a run of steps that lose nothing keeps. -/
structure Answering (fd : Int) (p : Server × Flow) : Prop where
  known : Known p.1
  settled : Settled fd p.1
  recorded : Recorded fd p.1 p.2

theorem answering_init (fd : Int) : Answering fd (init, ⟨[], 0, 0⟩) :=
  ⟨known_init, settled_init fd, .fresh rfl rfl⟩

theorem Answering.step {p p' : Server × Flow} (h : Answering fd p) (hlast : ExitLast fd p.1 a)
    (hflush : FlushedExit fd p.1 a) (hget : GetsAlone fd p.1 a) (halone : ClearAlone fd p.1 a)
    (hs : follow fd p a = some p') : Answering fd p' := by
  obtain ⟨s', hstep, rfl⟩ := Option.map_eq_some_iff.1 hs
  exact ⟨h.known.step hstep, h.settled.step hlast hflush hstep,
    h.recorded.step h.known hget halone hstep⟩

/-- An empty output was written to the end, as nothing was removed that was not. -/
theorem Answering.closesAnswered {p : Server × Flow} (h : Answering fd p) :
    ClosesAnswered fd p := by
  intro value c hio hfd hcl hx
  have hout := h.settled.output_eq_nil ⟨c, hcl, hx⟩ hio
  have hempty : c.output = [] := by
    rw [Server.output, hcl] at hout
    exact hout
  cases h.recorded with
  | fresh hnone =>
    rw [hcl] at hnone
    cases hnone
  | flowing hf hwire =>
    have hlen := hf.length
    have hkept : p.2.removed ≤ p.2.written := hf.kept
    have hle := hf.written
    rw [hout, List.length_nil] at hlen
    have hall : p.2.written = p.2.appended.length := by omega
    rw [hall, List.take_length] at hwire
    exact ⟨hempty, hall, hwire⟩

/-- In every run in which the exit of the client comes last and finds its output flushed, every get
of it finds nothing to replace and nothing is appended while `reply` is about to clear, no byte of
a reply is removed before it was written, and where `reply` closes the exited client all of them
were. An exit that does not find the output flushed can be followed by a close with it. -/
theorem exit_discards_nothing (fd : Int) (as : List Act) :
    (Along (follow fd) (fun p a => ExitLast fd p.1 a ∧ FlushedExit fd p.1 a ∧
        GetsAlone fd p.1 a ∧ ClearAlone fd p.1 a) (init, ⟨[], 0, 0⟩) as →
      Always (follow fd) (fun p => p.2.Kept ∧ ClosesAnswered fd p) (init, ⟨[], 0, 0⟩) as) ∧
    ∀ s a s', exec step init as = some s → s.step a = some s' → ¬ FlushedExit fd s a →
      (∀ task, s.io = .enqueue task → s.queue.length < maxTasks) →
      ∃ bs t, exec step s' bs = some t ∧ Along step (ExitLast fd) s' bs ∧ ¬ ClosesEmpty fd t :=
  ⟨always_of_along (fun _ h => ⟨h.recorded.kept, h.closesAnswered⟩)
    (fun _ _ _ h hP hs => h.step hP.1 hP.2.1 hP.2.2.1 hP.2.2.2 hs) (answering_init fd),
    fun _ _ _ => exit_unflushed_lost⟩

/-- A set is answered in two writes, a get in one, and then comes the exit. -/
def flushedRun : List Act :=
  [.accept 10 false, .input 10 (ascii "set a b\n"), .io .again] ++
    List.replicate 6 (.worker true []) ++
    [.notified, .io .again, .io (.wrote 2), .io .again, .writable 10, .io (.wrote 4), .io .again,
      .io .again, .input 10 (ascii "get a\n"), .io .again] ++
    List.replicate 6 (.worker true (ascii "b")) ++
    [.notified, .io .again, .io (.wrote 6), .io .again, .io .again, .input 10 (ascii "exit\n"),
      .io .again] ++ List.replicate 3 (.worker true []) ++ [.notified]

/-- Two bytes of the first answer are sent twice. -/
theorem exit_discards_nothing_flushed : ∃ p,
    exec (follow 10) (init, ⟨[], 0, 0⟩) flushedRun = some p ∧ p.1.io = .check 10 ∧
      p.2.appended.length = 10 ∧ p.2.written = 10 ∧ p.1.wire.length = 12 ∧
      p.2.appended.Sublist (p.1.wire.map Prod.snd) := by
  have hrun : (exec (follow 10) (init, ⟨[], 0, 0⟩) flushedRun).map (fun p =>
      (p.1.io, (p.1.clients 10).map (·.isExited), p.2.appended.length, p.1.wire.length)) =
        some (.check 10, some true, 10, 12) := by
    decide +kernel
  obtain ⟨p, hexec, hp⟩ := Option.map_eq_some_iff.1 hrun
  simp only [Prod.mk.injEq, Option.map_eq_some_iff] at hp
  obtain ⟨hio, ⟨c, hc, hx⟩, happ, hwire⟩ := hp
  obtain ⟨-, hanswered⟩ :=
    ((exit_discards_nothing 10 flushedRun).1 (by decide +kernel)).exec hexec
  obtain ⟨-, hwritten, hsub⟩ := hanswered 10 c hio rfl hc hx
  exact ⟨p, hexec, hio, happ, hwritten.trans happ, hwire, hsub⟩

/-- A client sends a request and `exit`. `reply` runs for the answer when the worker has marked the
client exited and not yet notified it. -/
def discardRun : List Act :=
  [.accept 10 false, .input 10 (ascii "set a b\n"), .io .again, .input 10 (ascii "exit\n"),
    .io .again] ++ List.replicate 8 (.worker true []) ++ [.notified]

/-- The answer to the request is in the output when `reply` is about to close the client. -/
theorem not_exit_discards_nothing :
    ¬ ∀ fd as, Along (follow fd) (fun p a => ExitLast fd p.1 a) (init, ⟨[], 0, 0⟩) as →
      Always (follow fd) (ClosesAnswered fd) (init, ⟨[], 0, 0⟩) as := by
  intro h
  have hrun : (exec (follow 10) (init, ⟨[], 0, 0⟩) discardRun).map (fun p =>
      (p.1.io, (p.1.clients 10).map fun c => (c.isExited, c.output.length))) =
        some (.check 10, some (true, 4)) := by
    decide +kernel
  obtain ⟨t, hexec, ht⟩ := Option.map_eq_some_iff.1 hrun
  simp only [Prod.mk.injEq, Option.map_eq_some_iff] at ht
  obtain ⟨hio, c, hc, hx, hlen⟩ := ht
  obtain ⟨hempty, -⟩ := (h 10 discardRun (by decide +kernel)).exec hexec 10 c hio rfl hc hx
  rw [hempty] at hlen
  cases hlen

end Server

end LittleLearning.Db
