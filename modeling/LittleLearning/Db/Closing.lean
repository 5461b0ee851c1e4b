import LittleLearning.Db.Connections

/-!
# Who closes an fd

`processInput`, `reply` and `reReply` close an fd by its number. `Ledger` keeps
how often each fd was closed since it was accepted, and the closes made for a
connection other than the one open under the number: `reply` acts for the
connections whose notifications are in the value it reads, `reReply` for those
whose handler made the write event pending. There is none of either in the runs
in which the two handlers return at once or act for the connection open now.
-/

namespace LittleLearning.Db

open Cxx Transition

namespace Server

/-- The fd the step passes to `close`. -/
def closing (s : Server) : Act → Option Int
  | .input fd data =>
    match s.clients fd with
    | none => some fd
    | some client =>
      match client.processInput data with
      | .ok (none, client) => if client.isExited then some fd else none
      | _ => none
  | .io _ =>
    match s.io with
    | .check value =>
      match s.clients (int32 value) with
      | none => some (int32 value)
      | some client => if client.isExited then some (int32 value) else none
    | .settle fd .error | .reSettle fd .error | .reSettle fd (.wrote 0) => some fd
    | _ => none
  | _ => none

/-- The fd whose write event the handler makes pending. -/
def pending (s : Server) : Option Int :=
  match s.io with
  | .settle fd .again | .reSettle fd .again => some fd
  | .settle fd (.wrote n) => if n = (s.output fd).length then none else some fd
  | .rePend fd => if s.output fd = [] then none else some fd
  | _ => none

/-- The connection whose task the worker writes to `notifyFd`. -/
def notifying (s : Server) : Option ConnId :=
  match s.worker with
  | .notify task =>
    if s.notifyFd.counter + task.fd.toNat ≤ 2 ^ 64 - 2 then some task.conn else none
  | _ => none

/-- The connections are all the one open under `fd`. -/
def Current (s : Server) (fd : Int) (conns : List ConnId) : Prop :=
  ∃ conn, s.conns fd = some conn ∧ ∀ c ∈ conns, c = conn

instance (s : Server) (fd : Int) (conns : List ConnId) : Decidable (s.Current fd conns) :=
  match h : s.conns fd with
  | none => .isFalse fun ⟨_, hc, _⟩ => by rw [h] at hc; cases hc
  | some conn => decidable_of_iff (∀ c ∈ conns, c = conn)
      ⟨fun hall => ⟨conn, h, hall⟩, fun ⟨_, hc, hall⟩ => Option.some.inj (h.symm.trans hc) ▸ hall⟩

end Server

structure Ledger where
  /-- The connections whose tasks were written to `notifyFd` since it was last read. -/
  notified : List ConnId
  /-- The connections `reply` or `reReply` is at work for. -/
  serving : List ConnId
  /-- The connections the write event of an fd is for. -/
  writing : Int → List ConnId
  /-- How often the fd was closed since an accept last returned it. -/
  closes : Int → Nat
  /-- The fds closed for a connection that is not the one open under them. -/
  astray : List Int

namespace Ledger

def empty : Ledger := ⟨[], [], fun _ => [], fun _ => 0, []⟩

/-- Whom the handler of the step is at work for. -/
def behalf (s : Server) (a : Act) (l : Ledger) : List ConnId :=
  match a with
  | .input fd _ => (s.conns fd).toList
  | _ => l.serving

def close (s : Server) (a : Act) (l : Ledger) : Ledger :=
  match s.closing a with
  | none => l
  | some fd =>
    { l with
      closes := Function.update l.closes fd (l.closes fd + 1)
      astray := if s.Current fd (l.behalf s a) then l.astray else l.astray ++ [fd] }

def next (s : Server) (a : Act) (l : Ledger) : Ledger :=
  let l := l.close s a
  match a with
  | .accept fd _ => { l with closes := Function.update l.closes fd 0 }
  | .input _ _ => l
  | .notified => { l with serving := l.notified, notified := [] }
  | .writable fd => { l with serving := l.writing fd }
  | .io _ =>
    match s.pending with
    | some fd => { l with writing := Function.update l.writing fd l.serving }
    | none => l
  | .worker _ _ => { l with notified := l.notified ++ s.notifying.toList }

theorem close_eq (s : Server) (a : Act) (l : Ledger) :
    l.close s a = { l with closes := (l.close s a).closes, astray := (l.close s a).astray } := by
  unfold close
  cases s.closing a <;> rfl

theorem next_serving (s : Server) (a : Act) (l : Ledger) :
    (l.next s a).serving = match a with
      | .notified => l.notified
      | .writable fd => l.writing fd
      | _ => l.serving := by
  unfold next
  rw [close_eq]
  cases a with
  | io st => cases s.pending <;> rfl
  | _ => rfl

/-- Only a close counts, and an accept begins to count anew. -/
theorem next_closes (s : Server) (a : Act) (l : Ledger)
    (ha : ∀ fd garbage, a ≠ .accept fd garbage) : (l.next s a).closes = (l.close s a).closes := by
  unfold next
  cases a with
  | accept fd garbage => exact absurd rfl (ha fd garbage)
  | io st => cases s.pending <;> rfl
  | _ => rfl

theorem next_astray (s : Server) (a : Act) (l : Ledger) :
    (l.next s a).astray = (l.close s a).astray := by
  unfold next
  cases a with
  | io st => cases s.pending <;> rfl
  | _ => rfl

end Ledger

namespace Server

/-- The server, with the ledger of its closes. -/
def account (p : Server × Ledger) (a : Act) : Option (Server × Ledger) :=
  (p.1.step a).map (·, p.2.next p.1 a)

/-- No fd is closed a second time before it is accepted again, and none for a connection that is not
the one open under it. -/
def ClosedOnce (p : Server × Ledger) : Prop := (∀ fd, p.2.closes fd ≤ 1) ∧ p.2.astray = []

/-- `reply`, with the value it has read, and `reReply` return at once or are at work for the
connection open under their fd. -/
def AtWork (p : Server × Ledger) : Act → Prop
  | .io _ => ∀ value, p.1.io = .check value →
      (∃ c, p.1.clients (int32 value) = some c ∧ c.output = [] ∧ c.isExited = false) ∨
        p.1.Current (int32 value) p.2.serving
  | .writable fd => p.1.output fd = [] ∨ p.1.Current fd (p.2.writing fd)
  | _ => True

variable {s s' : Server} {a : Act} {l : Ledger}

/-! ### What a step does to the connections -/

theorem Closes.closing {fd : Int} {c : Client OutByte} (h : Closes s a fd c) :
    s.closing a = some fd := by
  cases h with
  | input fd data conn c c' _ _ hcl hp hx => simp [Server.closing, hcl, hp, hx]
  | check st value c hio hcl hx => simp [Server.closing, hio, hcl, hx]
  | settle st fd c hio _ => simp [Server.closing, hio]
  | reSettle st fd r c hio hr _ => rcases hr with rfl | rfl <;> simp [Server.closing, hio]

/-- A step that accepts nothing leaves the connections as they are, or closes one and sends no
further. -/
theorem Move.closing (h : Move s a s') (ha : ∀ fd garbage, a ≠ .accept fd garbage) :
    (s.closing a = none ∧ s'.conns = s.conns) ∨
      ∃ fd, s.closing a = some fd ∧ s'.conns = Function.update s.conns fd none ∧
        s'.io.target = none := by
  cases h with
  | acceptNew fd garbage | acceptOld fd garbage => exact absurd rfl (ha fd garbage)
  | closes a fd c hcloses => exact .inr ⟨fd, hcloses.closing, rfl, rfl⟩
  | inputNull fd data conn hio _ hcl =>
    exact .inr ⟨fd, by simp [Server.closing, hcl], rfl, by simp [close, hio, Io.target]⟩
  | checkNull st value hio hcl =>
    exact .inr ⟨int32 value, by simp [Server.closing, hio, hcl], rfl, rfl⟩
  | settleNull st fd r hio _ =>
    refine .inr ⟨fd, ?_, rfl, rfl⟩
    rcases hio with hio | ⟨hio, rfl | rfl⟩ <;> simp [Server.closing, hio]
  | inputTask fd data conn c c' cmd _ _ hcl hp =>
    exact .inl ⟨by simp [Server.closing, hcl, hp], rfl⟩
  | inputWait fd data conn c c' _ _ hcl hp hx =>
    exact .inl ⟨by simp [Server.closing, hcl, hp, hx], rfl⟩
  | inputCrash fd data conn c e _ _ hcl hp =>
    exact .inl ⟨by simp [Server.closing, hcl, hp], rfl⟩
  | checkQuiet st value c hio hcl _ hx | checkFlush st value c hio hcl _ hx =>
    exact .inl ⟨by simp [Server.closing, hio, hcl, hx], rfl⟩
  | wrote fd conn n next hio | notWritten fd st next hio =>
    refine .inl ⟨?_, rfl⟩
    rcases hio with ⟨hio, -⟩ | ⟨hio, -⟩ <;> simp [Server.closing, hio]
  | pend st r fd hio =>
    refine .inl ⟨?_, rfl⟩
    rcases hio with ⟨hio, hne, -⟩ | ⟨hio, rfl⟩ | ⟨hio, -⟩
    · cases r with
      | error => exact absurd rfl hne
      | _ => simp [Server.closing, hio]
    · simp [Server.closing, hio]
    · simp [Server.closing, hio]
  | erase st fd n hio hn =>
    obtain ⟨m, rfl⟩ : ∃ m, n = m + 1 := ⟨n - 1, by omega⟩
    exact .inl ⟨by simp [Server.closing, hio], by simp [goto]⟩
  | enqueue st task hio | settleAll st fd hio | clear st fd hio | rePendNone st fd hio =>
    exact .inl ⟨by simp [Server.closing, hio], by simp [goto]⟩
  | execGet | finish => exact .inl ⟨rfl, by simp [work]⟩
  | _ => exact .inl ⟨rfl, rfl⟩

/-- `processInput` closes the fd it was called for, `reply` the one it has read, and both `reply`
and `reReply` the one they were sending to. -/
inductive ClosedBy (s : Server) (fd : Int) : Act → Prop where
  | input (data : Bytes) : ClosedBy s fd (.input fd data)
  | check (st : WriteResult) (value : Nat) : s.io = .check value → int32 value = fd →
      (∀ c, s.clients fd = some c → c.isExited = true) → ClosedBy s fd (.io st)
  | failed (st : WriteResult) : s.io.target = some fd → ClosedBy s fd (.io st)

theorem closedBy {fd : Int} (h : s.closing a = some fd) : ClosedBy s fd a := by
  cases a with
  | input fd' data =>
    have hfd : fd' = fd := by
      simp only [Server.closing] at h
      cases hcl : s.clients fd' with
      | none =>
        rw [hcl] at h
        exact Option.some.inj h
      | some c =>
        simp only [hcl] at h
        split at h
        · split at h
          · exact Option.some.inj h
          · cases h
        · cases h
    subst hfd
    exact .input data
  | io st =>
    simp only [Server.closing] at h
    cases hio : s.io with
    | check value =>
      simp only [hio] at h
      cases hcl : s.clients (int32 value) with
      | none =>
        simp only [hcl, Option.some.injEq] at h
        exact .check st value hio h fun c hc => by simp [← h, hcl] at hc
      | some c =>
        simp only [hcl, Option.ite_none_right_eq_some, Option.some.injEq] at h
        refine .check st value hio h.2 fun d hd => ?_
        rw [← h.2, hcl, Option.some.injEq] at hd
        exact hd ▸ h.1
    | settle fd' r =>
      cases r with
      | error =>
        simp only [hio, Option.some.injEq] at h
        exact .failed st (by rw [hio, ← h]; rfl)
      | _ => simp [hio] at h
    | reSettle fd' r =>
      cases r with
      | error =>
        simp only [hio, Option.some.injEq] at h
        exact .failed st (by rw [hio, ← h]; rfl)
      | again => simp [hio] at h
      | wrote n =>
        cases n with
        | zero =>
          simp only [hio, Option.some.injEq] at h
          exact .failed st (by rw [hio, ← h]; rfl)
        | succ n => simp [hio] at h
    | _ => simp [hio] at h
  | _ => cases h

/-! ### Closing for the connection open now -/

/-- A handler that is sending is at work for the connection open under its fd, and an open fd was
not closed since it was accepted. -/
structure Accountable (s : Server) (l : Ledger) : Prop where
  serving : ∀ fd, s.io.target = some fd → s.Current fd l.serving
  isOpen : ∀ fd conn, s.conns fd = some conn → l.closes fd = 0
  once : ∀ fd, l.closes fd ≤ 1
  astray : l.astray = []

theorem accountable_init : Accountable .init .empty where
  serving _ h := by cases h
  isOpen _ _ h := by cases h
  once _ := Nat.zero_le _
  astray := rfl

theorem Current.congr {fd : Int} {conns : List ConnId} (h : s.Current fd conns)
    (hc : s'.conns fd = s.conns fd) : s'.Current fd conns := by
  obtain ⟨conn, hconn, hall⟩ := h
  exact ⟨conn, hc.trans hconn, hall⟩

/-- What is closed is closed for the connection open there. -/
theorem Accountable.behalf (h : Accountable s l) (hwork : AtWork (s, l) a) (hs : s.step a = some s')
    {fd : Int} (hfd : s.closing a = some fd) : s.Current fd (l.behalf s a) := by
  cases closedBy hfd with
  | input data =>
    cases hc : s.conns fd with
    | none =>
      unfold Server.step at hs
      simp [hc] at hs
    | some conn => exact ⟨conn, hc, by simp [Ledger.behalf, hc]⟩
  | check st value hio he hx =>
    subst he
    rcases hwork value hio with ⟨c, hcl, -, hnot⟩ | hcur
    · rw [hx c hcl] at hnot
      cases hnot
    · exact hcur
  | failed st ht => exact h.serving fd ht

/-- Sending begins for the connection open there. -/
theorem Begins.current {fd : Int} (h : Begins s a fd) (hwork : AtWork (s, l) a) :
    s.Current fd (l.next s a).serving := by
  rw [Ledger.next_serving]
  cases h with
  | reply st value c hio hcl hne hnot =>
    rcases hwork value hio with ⟨d, hd, hnil, -⟩ | hcur
    · rw [hcl, Option.some.injEq] at hd
      exact absurd (hd ▸ hnil) hne
    · exact hcur
  | reReply fd c hio hev hcl hne =>
    rcases hwork with hnil | hcur
    · exact absurd (by simpa [Server.output, hcl] using hnil) hne
    · exact hcur

/-- A handler that is sending when the step begins goes on for the same connections. -/
theorem serving_of_target {fd : Int} (ht : s.io.target = some fd) (hs : s.step a = some s') :
    (l.next s a).serving = l.serving := by
  rw [Ledger.next_serving]
  cases step_cases hs with
  | notified hio | writable _ _ _ hio | writableNull _ hio =>
    rw [hio] at ht
    cases ht
  | closes _ _ _ hcloses => cases hcloses <;> rfl
  | _ => rfl

theorem Accountable.accept (h : Accountable s l) {fd : Int} {garbage : Bool}
    (hs : s.step (.accept fd garbage) = some s') :
    Accountable s' (l.next s (.accept fd garbage)) := by
  have hm := step_cases hs
  refine ⟨fun fd' ht => ?_, fun fd' conn hc => ?_, fun fd' => ?_, h.astray⟩
  · rcases hm.target ht with ht | hbegins
    · have hidle : s.io = .idle := by
        cases hm with
        | acceptNew _ _ hio | acceptOld _ _ _ hio => exact hio
        | closes _ _ _ hcloses => cases hcloses
      rw [hidle] at ht
      cases ht
    · cases hbegins
  · by_cases he : fd' = fd
    · subst he
      exact Function.update_self ..
    · apply (Function.update_of_ne he ..).trans
      rcases hm.conns hc with hold | ⟨-, g, ha⟩
      · exact h.isOpen fd' conn hold
      · exact absurd (Act.accept.inj ha).1.symm he
  · show Function.update l.closes fd 0 fd' ≤ 1
    by_cases he : fd' = fd
    · subst he
      rw [Function.update_self]
      exact Nat.zero_le 1
    · rw [Function.update_of_ne he]
      exact h.once fd'

theorem Accountable.step (h : Accountable s l) (hwork : AtWork (s, l) a)
    (hs : s.step a = some s') : Accountable s' (l.next s a) := by
  by_cases ha : ∃ fd garbage, a = .accept fd garbage
  · obtain ⟨fd, garbage, rfl⟩ := ha
    exact h.accept hs
  have ha' : ∀ fd garbage, a ≠ .accept fd garbage := fun fd garbage he => ha ⟨fd, garbage, he⟩
  have hm := step_cases hs
  have hcloses := Ledger.next_closes s a l ha'
  have hastray := Ledger.next_astray s a l
  have hserving : ∀ fd, s'.io.target = some fd → s.Current fd (l.next s a).serving := by
    intro fd ht
    rcases hm.target ht with ht | hbegins
    · rw [serving_of_target ht hs]
      exact h.serving fd ht
    · exact hbegins.current hwork
  rcases hm.closing ha' with ⟨hnone, hconns⟩ | ⟨fd, hsome, hconns, hidle⟩
  · rw [Ledger.close, hnone] at hcloses hastray
    refine ⟨fun fd ht => (hserving fd ht).congr (by rw [hconns]), fun fd conn hc => ?_,
      fun fd => ?_, ?_⟩
    · rw [hcloses]
      exact h.isOpen fd conn (hconns ▸ hc)
    · rw [hcloses]
      exact h.once fd
    · rw [hastray]
      exact h.astray
  · have hcur := h.behalf hwork hs hsome
    rw [Ledger.close, hsome] at hcloses hastray
    refine ⟨fun fd' ht => ?_, fun fd' conn hc => ?_, fun fd' => ?_, ?_⟩
    · rw [hidle] at ht
      cases ht
    · rw [hconns] at hc
      have he : fd' ≠ fd := by
        rintro rfl
        rw [Function.update_self] at hc
        cases hc
      rw [Function.update_of_ne he] at hc
      rw [hcloses]
      exact (Function.update_of_ne he ..).trans (h.isOpen fd' conn hc)
    · rw [hcloses]
      show Function.update l.closes fd (l.closes fd + 1) fd' ≤ 1
      by_cases he : fd' = fd
      · subst he
        obtain ⟨conn, hc, -⟩ := hcur
        rw [Function.update_self, h.isOpen fd' conn hc]
      · rw [Function.update_of_ne he]
        exact h.once fd'
    · rw [hastray]
      exact (if_pos hcur).trans h.astray

/-! ### Closing for another -/

theorem account_eq_some {p' : Server × Ledger} :
    account (s, l) a = some p' ↔ s.step a = some p'.1 ∧ p'.2 = l.next s a := by
  obtain ⟨t, m⟩ := p'
  simp only [account, Option.map_eq_some_iff, Prod.mk.injEq]
  constructor
  · rintro ⟨u, hu, rfl, rfl⟩
    exact ⟨hu, rfl⟩
  · rintro ⟨hu, rfl⟩
    exact ⟨t, hu, rfl, rfl⟩

theorem not_closedOnce {fd : Int} (hfd : s.closing a = some fd)
    (hcur : ¬ s.Current fd (l.behalf s a)) : ¬ ClosedOnce (s', l.next s a) := by
  intro h
  have hastray := h.2
  simp only [Ledger.next_astray, Ledger.close, hfd, if_neg hcur] at hastray
  exact List.append_ne_nil_of_right_ne_nil _ (List.cons_ne_nil _ _) hastray

theorem writeOutput_error (fd : Int) (next : Io) :
    s.writeOutput fd .error next = some (s.goto next) := by
  unfold writeOutput
  cases s.conns fd <;> rfl

/-- The `write` of a handler at work for another connection fails. -/
theorem write_fails {fd : Int} (hup : s.down = none) (hio : s.io = .flush fd ∨ s.io = .reFlush fd)
    (hcur : ¬ s.Current fd l.serving) :
    ∃ q, exec account (s, l) [.io .error, .io .error] = some q ∧ ¬ ClosedOnce q := by
  have hsettle : ∃ io, s.step (.io .error) = some (s.goto io) ∧
      (io = .settle fd .error ∨ io = .reSettle fd .error) := by
    rcases hio with hio | hio
    · exact ⟨.settle fd .error, by simp [Server.step, hup, ioStep, hio, writeOutput_error],
        .inl rfl⟩
    · exact ⟨.reSettle fd .error, by simp [Server.step, hup, ioStep, hio, writeOutput_error],
        .inr rfl⟩
  obtain ⟨io, hs, hnext⟩ := hsettle
  have hclose : (s.goto io).step (.io .error) = some (((s.goto io).close fd).goto .idle) := by
    rcases hnext with rfl | rfl <;>
      simp [Server.step, hup, ioStep, goto, Server.settle, Server.reSettle]
  have hfd : (s.goto io).closing (.io .error) = some fd := by
    rcases hnext with rfl | rfl <;> rfl
  refine ⟨(_, _), exec_cons_eq_some.2 ⟨(_, _), account_eq_some.2 ⟨hs, rfl⟩,
    exec_cons_eq_some.2 ⟨(_, _), account_eq_some.2 ⟨hclose, rfl⟩, rfl⟩⟩, ?_⟩
  refine not_closedOnce hfd fun h => hcur ?_
  have hserving : (l.next s (.io .error)).serving = l.serving := Ledger.next_serving ..
  show s.Current fd l.serving
  rw [← hserving]
  exact h.congr rfl

/-- A handler that has something to do for another connection closes the fd, if its `write` fails
where it comes to that. -/
theorem closed_astray {p' : Server × Ledger} (hs : account (s, l) a = some p')
    (hwork : ¬ AtWork (s, l) a) :
    ∃ as q, (∀ b ∈ as, b = .io .error) ∧ exec account p' as = some q ∧ ¬ ClosedOnce q := by
  obtain ⟨t, m⟩ := p'
  obtain ⟨hs, rfl⟩ := account_eq_some.1 hs
  have hup := down_eq_none hs
  have herror : ∀ b ∈ [Act.io .error, .io .error], b = .io .error := by simp
  cases a with
  | io st =>
    simp only [AtWork, not_forall, not_or] at hwork
    obtain ⟨value, hio, hquiet, hcur⟩ := hwork
    simp only [Server.step, hup, ioStep, hio, Option.isSome_none, Bool.false_eq_true, if_false,
      Option.some.injEq] at hs
    cases hcl : s.clients (int32 value) with
    | none =>
      exact ⟨[], _, by simp, rfl, not_closedOnce (by simp [Server.closing, hio, hcl]) hcur⟩
    | some c =>
      by_cases hx : c.isExited = true
      · exact ⟨[], _, by simp, rfl, not_closedOnce (by simp [Server.closing, hio, hcl, hx]) hcur⟩
      have hx' : c.isExited = false := by simpa using hx
      have hne : c.output ≠ [] := fun hnil => hquiet ⟨c, hcl, hnil, hx'⟩
      obtain rfl : s.goto (.flush (int32 value)) = t := by
        simpa [Server.check, hcl, hx', hne] using hs
      have hserving : (l.next s (.io st)).serving = l.serving := Ledger.next_serving ..
      obtain ⟨q, hq, hbad⟩ := write_fails (s := s.goto (.flush (int32 value)))
        (l := l.next s (.io st)) hup (.inl rfl) fun h => hcur (hserving ▸ h.congr rfl)
      exact ⟨_, q, herror, hq, hbad⟩
  | writable fd =>
    simp only [AtWork, not_or] at hwork
    obtain ⟨hne, hcur⟩ := hwork
    cases step_cases hs with
    | writableNull _ _ _ hcl => exact absurd (by simp [Server.output, hcl]) hne
    | writable _ c io hio hev _ hcl hnext =>
      have hout : c.output ≠ [] := by simpa [Server.output, hcl] using hne
      rw [if_neg hout] at hnext
      have hserving : (l.next s (.writable fd)).serving = l.writing fd := Ledger.next_serving ..
      obtain ⟨q, hq, hbad⟩ := write_fails
        (s := { s with evWrite := Function.update s.evWrite fd false, io := io })
        (l := l.next s (.writable fd)) hup (.inr hnext) fun h => hcur (hserving ▸ h.congr rfl)
      exact ⟨_, q, herror, hq, hbad⟩
    | closes _ _ _ hcloses => cases hcloses
  | _ => exact absurd trivial hwork

/-- In every run in which `reply` and `reReply` return at once or are at work for the connection
open under their fd, each fd is closed once at most before it is accepted again, and for the
connection open under it; where one of the two has something to do for another connection, a failing
`write` makes it close the fd. -/
theorem closed_once (as : List Act) :
    (Along account AtWork (.init, .empty) as → Always account ClosedOnce (.init, .empty) as) ∧
    ∀ p a p', exec account (.init, .empty) as = some p → account p a = some p' → ¬ AtWork p a →
      ∃ bs q, (∀ b ∈ bs, b = .io .error) ∧ exec account p' bs = some q ∧ ¬ ClosedOnce q := by
  refine ⟨fun h => ?_, fun _ _ _ _ hs hwork => closed_astray hs hwork⟩
  refine always_of_along (I := fun p => Accountable p.1 p.2) (fun p h => ⟨h.once, h.astray⟩)
    (fun p a p' h hwork hs => ?_) accountable_init h
  obtain ⟨hs, hl⟩ := account_eq_some.1 hs
  rw [hl]
  exact h.step hwork hs

/-- The request of `hangupRun` is answered, and `reply` finds its client exited. -/
def lateReply : List Act := List.replicate 6 (.worker true []) ++ [.notified, .io .again]

/-- The fd is closed a second time; where it was accepted again before, the second close is of the
new connection. -/
theorem not_closed_once :
    (¬ ∀ as, Always account (fun p => ∀ fd, p.2.closes fd ≤ 1) (.init, .empty) as) ∧
      ¬ ∀ as, Always account (fun p => p.2.astray = []) (.init, .empty) as := by
  have htwice : (exec account (.init, .empty) (hangupRun ++ lateReply)).map
      (fun p => p.2.closes 10) = some 2 := by decide +kernel
  have hother : (exec account (.init, .empty) (hangupRun ++ .accept 10 false :: lateReply)).map
      (fun p => p.2.astray) = some [10] := by decide +kernel
  constructor
  · intro h
    obtain ⟨p, hp, hcloses⟩ := Option.map_eq_some_iff.1 htwice
    have hone := (h _).exec hp 10
    omega
  · intro h
    obtain ⟨p, hp, hastray⟩ := Option.map_eq_some_iff.1 hother
    have hnil := (h _).exec hp
    rw [hastray] at hnil
    cases hnil

end Server

end LittleLearning.Db
