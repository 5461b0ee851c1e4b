import LittleLearning.Db.Step

/-!
# Connections and their clients

`freeClient` never erases, so closing a connection leaves its client in
`clients`, and a connection that gets the same fd is served by it. The keys of
`clients` are the open fds, and every accept makes a new client, exactly in the
runs that close no client's connection. What is sent stays with the connection
it is for in the runs where an fd comes back only when its old client has no
output and no answer to come, or cannot write any more.
-/

namespace LittleLearning.Db

open Cxx Transition

/-- The fd a handler of the event loop is sending to. -/
def Io.target : Io → Option Int
  | .flush fd | .settle fd _ | .clear fd | .reFlush fd | .reSettle fd _ | .rePend fd => some fd
  | _ => none

namespace Server

variable {s s' : Server} {a : Act}

/-! ### The keys of `clients` -/

/-- The keys of `clients` are the fds of the open connections. -/
def KeysExact (s : Server) : Prop := ∀ fd, s.clients fd ≠ none ↔ s.conns fd ≠ none

/-- If the step accepts, the connection is served by a new client. -/
def AcceptsFresh (s : Server) (a : Act) : Prop :=
  ∀ fd garbage s', a = .accept fd garbage → s.step a = some s' → s'.clients fd = some (.new fd)

/-- The step does not close the connection of a client. -/
def NoClose (s : Server) (a : Act) : Prop := s.step a ≠ none → ∀ fd c, ¬ Closes s a fd c

theorem Closes.step_eq {fd : Int} {c : Client OutByte} (h : Closes s a fd c)
    (hs : s.step a = some s') : s' = ((s.setClient fd c).close fd).goto .idle := by
  have hd : ¬ s.down.isSome = true := by simp [down_eq_none hs]
  unfold step at hs
  rw [if_neg hd] at hs
  cases h with
  | input fd data conn c c' hio hc hcl hp hx =>
    simp only [hc, Option.ite_none_right_eq_some, Option.some.injEq] at hs
    rw [← hs.2, goto_self (show ((s.setClient fd _).close fd).io = .idle from hio)]
    simp [processInput, hcl, hp, hx]
  | check st value c hio hcl hx =>
    simp only [ioStep, hio, Option.some.injEq] at hs
    rw [← hs, setClient_self hcl]
    simp [Server.check, hcl, hx]
  | settle st fd c hio hcl =>
    simp only [ioStep, hio, Option.some.injEq] at hs
    rw [← hs, setClient_self hcl]
    simp [Server.settle]
  | reSettle st fd r c hio hr hcl =>
    simp only [ioStep, hio, Option.some.injEq] at hs
    rw [← hs, setClient_self hcl]
    rcases hr with rfl | rfl <;> simp [Server.reSettle]

theorem KeysExact.congr (h : KeysExact s) (hcl : ∀ fd, s'.clients fd = none ↔ s.clients fd = none)
    (hconns : s'.conns = s.conns) : KeysExact s' := by
  intro fd
  rw [hconns, ← h fd]
  exact not_congr (hcl fd)

theorem KeysExact.close {fd : Int} (h : KeysExact s) (hcl : s.clients fd = none) :
    KeysExact (s.close fd) := by
  have hconns : (s.close fd).conns = s.conns := by
    have : s.conns fd = none := by
      by_contra hne
      exact (h fd).2 hne hcl
    simp only [Server.close]
    rw [← this, Function.update_eq_self]
  exact h.congr (fun _ => .rfl) hconns

theorem Move.keysExact (hm : Move s a s') (hno : ∀ fd c, ¬ Closes s a fd c) (h : KeysExact s) :
    KeysExact s' := by
  have hnone := fun (ha : ∀ fd garbage, a ≠ .accept fd garbage) fd => hm.clients_eq_none (ha fd)
  cases hm with
  | acceptNew fd garbage _ _ _ _ _ =>
    intro fd'
    by_cases he : fd' = fd
    · subst he
      simp
    · simpa [he] using h fd'
  | acceptOld fd garbage c _ _ _ hc hcl =>
    exact absurd hc ((h fd).1 (by simp [hcl]))
  | inputNull fd data conn _ hc hcl => exact h.close hcl
  | closes a fd c hcloses => exact absurd hcloses (hno fd c)
  | checkNull st value _ hcl => exact (h.close hcl).congr (fun _ => .rfl) rfl
  | settleNull st fd r _ hcl => exact (h.close hcl).congr (fun _ => .rfl) rfl
  | _ => exact h.congr (hnone (by simp)) (by simp [goto, work, setClient, pendReply, crash])

theorem KeysExact.step (h : KeysExact s) (hno : NoClose s a) (hs : s.step a = some s') :
    KeysExact s' :=
  (step_cases hs).keysExact (hno (by simp [hs])) h

theorem KeysExact.acceptsFresh (h : KeysExact s) : AcceptsFresh s a := by
  rintro fd garbage s' rfl hs
  cases step_cases hs with
  | acceptNew => simp
  | acceptOld _ _ c _ _ _ hc hcl => exact absurd hc ((h fd).1 (by simp [hcl]))
  | closes _ _ _ hcloses => cases hcloses

/-- The client of a connection that is closed stays. -/
theorem noClose_of_keysExact (h : ∀ s', s.step a = some s' → KeysExact s') : NoClose s a := by
  intro hstep fd c hcloses
  obtain ⟨s', hs⟩ := Option.ne_none_iff_exists'.1 hstep
  have hkeys := h s' hs fd
  rw [hcloses.step_eq hs] at hkeys
  simp [goto, close, setClient] at hkeys

theorem clients_exact_iff (as : List Act) :
    (Always step KeysExact .init as ∧ Along step AcceptsFresh .init as) ↔
      Along step NoClose .init as := by
  have hinit : KeysExact .init := fun fd => by simp [init]
  constructor
  · rintro ⟨hkeys, -⟩
    exact along_of_always (I := fun _ => True) (fun _ _ _ _ _ => trivial)
      (fun _ _ _ _ h => noClose_of_keysExact h) trivial hkeys
  · intro hno
    exact ⟨always_of_along (fun _ h => h) (fun _ _ _ h hno hs => h.step hno hs) hinit hno,
      hno.imp (fun _ _ h _ => h.acceptsFresh) (fun _ _ _ h hno hs => h.step hno hs) hinit⟩

/-- A client disconnects: its fd stays a key, and whoever gets the fd next is served as exited. -/
theorem client_kept_after_close :
    (¬ ∀ (as : List Act) (s : Server), exec step .init as = some s → KeysExact s) ∧
      ¬ ∀ (as : List Act) (s : Server) (a : Act), exec step .init as = some s →
        AcceptsFresh s a := by
  have hrun : (exec step .init [.accept 10 false, .input 10 []]).map (fun s =>
      ((s.clients 10).isSome, (s.conns 10).isSome,
        (s.step (.accept 10 false)).map fun s' => (s'.clients 10).map (·.isExited))) =
      some (true, false, some (some true)) := by decide
  obtain ⟨s, hs, hobs⟩ := Option.map_eq_some_iff.1 hrun
  simp only [Prod.mk.injEq, Option.map_eq_some_iff] at hobs
  obtain ⟨hkey, hclosed, s', hs', c, hc, hexited⟩ := hobs
  constructor
  · intro h
    exact absurd ((h _ s hs 10).1 (Option.isSome_iff_ne_none.1 hkey)) (by simpa using hclosed)
  · intro h
    rw [h _ s _ hs 10 false s' rfl hs', Option.some.injEq] at hc
    simp [← hc, Client.new] at hexited

/-! ### Answers to come -/

/-- The answer to the task is still to be appended; there is none to `exit`. -/
def Owed (task : Task) : Stage → Prop
  | .waiting => task.cmd.head? ≠ some (ascii "exit")
  | .executing => True
  | .answered => False

theorem Advances.owed {task : Task} {stage stage' : Stage} (h : Advances task stage stage')
    (ho : Owed task stage') : Owed task stage := by
  cases h with
  | execute hne => exact hne
  | exit => exact ho.elim
  | answer => exact ho.elim

/-! ### Who is written to -/

/-- The client under `fd` is exited. -/
def Exited (s : Server) (fd : Int) : Prop := ∃ c, s.clients fd = some c ∧ c.isExited = true

/-- The event loop is sending to `fd`, or will when a write event fires. -/
def Sending (s : Server) (fd : Int) : Prop := s.io.target = some fd ∨ s.evWrite fd = true

/-- The exit flag stays. -/
theorem Move.exited (h : Move s a s') {fd : Int} (hx : Exited s fd) : Exited s' fd := by
  obtain ⟨c, hcl, hcx⟩ := hx
  have hstep := h.clientStep fd
  unfold Exited
  generalize s'.clients fd = c' at hstep
  cases hstep with
  | same => exact ⟨c, hcl, hcx⟩
  | new garbage _ _ hnone =>
    rw [hnone] at hcl
    cases hcl
  | changed d d' hd hkeep =>
    rw [hd, Option.some.injEq] at hcl
    exact ⟨d', rfl, hkeep (hcl ▸ hcx)⟩

/-- The step begins to send output of the client under `fd`. -/
inductive Begins (s : Server) : Act → Int → Prop where
  | reply (st : WriteResult) (value : Nat) (c : Client OutByte) : s.io = .check value →
      s.clients (int32 value) = some c → c.output ≠ [] → c.isExited = false →
      Begins s (.io st) (int32 value)
  | reReply (fd : Int) (c : Client OutByte) : s.io = .idle → s.evWrite fd = true →
      s.clients fd = some c → c.output ≠ [] → Begins s (.writable fd) fd

theorem Move.target (h : Move s a s') {fd : Int} (ht : s'.io.target = some fd) :
    s.io.target = some fd ∨ Begins s a fd := by
  cases h with
  | checkFlush st value c hio hcl hne hnot =>
    obtain rfl : int32 value = fd := by simpa [goto, Io.target] using ht
    exact .inr (.reply st value c hio hcl hne hnot)
  | writable fd' c io hio hev _ hcl hnext =>
    simp only [hnext] at ht
    split at ht
    · cases ht
    · obtain rfl : fd' = fd := Option.some.inj ht
      exact .inr (.reReply fd' c hio hev hcl ‹_›)
  | wrote fd' conn n next hio _ _ =>
    rcases hio with ⟨hio, rfl⟩ | ⟨hio, rfl⟩ <;> exact .inl (by rw [hio]; exact ht)
  | notWritten fd' st next hio _ =>
    rcases hio with ⟨hio, rfl⟩ | ⟨hio, rfl⟩ <;> exact .inl (by rw [hio]; exact ht)
  | settleAll st fd' hio => exact .inl (by rw [hio]; exact ht)
  | erase st fd' n hio _ => exact .inl (by rw [hio]; exact ht)
  | closes | inputTask | enqueue | notified | checkNull | checkQuiet | pend | settleNull
  | rePendNone | clear => cases ht
  | execGet | finish => exact .inl (by simpa [work] using ht)
  | _ => exact .inl ht

theorem Move.evWrite (h : Move s a s') {fd : Int} (hev : s'.evWrite fd = true) :
    s.evWrite fd = true ∨ s.io.target = some fd := by
  cases h with
  | pend st r fd' hio =>
    have htarget : s.io.target = some fd' := by
      rcases hio with ⟨hio, -⟩ | ⟨hio, -⟩ | ⟨hio, -⟩ <;> rw [hio] <;> rfl
    by_cases he : fd = fd'
    · exact .inr (he ▸ htarget)
    · exact .inl (by simpa [goto, pendReply, he] using hev)
  | writable fd' c io hio hev' _ _ hnext =>
    by_cases he : fd = fd'
    · exact .inl (he ▸ hev')
    · exact .inl (by simpa [he] using hev)
  | writableNull fd' hio hev' _ =>
    by_cases he : fd = fd'
    · exact .inl (he ▸ hev')
    · exact .inl (by simpa [crash, he] using hev)
  | clear | erase => exact .inl (by simpa [goto] using hev)
  | execGet | finish => exact .inl (by simpa [work] using hev)
  | _ => exact .inl hev

/-- Sending to `fd` begins for a client that is not exited. -/
theorem Move.sending (h : Move s a s') {fd : Int} (hsnd : Sending s' fd) :
    Sending s fd ∨ ∃ c, s.clients fd = some c ∧ c.isExited = false := by
  rcases hsnd with ht | hev
  · rcases h.target ht with ht | hbegins
    · exact .inl (.inl ht)
    · cases hbegins with
      | reply st value c _ hcl _ hnot => exact .inr ⟨c, hcl, hnot⟩
      | reReply fd c _ hev => exact .inl (.inr hev)
  · exact .inl ((h.evWrite hev).symm)

theorem Move.conns (h : Move s a s') {fd : Int} {conn : ConnId} (hc : s'.conns fd = some conn) :
    s.conns fd = some conn ∨ s.conns fd = none ∧ ∃ garbage, a = .accept fd garbage := by
  have hclose : ∀ fd', (s.close fd').conns fd = some conn → s.conns fd = some conn := by
    intro fd' h
    by_cases he : fd = fd'
    · simp [close, he] at h
    · simpa [close, he] using h
  cases h with
  | acceptNew fd' garbage _ _ _ hnone _ =>
    by_cases he : fd = fd'
    · subst he
      exact .inr ⟨hnone, garbage, rfl⟩
    · exact .inl (by simpa [he] using hc)
  | acceptOld fd' garbage c _ _ _ hnone _ =>
    by_cases he : fd = fd'
    · subst he
      exact .inr ⟨hnone, garbage, rfl⟩
    · exact .inl (by simpa [he] using hc)
  | checkNull st value _ _ => exact .inl (hclose (int32 value) hc)
  | inputNull | closes | settleNull => exact .inl (hclose _ hc)
  | clear | erase | execGet | finish => exact .inl (by simpa [goto, work] using hc)
  | _ => exact .inl hc

/-- What is put on the wire is output of the fd that is being sent to. -/
theorem Move.wire (h : Move s a s') {e : ConnId × OutByte} (he : e ∈ s'.wire) :
    e ∈ s.wire ∨ ∃ fd, Sending s fd ∧ s.conns fd = some e.1 ∧ e.2 ∈ s.output fd := by
  cases h with
  | wrote fd conn n next hio hc _ =>
    rcases List.mem_append.1 he with he | he
    · exact .inl he
    · obtain ⟨b, hb, rfl⟩ := List.mem_map.1 he
      have htarget : s.io.target = some fd := by
        rcases hio with ⟨hio, -⟩ | ⟨hio, -⟩ <;> rw [hio] <;> rfl
      exact .inr ⟨fd, .inl htarget, hc, List.mem_of_mem_take hb⟩
  | clear | erase | execGet | finish => exact .inl (by simpa [goto, work] using he)
  | _ => exact .inl he

/-! ### No null client -/

/-- The step finds no client where it uses one. -/
theorem Move.nullClient (h : Move s a s') (hd : s'.down = some .nullClient) :
    s.down = some .nullClient ∨
      (∃ task, (task, .waiting) ∈ s.tasks ∧ s.clients task.fd = none) ∨
      ∃ fd, s.evWrite fd = true ∧ s.clients fd = none := by
  cases h with
  | startCrash ok value task e hw hnull =>
    rcases hnull with ⟨hnone, -⟩ | ⟨-, -, rfl⟩
    · exact .inr (.inl ⟨task, mem_tasks.2 (.inr (by simp [hw, Worker.tasks])), hnone⟩)
    · cases hd
  | writableNull fd hio hev hcl => exact .inr (.inr ⟨fd, hev, hcl⟩)
  | inputCrash | execCrash => cases hd
  | clear | erase | execGet | finish =>
    rw [setOutput_eq] at hd
    exact .inl hd
  | _ => exact .inl hd

/-- Every fd that a task or a write event carries is a key of `clients`. -/
structure Known (s : Server) : Prop where
  tasks : ∀ task stage, (task, stage) ∈ s.tasks → s.clients task.fd ≠ none
  sending : ∀ fd, Sending s fd → s.clients fd ≠ none
  up : s.down ≠ some .nullClient

theorem known_init : Known .init where
  tasks _ _ h := by cases h
  sending _ h := by rcases h with h | h <;> cases h
  up := nofun

/-- No step takes a key away: `freeClient` erases nothing. -/
theorem Move.clients_ne_none (h : Move s a s') {fd : Int} (hcl : s.clients fd ≠ none) :
    s'.clients fd ≠ none := by
  by_cases ha : ∃ garbage, a = .accept fd garbage
  · obtain ⟨garbage, rfl⟩ := ha
    have hstep := h.clientStep fd
    generalize s'.clients fd = c at hstep
    cases hstep with
    | same => exact hcl
    | new => nofun
    | changed => nofun
  · rw [Ne, h.clients_eq_none fun garbage he => ha ⟨garbage, he⟩]
    exact hcl

theorem Known.step (h : Known s) (hs : s.step a = some s') : Known s' := by
  have hm := step_cases hs
  refine ⟨fun task stage ht => ?_, fun fd hsnd => ?_, fun hd => ?_⟩
  · apply hm.clients_ne_none
    rcases hm.tasks ht with hold | ⟨earlier, hold, -⟩ | ⟨-, -, hcl⟩
    · exact h.tasks task stage hold
    · exact h.tasks task earlier hold
    · exact hcl
  · apply hm.clients_ne_none
    rcases hm.sending hsnd with hold | ⟨c, hcl, -⟩
    · exact h.sending fd hold
    · simp [hcl]
  · rcases hm.nullClient hd with hold | ⟨task, ht, hnone⟩ | ⟨fd, hev, hnone⟩
    · exact h.up hold
    · exact h.tasks task .waiting ht hnone
    · exact h.sending fd (.inr hev) hnone

/-- Whoever closes first, the worker and `reReply` find a client under the fd they hold. -/
theorem no_null_client (as : List Act) (s : Server) (hr : exec step .init as = some s) :
    (∀ task stage, (task, stage) ∈ s.tasks → s.clients task.fd ≠ none) ∧
      (∀ fd, s.evWrite fd = true → s.clients fd ≠ none) ∧ s.down ≠ some .nullClient := by
  have h : Known s := Transition.invariant (fun _ _ _ h hs => h.step hs) known_init hr
  exact ⟨h.tasks, fun fd hev => h.sending fd (.inr hev), h.up⟩

/-- The connection is closed while its request is in the queue. -/
def hangupRun : List Act :=
  [.accept 10 false, .input 10 (ascii "get k\n"), .io .again, .input 10 []]

theorem no_null_client_hangup : ∃ s, exec step .init hangupRun = some s ∧ s.conns 10 = none ∧
    s.queue.map (·.fd) = [10] ∧ s.clients 10 ≠ none := by
  have hrun : (exec step .init hangupRun).map (fun s => (s.conns 10, s.queue)) =
      some (none, [⟨10, [ascii "get", ascii "k"], 0⟩]) := by decide +kernel
  obtain ⟨s, hs, hobs⟩ := Option.map_eq_some_iff.1 hrun
  simp only [Prod.mk.injEq] at hobs
  obtain ⟨hc, hq⟩ := hobs
  refine ⟨s, hs, hc, by rw [hq]; rfl, ?_⟩
  refine (no_null_client hangupRun s hs).1 ⟨10, [ascii "get", ascii "k"], 0⟩ .waiting ?_
  exact mem_tasks.2 (.inl ⟨rfl, .inr (by rw [hq]; exact List.mem_singleton_self _)⟩)

/-! ### Replies stay with their connection -/

/-- Every byte put on a connection was produced by executing one of its tasks. -/
def Isolated (s : Server) : Prop := ∀ e ∈ s.wire, e.2.2 = e.1

/-- Nothing will be written to `fd` before its client is a new one. -/
def Silent (s : Server) (fd : Int) : Prop := Exited s fd ∧ ¬ Sending s fd

/-- No output waits under `fd`, and no answer to a task of `fd` is to come. -/
def Blank (s : Server) (fd : Int) : Prop :=
  s.output fd = [] ∧ ∀ task stage, (task, stage) ∈ s.tasks → Owed task stage → task.fd ≠ fd

/-- If the step accepts, what is left of the fd's last connection cannot be sent. -/
def Quiet (s : Server) (a : Act) : Prop :=
  s.step a ≠ none → ∀ fd garbage, a = .accept fd garbage → Silent s fd ∨ Blank s fd

instance (task : Task) : DecidablePred (Owed task)
  | .waiting => inferInstanceAs (Decidable (_ ≠ _))
  | .executing => .isTrue trivial
  | .answered => .isFalse id

instance (s : Server) (fd : Int) : Decidable (Silent s fd) :=
  decidable_of_iff
    ((s.clients fd).any (·.isExited) = true ∧ ¬ (s.io.target = some fd ∨ s.evWrite fd = true))
    (and_congr_left' (by simp [Exited, Option.any_eq_true]))

instance (s : Server) (fd : Int) : Decidable (Blank s fd) :=
  decidable_of_iff (s.output fd = [] ∧ ∀ p ∈ s.tasks, Owed p.1 p.2 → p.1.fd ≠ fd)
    (and_congr_right' Prod.forall)

instance (s : Server) : DecidablePred (Quiet s)
  | .accept fd garbage =>
    decidable_of_iff ((s.step (.accept fd garbage)).isSome = true → Silent s fd ∨ Blank s fd)
      (by simp [Quiet, Option.isSome_iff_ne_none])
  | .input .. | .notified | .writable _ | .io _ | .worker .. =>
    .isTrue fun _ _ _ he => by cases he

/-- The output under `fd` and the answers to come there are those of `conn`. -/
structure Belongs (s : Server) (fd : Int) (conn : ConnId) : Prop where
  output : ∀ b ∈ s.output fd, b.2 = conn
  tasks : ∀ task stage, (task, stage) ∈ s.tasks → Owed task stage → task.fd = fd → task.conn = conn

theorem Blank.belongs {fd : Int} (h : Blank s fd) (conn : ConnId) : Belongs s fd conn where
  output b hb := by
    rw [h.1] at hb
    cases hb
  tasks task stage ht ho hfd := absurd hfd (h.2 task stage ht ho)

structure Owned (s : Server) : Prop where
  wire : Isolated s
  conns : ∀ fd conn, s.conns fd = some conn → Silent s fd ∨ Belongs s fd conn

theorem Move.silent (h : Move s a s') {fd : Int} (hfd : Silent s fd) : Silent s' fd := by
  refine ⟨h.exited hfd.1, fun hsnd => ?_⟩
  obtain ⟨c, hcl, hx⟩ := hfd.1
  rcases h.sending hsnd with hsnd | ⟨d, hd, hnot⟩
  · exact hfd.2 hsnd
  · rw [hcl, Option.some.injEq] at hd
    rw [hd, hnot] at hx
    cases hx

/-- What comes under `fd` is of the connection open there. -/
theorem Move.belongs (h : Move s a s') {fd : Int} {conn : ConnId} (hb : Belongs s fd conn)
    (hc : ∀ conn', s.conns fd = some conn' → conn' = conn) : Belongs s' fd conn where
  output b hmem := by
    rcases h.output hmem with hold | ⟨task, ht, hfd, hconn⟩
    · exact hb.output b hold
    · exact hconn.trans (hb.tasks task .executing ht trivial hfd)
  tasks task stage ht ho hfd := by
    rcases h.tasks ht with hold | ⟨earlier, hold, hadv⟩ | ⟨-, hconn, -⟩
    · exact hb.tasks task stage hold ho hfd
    · exact hb.tasks task earlier hold (hadv.owed ho) hfd
    · exact hc _ (hfd ▸ hconn)

theorem Owned.step (h : Owned s) (hq : Quiet s a) (hs : s.step a = some s') : Owned s' := by
  have hm := step_cases hs
  refine ⟨fun e he => ?_, fun fd conn hc => ?_⟩
  · rcases hm.wire he with hold | ⟨fd, hsnd, hconn, hmem⟩
    · exact h.wire e hold
    · rcases h.conns fd _ hconn with hsilent | hb
      · exact absurd hsnd hsilent.2
      · exact hb.output e.2 hmem
  · rcases hm.conns hc with hconn | ⟨hnone, garbage, ha⟩
    · refine (h.conns fd conn hconn).imp hm.silent fun hb => hm.belongs hb fun conn' hc' => ?_
      rw [hconn, Option.some.injEq] at hc'
      exact hc'.symm
    · refine (hq (by simp [hs]) fd garbage ha).imp hm.silent fun hb =>
        hm.belongs (hb.belongs conn) fun conn' hc' => ?_
      rw [hnone] at hc'
      cases hc'

theorem owned_init : Owned .init where
  wire e he := by cases he
  conns fd conn hc := by cases hc

theorem replies_isolated (as : List Act) (h : Along step Quiet .init as) :
    Always step Isolated .init as :=
  always_of_along (fun _ h => h.wire) (fun _ _ _ h hq hs => h.step hq hs) owned_init h

/-- A request from `fd`, up to the end of its task. -/
def asking (fd : Int) : List Act :=
  .input fd (ascii "get k\n") :: .io .again :: List.replicate 6 (.worker true (ascii "v"))

/-- Two connections are answered; meanwhile the first is closed, and its fd accepted again for a
third, which asks in vain: its client is the exited one. -/
def answeredRun : List Act :=
  .accept 10 false :: asking 10 ++
    [.notified, .io .again, .io (.wrote 6), .io .again, .io .again, .accept 11 false] ++
    asking 11 ++ [.input 10 [], .accept 10 false, .notified, .io .again, .io (.wrote 6), .io .again,
      .io .again] ++ asking 10 ++ [.notified, .io .again]

theorem replies_isolated_answered : Always step Isolated .init answeredRun ∧
    (exec step .init answeredRun).map (·.wire) =
      some ((ascii "v\nOK!\n").map (fun b => (0, (b, 0))) ++
        (ascii "v\nOK!\n").map fun b => (1, (b, 1))) :=
  ⟨replies_isolated answeredRun (by decide +kernel), by decide +kernel⟩

/-- The answer to one request cannot be sent while the next is on its way to the worker; the
connection is closed, and its fd and the answer go to another one. -/
def lateRun : List Act :=
  [.accept 10 false, .input 10 (ascii "set k s\n"), .io .again] ++
    List.replicate 6 (.worker true []) ++
    [.input 10 (ascii "get k\n"), .io .again, .notified, .io .again, .io .error, .io .again,
      .accept 10 false] ++
    List.replicate 6 (.worker true (ascii "s")) ++ [.notified, .io .again, .io (.wrote 6)]

theorem lateRun_leaks :
    ¬ ∀ (as : List Act) (s : Server), exec step .init as = some s → Isolated s := by
  intro h
  have hrun : (exec step .init lateRun).map (·.wire) =
      some ((ascii "s\nOK!\n").map fun b => (1, (b, 0))) := by decide +kernel
  obtain ⟨s, hs, hwire⟩ := Option.map_eq_some_iff.1 hrun
  have hiso := h lateRun s hs
  unfold Isolated at hiso
  rw [hwire] at hiso
  exact absurd hiso (by decide)

end Server

end LittleLearning.Db
