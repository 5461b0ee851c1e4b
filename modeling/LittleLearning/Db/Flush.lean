import LittleLearning.Db.Outputs

/-!
# Sending a client's output

`reply` writes the output of a client and clears it when all of it was written;
`reReply` goes on when the socket is writable again and takes out what it wrote.
Between the write and that the bytes are both on the connection and in the
buffer (`inHand`). After a partial write `reply` takes nothing out: the bytes
are counted once exactly in the transfers that do not begin with one.
-/

namespace LittleLearning.Db

open Cxx Transition

namespace Server

variable {s s' s₀ : Server} {a : Act} {fd : Int} {conn : ConnId}

/-! ### A transfer -/

/-- A count from one on, or `EAGAIN`. -/
def Outcome (st : WriteResult) : Prop := st = .again ∨ ∃ n, 0 < n ∧ st = .wrote n

/-- The steps of the handlers and the write events of one client. -/
inductive Transfer (fd : Int) : Act → Prop where
  | io (st : WriteResult) : Outcome st → Transfer fd (.io st)
  | writable : Transfer fd (.writable fd)

/-- Between two handlers, what was put on the connection since `s₀` and what is in the output make
the output of `s₀`. -/
def Conserved (s₀ : Server) (fd : Int) (conn : ConnId) (s : Server) : Prop :=
  s.io = .idle → ∃ sent, s.wire = s₀.wire ++ sent.map (conn, ·) ∧
    sent ++ s.output fd = s₀.output fd

/-- A write of `reply` that writes anything writes all there is. -/
def WholeReply (s : Server) (a : Act) : Prop :=
  ∀ fd n, s.io = .flush fd → a = .io (.wrote n) → n = (s.output fd).length

/-- The handlers are at work for `fd`, on outcomes as above. -/
inductive Flushing (fd : Int) : Io → Prop where
  | idle : Flushing fd .idle
  | check (value : Nat) : int32 value = fd → Flushing fd (.check value)
  | flush : Flushing fd (.flush fd)
  | settle (st : WriteResult) : Outcome st → Flushing fd (.settle fd st)
  | clear : Flushing fd (.clear fd)
  | reFlush : Flushing fd (.reFlush fd)
  | reSettle (st : WriteResult) : Outcome st → Flushing fd (.reSettle fd st)
  | rePend : Flushing fd (.rePend fd)

/-- How many bytes of the output were written and not yet taken out. -/
def inHand (s : Server) (fd : Int) : Nat :=
  match s.io with
  | .settle _ (.wrote n) | .reSettle _ (.wrote n) => n
  | .clear _ => (s.output fd).length
  | _ => 0

/-- A client that is not exited, its connection and what has come of its output so far. -/
structure Transferring (s₀ : Server) (fd : Int) (conn : ConnId) (s : Server) : Prop where
  client : ∃ c, s.clients fd = some c ∧ c.isExited = false
  opened : s.conns fd = some conn
  io : Flushing fd s.io
  bytes : ∃ sent, s.wire = s₀.wire ++ (sent ++ (s.output fd).take (s.inHand fd)).map (conn, ·) ∧
    sent ++ s.output fd = s₀.output fd
  whole : ∀ n, s.io = .settle fd (.wrote n) → n = (s.output fd).length

/-- A step to a place where nothing is in hand, from one where nothing was. -/
theorem Transferring.goto (h : Transferring s₀ fd conn s) {ev : Int → Bool} {io : Io}
    (hhand : s.inHand fd = 0) (hio : Flushing fd io) (hhand' : ∀ n, io ≠ .settle fd (.wrote n))
    (hzero : (s.goto io).inHand fd = 0) :
    Transferring s₀ fd conn { s with evWrite := ev, io := io } := by
  refine ⟨h.client, h.opened, hio, ?_, fun n hn => absurd hn (hhand' n)⟩
  obtain ⟨sent, hwire, hsent⟩ := h.bytes
  refine ⟨sent, ?_, hsent⟩
  rw [hhand] at hwire
  have : inHand { s with evWrite := ev, io := io } fd = 0 := hzero
  rw [this]
  exact hwire

/-- With nothing in hand the bytes are counted once. -/
theorem Transferring.conserved (h : Transferring s₀ fd conn s) (hhand : s.inHand fd = 0) :
    ∃ sent, s.wire = s₀.wire ++ sent.map (conn, ·) ∧ sent ++ s.output fd = s₀.output fd := by
  obtain ⟨sent, hwire, hsent⟩ := h.bytes
  exact ⟨sent, by simpa [hhand] using hwire, hsent⟩

/-- What is in hand taken out of the output. -/
theorem Transferring.takeOut (h : Transferring s₀ fd conn s) {io : Io} (hio : Flushing fd io)
    (hno : ∀ n, io ≠ .settle fd (.wrote n)) {n : Nat} (hn : s.inHand fd = n)
    (hzero : (((s.setOutput fd ((s.output fd).drop n))).goto io).inHand fd = 0) :
    Transferring s₀ fd conn ((s.setOutput fd ((s.output fd).drop n)).goto io) := by
  obtain ⟨c, hcl, hx⟩ := h.client
  have hout : ((s.setOutput fd ((s.output fd).drop n)).goto io).output fd = (s.output fd).drop n :=
    output_setOutput (by simp [hcl])
  obtain ⟨sent, hwire, hsent⟩ := h.bytes
  refine ⟨⟨{ c with output := (s.output fd).drop n }, ?_, hx⟩, ?_, hio, ?_, fun m hm => ?_⟩
  · simp [Server.goto, setOutput, hcl, setClient]
  · simpa [Server.goto] using h.opened
  · refine ⟨sent ++ (s.output fd).take n, ?_, ?_⟩
    · rw [hzero, List.take_zero, List.append_nil, ← hn, ← hwire]
      simp [Server.goto]
    · rw [hout, List.append_assoc, List.take_append_drop, hsent]
  · exact absurd hm (hno m)

/-- A write puts what is then in hand on the connection. -/
theorem Transferring.wrote (h : Transferring s₀ fd conn s) (hhand : s.inHand fd = 0) {n : Nat}
    {io : Io} (hio : Flushing fd io) (hn : (s.goto io).inHand fd = n)
    (hwhole : ∀ m, io = .settle fd (.wrote m) → m = (s.output fd).length) :
    Transferring s₀ fd conn
      { s with wire := s.wire ++ ((s.output fd).take n).map (conn, ·), io := io } := by
  obtain ⟨sent, hwire, hsent⟩ := h.conserved hhand
  refine ⟨h.client, h.opened, hio, ⟨sent, ?_, hsent⟩, hwhole⟩
  show s.wire ++ ((s.output fd).take n).map (conn, ·) = s₀.wire ++
    (sent ++ (s.output fd).take ((s.goto io).inHand fd)).map (conn, ·)
  rw [hwire, hn, List.map_append, List.append_assoc]

/-! ### The handlers -/

theorem step_io {st : WriteResult} (hs : s.step (.io st) = some s') : s.ioStep st = some s' := by
  unfold Server.step at hs
  split at hs
  · cases hs
  · exact hs

theorem step_writable (hs : s.step (.writable fd) = some s') :
    s.io = .idle ∧ s' = s.reReply fd := by
  unfold Server.step at hs
  split at hs
  · cases hs
  · simp only [Option.ite_none_right_eq_some, Option.some.injEq] at hs
    exact ⟨hs.1.1, hs.2.symm⟩

theorem Transferring.check (h : Transferring s₀ fd conn s) {value : Nat}
    (hio : s.io = .check value) (hv : int32 value = fd) :
    Transferring s₀ fd conn (s.check value) := by
  obtain ⟨c, hcl, hx⟩ := h.client
  have hhand : s.inHand fd = 0 := by simp [inHand, hio]
  unfold Server.check
  by_cases ho : c.output = []
  · simp only [hv, hcl, hx, ho, and_self, if_true]
    exact h.goto hhand .idle (by simp) rfl
  · simp only [hv, hcl, hx, ho, false_and, if_false, Bool.false_eq_true]
    exact h.goto hhand .flush (by simp) rfl

/-- Both handlers write the output and go on with the result. -/
theorem Transferring.write (h : Transferring s₀ fd conn s) {st : WriteResult} {next : Io}
    (hhand : s.inHand fd = 0) (hnext : next = .settle fd st ∨ next = .reSettle fd st)
    (hst : Outcome st) (hwhole : ∀ n, next = .settle fd (.wrote n) → n = (s.output fd).length)
    (hs : s.writeOutput fd st next = some s') : Transferring s₀ fd conn s' := by
  have hflush : Flushing fd next := by
    rcases hnext with rfl | rfl
    · exact .settle st hst
    · exact .reSettle st hst
  unfold writeOutput at hs
  simp only [h.opened] at hs
  rcases hst with rfl | ⟨n, -, rfl⟩
  · obtain rfl := Option.some.inj hs
    refine h.goto hhand hflush (fun n hn => ?_) ?_ <;> rcases hnext with rfl | rfl
    · cases hn
    · cases hn
    · rfl
    · rfl
  · simp only [Option.ite_none_right_eq_some, Option.some.injEq] at hs
    obtain ⟨-, rfl⟩ := hs
    refine h.wrote hhand hflush ?_ hwhole
    rcases hnext with rfl | rfl <;> rfl

theorem Transferring.settle (h : Transferring s₀ fd conn s) {st : WriteResult}
    (hio : s.io = .settle fd st) (hst : Outcome st) :
    Transferring s₀ fd conn (s.settle fd st) := by
  unfold Server.settle
  rcases hst with rfl | ⟨n, -, rfl⟩
  · exact h.goto (by simp [inHand, hio]) .idle (by simp) rfl
  · obtain rfl := h.whole n hio
    simp only [if_true]
    obtain ⟨sent, hwire, hsent⟩ := h.bytes
    have hhand : s.inHand fd = (s.output fd).length := by simp [inHand, hio]
    rw [hhand] at hwire
    exact ⟨h.client, h.opened, .clear, ⟨sent, hwire, hsent⟩, by simp [Server.goto]⟩

theorem Transferring.reSettle (h : Transferring s₀ fd conn s) {st : WriteResult}
    (hio : s.io = .reSettle fd st) (hst : Outcome st) :
    Transferring s₀ fd conn (s.reSettle fd st) := by
  unfold Server.reSettle
  rcases hst with rfl | ⟨n, hn, rfl⟩
  · exact h.goto (by simp [inHand, hio]) .idle (by simp) rfl
  · simp only [hn, if_true]
    exact h.takeOut .rePend (by simp) (by simp [inHand, hio]) rfl

theorem Transferring.reReply (h : Transferring s₀ fd conn s) (hio : s.io = .idle) :
    Transferring s₀ fd conn (s.reReply fd) := by
  obtain ⟨c, hcl, -⟩ := h.client
  have hhand : s.inHand fd = 0 := by simp [inHand, hio]
  unfold Server.reReply
  by_cases ho : c.output = []
  · simp only [hcl, ho, if_true]
    have hidle := @Transferring.goto s s₀ fd conn h (Function.update s.evWrite fd false) .idle hhand
      .idle (by simp) rfl
    rwa [← hio] at hidle
  · simp only [hcl, ho, if_false]
    exact h.goto hhand .reFlush (by simp) rfl

theorem Transferring.step (h : Transferring s₀ fd conn s) (ha : Transfer fd a)
    (hwhole : WholeReply s a) (hs : s.step a = some s') : Transferring s₀ fd conn s' := by
  have hflushing := h.io
  cases ha with
  | writable =>
    obtain ⟨hio, rfl⟩ := step_writable hs
    exact h.reReply hio
  | io st hst =>
    have hs := step_io hs
    unfold ioStep at hs
    generalize hio : s.io = io at hflushing hs
    cases hflushing with
    | idle => cases hs
    | check value hv =>
      obtain rfl := Option.some.inj hs
      exact h.check hio hv
    | flush =>
      refine h.write (by simp [inHand, hio]) (.inl rfl) hst (fun n hn => ?_) hs
      cases hn
      exact hwhole fd n hio rfl
    | settle st' hst' =>
      obtain rfl := Option.some.inj hs
      exact h.settle hio hst'
    | clear =>
      obtain rfl := Option.some.inj hs
      have hout := h.takeOut .idle (by simp) (n := (s.output fd).length) (by simp [inHand, hio]) rfl
      rwa [List.drop_length] at hout
    | reFlush => exact h.write (by simp [inHand, hio]) (.inr rfl) hst (by simp) hs
    | reSettle st' hst' =>
      obtain rfl := Option.some.inj hs
      exact h.reSettle hio hst'
    | rePend =>
      obtain rfl := Option.some.inj hs
      have hhand : s.inHand fd = 0 := by simp [inHand, hio]
      split
      · exact h.goto hhand .idle (by simp) rfl
      · exact h.goto hhand .idle (by simp) rfl

/-! ### When the bytes are counted once -/

theorem flush_wrote {n : Nat} (hio : s.io = .flush fd) (hopen : s.conns fd = some conn)
    (hs : s.step (.io (.wrote n)) = some s') : n ≤ (s.output fd).length ∧
      s'.down.isSome = false ∧ s'.io = .settle fd (.wrote n) ∧ s'.output fd = s.output fd ∧
      s'.wire = s.wire ++ ((s.output fd).take n).map (conn, ·) := by
  unfold step at hs
  split at hs
  · cases hs
  · rename_i hd
    simp only [ioStep, hio, writeOutput, hopen, Option.ite_none_right_eq_some,
      Option.some.injEq] at hs
    obtain ⟨hle, rfl⟩ := hs
    exact ⟨hle, by simpa using hd, rfl, rfl, rfl⟩

/-- `reply` leaves a partial write in the output. -/
theorem settle_partial {n : Nat} (hio : s.io = .settle fd (.wrote n)) (hd : s.down.isSome = false)
    (hne : n ≠ (s.output fd).length) (ha : Transfer fd a) (hs : s.step a = some s') :
    s' = (s.pendReply fd).goto .idle := by
  unfold step at hs
  rw [hd] at hs
  cases ha with
  | writable => simp [hio] at hs
  | io st _ => simpa [ioStep, hio, settle, hne, eq_comm] using hs

/-- A transfer that has its bytes counted once whenever no handler is at work has had no partial
write in `reply`. -/
theorem Transferring.wholeReply (h : Transferring s₀ fd conn s) {as : List Act} {t : Server}
    (ha : Transfer fd a) (has : ∀ b ∈ as, Transfer fd b) (hs : s.step a = some s')
    (hrun : exec Server.step s' as = some t) (hend : t.io = .idle)
    (hcons : Always Server.step (Conserved s₀ fd conn) s' as) : WholeReply s a := by
  rintro fd' n hio rfl
  obtain rfl : fd' = fd := by
    have := h.io
    rw [hio] at this
    cases this
    rfl
  by_contra hne
  have hn : 0 < n := by
    cases ha with
    | io _ hout =>
      rcases hout with hout | ⟨m, hm, hout⟩ <;> cases hout
      exact hm
  obtain ⟨hle, hd, hio', hout, hput⟩ := flush_wrote hio h.opened hs
  cases as with
  | nil =>
    cases hrun
    rw [hio'] at hend
    cases hend
  | cons b as =>
    obtain ⟨u, hu, hrun⟩ := exec_cons_eq_some.1 hrun
    obtain rfl := settle_partial hio' hd (hout ▸ hne) (has b (by simp)) hu
    obtain ⟨sent, hwire, hsent⟩ := h.conserved (by simp [inHand, hio])
    obtain ⟨sent', hwire', hsent'⟩ := (hcons.2 _ hu).head rfl
    -- the bytes written are on the connection and still in the output
    have hwire'' : s'.wire = s₀.wire ++ sent'.map (conn, ·) := hwire'
    have hsent'' : sent' ++ s'.output fd' = s₀.output fd' := hsent'
    rw [hput] at hwire''
    rw [hout] at hsent''
    have h1 := congrArg List.length hwire''
    have h2 := congrArg List.length (hsent.trans hsent''.symm)
    simp only [hwire, List.length_append, List.length_map, List.length_take] at h1 h2
    omega

theorem Transferring.run {as : List Act} {t : Server} (h : Transferring s₀ fd conn s)
    (has : ∀ a ∈ as, Transfer fd a) (hrun : exec Server.step s as = some t) (hend : t.io = .idle) :
    Always Server.step (Conserved s₀ fd conn) s as ↔ Along Server.step WholeReply s as := by
  induction as generalizing s with
  | nil =>
    refine ⟨fun _ => trivial, fun _ hidle => h.conserved ?_⟩
    simp [inHand, hidle]
  | cons a as ih =>
    obtain ⟨u, hu, hrun⟩ := exec_cons_eq_some.1 hrun
    have ha := has a (by simp)
    have has' : ∀ b ∈ as, Transfer fd b := fun b hb => has b (by simp [hb])
    constructor
    · intro hcons
      have hw := h.wholeReply ha has' hu hrun hend (hcons.2 u hu)
      refine ⟨hw, fun s' hs => ?_⟩
      obtain rfl : s' = u := Option.some.inj (hs.symm.trans hu)
      exact (ih (h.step ha hw hu) has' hrun).1 (hcons.2 s' hs)
    · intro hw
      refine ⟨fun hidle => h.conserved (by simp [inHand, hidle]), fun s' hs => ?_⟩
      obtain rfl : s' = u := Option.some.inj (hs.symm.trans hu)
      exact (ih (h.step ha hw.1 hu) has' hrun).2 (hw.2 s' hs)

/-- From `reply` with a value for `fd` on, through any outcomes and write events up to the end of
a handler: after every handler the bytes on the connection and those in the output make the output
there was if and only if `reply` did not write a part of it. -/
theorem bytes_conserved_iff {value : Nat} {c : Client OutByte} {as : List Act} {t : Server}
    (hio : s₀.io = .check value) (hfd : int32 value = fd) (hcl : s₀.clients fd = some c)
    (hx : c.isExited = false) (hopen : s₀.conns fd = some conn) (has : ∀ a ∈ as, Transfer fd a)
    (hrun : exec step s₀ as = some t) (hend : t.io = .idle) :
    Always step (Conserved s₀ fd conn) s₀ as ↔ Along step WholeReply s₀ as := by
  refine Transferring.run ⟨⟨c, hcl, hx⟩, hopen, ?_, ⟨[], ?_, rfl⟩, by simp [hio]⟩ has hrun hend
  · rw [hio]
    exact .check value hfd
  · simp [inHand, hio]

/-- `reply` has read 10, the fd of a client with the answer to one task in its output. -/
def replying : Server := { init with
  clients := Function.update init.clients 10
    (some { (Client.new 10 : Client OutByte) with output := (answer true).map (·, 0) })
  conns := Function.update init.conns 10 (some 0)
  nextConn := 1
  io := .check 10 }

/-- Nothing of it is written by `reply`; then `reReply` writes one byte, nothing, and the rest. -/
def partialRun : List Act :=
  [.io .again, .io .again, .io .again, .writable 10, .io (.wrote 1), .io .again, .io .again,
    .writable 10, .io .again, .io .again, .writable 10, .io (.wrote 3), .io .again, .io .again]

theorem bytes_conserved_iff_partial :
    Always step (Conserved replying 10 0) replying partialRun ↔
      Along step WholeReply replying partialRun := by
  have hend : ((exec step replying partialRun).map fun s => (s.io, s.wire.length, s.output 10)) =
      some (.idle, 4, []) := by decide
  obtain ⟨t, hrun, ht⟩ := Option.map_eq_some_iff.1 hend
  have hagain : Transfer 10 (.io .again) := .io _ (.inl rfl)
  have hwrote : ∀ n, 0 < n → Transfer 10 (.io (.wrote n)) := fun n hn => .io _ (.inr ⟨n, hn, rfl⟩)
  have has : ∀ a ∈ partialRun, Transfer 10 a := by
    simp [partialRun, hagain, hwrote, Transfer.writable]
  exact bytes_conserved_iff (show replying.io = .check 10 from rfl) (by decide) rfl rfl rfl has hrun
    (Prod.mk.inj ht).1

/-- The first of four bytes is written, and the four are still in the output. -/
theorem not_bytes_conserved :
    ¬ ∀ (s₀ : Server) (value : Nat) (c : Client OutByte) (conn : ConnId) (as : List Act),
      s₀.io = .check value → s₀.clients (int32 value) = some c → c.isExited = false →
      s₀.conns (int32 value) = some conn → (∀ a ∈ as, Transfer (int32 value) a) →
      Always step (Conserved s₀ (int32 value) conn) s₀ as := by
  intro h
  have hrun : (exec step replying (List.replicate 3 (.io (.wrote 1)))).map
      (fun s => (s.io, s.wire.length, (s.output 10).length)) = some (.idle, 1, 4) := by decide
  obtain ⟨t, hexec, ht⟩ := Option.map_eq_some_iff.1 hrun
  have hcons := h replying 10 _ 0 (List.replicate 3 (.io (.wrote 1))) rfl rfl rfl rfl
    fun a ha => List.eq_of_mem_replicate ha ▸ .io _ (.inr ⟨1, by decide, rfl⟩)
  have hio : t.io = .idle ∧ t.wire.length = 1 ∧ (t.output 10).length = 4 := by simpa using ht
  obtain ⟨sent, hwire, hsent⟩ := hcons.exec hexec hio.1
  have h1 := congrArg List.length hwire
  have h2 := congrArg List.length hsent
  rw [List.length_append, List.length_map, hio.2.1] at h1
  rw [List.length_append, show int32 (10 : Nat) = 10 by decide, hio.2.2] at h2
  have h3 : replying.wire.length = 0 := rfl
  have h4 : (replying.output 10).length = 4 := by decide
  omega

end Server

end LittleLearning.Db
