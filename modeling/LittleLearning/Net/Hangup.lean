import LittleLearning.Net.Delivery

/-!
# What ttcp delivers

A side that has failed an assertion is gone, and the other meets the end of the
stream or a call that fails. `turn` has these next to the calls of `step`. They come
only after a failed assertion and stop the side that meets them, but for `readAll`,
which reads nothing over and over. All other calls are bounded in number.
-/

namespace LittleLearning.Net

open Cxx Transition Transfer Ttcp

def Phase.isAborted : Phase → Bool
  | .aborted _ => true
  | _ => false

/-- The side is at a call of its loop; `l` is the loop. -/
def Opening.inLoop (o : Opening) (l : Loop) : Bool :=
  match o with
  | .done _ => l.phase = .message ∨ l.phase = .ack
  | _ => false

/-- An assertion of the side has failed, or a signal has ended it. -/
def Opening.stopped (o : Opening) (l : Loop) : Bool :=
  match o with
  | .todo => false
  | .done _ => l.phase.isAborted
  | .aborted => true

/-- The connection is closed at this side. -/
def Opening.closed (o : Opening) (l : Loop) : Bool :=
  match o with
  | .todo => false
  | .done _ => l.phase ≠ .message ∧ l.phase ≠ .ack
  | .aborted => true

/-- What comes of the peer being gone. -/
inductive Hangup where
  /-- `read` returns 0 for the session message. -/
  | readSession
  /-- `read` returns 0 in `readAll`. -/
  | readAll
  /-- `read` returns 0 for an acknowledgement. -/
  | readAck
  /-- A call in the loop returns -1, so that an assertion fails, or raises `SIGPIPE`. -/
  | clientFails
  | serverFails
  deriving DecidableEq

/-- A call of a program, or one that meets the peer's end. -/
inductive Turn where
  | call (made : Call)
  | hangup (h : Hangup)
  deriving DecidableEq

def Turn.Whole : Turn → Prop
  | .call made => made.Whole
  | .hangup _ => True

namespace Programs

/-- `read` returns 0 once the peer has closed and all that it has sent is read. -/
def hangup (s : Programs) : Hangup → Option Programs
  | .readSession =>
    if s.server = .todo ∧ s.client.closed s.session.client ∧ s.session.pipe.wire = [] then
      s.openServer 0 []
    else none
  | .readAll =>
    match s.server with
    | .done c =>
      if s.session.server.phase = .message ∧ s.client.closed s.session.client ∧
          s.session.pipe.wire = [] then
        let reader := s.session.pipe.reader.readAll (some [])
        some { s with session := c.read s.session { s.session.pipe with reader := reader } }
      else none
    | _ => none
  | .readAck =>
    match s.client with
    | .done c =>
      if s.session.client.phase = .ack ∧ s.server.closed s.session.server ∧ s.session.acks = [] then
        (c.acked s.session 0).map fun session => { s with session := session }
      else none
    | _ => none
  | .clientFails =>
    if s.client.inLoop s.session.client ∧ s.server.stopped s.session.server then
      some { s with client := .aborted }
    else none
  | .serverFails =>
    if s.server.inLoop s.session.server ∧ s.client.stopped s.session.client then
      some { s with server := .aborted }
    else none

def turn (msgLen msgNum : Nat) (s : Programs) : Turn → Option Programs
  | .call made => s.step msgLen msgNum made
  | .hangup h => s.hangup h

/-- Both sides are gone. -/
structure Over (msgLen msgNum : Nat) (s : Programs) : Prop where
  client : s.client.stopped s.session.client = true
  server : s.server.stopped s.session.server = true
  kept : s.Kept msgLen msgNum

end Programs

variable {msgLen msgNum : Nat} {s s' : Programs} {a : Turn} {h : Hangup} {c : Ttcp} {u : Session}

theorem Opening.stopped_cases {o : Opening} {l : Loop} (h : o.stopped l = true) :
    o = .aborted ∨ (∃ c, o = .done c) ∧ ∃ assertion, l.phase = .aborted assertion := by
  cases o with
  | todo => cases h
  | aborted => exact .inl rfl
  | done c =>
    refine .inr ⟨⟨c, rfl⟩, ?_⟩
    cases hp : l.phase with
    | aborted assertion => exact ⟨assertion, rfl⟩
    | _ => simp [Opening.stopped, Phase.isAborted, hp] at h

/-- A loop that is neither at a call nor over was stopped. -/
theorem Opening.stopped_of_closed {l : Loop} (h : (Opening.done c).closed l = true)
    (hp : l.phase ≠ .finished) : ∃ assertion, l.phase = .aborted assertion := by
  cases hphase : l.phase with
  | aborted assertion => exact ⟨assertion, rfl⟩
  | finished => exact absurd hphase hp
  | _ => simp [Opening.closed, hphase] at h

theorem Programs.not_alive_of_client (h : s.client.stopped s.session.client = true) :
    ¬ s.Alive := by
  rintro ⟨hclient, -, hsession⟩
  obtain hab | ⟨-, assertion, hab⟩ := Opening.stopped_cases h
  · exact hclient hab
  · exact (hsession assertion).1 hab

theorem Programs.not_alive_of_server (h : s.server.stopped s.session.server = true) :
    ¬ s.Alive := by
  rintro ⟨-, hserver, hsession⟩
  obtain hab | ⟨-, assertion, hab⟩ := Opening.stopped_cases h
  · exact hserver hab
  · exact (hsession assertion).2 hab

/-! ### A side that has lost its peer -/

/-- A client whose server is gone and has left it no acknowledgement. -/
theorem Running.server_stopped (h : Running c u) (hlen : 4 ≤ c.message.length)
    (hphase : u.client.phase = .ack) (hacks : u.acks = [])
    (hclosed : (Opening.done c).closed u.server = true) :
    ∃ assertion, u.server.phase = .aborted assertion := by
  refine Opening.stopped_of_closed hclosed fun hover => ?_
  cases h.rounds with
  | same h' => exact h'.serverOn.1 hover
  | ahead h' =>
    have hack := h.acks h'.i hphase
    have hfour : (lengthOf c.message).length = 4 := List.length_take_of_le hlen
    rw [← hack, hacks] at hfour
    cases hfour
  | ended h' => simp [h'.client] at hphase

/-- A server in `readAll` whose client is gone: nothing comes of a `read` of nothing. -/
theorem Running.readAll_nothing (h : Running c u) (hlen : 1 ≤ c.message.length)
    (hphase : u.server.phase = .message) (hclosed : (Opening.done c).closed u.client = true)
    (d : Ttcp) :
    d.read u { u.pipe with reader := u.pipe.reader.readAll (some []) } = u ∧
      ∃ assertion, u.client.phase = .aborted assertion := by
  have hkeep : ∀ t : Transfer, t.status = none → 0 < t.totalLen → t.readAll (some []) = t := by
    intro t hstatus hpos
    simp [Transfer.readAll, Transfer.put, Transfer.advance, hpos, ← hstatus]
  have hread : u.pipe.reader.status = none → 0 < u.pipe.reader.totalLen →
      d.read u { u.pipe with reader := u.pipe.reader.readAll (some []) } = u := by
    intro hstatus hpos
    rw [hkeep _ hstatus hpos]
    simp [Ttcp.read, hstatus]
  cases h.rounds with
  | same h' =>
    obtain ⟨buf, hbuf, hbetween⟩ := h'.between
    have hstatus := h'.server.1 hphase
    have hlt := hbetween.reader.status_none.1 hstatus
    have hsum := hbetween.reader.sum
    exact ⟨hread hstatus (by omega), Opening.stopped_of_closed hclosed h'.clientOn.1⟩
  | ahead h' =>
    have hreader := h'.reader hphase
    refine ⟨hread (by rw [hreader]; rfl) ?_, Opening.stopped_of_closed hclosed h'.clientOn.1⟩
    rw [hreader]
    exact hlen
  | ended h' => simp [h'.server] at hphase

namespace Programs

/-- How far the programs have come, be it that both sides are gone. -/
def Runs (msgLen msgNum : Nat) (s : Programs) : Prop :=
  Follows msgLen msgNum s ∨ s.Over msgLen msgNum

/-- A hangup that is no `read` of nothing by `readAll` leaves less to do. -/
structure Loses (msgLen msgNum : Nat) (s : Programs) (h : Hangup) (s' : Programs) : Prop where
  ne : h ≠ .readAll
  left : s'.left msgLen msgNum < s.left msgLen msgNum
  before : ¬ s.Alive
  after : ¬ s'.Alive
  runs : s'.Runs msgLen msgNum

theorem Over.runs (h : s.Over msgLen msgNum) : s.Runs msgLen msgNum ∧ ¬ s.Alive :=
  ⟨.inr h, not_alive_of_client h.client⟩

/-- At a call of its loop a side has something to do. -/
theorem left_of_inLoop {o : Opening} {l : Loop} (number len : Nat) (t : Transfer)
    (h : o.inLoop l = true) : 0 < o.left number len l t := by
  cases o with
  | done c =>
    simp only [Opening.inLoop, decide_eq_true_eq] at h
    obtain hp | hp := h <;>
    · simp only [Opening.left, Loop.left, hp]
      omega
  | _ => cases h

theorem clientFails_loses (hk : s.Kept msgLen msgNum) (hs : s.hangup .clientFails = some s') :
    Loses msgLen msgNum s .clientFails s' := by
  simp only [hangup, Option.ite_none_right_eq_some, Option.some.injEq] at hs
  obtain ⟨⟨hloop, hstop⟩, rfl⟩ := hs
  have hover : Over msgLen msgNum { s with client := .aborted } :=
    ⟨rfl, hstop, hk.received, hk.length, hk.server⟩
  refine ⟨nofun, ?_, not_alive_of_server hstop, hover.runs.2, hover.runs.1⟩
  have hpos := left_of_inLoop msgNum (4 + msgLen) s.session.pipe.writer hloop
  simp only [left, Opening.left]
  exact Nat.add_lt_add_right hpos _

theorem serverFails_loses (hk : s.Kept msgLen msgNum) (hs : s.hangup .serverFails = some s') :
    Loses msgLen msgNum s .serverFails s' := by
  simp only [hangup, Option.ite_none_right_eq_some, Option.some.injEq] at hs
  obtain ⟨⟨hloop, hstop⟩, rfl⟩ := hs
  have hover : Over msgLen msgNum { s with server := .aborted } :=
    ⟨hstop, rfl, hk.received, hk.length, fun d hd => by cases hd⟩
  refine ⟨nofun, ?_, not_alive_of_client hstop, hover.runs.2, hover.runs.1⟩
  have hpos := left_of_inLoop msgNum (4 + msgLen) s.session.pipe.reader hloop
  simp only [left, Opening.left]
  exact Nat.add_lt_add_left hpos _

end Programs

open Programs

/-- The server finds the end of the stream where the session message should be. -/
theorem Follows.readSession_loses (h : Follows msgLen msgNum s)
    (hs : s.hangup .readSession = some s') : Loses msgLen msgNum s .readSession s' := by
  simp only [hangup, Option.ite_none_right_eq_some] at hs
  obtain ⟨⟨htodo, hclosed, hempty⟩, hs⟩ := hs
  rw [Programs.openServer_short [] (by decide), Option.some.injEq] at hs
  subst hs
  cases h with
  | start h =>
    subst h
    cases hclosed
  | cut client server wire received =>
    have hstop : s.client.stopped s.session.client = true := by rw [client]; rfl
    refine ⟨nofun, ?_, not_alive_of_client hstop, fun halive => halive.2.1 rfl, .inl (.cut client
      (.inr rfl) ?_ received)⟩
    · simp only [Programs.left, Opening.left, htodo]
      omega
    · simp only [List.drop_zero]
      exact wire
  | sent client rest waits server session =>
    obtain ⟨-, hwire⟩ := server.resolve_right fun hab => by simp [htodo] at hab
    rw [hwire] at hempty
    cases hempty
  | opened client block buf server hblock hbuf session => simp [htodo] at server

theorem Follows.readAll_same (h : Follows msgLen msgNum s) (hs : s.hangup .readAll = some s') :
    s' = s ∧ ¬ s.Alive := by
  simp only [hangup] at hs
  cases h with
  | start h =>
    subst h
    cases hs
  | cut client server wire received =>
    obtain hserver | hserver := server <;>
    · rw [hserver] at hs
      cases hs
  | sent client rest waits server session =>
    obtain ⟨hserver, -⟩ | hserver := server <;>
    · rw [hserver] at hs
      cases hs
  | opened client block buf server hblock hbuf session =>
    rw [server] at hs
    simp only [Option.ite_none_right_eq_some, Option.some.injEq] at hs
    obtain ⟨⟨hphase, hclosed, -⟩, rfl⟩ := hs
    rw [client] at hclosed
    obtain ⟨hsame, assertion, hab⟩ := (running_of_reachable hbuf session).readAll_nothing
      (by rw [agreed_length]; omega) hphase hclosed ⟨block, msgLen, msgNum⟩
    rw [hsame, ← server]
    exact ⟨rfl, fun halive => (halive.2.2 assertion).1 hab⟩

theorem Follows.readAck_loses (h : Follows msgLen msgNum s) (hs : s.hangup .readAck = some s') :
    Loses msgLen msgNum s .readAck s' := by
  simp only [hangup] at hs
  have hk := h.kept
  cases hclient : s.client with
  | todo | aborted =>
    rw [hclient] at hs
    cases hs
  | done c =>
    rw [hclient] at hs
    simp only [Option.ite_none_right_eq_some, Option.map_eq_some_iff] at hs
    obtain ⟨⟨hphase, hclosed, hacks⟩, u, hu, rfl⟩ := hs
    have hstop : s.server.stopped s.session.server = true := by
      cases h with
      | start h =>
        subst h
        cases hclient
      | cut client _ _ _ => simp [hclient] at client
      | sent client rest waits server session =>
        obtain ⟨hserver, -⟩ | hserver := server
        · rw [hserver] at hclosed
          cases hclosed
        · rw [hserver]
          rfl
      | opened client block buf server hblock hbuf session =>
        rw [server] at hclosed ⊢
        obtain ⟨assertion, hab⟩ := (running_of_reachable hbuf session).server_stopped
          (by rw [agreed_length]; omega) hphase hacks hclosed
        simp [Opening.stopped, Phase.isAborted, hab]
    obtain ⟨assertion, -, rfl⟩ | ⟨hfour, -⟩ := acked_spec hu
    · have hover : Over msgLen msgNum {
          client := .done c
          server := s.server
          session := { s.session with
            acks := s.session.acks.drop 0
            client := { s.session.client with phase := .aborted assertion } } } :=
        ⟨rfl, hstop, hk.received, hk.length, hk.server⟩
      refine ⟨nofun, ?_, not_alive_of_server hstop, hover.runs.2, hover.runs.1⟩
      simp only [Programs.left, hclient, Opening.left, Loop.left, hphase]
      omega
    · cases hfour

theorem Follows.loses (hf : Follows msgLen msgNum s) (hs : s.hangup h = some s') :
    h = .readAll ∧ s' = s ∧ ¬ s.Alive ∨ Loses msgLen msgNum s h s' := by
  cases h with
  | readSession => exact .inr (hf.readSession_loses hs)
  | readAll => exact .inl ⟨rfl, hf.readAll_same hs⟩
  | readAck => exact .inr (hf.readAck_loses hs)
  | clientFails => exact .inr (clientFails_loses hf.kept hs)
  | serverFails => exact .inr (serverFails_loses hf.kept hs)

/-! ### Runs -/

/-- Neither side makes a call any more. -/
theorem Programs.Over.turn (hover : s.Over msgLen msgNum) : s.turn msgLen msgNum a = none := by
  obtain hclient | ⟨⟨c, hclient⟩, e, hphase⟩ := Opening.stopped_cases hover.client <;>
  obtain hserver | ⟨⟨d, hserver⟩, e', hphase'⟩ := Opening.stopped_cases hover.server <;>
  cases a with
  | call made =>
    cases made with
    | loop a => cases a <;> simp [Programs.turn, Programs.step, side, Ttcp.step, *]
    | _ => simp [Programs.turn, Programs.step, *]
  | hangup h => cases h <;> simp [Programs.turn, hangup, Opening.inLoop, *]

theorem Programs.Runs.turn (hruns : s.Runs msgLen msgNum) (hlen : msgLen < 2 ^ 31)
    (hnum : msgNum < 2 ^ 31) (hs : s.turn msgLen msgNum a = some s') :
    s'.Runs msgLen msgNum ∧ (s'.Alive ↔ s.Alive ∧ a.Whole) ∧ (∀ h, a = .hangup h → ¬ s.Alive) ∧
      [a].countP (· ≠ .hangup .readAll) + s'.left msgLen msgNum ≤ s.left msgLen msgNum := by
  obtain hf | hover := hruns
  · cases a with
    | call made =>
      refine ⟨.inl (hf.step hlen hnum hs), ⟨fun halive => hf.before hlen hnum halive hs,
        fun hboth => hf.alive hlen hnum hboth.1 hboth.2 hs⟩, nofun, ?_⟩
      have hless := hf.step_left hlen hnum hs
      simp only [List.countP_singleton, ne_eq, reduceCtorEq, not_false_eq_true, decide_true,
        if_true]
      omega
    | hangup h =>
      obtain ⟨rfl, rfl, hdead⟩ | hloses := hf.loses hs
      · exact ⟨.inl hf, iff_of_false hdead fun hboth => hdead hboth.1, fun _ _ => hdead, by simp⟩
      · refine ⟨hloses.runs, iff_of_false hloses.after fun hboth => hloses.before hboth.1,
          fun _ _ => hloses.before, ?_⟩
        have hless := hloses.left
        simp only [List.countP_singleton, ne_eq, Turn.hangup.injEq, hloses.ne, not_false_eq_true,
          decide_true, if_true]
        omega
  · rw [hover.turn] at hs
    cases hs

end LittleLearning.Net
