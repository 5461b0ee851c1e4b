import LittleLearning.Net.Opening

/-!
# Calls of the two ttcp programs

Every call of the two programs takes them on (`step_left`). An assertion fails only
when `write` or `read` cuts the session message or an acknowledgement (`alive`,
`before`), and as long as none has there is a call to make until the server has the
client's message as often as the client has been told to send it (`goes_on`).
-/

namespace LittleLearning.Net

open Cxx Transition Transfer Ttcp

/-- No fragment of the session message or of an acknowledgement. -/
def Call.Whole : Call → Prop
  | .openClient n _ | .openServer n _ => n = 8
  | .loop a => a.Whole

/-- What a side has still to do; in its loop as `Loop.left` counts it. -/
def Opening.left (number len : Nat) (o : Opening) (l : Loop) (t : Transfer) : Nat :=
  match o with
  | .todo => number * (len + 1) + 1
  | .done _ => l.left number len t
  | .aborted => 0

namespace Programs

def left (msgLen msgNum : Nat) (s : Programs) : Nat :=
  s.client.left msgNum (4 + msgLen) s.session.client s.session.pipe.writer +
    s.server.left msgNum (4 + msgLen) s.session.server s.session.pipe.reader

/-- No assertion has failed. -/
def Alive (s : Programs) : Prop :=
  s.client ≠ .aborted ∧ s.server ≠ .aborted ∧ Net.Alive s.session

/-- Both loops are over, after `msgNum` rounds. -/
structure Delivered (msgLen msgNum : Nat) (s : Programs) : Prop where
  client : s.session.client = ⟨msgNum, .finished⟩
  server : s.session.server = ⟨msgNum, .finished⟩
  wire : s.session.pipe.wire = []
  received : s.session.received = List.replicate msgNum (ttcpMessage msgLen)

/-- However far the programs have come, the server has copies of the message and no more of them
than the client is to send, and goes by the client's numbers. -/
structure Kept (msgLen msgNum : Nat) (s : Programs) : Prop where
  received : s.session.received =
    List.replicate s.session.received.length (ttcpMessage msgLen)
  length : s.session.received.length ≤ msgNum
  server : ∀ d, s.server = .done d → d.length = msgLen ∧ d.number = msgNum

end Programs

variable {msgLen msgNum : Nat} {s s' : Programs} {a : Action} {call : Call} {c : Ttcp}

theorem agreed_length : (agreed msgLen msgNum).message.length = 4 + msgLen :=
  length_ttcpMessage msgLen

/-! ### A call takes the programs on -/

theorem left_test {t : Transfer} (number len : Nat) (ht : t.totalLen = len) :
    (Loop.test number 0).left number len t = number * (len + 1) :=
  Loop.left_test number len 0 ht

theorem Follows.step_left (h : Follows msgLen msgNum s) (hlen : msgLen < 2 ^ 31)
    (hnum : msgNum < 2 ^ 31) (hs : s.step msgLen msgNum call = some s') :
    s'.left msgLen msgNum < s.left msgLen msgNum := by
  cases call with
  | openClient wlen block =>
    simp only [Programs.step, Option.ite_none_right_eq_some] at hs
    obtain ⟨⟨htodo, -, -⟩, hs⟩ := hs
    by_cases hfull : wlen ≠ 8
    · rw [Programs.openClient_short block hfull, Option.some.injEq] at hs
      subst hs
      simp only [Programs.left, htodo, Opening.left]
      omega
    · rw [not_not.1 hfull, Programs.openClient_whole hlen, Option.ite_none_right_eq_some,
        Option.some.injEq] at hs
      obtain ⟨-, rfl⟩ := hs
      simp only [Programs.left, htodo, Opening.left,
        left_test (t := .call (ttcpMessage msgLen) (4 + msgLen)) msgNum (4 + msgLen) rfl]
      omega
  | openServer rlen block =>
    simp only [Programs.step, Option.ite_none_right_eq_some] at hs
    obtain ⟨⟨htodo, -, -, hn⟩, hs⟩ := hs
    by_cases hfull : rlen ≠ 8
    · rw [Programs.openServer_short block hfull, Option.some.injEq] at hs
      subst hs
      simp only [Programs.left, htodo, Opening.left]
      omega
    · obtain rfl : rlen = 8 := not_not.1 hfull
      cases h with
      | start h =>
        subst h
        simp [Programs.start] at hn
      | cut client server wire received => omega
      | opened client block buf server hblock hbuf session => simp [htodo] at server
      | sent client rest waits server session =>
        obtain ⟨-, hwire⟩ := server.resolve_right fun hab => by simp [htodo] at hab
        rw [Programs.openServer_whole hlen hnum hwire, Option.ite_none_right_eq_some,
          Option.some.injEq] at hs
        obtain ⟨hblock, rfl⟩ := hs
        simp only [Programs.left, htodo, Opening.left, Session.opened,
          left_test (t := .call block block.length) msgNum (4 + msgLen) hblock]
        omega
  | loop a =>
    cases h with
    | start h =>
      subst h
      cases a <;> cases hs
    | cut client server wire received => exact absurd hs (Programs.step_cut client server)
    | sent client rest waits server session =>
      obtain ⟨-, n, rfl⟩ := Follows.early client waits server session hs
      simp only [Programs.step, Programs.side, client, Option.map_eq_some_iff] at hs
      obtain ⟨session', hs, rfl⟩ := hs
      obtain ⟨data, -, hopened⟩ := Ttcp.step_write_opened hs
      have hless := Ttcp.step_left (hopened msgNum rest [])
      simp only [Ttcp.left, Session.opened, agreed_length] at hless
      have hclient := Nat.lt_of_add_lt_add_right hless
      obtain ⟨hserver, -⟩ | hserver := server
      · simp only [Programs.left, client, hserver, Opening.left]
        exact Nat.add_lt_add_right hclient _
      · simp only [Programs.left, client, hserver, Opening.left]
        exact hclient
    | opened client block buf server hblock hbuf session =>
      rw [Programs.step_opened client server hblock, Option.map_eq_some_iff] at hs
      obtain ⟨session', hs, rfl⟩ := hs
      have hless := Ttcp.step_left hs
      simp only [Ttcp.left, agreed_length] at hless
      simp only [Programs.left, client, server, Opening.left]
      exact hless

/-! ### The programs are not stuck -/

theorem running_of_reachable {buf : Bytes} {u : Session} (hbuf : buf.length = 4 + msgLen)
    (h : Reachable (agreed msgLen msgNum).step ((agreed msgLen msgNum).start buf) u) :
    Running (agreed msgLen msgNum) u := by
  have hlen : 1 ≤ (agreed msgLen msgNum).message.length := by
    rw [agreed_length]
    omega
  exact h.invariant (fun _ _ _ h hs => h.step hlen hs)
    (running_start hlen (hbuf.trans agreed_length.symm))

/-- The server has at most as many messages as there are rounds. -/
theorem Running.received {u : Session} (h : Running c u) :
    u.received = List.replicate u.received.length c.message ∧ u.received.length ≤ c.number := by
  refine ⟨h.rounds.inStep.received, ?_⟩
  cases h.rounds with
  | same h' =>
    have hon := h.client h'.clientOn.1
    have hlength := congrArg List.length h'.received
    rw [List.length_replicate] at hlength
    split at hlength <;> omega
  | ahead h' =>
    have hon := h.client h'.clientOn.1
    have hi := h'.i
    rw [h'.received, List.length_replicate]
    omega
  | ended h' =>
    have hover := h.finished h'.client
    have hi := h'.i
    rw [h'.received, List.length_replicate]
    omega

theorem Ended.delivered (h : Ended (agreed msgLen msgNum) s.session)
    (hrun : Running (agreed msgLen msgNum) s.session) : s.Delivered msgLen msgNum := by
  have hclient : s.session.client.i = msgNum := hrun.finished h.client
  have hserver : s.session.server.i = msgNum := h.i.trans hclient
  refine ⟨?_, ?_, h.wire, ?_⟩
  · rw [← hclient, ← h.client]
  · rw [← hserver, ← h.server]
  · rw [h.received, hserver]
    rfl

theorem Follows.kept (h : Follows msgLen msgNum s) : s.Kept msgLen msgNum := by
  cases h with
  | start h =>
    subst h
    exact ⟨rfl, Nat.zero_le _, nofun⟩
  | cut client server wire received =>
    refine ⟨by rw [received]; rfl, by rw [received]; exact Nat.zero_le _, fun d hd => ?_⟩
    obtain hserver | hserver := server <;> simp [hserver] at hd
  | sent client rest waits server session =>
    have hbuf : (List.replicate (4 + msgLen) (0 : UInt8)).length = 4 + msgLen :=
      List.length_replicate
    obtain ⟨hreceived, hlength⟩ := (running_of_reachable hbuf (session _ hbuf)).received
    refine ⟨hreceived, hlength, fun d hd => ?_⟩
    obtain ⟨hserver, -⟩ | hserver := server <;> simp [hserver] at hd
  | opened client block buf server hblock hbuf session =>
    obtain ⟨hreceived, hlength⟩ := (running_of_reachable hbuf session).received
    refine ⟨hreceived, hlength, fun d hd => ?_⟩
    obtain rfl := Opening.done.inj (server.symm.trans hd)
    exact ⟨rfl, rfl⟩

theorem ntohl_ttcpMessage (hlen : msgLen < 2 ^ 31) :
    ntohl (lengthOf (ttcpMessage msgLen)) = msgLen := by
  rw [lengthOf_ttcpMessage]
  exact ntohl_htonl (by omega)

theorem Follows.alive (h : Follows msgLen msgNum s) (hlen : msgLen < 2 ^ 31)
    (hnum : msgNum < 2 ^ 31) (halive : s.Alive) (hwhole : call.Whole)
    (hs : s.step msgLen msgNum call = some s') : s'.Alive := by
  obtain ⟨hclient, hserver, hsession⟩ := halive
  cases call with
  | openClient wlen block =>
    obtain rfl : wlen = 8 := hwhole
    simp only [Programs.step, Option.ite_none_right_eq_some] at hs
    obtain ⟨-, hs⟩ := hs
    rw [Programs.openClient_whole hlen, Option.ite_none_right_eq_some, Option.some.injEq] at hs
    obtain ⟨-, rfl⟩ := hs
    exact ⟨fun hab => (by cases hab), hserver, fun assertion =>
      ⟨Loop.test_alive _ _ assertion, (hsession assertion).2⟩⟩
  | openServer rlen block =>
    obtain rfl : rlen = 8 := hwhole
    simp only [Programs.step, Option.ite_none_right_eq_some] at hs
    obtain ⟨⟨htodo, -, -, hn⟩, hs⟩ := hs
    cases h with
    | start h =>
      subst h
      simp [Programs.start] at hn
    | cut client _ _ _ => exact absurd client hclient
    | opened client block buf server hblock hbuf session => simp [htodo] at server
    | sent client rest waits server session =>
      obtain ⟨-, hwire⟩ := server.resolve_right hserver
      rw [Programs.openServer_whole hlen hnum hwire, Option.ite_none_right_eq_some,
        Option.some.injEq] at hs
      obtain ⟨-, rfl⟩ := hs
      exact ⟨hclient, fun hab => (by cases hab), fun assertion =>
        ⟨(hsession assertion).1, Loop.test_alive _ _ assertion⟩⟩
  | loop a =>
    cases h with
    | start h =>
      subst h
      cases a <;> cases hs
    | cut client _ _ _ => exact absurd client hclient
    | sent client rest waits server session =>
      obtain ⟨-, n, rfl⟩ := Follows.early client waits server session hs
      simp only [Programs.step, Programs.side, client, Option.map_eq_some_iff] at hs
      obtain ⟨session', hs, rfl⟩ := hs
      obtain ⟨data, -, hopened⟩ := Ttcp.step_write_opened hs
      -- what the client does here it does in the session with any block
      have hblock : (List.replicate (4 + msgLen) (0 : UInt8)).length = 4 + msgLen :=
        List.length_replicate
      have hopen : Net.Alive (s.session.opened msgNum rest (List.replicate (4 + msgLen) 0)) :=
        fun assertion => ⟨(hsession assertion).1, Loop.test_alive _ _ assertion⟩
      have halive := (running_of_reachable hblock (session _ hblock)).alive
        (by rw [agreed_length]; omega) (ntohl_ttcpMessage hlen) hopen (a := .write n) trivial
        (hopened msgNum rest (List.replicate (4 + msgLen) 0))
      refine ⟨fun hab => (by cases hab), hserver, fun assertion => ⟨(halive assertion).1, ?_⟩⟩
      rw [Ttcp.step_write_server hs]
      exact (hsession assertion).2
    | opened client block buf server hblock hbuf session =>
      rw [Programs.step_opened client server hblock, Option.map_eq_some_iff] at hs
      obtain ⟨session', hs, rfl⟩ := hs
      exact ⟨hclient, hserver, (running_of_reachable hbuf session).alive
        (by rw [agreed_length]; omega) (ntohl_ttcpMessage hlen) hsession hwhole hs⟩

theorem Follows.before (h : Follows msgLen msgNum s) (hlen : msgLen < 2 ^ 31)
    (hnum : msgNum < 2 ^ 31) (halive : s'.Alive) (hs : s.step msgLen msgNum call = some s') :
    s.Alive ∧ call.Whole := by
  obtain ⟨hclient, hserver, hsession⟩ := halive
  have hstart : Programs.start.Alive :=
    ⟨fun hab => (by cases hab), fun hab => (by cases hab),
      fun _ => ⟨fun hab => (by cases hab), fun hab => (by cases hab)⟩⟩
  cases call with
  | openClient wlen block =>
    simp only [Programs.step, Option.ite_none_right_eq_some] at hs
    obtain ⟨⟨htodo, -, -⟩, hs⟩ := hs
    by_cases hfull : wlen ≠ 8
    · rw [Programs.openClient_short block hfull, Option.some.injEq] at hs
      subst hs
      exact absurd rfl hclient
    · refine ⟨?_, not_not.1 hfull⟩
      cases h with
      | start h => exact h ▸ hstart
      | cut client _ _ _ => simp [htodo] at client
      | sent client _ _ _ _ => simp [htodo] at client
      | opened client _ _ _ _ _ _ => simp [htodo] at client
  | openServer rlen block =>
    simp only [Programs.step, Option.ite_none_right_eq_some] at hs
    obtain ⟨⟨htodo, -, -, hn⟩, hs⟩ := hs
    by_cases hfull : rlen ≠ 8
    · rw [Programs.openServer_short block hfull, Option.some.injEq] at hs
      subst hs
      exact absurd rfl hserver
    · obtain rfl : rlen = 8 := not_not.1 hfull
      refine ⟨?_, rfl⟩
      cases h with
      | start h => exact h ▸ hstart
      | cut client server wire received => omega
      | opened client block buf server hblock hbuf session => simp [htodo] at server
      | sent client rest waits server session =>
        obtain ⟨-, hwire⟩ := server.resolve_right fun hab => by simp [htodo] at hab
        rw [Programs.openServer_whole hlen hnum hwire, Option.ite_none_right_eq_some,
          Option.some.injEq] at hs
        obtain ⟨-, rfl⟩ := hs
        refine ⟨hclient, by simp [htodo], fun assertion => ⟨(hsession assertion).1, ?_⟩⟩
        rw [waits]
        exact fun hab => by cases hab
  | loop a =>
    have hsame : s'.client = s.client ∧ s'.server = s.server ∧
        ∃ c : Ttcp, c.step s.session a = some s'.session := by
      unfold Programs.step at hs
      simp only at hs
      split at hs
      · obtain ⟨session, hs', rfl⟩ := Option.map_eq_some_iff.1 hs
        exact ⟨rfl, rfl, _, hs'⟩
      · cases hs
    obtain ⟨hsame, hsame', c, hs⟩ := hsame
    obtain ⟨hbefore, hwhole⟩ := hsession.before hs
    exact ⟨⟨hsame ▸ hclient, hsame' ▸ hserver, hbefore⟩, hwhole⟩

/-- While no assertion has failed there is a call to make, until all is delivered. -/
theorem Follows.goes_on (h : Follows msgLen msgNum s) (hlen : msgLen < 2 ^ 31)
    (hnum : msgNum < 2 ^ 31) (halive : s.Alive) :
    s.Delivered msgLen msgNum ∨
      ∃ call s', call.Whole ∧ s.step msgLen msgNum call = some s' := by
  have hblock : (List.replicate (4 + msgLen) (0 : UInt8)).length = 4 + msgLen :=
    List.length_replicate
  obtain ⟨hclient, hserver, hsession⟩ := halive
  cases h with
  | start h =>
    subst h
    refine .inr ⟨.openClient 8 (List.replicate (4 + msgLen) 0), ?_⟩
    rw [Programs.step, if_pos ⟨rfl, by decide, by decide⟩, Programs.openClient_whole hlen,
      if_pos hblock]
    exact ⟨_, rfl, rfl⟩
  | cut client _ _ _ => exact absurd client hclient
  | sent client rest waits server session =>
    obtain ⟨htodo, hwire⟩ := server.resolve_right hserver
    have hn : 8 ≤ s.session.pipe.wire.length := by
      rw [hwire, List.length_append, length_sessionMessage]
      omega
    refine .inr ⟨.openServer 8 (List.replicate (4 + msgLen) 0), ?_⟩
    rw [Programs.step, if_pos ⟨htodo, by decide, by decide, hn⟩,
      Programs.openServer_whole hlen hnum hwire, if_pos hblock]
    exact ⟨_, rfl, rfl⟩
  | opened client block buf server hblock hbuf session =>
    have hrun := running_of_reachable hbuf session
    obtain hended | ⟨a, session', hwhole, hs⟩ :=
      hrun.goes_on (by rw [agreed_length]; omega) hnum hsession
    · exact .inl (hended.delivered hrun)
    · refine .inr ⟨.loop a, { s with session := session' }, hwhole, ?_⟩
      rw [Programs.step_opened client server hblock, hs]
      rfl

end LittleLearning.Net
