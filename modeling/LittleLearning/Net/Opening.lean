import LittleLearning.Net.Finish

/-!
# The two ttcp programs

`ttcpClient` sends the session message, makes its message and enters its loop;
`ttcpServer` reads the session message, takes its buffer and enters its own. The
session message and the messages go over one connection, and the client may be far
into its loop when the server reads the first byte. From there on the two are a
session (`Follows`).
-/

namespace LittleLearning.Net

open Cxx Transition Transfer Ttcp

/-- The bytes of a `uint32_t` in network order. -/
def htonl (n : Nat) : Bytes :=
  [.ofNat (n / 2 ^ 24), .ofNat (n / 2 ^ 16), .ofNat (n / 2 ^ 8), .ofNat n]

/-- A `SessionMessage`, packed. -/
def sessionMessage (msgLen msgNum : Nat) : Bytes := htonl msgLen ++ htonl msgNum

/-- `sizeof(PayLoad) + msgLen`, a `uint32_t`. -/
def sizeOf (msgLen : Nat) : Nat := (4 + msgLen) % 2 ^ 32

/-- `"0123456789ABCDEF"[i % 16]` -/
def pattern (i : Nat) : UInt8 := (ascii "0123456789ABCDEF").getD (i % 16) 0

/-- `message->payLoad[i]` gets its byte, and `++i`. -/
def fillAt (message : Bytes) (i : Nat) : Option Bytes :=
  if 4 + i < message.length then (incr i).map fun _ => message.set (4 + i) (pattern i) else none

/-- What `ttcpClient` makes of the block that `malloc` has given it, if that is defined. -/
def fill (msgLen : Nat) (block : Bytes) : Option Bytes :=
  if 4 ≤ block.length then
    (List.range msgLen).foldlM fillAt (htonl msgLen ++ block.drop 4)
  else none

deriving instance DecidableEq for Ttcp

/-- A program before its loop, in it with what it goes by, or stopped by an assertion. -/
inductive Opening where
  | todo
  | done (c : Ttcp)
  | aborted
  deriving DecidableEq

/-- `session` has the connection, and the loops of those that are in one. -/
structure Programs where
  client : Opening
  server : Opening
  session : Session

/-- What a program does up to its loop, with what `write` or `read` returns and the block that
`malloc` gives, or a call of its loop. -/
inductive Call where
  | openClient (wlen : Nat) (block : Bytes)
  | openServer (rlen : Nat) (block : Bytes)
  | loop (a : Action)
  deriving DecidableEq

namespace Programs

/-- The server's own part comes when it opens. -/
def start : Programs where
  client := .todo
  server := .todo
  session := {
    client := ⟨0, .finished⟩
    pipe := { writer := .call [] 0, wire := [], later := [], reader := .call [] 0 }
    server := ⟨0, .finished⟩
    acks := []
    received := [] }

def openClient (msgLen msgNum : Nat) (s : Programs) (wlen : Nat) (block : Bytes) :
    Option Programs :=
  let wire := s.session.pipe.wire ++ (sessionMessage msgLen msgNum).take wlen
  if wlen ≠ 8 then
    some { s with
      client := .aborted
      session := { s.session with pipe := { s.session.pipe with wire := wire } } }
  else if block.length = sizeOf msgLen then
    (fill msgLen block).map fun message =>
      { s with
        client := .done ⟨message, msgLen, msgNum⟩
        session := { s.session with
          client := .test msgNum 0
          pipe := { s.session.pipe with
            writer := .call message (sizeOf msgLen)
            wire := wire } } }
  else none

/-- The server's loop goes by the session message, and by `msgLen` for its buffer. -/
def openServer (s : Programs) (rlen : Nat) (block : Bytes) : Option Programs :=
  let sm := s.session.pipe.wire.take rlen
  let wire := s.session.pipe.wire.drop rlen
  if rlen ≠ 8 then
    some { s with
      server := .aborted
      session := { s.session with pipe := { s.session.pipe with wire := wire } } }
  else
    let length := ntohl (sm.take 4)
    let number := ntohl (sm.drop 4)
    if block.length = sizeOf length then
      some { s with
        server := .done ⟨block, length, number⟩
        session := { s.session with
          server := .test number 0
          pipe := { s.session.pipe with
            wire := wire
            reader := .call block (sizeOf length) } } }
    else none

/-- Whose call it is. -/
def side (s : Programs) : Action → Opening
  | .write _ | .readAck _ => s.client
  | .read _ | .writeAck _ => s.server

def step (msgLen msgNum : Nat) (s : Programs) : Call → Option Programs
  | .openClient wlen block =>
    if s.client = .todo ∧ 1 ≤ wlen ∧ wlen ≤ 8 then s.openClient msgLen msgNum wlen block else none
  | .openServer rlen block =>
    if s.server = .todo ∧ 1 ≤ rlen ∧ rlen ≤ 8 ∧ rlen ≤ s.session.pipe.wire.length then
      s.openServer rlen block
    else none
  | .loop a =>
    match s.side a with
    | .done c => (c.step s.session a).map fun session => { s with session := session }
    | _ => none

end Programs

/-! ### The message -/

/-- What `ttcpClient` sends in each round. -/
def ttcpMessage (msgLen : Nat) : Bytes := htonl msgLen ++ (List.range msgLen).map pattern

theorem ntohl_htonl {n : Nat} (h : n < 2 ^ 32) : ntohl (htonl n) = n := by
  simp only [ntohl, htonl, List.foldl_cons, List.foldl_nil, UInt8.toNat_ofNat']
  omega

/-- After `n` rounds of the loop the first `n` bytes of the payload are there. -/
theorem foldlM_fillAt (head : Bytes) (h4 : head.length = 4) {n : Nat} (hn : n < 2 ^ 31) :
    ∀ rest : Bytes, n ≤ rest.length → (List.range n).foldlM fillAt (head ++ rest) =
      some (head ++ (List.range n).map pattern ++ rest.drop n) := by
  intro rest hrest
  induction n with
  | zero => simp
  | succ n ih =>
    have hset : ((head ++ (List.range n).map pattern ++ rest.drop n).set (4 + n) (pattern n)) =
        head ++ (List.range (n + 1)).map pattern ++ rest.drop (n + 1) := by
      have hfront : (head ++ (List.range n).map pattern).length = 4 + n := by simp [h4]
      rw [List.drop_eq_getElem_cons (by omega), List.set_append_right _ _ (by omega), hfront,
        Nat.sub_self, List.set_cons_zero, List.range_succ, List.map_append, List.map_singleton]
      simp
    rw [List.range_succ, List.foldlM_append, ih (by omega) (by omega)]
    simp only [Option.bind_eq_bind, Option.bind_some, List.foldlM_cons, List.foldlM_nil, fillAt,
      incr_eq hn, Option.map_some]
    rw [if_pos (by simp [h4]; omega), ← List.range_succ, ← hset]
    rfl

theorem fill_eq {msgLen : Nat} {block : Bytes} (h : msgLen < 2 ^ 31)
    (hblock : block.length = sizeOf msgLen) : fill msgLen block = some (ttcpMessage msgLen) := by
  have hsize : block.length = 4 + msgLen := by
    rw [hblock, sizeOf, Nat.mod_eq_of_lt (by omega)]
  rw [fill, if_pos (by omega), foldlM_fillAt _ rfl h _ (by rw [List.length_drop]; omega),
    List.drop_drop, List.drop_eq_nil_of_le (by omega), List.append_nil, ttcpMessage]

/-! ### The session the programs are in -/

/-- What both sides are to go by. -/
def agreed (msgLen msgNum : Nat) : Ttcp := ⟨ttcpMessage msgLen, msgLen, msgNum⟩

/-- `s` once the server has opened with `block` and `rest` is on the wire. -/
def Session.opened (s : Session) (number : Nat) (rest block : Bytes) : Session :=
  { s with
    pipe := { s.pipe with wire := rest, reader := .call block block.length }
    server := .test number 0 }

/-- What has become of the session message. Before the server reads it the session is one for every
block that `malloc` may give the server. -/
inductive Follows (msgLen msgNum : Nat) (s : Programs) : Prop
  | start (h : s = .start)
  | cut (client : s.client = .aborted) (server : s.server = .todo ∨ s.server = .aborted)
      (wire : s.session.pipe.wire.length < 8) (received : s.session.received = [])
  | sent (client : s.client = .done (agreed msgLen msgNum)) (rest : Bytes)
      (waits : s.session.server = ⟨0, .finished⟩)
      (server : s.server = .todo ∧ s.session.pipe.wire = sessionMessage msgLen msgNum ++ rest ∨
        s.server = .aborted)
      (session : ∀ block : Bytes, block.length = 4 + msgLen →
        Reachable (agreed msgLen msgNum).step ((agreed msgLen msgNum).start block)
          (s.session.opened msgNum rest block))
  | opened (client : s.client = .done (agreed msgLen msgNum)) (block buf : Bytes)
      (server : s.server = .done ⟨block, msgLen, msgNum⟩) (hblock : block.length = 4 + msgLen)
      (hbuf : buf.length = 4 + msgLen)
      (session : Reachable (agreed msgLen msgNum).step ((agreed msgLen msgNum).start buf) s.session)

variable {msgLen msgNum n : Nat} {s s' : Programs} {c d : Ttcp} {a : Action} {call : Call}

theorem length_ttcpMessage (msgLen : Nat) : (ttcpMessage msgLen).length = 4 + msgLen := by
  simp [ttcpMessage, htonl]
  omega

theorem lengthOf_ttcpMessage (msgLen : Nat) : lengthOf (ttcpMessage msgLen) = htonl msgLen := rfl

theorem sizeOf_eq (h : msgLen < 2 ^ 31) : sizeOf msgLen = 4 + msgLen :=
  Nat.mod_eq_of_lt (by omega)

theorem written_pipe (u : Session) (pipe : Pipe) : (written u pipe).pipe = pipe := by
  unfold written
  split <;> rfl

theorem written_opened (u : Session) (pipe : Pipe) (number : Nat) (rest rest' block : Bytes) :
    written (u.opened number rest block)
        { pipe with wire := rest', reader := .call block block.length } =
      (written u pipe).opened number rest' block := by
  cases hstatus : pipe.writer.status <;> simp only [written, Session.opened, hstatus]

/-- The client's `write` does not look at the server, nor at what is on the wire. -/
theorem Ttcp.step_write_opened {u u' : Session} (hs : c.step u (.write n) = some u') :
    ∃ data, u'.pipe.wire = u.pipe.wire ++ data ∧
      ∀ number rest block, c.step (u.opened number rest block) (.write n) =
        some (u'.opened number (rest ++ data) block) := by
  simp only [Ttcp.step, Pipe.step, Option.ite_none_right_eq_some, Option.map_eq_some_iff] at hs
  obtain ⟨hphase, pipe, ⟨hguard, hpipe⟩, rfl⟩ := hs
  refine ⟨(u.pipe.writer.writeAll (some n)).2, ?_, fun number rest block => ?_⟩
  · rw [written_pipe, ← Option.some.inj hpipe]
  · have hstep : (u.opened number rest block).pipe.step (.write n) = some { pipe with
        wire := rest ++ (u.pipe.writer.writeAll (some n)).2
        reader := .call block block.length } := by
      rw [← Option.some.inj hpipe]
      exact if_pos hguard
    refine (if_pos hphase).trans ?_
    rw [hstep, Option.map_some, written_opened]

/-- The server goes by the session message alone. -/
theorem Ttcp.step_server (hlength : d.length = c.length) (hnumber : d.number = c.number)
    (hsize : d.message.length = c.message.length) (u : Session) (n : Nat) :
    d.step u (.read n) = c.step u (.read n) ∧ d.step u (.writeAck n) = c.step u (.writeAck n) := by
  have hread : d.read u = c.read u := funext fun pipe => by simp only [Ttcp.read, hlength]
  refine ⟨?_, ?_⟩
  · rw [Ttcp.step, hread, Ttcp.step]
  · simp only [Ttcp.step, Ttcp.answered, hnumber, hsize]

/-- Before the server has opened there is no acknowledgement to read. -/
theorem step_readAck_opened {u : Session} {rest block buf : Bytes} (hlen : 1 ≤ c.message.length)
    (hbuf : buf.length = c.message.length)
    (h : Reachable c.step (c.start buf) (u.opened c.number rest block)) :
    c.step u (.readAck n) = none := by
  have hrounds : Rounds c (u.opened c.number rest block) :=
    h.invariant (fun _ _ _ h hs => h.step hlen hs) (rounds_start hlen hbuf)
  refine if_neg ?_
  rintro ⟨hphase, hpos, -, hn⟩
  cases hrounds with
  | same h =>
    have hacks : u.acks = [] := h.acks.resolve_right fun hab => Loop.test_alive _ _ _ hab.1
    rw [hacks, List.length_nil] at hn
    omega
  | ahead h => exact absurd h.i (Nat.succ_ne_zero _).symm
  | ended h => exact absurd (hphase.symm.trans h.client) nofun

/-! ### A call of the programs -/

theorem length_sessionMessage (msgLen msgNum : Nat) :
    (sessionMessage msgLen msgNum).length = 8 := rfl

/-- A `write` of less than the session message is the end of the client. -/
theorem Programs.openClient_short {wlen : Nat} (block : Bytes) (h : wlen ≠ 8) :
    s.openClient msgLen msgNum wlen block = some { s with
      client := .aborted
      session := { s.session with pipe := { s.session.pipe with
        wire := s.session.pipe.wire ++ (sessionMessage msgLen msgNum).take wlen } } } :=
  if_pos h

theorem Programs.openClient_whole {block : Bytes} (hlen : msgLen < 2 ^ 31) :
    s.openClient msgLen msgNum 8 block =
      if block.length = 4 + msgLen then
        some { s with
          client := .done (agreed msgLen msgNum)
          session := { s.session with
            client := .test msgNum 0
            pipe := { s.session.pipe with
              writer := .call (ttcpMessage msgLen) (4 + msgLen)
              wire := s.session.pipe.wire ++ sessionMessage msgLen msgNum } } }
      else none := by
  simp only [Programs.openClient, ne_eq, not_true_eq_false, if_false, sizeOf_eq hlen]
  by_cases hblock : block.length = 4 + msgLen
  · rw [if_pos hblock, if_pos hblock, fill_eq hlen (hblock.trans (sizeOf_eq hlen).symm)]
    rfl
  · rw [if_neg hblock, if_neg hblock]

theorem Programs.openServer_short {rlen : Nat} (block : Bytes) (h : rlen ≠ 8) :
    s.openServer rlen block = some { s with
      server := .aborted
      session := { s.session with pipe := { s.session.pipe with
        wire := s.session.pipe.wire.drop rlen } } } :=
  if_pos h

/-- The server has from the session message what the client has put in it. -/
theorem Programs.openServer_whole {rest block : Bytes} (hlen : msgLen < 2 ^ 31)
    (hnum : msgNum < 2 ^ 31) (hwire : s.session.pipe.wire = sessionMessage msgLen msgNum ++ rest) :
    s.openServer 8 block =
      if block.length = 4 + msgLen then
        some { s with
          server := .done ⟨block, msgLen, msgNum⟩
          session := s.session.opened msgNum rest block }
      else none := by
  have htake : s.session.pipe.wire.take 8 = htonl msgLen ++ htonl msgNum := by
    rw [hwire]
    rfl
  have hdrop : s.session.pipe.wire.drop 8 = rest := by
    rw [hwire]
    rfl
  have hlength : ntohl ((htonl msgLen ++ htonl msgNum).take 4) = msgLen := ntohl_htonl (by omega)
  have hnumber : ntohl ((htonl msgLen ++ htonl msgNum).drop 4) = msgNum := ntohl_htonl (by omega)
  simp only [Programs.openServer, ne_eq, not_true_eq_false, if_false, htake, hdrop, hlength,
    hnumber, sizeOf_eq hlen]
  by_cases hblock : block.length = 4 + msgLen
  · rw [if_pos hblock, if_pos hblock, Session.opened, hblock]
  · rw [if_neg hblock, if_neg hblock]

theorem follows_openClient {wlen : Nat} {block : Bytes} (hlen : msgLen < 2 ^ 31) (hn : wlen ≤ 8)
    (hs : Programs.start.openClient msgLen msgNum wlen block = some s') :
    Follows msgLen msgNum s' := by
  by_cases hfull : wlen ≠ 8
  · rw [Programs.openClient_short block hfull, Option.some.injEq] at hs
    subst hs
    refine .cut rfl (.inl rfl) ?_ rfl
    simp only [Programs.start, List.nil_append, List.length_take, length_sessionMessage]
    omega
  · rw [not_not.1 hfull, Programs.openClient_whole hlen, Option.ite_none_right_eq_some,
      Option.some.injEq] at hs
    obtain ⟨-, rfl⟩ := hs
    refine .sent rfl [] rfl (.inl ⟨rfl, by rw [List.append_nil]; rfl⟩) fun buf hbuf => ⟨[], ?_⟩
    simp only [exec_nil, Ttcp.start, agreed, Pipe.start, Session.opened, Programs.start,
      length_ttcpMessage, hbuf]

theorem Follows.openServer {rlen : Nat} {block : Bytes} (h : Follows msgLen msgNum s)
    (hlen : msgLen < 2 ^ 31) (hnum : msgNum < 2 ^ 31) (htodo : s.server = .todo) (hpos : 1 ≤ rlen)
    (hn : rlen ≤ s.session.pipe.wire.length) (hs : s.openServer rlen block = some s') :
    Follows msgLen msgNum s' := by
  cases h with
  | start h =>
    subst h
    simp only [Programs.start, List.length_nil] at hn
    omega
  | cut client server wire received =>
    rw [Programs.openServer_short block (by omega), Option.some.injEq] at hs
    subst hs
    refine .cut client (.inr rfl) ?_ received
    simp only [List.length_drop]
    omega
  | opened client block buf server hblock hbuf session => simp [htodo] at server
  | sent client rest waits server session =>
    by_cases hfull : rlen ≠ 8
    · rw [Programs.openServer_short block hfull, Option.some.injEq] at hs
      subst hs
      exact .sent client rest waits (.inr rfl) session
    · obtain ⟨-, hwire⟩ := server.resolve_right fun hab => by simp [htodo] at hab
      rw [not_not.1 hfull, Programs.openServer_whole hlen hnum hwire,
        Option.ite_none_right_eq_some, Option.some.injEq] at hs
      obtain ⟨hblock, rfl⟩ := hs
      exact .opened client block block rfl hblock hblock (session block hblock)

/-- The client in its loop while the server has not opened. -/
theorem Follows.early {rest : Bytes} (client : s.client = .done (agreed msgLen msgNum))
    (waits : s.session.server = ⟨0, .finished⟩)
    (server : s.server = .todo ∧ s.session.pipe.wire = sessionMessage msgLen msgNum ++ rest ∨
      s.server = .aborted)
    (session : ∀ block : Bytes, block.length = 4 + msgLen →
      Reachable (agreed msgLen msgNum).step ((agreed msgLen msgNum).start block)
        (s.session.opened msgNum rest block))
    (hs : s.step msgLen msgNum (.loop a) = some s') :
    Follows msgLen msgNum s' ∧ ∃ n, a = .write n := by
  have hmessage : 1 ≤ (agreed msgLen msgNum).message.length := by
    rw [agreed, length_ttcpMessage]
    omega
  cases a with
  | write n =>
    simp only [Programs.step, Programs.side, client, Option.map_eq_some_iff] at hs
    obtain ⟨session', hs, rfl⟩ := hs
    obtain ⟨data, hwire, hopened⟩ := Ttcp.step_write_opened hs
    have hwaits := (Ttcp.step_write_server hs).trans waits
    refine ⟨.sent rfl (rest ++ data) hwaits ?_ fun block hblock =>
      (session block hblock).snoc (hopened msgNum rest block), n, rfl⟩
    refine server.imp (fun hserver => ⟨hserver.1, ?_⟩) id
    rw [hwire, hserver.2, List.append_assoc]
  | readAck n =>
    simp only [Programs.step, Programs.side, client, Option.map_eq_some_iff] at hs
    obtain ⟨session', hs, -⟩ := hs
    have hbuf : (List.replicate (4 + msgLen) (0 : UInt8)).length = 4 + msgLen :=
      List.length_replicate
    rw [step_readAck_opened hmessage (hbuf.trans (length_ttcpMessage msgLen).symm)
      (session _ hbuf)] at hs
    cases hs
  | read n =>
    obtain ⟨hserver, -⟩ | hserver := server <;>
    · simp only [Programs.step, Programs.side, hserver] at hs
      cases hs
  | writeAck n =>
    obtain ⟨hserver, -⟩ | hserver := server <;>
    · simp only [Programs.step, Programs.side, hserver] at hs
      cases hs

/-- Where both are in their loops a call is one of the session. -/
theorem Programs.step_opened {block : Bytes} (client : s.client = .done (agreed msgLen msgNum))
    (server : s.server = .done ⟨block, msgLen, msgNum⟩) (hblock : block.length = 4 + msgLen)
    (a : Action) : s.step msgLen msgNum (.loop a) =
      ((agreed msgLen msgNum).step s.session a).map fun session =>
        { s with session := session } := by
  have hserver := Ttcp.step_server (d := ⟨block, msgLen, msgNum⟩) (c := agreed msgLen msgNum)
    rfl rfl (hblock.trans (length_ttcpMessage msgLen).symm) s.session
  cases a with
  | write n => simp only [Programs.step, Programs.side, client]
  | readAck n => simp only [Programs.step, Programs.side, client]
  | read n => simp only [Programs.step, Programs.side, server, (hserver n).1]
  | writeAck n => simp only [Programs.step, Programs.side, server, (hserver n).2]

theorem Programs.step_cut (client : s.client = .aborted)
    (server : s.server = .todo ∨ s.server = .aborted) :
    s.step msgLen msgNum (.loop a) ≠ some s' := by
  have hside : s.side a = .todo ∨ s.side a = .aborted := by
    cases a
    · exact .inr client
    · exact .inr client
    · exact server
    · exact server
  intro hs
  obtain hside | hside := hside <;>
  · simp only [Programs.step, hside] at hs
    cases hs

theorem Follows.step (h : Follows msgLen msgNum s) (hlen : msgLen < 2 ^ 31)
    (hnum : msgNum < 2 ^ 31) (hs : s.step msgLen msgNum call = some s') :
    Follows msgLen msgNum s' := by
  cases call with
  | openClient wlen block =>
    simp only [Programs.step, Option.ite_none_right_eq_some] at hs
    obtain ⟨⟨htodo, -, hn⟩, hs⟩ := hs
    cases h with
    | start h =>
      subst h
      exact follows_openClient hlen hn hs
    | cut client _ _ _ => simp [htodo] at client
    | sent client _ _ _ _ => simp [htodo] at client
    | opened client _ _ _ _ _ _ => simp [htodo] at client
  | openServer rlen block =>
    simp only [Programs.step, Option.ite_none_right_eq_some] at hs
    obtain ⟨⟨htodo, hpos, -, hn⟩, hs⟩ := hs
    exact h.openServer hlen hnum htodo hpos hn hs
  | loop a =>
    cases h with
    | start h =>
      subst h
      cases a <;> cases hs
    | cut client server wire received => exact absurd hs (Programs.step_cut client server)
    | sent client rest waits server session =>
      exact (Follows.early client waits server session hs).1
    | opened client block buf server hblock hbuf session =>
      rw [Programs.step_opened client server hblock, Option.map_eq_some_iff] at hs
      obtain ⟨session', hs, rfl⟩ := hs
      exact .opened client block buf server hblock hbuf (session.snoc hs)

end LittleLearning.Net
