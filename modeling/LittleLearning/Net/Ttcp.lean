import LittleLearning.Net.Common
import Mathlib.Data.List.Infix

/-!
# A ttcp session

The message loops of `ttcpClient` and `ttcpServer` after the session message. In a
round the client writes its message and waits for the acknowledgement, the first
word of what the server has read. The two sides step in any order. They are in the
same round until the server acknowledges it, and then one apart until the client
has read that (`Rounds`).
-/

namespace LittleLearning.Net

open Cxx Transition

/-- The assertions of the two loops. -/
inductive Assertion where
  | status
  | dataLen
  | wlen
  | ack
  | rLen
  deriving DecidableEq

inductive Phase where
  /-- In `writeAll` or `readAll`. -/
  | message
  /-- At the `read` or `write` of the acknowledgement. -/
  | ack
  | finished
  | aborted (assertion : Assertion)
  deriving DecidableEq

/-- A message loop and its counter. -/
structure Loop where
  i : Nat
  phase : Phase
  deriving DecidableEq

/-- At `i < number`. -/
def Loop.test (number i : Nat) : Loop := ⟨i, if i < number then .message else .finished⟩

/-- The client's message, and the session message both sides go by. -/
structure Ttcp where
  message : Bytes
  length : Nat
  number : Nat

/-- `acks` is the way back, `received` what the calls of `readAll` have left in `message`. -/
structure Session where
  client : Loop
  pipe : Pipe
  server : Loop
  acks : Bytes
  received : List Bytes

/-- `message->length` -/
def lengthOf (message : Bytes) : Bytes := message.take 4

def ntohl (word : Bytes) : Nat := word.foldl (fun n b => 256 * n + b.toNat) 0

/-- A system call of the client or of the server, and what it returns. -/
inductive Action where
  | write (wlen : Nat)
  | readAck (rLen : Nat)
  | read (rlen : Nat)
  | writeAck (wlen : Nat)
  deriving DecidableEq

theorem Loop.test_message (number i : Nat) (h : i < number) :
    Loop.test number i = ⟨i, .message⟩ := by rw [Loop.test, if_pos h]

theorem Loop.test_finished (number i : Nat) (h : ¬ i < number) :
    Loop.test number i = ⟨i, .finished⟩ := by rw [Loop.test, if_neg h]

namespace Ttcp

variable (c : Ttcp)

/-- `buf` is what `malloc` has given the server. -/
def start (buf : Bytes) : Session where
  client := .test c.number 0
  pipe := .start c.message buf
  server := .test c.number 0
  acks := []
  received := []

/-- The client after `write` in `writeAll`. -/
def written (s : Session) (pipe : Pipe) : Session :=
  match pipe.writer.status with
  | none => { s with pipe := pipe }
  | some status =>
    let phase := if status = 0 then .ack else .aborted .status
    { s with pipe := pipe, client := { s.client with phase := phase } }

/-- The client after its `read`; `ack` was 0 before. -/
def acked (s : Session) (rLen : Nat) : Option Session :=
  let ack := s.acks.take rLen ++ List.replicate (4 - rLen) 0
  let s := { s with acks := s.acks.drop rLen }
  if lengthOf c.message ≠ ack then
    some { s with client := { s.client with phase := .aborted .ack } }
  else if rLen ≠ 4 then
    some { s with client := { s.client with phase := .aborted .rLen } }
  else
    (incr s.client.i).map fun i =>
      let client := Loop.test c.number i
      if client.phase = .message then
        { s with
          client := client
          pipe := { s.pipe with writer := .call c.message c.message.length } }
      else { s with client := client }

/-- The server after `read` in `readAll`. -/
def read (s : Session) (pipe : Pipe) : Session :=
  match pipe.reader.status with
  | none => { s with pipe := pipe }
  | some status =>
    let message := pipe.reader.buff
    let phase :=
      if status ≠ 0 then .aborted .status
      else if ntohl (lengthOf message) ≠ c.length then .aborted .dataLen
      else .ack
    { s with
      pipe := pipe
      server := { s.server with phase := phase }
      received := s.received ++ [message] }

/-- The server after its `write`. -/
def answered (s : Session) (wlen : Nat) : Session :=
  let s := { s with acks := s.acks ++ (lengthOf s.pipe.reader.buff).take wlen }
  if wlen ≠ 4 then { s with server := { s.server with phase := .aborted .wlen } }
  else
    let server := Loop.test c.number (s.server.i + 1)
    if server.phase = .message then
      { s with
        server := server
        pipe := { s.pipe with reader := .call s.pipe.reader.buff c.message.length } }
    else { s with server := server }

def step (s : Session) : Action → Option Session
  | .write wlen =>
    if s.client.phase = .message then (s.pipe.step (.write wlen)).map (written s) else none
  | .readAck rLen =>
    if s.client.phase = .ack ∧ 1 ≤ rLen ∧ rLen ≤ 4 ∧ rLen ≤ s.acks.length then c.acked s rLen
    else none
  | .read rlen =>
    if s.server.phase = .message then (s.pipe.step (.read rlen)).map (c.read s) else none
  | .writeAck wlen =>
    if s.server.phase = .ack ∧ 1 ≤ wlen ∧ wlen ≤ 4 then some (c.answered s wlen) else none

end Ttcp

open Ttcp Transfer Pipe

/-! ### The rounds -/

/-- Both sides are in the round `i`, in which the server has not acknowledged. -/
structure Same (c : Ttcp) (s : Session) : Prop where
  i : s.server.i = s.client.i
  between : ∃ buf : Bytes, buf.length = c.message.length ∧ Between c.message buf s.pipe
  later : s.pipe.later = []
  client : s.client.phase = .message ↔ s.pipe.writer.status = none
  server : s.server.phase = .message ↔ s.pipe.reader.status = none
  clientOn : s.client.phase ≠ .finished ∧ s.client.phase ≠ .aborted .status
  serverOn : s.server.phase ≠ .finished ∧ s.server.phase ≠ .aborted .status
  acks : s.acks = [] ∨ s.server.phase = .aborted .wlen ∧ s.acks.length < 4
  received : s.received = List.replicate
    (s.client.i + if s.server.phase = .message then 0 else 1) c.message

/-- The server has acknowledged the client's round. -/
structure Ahead (c : Ttcp) (s : Session) : Prop where
  i : s.server.i = s.client.i + 1
  buff : s.pipe.reader.buff = c.message
  wire : s.pipe.wire = []
  later : s.pipe.later = []
  client : s.client.phase ≠ .message
  clientOn : s.client.phase ≠ .finished ∧ s.client.phase ≠ .aborted .status
  server : s.server = .test c.number s.server.i
  reader : s.server.phase = .message → s.pipe.reader = .call c.message c.message.length
  acks : s.acks.length ≤ 4
  received : s.received = List.replicate s.server.i c.message

/-- Both loops are over. -/
structure Ended (c : Ttcp) (s : Session) : Prop where
  i : s.server.i = s.client.i
  wire : s.pipe.wire = []
  client : s.client.phase = .finished
  server : s.server.phase = .finished
  received : s.received = List.replicate s.server.i c.message

inductive Rounds (c : Ttcp) (s : Session) : Prop
  | same (h : Same c s)
  | ahead (h : Ahead c s)
  | ended (h : Ended c s)

variable {c : Ttcp} {s s' : Session} {a : Action} {buf : Bytes} {n : Nat}

theorem same_call (hlen : 1 ≤ c.message.length) (hbuf : buf.length = c.message.length) (i : Nat) :
    Same c { client := ⟨i, .message⟩
             pipe := .start c.message buf
             server := ⟨i, .message⟩
             acks := []
             received := List.replicate i c.message } where
  i := rfl
  between := ⟨buf, hbuf, between_start hlen⟩
  later := rfl
  client := iff_of_true rfl rfl
  server := iff_of_true rfl rfl
  clientOn := ⟨nofun, nofun⟩
  serverOn := ⟨nofun, nofun⟩
  acks := .inl rfl
  received := rfl

theorem rounds_start (hlen : 1 ≤ c.message.length) (hbuf : buf.length = c.message.length) :
    Rounds c (c.start buf) := by
  unfold Ttcp.start
  by_cases hn : 0 < c.number
  · rw [Loop.test_message _ _ hn]
    exact .same (same_call hlen hbuf 0)
  · rw [Loop.test_finished _ _ hn]
    exact .ended ⟨rfl, rfl, rfl, rfl, rfl⟩

/-! ### A step of a round -/

theorem Same.written (h : Same c s) {pipe : Pipe} (hphase : s.client.phase = .message)
    (hs : s.pipe.step (.write n) = some pipe) : Same c (Ttcp.written s pipe) := by
  obtain ⟨buf, hbuf, hbetween⟩ := h.between
  have hbetween' : Between c.message buf pipe := hbetween.step hs
  obtain ⟨hreader, hlater⟩ := step_write hs
  have hserver : s.server.phase = .message ↔ pipe.reader.status = none := by
    rw [hreader]
    exact h.server
  unfold Ttcp.written
  cases hstatus : pipe.writer.status with
  | none =>
    exact { h with
      between := ⟨buf, hbuf, hbetween'⟩
      later := hlater.trans h.later
      client := iff_of_true hphase hstatus
      server := hserver }
  | some status =>
    have hreturned := hbetween'.writer.returned (by simp [hstatus])
    obtain rfl : status = 0 := Option.some.inj (hstatus.symm.trans hreturned.1)
    exact { h with
      between := ⟨buf, hbuf, hbetween'⟩
      later := hlater.trans h.later
      client := iff_of_false nofun (by simp [hstatus])
      server := hserver
      clientOn := ⟨nofun, nofun⟩ }

theorem Same.read (h : Same c s) {pipe : Pipe} (hphase : s.server.phase = .message)
    (hs : s.pipe.step (.read n) = some pipe) : Same c (c.read s pipe) := by
  obtain ⟨buf, hbuf, hbetween⟩ := h.between
  have hbetween' : Between c.message buf pipe := hbetween.step hs
  obtain ⟨hwriter, hlater, -⟩ := step_read hs
  have hclient : s.client.phase = .message ↔ pipe.writer.status = none := by
    rw [hwriter]
    exact h.client
  have hacks : s.acks = [] := h.acks.resolve_right fun hab => by simp [hphase] at hab
  have hreceived := h.received
  rw [if_pos hphase, Nat.add_zero] at hreceived
  unfold Ttcp.read
  cases hstatus : pipe.reader.status with
  | none =>
    exact { h with
      between := ⟨buf, hbuf, hbetween'⟩
      later := hlater.trans h.later
      client := hclient
      server := iff_of_true hphase hstatus }
  | some status =>
    obtain ⟨hzero, hbuff, -⟩ := hbetween'.reader_returned hbuf (by simp [hstatus])
    obtain rfl : status = 0 := Option.some.inj (hstatus.symm.trans hzero)
    -- the message is the client's, and then it may still have the wrong length in it
    simp only [ne_eq, not_true_eq_false, if_false, hbuff]
    have hsame : ∀ phase : Phase, phase ≠ .message → phase ≠ .finished →
        phase ≠ .aborted .status → Same c { s with
          pipe := pipe
          server := { s.server with phase := phase }
          received := s.received ++ [c.message] } := by
      intro phase hmessage hfinished haborted
      refine { h with
        between := ⟨buf, hbuf, hbetween'⟩
        later := hlater.trans h.later
        client := hclient
        server := iff_of_false hmessage (by simp [hstatus])
        serverOn := ⟨hfinished, haborted⟩
        acks := .inl hacks
        received := ?_ }
      rw [if_neg hmessage, List.replicate_succ', hreceived]
    split
    · exact hsame _ nofun nofun nofun
    · exact hsame _ nofun nofun nofun

/-- After `readAll` the client's call has returned too, and the wire is empty. -/
theorem Same.readAll_returned (h : Same c s) (hphase : s.server.phase ≠ .message) :
    s.pipe.reader.buff = c.message ∧ s.pipe.wire = [] ∧ s.client.phase ≠ .message := by
  obtain ⟨buf, hbuf, hbetween⟩ := h.between
  have hstatus : s.pipe.reader.status ≠ none := fun hs => hphase (h.server.2 hs)
  obtain ⟨-, hbuff, hwire, hwriter⟩ := hbetween.reader_returned hbuf hstatus
  refine ⟨hbuff, hwire.trans h.later, fun hclient => ?_⟩
  rw [h.client.1 hclient] at hwriter
  cases hwriter

theorem Same.answered (h : Same c s) (hphase : s.server.phase = .ack) (hn : n ≤ 4) :
    Rounds c (c.answered s n) := by
  have hne : s.server.phase ≠ .message := by simp [hphase]
  obtain ⟨hbuff, hwire, hclient⟩ := h.readAll_returned hne
  have hacks : s.acks = [] := h.acks.resolve_right fun hab => by simp [hphase] at hab
  have hreceived := h.received
  rw [if_neg hne, ← h.i] at hreceived
  have hlength : (lengthOf c.message).length ≤ 4 := List.length_take_le _ _
  unfold Ttcp.answered
  rw [hacks, hbuff, List.nil_append]
  by_cases hfour : n ≠ 4
  · rw [if_pos hfour]
    refine .same { h with
      server := iff_of_false nofun fun hs => hne (h.server.2 hs)
      serverOn := ⟨nofun, nofun⟩
      acks := .inr ⟨rfl, ?_⟩
      received := ?_ }
    · rw [List.length_take]
      omega
    · rw [if_neg nofun, ← h.i]
      exact hreceived
  · have hack : (lengthOf c.message).take n = lengthOf c.message :=
      List.take_of_length_le (by omega)
    rw [if_neg hfour, hack]
    by_cases hi : s.server.i + 1 < c.number
    · rw [Loop.test_message _ _ hi]
      exact .ahead {
        i := congrArg (· + 1) h.i
        buff := hbuff
        wire := hwire
        later := h.later
        client := hclient
        clientOn := h.clientOn
        server := (Loop.test_message _ _ hi).symm
        reader := fun _ => congrArg (call · c.message.length) hbuff
        acks := hlength
        received := hreceived }
    · rw [Loop.test_finished _ _ hi]
      exact .ahead {
        i := congrArg (· + 1) h.i
        buff := hbuff
        wire := hwire
        later := h.later
        client := hclient
        clientOn := h.clientOn
        server := (Loop.test_finished _ _ hi).symm
        reader := nofun
        acks := hlength
        received := hreceived }

/-! ### The acknowledgement -/

/-- The client goes into the next round only with a whole acknowledgement. -/
theorem acked_spec (hs : c.acked s n = some s') :
    (∃ assertion, assertion ≠ .status ∧ s' = { s with
      acks := s.acks.drop n
      client := { s.client with phase := .aborted assertion } }) ∨
    n = 4 ∧ s' = { s with
      acks := s.acks.drop n
      client := .test c.number (s.client.i + 1)
      pipe := if s.client.i + 1 < c.number then
          { s.pipe with writer := .call c.message c.message.length }
        else s.pipe } := by
  unfold Ttcp.acked at hs
  simp only at hs
  by_cases hack : lengthOf c.message ≠ s.acks.take n ++ List.replicate (4 - n) 0
  · rw [if_pos hack, Option.some.injEq] at hs
    exact .inl ⟨.ack, nofun, hs.symm⟩
  · rw [if_neg hack] at hs
    by_cases hn : n ≠ 4
    · rw [if_pos hn, Option.some.injEq] at hs
      exact .inl ⟨.rLen, nofun, hs.symm⟩
    · rw [if_neg hn, Option.map_eq_some_iff] at hs
      obtain ⟨i, hi, hs⟩ := hs
      simp only [incr, Option.ite_none_right_eq_some, Option.some.injEq] at hi
      obtain ⟨-, rfl⟩ := hi
      refine .inr ⟨not_not.1 hn, ?_⟩
      by_cases hnext : s.client.i + 1 < c.number
      · rw [Loop.test_message _ _ hnext, if_pos rfl] at hs
        rw [Loop.test_message _ _ hnext, if_pos hnext, hs]
      · rw [Loop.test_finished _ _ hnext, if_neg nofun] at hs
        rw [Loop.test_finished _ _ hnext, if_neg hnext, hs]

/-- A short acknowledgement ends the session. -/
theorem Same.acked (h : Same c s) (hphase : s.client.phase = .ack) (hpos : 1 ≤ n)
    (hn : n ≤ s.acks.length) (hs : c.acked s n = some s') : Same c s' := by
  obtain ⟨hwlen, hshort⟩ : s.server.phase = .aborted .wlen ∧ s.acks.length < 4 := by
    refine h.acks.resolve_left fun hnil => ?_
    rw [hnil, List.length_nil] at hn
    omega
  obtain ⟨assertion, hne, rfl⟩ | ⟨rfl, -⟩ := acked_spec hs
  · refine { h with
      client := iff_of_false nofun fun hw => ?_
      clientOn := ⟨nofun, fun hab => hne (Phase.aborted.inj hab)⟩
      acks := .inr ⟨hwlen, ?_⟩ }
    · rw [← h.client, hphase] at hw
      cases hw
    · rw [List.length_drop]
      omega
  · omega

theorem Ahead.acked (h : Ahead c s) (hlen : 1 ≤ c.message.length) (hs : c.acked s n = some s') :
    Rounds c s' := by
  obtain ⟨assertion, hne, rfl⟩ | ⟨rfl, rfl⟩ := acked_spec hs
  · refine .ahead { h with
      client := nofun
      clientOn := ⟨nofun, fun hab => hne (Phase.aborted.inj hab)⟩
      acks := ?_ }
    rw [List.length_drop]
    exact Nat.le_trans (Nat.sub_le _ _) h.acks
  · have hacks : s.acks.drop 4 = [] := List.drop_eq_nil_of_le h.acks
    have hserver := h.server
    rw [hacks, ← h.i]
    by_cases hi : s.server.i < c.number
    · have hloop : s.server = ⟨s.server.i, .message⟩ := h.server.trans (Loop.test_message _ _ hi)
      have hpipe : { s.pipe with writer := call c.message c.message.length } =
          Pipe.start c.message c.message := by
        show Pipe.mk _ s.pipe.wire s.pipe.later s.pipe.reader = _
        rw [h.wire, h.later, h.reader (by rw [hloop])]
        rfl
      rw [Loop.test_message _ _ hi, if_pos hi, hpipe, h.received, hloop]
      exact .same (same_call hlen rfl s.server.i)
    · have hloop : s.server = ⟨s.server.i, .finished⟩ := h.server.trans (Loop.test_finished _ _ hi)
      rw [Loop.test_finished _ _ hi, if_neg hi]
      exact .ended ⟨rfl, h.wire, rfl, by rw [hloop], h.received⟩

/-! ### Runs -/

theorem Rounds.step (h : Rounds c s) (hlen : 1 ≤ c.message.length) (hs : c.step s a = some s') :
    Rounds c s' := by
  cases a with
  | write wlen =>
    simp only [Ttcp.step, Option.ite_none_right_eq_some, Option.map_eq_some_iff] at hs
    obtain ⟨hphase, pipe, hpipe, rfl⟩ := hs
    cases h with
    | same h => exact .same (h.written hphase hpipe)
    | ahead h => exact absurd hphase h.client
    | ended h => simp [h.client] at hphase
  | readAck rLen =>
    simp only [Ttcp.step, Option.ite_none_right_eq_some] at hs
    obtain ⟨⟨hphase, hpos, -, hn⟩, hs⟩ := hs
    cases h with
    | same h => exact .same (h.acked hphase hpos hn hs)
    | ahead h => exact h.acked hlen hs
    | ended h => simp [h.client] at hphase
  | read rlen =>
    simp only [Ttcp.step, Option.ite_none_right_eq_some, Option.map_eq_some_iff] at hs
    obtain ⟨hphase, pipe, hpipe, rfl⟩ := hs
    cases h with
    | same h => exact .same (h.read hphase hpipe)
    | ahead h => exact absurd h.wire (step_read hpipe).2.2
    | ended h => simp [h.server] at hphase
  | writeAck wlen =>
    simp only [Ttcp.step, Option.ite_none_right_eq_some, Option.some.injEq] at hs
    obtain ⟨⟨hphase, -, hn⟩, rfl⟩ := hs
    cases h with
    | same h => exact h.answered hphase hn
    | ahead h =>
      rw [h.server, Loop.test] at hphase
      split at hphase <;> cases hphase
    | ended h => simp [h.server] at hphase

/-- The server has one copy of the client's message for each round it has read, no transfer has
failed, and the wire holds nothing but the rest of the message that is being read. -/
structure InStep (c : Ttcp) (s : Session) : Prop where
  received : s.received = List.replicate s.received.length c.message
  rounds : s.client.i ≤ s.received.length ∧ s.received.length ≤ s.client.i + 1
  client : s.client.phase ≠ .aborted .status
  server : s.server.phase ≠ .aborted .status
  reading : s.server.phase = .message → s.pipe.wire <+: c.message.drop s.pipe.reader.start
  between : s.server.phase ≠ .message → s.pipe.wire = []

theorem Same.inStep (h : Same c s) : InStep c s := by
  have hlength := congrArg List.length h.received
  rw [List.length_replicate] at hlength
  refine ⟨?_, ?_, h.clientOn.2, h.serverOn.2, fun _ => ?_,
    fun hphase => (h.readAll_returned hphase).2.1⟩
  · rw [hlength]
    exact h.received
  · split at hlength <;> omega
  · obtain ⟨buf, -, hbetween⟩ := h.between
    have hwire := hbetween.wire
    have hprefix : (c.message.take s.pipe.reader.start).length = s.pipe.reader.start :=
      List.length_take_of_le hbetween.reader.start_le
    rw [h.later, List.append_nil] at hwire
    have hdrop : (c.message.take s.pipe.writer.start).drop s.pipe.reader.start = s.pipe.wire := by
      rw [hwire, List.drop_left' hprefix]
    rw [← hdrop]
    exact (List.take_prefix _ _).drop _

/-- Between two messages. -/
theorem InStep.of_quiet (hreceived : s.received = List.replicate s.server.i c.message)
    (hi : s.client.i ≤ s.server.i ∧ s.server.i ≤ s.client.i + 1) (hwire : s.pipe.wire = [])
    (hclient : s.client.phase ≠ .aborted .status) (hserver : s.server.phase ≠ .aborted .status) :
    InStep c s := by
  have hlength : s.received.length = s.server.i := by rw [hreceived, List.length_replicate]
  refine ⟨?_, ?_, hclient, hserver, fun _ => ?_, fun _ => hwire⟩
  · rw [hlength]
    exact hreceived
  · rw [hlength]
    exact hi
  · rw [hwire]
    exact List.nil_prefix

theorem Rounds.inStep (h : Rounds c s) : InStep c s := by
  cases h with
  | same h => exact h.inStep
  | ahead h =>
    have hi := h.i
    refine .of_quiet h.received (by omega) h.wire h.clientOn.2 ?_
    rw [h.server, Loop.test]
    split <;> nofun
  | ended h =>
    have hi := h.i
    exact .of_quiet h.received (by omega) h.wire (by simp [h.client]) (by simp [h.server])

/-- A message of any length goes over a connection whole, however `write` and `read` cut it up and
in whatever order they are called, and `readAll` leaves what comes after it; and the messages of a
session stay in step. -/
theorem transfer_exact (message buf : Bytes) (hlen : 1 ≤ message.length)
    (hbuf : buf.length = message.length) :
    (∀ (as : List Syscall) (s : Pipe), exec Pipe.step (Pipe.start message buf) as = some s →
      Exact message as s) ∧
    ∀ (length number : Nat) (as : List Action) (s : Session),
      exec (Ttcp.step ⟨message, length, number⟩) (Ttcp.start ⟨message, length, number⟩ buf) as =
          some s → InStep ⟨message, length, number⟩ s := by
  refine ⟨fun as s hr => exact_of_exec hlen hbuf hr, fun length number as s hr => ?_⟩
  have hrounds : Rounds ⟨message, length, number⟩ s :=
    invariant (fun _ _ _ h hs => h.step hlen hs) (rounds_start hlen hbuf) hr
  exact hrounds.inStep

/-- Five bytes in two writes and two reads, and one more. -/
def cutRun : List Syscall := [.write 2, .read 1, .write 3, .send [9], .read 4]

/-- A round, and the second message on its way. -/
def roundRun : List Action :=
  [.write 2, .read 1, .write 3, .read 4, .writeAck 4, .readAck 4, .write 3, .read 2]

theorem transfer_exact_cut :
    (∃ s : Pipe, exec Pipe.step (Pipe.start [0, 0, 0, 1, 7] [0, 0, 0, 0, 0]) cutRun = some s ∧
      s.reader.status = some 0 ∧ Exact [0, 0, 0, 1, 7] cutRun s) ∧
    ∃ s : Session, exec (Ttcp.step ⟨[0, 0, 0, 1, 7], 1, 3⟩)
        (Ttcp.start ⟨[0, 0, 0, 1, 7], 1, 3⟩ [0, 0, 0, 0, 0]) roundRun = some s ∧
      s.client = ⟨1, .message⟩ ∧ s.pipe.wire = [0] ∧ InStep ⟨[0, 0, 0, 1, 7], 1, 3⟩ s := by
  obtain ⟨hpipe, hsession⟩ :=
    transfer_exact [0, 0, 0, 1, 7] [0, 0, 0, 0, 0] (by decide) rfl
  have hcut : (exec Pipe.step (Pipe.start [0, 0, 0, 1, 7] [0, 0, 0, 0, 0]) cutRun).map
      (·.reader.status) = some (some 0) := by decide
  have hround : (exec (Ttcp.step ⟨[0, 0, 0, 1, 7], 1, 3⟩)
      (Ttcp.start ⟨[0, 0, 0, 1, 7], 1, 3⟩ [0, 0, 0, 0, 0]) roundRun).map
        (fun s => (s.client, s.pipe.wire)) = some (⟨1, .message⟩, [0]) := by decide
  obtain ⟨s, hs, hstatus⟩ := Option.map_eq_some_iff.1 hcut
  obtain ⟨u, hu, hobs⟩ := Option.map_eq_some_iff.1 hround
  obtain ⟨hclient, hwire⟩ := Prod.mk.inj hobs
  exact ⟨⟨s, hs, hstatus, hpipe cutRun s hs⟩, u, hu, hclient, hwire, hsession 1 3 roundRun u hu⟩

end LittleLearning.Net
