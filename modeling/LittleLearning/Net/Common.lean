import LittleLearning.Lib.Cxx
import LittleLearning.Lib.Exec

/-!
# Whole messages over a connection

`writeAll` and `readAll` call `write` and `read` until every byte of the buffer has
gone through. A `Pipe` is one direction of a connection with a call of each in
progress; its steps are the system calls, each for as many bytes as it likes, in
any order. The bytes on the wire are those between the two calls (`Between`).
-/

namespace LittleLearning.Net

open Cxx Transition

/-- A call of `readAll` or `writeAll`, at the next `read` or `write`. `status` is what it has
returned. -/
structure Transfer where
  buff : Bytes
  start : Nat
  totalLen : Nat
  status : Option Int
  deriving DecidableEq

namespace Transfer

def call (buf : Bytes) (len : Nat) : Transfer := ⟨buf, 0, len, none⟩

/-- The rest of a round once `read` or `write` has returned, `none` for -1. The counters wrap then,
but are not read again. -/
def advance (t : Transfer) : Option Nat → Transfer
  | none => { t with status := some (-1) }
  | some n =>
    { t with
      start := t.start + n
      totalLen := t.totalLen - n
      status := if 0 < t.totalLen - n then none else some 0 }

/-- What `write` is offered. -/
def offered (t : Transfer) : Bytes := (t.buff.drop t.start).take t.totalLen

/-- A round of `writeAll`, and the bytes that `write` has taken. -/
def writeAll (t : Transfer) (wlen : Option Nat) : Transfer × Bytes :=
  (t.advance wlen, t.offered.take (wlen.getD 0))

/-- `read` puts what it returns at `buff + start`. -/
def put (t : Transfer) (data : Bytes) : Transfer :=
  { t with buff := t.buff.take t.start ++ data ++ t.buff.drop (t.start + data.length) }

/-- A round of `readAll`; `read` returns no bytes at the end of the stream. -/
def readAll (t : Transfer) : Option Bytes → Transfer
  | none => t.advance none
  | some data => (t.put data).advance (some data.length)

end Transfer

/-- One direction of a connection. `later` is what the sender has put there after the message. -/
structure Pipe where
  writer : Transfer
  wire : Bytes
  later : Bytes
  reader : Transfer
  deriving DecidableEq

inductive Syscall where
  | write (wlen : Nat)
  | read (rlen : Nat)
  | send (data : Bytes)
  deriving DecidableEq

namespace Pipe

/-- `writeAll` and `readAll` are called. -/
def start (message buf : Bytes) : Pipe where
  writer := .call message message.length
  wire := []
  later := []
  reader := .call buf message.length

/-- `write` takes and `read` returns at least a byte and at most what is asked; `read` waits for
it. -/
def step (s : Pipe) : Syscall → Option Pipe
  | .write wlen =>
    if s.writer.status = none ∧ 1 ≤ wlen ∧ wlen ≤ s.writer.totalLen then
      let (writer, data) := s.writer.writeAll (some wlen)
      some { s with writer := writer, wire := s.wire ++ data }
    else none
  | .read rlen =>
    if s.reader.status = none ∧ 1 ≤ rlen ∧ rlen ≤ s.reader.totalLen ∧ rlen ≤ s.wire.length then
      some { s with
        reader := s.reader.readAll (some (s.wire.take rlen)), wire := s.wire.drop rlen }
    else none
  | .send data =>
    if s.writer.status = none then none
    else some { s with wire := s.wire ++ data, later := s.later ++ data }

end Pipe

def Syscall.isTransfer : Syscall → Bool
  | .send _ => false
  | _ => true

/-! ### The counters -/

/-- The counters of a call that has not failed. -/
structure Transfer.Counted (len : Nat) (t : Transfer) : Prop where
  sum : t.start + t.totalLen = len
  status : t.status = if 0 < t.totalLen then none else some 0

namespace Transfer

variable {len n : Nat} {t : Transfer} {buf : Bytes}

theorem counted_call (h : 1 ≤ len) : Counted len (call buf len) :=
  ⟨Nat.zero_add len, (if_pos h).symm⟩

theorem Counted.advance (h : Counted len t) (hn : n ≤ t.totalLen) :
    Counted len (t.advance (some n)) := by
  refine ⟨?_, rfl⟩
  have hsum := h.sum
  show t.start + n + (t.totalLen - n) = len
  omega

theorem Counted.status_none (h : Counted len t) : t.status = none ↔ t.start < len := by
  have hsum := h.sum
  rw [h.status]
  split
  · exact iff_of_true rfl (by omega)
  · exact iff_of_false nofun (by omega)

theorem Counted.returned (h : Counted len t) (hs : t.status ≠ none) :
    t.status = some 0 ∧ t.start = len := by
  have hsum := h.sum
  rw [h.status] at hs ⊢
  split at hs
  · exact absurd rfl hs
  · rename_i hzero
    exact ⟨if_neg hzero, by omega⟩

theorem Counted.start_le (h : Counted len t) : t.start ≤ len := by
  have hsum := h.sum
  omega

end Transfer

namespace Pipe

open Transfer

/-! ### What is on the wire -/

/-- The message has been written up to one place and read up to another, and the wire holds what is
between them. -/
structure Between (message buf : Bytes) (s : Pipe) : Prop where
  writer : Counted message.length s.writer
  reader : Counted message.length s.reader
  sent : s.writer.buff = message
  received : s.reader.buff = message.take s.reader.start ++ buf.drop s.reader.start
  wire : message.take s.writer.start ++ s.later = message.take s.reader.start ++ s.wire
  later : s.writer.status = none → s.later = []

variable {message buf data : Bytes} {s s' : Pipe} {n : Nat} {a : Syscall} {as : List Syscall}

theorem between_start (h : 1 ≤ message.length) : Between message buf (start message buf) where
  writer := counted_call h
  reader := counted_call h
  sent := rfl
  received := rfl
  wire := rfl
  later _ := rfl

theorem Between.length (h : Between message buf s) :
    s.writer.start + s.later.length = s.reader.start + s.wire.length := by
  have hwire := congrArg List.length h.wire
  have hwriter := h.writer.start_le
  have hreader := h.reader.start_le
  simp only [List.length_append, List.length_take] at hwire
  omega

/-- The next bytes on the wire are the next ones of the message. -/
theorem Between.take_wire (h : Between message buf s) (hn : n ≤ s.reader.totalLen)
    (hwire : n ≤ s.wire.length) :
    message.take (s.reader.start + n) = message.take s.reader.start ++ s.wire.take n := by
  have hlength := h.length
  have hsum := h.reader.sum
  have hreader := h.reader.start_le
  -- what is read of the message has been written
  have hle : s.reader.start + n ≤ s.writer.start := by
    by_cases hs : s.writer.status = none
    · rw [h.later hs, List.length_nil] at hlength
      omega
    · rw [(h.writer.returned hs).2]
      omega
  have hwriter : (message.take s.writer.start).length = s.writer.start :=
    List.length_take_of_le h.writer.start_le
  have hlen : (message.take s.reader.start).length = s.reader.start :=
    List.length_take_of_le hreader
  calc message.take (s.reader.start + n)
      = (message.take s.writer.start ++ s.later).take (s.reader.start + n) := by
        rw [List.take_append_of_le_length (by omega), List.take_take, Nat.min_eq_left hle]
    _ = (message.take s.reader.start ++ s.wire).take (s.reader.start + n) := by rw [h.wire]
    _ = message.take s.reader.start ++ s.wire.take n := by
        rw [List.take_append, List.take_of_length_le (by omega), hlen, Nat.add_sub_cancel_left]

theorem Between.write (h : Between message buf s) (hs : s.writer.status = none)
    (hn : n ≤ s.writer.totalLen) :
    Between message buf { s with
      writer := (s.writer.writeAll (some n)).1
      wire := s.wire ++ (s.writer.writeAll (some n)).2 } where
  writer := h.writer.advance hn
  reader := h.reader
  sent := h.sent
  received := h.received
  wire := by
    have hdata : (s.writer.writeAll (some n)).2 = (message.drop s.writer.start).take n := by
      show ((s.writer.buff.drop s.writer.start).take s.writer.totalLen).take n = _
      rw [h.sent, List.take_take, Nat.min_eq_left hn]
    have hwire := h.wire
    rw [h.later hs, List.append_nil] at hwire
    show message.take (s.writer.start + n) ++ s.later = _
    rw [h.later hs, List.append_nil, List.take_add, hwire, hdata, List.append_assoc]
  later _ := h.later hs

theorem Between.read (h : Between message buf s) (hn : n ≤ s.reader.totalLen)
    (hwire : n ≤ s.wire.length) :
    Between message buf { s with
      reader := s.reader.readAll (some (s.wire.take n))
      wire := s.wire.drop n } where
  writer := h.writer
  reader := by
    have hlen : (s.wire.take n).length = n := List.length_take_of_le hwire
    have hput : Counted message.length (s.reader.put (s.wire.take n)) :=
      ⟨h.reader.sum, h.reader.status⟩
    exact hput.advance (by rw [hlen]; exact hn)
  sent := h.sent
  received := by
    have hlen : (s.wire.take n).length = n := List.length_take_of_le hwire
    have hprefix : (message.take s.reader.start).length = s.reader.start :=
      List.length_take_of_le h.reader.start_le
    show s.reader.buff.take s.reader.start ++ s.wire.take n ++
      s.reader.buff.drop (s.reader.start + (s.wire.take n).length) =
        message.take (s.reader.start + (s.wire.take n).length) ++
          buf.drop (s.reader.start + (s.wire.take n).length)
    rw [hlen, h.take_wire hn hwire, h.received, List.take_left' hprefix, List.drop_append,
      List.drop_of_length_le (by omega), hprefix, List.nil_append, List.drop_drop,
      Nat.add_sub_cancel_left]
  wire := by
    have hlen : (s.wire.take n).length = n := List.length_take_of_le hwire
    show message.take s.writer.start ++ s.later =
      message.take (s.reader.start + (s.wire.take n).length) ++ s.wire.drop n
    rw [hlen, h.take_wire hn hwire, List.append_assoc, List.take_append_drop]
    exact h.wire
  later := h.later

theorem Between.send (h : Between message buf s) (hs : s.writer.status ≠ none) :
    Between message buf { s with wire := s.wire ++ data, later := s.later ++ data } where
  writer := h.writer
  reader := h.reader
  sent := h.sent
  received := h.received
  wire := by
    show message.take s.writer.start ++ (s.later ++ data) =
      message.take s.reader.start ++ (s.wire ++ data)
    rw [← List.append_assoc, h.wire, List.append_assoc]
  later hs' := absurd hs' hs

theorem Between.step (h : Between message buf s) (hs : s.step a = some s') :
    Between message buf s' := by
  cases a with
  | write wlen =>
    simp only [Pipe.step, Option.ite_none_right_eq_some, Option.some.injEq] at hs
    obtain ⟨⟨hs, -, hn⟩, rfl⟩ := hs
    exact h.write hs hn
  | read rlen =>
    simp only [Pipe.step, Option.ite_none_right_eq_some, Option.some.injEq] at hs
    obtain ⟨⟨-, -, hn, hwire⟩, rfl⟩ := hs
    exact h.read hn hwire
  | send data =>
    simp only [Pipe.step, Option.ite_none_left_eq_some, Option.some.injEq] at hs
    obtain ⟨hs, rfl⟩ := hs
    exact h.send hs

/-! ### Both calls return -/

/-- Every `read` and `write` takes one of the calls on. -/
theorem step_remaining (hs : s.step a = some s') :
    [a].countP Syscall.isTransfer + (s'.writer.totalLen + s'.reader.totalLen) ≤
      s.writer.totalLen + s.reader.totalLen := by
  cases a with
  | write wlen =>
    simp only [step, Option.ite_none_right_eq_some, Option.some.injEq] at hs
    obtain ⟨⟨-, hpos, hn⟩, rfl⟩ := hs
    show 1 + (s.writer.totalLen - wlen + s.reader.totalLen) ≤ _
    omega
  | read rlen =>
    simp only [step, Option.ite_none_right_eq_some, Option.some.injEq] at hs
    obtain ⟨⟨-, hpos, hn, hwire⟩, rfl⟩ := hs
    show 1 + (s.writer.totalLen + (s.reader.totalLen - (s.wire.take rlen).length)) ≤ _
    rw [List.length_take_of_le hwire]
    omega
  | send data =>
    simp only [step, Option.ite_none_left_eq_some, Option.some.injEq] at hs
    obtain ⟨-, rfl⟩ := hs
    exact Nat.le_of_eq (Nat.zero_add _)

theorem exec_remaining (hr : exec step s as = some s') :
    as.countP Syscall.isTransfer + (s'.writer.totalLen + s'.reader.totalLen) ≤
      s.writer.totalLen + s.reader.totalLen :=
  countP_le_of_exec (μ := fun s => s.writer.totalLen + s.reader.totalLen) (I := fun _ => True)
    (fun _ _ _ _ hs => ⟨trivial, step_remaining hs⟩) trivial hr

/-- While a call has not returned there is something for one of them to do. -/
theorem Between.goes_on (h : Between message buf s)
    (hs : s.writer.status = none ∨ s.reader.status = none) :
    ∃ a s', a.isTransfer = true ∧ s.step a = some s' := by
  have hlength := h.length
  have hwsum := h.writer.sum
  have hrsum := h.reader.sum
  by_cases hw : s.writer.status = none
  · have hlt := h.writer.status_none.1 hw
    exact ⟨.write 1, _, rfl, if_pos ⟨hw, le_rfl, by omega⟩⟩
  · have hr : s.reader.status = none := hs.resolve_left hw
    have hlt := h.reader.status_none.1 hr
    have hdone := (h.writer.returned hw).2
    exact ⟨.read 1, _, rfl, if_pos ⟨hr, le_rfl, by omega, by omega⟩⟩

theorem Between.returns (h : Between message buf s) :
    ∃ as s', exec Pipe.step s as = some s' ∧ s'.writer.status = some 0 ∧
      s'.reader.status = some 0 := by
  induction hn : s.writer.totalLen + s.reader.totalLen using Nat.strong_induction_on
    generalizing s with
  | _ n ih =>
    by_cases hs : s.writer.status = none ∨ s.reader.status = none
    · obtain ⟨a, t, ha, ht⟩ := h.goes_on hs
      have hless := step_remaining ht
      rw [List.countP_singleton, if_pos ha] at hless
      obtain ⟨as, s', hexec, hreturned⟩ := ih _ (by omega) (h.step ht) rfl
      exact ⟨a :: as, s', exec_cons_eq_some.2 ⟨t, ht, hexec⟩, hreturned⟩
    · obtain ⟨hw, hr⟩ := not_or.1 hs
      exact ⟨[], s, rfl, (h.writer.returned hw).1, (h.reader.returned hr).1⟩

/-- When `readAll` has returned, only what came after the message is left. -/
theorem Between.reader_returned (h : Between message buf s) (hbuf : buf.length = message.length)
    (hs : s.reader.status ≠ none) :
    s.reader.status = some 0 ∧ s.reader.buff = message ∧ s.wire = s.later ∧
      s.writer.status = some 0 := by
  obtain ⟨hstatus, hstart⟩ := h.reader.returned hs
  have hlength := h.length
  have hle := h.writer.start_le
  have hw : s.writer.status ≠ none := by
    intro hw
    have hlt := h.writer.status_none.1 hw
    rw [h.later hw, List.length_nil] at hlength
    omega
  obtain ⟨hwstatus, hwstart⟩ := h.writer.returned hw
  have hwire := h.wire
  rw [hstart, hwstart, List.append_cancel_left_eq] at hwire
  refine ⟨hstatus, ?_, hwire.symm, hwstatus⟩
  rw [h.received, hstart, List.take_length, List.drop_of_length_le (Nat.le_of_eq hbuf),
    List.append_nil]

/-- A `write` is nothing to the call of `readAll`. -/
theorem step_write (hs : s.step (.write n) = some s') :
    s'.reader = s.reader ∧ s'.later = s.later := by
  simp only [step, Option.ite_none_right_eq_some, Option.some.injEq] at hs
  obtain ⟨-, rfl⟩ := hs
  exact ⟨rfl, rfl⟩

theorem step_read (hs : s.step (.read n) = some s') :
    s'.writer = s.writer ∧ s'.later = s.later ∧ s.wire ≠ [] := by
  simp only [step, Option.ite_none_right_eq_some, Option.some.injEq] at hs
  obtain ⟨⟨-, hpos, -, hwire⟩, rfl⟩ := hs
  exact ⟨rfl, rfl, List.ne_nil_of_length_pos (by omega)⟩

/-- What the calls of a run have come to: neither has failed, `readAll` has the message and has left
what is after it, and both return, after at most as many system calls as there are bytes for each
of them. -/
structure Exact (message : Bytes) (as : List Syscall) (s : Pipe) : Prop where
  writer : s.writer.status = none ∨ s.writer.status = some 0
  reader : s.reader.status = none ∨
    s.reader.status = some 0 ∧ s.reader.buff = message ∧ s.wire = s.later
  calls : as.countP Syscall.isTransfer ≤ 2 * message.length
  goes_on : s.writer.status = none ∨ s.reader.status = none →
    ∃ a s', a.isTransfer = true ∧ s.step a = some s'
  returns : ∃ bs s', exec step s bs = some s' ∧ s'.writer.status = some 0 ∧
    s'.reader.status = some 0

theorem exact_of_exec (hlen : 1 ≤ message.length) (hbuf : buf.length = message.length)
    (hr : exec step (start message buf) as = some s) : Exact message as s := by
  have h : Between message buf s := invariant (fun _ _ _ h hs => h.step hs) (between_start hlen) hr
  refine ⟨?_, ?_, ?_, h.goes_on, h.returns⟩
  · by_cases hs : s.writer.status = none
    · exact .inl hs
    · exact .inr (h.writer.returned hs).1
  · by_cases hs : s.reader.status = none
    · exact .inl hs
    · obtain ⟨hstatus, hbuff, hwire, -⟩ := h.reader_returned hbuf hs
      exact .inr ⟨hstatus, hbuff, hwire⟩
  · have hremaining := exec_remaining hr
    have hstart : (start message buf).writer.totalLen + (start message buf).reader.totalLen =
        2 * message.length := (Nat.two_mul _).symm
    omega

end Pipe

end LittleLearning.Net
