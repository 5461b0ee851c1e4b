import LittleLearning.Net.Common

/-!
# A peer that closes the connection

`read` returns no bytes once the peer has closed and everything it has sent is
read. `readAll` takes that for a short read and calls it again: it returns exactly
if the peer has sent what is asked for, and with 0 then.
-/

namespace LittleLearning.Net

open Cxx Transfer

/-- A call of `readAll`, and what the peer has sent or will send before it closes. -/
structure Incoming where
  reader : Transfer
  rest : Bytes

namespace Incoming

/-- `readAll(fd, buf, len)` on a connection that is to bring `stream`. -/
def start (buf stream : Bytes) (len : Nat) : Incoming := ⟨.call buf len, stream⟩

/-- A round in which `read` returns `cut` bytes, but at least one and at most what is asked for and
what is left. -/
def read (s : Incoming) (cut : Nat) : Incoming :=
  let data := s.rest.take (min (max 1 cut) s.reader.totalLen)
  { reader := s.reader.readAll (some data), rest := s.rest.drop data.length }

/-- After `n` rounds, as far as `readAll` makes them; `cuts` are the fragments. -/
def after (cuts : Nat → Nat) (s : Incoming) : Nat → Incoming
  | 0 => s
  | n + 1 =>
    let s := s.after cuts n
    if s.reader.status = none then s.read (cuts n) else s

end Incoming

/-- `readAll` returns after finitely many calls of `read`, with 0 if and only if the peer has sent
`len` bytes. -/
def ReturnsAtEnd (cuts : Nat → Nat) (buf stream : Bytes) (len : Nat) : Prop :=
  ∃ n status, ((Incoming.start buf stream len).after cuts n).reader.status = some status ∧
    (status = 0 ↔ len ≤ stream.length)

/-! ### The bytes received -/

namespace Incoming

/-- `start` counts the bytes that were read. -/
structure Received (stream : Bytes) (len : Nat) (s : Incoming) : Prop where
  sum : s.reader.start + s.reader.totalLen = len
  rest : s.rest = stream.drop s.reader.start
  le : s.reader.start ≤ stream.length
  status : s.reader.status = none ∨ s.reader.status = some 0 ∧ s.reader.start = len

variable {stream buf : Bytes} {len n cut : Nat} {s : Incoming} {cuts : Nat → Nat}

theorem received_start : Received stream len (start buf stream len) :=
  ⟨Nat.zero_add len, rfl, Nat.zero_le _, .inl rfl⟩

/-- How far a round gets. -/
theorem Received.advance (h : Received stream len s) (cut : Nat) :
    ∃ k, k = min (min (max 1 cut) s.reader.totalLen) (stream.length - s.reader.start) ∧
      (s.read cut).reader.start = s.reader.start + k ∧
      (s.read cut).reader.totalLen = s.reader.totalLen - k ∧
      (s.read cut).reader.status = (if 0 < s.reader.totalLen - k then none else some 0) ∧
      (s.read cut).rest = s.rest.drop k := by
  have hlen : (s.rest.take (min (max 1 cut) s.reader.totalLen)).length =
      min (min (max 1 cut) s.reader.totalLen) (stream.length - s.reader.start) := by
    rw [List.length_take, h.rest, List.length_drop]
  exact ⟨_, hlen, rfl, rfl, rfl, rfl⟩

theorem Received.read (h : Received stream len s) (cut : Nat) :
    Received stream len (s.read cut) := by
  obtain ⟨k, hk, hstart, htotal, hstatus, hrest⟩ := h.advance cut
  have hsum := h.sum
  have hle := h.le
  refine ⟨by omega, ?_, by omega, ?_⟩
  · rw [hrest, hstart, h.rest, List.drop_drop]
  · rw [hstatus, hstart]
    by_cases hmore : 0 < s.reader.totalLen - k
    · exact .inl (if_pos hmore)
    · exact .inr ⟨if_neg hmore, by omega⟩

theorem received_after (cuts : Nat → Nat) (n : Nat) :
    Received stream len ((start buf stream len).after cuts n) := by
  induction n with
  | zero => exact received_start
  | succ n ih =>
    rw [after]
    split
    · exact ih.read _
    · exact ih

/-- With a byte to read for each that is asked for, every call but the last brings one. -/
theorem le_start_after (hlen : len ≤ stream.length) (cuts : Nat → Nat) (n : Nat)
    (hs : ((start buf stream len).after cuts n).reader.status = none) :
    n ≤ ((start buf stream len).after cuts n).reader.start ∧
      (n = 0 ∨ 0 < ((start buf stream len).after cuts n).reader.totalLen) := by
  induction n with
  | zero => exact ⟨Nat.zero_le _, .inl rfl⟩
  | succ n ih =>
    have hreceived : Received stream len ((start buf stream len).after cuts n) :=
      received_after cuts n
    rw [after] at hs ⊢
    by_cases hprev : ((start buf stream len).after cuts n).reader.status = none
    · rw [if_pos hprev] at hs ⊢
      obtain ⟨k, hk, hstart, htotal, hstatus, -⟩ := hreceived.advance (cuts n)
      obtain ⟨hle, -⟩ := ih hprev
      have hsum := hreceived.sum
      rw [hstatus] at hs
      split at hs
      · omega
      · cases hs
    · rw [if_neg hprev] at hs
      exact absurd hs hprev

/-- What comes short keeps `readAll` in its loop. -/
theorem status_of_short (hlen : stream.length < len) (cuts : Nat → Nat) (n : Nat) :
    ((start buf stream len).after cuts n).reader.status = none := by
  have h : Received stream len ((start buf stream len).after cuts n) := received_after cuts n
  have hle := h.le
  rcases h.status with hs | ⟨-, hstart⟩
  · exact hs
  · omega

end Incoming

open Incoming

/-- `readAll` ends for a peer that closes if and only if the peer has sent the whole message. -/
theorem returnsAtEnd_iff (cuts : Nat → Nat) (buf stream : Bytes) (len : Nat) :
    ReturnsAtEnd cuts buf stream len ↔ len ≤ stream.length := by
  constructor
  · rintro ⟨n, status, hs, -⟩
    refine Nat.le_of_not_lt fun hlen => ?_
    rw [status_of_short hlen] at hs
    cases hs
  · intro hlen
    have h : Received stream len ((start buf stream len).after cuts (len + 1)) :=
      received_after cuts (len + 1)
    rcases h.status with hs | ⟨hs, -⟩
    · have hle := (le_start_after hlen cuts (len + 1) hs).1
      have hsum := h.sum
      omega
    · exact ⟨len + 1, 0, hs, iff_of_true rfl hlen⟩

/-- The peer closes without a byte of the message. -/
theorem not_returnsAtEnd : ¬ ∀ (cuts : Nat → Nat) (buf stream : Bytes) (len : Nat),
    ReturnsAtEnd cuts buf stream len := by
  intro h
  obtain ⟨n, status, hs, -⟩ := h (fun _ => 1) [0] [] 1
  rw [status_of_short Nat.one_pos] at hs
  cases hs

end LittleLearning.Net
