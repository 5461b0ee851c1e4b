import LittleLearning.Net.Ttcp

/-!
# A ttcp session comes to its end

Every system call of the two message loops takes the session on (`step_left`), and
while no assertion has failed there is one to make that fails none (`goes_on`),
as long as the client can count the messages in an `int`.
-/

namespace LittleLearning.Net

open Cxx Transition Transfer Pipe

theorem Loop.test_on {number i : Nat} (h : (Loop.test number i).phase ≠ .finished) :
    i < number := by
  by_contra hi
  rw [Loop.test_finished _ _ hi] at h
  exact h rfl

theorem Loop.test_over {number i : Nat} (hi : i ≤ number)
    (h : (Loop.test number i).phase = .finished) : i = number := by
  refine Nat.le_antisymm hi (Nat.le_of_not_lt fun hlt => ?_)
  rw [Loop.test_message _ _ hlt] at h
  cases h

theorem Loop.test_alive (number i : Nat) (assertion : Assertion) :
    (Loop.test number i).phase ≠ .aborted assertion := by
  unfold Loop.test
  split_ifs <;> nofun

/-- How many bytes and acknowledgements a side has still to deal with; `t` is its transfer. -/
def Loop.left (number len : Nat) (l : Loop) (t : Transfer) : Nat :=
  (number - l.i - 1) * (len + 1) +
    match l.phase with
    | .message => t.totalLen + 1
    | .ack => 1
    | _ => 0

theorem Loop.left_test (number len i : Nat) {t : Transfer} (ht : t.totalLen = len) :
    (Loop.test number i).left number len t = (number - i) * (len + 1) := by
  by_cases hi : i < number
  · obtain ⟨k, hk⟩ := Nat.exists_eq_add_of_lt hi
    rw [Loop.test_message _ _ hi, Loop.left, ht, hk,
      show i + k + 1 - i - 1 = k by omega, show i + k + 1 - i = k + 1 by omega, Nat.succ_mul]
  · rw [Loop.test_finished _ _ hi, Loop.left, show number - i = 0 by omega]
    rfl

/-- Past its message a side has at most an acknowledgement left of the round. -/
theorem Loop.left_le (number len : Nat) {l : Loop} (t : Transfer) (h : l.phase ≠ .message) :
    l.left number len t ≤ (number - l.i - 1) * (len + 1) + 1 := by
  unfold Loop.left
  split
  · exact absurd ‹_› h
  · exact Nat.le_refl _
  · exact Nat.le_succ _

/-- The next round, whose transfer is called if there is one. -/
theorem Loop.left_next (number len i : Nat) {t : Transfer}
    (ht : i + 1 < number → t.totalLen = len) :
    (Loop.test number (i + 1)).left number len t ≤ (number - i - 1) * (len + 1) := by
  by_cases hi : i + 1 < number
  · rw [Loop.left_test number len (i + 1) (ht hi), Nat.sub_sub]
  · rw [Loop.test_finished _ _ hi, Loop.left, show number - (i + 1) - 1 = 0 by omega, Nat.zero_mul]
    exact Nat.zero_le _

namespace Ttcp

def left (c : Ttcp) (s : Session) : Nat :=
  s.client.left c.number c.message.length s.pipe.writer +
    s.server.left c.number c.message.length s.pipe.reader

variable {c : Ttcp} {s s' : Session} {a : Action} {n : Nat}

/-- When `readAll` has returned the server goes on to the acknowledgement, or stops. -/
theorem read_returned (c : Ttcp) (s : Session) (pipe : Pipe) (h : pipe.reader.status ≠ none) :
    (c.read s pipe).client = s.client ∧ (c.read s pipe).pipe = pipe ∧
      (c.read s pipe).server.i = s.server.i ∧ (c.read s pipe).server.phase ≠ .message := by
  unfold Ttcp.read
  split
  · exact absurd ‹_› h
  · refine ⟨rfl, rfl, rfl, ?_⟩
    dsimp only
    split_ifs <;> nofun

/-- Every step takes one side on. -/
theorem step_left (hs : c.step s a = some s') : c.left s' < c.left s := by
  cases a with
  | write wlen =>
    simp only [Ttcp.step, Pipe.step, Option.ite_none_right_eq_some, Option.map_eq_some_iff] at hs
    obtain ⟨hphase, pipe, ⟨⟨-, hpos, hle⟩, hpipe⟩, rfl⟩ := hs
    obtain rfl := Option.some.inj hpipe
    by_cases hrest : 0 < s.pipe.writer.totalLen - wlen
    · simp only [left, written, Loop.left, writeAll, Transfer.advance, hrest, if_true, hphase]
      omega
    · simp only [left, written, Loop.left, writeAll, Transfer.advance, hrest, if_false, if_true,
        hphase]
      omega
  | read rlen =>
    simp only [Ttcp.step, Pipe.step, Option.ite_none_right_eq_some, Option.map_eq_some_iff] at hs
    obtain ⟨hphase, pipe, ⟨⟨-, hpos, hle, hwire⟩, hpipe⟩, rfl⟩ := hs
    have hpipe := Option.some.inj hpipe
    have hwriter : pipe.writer = s.pipe.writer := by rw [← hpipe]
    have hreader : pipe.reader = s.pipe.reader.readAll (some (s.pipe.wire.take rlen)) := by
      rw [← hpipe]
    have hleft : pipe.reader.totalLen = s.pipe.reader.totalLen - rlen := by
      rw [hreader]
      simp [Transfer.readAll, Transfer.put, Transfer.advance, List.length_take_of_le hwire]
    have hthis : s.server.left c.number c.message.length s.pipe.reader =
        (c.number - s.server.i - 1) * (c.message.length + 1) + (s.pipe.reader.totalLen + 1) := by
      rw [Loop.left, hphase]
    unfold left
    rw [hthis]
    by_cases hstatus : pipe.reader.status = none
    · have hgoes : (c.read s pipe) = { s with pipe := pipe } := by rw [Ttcp.read, hstatus]
      rw [hgoes, hwriter]
      simp only [Loop.left, hphase, hleft]
      omega
    · obtain ⟨hclient, hpipe, hi, hphase'⟩ := read_returned c s pipe hstatus
      have hless := Loop.left_le c.number c.message.length pipe.reader hphase'
      rw [hi] at hless
      rw [hclient, hpipe, hwriter]
      omega
  | readAck rLen =>
    simp only [Ttcp.step, Option.ite_none_right_eq_some] at hs
    obtain ⟨⟨hphase, -⟩, hs⟩ := hs
    obtain ⟨assertion, -, rfl⟩ | ⟨rfl, rfl⟩ := acked_spec hs
    · simp only [left, Loop.left, hphase]
      omega
    · have hthis : s.client.left c.number c.message.length s.pipe.writer =
          (c.number - s.client.i - 1) * (c.message.length + 1) + 1 := by rw [Loop.left, hphase]
      unfold left
      rw [hthis]
      by_cases hi : s.client.i + 1 < c.number
      · have hnext := Loop.left_next c.number c.message.length s.client.i
          (t := .call c.message c.message.length) (fun _ => rfl)
        simp only [if_pos hi]
        omega
      · have hnext := Loop.left_next c.number c.message.length s.client.i (t := s.pipe.writer)
          (fun h => absurd h hi)
        simp only [if_neg hi]
        omega
  | writeAck wlen =>
    simp only [Ttcp.step, Option.ite_none_right_eq_some, Option.some.injEq] at hs
    obtain ⟨⟨hphase, -⟩, rfl⟩ := hs
    have hthis : s.server.left c.number c.message.length s.pipe.reader =
        (c.number - s.server.i - 1) * (c.message.length + 1) + 1 := by rw [Loop.left, hphase]
    unfold left
    rw [hthis]
    by_cases hfour : wlen ≠ 4
    · simp only [answered, if_pos hfour, Loop.left]
      omega
    · by_cases hi : s.server.i + 1 < c.number
      · have hnext := Loop.left_next c.number c.message.length s.server.i
          (t := .call s.pipe.reader.buff c.message.length) (fun _ => rfl)
        simp only [answered, if_neg hfour, Loop.test_message _ _ hi, if_true] at hnext ⊢
        omega
      · have hnext := Loop.left_next c.number c.message.length s.server.i
          (t := s.pipe.reader) (fun h => absurd h hi)
        simp only [answered, if_neg hfour, Loop.test_finished _ _ hi, reduceCtorEq, if_false]
          at hnext ⊢
        omega

/-! ### No side waits for ever -/

/-- Only a whole acknowledgement lets the server go on. -/
theorem answered_spec (c : Ttcp) (s : Session) (n : Nat) : (c.answered s n).client = s.client ∧
    (n ≠ 4 ∧ (c.answered s n).server = { s.server with phase := .aborted .wlen } ∨
      n = 4 ∧ (c.answered s n).server = .test c.number (s.server.i + 1) ∧
        (c.answered s n).acks = s.acks ++ (lengthOf s.pipe.reader.buff).take 4) := by
  unfold Ttcp.answered
  by_cases hfour : n ≠ 4
  · simp only [if_pos hfour]
    exact ⟨trivial, .inl ⟨hfour, trivial⟩⟩
  · obtain rfl : n = 4 := not_not.1 hfour
    simp only [if_neg hfour]
    split_ifs <;> simp

end Ttcp

open Ttcp

variable {c : Ttcp} {s s' : Session} {a : Action} {buf : Bytes} {n : Nat}

/-- Between its rounds a client that waits finds its acknowledgement whole. -/
structure Running (c : Ttcp) (s : Session) : Prop where
  rounds : Rounds c s
  acks : s.server.i = s.client.i + 1 → s.client.phase = .ack → s.acks = lengthOf c.message
  client : s.client.phase ≠ .finished → s.client.i < c.number
  finished : s.client.phase = .finished → s.client.i = c.number

theorem running_start (hlen : 1 ≤ c.message.length) (hbuf : buf.length = c.message.length) :
    Running c (c.start buf) where
  rounds := rounds_start hlen hbuf
  acks h := nomatch h
  client h := Loop.test_on h
  finished h := Loop.test_over (Nat.zero_le _) h

theorem Same.of_message (h : Rounds c s) (hphase : s.client.phase = .message) : Same c s := by
  cases h with
  | same h => exact h
  | ahead h => exact absurd hphase h.client
  | ended h => simp [h.client] at hphase

theorem Same.of_server (h : Rounds c s) (hphase : s.server.phase = .ack) : Same c s := by
  cases h with
  | same h => exact h
  | ahead h =>
    rw [h.server, Loop.test] at hphase
    split at hphase <;> cases hphase
  | ended h => simp [h.server] at hphase

theorem Running.step (h : Running c s) (hlen : 1 ≤ c.message.length) (hs : c.step s a = some s') :
    Running c s' := by
  have hrounds := h.rounds.step hlen hs
  cases a with
  | write wlen =>
    simp only [Ttcp.step, Option.ite_none_right_eq_some, Option.map_eq_some_iff] at hs
    obtain ⟨hphase, pipe, -, rfl⟩ := hs
    have hi := (Same.of_message h.rounds hphase).i
    have hon : s.client.i < c.number := h.client (by simp [hphase])
    have hsame : (written s pipe).client.i = s.client.i ∧ (written s pipe).server = s.server := by
      unfold written
      split <;> exact ⟨rfl, rfl⟩
    refine ⟨hrounds, fun hahead => ?_, fun _ => by rw [hsame.1]; exact hon, fun hover => ?_⟩
    · rw [hsame.1, hsame.2] at hahead
      omega
    · unfold written at hover
      split at hover
      · simp [hphase] at hover
      · dsimp only at hover
        split_ifs at hover
  | readAck rLen =>
    simp only [Ttcp.step, Option.ite_none_right_eq_some] at hs
    obtain ⟨⟨hphase, -, -, hn⟩, hs⟩ := hs
    obtain ⟨assertion, -, rfl⟩ | ⟨rfl, rfl⟩ := acked_spec hs
    · exact ⟨hrounds, fun _ hack => (by cases hack), fun _ => h.client (by simp [hphase]),
        fun hover => (by cases hover)⟩
    · have hon : s.client.i < c.number := h.client (by simp [hphase])
      refine ⟨hrounds, fun hahead => ?_, fun hon => Loop.test_on hon,
        fun hover => Loop.test_over hon hover⟩
      have hahead : s.server.i = s.client.i + 1 + 1 := hahead
      cases h.rounds with
      | same h =>
        have hi := h.i
        omega
      | ahead h =>
        have hi := h.i
        omega
      | ended h => simp [h.client] at hphase
  | read rlen =>
    simp only [Ttcp.step, Option.ite_none_right_eq_some, Option.map_eq_some_iff] at hs
    obtain ⟨hphase, pipe, -, rfl⟩ := hs
    have hsame : (c.read s pipe).client = s.client ∧ (c.read s pipe).server.i = s.server.i ∧
        (c.read s pipe).acks = s.acks := by
      unfold Ttcp.read
      split <;> exact ⟨rfl, rfl, rfl⟩
    refine ⟨hrounds, ?_, ?_, ?_⟩
    · rw [hsame.1, hsame.2.1, hsame.2.2]
      exact h.acks
    · rw [hsame.1]
      exact h.client
    · rw [hsame.1]
      exact h.finished
  | writeAck wlen =>
    simp only [Ttcp.step, Option.ite_none_right_eq_some, Option.some.injEq] at hs
    obtain ⟨⟨hphase, -, hn⟩, rfl⟩ := hs
    have hsame := Same.of_server h.rounds hphase
    have hacks : s.acks = [] := hsame.acks.resolve_right fun hab => by simp [hphase] at hab
    obtain ⟨hbuff, -, -⟩ := hsame.readAll_returned (by simp [hphase])
    have hi := hsame.i
    obtain ⟨hclient, hserver⟩ := answered_spec c s wlen
    refine ⟨hrounds, ?_, by rw [hclient]; exact h.client, by rw [hclient]; exact h.finished⟩
    obtain ⟨-, hshort⟩ | ⟨rfl, -, hacks'⟩ := hserver
    · rw [hshort, hclient]
      intro hahead
      have hahead : s.server.i = s.client.i + 1 := hahead
      omega
    · intro _ _
      rw [hacks', hacks, hbuff, List.nil_append, lengthOf, List.take_take, Nat.min_self]

/-- No assertion has failed. -/
def Alive (s : Session) : Prop :=
  ∀ assertion, s.client.phase ≠ .aborted assertion ∧ s.server.phase ≠ .aborted assertion

/-- Not a fragment of an acknowledgement. -/
def Action.Whole : Action → Prop
  | .readAck n | .writeAck n => n = 4
  | _ => True

/-- A whole acknowledgement is the right one, and takes the client into the next round. -/
theorem acked_whole (hlen : 4 ≤ c.message.length) (hacks : s.acks = lengthOf c.message) :
    (s.client.i + 1 < 2 ^ 31 → ∃ s', c.acked s 4 = some s') ∧
      ∀ s', c.acked s 4 = some s' →
        s'.client = .test c.number (s.client.i + 1) ∧ s'.server = s.server := by
  have hfour : (lengthOf c.message).length = 4 := List.length_take_of_le hlen
  have hack : lengthOf c.message = s.acks.take 4 ++ List.replicate (4 - 4) 0 := by
    rw [hacks, List.take_of_length_le (Nat.le_of_eq hfour)]
    simp
  simp only [Ttcp.acked, ← hack, ne_eq, not_true_eq_false, if_false, Option.map_eq_some_iff]
  refine ⟨fun hi => ⟨_, _, incr_eq hi, rfl⟩, ?_⟩
  rintro s' ⟨i, hi, rfl⟩
  simp only [incr, Option.ite_none_right_eq_some, Option.some.injEq] at hi
  obtain ⟨-, rfl⟩ := hi
  split_ifs <;> exact ⟨rfl, rfl⟩

/-- A client that waits with no assertion failed has nothing to read, or all of it. -/
theorem Running.acks_of (h : Running c s) (halive : Alive s) (hphase : s.client.phase = .ack) :
    s.acks = [] ∨ s.acks = lengthOf c.message := by
  cases h.rounds with
  | same h' => exact .inl (h'.acks.resolve_right fun hab => (halive .wlen).2 hab.1)
  | ahead h' => exact .inr (h.acks h'.i hphase)
  | ended h' => simp [h'.client] at hphase

/-- Transfers do not fail, nor do whole acknowledgements. -/
theorem Running.alive (h : Running c s) (hlen : 4 ≤ c.message.length)
    (hdata : ntohl (lengthOf c.message) = c.length) (halive : Alive s) (hwhole : a.Whole)
    (hs : c.step s a = some s') : Alive s' := by
  cases a with
  | write n =>
    simp only [Ttcp.step, Option.ite_none_right_eq_some, Option.map_eq_some_iff] at hs
    obtain ⟨hphase, pipe, hpipe, rfl⟩ := hs
    obtain ⟨buf, hbuf, hbetween⟩ := (Same.of_message h.rounds hphase).between
    intro assertion
    unfold written
    split
    · exact halive assertion
    · rename_i status hstatus
      have hzero := ((hbetween.step hpipe).writer.returned (by simp [hstatus])).1
      obtain rfl : status = 0 := by simpa [hstatus] using hzero
      exact ⟨fun hab => (by cases hab), (halive assertion).2⟩
  | readAck n =>
    obtain rfl : n = 4 := hwhole
    simp only [Ttcp.step, Option.ite_none_right_eq_some] at hs
    obtain ⟨⟨hphase, -, -, hn⟩, hs⟩ := hs
    obtain hnil | hacks := h.acks_of halive hphase
    · rw [hnil, List.length_nil] at hn
      omega
    · obtain ⟨hclient, hserver⟩ := (acked_whole hlen hacks).2 s' hs
      intro assertion
      rw [hclient, hserver]
      exact ⟨Loop.test_alive _ _ assertion, (halive assertion).2⟩
  | read n =>
    simp only [Ttcp.step, Option.ite_none_right_eq_some, Option.map_eq_some_iff] at hs
    obtain ⟨hphase, pipe, hpipe, rfl⟩ := hs
    have hsame : Same c s := by
      cases h.rounds with
      | same h => exact h
      | ahead h => exact absurd h.wire (step_read hpipe).2.2
      | ended h => simp [h.server] at hphase
    obtain ⟨buf, hbuf, hbetween⟩ := hsame.between
    intro assertion
    unfold Ttcp.read
    split
    · exact halive assertion
    · rename_i status hstatus
      obtain ⟨hzero, hbuff, -⟩ := (hbetween.step hpipe).reader_returned hbuf (by simp [hstatus])
      obtain rfl : status = 0 := by simpa [hstatus] using hzero
      refine ⟨(halive assertion).1, ?_⟩
      simp [hbuff, hdata]
  | writeAck n =>
    obtain rfl : n = 4 := hwhole
    simp only [Ttcp.step, Option.ite_none_right_eq_some, Option.some.injEq] at hs
    obtain ⟨-, rfl⟩ := hs
    obtain ⟨hclient, ⟨hshort, -⟩ | ⟨-, hserver, -⟩⟩ := answered_spec c s 4
    · exact absurd rfl hshort
    · intro assertion
      rw [hclient, hserver]
      exact ⟨(halive assertion).1, Loop.test_alive _ _ assertion⟩

theorem Ttcp.step_write_server (hs : c.step s (.write n) = some s') : s'.server = s.server := by
  simp only [Ttcp.step, Option.ite_none_right_eq_some, Option.map_eq_some_iff] at hs
  obtain ⟨-, pipe, -, rfl⟩ := hs
  unfold written
  split <;> rfl

/-- A fragment fails an assertion, and none that has failed is undone. -/
theorem Alive.before (halive : Alive s') (hs : c.step s a = some s') : Alive s ∧ a.Whole := by
  cases a with
  | write n =>
    have hserver := Ttcp.step_write_server hs
    simp only [Ttcp.step, Option.ite_none_right_eq_some] at hs
    obtain ⟨hphase, -⟩ := hs
    refine ⟨fun assertion => ⟨by simp [hphase], ?_⟩, trivial⟩
    rw [← hserver]
    exact (halive assertion).2
  | readAck n =>
    simp only [Ttcp.step, Option.ite_none_right_eq_some] at hs
    obtain ⟨⟨hphase, -⟩, hs⟩ := hs
    obtain ⟨assertion, -, rfl⟩ | ⟨rfl, rfl⟩ := acked_spec hs
    · exact absurd rfl (halive assertion).1
    · exact ⟨fun assertion => ⟨by simp [hphase], (halive assertion).2⟩, rfl⟩
  | read n =>
    simp only [Ttcp.step, Option.ite_none_right_eq_some, Option.map_eq_some_iff] at hs
    obtain ⟨hphase, pipe, -, rfl⟩ := hs
    have hclient : (c.read s pipe).client = s.client := by
      unfold Ttcp.read
      split <;> rfl
    refine ⟨fun assertion => ⟨?_, by simp [hphase]⟩, trivial⟩
    rw [← hclient]
    exact (halive assertion).1
  | writeAck n =>
    simp only [Ttcp.step, Option.ite_none_right_eq_some, Option.some.injEq] at hs
    obtain ⟨⟨hphase, -⟩, rfl⟩ := hs
    obtain ⟨hclient, ⟨-, hserver⟩ | ⟨rfl, -⟩⟩ := answered_spec c s n
    · rw [Alive, hserver] at halive
      exact absurd rfl (halive .wlen).2
    · refine ⟨fun assertion => ⟨?_, by simp [hphase]⟩, rfl⟩
      rw [← hclient]
      exact (halive assertion).1

/-- The client can write while it is in `writeAll`. -/
theorem Same.can_write (h : Same c s) (hphase : s.client.phase = .message) :
    ∃ s', c.step s (.write 1) = some s' := by
  obtain ⟨buf, hbuf, hbetween⟩ := h.between
  have hsum := hbetween.writer.sum
  have hlt := hbetween.writer.status_none.1 (h.client.1 hphase)
  obtain ⟨pipe, hpipe⟩ : ∃ pipe, s.pipe.step (.write 1) = some pipe :=
    ⟨_, if_pos ⟨h.client.1 hphase, Nat.le_refl 1, by omega⟩⟩
  exact ⟨_, (if_pos hphase).trans (congrArg (Option.map (Ttcp.written s)) hpipe)⟩

/-- Once the client has written all the server can read while it is in `readAll`. -/
theorem Same.can_read (h : Same c s) (hclient : s.client.phase ≠ .message)
    (hphase : s.server.phase = .message) : ∃ s', c.step s (.read 1) = some s' := by
  obtain ⟨buf, hbuf, hbetween⟩ := h.between
  have hlength := hbetween.length
  have hsum := hbetween.reader.sum
  have hwritten := (hbetween.writer.returned fun hs => hclient (h.client.2 hs)).2
  have hlt := hbetween.reader.status_none.1 (h.server.1 hphase)
  obtain ⟨pipe, hpipe⟩ : ∃ pipe, s.pipe.step (.read 1) = some pipe :=
    ⟨_, if_pos ⟨h.server.1 hphase, Nat.le_refl 1, by omega, by omega⟩⟩
  exact ⟨_, (if_pos hphase).trans (congrArg (Option.map (c.read s)) hpipe)⟩

theorem Ahead.can_ack (h : Ahead c s) (hrun : Running c s) (hlen : 4 ≤ c.message.length)
    (hnum : c.number < 2 ^ 31) (halive : Alive s) : ∃ s', c.step s (.readAck 4) = some s' := by
  have hphase : s.client.phase = .ack := by
    cases hp : s.client.phase with
    | message => exact absurd hp h.client
    | ack => rfl
    | finished => exact absurd hp h.clientOn.1
    | aborted assertion => exact absurd hp (halive assertion).1
  have hacks := hrun.acks h.i hphase
  have hfour : s.acks.length = 4 := by
    rw [hacks]
    exact List.length_take_of_le hlen
  have hi := hrun.client (by simp [hphase])
  obtain ⟨s', hs'⟩ := (acked_whole hlen hacks).1 (by omega)
  exact ⟨s', (if_pos ⟨hphase, by decide, by decide, by omega⟩).trans hs'⟩

/-- While no assertion has failed and a side is in its loop, there is a call to make. -/
theorem Running.goes_on (h : Running c s) (hlen : 4 ≤ c.message.length)
    (hnum : c.number < 2 ^ 31) (halive : Alive s) :
    Ended c s ∨ ∃ a s', a.Whole ∧ c.step s a = some s' := by
  cases h.rounds with
  | ended h => exact .inl h
  | ahead h' =>
    obtain ⟨s', hs'⟩ := h'.can_ack h hlen hnum halive
    exact .inr ⟨.readAck 4, s', rfl, hs'⟩
  | same h' =>
    refine .inr ?_
    by_cases hclient : s.client.phase = .message
    · obtain ⟨s', hs'⟩ := h'.can_write hclient
      exact ⟨.write 1, s', trivial, hs'⟩
    · cases hserver : s.server.phase with
      | message =>
        obtain ⟨s', hs'⟩ := h'.can_read hclient hserver
        exact ⟨.read 1, s', trivial, hs'⟩
      | ack => exact ⟨.writeAck 4, _, rfl, if_pos ⟨hserver, by decide, by decide⟩⟩
      | finished => exact absurd hserver h'.serverOn.1
      | aborted assertion => exact absurd hserver (halive assertion).2

end LittleLearning.Net
