import LittleLearning.Lib.Cxx
import LittleLearning.Lib.Exec

/-!
# The echo programs

`echoClient` writes the text of each line and calls `read` once, whatever that
brings; `echoServer` writes back what it has read. Neither looks at what `write`
returns. So bytes may be lost, but none is made up, doubled or overtaken, and the
client waits for ever only where it has written an empty text and everything before
that has come back.
-/

namespace LittleLearning.Net

open Cxx Transition

/-- `sizeof(buff)`, and `sizeof(data)` -/
def buffLen : Nat := 1024

namespace Echo

/-- `echoClient` at its next call. -/
inductive Client where
  | getline
  | write (text : Bytes)
  | read
  | closed
  deriving DecidableEq

/-- `echoServer` at its next call for the connection. -/
inductive Server where
  | read
  | write (data : Bytes)
  | closed
  deriving DecidableEq

end Echo

/-- The client's input, the two programs and the two directions of the connection. `offered` is what
the client has given to `write`, `got` what its `read` has brought. -/
structure Echo where
  lines : List Bytes
  client : Echo.Client
  forth : Bytes
  server : Echo.Server
  back : Bytes
  offered : Bytes
  got : Bytes

namespace Echo

inductive Act where
  | getline
  | write (wlen : Nat)
  | read (rlen : Nat)
  | serverRead (rlen : Nat)
  | serverWrite (wlen : Nat)
  deriving DecidableEq

def start (lines : List Bytes) : Echo := ⟨lines, .getline, [], .read, [], [], []⟩

/-- The `strlen(buff)` bytes of a line in `buff`. -/
def text (line : Bytes) : Bytes := line.takeWhile (· ≠ 0)

/-- `getline` fails at the end of the input, and where the line does not fit. -/
def getline (s : Echo) : Echo :=
  match s.lines with
  | line :: lines =>
    if line.length < buffLen then { s with lines := lines, client := .write (text line) }
    else { s with client := .closed }
  | [] => { s with client := .closed }

/-- `read` waits for a byte or the client's `close`; `write` takes a byte if there is one. -/
def step (s : Echo) : Act → Option Echo
  | .getline => if s.client = .getline then some s.getline else none
  | .write wlen =>
    match s.client with
    | .write text =>
      if wlen ≤ text.length ∧ (text ≠ [] → 1 ≤ wlen) then
        some { s with
          client := .read, forth := s.forth ++ text.take wlen, offered := s.offered ++ text }
      else none
    | _ => none
  | .read rlen =>
    if s.client = .read ∧ 1 ≤ rlen ∧ rlen ≤ buffLen ∧ rlen ≤ s.back.length then
      some { s with
        client := .getline, back := s.back.drop rlen, got := s.got ++ s.back.take rlen }
    else none
  | .serverRead rlen =>
    if s.server = .read ∧ rlen ≤ buffLen ∧ rlen ≤ s.forth.length ∧
        (1 ≤ rlen ∨ s.forth = [] ∧ s.client = .closed) then
      some { s with forth := s.forth.drop rlen, server := .write (s.forth.take rlen) }
    else none
  | .serverWrite wlen =>
    match s.server with
    | .write data =>
      if wlen ≤ data.length ∧ (data ≠ [] → 1 ≤ wlen) then
        some { s with
          server := if 0 < data.length then .read else .closed, back := s.back ++ data.take wlen }
      else none
    | _ => none

/-- What the server has read and not written. -/
def Server.held : Server → Bytes
  | .write data => data
  | _ => []

/-- On the way from the client to the client. -/
def transit (s : Echo) : Bytes := s.back ++ s.server.held ++ s.forth

/-- `write` takes all it is given. -/
def Whole (s : Echo) : Act → Prop
  | .write wlen => ∀ text, s.client = .write text → wlen = text.length
  | .serverWrite wlen => wlen = s.server.held.length
  | _ => True

variable {s s' : Echo} {a : Act} {lines : List Bytes} {as : List Act}

/-! ### The steps -/

theorem step_write {wlen : Nat} (hs : s.step (.write wlen) = some s') :
    ∃ text, s.client = .write text ∧ wlen ≤ text.length ∧ (text ≠ [] → 1 ≤ wlen) ∧
      s' = { s with
        client := .read, forth := s.forth ++ text.take wlen, offered := s.offered ++ text } := by
  cases hclient : s.client with
  | write text =>
    simp only [step, hclient, Option.ite_none_right_eq_some, Option.some.injEq] at hs
    obtain ⟨⟨hle, hpos⟩, rfl⟩ := hs
    exact ⟨text, rfl, hle, hpos, rfl⟩
  | _ => simp [step, hclient] at hs

theorem step_serverWrite {wlen : Nat} (hs : s.step (.serverWrite wlen) = some s') :
    ∃ data, s.server = .write data ∧ wlen ≤ data.length ∧ (data ≠ [] → 1 ≤ wlen) ∧
      s' = { s with
        server := if 0 < data.length then .read else .closed
        back := s.back ++ data.take wlen } := by
  cases hserver : s.server with
  | write data =>
    simp only [step, hserver, Option.ite_none_right_eq_some, Option.some.injEq] at hs
    obtain ⟨⟨hle, hpos⟩, rfl⟩ := hs
    exact ⟨data, rfl, hle, hpos, rfl⟩
  | _ => simp [step, hserver] at hs

/-! ### The order of the bytes -/

/-- What the client has read and may still read is left of what it has offered, in order. -/
def InOrder (s : Echo) : Prop := List.Sublist (s.got ++ s.transit) s.offered

/-- Nothing of it is lost. -/
def Complete (s : Echo) : Prop := s.got ++ s.transit = s.offered

/-- Where `write` takes `wlen` of the bytes, the others are lost. -/
theorem trimmed {front bytes back all : Bytes} {wlen : Nat}
    (h : List.Sublist (front ++ bytes ++ back) all) (hn : wlen ≤ bytes.length) :
    List.Sublist (front ++ bytes.take wlen ++ back) all ∧
      (front ++ bytes.take wlen ++ back = all ↔
        front ++ bytes ++ back = all ∧ wlen = bytes.length) := by
  have hsub : List.Sublist (front ++ bytes.take wlen ++ back) (front ++ bytes ++ back) :=
    ((List.Sublist.refl front).append (List.take_sublist wlen bytes)).append (.refl back)
  refine ⟨hsub.trans h, fun heq => ?_, ?_⟩
  · have hfull := h.length_le
    have hlength := congrArg List.length heq
    simp only [List.length_append, List.length_take_of_le hn] at hfull hlength
    have hwhole : wlen = bytes.length := by omega
    rw [hwhole, List.take_length] at heq
    exact ⟨heq, hwhole⟩
  · rintro ⟨heq, rfl⟩
    rwa [List.take_length]

/-- A step that moves bytes from one place to another. -/
theorem InOrder.moved (h : s.InOrder) (hsame : s'.got ++ s'.transit = s.got ++ s.transit)
    (hoffered : s'.offered = s.offered) : s'.InOrder ∧ (s'.Complete ↔ s.Complete ∧ True) := by
  rw [InOrder, Complete, hsame, hoffered, and_true]
  exact ⟨h, Iff.rfl⟩

theorem InOrder.step (h : s.InOrder) (hs : s.step a = some s') :
    s'.InOrder ∧ (s'.Complete ↔ s.Complete ∧ s.Whole a) := by
  cases a with
  | getline =>
    simp only [Echo.step, Option.ite_none_right_eq_some, Option.some.injEq] at hs
    obtain ⟨-, rfl⟩ := hs
    refine h.moved ?_ ?_ <;>
    · unfold Echo.getline
      split
      · split <;> rfl
      · rfl
  | write wlen =>
    obtain ⟨text, hclient, hn, -, rfl⟩ := step_write hs
    have hfull : List.Sublist (s.got ++ s.transit ++ text ++ []) (s.offered ++ text) := by
      rw [List.append_nil]
      exact List.Sublist.append h (.refl text)
    obtain ⟨hsub, hiff⟩ := trimmed hfull hn
    have hmoved : s.got ++ (s.back ++ s.server.held ++ (s.forth ++ text.take wlen)) =
        s.got ++ s.transit ++ text.take wlen ++ [] := by simp [transit]
    refine ⟨?_, ?_⟩
    · rw [InOrder, transit, hmoved]
      exact hsub
    · rw [Complete, transit, hmoved, hiff, List.append_nil, List.append_left_inj, Whole, hclient]
      simp only [Client.write.injEq, forall_eq']
      rfl
  | read rlen =>
    simp only [Echo.step, Option.ite_none_right_eq_some, Option.some.injEq] at hs
    obtain ⟨-, rfl⟩ := hs
    refine h.moved ?_ rfl
    simp only [transit, ← List.append_assoc]
    rw [List.append_assoc s.got, List.take_append_drop]
  | serverRead rlen =>
    simp only [Echo.step, Option.ite_none_right_eq_some, Option.some.injEq] at hs
    obtain ⟨⟨hserver, -⟩, rfl⟩ := hs
    refine h.moved ?_ rfl
    simp [transit, hserver, Server.held]
  | serverWrite wlen =>
    obtain ⟨data, hserver, hn, -, rfl⟩ := step_serverWrite hs
    have hheld : s.got ++ s.transit = s.got ++ s.back ++ data ++ s.forth := by
      simp [transit, hserver, Server.held]
    have hleft : ∀ server : Server, server.held = [] →
        s.got ++ (s.back ++ data.take wlen ++ server.held ++ s.forth) =
          s.got ++ s.back ++ data.take wlen ++ s.forth := fun server hnil => by simp [hnil]
    have hnil : (if 0 < data.length then Server.read else Server.closed).held = [] := by
      split <;> rfl
    rw [InOrder, hheld] at h
    rw [InOrder, Complete, Complete, hheld, Whole, hserver]
    simp only [transit]
    rw [hleft _ hnil]
    exact trimmed h hn

/-- Two bytes, of which the server writes one. -/
def cutRun : List Act := [.getline, .write 2, .serverRead 2, .serverWrite 1, .read 1]

/-- Both programs have closed the connection. -/
def Ended (s : Echo) : Prop := s.client = .closed ∧ s.server = .closed

/-- The client reads where nothing can come. -/
def Waits (s : Echo) : Prop := s.client = .read ∧ s.transit = []

/-- The server gets to its end only through the client's. -/
def Follows (s : Echo) : Prop :=
  s.server = .closed ∨ s.server = .write [] → s.client = .closed ∧ s.forth = []

theorem Follows.step (h : s.Follows) (hs : s.step a = some s') : s'.Follows := by
  cases a with
  | getline =>
    simp only [Echo.step, Option.ite_none_right_eq_some, Option.some.injEq] at hs
    obtain ⟨hclient, rfl⟩ := hs
    have hserver : s.getline.server = s.server := by
      unfold Echo.getline
      split
      · split <;> rfl
      · rfl
    intro hend
    rw [hserver] at hend
    exact absurd (h hend).1 (by simp [hclient])
  | write wlen =>
    obtain ⟨text, hclient, -, -, rfl⟩ := step_write hs
    intro hend
    exact absurd (h hend).1 (by simp [hclient])
  | read rlen =>
    simp only [Echo.step, Option.ite_none_right_eq_some, Option.some.injEq] at hs
    obtain ⟨⟨hclient, -⟩, rfl⟩ := hs
    intro hend
    exact absurd (h hend).1 (by simp [hclient])
  | serverRead rlen =>
    simp only [Echo.step, Option.ite_none_right_eq_some, Option.some.injEq] at hs
    obtain ⟨⟨-, -, hle, hn⟩, rfl⟩ := hs
    rintro (hend | hend)
    · cases hend
    · obtain hpos | ⟨hforth, hclosed⟩ := hn
      · have hlength := congrArg List.length (Server.write.inj hend)
        rw [List.length_take_of_le hle, List.length_nil] at hlength
        omega
      · exact ⟨hclosed, by simp [hforth]⟩
  | serverWrite wlen =>
    obtain ⟨data, hserver, -, -, rfl⟩ := step_serverWrite hs
    intro hend
    by_cases hdata : 0 < data.length
    · simp [hdata] at hend
    · obtain rfl : data = [] := List.length_eq_zero_iff.1 (by omega)
      exact h (.inr hserver)

/-- The server has something to write or to read, if only that the client has closed. -/
theorem server_goes_on (hserver : s.server ≠ .closed)
    (hwork : s.server.held ++ s.forth ≠ [] ∨ s.client = .closed) :
    ∃ a s', s.step a = some s' := by
  cases hs : s.server with
  | closed => exact absurd hs hserver
  | write data =>
    refine ⟨.serverWrite data.length, ?_⟩
    simp only [step, hs]
    rw [if_pos ⟨Nat.le_refl _, fun hne => List.length_pos_iff.2 hne⟩]
    exact ⟨_, rfl⟩
  | read =>
    by_cases hforth : s.forth = []
    · have hclosed : s.client = .closed := hwork.resolve_left (by simp [hs, Server.held, hforth])
      exact ⟨.serverRead 0, _, if_pos ⟨hs, by decide, Nat.zero_le _, .inr ⟨hforth, hclosed⟩⟩⟩
    · have hpos := List.length_pos_iff.2 hforth
      exact ⟨.serverRead 1, _, if_pos ⟨hs, by decide, hpos, .inl (Nat.le_refl 1)⟩⟩

theorem Follows.goes_on (h : s.Follows) (hend : ¬ s.Ended) (hwaits : ¬ s.Waits) :
    ∃ a s', s.step a = some s' := by
  cases hclient : s.client with
  | getline => exact ⟨.getline, _, if_pos hclient⟩
  | write text =>
    refine ⟨.write text.length, ?_⟩
    simp only [Echo.step, hclient]
    rw [if_pos ⟨Nat.le_refl _, fun hne => List.length_pos_iff.2 hne⟩]
    exact ⟨_, rfl⟩
  | read =>
    by_cases hback : s.back = []
    · refine server_goes_on (fun hclosed => ?_) (.inl fun hnil => hwaits ⟨hclient, ?_⟩)
      · exact absurd (h (.inl hclosed)).1 (by simp [hclient])
      · rw [transit, List.append_assoc, hnil, hback]
        rfl
    · have hpos := List.length_pos_iff.2 hback
      exact ⟨.read 1, _, if_pos ⟨hclient, Nat.le_refl 1, by decide, hpos⟩⟩
  | closed => exact server_goes_on (fun hclosed => hend ⟨hclient, hclosed⟩) (.inr hclient)

theorem Ended.step_eq_none (h : s.Ended) (a : Act) : s.step a = none := by
  obtain ⟨hclient, hserver⟩ := h
  cases a <;> simp [step, hclient, hserver]

theorem Waits.step_eq_none (h : s.Waits) (hfollows : s.Follows) (a : Act) : s.step a = none := by
  obtain ⟨hclient, htransit⟩ := h
  obtain ⟨hback, hheld, hforth⟩ : s.back = [] ∧ s.server.held = [] ∧ s.forth = [] := by
    simpa [transit] using htransit
  cases a with
  | getline => simp [step, hclient]
  | write wlen => simp [step, hclient]
  | read rlen =>
    simp only [step, hback, List.length_nil]
    exact if_neg (by omega)
  | serverRead rlen =>
    refine if_neg ?_
    rintro ⟨-, -, hle, hpos | ⟨-, hclosed⟩⟩
    · rw [hforth, List.length_nil] at hle
      omega
    · simp [hclient] at hclosed
  | serverWrite wlen =>
    cases hserver : s.server with
    | write data =>
      obtain rfl : data = [] := by simpa [hserver, Server.held] using hheld
      exact absurd (hfollows (.inr hserver)).1 (by simp [hclient])
    | _ => simp [step, hserver]

/-! ### How long it takes -/

def Client.left : Client → Nat
  | .getline => 1
  | .write text => 3 + 2 * text.length
  | .read => 2
  | .closed => 0

def Server.left : Server → Nat
  | .read => 2
  | .write data => if 0 < data.length then 3 else 1
  | .closed => 0

/-- For a line a round of the client, and for each byte one of the server. -/
def linesLeft (lines : List Bytes) : Nat := (lines.map fun line => 3 + 2 * (text line).length).sum

def left (s : Echo) : Nat :=
  linesLeft s.lines + s.client.left + 2 * s.forth.length + s.server.left

theorem step_left (hs : s.step a = some s') : s'.left < s.left := by
  cases a with
  | getline =>
    simp only [step, Option.ite_none_right_eq_some, Option.some.injEq] at hs
    obtain ⟨hclient, rfl⟩ := hs
    unfold Echo.getline
    split
    · rename_i line lines hlines
      split
      · simp only [left, hlines, hclient, linesLeft, List.map_cons, List.sum_cons, Client.left]
        omega
      · simp only [left, hclient, Client.left]
        omega
    · simp only [left, hclient, Client.left]
      omega
  | write wlen =>
    obtain ⟨text, hclient, hn, -, rfl⟩ := step_write hs
    simp only [left, hclient, Client.left, List.length_append, List.length_take_of_le hn]
    omega
  | read rlen =>
    simp only [step, Option.ite_none_right_eq_some, Option.some.injEq] at hs
    obtain ⟨⟨hclient, -⟩, rfl⟩ := hs
    simp only [left, hclient, Client.left]
    omega
  | serverRead rlen =>
    simp only [step, Option.ite_none_right_eq_some, Option.some.injEq] at hs
    obtain ⟨⟨hserver, -, hle, hn⟩, rfl⟩ := hs
    simp only [left, hserver, Server.left, List.length_take_of_le hle, List.length_drop]
    split
    · omega
    · omega
  | serverWrite wlen =>
    obtain ⟨data, hserver, -, -, rfl⟩ := step_serverWrite hs
    simp only [left, hserver]
    by_cases hdata : 0 < data.length
    · simp only [if_pos hdata, Server.left]
      omega
    · simp only [if_neg hdata, Server.left]
      omega

/-! ### A client with something to say -/

/-- Every text has a byte, and so there is one to wait for. -/
structure Talks (s : Echo) : Prop where
  lines : ∀ line ∈ s.lines, text line ≠ []
  write : ∀ t, s.client = .write t → t ≠ []
  read : s.client = .read → s.transit ≠ []

theorem Talks.step (h : s.Talks) (hfollows : s.Follows) (hs : s.step a = some s') : s'.Talks := by
  cases a with
  | getline =>
    simp only [Echo.step, Option.ite_none_right_eq_some, Option.some.injEq] at hs
    obtain ⟨-, rfl⟩ := hs
    unfold Echo.getline
    split
    · rename_i line lines hlines
      have htalks := h.lines
      rw [hlines] at htalks
      split
      · refine ⟨fun line' hline' => htalks line' (List.mem_cons_of_mem _ hline'), ?_, nofun⟩
        rintro t ht
        rw [← Client.write.inj ht]
        exact htalks line List.mem_cons_self
      · exact ⟨h.lines, nofun, nofun⟩
    · exact ⟨h.lines, nofun, nofun⟩
  | write wlen =>
    obtain ⟨text, hclient, hn, hpos, rfl⟩ := step_write hs
    have htext := h.write text hclient
    refine ⟨h.lines, nofun, fun _ hnil => ?_⟩
    have hlength := congrArg List.length hnil
    simp only [transit, List.length_append, List.length_take_of_le hn, List.length_nil] at hlength
    have hone := hpos htext
    omega
  | read rlen =>
    simp only [Echo.step, Option.ite_none_right_eq_some, Option.some.injEq] at hs
    obtain ⟨-, rfl⟩ := hs
    exact ⟨h.lines, nofun, nofun⟩
  | serverRead rlen =>
    simp only [Echo.step, Option.ite_none_right_eq_some, Option.some.injEq] at hs
    obtain ⟨⟨hserver, -⟩, rfl⟩ := hs
    refine ⟨h.lines, h.write, fun hclient => ?_⟩
    have htransit := h.read hclient
    simpa [transit, hserver, Server.held] using htransit
  | serverWrite wlen =>
    obtain ⟨data, hserver, hn, hpos, rfl⟩ := step_serverWrite hs
    refine ⟨h.lines, h.write, fun hclient hnil => ?_⟩
    -- at the end of the stream the client has closed
    have hdata : data ≠ [] := by
      rintro rfl
      have hclosed := (hfollows (.inr hserver)).1
      simp [hclosed] at hclient
    have hlength := congrArg List.length hnil
    simp only [transit, List.length_append, List.length_take_of_le hn, List.length_nil] at hlength
    have hone := hpos hdata
    omega

theorem follows_run (hr : exec step (start lines) as = some s) : s.Follows :=
  invariant (fun _ _ _ h hs => h.step hs) (fun hend => by cases hend <;> contradiction) hr

/-- The echo programs come to a halt after a bounded number of calls: with both connections closed,
or with the client reading what nobody has left to send. -/
theorem echo_halts (hr : exec step (start lines) as = some s) :
    as.length ≤ linesLeft lines + 3 ∧ ((∀ a, s.step a = none) ↔ s.Ended ∨ s.Waits) := by
  have hfollows := follows_run hr
  refine ⟨?_, fun hnone => ?_, ?_⟩
  · have hlength := length_le_of_exec (I := fun _ => True)
      (fun _ _ _ _ hs => ⟨trivial, step_left hs⟩) trivial hr
    have hstart : (start lines).left = linesLeft lines + 3 := rfl
    omega
  · by_contra hnot
    rw [not_or] at hnot
    obtain ⟨a, s', hs⟩ := hfollows.goes_on hnot.1 hnot.2
    rw [hnone a] at hs
    cases hs
  · rintro (hend | hwaits)
    · exact hend.step_eq_none
    · exact hwaits.step_eq_none hfollows

/-- The client of an empty line waits for ever. -/
theorem echo_halts_empty : ∃ s, exec step (start [[]]) [.getline, .write 0] = some s ∧
    ∀ a, s.step a = none := by
  have hrun : (exec step (start [[]]) [.getline, .write 0]).map
      (fun s => (s.client, s.transit)) = some (.read, []) := by decide
  obtain ⟨s, hs, hobs⟩ := Option.map_eq_some_iff.1 hrun
  exact ⟨s, hs, (echo_halts hs).2.2 (.inr (Prod.mk.inj hobs))⟩

/-- A text for every line: then the client does not wait in vain, and the programs can come to
their end from wherever they are. -/
theorem echo_ends (hlines : ∀ line ∈ lines, text line ≠ [])
    (hr : exec step (start lines) as = some s) :
    ¬ s.Waits ∧ ∃ bs t, exec step s bs = some t ∧ t.Ended := by
  have hstep : ∀ (s : Echo) a s', s.Talks ∧ s.Follows → s.step a = some s' →
      s'.Talks ∧ s'.Follows := fun s a s' h hs => ⟨h.1.step h.2 hs, h.2.step hs⟩
  have h0 : (start lines).Talks ∧ (start lines).Follows :=
    ⟨⟨hlines, nofun, nofun⟩, fun hend => by cases hend <;> contradiction⟩
  have h : s.Talks ∧ s.Follows :=
    invariant (I := fun s : Echo => s.Talks ∧ s.Follows) hstep h0 hr
  have hnot : ∀ s : Echo, s.Talks → ¬ s.Waits := fun s h hwaits => h.read hwaits.1 hwaits.2
  refine ⟨hnot s h.1, ?_⟩
  have hgoes : ∀ s : Echo, s.Talks ∧ s.Follows → s.Ended ∨
      ∃ a s', s.step a = some s' ∧ (s'.Talks ∧ s'.Follows) ∧ s'.left < s.left := by
    intro s h
    by_cases hend : s.Ended
    · exact .inl hend
    · obtain ⟨a, s', hs⟩ := h.2.goes_on hend (hnot s h.1)
      exact .inr ⟨a, s', hs, hstep s a s' h hs, step_left hs⟩
  obtain ⟨bs, t, hbs, -, hend⟩ := exec_to hgoes s h
  exact ⟨bs, t, hbs, hend⟩

theorem echo_ends_cut : ∃ s, exec step (start [[1, 2]]) cutRun = some s ∧
    ∃ bs t, exec step s bs = some t ∧ t.Ended := by
  have hrun : (exec step (start [[1, 2]]) cutRun).isSome := by decide
  obtain ⟨s, hs⟩ := Option.isSome_iff_exists.1 hrun
  exact ⟨s, hs, (echo_ends (by decide) hs).2⟩

end Echo

end LittleLearning.Net
