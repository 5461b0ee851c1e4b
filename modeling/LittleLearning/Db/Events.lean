import LittleLearning.Db.Rounds
import LittleLearning.Lib.Exec

/-!
# Read events, whatever they deliver

`Session.event` is one read event of a client as a step: possible while the
server runs and the client is connected, and as long as `originLen +
QUERY_BUFF_LEN` fits an `int`. `Tidy` holds of the client after any events; so
the parsers are never at a place where `substr` throws.
-/

namespace LittleLearning.Db

open Cxx Relation Transition

namespace Client

variable {ω : Type} {c d e c' : Client ω} {data : Bytes}

/-! ### The bytes are there -/

/-- The client when its parser starts: `data` is read, the kind of the request is known. -/
def arrived (c : Client ω) (data : Bytes) : Client ω :=
  let buf := receive c.queryBuff data
  { c with
    queryBuff := buf
    qryType := if c.qryType = 0 then if buf.head? = some star then 2 else 1 else c.qryType }

theorem processQuery_eq (hne : data ≠ []) :
    c.processQuery data = if (c.arrived data).qryType = 2 then (c.arrived data).parseBulkQuery
      else (c.arrived data).parseQuery := by
  unfold processQuery parse arrived
  rw [if_neg hne]
  by_cases h0 : c.qryType = 0
  · simp only [h0, if_true]
  · simp only [h0, if_false]

/-- At end-of-file nothing is parsed; else the kind of the request chooses the parser. -/
theorem processQuery_cases {st : Int} (h : c.processQuery data = .ok (st, d)) :
    (data = [] ∧ st = -1 ∧
        d = exit { c with queryBuff := c.queryBuff ++ List.replicate queryBuffLen 0 }) ∨
      (data ≠ [] ∧ (c.arrived data).qryType = 2 ∧
        (c.arrived data).parseBulkQuery = .ok (st, d)) ∨
      (data ≠ [] ∧ (c.arrived data).qryType ≠ 2 ∧ (c.arrived data).parseQuery = .ok (st, d)) := by
  by_cases hdata : data = []
  · unfold processQuery at h
    rw [if_pos hdata] at h
    cases h
    exact .inl ⟨hdata, rfl, rfl⟩
  · rw [processQuery_eq hdata] at h
    by_cases h2 : (c.arrived data).qryType = 2
    · rw [if_pos h2] at h
      exact .inr (.inl ⟨hdata, h2, h⟩)
    · rw [if_neg h2] at h
      exact .inr (.inr ⟨hdata, h2, h⟩)

/-- The words become a command exactly where the parser returns 0. -/
theorem processInput_cases {cmd : Option (List Bytes)} (h : c.processInput data = .ok (cmd, c')) :
    ∃ st d, c.processQuery data = .ok (st, d) ∧
      (st = 0 ∧ cmd = some d.paras ∧ c' = { d with paras := [] } ∨
        st ≠ 0 ∧ cmd = none ∧ c' = d) := by
  obtain ⟨⟨st, d⟩, hquery, h⟩ := bind_eq_ok.1 h
  refine ⟨st, d, hquery, ?_⟩
  by_cases hst : st = 0
  · simp only [hst, if_true] at h
    cases h
    exact .inl ⟨hst, rfl, rfl⟩
  · simp only [hst, if_false] at h
    cases h
    exact .inr ⟨hst, rfl, rfl⟩

theorem receive_length {buf : Bytes} (h : data.length ≤ queryBuffLen) :
    (receive buf data).length = buf.length + data.length := by
  simp only [receive, List.length_take, List.length_append, List.length_drop,
    List.length_replicate]
  omega

theorem nulTail_receive {buf : Bytes} (hbuf : NulTail buf) (h : data.length ≤ queryBuffLen) :
    NulTail (receive buf data) := by
  intro b hb
  simp only [receive] at hb
  rw [List.drop_take, List.drop_append, List.drop_eq_nil_of_le h, List.nil_append,
    List.drop_drop, Nat.add_sub_cancel' h, List.drop_append] at hb
  rcases List.mem_append.1 (List.mem_of_mem_take hb) with hb | hb
  · exact hbuf b hb
  · exact List.eq_of_mem_replicate (List.mem_of_mem_drop hb)

theorem nulTail_drop {buf : Bytes} (hbuf : NulTail buf) (n : Nat) : NulTail (buf.drop n) := by
  intro b hb
  rw [List.drop_drop, Nat.add_comm, ← List.drop_drop] at hb
  exact hbuf b (List.mem_of_mem_drop hb)

/-! ### What holds inside the loop, and between events -/

structure Sound (c : Client ω) : Prop where
  placed : ∃ q, c.Placed q
  idle : c.qryType ≠ 2 → c.qryPos = 0 ∧ c.multiBulkCnt = 0
  unread : c.multiBulkCnt = 0 → c.bulkLen = -1
  counted : c.multiBulkCnt ≠ 0 → 2 < c.queryBuff.length

structure Tidy (c : Client ω) : Prop extends Sound c where
  empty : c.multiBulkCnt = 0 → c.paras = []

theorem tidy_new (fd : Int) : (new fd : Client ω).Tidy where
  placed := ⟨0, rfl, Nat.zero_le _, Nat.two_pow_pos 31, fun b hb => by simp [new] at hb,
    Int.le.intro_sub _ rfl, Int.le.intro_sub _ rfl, fun h => absurd rfl h⟩
  idle _ := ⟨rfl, rfl⟩
  unread _ := rfl
  counted h := absurd rfl h
  empty _ := rfl

theorem Tidy.arrived (h : c.Tidy) (hfits : data.length ≤ queryBuffLen)
    (hroom : c.queryBuff.length + queryBuffLen < 2 ^ 31) : (c.arrived data).Tidy := by
  have hlen : (c.arrived data).queryBuff.length = c.queryBuff.length + data.length :=
    receive_length hfits
  obtain ⟨q, hq⟩ := h.placed
  refine ⟨⟨⟨q, hq.qryPos, ?_, ?_, nulTail_receive hq.tail hfits, hq.lower, hq.upper, hq.known⟩,
    fun hne => ?_, h.unread, fun hcnt => ?_⟩, h.empty⟩
  · have := hq.le
    omega
  · omega
  · refine h.idle fun h2 => hne ?_
    have h0 : c.qryType ≠ 0 := by rw [h2]; decide
    simp only [Client.arrived, if_neg h0]
    exact h2
  · have := h.counted hcnt
    omega

theorem Entry.tidy (h : Entry c d) (hc : c.Tidy) (h2 : c.qryType = 2) :
    d.Tidy ∧ d.qryType = 2 := by
  obtain ⟨q, hq⟩ := hc.placed
  have hplaced := h.placed hq
  cases h with
  | known => exact ⟨hc, h2⟩
  | line hcnt hp hok =>
    refine ⟨⟨⟨hplaced, fun h => absurd h2 h, fun _ => hc.unread hcnt, fun hne => ?_⟩,
      fun _ => hc.empty hcnt⟩, h2⟩
    have := hp.lt_length
    -- a short line would have left the count at zero
    rcases Nat.lt_or_ge 1 _ with hlt | hge
    · exact Nat.lt_of_le_of_lt hlt this
    · unfold countOf at hok
      rw [if_neg (by omega)] at hok
      exact absurd (Except.ok.inj hok).symm hne

theorem Round.sound (h : Round c d) (hc : c.Sound) (h2 : c.qryType = 2) :
    d.Sound ∧ d.qryType = 2 := by
  obtain ⟨q, hq⟩ := hc.placed
  have hplaced := h.placed hq
  cases h with
  | take hcnt =>
    exact ⟨⟨hplaced, fun h => absurd h2 h, fun _ => rfl, fun _ => hc.counted (by omega)⟩, h2⟩

theorem rounds_sound (h : ReflTransGen Round c d) (hc : c.Sound) (h2 : c.qryType = 2) :
    d.Sound ∧ d.qryType = 2 := by
  induction h with
  | refl => exact ⟨hc, h2⟩
  | tail _ hround ih => exact hround.sound ih.1 ih.2

theorem Sound.tidy (h : c.Sound) (hcnt : c.multiBulkCnt ≠ 0) : c.Tidy :=
  ⟨h, fun h0 => absurd h0 hcnt⟩

theorem Tidy.parseBulkQuery {st : Int} (h : c.Tidy) (h2 : c.qryType = 2)
    (hr : c.parseBulkQuery = .ok (st, c')) :
    (if st = 0 then ({ c' with paras := [] } : Client ω) else c').Tidy := by
  obtain ⟨q, hq⟩ := h.placed
  have hloop : ∀ {d e : Client ω}, Entry c d → ReflTransGen Round d e →
      e.Sound ∧ e.qryType = 2 := by
    intro d e hentry hrounds
    obtain ⟨hd, hd2⟩ := hentry.tidy h h2
    exact rounds_sound hrounds hd.toSound hd2
  cases parseBulkQuery_returned hq hr with
  | count => exact h
  | exhausted hentry => exact (hentry.tidy h h2).1
  | header hentry _ hrounds hne => exact (hloop hentry hrounds).1.tidy hne
  | arg hentry _ hrounds hcnt hhead =>
    obtain ⟨he, he2⟩ := hloop hentry hrounds
    obtain ⟨t, ht⟩ := he.placed
    obtain ⟨hreach, hle, hlo, hhi⟩ := hhead.bounds ht
    rw [if_neg (by decide)]
    refine Sound.tidy ⟨⟨_, rfl, hle, ht.size, ht.tail, hlo, hhi, fun _ => hreach⟩,
      fun hne => absurd he2 hne, fun h0 => ?_, he.counted⟩ (Int.ne_of_gt hcnt)
    exact absurd h0 (Int.ne_of_gt hcnt)
  | taken hentry _ hrounds h0 =>
    obtain ⟨he, -⟩ := hloop hentry hrounds
    obtain ⟨t, ht⟩ := he.placed
    have hsize := ht.size
    rw [if_pos rfl]
    refine ⟨⟨⟨0, rfl, Nat.zero_le _, ?_, nulTail_drop ht.tail _, ht.lower, ht.upper,
      fun hne => absurd (he.unread h0) hne⟩, fun _ => ⟨rfl, h0⟩, he.unread,
      fun hne => absurd h0 hne⟩, fun _ => rfl⟩
    simp only [List.length_drop]
    omega

/-- What `parseQuery` returns: it waits, or takes a line out of the buffer with its words. -/
theorem Tidy.parseQuery_cases {st : Int} (h : c.Tidy) (h2 : c.qryType ≠ 2)
    (hr : c.parseQuery = .ok (st, c')) : st = -1 ∧ c' = c ∨
      ∃ p, st = (if lineWords (c.queryBuff.take p) = [] then -1 else 0) ∧ c' = { c with
        paras := lineWords (c.queryBuff.take p)
        queryBuff := c.queryBuff.drop (p + 1)
        qryType := 0 } := by
  obtain ⟨q, hq⟩ := h.placed
  obtain ⟨hpos, hcnt⟩ := h.idle h2
  rw [parseQuery_eq hpos (h.empty hcnt) hq.size] at hr
  cases hfind : find c.queryBuff lf 0 with
  | none =>
    rw [hfind] at hr
    cases hr
    exact .inl ⟨rfl, rfl⟩
  | some p =>
    rw [hfind] at hr
    cases hr
    exact .inr ⟨p, ite_not .., rfl⟩

theorem Tidy.parseQuery {st : Int} (h : c.Tidy) (h2 : c.qryType ≠ 2)
    (hr : c.parseQuery = .ok (st, c')) :
    (if st = 0 then ({ c' with paras := [] } : Client ω) else c').Tidy := by
  obtain ⟨rfl, rfl⟩ | ⟨p, rfl, rfl⟩ := h.parseQuery_cases h2 hr
  · exact h
  · obtain ⟨q, hq⟩ := h.placed
    obtain ⟨hpos, hcnt⟩ := h.idle h2
    have hsize := hq.size
    have hsound : ∀ paras : List Bytes, ({ c with
        paras := paras
        queryBuff := c.queryBuff.drop (p + 1)
        qryType := 0 } : Client ω).Sound := by
      intro paras
      refine ⟨⟨0, hpos, Nat.zero_le _, ?_, nulTail_drop hq.tail _, hq.lower,
        hq.upper, fun hne => absurd (h.unread hcnt) hne⟩, fun _ => ⟨hpos, hcnt⟩, h.unread,
        fun hne => absurd hcnt hne⟩
      simp only [List.length_drop]
      omega
    by_cases hw : lineWords (c.queryBuff.take p) = []
    · rw [if_pos hw, hw]
      exact ⟨hsound _, fun _ => rfl⟩
    · rw [if_neg hw]
      exact ⟨hsound _, fun _ => rfl⟩

/-- At end-of-file the buffer only grows. -/
theorem Tidy.eof (h : c.Tidy) (hroom : c.queryBuff.length + queryBuffLen < 2 ^ 31) :
    (exit { c with queryBuff := c.queryBuff ++ List.replicate queryBuffLen 0 }).Tidy := by
  obtain ⟨q, hq⟩ := h.placed
  have hle := hq.le
  refine ⟨⟨⟨q, hq.qryPos, ?_, ?_, ?_, hq.lower, hq.upper, hq.known⟩, h.idle, h.unread,
    fun hcnt => ?_⟩, h.empty⟩
  · simp only [exit, List.length_append]
    omega
  · simp only [exit, List.length_append, List.length_replicate]
    omega
  · intro b hb
    simp only [exit, List.drop_append, List.mem_append] at hb
    rcases hb with hb | hb
    · exact hq.tail b hb
    · exact List.eq_of_mem_replicate (List.mem_of_mem_drop hb)
  · have := h.counted hcnt
    simp only [exit, List.length_append]
    omega

/-- Whatever a read delivers, and at end-of-file. -/
theorem Tidy.processInput {cmd : Option (List Bytes)} (h : c.Tidy)
    (hfits : data.length ≤ queryBuffLen) (hroom : c.queryBuff.length + queryBuffLen < 2 ^ 31)
    (hr : c.processInput data = .ok (cmd, c')) : c'.Tidy := by
  obtain ⟨st, d, hquery, hr⟩ := processInput_cases hr
  have harrived := h.arrived hfits hroom
  have hd : (if st = 0 then ({ d with paras := [] } : Client ω) else d).Tidy := by
    obtain ⟨-, rfl, rfl⟩ | ⟨-, h2, hparse⟩ | ⟨-, h2, hparse⟩ := processQuery_cases hquery
    · exact h.eof hroom
    · exact harrived.parseBulkQuery h2 hparse
    · exact harrived.parseQuery h2 hparse
  obtain ⟨hst, -, rfl⟩ | ⟨hst, -, rfl⟩ := hr
  · rwa [if_pos hst] at hd
  · rwa [if_neg hst] at hd

/-! ### Dispatches and exceptions -/

theorem processInput_dispatch {cmd : List Bytes} :
    c.processInput data = .ok (some cmd, c') ↔
      ∃ d, c.processQuery data = .ok (0, d) ∧ cmd = d.paras ∧ c' = { d with paras := [] } := by
  unfold processInput
  cases c.processQuery data with
  | error => simp [bind, Except.bind]
  | ok res =>
    obtain ⟨st, d⟩ := res
    by_cases hst : st = 0
    · simp [bind, Except.bind, pure, Except.pure, hst, forwardTask, eq_comm]
    · simp [bind, Except.bind, pure, Except.pure, hst]

theorem countOf_ne_substr (buf : Bytes) (p : Nat) :
    countOf buf p ≠ .error (.outOfRange .substr) := by
  unfold countOf
  split
  · exact stoi_ne_substr _
  · simp

theorem lenOf_ne_substr (buf : Bytes) (q p : Nat) :
    lenOf buf q p ≠ .error (.outOfRange .substr) := by
  unfold lenOf
  split
  · exact stoi_ne_substr _
  · simp

theorem Tidy.parseQuery_ok (h : c.Tidy) (h2 : c.qryType ≠ 2) : ∃ res, c.parseQuery = .ok res := by
  obtain ⟨q, hq⟩ := h.placed
  obtain ⟨hpos, hcnt⟩ := h.idle h2
  rw [parseQuery_eq hpos (h.empty hcnt) hq.size]
  cases find c.queryBuff lf 0 <;> exact ⟨_, rfl⟩

/-- An exception is one of `parseBulkQuery`, on the bytes just read. -/
theorem Tidy.processInput_error {ex : StdException} (h : c.Tidy)
    (hfits : data.length ≤ queryBuffLen) (hroom : c.queryBuff.length + queryBuffLen < 2 ^ 31) :
    c.processInput data = .error ex ↔ data ≠ [] ∧ (c.arrived data).qryType = 2 ∧
      (c.arrived data).parseBulkQuery = .error ex := by
  have hbind : c.processInput data = .error ex ↔ c.processQuery data = .error ex := by
    unfold Client.processInput
    cases c.processQuery data with
    | error => simp [bind, Except.bind]
    | ok res =>
      obtain ⟨st, d⟩ := res
      by_cases hst : st = 0 <;> simp [bind, Except.bind, hst, pure, Except.pure]
  rw [hbind]
  by_cases hdata : data = []
  · simp [processQuery, hdata]
  · rw [processQuery_eq hdata]
    by_cases h2 : (c.arrived data).qryType = 2
    · simp [hdata, h2]
    · obtain ⟨res, hok⟩ := (h.arrived hfits hroom).parseQuery_ok h2
      simp [h2, hok]

theorem Tidy.processInput_ne_substr (h : c.Tidy) (hfits : data.length ≤ queryBuffLen)
    (hroom : c.queryBuff.length + queryBuffLen < 2 ^ 31) :
    c.processInput data ≠ .error (.outOfRange .substr) := by
  intro herr
  obtain ⟨-, -, herr⟩ := (h.processInput_error hfits hroom).1 herr
  obtain ⟨q, hq⟩ := (h.arrived hfits hroom).placed
  have hend := (parseBulkQuery_eq_iff hq).1 herr
  generalize hr : (.error (.outOfRange .substr) : Except StdException (Int × Client ω)) = r at hend
  cases hend with
  | badCount _ _ hbad =>
    cases hr
    exact countOf_ne_substr _ _ hbad
  | loop _ _ _ hstop =>
    cases hstop with
    | bad _ _ _ _ hbad =>
      cases hr
      exact lenOf_ne_substr _ _ _ hbad
    | _ => cases hr
  | _ => cases hr

end Client

/-! ### Runs of events -/

namespace Session

/-- The server calls `read` on the connection and gets `data`, nothing at end-of-file. Where
`originLen + QUERY_BUFF_LEN` does not fit an `int` the code has no meaning. -/
structure CanRead (s : Session) (data : Bytes) : Prop where
  running : s.crashed = none
  connected : s.client.isExited = false
  fits : data.length ≤ queryBuffLen
  room : s.client.queryBuff.length + queryBuffLen < 2 ^ 31

instance (s : Session) (data : Bytes) : Decidable (s.CanRead data) :=
  decidable_of_iff (s.crashed = none ∧ s.client.isExited = false ∧ data.length ≤ queryBuffLen ∧
    s.client.queryBuff.length + queryBuffLen < 2 ^ 31)
    ⟨fun h => ⟨h.1, h.2.1, h.2.2.1, h.2.2.2⟩, fun h => ⟨h.1, h.2, h.3, h.4⟩⟩

/-- One `processInput` event. -/
def event (s : Session) (data : Bytes) : Option Session :=
  if s.CanRead data then some (s.feed data) else none

variable {s s' : Session} {data : Bytes}

theorem event_eq_some : s.event data = some s' ↔ s.CanRead data ∧ s' = s.feed data := by
  unfold event
  split
  · rename_i h
    simp [h, eq_comm]
  · rename_i h
    simp [h]

/-- What an event does: the server goes on, with at most one task more, or it has crashed. -/
theorem event_cases (h : s.event data = some s') : s.CanRead data ∧
    ((∃ cmd c, s.client.processInput data = .ok (cmd, c) ∧
        s' = ⟨c, s.tasks ++ cmd.toList, none⟩) ∨
      ∃ ex, s.client.processInput data = .error ex ∧ s' = { s with crashed := some ex }) := by
  obtain ⟨hread, rfl⟩ := event_eq_some.1 h
  refine ⟨hread, ?_⟩
  unfold feed
  rw [hread.running]
  cases hp : s.client.processInput data with
  | error ex => exact .inr ⟨ex, rfl, rfl⟩
  | ok res => exact .inl ⟨res.1, res.2, rfl, rfl⟩

theorem tidy_event (hs : s.client.Tidy) (h : s.event data = some s') : s'.client.Tidy := by
  obtain ⟨hread, ⟨cmd, c, hok, rfl⟩ | ⟨ex, -, rfl⟩⟩ := event_cases h
  · exact hs.processInput hread.fits hread.room hok
  · exact hs

theorem tidy_exec {fd : Int} {reads : List Bytes} (h : exec event (start fd) reads = some s) :
    s.client.Tidy :=
  Transition.invariant (I := fun s => s.client.Tidy) (fun _ _ _ hs h => tidy_event hs h)
    (Client.tidy_new fd) h

end Session

/-- The offset lies in the buffer; outside of a multi-bulk request nothing is under way. -/
structure Client.Coherent {ω : Type} (c : Client ω) : Prop where
  nonneg : 0 ≤ c.qryPos
  le : c.qryPos ≤ c.queryBuff.length
  idle : c.qryType ≠ 2 → c.qryPos = 0 ∧ c.multiBulkCnt = 0 ∧ c.bulkLen = -1 ∧ c.paras = []

theorem Client.Tidy.coherent {ω : Type} {c : Client ω} (h : c.Tidy) : c.Coherent := by
  obtain ⟨q, hq⟩ := h.placed
  refine ⟨?_, ?_, fun h2 => ?_⟩
  · rw [hq.qryPos]
    exact Int.natCast_nonneg q
  · rw [hq.qryPos]
    exact Int.ofNat_le.2 hq.le
  · obtain ⟨hpos, hcnt⟩ := h.idle h2
    exact ⟨hpos, hcnt, h.unread hcnt, h.empty hcnt⟩

/-- After any events the client is coherent, and no event has ended in an exception of `substr`. -/
theorem Session.events_coherent {fd : Int} {reads : List Bytes} {s : Session}
    (h : exec event (start fd) reads = some s) :
    s.client.Coherent ∧ s.crashed ≠ some (.outOfRange .substr) := by
  refine ⟨(tidy_exec h).coherent, ?_⟩
  refine (Transition.invariant
    (I := fun s => s.client.Tidy ∧ s.crashed ≠ some (.outOfRange .substr))
    (fun s data s' hs h => ⟨tidy_event hs.1 h, ?_⟩) ⟨Client.tidy_new fd, by simp [start]⟩ h).2
  obtain ⟨hread, ⟨cmd, c, hok, rfl⟩ | ⟨ex, herr, rfl⟩⟩ := event_cases h
  · simp
  · have := hs.1.processInput_ne_substr hread.fits hread.room
    rw [herr] at this
    simpa using this

/-- A negative length moves the offset back, the next line is short and the last length too
large. -/
theorem Session.events_coherent_negative :
    ∃ s, exec event (start 5) [ascii "*3\r\n$-2\r\n\n\n$99999\r\nab", ascii "x"] = some s ∧
      s.client.Coherent ∧ s.crashed ≠ some (.outOfRange .substr) := by
  obtain ⟨s, hs⟩ := Option.isSome_iff_exists.1 (show (exec event (start 5)
    [ascii "*3\r\n$-2\r\n\n\n$99999\r\nab", ascii "x"]).isSome by decide)
  exact ⟨s, hs, events_coherent hs⟩

end LittleLearning.Db
