import LittleLearning.Db.Bulk
import LittleLearning.Db.Inline

/-!
# One connection from its first read on

A session is a client with the tasks it has dispatched. `Session.run` feeds it
one read after the other. The stream of well-formed requests is decoded in
order as long as every read leaves the pending bytes alone (`Harmless`): then
the session after any reads is `Waiting` at the place the stream is cut.
-/

namespace LittleLearning.Db

open Cxx

structure Session where
  client : Client UInt8
  tasks : List (List Bytes)
  /-- The exception that ended the server. -/
  crashed : Option StdException

namespace Session

def start (fd : Int) : Session := ⟨.new fd, [], none⟩

/-- One read event with the bytes `data`. -/
def feed (s : Session) (data : Bytes) : Session :=
  match s.crashed with
  | some _ => s
  | none =>
    match s.client.processInput data with
    | .error e => { s with crashed := some e }
    | .ok (cmd, c) => { s with client := c, tasks := s.tasks ++ cmd.toList }

def run (fd : Int) (reads : List Bytes) : Session := reads.foldl feed (start fd)

@[simp] theorem run_nil (fd : Int) : run fd [] = start fd := rfl

@[simp] theorem run_snoc (fd : Int) (reads : List Bytes) (data : Bytes) :
    run fd (reads ++ [data]) = (run fd reads).feed data := by
  simp [run]

end Session

/-! ### Requests and reads -/

inductive Request where
  | bulk (args : List Bytes)
  | inline (words : List Bytes) (withCr : Bool)
  deriving DecidableEq

namespace Request

/-- The end of an inline line before its LF. -/
def lineCr (withCr : Bool) : Bytes := if withCr then [cr] else []

def encode : Request → Bytes
  | bulk args => encodeBulk args
  | inline words withCr => joinWords words ++ lineCr withCr ++ [lf]

/-- The command of the task the request asks for. -/
def args : Request → List Bytes
  | bulk args => args
  | inline words _ => words

/-- The bytes beyond the request that must be there as well. -/
def beyond : Request → Nat
  | bulk _ => 1
  | inline _ _ => 0

def WellFormed : Request → Prop
  | bulk args => args ≠ []
  | inline words _ =>
    words ≠ [] ∧ (∀ w ∈ words, IsWord w) ∧ ∀ w ∈ words.head?, w.head? ≠ some star

instance : DecidablePred WellFormed
  | bulk _ => inferInstanceAs (Decidable (_ ≠ _))
  | inline _ _ => inferInstanceAs (Decidable (_ ∧ _ ∧ _))

end Request

def stream (rs : List Request) : Bytes := rs.flatMap Request.encode

/-- `reads` cuts `bytes` into what single calls of `read` can deliver. -/
def Cut (reads : List Bytes) (bytes : Bytes) : Prop :=
  reads.flatten = bytes ∧ ∀ data ∈ reads, data ≠ [] ∧ data.length ≤ queryBuffLen

instance (reads : List Bytes) (bytes : Bytes) : Decidable (Cut reads bytes) :=
  inferInstanceAs (Decidable (_ ∧ _))

/-- Request `d` (from 0) is among the first `received` bytes, with what must be beyond it. -/
def complete (rs : List Request) (d received : Nat) : Bool :=
  match rs[d]? with
  | none => false
  | some r => (stream (rs.take d)).length + r.encode.length + r.beyond ≤ received

theorem complete_iff {rs : List Request} {d received : Nat} :
    complete rs d received = true ↔ ∃ r, rs[d]? = some r ∧
      (stream (rs.take d)).length + r.encode.length + r.beyond ≤ received := by
  unfold complete
  cases rs[d]? <;> simp

/-- The number of requests that should be dispatched after the reads: a read dispatches the next
one if that is complete. The second component counts the bytes. -/
def dueStep (rs : List Request) (p : Nat × Nat) (data : Bytes) : Nat × Nat :=
  (if complete rs p.1 (p.2 + data.length) then p.1 + 1 else p.1, p.2 + data.length)

def due (rs : List Request) (reads : List Bytes) : Nat := (reads.foldl (dueStep rs) (0, 0)).1

theorem foldl_dueStep_snd (rs : List Request) (reads : List Bytes) (p : Nat × Nat) :
    (reads.foldl (dueStep rs) p).2 = p.2 + reads.flatten.length := by
  induction reads generalizing p with
  | nil => simp
  | cons data reads ih =>
    rw [List.foldl_cons, ih, List.flatten_cons, List.length_append, ← Nat.add_assoc]
    rfl

@[simp] theorem due_nil (rs : List Request) : due rs [] = 0 := rfl

theorem due_snoc (rs : List Request) (reads : List Bytes) (data : Bytes) :
    due rs (reads ++ [data]) =
      if complete rs (due rs reads) (reads.flatten.length + data.length) then due rs reads + 1
      else due rs reads := by
  have h := foldl_dueStep_snd rs reads (0, 0)
  rw [Nat.zero_add] at h
  rw [due, List.foldl_append, List.foldl_cons, List.foldl_nil, dueStep, h]
  rfl

@[simp] theorem stream_nil : stream [] = [] := rfl

@[simp] theorem stream_cons (r : Request) (rs : List Request) :
    stream (r :: rs) = r.encode ++ stream rs := by simp [stream]

theorem stream_take_drop (rs : List Request) (d : Nat) :
    stream rs = stream (rs.take d) ++ stream (rs.drop d) := by
  rw [stream, stream, stream, ← List.flatMap_append, List.take_append_drop]

/-! ### Reads that leave the buffer alone -/

/-- Nothing is pending, or NULs are read over NULs. -/
def Harmless (buf data : Bytes) : Prop :=
  buf = [] ∨ (∀ b ∈ data, b = 0) ∧ ∀ b ∈ buf.take data.length, b = 0

instance (buf data : Bytes) : Decidable (Harmless buf data) :=
  inferInstanceAs (Decidable (_ ∨ _))

/-- Every one of the reads finds the buffer so that it does no harm. -/
def HarmlessRun (fd : Int) (reads : List Bytes) : Prop :=
  ∀ k data, reads[k]? = some data → Harmless (Session.run fd (reads.take k)).client.queryBuff data

theorem harmlessRun_snoc {fd : Int} {reads : List Bytes} {data : Bytes}
    (h : HarmlessRun fd (reads ++ [data])) :
    HarmlessRun fd reads ∧ Harmless (Session.run fd reads).client.queryBuff data := by
  constructor
  · intro k d hk
    have hlt : k < reads.length := by
      rcases Nat.lt_or_ge k reads.length with hlt | hge
      · exact hlt
      · rw [List.getElem?_eq_none hge] at hk; cases hk
    have := h k d (by rw [List.getElem?_append_left hlt, hk])
    rwa [List.take_append_of_le_length (by omega)] at this
  · have := h reads.length data (by simp)
    rwa [List.take_left] at this

/-- NULs at the end of a text with a period go back to its start. -/
theorem zeros_of_period {text : Bytes} {period m : Nat} (hpos : 0 < period)
    (hstep : ∀ i, i < m → text[i]? = text[i + period]?)
    (hend : ∀ i, m ≤ i → period ≤ i → i < period + m → text[i]? = some 0) :
    ∀ i, i < period + m → i < m ∨ period ≤ i → text[i]? = some 0 := by
  have hback : ∀ n i, period + m - i ≤ n → i < period + m → i < m ∨ period ≤ i →
      text[i]? = some 0 := by
    intro n
    induction n with
    | zero => intro i h1 h2; omega
    | succ n ih =>
      intro i h1 h2 h3
      rcases Nat.lt_or_ge i m with hi | hi
      · rw [hstep i hi]
        exact ih _ (by omega) (by omega) (.inr (by omega))
      · exact hend i hi (by omega) h2
  exact fun i h1 h2 => hback _ i le_rfl h1 h2

theorem receive_eq (buf data : Bytes) : Client.receive buf data =
    (data ++ (buf ++ List.replicate queryBuffLen 0).drop data.length).take
      (buf.length + data.length) := rfl

/-- Where the bytes read end up behind the pending ones, both are NULs. -/
theorem zeros_of_receive {buf data : Bytes} (h : data.length ≤ queryBuffLen) (hne : buf ≠ [])
    (he : Client.receive buf data = buf ++ data) :
    ∀ i, i < data.length ∨ buf.length ≤ i → i < buf.length + data.length →
      (buf ++ data)[i]? = some 0 := by
  rw [receive_eq] at he
  have hpos : 0 < buf.length := List.length_pos_iff.2 hne
  -- the buffer repeats with the period of what was pending, and ends in NULs
  have hstep : ∀ i, i < data.length → (buf ++ data)[i]? = (buf ++ data)[i + buf.length]? := by
    intro i hi
    rw [← he, List.getElem?_take_of_lt (by omega), List.getElem?_append_left hi, he,
      List.getElem?_append_right (by omega), Nat.add_sub_cancel]
  have hend : ∀ i, data.length ≤ i → buf.length ≤ i → i < buf.length + data.length →
      (buf ++ data)[i]? = some 0 := by
    intro i h1 h2 h3
    rw [← he, List.getElem?_take_of_lt h3, List.getElem?_append_right h1, List.getElem?_drop,
      List.getElem?_append_right (by omega), List.getElem?_replicate_of_lt (by omega)]
  exact fun i h1 h2 => zeros_of_period hpos hstep hend i h2 h1

/-- NULs over NULs: the buffer only grows. -/
theorem receive_of_zeros {buf data : Bytes} (h : data.length ≤ queryBuffLen)
    (hdata : ∀ b ∈ data, b = 0) (hbuf : ∀ b ∈ buf.take data.length, b = 0) :
    Client.receive buf data = buf ++ data := by
  rw [receive_eq]
  generalize hg : buf ++ List.replicate queryBuffLen (0 : UInt8) = grown
  have hlen : data.length ≤ grown.length := by
    simp only [← hg, List.length_append, List.length_replicate]; omega
  have hover : data = grown.take data.length := by
    have hz : ∀ b ∈ grown.take data.length, b = 0 := by
      intro b hb
      rw [← hg, List.take_append] at hb
      rcases List.mem_append.1 hb with hb | hb
      · exact hbuf b hb
      · exact List.eq_of_mem_replicate (List.mem_of_mem_take hb)
    have hl : (grown.take data.length).length = data.length := by simp; omega
    exact (List.eq_replicate_of_mem hdata).trans
      ((List.eq_replicate_of_mem hz).trans (by rw [hl])).symm
  have hsplit : data ++ grown.drop data.length = grown := by
    calc data ++ grown.drop data.length
        = grown.take data.length ++ grown.drop data.length := by rw [← hover]
      _ = grown := List.take_append_drop _ _
  rw [hsplit, ← hg, List.take_append, List.take_of_length_le (by omega),
    Nat.add_sub_cancel_left, List.take_replicate, Nat.min_eq_left h]
  congr 1
  exact (List.eq_replicate_of_mem hdata).symm

/-- The bytes read end up behind the pending ones exactly when the read is harmless. -/
theorem receive_eq_append_iff {buf data : Bytes} (h : data.length ≤ queryBuffLen) :
    Client.receive buf data = buf ++ data ↔ Harmless buf data := by
  constructor
  · intro he
    by_cases hne : buf = []
    · exact .inl hne
    have hzero := zeros_of_receive h hne he
    refine .inr ⟨fun b hb => ?_, fun b hb => ?_⟩
    · obtain ⟨i, hi⟩ := List.mem_iff_getElem?.1 hb
      have hlt : i < data.length := (List.getElem?_eq_some_iff.1 hi).1
      have := hzero (buf.length + i) (.inr (by omega)) (by omega)
      rw [List.getElem?_append_right (by omega), Nat.add_sub_cancel_left, hi] at this
      exact Option.some.inj this
    · obtain ⟨i, hi⟩ := List.mem_iff_getElem?.1 hb
      have hlt : i < (buf.take data.length).length := (List.getElem?_eq_some_iff.1 hi).1
      rw [List.length_take] at hlt
      have := hzero i (.inl (by omega)) (by omega)
      rw [List.getElem?_take_of_lt (by omega)] at hi
      rw [List.getElem?_append_left (by omega), hi] at this
      exact Option.some.inj this
  · rintro (rfl | ⟨hdata, hbuf⟩)
    · simp [Client.receive]
    · exact receive_of_zeros h hdata hbuf

/-! ### Where the parser waits -/

section

variable {ω : Type} {c : Client ω}

/-- `c` in the text of an inline line, all of it in `buf`. -/
def Client.inText (c : Client ω) (buf : Bytes) : Client ω := { c.idle buf [] with qryType := 1 }

theorem Client.parse_of_type_one (h : c.qryType = 1) : c.parse = c.parseQuery := by
  simp [Client.parse, h]

theorem Client.parse_of_type_two (h : c.qryType = 2) : c.parse = c.parseBulkQuery := by
  simp [Client.parse, h]

theorem Client.parse_star (h0 : c.qryType = 0) (h : c.queryBuff.head? = some star) :
    c.parse = ({ c with qryType := 2 } : Client ω).parseBulkQuery := by
  simp [Client.parse, h0, h]

theorem Client.parse_text (h0 : c.qryType = 0) (h : c.queryBuff.head? ≠ some star) :
    c.parse = ({ c with qryType := 1 } : Client ω).parseQuery := by
  simp [Client.parse, h0, h]

end

/-- The client between two reads, with `buf` of the requests `todo` in its buffer. -/
inductive Waiting (base : Client UInt8) (todo : List Request) (buf : Bytes) :
    Client UInt8 → Prop where
  /-- Before the next request. -/
  | idle : Waiting base todo buf (base.idle buf [])
  /-- In the text of an inline line. -/
  | text (words : List Bytes) (withCr : Bool) (rest : List Request) :
      todo = .inline words withCr :: rest → lf ∉ buf → buf ≠ [] →
      Waiting base todo buf (base.inText buf)
  /-- In a multi-bulk request. -/
  | bulk (args : List Bytes) (rest : List Request) (c : Client UInt8) :
      todo = .bulk args :: rest → BulkWait base args buf c → Waiting base todo buf c

variable {base c : Client UInt8} {todo rest : List Request} {buf buf' : Bytes} {r : Request}

theorem BulkWait.fields {args : List Bytes} (h : BulkWait base args buf c) :
    c.queryBuff = buf ∧ c.qryType = 2 := by
  cases h <;> exact ⟨rfl, rfl⟩

theorem Waiting.queryBuff (h : Waiting base todo buf c) : c.queryBuff = buf := by
  cases h with
  | idle => rfl
  | text => rfl
  | bulk args rest c _ h => exact h.fields.1

/-- The text of an inline request, before its LF. -/
theorem encode_inline (words : List Bytes) (withCr : Bool) :
    (Request.inline words withCr).encode = joinWords words ++ Request.lineCr withCr ++ [lf] := rfl

theorem lineCr_cases (withCr : Bool) :
    Request.lineCr withCr = [] ∨ Request.lineCr withCr = [cr] := by
  cases withCr
  · exact .inl rfl
  · exact .inr rfl

theorem lf_notMem_text {words : List Bytes} {withCr : Bool} (h : ∀ w ∈ words, IsWord w) :
    lf ∉ joinWords words ++ Request.lineCr withCr := by
  have hne : lf ≠ cr := by decide
  rcases lineCr_cases withCr with he | he <;> simp [he, lf_notMem_joinWords h, hne]

/-- What the buffer of a client is dispatched as, or how the client waits for more. -/
def Stepped (base : Client UInt8) (r : Request) (rest : List Request) (buf : Bytes)
    (res : Except StdException (Int × Client UInt8)) : Prop :=
  if r.encode.length + r.beyond ≤ buf.length then
    res = .ok (0, base.idle (buf.drop r.encode.length) r.args)
  else ∃ c, res = .ok (-1, c) ∧ Waiting base (r :: rest) buf c

theorem stepped_bulk {args : List Bytes} {res : Except StdException (Int × Client UInt8)}
    (h : Decoded base args buf res) : Stepped base (.bulk args) rest buf res := by
  unfold Decoded at h
  unfold Stepped
  have hneed : (Request.bulk args).encode.length + (Request.bulk args).beyond =
      (encodeBulk args).length + 1 := rfl
  rcases Nat.lt_or_ge (encodeBulk args).length buf.length with hlt | hge
  · rw [if_neg (by omega)] at h
    rwa [if_pos (by omega)]
  · rw [if_pos hge] at h
    obtain ⟨c, hres, hw⟩ := h
    rw [if_neg (by omega)]
    exact ⟨c, hres, .bulk args rest c rfl hw⟩

/-- `parseQuery` on a prefix of the remaining stream, from the start of a line. -/
theorem stepped_inline {words : List Bytes} {withCr : Bool}
    (hwf : (Request.inline words withCr).WellFormed) (hne : buf ≠ [])
    (hpre : buf <+: (Request.inline words withCr).encode ++ stream rest)
    (hlen : (Request.inline words withCr).encode.length < 2 ^ 30) :
    Stepped base (.inline words withCr) rest buf (base.inText buf).parseQuery := by
  obtain ⟨hws, hword, -⟩ := hwf
  have hlf : lf ∉ joinWords words ++ Request.lineCr withCr := lf_notMem_text hword
  generalize htext : joinWords words ++ Request.lineCr withCr = text at *
  have henc : (Request.inline words withCr).encode = text ++ [lf] := by rw [encode_inline, htext]
  rw [henc] at hpre hlen
  unfold Stepped
  rw [henc]
  rcases Nat.lt_or_ge text.length buf.length with hlong | hshort
  · rw [if_pos (by simp [Request.beyond]; omega)]
    obtain ⟨t, rfl⟩ : ∃ t, buf = text ++ lf :: t := by
      have hwhole : text ++ [lf] <+: buf :=
        List.prefix_of_prefix_length_le (List.prefix_append _ _) hpre (by simp; omega)
      obtain ⟨t, ht⟩ := hwhole
      exact ⟨t, by rw [← ht]; simp⟩
    have hlines : lineWords text = words := by
      rw [← htext]
      exact lineWords_joinWords (lineCr_cases withCr) hws hword
    rw [parseQuery_line rfl hlf rfl rfl (by simp at hlen; omega), hlines,
      if_pos hws]
    simp [Request.args, Client.idle, Client.inText]
  · rw [if_neg (by simp [Request.beyond]; omega)]
    have htextpre : buf <+: text := by
      rw [List.append_assoc] at hpre
      exact List.prefix_of_prefix_length_le hpre (List.prefix_append _ _) hshort
    have hlf' : lf ∉ buf := fun h => hlf (htextpre.subset h)
    exact ⟨_, parseQuery_wait hlf' rfl, .text words withCr rest rfl hlf' hne⟩

theorem head_encode_inline {words : List Bytes} {withCr : Bool}
    (hwf : (Request.inline words withCr).WellFormed) :
    ∃ b t, (Request.inline words withCr).encode = b :: t ∧ b ≠ star := by
  obtain ⟨hws, hword, hstar⟩ := hwf
  obtain ⟨w, ws, rfl⟩ := List.exists_cons_of_ne_nil hws
  obtain ⟨b, v, rfl⟩ := List.exists_cons_of_ne_nil (hword w (by simp)).1
  have hb : b ≠ star := by simpa using hstar
  cases ws with
  | nil => exact ⟨b, v ++ Request.lineCr withCr ++ [lf], by simp [encode_inline, joinWords], hb⟩
  | cons u ws => exact ⟨b, _, by rw [encode_inline, joinWords_cons]; rfl, hb⟩

/-- The parser on a longer buffer, wherever it waits. -/
theorem parse_waiting (hw : Waiting base (r :: rest) buf c) (hwf : r.WellFormed)
    (hbuf : buf <+: buf') (hne : buf' ≠ []) (hpre : buf' <+: r.encode ++ stream rest)
    (hlen : buf'.length < 2 ^ 30) (hreq : r.encode.length < 2 ^ 30) :
    Stepped base r rest buf' ({ c with queryBuff := buf' } : Client UInt8).parse := by
  cases hw with
  | idle =>
    cases r with
    | bulk args =>
      have hhead : buf'.head? = some star := by
        obtain ⟨b, t, rfl⟩ := List.exists_cons_of_ne_nil hne
        obtain ⟨u, hu⟩ := hpre
        simp only [Request.encode, encodeBulk, countLine, List.cons_append] at hu
        rw [List.head?_cons, (List.cons.inj hu).1]
      have hparse : ({ base.idle buf [] with queryBuff := buf' } : Client UInt8).parse =
          (base.bulkAt buf' [] [] 0 (-1)).parseBulkQuery := Client.parse_star rfl hhead
      rw [hparse]
      exact stepped_bulk (parseBulkQuery_decoded (.count (by simp)) (List.nil_prefix) hpre hwf hlen
        hreq)
    | inline words withCr =>
      have hhead : buf'.head? ≠ some star := by
        obtain ⟨b, t, rfl⟩ := List.exists_cons_of_ne_nil hne
        obtain ⟨u, hu⟩ := hpre
        obtain ⟨b', t', he, hb'⟩ := head_encode_inline hwf
        rw [he, List.cons_append, List.cons_append] at hu
        rw [List.head?_cons, (List.cons.inj hu).1]
        simpa using hb'
      have hparse : ({ base.idle buf [] with queryBuff := buf' } : Client UInt8).parse =
          (base.inText buf').parseQuery := Client.parse_text rfl hhead
      rw [hparse]
      exact stepped_inline hwf hne hpre hreq
  | text words withCr rest' htodo hlf hbne =>
    cases htodo
    have hparse : ({ base.inText buf with queryBuff := buf' } : Client UInt8).parse =
        (base.inText buf').parseQuery := Client.parse_of_type_one rfl
    rw [hparse]
    exact stepped_inline hwf hne hpre hreq
  | bulk args rest' c htodo hw =>
    cases htodo
    have hparse : ({ c with queryBuff := buf' } : Client UInt8).parse =
        ({ c with queryBuff := buf' } : Client UInt8).parseBulkQuery :=
      Client.parse_of_type_two hw.fields.2
    rw [hparse]
    exact stepped_bulk (parseBulkQuery_decoded hw hbuf hpre hwf hlen hreq)

/-! ### Runs of harmless reads -/

theorem Client.processInput_of_parse {data : Bytes} {st : Int} {c' : Client UInt8}
    (hne : data ≠ [])
    (h : ({ c with queryBuff := Client.receive c.queryBuff data } : Client UInt8).parse =
      .ok (st, c')) :
    c.processInput data =
      .ok (if st = 0 then (some c'.paras, { c' with paras := [] }) else (none, c')) := by
  unfold Client.processInput Client.processQuery
  rw [if_neg hne, h]
  by_cases hst : st = 0 <;> simp [bind, Except.bind, pure, Except.pure, hst, Client.forwardTask]

theorem Session.feed_of_parse {s : Session} {data : Bytes} {st : Int} {c' : Client UInt8}
    (hs : s.crashed = none) (hne : data ≠ [])
    (h : ({ s.client with queryBuff := Client.receive s.client.queryBuff data } :
      Client UInt8).parse = .ok (st, c')) :
    s.feed data = if st = 0 then ⟨{ c' with paras := [] }, s.tasks ++ [c'.paras], none⟩
      else ⟨c', s.tasks, none⟩ := by
  unfold Session.feed
  rw [hs, Client.processInput_of_parse hne h]
  by_cases hst : st = 0 <;> simp [hst]

/-- The session after harmless reads of a prefix of the stream. -/
structure Decoding (fd : Int) (rs : List Request) (reads : List Bytes) (d : Nat) : Prop where
  notCrashed : (Session.run fd reads).crashed = none
  tasks : (Session.run fd reads).tasks = (rs.take d).map Request.args
  received : (stream (rs.take d)).length ≤ reads.flatten.length
  waiting : Waiting (.new fd) (rs.drop d) (reads.flatten.drop (stream (rs.take d)).length)
    (Session.run fd reads).client

theorem decoding_nil (fd : Int) (rs : List Request) : Decoding fd rs [] 0 where
  notCrashed := rfl
  tasks := rfl
  received := by simp
  waiting := .idle

theorem stream_take_succ {rs : List Request} {d : Nat} (h : rs[d]? = some r) :
    stream (rs.take (d + 1)) = stream (rs.take d) ++ r.encode := by
  rw [List.take_add_one, h, stream, stream, List.flatMap_append]
  simp

/-- One more read. -/
theorem Decoding.snoc {fd : Int} {rs : List Request} {reads : List Bytes} {data : Bytes} {d : Nat}
    (hd : Decoding fd rs reads d) (hwf : ∀ r ∈ rs, r.WellFormed)
    (htot : (stream rs).length < 2 ^ 30) (hpre : (reads ++ [data]).flatten <+: stream rs)
    (hne : data ≠ []) (hlen : data.length ≤ queryBuffLen)
    (hharm : Harmless (Session.run fd reads).client.queryBuff data) :
    Decoding fd rs (reads ++ [data])
      (if complete rs d (reads.flatten.length + data.length) then d + 1 else d) := by
  have hsplit := stream_take_drop rs d
  have hrecv := hd.received
  generalize hn : (stream (rs.take d)).length = n at *
  have hflat : (reads ++ [data]).flatten = reads.flatten ++ data := by simp
  rw [hflat] at hpre
  -- what is in the buffer after the read is the stream cut off at its two ends
  have hbuf' : (reads.flatten ++ data).drop n = reads.flatten.drop n ++ data :=
    List.drop_append_of_le_length hrecv
  have hpre' : reads.flatten.drop n ++ data <+: stream (rs.drop d) := by
    have hdrop : (stream rs).drop n = stream (rs.drop d) := by rw [hsplit, ← hn, List.drop_left]
    have := hpre.drop n
    rwa [hbuf', hdrop] at this
  have hwait := hn ▸ hd.waiting
  have hparsed : Client.receive (Session.run fd reads).client.queryBuff data =
      reads.flatten.drop n ++ data := by
    rw [(receive_eq_append_iff hlen).2 hharm, hwait.queryBuff]
  generalize hb : reads.flatten.drop n ++ data = buf' at *
  have hbne : buf' ≠ [] := by
    rw [← hb]; simp [hne]
  have hblen : buf'.length + n = reads.flatten.length + data.length := by
    rw [← hb, List.length_append, List.length_drop]; omega
  have htotal := hpre.length_le
  rw [List.length_append] at htotal
  cases hr : rs[d]? with
  | none =>
    -- all requests are dispatched: nothing is left to read
    have hnil : rs.drop d = [] := List.drop_eq_nil_of_le (List.getElem?_eq_none_iff.1 hr)
    rw [hnil, stream_nil, List.prefix_nil] at hpre'
    exact absurd hpre' hbne
  | some r =>
    have htodo : rs.drop d = r :: rs.drop (d + 1) := by
      obtain ⟨hlt, hr'⟩ := List.getElem?_eq_some_iff.1 hr
      rw [List.drop_eq_getElem_cons hlt, hr']
    have hreq : r.encode.length + n ≤ (stream rs).length := by
      rw [hsplit, htodo, stream_cons]; simp [hn]; omega
    rw [htodo] at hwait
    rw [htodo, stream_cons] at hpre'
    have hgrown : reads.flatten.drop n <+: buf' := hb ▸ List.prefix_append _ _
    have hstep := parse_waiting hwait (hwf r (List.mem_of_getElem? hr)) hgrown hbne hpre'
      (by omega) (by omega)
    have hcomplete : complete rs d (reads.flatten.length + data.length) =
        decide (r.encode.length + r.beyond ≤ buf'.length) := by
      simp only [complete, hr, hn, decide_eq_decide]
      omega
    rw [hcomplete]
    unfold Stepped at hstep
    by_cases hdone : r.encode.length + r.beyond ≤ buf'.length
    · rw [if_pos hdone, ← hparsed] at hstep
      have hfeed := Session.feed_of_parse hd.notCrashed hne hstep
      rw [if_pos rfl, hparsed] at hfeed
      rw [if_pos (by simpa using hdone)]
      have htake := stream_take_succ hr
      refine ⟨?_, ?_, ?_, ?_⟩
      · rw [Session.run_snoc, hfeed]
      · rw [Session.run_snoc, hfeed, hd.tasks, List.take_add_one, hr]
        simp [Client.idle]
      · rw [htake, hflat, List.length_append, List.length_append, hn]
        omega
      · have hrest : (reads.flatten ++ data).drop (n + r.encode.length) =
            buf'.drop r.encode.length := by rw [← hbuf', List.drop_drop]
        rw [Session.run_snoc, hfeed, htake, hflat, List.length_append, hn, hrest]
        exact .idle
    · rw [if_neg hdone, ← hparsed] at hstep
      obtain ⟨c', hparse, hw'⟩ := hstep
      have hfeed := Session.feed_of_parse hd.notCrashed hne hparse
      rw [if_neg (by decide)] at hfeed
      rw [if_neg (by simpa using hdone)]
      refine ⟨?_, ?_, ?_, ?_⟩
      · rw [Session.run_snoc, hfeed]
      · rw [Session.run_snoc, hfeed, hd.tasks]
      · rw [hflat, List.length_append]
        omega
      · rw [Session.run_snoc, hfeed, hflat, hn, hbuf', htodo]
        rwa [hparsed] at hw'

theorem decoding_run {fd : Int} {rs : List Request} {reads : List Bytes}
    (hwf : ∀ r ∈ rs, r.WellFormed) (htot : (stream rs).length < 2 ^ 30)
    (hpre : reads.flatten <+: stream rs)
    (hreads : ∀ data ∈ reads, data ≠ [] ∧ data.length ≤ queryBuffLen)
    (hharm : HarmlessRun fd reads) : Decoding fd rs reads (due rs reads) := by
  induction reads using List.reverseRecOn with
  | nil => exact decoding_nil fd rs
  | append_singleton reads data ih =>
    obtain ⟨hharm, hlast⟩ := harmlessRun_snoc hharm
    have hpre' : reads.flatten <+: stream rs := by
      refine List.IsPrefix.trans ?_ hpre
      simp
    have hd := ih hpre' (fun x hx => hreads x (by simp [hx])) hharm
    obtain ⟨hne, hlen⟩ := hreads data (by simp)
    rw [due_snoc]
    exact hd.snoc hwf htot hpre hne hlen hlast

/-! ### In order, byte for byte -/

/-- After `k` reads the first `d k` requests are dispatched, and nothing else; a read dispatches
the next request if and only if that is complete with it. -/
def InOrder (fd : Int) (rs : List Request) (reads : List Bytes) (k : Nat) : Prop :=
  ∃ d : Nat → Nat, d 0 = 0 ∧
    (∀ j, j < k →
      d (j + 1) = if complete rs (d j) (reads.take (j + 1)).flatten.length then d j + 1 else d j) ∧
    ∀ j, j ≤ k → (Session.run fd (reads.take j)).crashed = none ∧
      (Session.run fd (reads.take j)).tasks = (rs.take (d j)).map Request.args

theorem InOrder.due_eq {fd : Int} {rs : List Request} {reads : List Bytes} {k : Nat}
    (hk : k ≤ reads.length) (h : InOrder fd rs reads k) :
    (Session.run fd (reads.take k)).tasks = (rs.take (due rs (reads.take k))).map Request.args := by
  obtain ⟨d, h0, hstep, htasks⟩ := h
  have hd : ∀ j, j ≤ k → d j = due rs (reads.take j) := by
    intro j
    induction j with
    | zero => intro _; simpa using h0
    | succ j ih =>
      intro hj
      have hlt : j < reads.length := by omega
      have htake : reads.take (j + 1) = reads.take j ++ [reads[j]] := by
        rw [List.take_add_one, List.getElem?_eq_getElem hlt]; rfl
      rw [hstep j (by omega), ih (by omega), htake, due_snoc]
      simp only [List.flatten_append, List.length_append, List.flatten_cons, List.flatten_nil,
        List.append_nil]
  rw [(htasks k le_rfl).2, hd k le_rfl]

/-- As long as every read is harmless, the requests of the stream are dispatched in order, each
by the read that completes it. -/
theorem harmless_inOrder {fd : Int} {rs : List Request} {reads : List Bytes} {k : Nat}
    (hwf : ∀ r ∈ rs, r.WellFormed) (htot : (stream rs).length < 2 ^ 30)
    (hcut : Cut reads (stream rs)) (hk : k ≤ reads.length)
    (hharm : HarmlessRun fd (reads.take k)) : InOrder fd rs reads k := by
  refine ⟨fun j => due rs (reads.take j), by simp, fun j hj => ?_, fun j hj => ?_⟩
  · have hlt : j < reads.length := by omega
    have htake : reads.take (j + 1) = reads.take j ++ [reads[j]] := by
      rw [List.take_add_one, List.getElem?_eq_getElem hlt]; rfl
    simp only [htake, due_snoc, List.flatten_append, List.length_append, List.flatten_cons,
      List.flatten_nil, List.append_nil]
  · have hpre : (reads.take j).flatten <+: stream rs := by
      rw [← hcut.1]
      conv_rhs => rw [← List.take_append_drop j reads, List.flatten_append]
      exact List.prefix_append _ _
    have hharm' : HarmlessRun fd (reads.take j) := by
      intro i data hi
      have hij : i < j := by
        rcases Nat.lt_or_ge i j with h | h
        · exact h
        · rw [List.getElem?_eq_none (by simp; omega)] at hi; cases hi
      have := hharm i data (by rw [List.getElem?_take_of_lt (by omega)] at hi ⊢; exact hi)
      rwa [List.take_take, Nat.min_eq_left (by omega)] at this ⊢
    have hd : Decoding fd _ _ _ := decoding_run hwf htot hpre
      (fun data h => hcut.2 data (List.mem_of_mem_take h)) hharm'
    exact ⟨hd.notCrashed, hd.tasks⟩

/-- Both reads find an empty buffer. The last line comes with the multi-bulk request before it
and stays undispatched. -/
theorem harmless_inOrder_pipelined :
    InOrder 5 [.inline [ascii "get", ascii "k"] true, .bulk [ascii "get", ascii "k"],
        .inline [ascii "exit"] false]
      [ascii "get k\r\n", ascii "*2\r\n$3\r\nget\r\n$1\r\nk\r\nexit\n"] 2 :=
  harmless_inOrder (by decide +kernel) (by decide) (by decide) (by decide) fun k data hk => by
    match k with
    | 0 => exact .inl rfl
    | 1 => exact .inl (by decide)
    | k + 2 => simp at hk

/-- The line "a" is lost when its LF comes in a second read, which overwrites the "a". -/
theorem not_inOrder_split :
    ¬ ∀ (fd : Int) (rs : List Request) (reads : List Bytes), (∀ r ∈ rs, r.WellFormed) →
      (stream rs).length < 2 ^ 30 → Cut reads (stream rs) → InOrder fd rs reads reads.length := by
  intro h
  have := (h 5 [.inline [ascii "a"] false] [ascii "a", ascii "\n"] (by decide +kernel) (by decide)
    (by decide)).due_eq (by decide)
  exact absurd this (by decide)

end LittleLearning.Db
