import LittleLearning.Db.Session

/-!
# Requests cut into single bytes

A byte read alone lands on the first byte of the buffer and pushes a NUL in at
its end. So when a line arrives byte by byte, its LF is found at index 0: an
inline line comes out empty and is dropped, the header of a multi-bulk request
is taken for a request without arguments.
-/

namespace LittleLearning.Db

open Cxx

/-! ### Reading over the buffer -/

/-- What is read stands at the front of the buffer. -/
theorem prefix_receive (buf data : Bytes) : data <+: Client.receive buf data := by
  show data <+: (data ++ (buf ++ List.replicate queryBuffLen 0).drop data.length).take
    (buf.length + data.length)
  rw [List.take_append, List.take_of_length_le (by omega)]
  exact List.prefix_append _ _

theorem receive_byte (x : UInt8) (buf : Bytes) (b : UInt8) :
    Client.receive (x :: buf) [b] = b :: (buf ++ [0]) := by
  show (b :: (buf ++ List.replicate queryBuffLen 0)).take (buf.length + 1 + 1) = _
  rw [List.take_succ_cons, List.take_append, List.take_of_length_le (by omega),
    Nat.add_sub_cancel_left, List.take_replicate]
  rfl

theorem receive_cons_zeros (j : Nat) (x b : UInt8) :
    Client.receive (x :: List.replicate j 0) [b] = b :: List.replicate (j + 1) 0 := by
  rw [receive_byte, ← List.replicate_succ']

theorem receive_zeros (j : Nat) (b : UInt8) :
    Client.receive (List.replicate j 0) [b] = b :: List.replicate j 0 := by
  cases j with
  | zero =>
    have hone : [b].length ≤ queryBuffLen := by rw [List.length_singleton]; decide
    exact (receive_eq_append_iff hone).2 (.inl rfl)
  | succ j => exact receive_cons_zeros j 0 b

/-- The bytes of a stream, each in a read of its own. -/
def singles (bytes : Bytes) : List Bytes := bytes.map fun b => [b]

theorem cut_singles (bytes : Bytes) : Cut (singles bytes) bytes := by
  constructor
  · rw [singles, ← List.flatMap_def]
    simp
  · intro data h
    obtain ⟨b, -, rfl⟩ := List.mem_map.1 h
    simp [queryBuffLen]

/-! ### Sessions go on -/

namespace Session

/-- The reads fed to a session that has already begun. -/
def feedAll (s : Session) (reads : List Bytes) : Session := reads.foldl feed s

@[simp] theorem feedAll_nil (s : Session) : s.feedAll [] = s := rfl

@[simp] theorem feedAll_cons (s : Session) (data : Bytes) (reads : List Bytes) :
    s.feedAll (data :: reads) = (s.feed data).feedAll reads := rfl

@[simp] theorem feedAll_append (s : Session) (reads more : List Bytes) :
    s.feedAll (reads ++ more) = (s.feedAll reads).feedAll more := by simp [feedAll]

theorem run_eq_feedAll (fd : Int) (reads : List Bytes) :
    run fd reads = (start fd).feedAll reads := rfl

theorem tasks_prefix_feed (s : Session) (data : Bytes) : s.tasks <+: (s.feed data).tasks := by
  unfold feed
  cases s.crashed with
  | some _ => exact List.prefix_rfl
  | none =>
    cases s.client.processInput data with
    | error _ => exact List.prefix_rfl
    | ok res => exact List.prefix_append _ _

/-- A task once dispatched stays dispatched. -/
theorem tasks_prefix_feedAll (s : Session) (reads : List Bytes) :
    s.tasks <+: (s.feedAll reads).tasks := by
  induction reads generalizing s with
  | nil => exact List.prefix_rfl
  | cons data reads ih => exact (tasks_prefix_feed s data).trans (ih _)

end Session

/-! ### A line byte by byte -/

/-- Before a line: of all that was read only NULs are left. -/
def AtStart (base : Client UInt8) (s : Session) : Prop :=
  s.crashed = none ∧ ∃ j, s.client = base.idle (List.replicate j 0) []

/-- In a line: its last byte stands first, then NULs. -/
def MidLine (base : Client UInt8) (s : Session) : Prop :=
  s.crashed = none ∧ ∃ b j, b ≠ lf ∧ s.client = base.inText (b :: List.replicate j 0)

variable {base : Client UInt8} {s : Session} {b : UInt8}

theorem lf_notMem_cons_zeros {j : Nat} (h : b ≠ lf) : lf ∉ b :: List.replicate j 0 := by
  have hz : lf ≠ 0 := by decide
  simp [h.symm, hz]

theorem AtStart.feed_byte (h : AtStart base s) (hlf : b ≠ lf) (hstar : b ≠ star) :
    MidLine base (s.feed [b]) ∧ (s.feed [b]).tasks = s.tasks := by
  obtain ⟨hc, j, hj⟩ := h
  have hrecv : Client.receive s.client.queryBuff [b] = b :: List.replicate j 0 := by
    rw [hj]; exact receive_zeros j b
  have hparse : ({ s.client with queryBuff := Client.receive s.client.queryBuff [b] } :
      Client UInt8).parse = .ok (-1, base.inText (b :: List.replicate j 0)) := by
    rw [hrecv, hj]
    have h1 : ({ base.idle (List.replicate j 0) [] with queryBuff := b :: List.replicate j 0 } :
        Client UInt8).parse = (base.inText (b :: List.replicate j 0)).parseQuery :=
      Client.parse_text rfl (by simpa using hstar)
    rw [h1]
    exact parseQuery_wait (lf_notMem_cons_zeros hlf) rfl
  rw [Session.feed_of_parse hc (by simp) hparse, if_neg (by decide)]
  exact ⟨⟨rfl, b, j, hlf, rfl⟩, rfl⟩

theorem MidLine.receive (h : MidLine base s) (b : UInt8) :
    ∃ j, ({ s.client with queryBuff := Client.receive s.client.queryBuff [b] } :
      Client UInt8).parse = (base.inText (b :: List.replicate j 0)).parseQuery := by
  obtain ⟨-, x, j, -, hj⟩ := h
  have hrecv : Client.receive s.client.queryBuff [b] = b :: List.replicate (j + 1) 0 := by
    rw [hj]; exact receive_cons_zeros j x b
  refine ⟨j + 1, ?_⟩
  rw [hrecv, hj]
  exact Client.parse_of_type_one rfl

theorem MidLine.feed_byte (h : MidLine base s) (hlf : b ≠ lf) :
    MidLine base (s.feed [b]) ∧ (s.feed [b]).tasks = s.tasks := by
  obtain ⟨j, hparse⟩ := h.receive b
  rw [parseQuery_wait (lf_notMem_cons_zeros hlf) rfl] at hparse
  rw [Session.feed_of_parse h.1 (by simp) hparse, if_neg (by decide)]
  exact ⟨⟨rfl, b, j, hlf, rfl⟩, rfl⟩

/-- The LF is found first: the line is empty. -/
theorem MidLine.feed_lf (h : MidLine base s) :
    AtStart base (s.feed [lf]) ∧ (s.feed [lf]).tasks = s.tasks := by
  obtain ⟨j, hparse⟩ := h.receive lf
  have hempty : lf ∉ ([] : Bytes) := by simp
  rw [parseQuery_line rfl hempty rfl rfl (by simp)] at hparse
  rw [lineWords_nil, if_neg (by simp)] at hparse
  rw [Session.feed_of_parse h.1 (by simp) hparse, if_neg (by decide)]
  exact ⟨⟨rfl, j, rfl⟩, rfl⟩

theorem MidLine.feed_text {text : Bytes} (h : MidLine base s) (hlf : lf ∉ text) :
    MidLine base (s.feedAll (singles text)) ∧ (s.feedAll (singles text)).tasks = s.tasks := by
  induction text generalizing s with
  | nil => exact ⟨h, rfl⟩
  | cons b text ih =>
    simp only [List.mem_cons, not_or] at hlf
    obtain ⟨h1, h2⟩ := h.feed_byte (Ne.symm hlf.1)
    obtain ⟨h3, h4⟩ := ih h1 hlf.2
    exact ⟨h3, h4.trans h2⟩

theorem AtStart.feed_text {text : Bytes} (h : AtStart base s) (hlf : lf ∉ text)
    (hstar : ∀ b ∈ text.head?, b ≠ star) (hne : text ≠ []) :
    MidLine base (s.feedAll (singles text)) ∧ (s.feedAll (singles text)).tasks = s.tasks := by
  obtain ⟨b, text, rfl⟩ := List.exists_cons_of_ne_nil hne
  simp only [List.mem_cons, not_or] at hlf
  obtain ⟨h1, h2⟩ := h.feed_byte (Ne.symm hlf.1) (hstar b (by simp))
  obtain ⟨h3, h4⟩ := h1.feed_text hlf.2
  exact ⟨h3, h4.trans h2⟩

theorem singles_append (p q : Bytes) : singles (p ++ q) = singles p ++ singles q := by
  simp [singles]

theorem getLast_joinWords : ∀ {words : List Bytes}, (∀ w ∈ words, IsWord w) →
    ∀ b ∈ (joinWords words).getLast?, IsWord [b]
  | [], _, b, hb => by simp [joinWords] at hb
  | [w], h, b, hb => by
    have hmem : b ∈ w := by
      have hjoin : joinWords [w] = w := by simp [joinWords]
      rw [hjoin] at hb
      exact List.mem_of_getLast? hb
    refine ⟨by simp, fun x hx => ?_⟩
    rw [List.mem_singleton.1 hx]
    exact (h w (by simp)).2 b hmem
  | w :: v :: words, h, b, hb => by
    have hrest : ∀ x ∈ v :: words, IsWord x := fun x hx => h x (by simp [hx])
    have hne := joinWords_ne_nil (by simp) hrest
    apply getLast_joinWords hrest b
    rw [joinWords_cons, List.getLast?_append_cons, List.getLast?_cons] at hb
    rwa [List.getLast?_eq_some_getLast hne] at hb ⊢

/-- The text of a line of a stream. -/
theorem encode_line {words : List Bytes} (hwf : (Request.inline words false).WellFormed) :
    ∃ text, (Request.inline words false).encode = text ++ [lf] ∧ text ≠ [] ∧ lf ∉ text ∧
      (∀ b ∈ text.head?, b ≠ star) ∧ ∀ b ∈ text.getLast?, IsWord [b] := by
  obtain ⟨b, t, henc, hb⟩ := head_encode_inline hwf
  have htext : (Request.inline words false).encode = joinWords words ++ [lf] := by
    rw [encode_inline]
    simp [Request.lineCr]
  refine ⟨joinWords words, htext, joinWords_ne_nil hwf.1 hwf.2.1, lf_notMem_joinWords hwf.2.1, ?_,
    getLast_joinWords hwf.2.1⟩
  intro x hx
  rw [htext] at henc
  cases hj : joinWords words with
  | nil => rw [hj] at hx; simp at hx
  | cons y ys =>
    rw [hj] at hx henc
    obtain rfl : y = x := by simpa using hx
    rw [(List.cons.inj henc).1]
    exact hb

/-- A line that arrives byte by byte is dropped. -/
theorem AtStart.feed_line {words : List Bytes} (h : AtStart base s)
    (hwf : (Request.inline words false).WellFormed) :
    AtStart base (s.feedAll (singles (Request.inline words false).encode)) ∧
      (s.feedAll (singles (Request.inline words false).encode)).tasks = s.tasks := by
  obtain ⟨text, henc, hne, hlf, hstar, -⟩ := encode_line hwf
  obtain ⟨h1, h2⟩ := h.feed_text hlf hstar hne
  obtain ⟨h3, h4⟩ := h1.feed_lf
  rw [henc, singles_append, Session.feedAll_append]
  exact ⟨h3, h4.trans h2⟩

/-- The stream of the lines. -/
def lineStream (lines : List (List Bytes)) : Bytes := stream (lines.map (.inline · false))

theorem AtStart.feed_lines {lines : List (List Bytes)} (h : AtStart base s)
    (hwf : ∀ words ∈ lines, (Request.inline words false).WellFormed) :
    (s.feedAll (singles (lineStream lines))).tasks = s.tasks := by
  induction lines generalizing s with
  | nil => rfl
  | cons words lines ih =>
    obtain ⟨h1, h2⟩ := h.feed_line (hwf words (by simp))
    have := ih h1 fun w hw => hwf w (by simp [hw])
    rw [lineStream, List.map_cons, stream_cons, singles_append, Session.feedAll_append]
    exact this.trans h2

theorem atStart_start (fd : Int) : AtStart (.new fd) (Session.start fd) := ⟨rfl, 0, rfl⟩

theorem feed_pair (h : AtStart base s ∧ b ≠ star ∨ MidLine base s) (hb : IsWord [b]) :
    (s.feed [b, lf]).tasks = s.tasks ++ [[[b]]] := by
  have hword : lineWords [b] = [[b]] := by
    simpa using lineWords_word (t := []) hb (by simp)
  have hlf : lf ∉ [b] := by simpa using (hb.2 b (by simp)).2.2.symm
  obtain ⟨t, ht⟩ := prefix_receive s.client.queryBuff [b, lf]
  -- in either state the parser finds a line with the one byte
  have hparse : ({ s.client with queryBuff := Client.receive s.client.queryBuff [b, lf] } :
      Client UInt8).parse = (base.inText ([b] ++ lf :: t)).parseQuery := by
    rw [← ht]
    obtain ⟨⟨-, j, hj⟩, hstar⟩ | ⟨-, x, j, -, hj⟩ := h
    · rw [hj]
      exact Client.parse_text rfl (by simpa using hstar)
    · rw [hj]
      exact Client.parse_of_type_one rfl
  rw [parseQuery_line rfl hlf rfl rfl (by simp), hword, if_pos (by simp)] at hparse
  have hc : s.crashed = none := h.elim (fun h => h.1.1) fun h => h.1
  rw [Session.feed_of_parse hc (by simp) hparse, if_pos rfl]

/-- A line whose last byte comes with its LF is dispatched, cut down to that byte. -/
theorem feed_tail {init : Bytes} (h : AtStart base s) (hlf : lf ∉ init ++ [b])
    (hstar : ∀ x ∈ (init ++ [b]).head?, x ≠ star) (hb : IsWord [b]) :
    (s.feedAll (singles init ++ [[b, lf]])).tasks = s.tasks ++ [[[b]]] := by
  rw [Session.feedAll_append]
  cases init with
  | nil => exact feed_pair (.inl ⟨h, hstar b (by simp)⟩) hb
  | cons x init =>
    have hlf' : lf ∉ x :: init := fun hm => hlf (List.mem_append_left _ hm)
    obtain ⟨h1, h2⟩ := h.feed_text hlf' (by simpa using hstar) (by simp)
    rw [← h2]
    exact feed_pair (.inr h1) hb

/-! ### A header line byte by byte -/

/-- In the first line of a multi-bulk request: its last byte stands first, then NULs. -/
def MidHeader (base : Client UInt8) (s : Session) : Prop :=
  s.crashed = none ∧
    ∃ b j, b ≠ lf ∧ s.client = base.bulkAt (b :: List.replicate j 0) [] [] 0 (-1)

theorem AtStart.feed_star (h : AtStart base s) :
    MidHeader base (s.feed [star]) ∧ (s.feed [star]).tasks = s.tasks := by
  obtain ⟨hc, j, hj⟩ := h
  have hlf : star ≠ lf := by decide
  have hparse : ({ s.client with queryBuff := Client.receive s.client.queryBuff [star] } :
      Client UInt8).parse = .ok (-1, base.bulkAt (star :: List.replicate j 0) [] [] 0 (-1)) := by
    have hrecv : Client.receive s.client.queryBuff [star] = star :: List.replicate j 0 := by
      rw [hj]; exact receive_zeros j star
    have h1 : ({ base.idle (List.replicate j 0) [] with queryBuff := star :: List.replicate j 0 } :
        Client UInt8).parse =
          (base.bulkAt (star :: List.replicate j 0) [] [] 0 (-1)).parseBulkQuery :=
      Client.parse_star rfl rfl
    rw [hrecv, hj, h1, Client.parseBulkQuery, readCount_wait (lf_notMem_cons_zeros hlf)]
    rfl
  rw [Session.feed_of_parse hc (by simp) hparse, if_neg (by decide)]
  exact ⟨⟨rfl, star, j, hlf, rfl⟩, rfl⟩

theorem MidHeader.receive (h : MidHeader base s) (b : UInt8) :
    ∃ j, ({ s.client with queryBuff := Client.receive s.client.queryBuff [b] } :
      Client UInt8).parse =
        (base.bulkAt (b :: List.replicate (j + 1) 0) [] [] 0 (-1)).parseBulkQuery := by
  obtain ⟨-, x, j, -, hj⟩ := h
  have hrecv : Client.receive s.client.queryBuff [b] = b :: List.replicate (j + 1) 0 := by
    rw [hj]; exact receive_cons_zeros j x b
  refine ⟨j, ?_⟩
  rw [hrecv, hj]
  exact Client.parse_of_type_two rfl

theorem MidHeader.feed_byte (h : MidHeader base s) (hlf : b ≠ lf) :
    MidHeader base (s.feed [b]) ∧ (s.feed [b]).tasks = s.tasks := by
  obtain ⟨j, hparse⟩ := h.receive b
  rw [Client.parseBulkQuery, readCount_wait (lf_notMem_cons_zeros hlf)] at hparse
  rw [Session.feed_of_parse h.1 (by simp) hparse, if_neg (by decide)]
  exact ⟨⟨rfl, b, j + 1, hlf, rfl⟩, rfl⟩

/-- The LF is found first: the number of arguments stays 0, and the request is done. -/
theorem MidHeader.feed_lf (h : MidHeader base s) : (s.feed [lf]).tasks = s.tasks ++ [[]] := by
  obtain ⟨j, hparse⟩ := h.receive lf
  have hread : (base.bulkAt (lf :: List.replicate (j + 1) 0) [] [] 0 (-1)).readCount =
      .ok (some (base.bulkAt (lf :: List.replicate (j + 1) 0) [] [] 1 (-1))) := rfl
  have hlen : ¬ sizeT (base.bulkAt (lf :: List.replicate (j + 1) 0) [] [] 1 (-1)).qryPos ≥
      (base.bulkAt (lf :: List.replicate (j + 1) 0) [] [] 1 (-1)).queryBuff.length := by
    rw [Client.bulkAt_qryPos, Client.bulkAt_queryBuff, sizeT_natCast (by omega), List.length_cons,
      List.length_replicate]
    omega
  have hdone : (base.bulkAt (lf :: List.replicate (j + 1) 0) [] [] 0 (-1)).parseBulkQuery =
      .ok (base.bulkAt (lf :: List.replicate (j + 1) 0) [] [] 1 (-1)).endBulk := by
    rw [parseBulkQuery_eq hread, if_neg hlen]
    rfl
  rw [hdone, Client.endBulk, if_pos (by rfl)] at hparse
  rw [Session.feed_of_parse h.1 (by simp) hparse, if_pos rfl]
  rfl

theorem MidHeader.feed_text {text : Bytes} (h : MidHeader base s) (hlf : lf ∉ text) :
    MidHeader base (s.feedAll (singles text)) ∧ (s.feedAll (singles text)).tasks = s.tasks := by
  induction text generalizing s with
  | nil => exact ⟨h, rfl⟩
  | cons b text ih =>
    simp only [List.mem_cons, not_or] at hlf
    obtain ⟨h1, h2⟩ := h.feed_byte (Ne.symm hlf.1)
    obtain ⟨h3, h4⟩ := ih h1 hlf.2
    exact ⟨h3, h4.trans h2⟩

/-- A header line that arrives byte by byte is dispatched as a command without words. -/
theorem AtStart.feed_countLine (h : AtStart base s) (n : Nat) :
    (s.feedAll (singles (countLine n))).tasks = s.tasks ++ [[]] := by
  have hlf : lf ∉ decimal n ++ [cr] := fun hm =>
    lf_notMem_countText n (List.mem_cons_of_mem _ hm)
  obtain ⟨h1, h2⟩ := h.feed_star
  obtain ⟨h3, h4⟩ := h1.feed_text hlf
  rw [countLine_eq, singles_append, Session.feedAll_append, ← h2, ← h4]
  exact h3.feed_lf

/-! ### Multi-bulk requests with nothing behind them -/

/-- The request is dispatched as one task, by the last read. -/
def Delivered (fd : Int) (args : List Bytes) (reads : List Bytes) : Prop :=
  (Session.run fd reads).crashed = none ∧ (Session.run fd reads).tasks = [args] ∧
    (Session.run fd reads.dropLast).tasks = []

theorem due_bulk_alone {args : List Bytes} {reads : List Bytes}
    (h : reads.flatten.length ≤ (encodeBulk args).length) : due [.bulk args] reads = 0 := by
  induction reads using List.reverseRecOn with
  | nil => rfl
  | append_singleton reads data ih =>
    rw [List.flatten_append, List.length_append] at h
    have hd := ih (by omega)
    have hshort : ¬ complete [.bulk args] 0 (reads.flatten.length + data.length) = true := by
      rw [complete_iff]
      rintro ⟨r, hr, hle⟩
      obtain rfl : Request.bulk args = r := by simpa using hr
      simp only [List.take_zero, stream_nil, List.length_nil, Request.encode, Request.beyond] at hle
      simp only [List.flatten_cons, List.flatten_nil, List.append_nil] at h
      omega
    rw [due_snoc, hd, if_neg hshort]

/-- No multi-bulk request is delivered however it is cut: byte by byte it is not, and it is not
by any reads that leave the buffer alone, which never see a byte beyond it. -/
theorem bulk_not_delivered {fd : Int} {args : List Bytes} (hargs : args ≠ []) :
    (¬ ∀ reads, Cut reads (encodeBulk args) → Delivered fd args reads) ∧
      ((encodeBulk args).length < 2 ^ 30 → ∀ reads, Cut reads (encodeBulk args) →
        HarmlessRun fd reads → (Session.run fd reads).tasks = []) := by
  constructor
  · intro h
    have htasks := (h _ (cut_singles _)).2.1
    have hmono := Session.tasks_prefix_feedAll
      ((Session.start fd).feedAll (singles (countLine args.length))) (singles (encodeArgs args))
    rw [(atStart_start fd).feed_countLine, ← Session.feedAll_append, ← singles_append,
      ← Session.run_eq_feedAll, ← encodeBulk, htasks] at hmono
    simp [Session.start] at hmono
    exact hargs hmono
  · intro hlen reads hcut hharm
    have hstream : stream [.bulk args] = encodeBulk args := by simp [Request.encode]
    have hwf : ∀ r ∈ [Request.bulk args], r.WellFormed := by
      intro r hr
      rw [List.mem_singleton.1 hr]
      exact hargs
    have hd := decoding_run hwf (by rwa [hstream]) (by rw [hcut.1, hstream]) hcut.2 hharm
    rw [hd.tasks, due_bulk_alone (by rw [hcut.1])]
    rfl

theorem bulk_not_delivered_get :
    ¬ ∀ reads, Cut reads (encodeBulk [ascii "get", ascii "k"]) →
      Delivered 5 [ascii "get", ascii "k"] reads :=
  (bulk_not_delivered (by decide)).1

/-- A request of one argument, read at once: its last byte is taken to be missing. -/
theorem not_delivered_at_once :
    ¬ ∀ (fd : Int) (args : List Bytes) (reads : List Bytes), args ≠ [] →
      Cut reads (encodeBulk args) → Delivered fd args reads := by
  intro h
  have := (h 5 [ascii "a"] [ascii "*1\r\n$1\r\na\r\n"] (by decide) (by decide)).2.1
  exact absurd this (by decide)

/-! ### What does not depend on the cut -/

theorem due_le_length (rs : List Request) (reads : List Bytes) : due rs reads ≤ rs.length := by
  induction reads using List.reverseRecOn with
  | nil => simp
  | append_singleton reads data ih =>
    rw [due_snoc]
    by_cases h : complete rs (due rs reads) (reads.flatten.length + data.length) = true
    · rw [if_pos h]
      obtain ⟨r, hr, -⟩ := complete_iff.1 h
      exact (List.getElem?_eq_some_iff.1 hr).1
    · rwa [if_neg h]

/-- Two cuts with harmless reads dispatch the same if they dispatch equally often. -/
theorem harmless_tasks_eq_iff {fd : Int} {rs : List Request} {reads reads' : List Bytes}
    (hwf : ∀ r ∈ rs, r.WellFormed) (htot : (stream rs).length < 2 ^ 30)
    (hcut : Cut reads (stream rs)) (hcut' : Cut reads' (stream rs))
    (hharm : HarmlessRun fd reads) (hharm' : HarmlessRun fd reads') :
    (Session.run fd reads).tasks = (Session.run fd reads').tasks ↔
      due rs reads = due rs reads' := by
  have hd := decoding_run hwf htot (by rw [hcut.1]) hcut.2 hharm
  have hd' := decoding_run hwf htot (by rw [hcut'.1]) hcut'.2 hharm'
  rw [hd.tasks, hd'.tasks]
  constructor
  · intro h
    have hlen := congrArg List.length h
    rw [List.length_map, List.length_map, List.length_take, List.length_take,
      Nat.min_eq_left (due_le_length rs reads), Nat.min_eq_left (due_le_length rs reads')] at hlen
    exact hlen
  · exact fun h => by rw [h]

/-- Two ways of cutting a stream of lines always dispatch the same only if there is no line. -/
theorem tasks_independent_iff {fd : Int} {lines : List (List Bytes)}
    (hwf : ∀ words ∈ lines, (Request.inline words false).WellFormed) :
    (∀ reads reads', Cut reads (lineStream lines) → Cut reads' (lineStream lines) →
      (Session.run fd reads).tasks = (Session.run fd reads').tasks) ↔ lines = [] := by
  constructor
  · intro h
    cases lines with
    | nil => rfl
    | cons words lines =>
      obtain ⟨text, henc, hne, hlf, hstar, hlast⟩ := encode_line (hwf words (by simp))
      obtain ⟨init, b, htext⟩ := (List.eq_nil_or_concat text).resolve_left hne
      rw [List.concat_eq_append] at htext
      subst htext
      have hb := hlast b (by simp)
      have hstream : lineStream (words :: lines) = init ++ [b, lf] ++ lineStream lines := by
        rw [lineStream, List.map_cons, stream_cons, henc]
        simp [lineStream]
      -- byte by byte nothing is dispatched, with a read of two bytes something is
      have hnone := (atStart_start fd).feed_lines hwf
      rw [← Session.run_eq_feedAll] at hnone
      have hcut : Cut (singles init ++ [[b, lf]] ++ singles (lineStream lines))
          (lineStream (words :: lines)) := by
        rw [hstream]
        have h1 := cut_singles init
        have h2 := cut_singles (lineStream lines)
        refine ⟨by rw [List.flatten_append, List.flatten_append, h1.1, h2.1]; simp, ?_⟩
        intro data hd
        simp only [List.mem_append, List.mem_singleton] at hd
        obtain (hd | rfl) | hd := hd
        · exact h1.2 data hd
        · simp [queryBuffLen]
        · exact h2.2 data hd
      have hsome := feed_tail (atStart_start fd) hlf hstar hb
      have hmono := Session.tasks_prefix_feedAll
        ((Session.start fd).feedAll (singles init ++ [[b, lf]])) (singles (lineStream lines))
      rw [hsome, ← Session.feedAll_append, ← Session.run_eq_feedAll,
        h _ _ hcut (cut_singles _), hnone] at hmono
      simp [Session.start] at hmono
  · rintro rfl reads reads' h h'
    have hnil : ∀ {rs : List Bytes}, Cut rs (lineStream []) → rs = [] := by
      intro rs hcut
      rcases rs with - | ⟨data, rs⟩
      · rfl
      · have hflat := hcut.1
        have := (hcut.2 data (by simp)).1
        simp [lineStream] at hflat
        exact absurd hflat.1 this
    rw [hnil h, hnil h']

theorem tasks_dependent_a :
    ¬ ∀ reads reads', Cut reads (lineStream [[ascii "a"]]) →
      Cut reads' (lineStream [[ascii "a"]]) →
      (Session.run 5 reads).tasks = (Session.run 5 reads').tasks :=
  fun h => absurd ((tasks_independent_iff (by decide +kernel)).1 h) (by decide)

/-- Two lines in one read: only the first is dispatched. -/
theorem not_independent_pipelined :
    ¬ ∀ (fd : Int) (lines : List (List Bytes)) (reads reads' : List Bytes),
      (∀ words ∈ lines, (Request.inline words false).WellFormed) →
      Cut reads (lineStream lines) → Cut reads' (lineStream lines) →
      (Session.run fd reads).tasks = (Session.run fd reads').tasks := by
  intro h
  have := h 5 [[ascii "a"], [ascii "b"]] [ascii "a\nb\n"] [ascii "a\n", ascii "b\n"]
    (by decide +kernel) (by decide) (by decide)
  exact absurd this (by decide)

end LittleLearning.Db
