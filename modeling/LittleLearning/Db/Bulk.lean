import LittleLearning.Db.Client

/-!
# The multi-bulk format

`encodeBulk args` is the request with the arguments `args`. The parser stops at
any byte of it and resumes when more has come; `BulkWait` lists the records it
stops in, `Decoded` says how it stops on a buffer: waiting as long as the buffer
is not longer than the request, else with the arguments and the bytes after
them. `parseBulkQuery_decoded` is the step that carries one stop to the next.
-/

namespace LittleLearning.Db

open Cxx

/-! ### Encoding -/

def crlf : Bytes := [cr, lf]

def countLine (n : Nat) : Bytes := star :: (decimal n ++ crlf)

def lenLine (a : Bytes) : Bytes := dollar :: (decimal a.length ++ crlf)

def encodeArg (a : Bytes) : Bytes := lenLine a ++ (a ++ crlf)

def encodeArgs (args : List Bytes) : Bytes := args.flatMap encodeArg

def encodeBulk (args : List Bytes) : Bytes := countLine args.length ++ encodeArgs args

@[simp] theorem encodeArgs_nil : encodeArgs [] = [] := rfl

@[simp] theorem encodeArgs_cons (a : Bytes) (as : List Bytes) :
    encodeArgs (a :: as) = encodeArg a ++ encodeArgs as := by simp [encodeArgs]

@[simp] theorem encodeArgs_append (as bs : List Bytes) :
    encodeArgs (as ++ bs) = encodeArgs as ++ encodeArgs bs := by simp [encodeArgs]

theorem encodeArg_length (a : Bytes) :
    (encodeArg a).length = (lenLine a).length + a.length + 2 := by
  simp [encodeArg, crlf]; omega

theorem lf_notMem_decimal (n : Nat) : lf ∉ decimal n := fun h =>
  absurd (isDigit_decimal h) (by decide)

/-- A header line is its text and the LF; the text holds no other. -/
theorem countLine_eq (n : Nat) : countLine n = (star :: (decimal n ++ [cr])) ++ [lf] := by
  simp [countLine, crlf]

theorem lenLine_eq (a : Bytes) : lenLine a = (dollar :: (decimal a.length ++ [cr])) ++ [lf] := by
  simp [lenLine, crlf]

theorem lf_notMem_countText (n : Nat) : lf ∉ star :: (decimal n ++ [cr]) := by
  have h1 : lf ≠ star := by decide
  have h2 : lf ≠ cr := by decide
  simp [lf_notMem_decimal, h1, h2]

theorem lf_notMem_lenText (n : Nat) : lf ∉ dollar :: (decimal n ++ [cr]) := by
  have h1 : lf ≠ dollar := by decide
  have h2 : lf ≠ cr := by decide
  simp [lf_notMem_decimal, h1, h2]

theorem decimal_length_pos (n : Nat) : 0 < (decimal n).length :=
  List.length_pos_iff.2 (decimal_ne_nil n)

theorem length_le_encodeArgs (args : List Bytes) : args.length ≤ (encodeArgs args).length := by
  induction args with
  | nil => simp
  | cons a as ih =>
    have := encodeArg_length a
    simp only [encodeArgs_cons, List.length_append, List.length_cons]
    omega

theorem lt_encodeBulk_length (args : List Bytes) : args.length < (encodeBulk args).length := by
  have := length_le_encodeArgs args
  simp only [encodeBulk, countLine, List.length_append, List.length_cons]
  omega

/-! ### Records the parser stops in -/

namespace Client

variable {ω : Type}

/-- `c` between two requests, with `buf` unread and the parsed words `paras`. -/
def idle (c : Client ω) (buf : Bytes) (paras : List Bytes) : Client ω :=
  { c with qryType := 0, qryPos := 0, queryBuff := buf, multiBulkCnt := 0, bulkLen := -1,
           paras := paras }

/-- `c` inside a multi-bulk request: `done` read, `todo` to come, at offset `off`. -/
def bulkAt (c : Client ω) (buf : Bytes) (done todo : List Bytes) (off : Nat) (len : Int) :
    Client ω :=
  { c with qryType := 2, qryPos := off, queryBuff := buf, multiBulkCnt := todo.length,
           bulkLen := len, paras := done }

@[simp] theorem bulkAt_queryBuff (c : Client ω) (buf : Bytes) (done todo : List Bytes) (off : Nat)
    (len : Int) : (c.bulkAt buf done todo off len).queryBuff = buf := rfl

@[simp] theorem bulkAt_multiBulkCnt (c : Client ω) (buf : Bytes) (done todo : List Bytes)
    (off : Nat) (len : Int) : (c.bulkAt buf done todo off len).multiBulkCnt = todo.length := rfl

@[simp] theorem bulkAt_bulkLen (c : Client ω) (buf : Bytes) (done todo : List Bytes) (off : Nat)
    (len : Int) : (c.bulkAt buf done todo off len).bulkLen = len := rfl

@[simp] theorem bulkAt_qryPos (c : Client ω) (buf : Bytes) (done todo : List Bytes) (off : Nat)
    (len : Int) : (c.bulkAt buf done todo off len).qryPos = off := rfl

@[simp] theorem bulkAt_paras (c : Client ω) (buf : Bytes) (done todo : List Bytes) (off : Nat)
    (len : Int) : (c.bulkAt buf done todo off len).paras = done := rfl

end Client

variable {ω : Type} {base c : Client ω} {args done todo : List Bytes} {a buf t rest : Bytes}

/-- What precedes the argument after `done` in the request. -/
def before (args done : List Bytes) : Bytes := countLine args.length ++ encodeArgs done

theorem before_snoc : before args done ++ encodeArg a = before args (done ++ [a]) := by
  simp [before]

/-- The records `parseBulkQuery` waits in, with `buf` read of the request `args`. -/
inductive BulkWait (base : Client ω) (args : List Bytes) (buf : Bytes) : Client ω → Prop where
  /-- In the line with the number of arguments. -/
  | count : lf ∉ buf → BulkWait base args buf (base.bulkAt buf [] [] 0 (-1))
  /-- In the line with the length of an argument. -/
  | arg (done todo : List Bytes) (t : Bytes) : args = done ++ todo → todo ≠ [] →
      buf = before args done ++ t → lf ∉ t →
      BulkWait base args buf (base.bulkAt buf done todo (before args done).length (-1))
  /-- In an argument of known length, or not past the end of the line after it. -/
  | data (done : List Bytes) (a : Bytes) (todo : List Bytes) (t : Bytes) :
      args = done ++ a :: todo → buf = before args done ++ lenLine a ++ t →
      t.length ≤ a.length + 2 →
      BulkWait base args buf
        (base.bulkAt buf done (a :: todo) (before args done ++ lenLine a).length a.length)

/-- The parser waits, or it is done: it waits unless a byte follows the request. -/
def Decoded (base : Client ω) (args : List Bytes) (buf : Bytes)
    (r : Except StdException (Int × Client ω)) : Prop :=
  if buf.length ≤ (encodeBulk args).length then ∃ c, r = .ok (-1, c) ∧ BulkWait base args buf c
  else r = .ok (0, base.idle (buf.drop (encodeBulk args).length) args)

theorem Decoded.wait {r : Except StdException (Int × Client ω)}
    (hlen : buf.length ≤ (encodeBulk args).length) (hr : r = .ok (-1, c))
    (hw : BulkWait base args buf c) : Decoded base args buf r := by
  rw [Decoded, if_pos hlen]
  exact ⟨c, hr, hw⟩

/-! ### One header line -/

theorem readLen_wait {off : Nat} (hoff : off < 2 ^ 31) (hbuf : buf = before args done ++ t)
    (hpos : off = (before args done).length) (ht : lf ∉ t) :
    (base.bulkAt buf done todo off (-1)).readLen = .ok none := by
  subst hpos hbuf
  unfold Client.readLen
  simp only [Client.bulkAt_bulkLen, Client.bulkAt_queryBuff, Client.bulkAt_qryPos, if_true]
  rw [sizeT_natCast (by omega), find_of_notMem ht]

/-- What `find` and `substr` see of a header line `m w CR LF` at the offset of `p`. -/
theorem header_line {p w : Bytes} {m : UInt8} (hbuf : buf = p ++ (m :: (w ++ [cr]) ++ lf :: t))
    (hm : lf ∉ m :: (w ++ [cr])) :
    find buf lf p.length = some (p.length + (w.length + 2)) ∧
      buf[p.length + (w.length + 2) - 1]? = some cr ∧
      substr buf (p.length + 1) (w.length + 1) = .ok (w ++ [cr]) ∧
      substr buf (p.length + 1) w.length = .ok w := by
  have hbuf' : buf = (p ++ [m]) ++ ((w ++ [cr]) ++ (lf :: t)) := by rw [hbuf]; simp
  refine ⟨?_, ?_, ?_, ?_⟩
  · rw [hbuf, find_first hm]
    simp
  · rw [hbuf, List.getElem?_append_right (by omega)]
    simp
  · have := substr_append (p := p ++ [m]) (w := w ++ [cr]) (r := lf :: t)
    simpa [hbuf] using this
  · have := substr_append (p := p ++ [m]) (w := w) (r := cr :: lf :: t)
    simpa [hbuf] using this

theorem readLen_line {p : Bytes} (hbuf : buf = p ++ lenLine a ++ t) (hlen : buf.length < 2 ^ 30)
    (ha : a.length < 2 ^ 30) :
    (base.bulkAt buf done todo p.length (-1)).readLen =
      .ok (some (base.bulkAt buf done todo (p ++ lenLine a).length a.length)) := by
  have hl : (lenLine a).length = (decimal a.length).length + 3 := by simp [lenLine, crlf]
  have hsize : p.length + (lenLine a).length + t.length < 2 ^ 30 := by
    rw [hbuf] at hlen
    simpa [List.length_append, Nat.add_assoc] using hlen
  have hline : buf = p ++ (dollar :: (decimal a.length ++ [cr]) ++ lf :: t) := by
    rw [hbuf, lenLine_eq]; simp
  obtain ⟨hfind, hcr, hsub, -⟩ := header_line hline (lf_notMem_lenText a.length)
  have hstoi : stoi (decimal a.length ++ [cr]) = .ok (a.length : Int) :=
    stoi_decimal (by simp only [intMax]; omega) (by simp; decide)
  generalize hw : decimal a.length = w at *
  -- the conversions of the code, on indices that are all small
  have h0 : sizeT (p.length : Int) = p.length := sizeT_natCast (by omega)
  have h1 : sizeT (int32 ((p.length : Int) + 1)) = p.length + 1 := by
    have : (p.length : Int) + 1 = ((p.length + 1 : Nat) : Int) := by push_cast; rfl
    rw [this, int32_natCast (by omega), sizeT_natCast (by omega)]
  have h2 : sizeT (((p.length + (w.length + 2) : Nat) : Int) - p.length) = w.length + 2 := by
    have : ((p.length + (w.length + 2) : Nat) : Int) - p.length = ((w.length + 2 : Nat) : Int) := by
      push_cast; omega
    rw [this, sizeT_natCast (by omega)]
  have h3 : sizeT (((p.length + (w.length + 2) : Nat) : Int) - p.length - 1) = w.length + 1 := by
    have : ((p.length + (w.length + 2) : Nat) : Int) - p.length - 1 =
        ((w.length + 1 : Nat) : Int) := by
      push_cast; omega
    rw [this, sizeT_natCast (by omega)]
  have h4 : int32 (((p.length + (w.length + 2) : Nat) : Int) + 1) =
      ((p ++ lenLine a).length : Nat) := by
    have : ((p.length + (w.length + 2) : Nat) : Int) + 1 = ((p ++ lenLine a).length : Nat) := by
      rw [List.length_append, hl]; push_cast; omega
    rw [this, int32_natCast (by rw [List.length_append]; omega)]
  unfold Client.readLen
  simp only [Client.bulkAt_bulkLen, Client.bulkAt_queryBuff, Client.bulkAt_qryPos, if_true]
  rw [h0, hfind]
  simp only [h1, h2, h3, h4, hcr, hsub, if_true]
  rw [if_pos (by omega)]
  simp only [bind, Except.bind, hstoi, pure, Except.pure]
  rfl

theorem readCount_wait (ht : lf ∉ buf) :
    (base.bulkAt buf [] [] 0 (-1)).readCount = .ok none := by
  unfold Client.readCount
  have := find_of_notMem (p := []) ht
  simp only [List.nil_append, List.length_nil] at this
  simp [this]

theorem readCount_line (hbuf : buf = countLine args.length ++ t) (hlen : buf.length < 2 ^ 30)
    (ha : args.length < 2 ^ 30) :
    (base.bulkAt buf [] [] 0 (-1)).readCount =
      .ok (some (base.bulkAt buf [] args (countLine args.length).length (-1))) := by
  have hl : (countLine args.length).length = (decimal args.length).length + 3 := by
    simp [countLine, crlf]
  have hsize : (countLine args.length).length + t.length < 2 ^ 30 := by
    rw [hbuf] at hlen
    simpa using hlen
  have hline : buf = [] ++ (star :: (decimal args.length ++ [cr]) ++ lf :: t) := by
    rw [hbuf, countLine_eq]; simp
  obtain ⟨hfind, hcr, -, hsub⟩ := header_line hline (lf_notMem_countText args.length)
  have hstoi : stoi (decimal args.length) = .ok (args.length : Int) := by
    simpa using stoi_decimal (n := args.length) (r := []) (by simp only [intMax]; omega) (by simp)
  have hpos := decimal_length_pos args.length
  simp only [List.length_nil, Nat.zero_add] at hfind hcr hsub
  have hint : int32 ((((decimal args.length).length + 2 : Nat) : Int) + 1) =
      ((countLine args.length).length : Nat) := by
    have : (((decimal args.length).length + 2 : Nat) : Int) + 1 =
        ((countLine args.length).length : Nat) := by rw [hl]; push_cast; omega
    rw [this, int32_natCast (by omega)]
  unfold Client.readCount
  rw [if_pos (by rfl)]
  simp only [Client.bulkAt_queryBuff, hfind, hcr, if_true, Nat.add_sub_cancel, hsub, hint]
  rw [if_pos (by omega)]
  simp only [bind, Except.bind, hstoi, pure, Except.pure]
  rfl

/-! ### The arguments -/

theorem takeArg_eq {p : Bytes} (hbuf : buf = p ++ (a ++ t))
    (hsmall : p.length + a.length + 2 < 2 ^ 31) :
    (base.bulkAt buf done (a :: todo) p.length a.length).takeArg =
      .ok (base.bulkAt buf (done ++ [a]) todo (p.length + a.length + 2) (-1)) := by
  have hint : int32 ((p.length : Int) + int32 ((a.length : Int) + 2)) =
      ((p.length + a.length + 2 : Nat) : Int) := by
    have h1 : (a.length : Int) + 2 = ((a.length + 2 : Nat) : Int) := by push_cast; rfl
    rw [h1, int32_natCast (by omega)]
    have h2 : (p.length : Int) + ((a.length + 2 : Nat) : Int) =
        ((p.length + a.length + 2 : Nat) : Int) := by push_cast; omega
    rw [h2, int32_natCast (by omega)]
  unfold Client.takeArg
  simp only [Client.bulkAt_bulkLen, Client.bulkAt_queryBuff, Client.bulkAt_qryPos,
    Client.bulkAt_paras, Client.bulkAt_multiBulkCnt]
  rw [sizeT_natCast (by omega), sizeT_natCast (by omega), hbuf, substr_append]
  have hcnt : (((a :: todo).length : Nat) : Int) - 1 = (todo.length : Nat) := by
    simp
  simp only [bind, Except.bind, pure, Except.pure, hint, hcnt]
  rfl

/-- The completeness test, on an argument of known length. -/
theorem complete_test {p : Nat} (hsmall : p + a.length + 2 < 2 ^ 31) :
    sizeT (int32 (int32 ((p : Int) + (a.length : Int)) + 2)) = p + a.length + 2 := by
  have h1 : (p : Int) + (a.length : Int) = ((p + a.length : Nat) : Int) := by push_cast; rfl
  rw [h1, int32_natCast (by omega)]
  have h2 : ((p + a.length : Nat) : Int) + 2 = ((p + a.length + 2 : Nat) : Int) := by
    push_cast; rfl
  rw [h2, int32_natCast (by omega), sizeT_natCast (by omega)]

variable (base) in
/-- The loop from the start of an argument: `todo` decides, on any bytes that begin the rest of
the request and what follows it. -/
def LoopFrom (args todo : List Bytes) (buf rest : Bytes) : Prop :=
  ∀ done t, args = done ++ todo → buf = before args done ++ t → t <+: encodeArgs todo ++ rest →
    (todo = [] → t ≠ []) →
    Decoded base args buf
      (Client.bulkLoop todo.length (base.bulkAt buf done todo (before args done).length (-1)))

theorem encodeBulk_split (h : args = done ++ todo) :
    encodeBulk args = before args done ++ encodeArgs todo := by
  rw [encodeBulk, before, List.append_assoc, ← encodeArgs_append, ← h]

/-- A round of the loop whose header line is read. -/
theorem bulkLoop_round {c' : Client ω} {n : Nat} (hcnt : 0 < c.multiBulkCnt)
    (hread : c.readLen = .ok (some c')) :
    Client.bulkLoop (n + 1) c =
      if sizeT (int32 (int32 (c'.qryPos + c'.bulkLen) + 2)) ≥ c'.queryBuff.length then .ok (-1, c')
      else c'.takeArg.bind (Client.bulkLoop n) := by
  unfold Client.bulkLoop
  rw [if_pos hcnt, hread]
  rfl

/-- A length already read is kept. -/
theorem readLen_known (h : c.bulkLen ≠ -1) : c.readLen = .ok (some c) := by
  unfold Client.readLen
  rw [if_neg h]

/-- The round of an argument of known length, given the loop after it. -/
theorem bulkLoop_data (hbuf : buf = before args done ++ lenLine a ++ t)
    (hargs : args = done ++ a :: todo) (ht : t <+: a ++ crlf ++ encodeArgs todo ++ rest)
    (hreq : (encodeBulk args).length < 2 ^ 30) (hloop : LoopFrom base args todo buf rest) :
    Decoded base args buf
      (Client.bulkLoop (todo.length + 1) (base.bulkAt buf done (a :: todo)
        (before args done ++ lenLine a).length a.length)) := by
  have hlb : buf.length = (before args done ++ lenLine a).length + t.length := by
    rw [hbuf]; simp [Nat.add_assoc]
  have hfit : (before args done ++ lenLine a).length + a.length + 2 ≤ (encodeBulk args).length := by
    have := encodeArg_length a
    rw [encodeBulk_split hargs]
    simp only [List.length_append, encodeArgs_cons] at this ⊢
    omega
  have hcnt : 0 < (base.bulkAt buf done (a :: todo) (before args done ++ lenLine a).length
      a.length).multiBulkCnt := by
    simp only [Client.bulkAt_multiBulkCnt, List.length_cons]; omega
  rw [bulkLoop_round hcnt (readLen_known (by simp only [Client.bulkAt_bulkLen]; omega))]
  have htest := complete_test (a := a) (p := (before args done ++ lenLine a).length) (by omega)
  rcases Nat.lt_or_ge (a.length + 2) t.length with hlong | hshort
  · -- the argument and the line end after it are there, and a byte more
    rw [if_neg (by
      simp only [Client.bulkAt_qryPos, Client.bulkAt_bulkLen, Client.bulkAt_queryBuff, htest]
      omega)]
    obtain ⟨t', rfl⟩ : ∃ t', t = a ++ (crlf ++ t') := by
      obtain ⟨u, hu⟩ := ht
      have hpre : (a ++ crlf) <+: t := by
        have hall : a ++ crlf <+: t ++ u := by rw [hu]; simp [List.append_assoc]
        exact List.prefix_of_prefix_length_le hall (List.prefix_append _ _) (by simp [crlf]; omega)
      obtain ⟨t', ht'⟩ := hpre
      exact ⟨t', by rw [← ht', List.append_assoc]⟩
    rw [takeArg_eq (t := crlf ++ t') hbuf (by omega)]
    have hsnoc : before args (done ++ [a]) = before args done ++ lenLine a ++ (a ++ crlf) := by
      rw [← before_snoc, encodeArg]; simp
    have hoff : (before args done ++ lenLine a).length + a.length + 2 =
        (before args (done ++ [a])).length := by
      rw [hsnoc]; simp [crlf]; omega
    have hne : t' ≠ [] := by
      rintro rfl
      simp [crlf] at hlong
    rw [hoff]
    refine hloop (done ++ [a]) t' (by simp [hargs]) (by rw [hbuf, hsnoc]; simp) ?_ fun _ => hne
    have h' : a ++ crlf ++ t' <+: a ++ crlf ++ (encodeArgs todo ++ rest) := by
      simpa [List.append_assoc] using ht
    exact (List.prefix_append_right_inj _).1 h'
  · rw [if_pos (by
      simp only [Client.bulkAt_qryPos, Client.bulkAt_bulkLen, Client.bulkAt_queryBuff, htest]
      omega)]
    exact .wait (by omega) rfl (.data done a todo t hargs hbuf hshort)

theorem bulkLoop_decoded (hlen : buf.length < 2 ^ 30) (hreq : (encodeBulk args).length < 2 ^ 30) :
    ∀ todo : List Bytes, LoopFrom base args todo buf rest := by
  intro todo
  induction todo with
  | nil =>
    intro done t hargs hbuf _ hne
    have htot : (encodeBulk args).length = (before args done).length := by
      rw [encodeBulk_split hargs]; simp
    have hpos : 0 < t.length := List.length_pos_iff.2 (hne rfl)
    have hlb : buf.length = (before args done).length + t.length := by rw [hbuf]; simp
    rw [Decoded, if_neg (by omega)]
    have hdone : done = args := by simpa using hargs.symm
    rw [List.length_nil, Client.bulkLoop, Client.endBulk, if_pos (by rfl), htot]
    have hoff : sizeT ((before args done).length : Int) = (before args done).length :=
      sizeT_natCast (by omega)
    simp only [Client.bulkAt_queryBuff, Client.bulkAt_qryPos, hoff]
    rw [← hdone]
    rfl
  | cons a todo ih =>
    intro done t hargs hbuf ht _
    have hlb : buf.length = (before args done).length + t.length := by rw [hbuf]; simp
    have hfit : (before args done).length + (lenLine a).length + a.length + 2 ≤
        (encodeBulk args).length := by
      have := encodeArg_length a
      rw [encodeBulk_split hargs]
      simp only [List.length_append, encodeArgs_cons] at this ⊢
      omega
    have hcnt : 0 < (base.bulkAt buf done (a :: todo) (before args done).length
        (-1)).multiBulkCnt := by
      simp only [Client.bulkAt_multiBulkCnt, List.length_cons]; omega
    rw [encodeArgs_cons, encodeArg, List.append_assoc, List.append_assoc] at ht
    rcases Nat.lt_or_ge t.length (lenLine a).length with hshort | hlong
    · -- inside the header line: no LF yet
      have hpre : t <+: dollar :: (decimal a.length ++ [cr]) := by
        have hl : (lenLine a).length = (dollar :: (decimal a.length ++ [cr])).length + 1 := by
          rw [lenLine_eq]; simp
        rw [lenLine_eq, List.append_assoc] at ht
        exact List.prefix_of_prefix_length_le ht (List.prefix_append _ _) (by omega)
      have hlf : lf ∉ t := fun h => lf_notMem_lenText _ (hpre.subset h)
      have hread : (base.bulkAt buf done (a :: todo) (before args done).length (-1)).readLen =
          .ok none := readLen_wait (by omega) hbuf rfl hlf
      refine .wait (by omega) ?_ (.arg done (a :: todo) t hargs (by simp) hbuf hlf)
      rw [List.length_cons, Client.bulkLoop, if_pos hcnt, hread]
      rfl
    · obtain ⟨t', rfl⟩ : ∃ t', t = lenLine a ++ t' := by
        have hpre : lenLine a <+: t :=
          List.prefix_of_prefix_length_le (List.prefix_append _ _) ht hlong
        obtain ⟨t', ht'⟩ := hpre
        exact ⟨t', ht'.symm⟩
      have ht' : t' <+: a ++ crlf ++ encodeArgs todo ++ rest := by
        have := (List.prefix_append_right_inj _).1 ht
        simpa [List.append_assoc] using this
      have hbuf' : buf = before args done ++ lenLine a ++ t' := by rw [hbuf]; simp
      have hround := bulkLoop_data hbuf' hargs ht' hreq ih
      have hread : (base.bulkAt buf done (a :: todo) (before args done).length (-1)).readLen =
          .ok (some (base.bulkAt buf done (a :: todo) (before args done ++ lenLine a).length
            a.length)) := readLen_line hbuf' hlen (by omega)
      -- a round from the header line is the round from the length it holds
      have hcnt' : 0 < (base.bulkAt buf done (a :: todo) (before args done ++ lenLine a).length
          a.length).multiBulkCnt := hcnt
      rw [bulkLoop_round hcnt'
        (readLen_known (by simp only [Client.bulkAt_bulkLen]; omega))] at hround
      rw [List.length_cons, bulkLoop_round hcnt hread]
      exact hround

/-! ### One call of the parser -/

theorem readCount_known (h : c.multiBulkCnt ≠ 0) : c.readCount = .ok (some c) := by
  unfold Client.readCount
  rw [if_neg h]

/-- A call of the parser, once the number of arguments is known: it waits at the end of the
buffer, else the loop decides. -/
theorem parseBulkQuery_eq {c' : Client ω} (h : c.readCount = .ok (some c')) :
    c.parseBulkQuery =
      if sizeT c'.qryPos ≥ c'.queryBuff.length then .ok (-1, c')
      else Client.bulkLoop c'.multiBulkCnt.toNat c' := by
  unfold Client.parseBulkQuery
  rw [h]
  rfl

theorem parseBulkQuery_of_loop {off : Nat} {len : Int}
    (hread : c.readCount = .ok (some (base.bulkAt buf done todo off len)))
    (hoff : off ≤ (encodeBulk args).length) (hreq : (encodeBulk args).length < 2 ^ 30)
    (hwait : buf.length ≤ off → BulkWait base args buf (base.bulkAt buf done todo off len))
    (hloop : off < buf.length → Decoded base args buf
      (Client.bulkLoop todo.length (base.bulkAt buf done todo off len))) :
    Decoded base args buf c.parseBulkQuery := by
  have hpos : sizeT (off : Int) = off := sizeT_natCast (by omega)
  have heq : c.parseBulkQuery =
      if sizeT (off : Int) ≥ buf.length then .ok (-1, base.bulkAt buf done todo off len)
      else Client.bulkLoop todo.length (base.bulkAt buf done todo off len) :=
    parseBulkQuery_eq hread
  rw [heq, hpos]
  rcases Nat.lt_or_ge off buf.length with h | h
  · rw [if_neg (by omega)]
    exact hloop h
  · rw [if_pos h]
    exact .wait (by omega) rfl (hwait h)

/-- A waiting parser goes on with a longer buffer as if it had just been given it. -/
theorem parseBulkQuery_decoded {buf' : Bytes} (hw : BulkWait base args buf c)
    (hbuf : buf <+: buf') (hpre : buf' <+: encodeBulk args ++ rest) (hargs : args ≠ [])
    (hlen : buf'.length < 2 ^ 30) (hreq : (encodeBulk args).length < 2 ^ 30) :
    Decoded base args buf' ({ c with queryBuff := buf' } : Client ω).parseBulkQuery := by
  have hloop : ∀ todo, LoopFrom base args todo buf' rest := bulkLoop_decoded hlen hreq
  obtain ⟨more, rfl⟩ := hbuf
  cases hw with
  | count hlf =>
    show Decoded base args (buf ++ more) (base.bulkAt (buf ++ more) [] [] 0 (-1)).parseBulkQuery
    generalize buf ++ more = buf' at *
    rw [encodeBulk, List.append_assoc] at hpre
    rcases Nat.lt_or_ge buf'.length (countLine args.length).length with hshort | hlong
    · -- inside the first line
      have hpre' : buf' <+: star :: (decimal args.length ++ [cr]) := by
        have hl : (countLine args.length).length =
            (star :: (decimal args.length ++ [cr])).length + 1 := by rw [countLine_eq]; simp
        rw [countLine_eq, List.append_assoc] at hpre
        exact List.prefix_of_prefix_length_le hpre (List.prefix_append _ _) (by omega)
      have hlf' : lf ∉ buf' := fun h => lf_notMem_countText _ (hpre'.subset h)
      refine .wait ?_ ?_ (.count hlf')
      · simp only [encodeBulk, List.length_append]; omega
      · unfold Client.parseBulkQuery
        rw [readCount_wait hlf']
        rfl
    · obtain ⟨t, rfl⟩ : ∃ t, buf' = countLine args.length ++ t := by
        have hpre' : countLine args.length <+: buf' :=
          List.prefix_of_prefix_length_le (List.prefix_append _ _) hpre hlong
        obtain ⟨t, ht⟩ := hpre'
        exact ⟨t, ht.symm⟩
      have ht := (List.prefix_append_right_inj _).1 hpre
      have hb : countLine args.length ++ t = before args [] ++ t := by simp [before]
      have hoff : (countLine args.length).length = (before args []).length := by simp [before]
      have hfit : (before args []).length ≤ (encodeBulk args).length := by
        rw [encodeBulk_split (show args = [] ++ args from rfl)]
        exact (List.prefix_append _ _).length_le
      have hn := lt_encodeBulk_length args
      have hread : (base.bulkAt (countLine args.length ++ t) [] [] 0 (-1)).readCount =
          .ok (some _) := readCount_line rfl hlen (by omega)
      rw [hoff] at hread
      refine parseBulkQuery_of_loop hread hfit hreq (fun h => ?_) fun h => ?_
      · have hnil : t = [] := by
          simp only [List.length_append, hoff] at h
          exact List.length_eq_zero_iff.1 (by omega)
        exact .arg [] args t rfl hargs hb (by simp [hnil])
      · exact hloop args [] t rfl hb ht fun h => absurd h hargs
  | arg done todo t hsplit hne hb hlf =>
    show Decoded base args (buf ++ more)
      (base.bulkAt (buf ++ more) done todo (before args done).length (-1)).parseBulkQuery
    have hb' : buf ++ more = before args done ++ (t ++ more) := by rw [hb, List.append_assoc]
    have ht : t ++ more <+: encodeArgs todo ++ rest := by
      rw [encodeBulk_split hsplit, hb', List.append_assoc] at hpre
      exact (List.prefix_append_right_inj _).1 hpre
    have hfit : (before args done).length ≤ (encodeBulk args).length := by
      rw [encodeBulk_split hsplit]
      exact (List.prefix_append _ _).length_le
    have hpos := List.length_pos_iff.2 hne
    have hread : (base.bulkAt (buf ++ more) done todo (before args done).length (-1)).readCount =
        .ok (some _) := readCount_known (by simp only [Client.bulkAt_multiBulkCnt]; omega)
    refine parseBulkQuery_of_loop hread hfit hreq (fun h => ?_) fun h => ?_
    · have hnil : t ++ more = [] := by
        rw [hb', List.length_append] at h
        exact List.length_eq_zero_iff.1 (by omega)
      exact .arg done todo _ hsplit hne hb' (by simp [hnil])
    · exact hloop todo done _ hsplit hb' ht fun h => absurd h hne
  | data done a todo t hsplit hb hshort =>
    show Decoded base args (buf ++ more) (base.bulkAt (buf ++ more) done (a :: todo)
      (before args done ++ lenLine a).length a.length).parseBulkQuery
    have hb' : buf ++ more = before args done ++ lenLine a ++ (t ++ more) := by
      rw [hb, List.append_assoc]
    have hsplit' : encodeBulk args =
        before args done ++ lenLine a ++ (a ++ crlf ++ encodeArgs todo) := by
      rw [encodeBulk_split hsplit, encodeArgs_cons, encodeArg]
      simp only [List.append_assoc]
    have ht : t ++ more <+: a ++ crlf ++ encodeArgs todo ++ rest := by
      rw [hsplit', hb', List.append_assoc _ _ rest] at hpre
      exact (List.prefix_append_right_inj _).1 hpre
    have hfit : (before args done ++ lenLine a).length ≤ (encodeBulk args).length := by
      rw [hsplit']
      exact (List.prefix_append _ _).length_le
    have hread : (base.bulkAt (buf ++ more) done (a :: todo) (before args done ++ lenLine a).length
        a.length).readCount = .ok (some _) :=
      readCount_known (by simp only [Client.bulkAt_multiBulkCnt, List.length_cons]; omega)
    refine parseBulkQuery_of_loop hread hfit hreq (fun h => ?_) fun h => ?_
    · have hnil : (t ++ more).length = 0 := by
        rw [hb', List.length_append] at h
        omega
      exact .data done a todo _ hsplit hb' (by omega)
    · exact bulkLoop_data hb' hsplit ht hreq (hloop todo)

end LittleLearning.Db
