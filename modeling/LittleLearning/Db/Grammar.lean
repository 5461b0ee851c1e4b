import LittleLearning.Db.Events
import Mathlib.Data.List.Forall2

/-!
# What the multi-bulk parser accepts

A request is a line with the number of arguments, then for every argument a
line with its length, its bytes and two bytes more. The parser does not look at
the marker of a length line nor at the two bytes, and takes from a line the
number `stoi` finds at its start: `CountLine`, `LengthLine` and `LooseArg`.

`DecodedTo` says where a request stands that is read in part. It is carried
from one read to the next as long as no read changes what is decoded already,
and no line gives a negative length (`Faithful`).
-/

namespace LittleLearning.Db

open Cxx Relation Transition

/-! ### Requests -/

/-- The parameters as `bytes`, given how the count and an argument are written. -/
def Spells (count : Int → Bytes → Prop) (arg : Bytes → Bytes → Prop) (params : List Bytes)
    (bytes : Bytes) : Prop :=
  ∃ l pieces, count params.length l ∧ List.Forall₂ arg params pieces ∧
    bytes = l ++ pieces.flatten

/-- `m`, the decimal numeral of `n`, and the end of the line. -/
inductive StrictLine (m : UInt8) : Int → Bytes → Prop where
  | lf (n : Nat) : StrictLine m n (m :: (decimal n ++ [lf]))
  | crlf (n : Nat) : StrictLine m n (m :: (decimal n ++ crlf))

theorem StrictLine.head {m : UInt8} {n : Int} {l : Bytes} (h : StrictLine m n l) :
    ∃ u, l = m :: u := by
  cases h <;> exact ⟨_, rfl⟩

/-- The line with the length, the bytes and CRLF. -/
inductive StrictArg : Bytes → Bytes → Prop where
  | mk {p l : Bytes} : StrictLine dollar p.length l → StrictArg p (l ++ (p ++ crlf))

/-- The count `stoi` finds after the `*`. The line of a `*` alone counts as zero. -/
inductive CountLine : Int → Bytes → Prop where
  | empty : CountLine 0 [star, lf]
  | number {w : Bytes} {n : Int} : lf ∉ w → Numeral w n → CountLine n (star :: (w ++ [lf]))

/-- The length `stoi` finds after the first byte, whatever that is. -/
inductive LengthLine : Int → Bytes → Prop where
  | number {b : UInt8} {w : Bytes} {n : Int} : lf ∉ b :: w → Numeral w n →
      LengthLine n (b :: (w ++ [lf]))

/-- A line with the length, the bytes and two bytes more. -/
inductive LooseArg : Bytes → Bytes → Prop where
  | mk {p l : Bytes} (x y : UInt8) : LengthLine p.length l → LooseArg p (l ++ (p ++ [x, y]))

/-! ### One header line -/

/-- `stoi` gets the text without the first byte, with or without the bytes ending the line. -/
theorem lenText_eq {buf w r : Bytes} {b : UInt8} {q : Nat} (h : buf.drop q = b :: w ++ lf :: r)
    (hw : w ≠ []) {z : Int} :
    stoi (lenText buf q (q + (b :: w).length)) = .ok z ↔ Numeral w z := by
  have hnext : buf.drop (q + 1) = w ++ lf :: r := by
    rw [← List.drop_drop, h]
    rfl
  obtain ⟨v, x, rfl⟩ := (List.eq_nil_or_concat' w).resolve_left hw
  unfold lenText
  rw [hnext]
  have hwidth : q + (b :: (v ++ [x])).length - q = (v ++ [x]).length + 1 := by simp
  rw [hwidth]
  split
  · rw [Nat.add_sub_cancel, List.take_left, stoi_eq_ok_iff]
  · have htake : (v ++ [x] ++ lf :: r).take ((v ++ [x]).length + 1) = v ++ [x] ++ [lf] := by
      rw [List.take_length_add_append]
      rfl
    rw [htake, stoi_snoc (by decide), stoi_eq_ok_iff]

theorem countText_eq {buf w r : Bytes} {b : UInt8} (h : buf = b :: w ++ lf :: r) (hw : w ≠ [])
    {z : Int} : stoi (countText buf (b :: w).length) = .ok z ↔ Numeral w z := by
  have hnext : buf.drop 1 = w ++ lf :: r := by
    rw [h]
    rfl
  obtain ⟨v, x, rfl⟩ := (List.eq_nil_or_concat' w).resolve_left hw
  have hlast : buf[(b :: (v ++ [x])).length - 1]? = some x := by
    rw [h]
    simp
  unfold countText
  rw [hnext, hlast]
  split
  · rename_i hcr
    obtain rfl : x = cr := Option.some.inj hcr
    have htake : (v ++ [cr] ++ lf :: r).take ((b :: (v ++ [cr])).length - 2) = v := by
      simp
    rw [htake, stoi_eq_ok_iff, numeral_snoc (by decide)]
  · have htake : (v ++ [x] ++ lf :: r).take ((b :: (v ++ [x])).length - 1) = v ++ [x] := by
      rw [List.length_cons, Nat.add_sub_cancel, List.take_left]
    rw [htake, stoi_eq_ok_iff]

theorem countLine_of_countOf {buf : Bytes} {p : Nat} {n : Int} (hstar : buf.head? = some star)
    (hp : FirstAt buf lf 0 p) (hok : countOf buf p = .ok n) :
    ∃ l r, CountLine n l ∧ buf = l ++ r ∧ l.length = p + 1 := by
  obtain ⟨u, r, hbuf, hlf, hlen⟩ := hp.split
  rw [List.drop_zero] at hbuf
  rw [Nat.zero_add] at hlen
  cases u with
  | nil =>
    rw [hbuf] at hstar
    exact absurd (Option.some.inj hstar) (by decide)
  | cons b w =>
    obtain rfl : b = star := by
      rw [hbuf] at hstar
      exact Option.some.inj hstar
    have hlf' : lf ∉ w := fun h => hlf (List.mem_cons_of_mem _ h)
    rw [hlen] at hok ⊢
    by_cases hw : w = []
    · subst hw
      obtain rfl : n = 0 := (Except.ok.inj hok).symm
      exact ⟨[star, lf], r, .empty, hbuf, rfl⟩
    · have hlong : 1 < (star :: w).length := by
        have := List.length_pos_iff.2 hw
        rw [List.length_cons]
        omega
      unfold countOf at hok
      rw [if_pos hlong, countText_eq hbuf hw] at hok
      refine ⟨star :: (w ++ [lf]), r, .number hlf' hok, ?_, by simp⟩
      rw [hbuf]
      simp

theorem lengthLine_of_lenOf {buf : Bytes} {q p : Nat} {n : Int} (hp : FirstAt buf lf q p)
    (hok : lenOf buf q p = .ok n) (hn : 0 ≤ n) :
    ∃ l r, LengthLine n l ∧ buf.drop q = l ++ r ∧ q + l.length = p + 1 := by
  obtain ⟨u, r, hbuf, hlf, rfl⟩ := hp.split
  unfold lenOf at hok
  split at hok
  · rename_i hlong
    cases u with
    | nil =>
      rw [List.length_nil] at hlong
      omega
    | cons b w =>
      have hw : w ≠ [] := by
        rintro rfl
        simp at hlong
      rw [lenText_eq hbuf hw] at hok
      refine ⟨b :: (w ++ [lf]), r, .number hlf hok, ?_, by simp [Nat.add_assoc]⟩
      rw [hbuf]
      simp
  · obtain rfl := Except.ok.inj hok
    omega

/-! ### A request read in part -/

namespace Client

variable {ω : Type} {c d e c' : Client ω} {q : Nat} {len : Int} {data : Bytes}

/-- The first line `l`, the arguments `pieces` and, where the next length is known, its line
`header` are decoded; `rest` is not. -/
structure DecodedTo (c : Client ω) (l : Bytes) (pieces : List Bytes) (header rest : Bytes) :
    Prop where
  count : CountLine (c.paras.length + c.multiBulkCnt) l
  args : List.Forall₂ LooseArg c.paras pieces
  buffer : c.queryBuff = l ++ pieces.flatten ++ header ++ rest
  offset : c.qryPos = (l ++ pieces.flatten ++ header).length
  header : c.bulkLen = -1 ∧ header = [] ∨ 0 ≤ c.bulkLen ∧ LengthLine c.bulkLen header

def PartRead (c : Client ω) : Prop := ∃ l pieces header rest, c.DecodedTo l pieces header rest

/-- The line with the length is decoded. -/
theorem PartRead.header (h : c.PartRead) (hhead : Header c len q) (hlen : 0 ≤ len) :
    ∃ l pieces header rest,
      ({ c with bulkLen := len, qryPos := q } : Client ω).DecodedTo l pieces header rest ∧
        LengthLine len header := by
  obtain ⟨l, pieces, header, rest, h⟩ := h
  cases hhead with
  | known hne hq =>
    obtain ⟨hm, -⟩ | ⟨-, hline⟩ := h.header
    · exact absurd hm hne
    · exact ⟨l, pieces, header, rest, ⟨h.count, h.args, h.buffer, hq ▸ h.offset, h.header⟩, hline⟩
  | line hm hq hp hok =>
    rename_i q₀ p
    obtain ⟨-, rfl⟩ | ⟨hnn, -⟩ := h.header
    · have hoff : q₀ = (l ++ pieces.flatten).length := by
        have := h.offset
        rw [hq, List.append_nil] at this
        exact Int.ofNat.inj this
      have hrest : c.queryBuff.drop q₀ = rest := by
        rw [h.buffer, List.append_nil, hoff, List.drop_left]
      obtain ⟨line, r, hline, hsplit, hend⟩ := lengthLine_of_lenOf hp hok hlen
      rw [hrest] at hsplit
      refine ⟨l, pieces, line, r, ⟨h.count, h.args, ?_, ?_, .inr ⟨hlen, hline⟩⟩, hline⟩
      · rw [h.buffer, hsplit, List.append_nil, ← List.append_assoc]
      · rw [List.length_append, ← hoff, hend]
    · rw [hm] at hnn
      exact absurd hnn (by decide)

/-- One round decodes an argument. -/
theorem PartRead.round (h : c.PartRead) (hround : Round c d)
    (hpos : ∀ len q, Header c len q → 0 ≤ len) (hsize : c.queryBuff.length < 2 ^ 31) :
    d.PartRead := by
  cases hround with
  | take hcnt hhead ht hlt =>
    rename_i len q t
    have hlen := hpos len q hhead
    obtain ⟨n, rfl⟩ := Int.eq_ofNat_of_zero_le hlen
    obtain ⟨l, pieces, header, rest, h', hline⟩ := h.header hhead hlen
    have hbuf := h'.buffer
    have hoff : q = (l ++ pieces.flatten ++ header).length := Int.ofNat.inj h'.offset
    simp only at hbuf
    have hrest : c.queryBuff.drop q = rest := by rw [hbuf, hoff, List.drop_left]
    have hroom : n + 2 < rest.length := by
      rw [hbuf, List.length_append, ← hoff] at hlt
      omega
    -- the argument, the two bytes after it, and what is left
    obtain ⟨x, y, r, hsplit⟩ : ∃ x y r, rest = rest.take n ++ ([x, y] ++ r) := by
      have h1 : n < rest.length := by omega
      have h2 : n + 1 < rest.length := by omega
      refine ⟨rest[n], rest[n + 1], rest.drop (n + 2), ?_⟩
      conv_lhs => rw [← List.take_append_drop n rest, List.drop_eq_getElem_cons h1,
        List.drop_eq_getElem_cons h2]
      rfl
    have hfit : sizeT (n : Int) = n := sizeT_natCast (by omega)
    have harg : (rest.take n).length = n := by
      rw [List.length_take]
      omega
    refine ⟨l, pieces ++ [header ++ (rest.take n ++ [x, y])], [], r, ?_, ?_, ?_, ?_,
      .inl ⟨rfl, rfl⟩⟩
    · have hsum : (((c.paras ++ [rest.take n]).length : Nat) : Int) + (c.multiBulkCnt - 1) =
          c.paras.length + c.multiBulkCnt := by
        rw [List.length_append, List.length_singleton]
        omega
      simp only [hrest, hfit, hsum]
      exact h'.count
    · simp only [hrest, hfit]
      exact List.rel_append h'.args (.cons (.mk x y (harg.symm ▸ hline)) .nil)
    · simp only [hbuf]
      conv_lhs => rw [hsplit]
      simp
    · have hwidth : (l ++ (pieces ++ [header ++ (rest.take n ++ [x, y])]).flatten ++ []).length =
          (l ++ pieces.flatten ++ header).length + n + 2 := by
        simp only [List.flatten_append, List.flatten_cons, List.flatten_nil, List.append_nil,
          List.length_append, harg, List.length_cons, List.length_nil]
        omega
      rw [hwidth, ← hoff]
      simp only
      omega

/-- A length the parser reads, or has kept, for one of the rounds it gets to. -/
inductive LengthRead (c : Client ω) (len : Int) : Prop where
  | mk {d e : Client ω} {q : Nat} : Entry c d → d.qryPos < c.queryBuff.length →
      ReflTransGen Round d e → 0 < e.multiBulkCnt → Header e len q → LengthRead c len

theorem rounds_partRead (hentry : Entry c d) (hlt : d.qryPos < c.queryBuff.length)
    (h : d.PartRead) (hpos : ∀ len, LengthRead c len → 0 ≤ len)
    (hsize : d.queryBuff.length < 2 ^ 31) (hrounds : ReflTransGen Round d e) : e.PartRead := by
  induction hrounds with
  | refl => exact h
  | tail hrounds hround ih =>
    refine ih.round hround (fun len q hhead => ?_) (rounds_queryBuff hrounds ▸ hsize)
    exact hpos len (.mk hentry hlt hrounds hround.multiBulkCnt.1 hhead)

/-! ### Between reads -/

/-- What the parser has looked at of a multi-bulk request: the `*`, and all before its offset. -/
def seen (c : Client ω) : Bytes := c.queryBuff.take (max 1 c.qryPos.toNat)

/-- In a multi-bulk request, with its count still to come or read in part. -/
structure Underway (c : Client ω) : Prop where
  star : c.queryBuff.head? = some star
  partRead : c.multiBulkCnt ≠ 0 → c.PartRead

/-- Bytes that are not decoded may change. -/
theorem Underway.grow (h : c.Underway) (hbuf : c.seen <+: c'.queryBuff)
    (hcnt : c'.multiBulkCnt = c.multiBulkCnt) (hpos : c'.qryPos = c.qryPos)
    (hlen : c'.bulkLen = c.bulkLen) (hparas : c'.paras = c.paras) : c'.Underway := by
  obtain ⟨t, ht⟩ := hbuf
  refine ⟨?_, fun hne => ?_⟩
  · have hstar := h.star
    cases hb : c.queryBuff with
    | nil =>
      rw [hb] at hstar
      cases hstar
    | cons b r =>
      rw [hb] at hstar
      obtain ⟨n, hn⟩ : ∃ n, max 1 c.qryPos.toNat = n + 1 :=
        ⟨max 1 c.qryPos.toNat - 1, by omega⟩
      rw [← ht, seen, hb, hn]
      exact hstar
  · obtain ⟨l, pieces, header, rest, h⟩ := h.partRead (hcnt ▸ hne)
    have hoff := h.offset
    obtain ⟨u, hseen⟩ : ∃ u, c.seen = l ++ pieces.flatten ++ header ++ u := by
      rw [seen, h.buffer, List.take_append, List.take_of_length_le (by omega)]
      exact ⟨_, rfl⟩
    refine ⟨l, pieces, header, u ++ t, ?_, hparas ▸ h.args, ?_, hpos ▸ h.offset, hlen ▸ h.header⟩
    · rw [hparas, hcnt]
      exact h.count
    · rw [← ht, hseen, List.append_assoc]

theorem Underway.arrived (h : c.qryType = 2 → c.Underway) (hc : c.Tidy)
    (hkept : c.qryType = 2 → c.seen <+: (c.arrived data).queryBuff)
    (h2 : (c.arrived data).qryType = 2) : (c.arrived data).Underway := by
  by_cases hbefore : c.qryType = 2
  · exact (h hbefore).grow (hkept hbefore) rfl rfl rfl rfl
  · refine ⟨?_, fun hcnt => absurd (hc.idle hbefore).2 hcnt⟩
    simp only [Client.arrived] at h2 ⊢
    split at h2
    · split at h2
      · assumption
      · exact absurd h2 (by decide)
    · exact absurd h2 hbefore

theorem Entry.partRead (hentry : Entry c d) (h : c.Underway) (hc : c.Tidy) : d.PartRead := by
  cases hentry with
  | known hcnt => exact h.partRead hcnt
  | line hcnt hp hok =>
    obtain ⟨l, r, hline, hbuf, hlen⟩ := countLine_of_countOf h.star hp hok
    have hparas := hc.empty hcnt
    refine ⟨l, [], [], r, ?_, ?_, ?_, ?_, .inl ⟨hc.unread hcnt, rfl⟩⟩
    · simpa [hparas] using hline
    · simp [hparas]
    · simpa using hbuf
    · simp [hlen]

/-- The parser stops in a request read in part, or before its count. -/
theorem Underway.parseBulkQuery {st : Int} (h : c.Underway) (hc : c.Tidy)
    (hpos : ∀ len, LengthRead c len → 0 ≤ len) (hr : c.parseBulkQuery = .ok (st, c'))
    (hst : st ≠ 0) : c'.Underway := by
  obtain ⟨q, hq⟩ := hc.placed
  have hloop : ∀ {d e : Client ω}, Entry c d → d.qryPos < c.queryBuff.length →
      ReflTransGen Round d e → e.queryBuff.head? = some Db.star ∧ e.PartRead := by
    intro d e hentry hlt hrounds
    have hbuf : e.queryBuff = c.queryBuff := (rounds_queryBuff hrounds).trans hentry.queryBuff
    have hsize : d.queryBuff.length < 2 ^ 31 := hentry.queryBuff ▸ hq.size
    exact ⟨hbuf ▸ h.star, rounds_partRead hentry hlt (hentry.partRead h hc) hpos hsize hrounds⟩
  cases parseBulkQuery_returned hq hr with
  | count => exact h
  | exhausted hentry => exact ⟨hentry.queryBuff ▸ h.star, fun _ => hentry.partRead h hc⟩
  | header hentry hlt hrounds =>
    obtain ⟨hstar, hpart⟩ := hloop hentry hlt hrounds
    exact ⟨hstar, fun _ => hpart⟩
  | arg hentry hlt hrounds hcnt hhead =>
    obtain ⟨hstar, hpart⟩ := hloop hentry hlt hrounds
    obtain ⟨l, pieces, header, rest, hto, -⟩ :=
      hpart.header hhead (hpos _ (.mk hentry hlt hrounds hcnt hhead))
    exact ⟨hstar, fun _ => ⟨l, pieces, header, rest, hto⟩⟩
  | taken => exact absurd rfl hst

/-- What is taken out of the buffer is the request of the parameters. -/
theorem Underway.dispatch (h : c.Underway) (hc : c.Tidy) (h2 : c.qryType = 2)
    (hpos : ∀ len, LengthRead c len → 0 ≤ len) (hr : c.parseBulkQuery = .ok (0, c')) :
    c'.qryType = 0 ∧ ∃ removed, c.queryBuff = removed ++ c'.queryBuff ∧
      Spells CountLine LooseArg c'.paras removed := by
  obtain ⟨q, hq⟩ := hc.placed
  obtain ⟨d, b, hentry, hlt, hrounds, hzero, rfl⟩ := parseBulkQuery_taken hq hr
  refine ⟨rfl, ?_⟩
  have hbuf : b.queryBuff = c.queryBuff := (rounds_queryBuff hrounds).trans hentry.queryBuff
  have hsize : d.queryBuff.length < 2 ^ 31 := hentry.queryBuff ▸ hq.size
  obtain ⟨l, pieces, header, rest, hto⟩ :=
    rounds_partRead hentry hlt (hentry.partRead h hc) hpos hsize hrounds
  obtain ⟨htidy, h2'⟩ := hentry.tidy hc h2
  have hunread := (rounds_sound hrounds htidy.toSound h2').1.unread hzero
  obtain ⟨-, rfl⟩ | ⟨hnn, -⟩ := hto.header
  · have hcount := hto.count
    have hbuffer := hto.buffer
    have hoff := hto.offset
    rw [hzero, Int.add_zero] at hcount
    rw [List.append_nil] at hbuffer hoff
    refine ⟨l ++ pieces.flatten, ?_, l, pieces, hcount, hto.args, rfl⟩
    have hfit : (l ++ pieces.flatten).length < 2 ^ 64 := by
      have hle := congrArg List.length hbuffer
      have hsize' := hq.size
      rw [hbuf, List.length_append] at hle
      omega
    rw [← hbuf]
    show b.queryBuff = l ++ pieces.flatten ++ b.queryBuff.drop (sizeT b.qryPos)
    rw [hoff, sizeT_natCast hfit, hbuffer, List.drop_left]
  · rw [hunread] at hnn
    exact absurd hnn (by decide)

theorem Tidy.parseQuery_qryType {st : Int} (h : c.Tidy) (h2 : c.qryType ≠ 2)
    (hr : c.parseQuery = .ok (st, c')) : c'.qryType ≠ 2 := by
  obtain ⟨-, rfl⟩ | ⟨p, -, rfl⟩ := h.parseQuery_cases h2 hr
  · exact h2
  · show (0 : Int) ≠ 2
    decide

end Client

/-! ### Runs -/

namespace Session

variable {s s' : Session} {data : Bytes}

/-- The read leaves alone what is decoded, and the parser reads no negative length of it. -/
structure Faithful (s : Session) (data : Bytes) : Prop where
  kept : s.client.qryType = 2 → s.client.seen <+: (s.client.arrived data).queryBuff
  lengths : data ≠ [] → (s.client.arrived data).qryType = 2 →
    ∀ len, (s.client.arrived data).LengthRead len → 0 ≤ len

/-- The client is tidy, and a multi-bulk request in it is read in part. -/
structure Reading (s : Session) : Prop where
  tidy : s.client.Tidy
  underway : s.client.qryType = 2 → s.client.Underway

theorem Reading.event (h : s.Reading) (hf : s.Faithful data) (hs : s.event data = some s') :
    s'.Reading := by
  refine ⟨tidy_event h.tidy hs, ?_⟩
  obtain ⟨hread, ⟨cmd, c, hok, rfl⟩ | ⟨ex, -, rfl⟩⟩ := event_cases hs
  · obtain ⟨st, d, hquery, hok⟩ := Client.processInput_cases hok
    have htidy := h.tidy.arrived hread.fits hread.room
    have hd : d.qryType = 2 → st ≠ 0 ∧ d.Underway := by
      intro hd2
      obtain ⟨-, rfl, rfl⟩ | ⟨hdata, h2, hparse⟩ | ⟨-, h2, hparse⟩ :=
        Client.processQuery_cases hquery
      · have hseen : s.client.seen <+: s.client.queryBuff ++ List.replicate queryBuffLen 0 :=
          (List.take_prefix _ _).trans (List.prefix_append _ _)
        exact ⟨by decide, (h.underway hd2).grow hseen rfl rfl rfl rfl⟩
      · have hunder := Client.Underway.arrived h.underway h.tidy hf.kept h2
        have hst : st ≠ 0 := by
          rintro rfl
          have := (hunder.dispatch htidy h2 (hf.lengths hdata h2) hparse).1
          rw [hd2] at this
          cases this
        exact ⟨hst, hunder.parseBulkQuery htidy (hf.lengths hdata h2) hparse hst⟩
      · exact absurd hd2 (htidy.parseQuery_qryType h2 hparse)
    intro hc2
    obtain ⟨hst, -, rfl⟩ | ⟨-, -, rfl⟩ := hok
    · exact absurd hst (hd hc2).1
    · exact (hd hc2).2
  · exact h.underway

theorem reading_start (fd : Int) : (start fd).Reading where
  tidy := Client.tidy_new fd
  underway h := by cases h

/-- In a run of faithful reads, what a multi-bulk dispatch takes out of the buffer is the request
of its parameters, and what is behind it stays. -/
theorem dispatched_spells {fd : Int} {reads : List Bytes} {cmd : List Bytes} {c' : Client UInt8}
    (hrun : exec event (start fd) reads = some s) (hf : Along event Faithful (start fd) reads)
    (hread : s.CanRead data) (hlast : s.Faithful data)
    (h2 : (s.client.arrived data).qryType = 2)
    (hdispatch : s.client.processInput data = .ok (some cmd, c')) :
    ∃ removed, (s.client.arrived data).queryBuff = removed ++ c'.queryBuff ∧
      Spells CountLine LooseArg cmd removed := by
  have hreading : s.Reading :=
    invariant_along (I := Reading) (fun _ _ _ h hf hs => h.event hf hs) (reading_start fd) hf hrun
  have htidy := hreading.tidy.arrived hread.fits hread.room
  have hunder := Client.Underway.arrived hreading.underway hreading.tidy hlast.kept h2
  obtain ⟨d, hquery, rfl, rfl⟩ := Client.processInput_dispatch.1 hdispatch
  have hdata : data ≠ [] := by
    rintro rfl
    cases hquery
  rw [Client.processQuery_eq hdata, if_pos h2] at hquery
  exact (hunder.dispatch htidy h2 (hlast.lengths hdata h2) hquery).2

/-- A count with a sign, a length line without `$` and with zeros, and two spaces after the
argument. -/
def looseRequest : Bytes := ascii "*+1\n#003;\nget  x"

theorem looseRequest_faithful : (start 5).Faithful looseRequest where
  kept h := by cases h
  lengths := by
    rintro - - len ⟨hentry, -, hrounds, hcnt, hhead⟩
    cases hentry with
    | known hne => exact absurd rfl hne
    | line _ hp hok =>
      obtain rfl : _ = 3 := Option.some.inj ((find_eq_some.2 hp).symm.trans (by decide))
      obtain rfl : _ = 1 := Except.ok.inj (hok.symm.trans (by decide))
      obtain rfl | ⟨e, hround, hrounds⟩ := hrounds.cases_head
      · cases hhead with
        | known hne => exact absurd rfl hne
        | line _ hq hp hok =>
          obtain rfl : _ = 4 := Int.ofNat.inj hq.symm
          obtain rfl : _ = 9 := Option.some.inj ((find_eq_some.2 hp).symm.trans (by decide))
          obtain rfl : _ = 3 := Except.ok.inj (hok.symm.trans (by decide))
          decide
      · have hzero : e.multiBulkCnt = 0 := hround.multiBulkCnt.2
        rw [Client.rounds_eq hrounds (by omega), hzero] at hcnt
        exact absurd hcnt (by decide)

theorem dispatched_spells_loose :
    ∃ c', (start 5).client.processInput looseRequest = .ok (some [ascii "get"], c') ∧
      ∃ removed, ((start 5).client.arrived looseRequest).queryBuff = removed ++ c'.queryBuff ∧
        Spells CountLine LooseArg [ascii "get"] removed := by
  have hcmd : ((start 5).client.processInput looseRequest).toOption.map Prod.fst =
      some (some [ascii "get"]) := by decide
  cases hp : (start 5).client.processInput looseRequest with
  | error ex =>
    rw [hp] at hcmd
    cases hcmd
  | ok res =>
    obtain ⟨cmd, c'⟩ := res
    rw [hp] at hcmd
    obtain rfl : cmd = some [ascii "get"] := Option.some.inj hcmd
    have hrun : exec event (start 5) [] = some (start 5) := rfl
    exact ⟨c', rfl, dispatched_spells hrun trivial (by decide) looseRequest_faithful (by decide) hp⟩

/-- `#1` for `$1`. -/
theorem not_dispatched_strict :
    ¬ ∀ (fd : Int) (reads : List Bytes) (s : Session) (data : Bytes) (cmd : List Bytes)
      (c' : Client UInt8), exec event (start fd) reads = some s → s.CanRead data →
      (s.client.arrived data).qryType = 2 → s.client.processInput data = .ok (some cmd, c') →
      ∃ removed, (s.client.arrived data).queryBuff = removed ++ c'.queryBuff ∧
        Spells (StrictLine star) StrictArg cmd removed := by
  intro h
  have hex : ((start 5).client.processInput (ascii "*1\r\n#1\r\na\r\nx")).toOption.map
      (fun res => (res.1, res.2.queryBuff)) = some (some [ascii "a"], ascii "x") := by decide
  cases hp : (start 5).client.processInput (ascii "*1\r\n#1\r\na\r\nx") with
  | error ex =>
    rw [hp] at hex
    cases hex
  | ok res =>
    obtain ⟨cmd, c'⟩ := res
    rw [hp] at hex
    obtain ⟨rfl, hbuf⟩ := Prod.mk.inj (Option.some.inj hex)
    obtain ⟨removed, hsplit, l, pieces, hcount, hargs, rfl⟩ :=
      h 5 [] (start 5) _ _ c' rfl (by decide) (by decide) hp
    have harrived : ((start 5).client.arrived (ascii "*1\r\n#1\r\na\r\nx")).queryBuff =
        ascii "*1\r\n#1\r\na\r\n" ++ ascii "x" := by decide
    rw [harrived, hbuf] at hsplit
    have hremoved := List.append_cancel_right hsplit
    cases hargs with
    | cons harg hnil =>
      cases hnil
      cases harg with
      | mk hline =>
        obtain ⟨u, rfl⟩ := hline.head
        generalize hn : (([ascii "a"].length : Nat) : Int) = n at hcount
        -- the third byte is no LF, and the fifth is no `$`
        cases hcount with
        | lf n =>
          obtain rfl : 1 = n := Int.ofNat.inj hn
          exact absurd (congrArg (fun r : Bytes => r[2]?) hremoved : some cr = some lf) (by decide)
        | crlf n =>
          obtain rfl : 1 = n := Int.ofNat.inj hn
          have hmark : some 35 = some dollar := congrArg (fun r : Bytes => r[4]?) hremoved
          exact absurd hmark (by decide)

end Session

end LittleLearning.Db
