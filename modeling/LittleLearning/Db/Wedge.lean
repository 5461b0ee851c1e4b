import LittleLearning.Db.Cuts
import LittleLearning.Db.Grammar
import LittleLearning.Db.Headers

/-!
# When a client can still be served

A read stores at the front of the buffer, so header lines can only stand in its
first `queryBuffLen` bytes, but an argument may end anywhere. Once the parser is
past the part it can be sent lines in, it waits for ever, and with a negative
count it does not even look. `Live` says when that has not happened:
`dispatchable_iff`. Where it has not, the reads that get a request dispatched
are a line of its own between requests, a count of zero before the count, and
after it header lines that take no room: one with length -6 that leads the
parser back to its start, or LFs alone.
-/

namespace LittleLearning.Db

open Cxx Relation Transition

namespace Client

variable {ω : Type} {c d c' : Client ω} {q t : Nat} {len : Int} {data : Bytes}

/-- `m` lengths can be read from offset `t` on: no more are asked for; or a line of four bytes
fits; or as many lines of one byte as lengths, two bytes from one to the next. -/
def Servable (t m : Int) : Prop :=
  0 ≤ t ∧ t + 1 < 2 ^ 31 ∧ (m = 0 ∨ t + 4 ≤ queryBuffLen ∨ t + 2 * m ≤ queryBuffLen + 1)

/-- From where on the next lengths are read, and how many. -/
def ahead (c : Client ω) : Int × Int :=
  if c.bulkLen = -1 then (c.qryPos, c.multiBulkCnt)
  else (c.qryPos + c.bulkLen + 2, c.multiBulkCnt - 1)

/-- Some reads get a request dispatched. -/
def Live (c : Client ω) : Prop :=
  c.queryBuff.length + queryBuffLen < 2 ^ 31 ∧
    (c.qryType ≠ 2 ∨ c.multiBulkCnt = 0 ∨
      0 < c.multiBulkCnt ∧ Servable c.ahead.1 c.ahead.2)

/-- In a multi-bulk request whose count is negative or whose lengths have no place. -/
structure Stuck (c : Client ω) : Prop where
  kind : c.qryType = 2
  count : c.multiBulkCnt ≠ 0
  far : 0 < c.multiBulkCnt → ¬ Servable c.ahead.1 c.ahead.2

theorem ahead_known (h : c.bulkLen ≠ -1) :
    c.ahead = (c.qryPos + c.bulkLen + 2, c.multiBulkCnt - 1) := if_neg h

theorem ahead_unknown (h : c.bulkLen = -1) : c.ahead = (c.qryPos, c.multiBulkCnt) := if_pos h

/-! ### Stuck clients stay stuck -/

/-- Where no line of four bytes fits, an argument takes at least two bytes with its line. -/
theorem lenOf_far {buf : Bytes} {p : Nat} (hp : FirstAt buf lf q p) (htail : NulTail buf)
    (hok : lenOf buf q p = .ok len) (hfar : queryBuffLen < q + 4) :
    p < queryBuffLen ∧ (len = -1 ∧ q ≤ p ∨ 0 ≤ len ∧ q + 2 ≤ p) := by
  have hlt := htail.lf_lt hp
  refine ⟨hlt, ?_⟩
  obtain ⟨u, r, hbuf, -, rfl⟩ := hp.split
  by_cases hlong : q + 1 < q + u.length
  · unfold lenOf at hok
    rw [if_pos hlong] at hok
    obtain ⟨b, x, rfl⟩ : ∃ b x, u = [b, x] := List.length_eq_two.1 (by omega)
    rw [lenText_eq hbuf (by simp)] at hok
    exact .inr ⟨numeral_singleton hok, Nat.le_refl _⟩
  · unfold lenOf at hok
    rw [if_neg hlong] at hok
    exact .inl ⟨(Except.ok.inj hok).symm, Nat.le_add_right _ _⟩

/-- A stuck client that still finds a line with a length. -/
theorem Stuck.line {p : Nat} (h : c.Stuck) (hc : c.Placed q) (hcnt : 0 < c.multiBulkCnt)
    (hm : c.bulkLen = -1) (hp : FirstAt c.queryBuff lf q p)
    (hok : lenOf c.queryBuff q p = .ok len) :
    p < queryBuffLen ∧ queryBuffLen < q + 4 ∧ queryBuffLen + 1 < q + 2 * c.multiBulkCnt ∧
      (len = -1 ∧ q ≤ p ∨ 0 ≤ len ∧ q + 2 ≤ p) := by
  have hfar := h.far hcnt
  have hlt := hc.tail.lf_lt hp
  have hle := hp.1
  have hbuf : queryBuffLen = 14336 := rfl
  rw [ahead_unknown hm, hc.qryPos] at hfar
  simp only [Servable, hbuf] at hfar hlt ⊢
  obtain ⟨-, hwidth⟩ := lenOf_far hp hc.tail hok (by omega)
  exact ⟨hlt, by omega, by omega, hwidth⟩

/-- With its length read, a stuck client is stuck. -/
theorem Stuck.header (h : c.Stuck) (hc : c.Placed q) (hcnt : 0 < c.multiBulkCnt) {q' : Nat}
    (hhead : Header c len q') :
    ({ c with bulkLen := len, qryPos := q' } : Client ω).Stuck := by
  refine ⟨h.kind, h.count, fun _ => ?_⟩
  cases hhead with
  | known hne hq =>
    rw [← hq]
    exact h.far hcnt
  | line hm hq hp hok =>
    obtain rfl := hc.eq hq
    obtain ⟨hlt, hfour, htwo, ⟨rfl, hle⟩ | ⟨hlen, hle⟩⟩ := h.line hc hcnt hm hp hok
    · rw [ahead_unknown rfl]
      simp only [Servable]
      omega
    · rw [ahead_known (by simp only; omega)]
      simp only [Servable]
      omega

theorem Stuck.round (h : c.Stuck) (hc : c.Placed q) (hround : Round c d) : d.Stuck := by
  cases hround with
  | take hcnt hhead ht hlt =>
    rename_i len q' t
    have hsize := hc.size
    -- where the parser goes on, and what is left to read there
    have hnext : c.multiBulkCnt - 1 ≠ 0 ∧ ¬ Servable t (c.multiBulkCnt - 1) := by
      cases hhead with
      | known hne hq =>
        have hfar := h.far hcnt
        rw [ahead_known hne, hq, ht] at hfar
        unfold Servable at hfar ⊢
        omega
      | line hm hq hp hok =>
        obtain rfl := hc.eq hq
        obtain ⟨hlt, hfour, htwo, hwidth⟩ := h.line hc hcnt hm hp hok
        unfold Servable
        omega
    exact ⟨h.kind, hnext.1, fun _ => hnext.2⟩

theorem rounds_stuck (h : c.Stuck) (hc : c.Placed q) (hrounds : ReflTransGen Round c d) :
    d.Stuck := by
  induction hrounds with
  | refl => exact h
  | tail hrounds hround ih =>
    obtain ⟨t, ht⟩ := rounds_placed hrounds hc
    exact ih.round ht hround

theorem Stuck.parseBulkQuery {st : Int} (h : c.Stuck) (hc : c.Placed q)
    (hr : c.parseBulkQuery = .ok (st, c')) : st ≠ 0 ∧ c'.Stuck := by
  have hentry : ∀ {d}, Entry c d → d = c := by
    intro d hentry
    cases hentry with
    | known => rfl
    | line hcnt => exact absurd hcnt h.count
  cases parseBulkQuery_returned hc hr with
  | count hcnt => exact absurd hcnt h.count
  | exhausted he =>
    obtain rfl := hentry he
    exact ⟨by decide, h⟩
  | header he _ hrounds =>
    obtain rfl := hentry he
    exact ⟨by decide, rounds_stuck h hc hrounds⟩
  | arg he _ hrounds hcnt hhead =>
    obtain rfl := hentry he
    obtain ⟨t, ht⟩ := rounds_placed hrounds hc
    exact ⟨by decide, (rounds_stuck h hc hrounds).header ht hcnt hhead⟩
  | taken he _ hrounds h0 =>
    obtain rfl := hentry he
    exact absurd h0 (rounds_stuck h hc hrounds).count

/-- No read gets a stuck client out. -/
theorem Stuck.processInput {cmd : Option (List Bytes)} (h : c.Stuck) (hc : c.Tidy)
    (hne : data ≠ []) (hfits : data.length ≤ queryBuffLen)
    (hroom : c.queryBuff.length + queryBuffLen < 2 ^ 31)
    (hr : c.processInput data = .ok (cmd, c')) : cmd = none ∧ c'.Stuck := by
  obtain ⟨st, d, hquery, hr⟩ := processInput_cases hr
  have h0 : c.qryType ≠ 0 := by rw [h.kind]; decide
  have h2 : (c.arrived data).qryType = 2 := (if_neg h0).trans h.kind
  have harrived : (c.arrived data).Stuck := ⟨h2, h.count, h.far⟩
  obtain ⟨q, hq⟩ := (hc.arrived hfits hroom).placed
  rw [processQuery_eq hne, if_pos h2] at hquery
  obtain ⟨hst, hstuck⟩ := harrived.parseBulkQuery hq hquery
  obtain ⟨h0, -, -⟩ | ⟨-, rfl, rfl⟩ := hr
  · exact absurd h0 hst
  · exact ⟨rfl, hstuck⟩

/-! ### Header lines that take no room -/

theorem exists_round (hcnt : 0 < c.multiBulkCnt) (hhead : Header c len q)
    (ht : (q : Int) + len + 2 = t) (hlt : t < c.queryBuff.length) :
    ∃ d, Round c d ∧ d.queryBuff = c.queryBuff ∧ d.bulkLen = -1 ∧ d.qryPos = t ∧
      d.multiBulkCnt = c.multiBulkCnt - 1 :=
  ⟨_, .take hcnt hhead ht hlt, rfl, rfl, rfl, rfl⟩

/-- From one LF to the next but one, for every argument. -/
theorem rounds_lf (hlf : ∀ i, i < queryBuffLen → c.queryBuff[i]? = some lf) {m : Nat}
    (hm : c.bulkLen = -1) (hq : c.qryPos = t) (hcnt : c.multiBulkCnt = m)
    (hfit : t + 2 * m ≤ queryBuffLen + 1) (hlong : t + 2 * m < c.queryBuff.length) :
    ∃ b, ReflTransGen Round c b ∧ b.multiBulkCnt = 0 := by
  induction m generalizing c t with
  | zero => exact ⟨c, .refl, hcnt⟩
  | succ m ih =>
    have hp : FirstAt c.queryBuff lf t t :=
      ⟨Nat.le_refl t, hlf t (by omega), fun i h1 h2 => absurd h2 (by omega)⟩
    have hshort : lenOf c.queryBuff t t = .ok (-1) := if_neg (by omega)
    have hnext : ((t + 1 : Nat) : Int) + -1 + 2 = (t + 2 : Nat) := by omega
    obtain ⟨d, hround, hbuf, hm', hq', hcnt'⟩ :=
      exists_round (by omega) (.line hm hq hp hshort) hnext (by omega)
    rw [← hbuf] at hlf hlong
    obtain ⟨b, hrounds, hzero⟩ := ih hlf hm' hq' (by omega) (by omega) (by omega)
    exact ⟨b, .head hround hrounds, hzero⟩

/-- Over the same line again, for every argument. -/
theorem rounds_back {m : Nat} (hp : FirstAt c.queryBuff lf t (t + 3))
    (hback : lenOf c.queryBuff t (t + 3) = .ok (-6)) (hm : c.bulkLen = -1) (hq : c.qryPos = t)
    (hcnt : c.multiBulkCnt = m) : ∃ b, ReflTransGen Round c b ∧ b.multiBulkCnt = 0 := by
  induction m generalizing c with
  | zero => exact ⟨c, .refl, hcnt⟩
  | succ m ih =>
    have hlt := hp.lt_length
    have hnext : ((t + 3 + 1 : Nat) : Int) + -6 + 2 = t := by omega
    obtain ⟨d, hround, hbuf, hm', hq', hcnt'⟩ :=
      exists_round (by omega) (.line hm hq hp hback) hnext (by omega)
    rw [← hbuf] at hp hback
    obtain ⟨b, hrounds, hzero⟩ := ih hp hback hm' hq' (by omega)
    exact ⟨b, .head hround hrounds, hzero⟩

/-- Past an argument of known length. -/
theorem exists_ahead (hc : c.Placed q) (hcnt : 0 < c.multiBulkCnt) (ht : c.ahead.1 = t)
    (hlt : t < c.queryBuff.length) :
    ∃ d, ReflTransGen Round c d ∧ d.queryBuff = c.queryBuff ∧ d.bulkLen = -1 ∧ d.qryPos = t ∧
      d.multiBulkCnt = c.ahead.2 := by
  by_cases hm : c.bulkLen = -1
  · rw [ahead_unknown hm] at ht ⊢
    exact ⟨c, .refl, rfl, hm, ht, rfl⟩
  · rw [ahead_known hm] at ht ⊢
    rw [hc.qryPos] at ht
    obtain ⟨d, hround, hd⟩ := exists_round hcnt (.known hm hc.qryPos) ht hlt
    exact ⟨d, .single hround, hd⟩

/-- A read of full length. -/
def lfs : Bytes := List.replicate queryBuffLen lf

/-- A read of full length with a line of four bytes at `t`. -/
def backAt (t : Nat) : Bytes :=
  List.replicate t 120 ++ (ascii "x-6" ++ lf :: List.replicate (queryBuffLen - (t + 4)) 120)

theorem backAt_line {buf : Bytes} (hbuf : backAt t <+: buf) :
    FirstAt buf lf t (t + 3) ∧ lenOf buf t (t + 3) = .ok (-6) := by
  obtain ⟨r, rfl⟩ := hbuf
  have hsplit : backAt t ++ r = List.replicate t 120 ++ (ascii "x-6" ++ lf ::
      (List.replicate (queryBuffLen - (t + 4)) 120 ++ r)) := by
    simp [backAt]
  have hfind := find_first (p := List.replicate t 120) (w := ascii "x-6") (c := lf)
    (r := List.replicate (queryBuffLen - (t + 4)) 120 ++ r) (by decide)
  rw [← hsplit, List.length_replicate] at hfind
  refine ⟨find_eq_some.1 hfind, ?_⟩
  have hdrop : (backAt t ++ r).drop t = 120 :: ascii "-6" ++ lf ::
      (List.replicate (queryBuffLen - (t + 4)) 120 ++ r) := by
    rw [hsplit, List.drop_left' (List.length_replicate)]
    rfl
  have hnum : Numeral (ascii "-6") (-6) := stoi_eq_ok_iff.1 (by decide)
  unfold lenOf
  rw [if_pos (by omega)]
  exact (lenText_eq hdrop (by decide)).2 hnum

theorem lfs_get {buf : Bytes} (hbuf : lfs <+: buf) {i : Nat} (hi : i < queryBuffLen) :
    buf[i]? = some lf := by
  obtain ⟨r, rfl⟩ := hbuf
  rw [List.getElem?_append_left (by rwa [lfs, List.length_replicate]), lfs,
    List.getElem?_replicate_of_lt hi]

/-- Bytes of full length with which the loop runs to its end, whatever else is in the buffer. -/
theorem exists_serving (ht : c.ahead.1 = t) (hserv : Servable c.ahead.1 c.ahead.2)
    (hcnt : 0 < c.multiBulkCnt) :
    ∃ data : Bytes, data.length = queryBuffLen ∧ ∀ (d : Client ω) (q : Nat), d.Placed q →
      d.ahead = c.ahead → 0 < d.multiBulkCnt → data <+: d.queryBuff → t < d.queryBuff.length →
      queryBuffLen + 2 < d.queryBuff.length →
      ∃ b, ReflTransGen Round d b ∧ b.multiBulkCnt = 0 := by
  have hm : 0 ≤ c.ahead.2 := by
    unfold ahead
    split <;> simp only <;> omega
  obtain ⟨m, hm⟩ := Int.eq_ofNat_of_zero_le hm
  obtain ⟨-, -, hserv⟩ := hserv
  rw [ht, hm] at hserv
  by_cases hback : m ≠ 0 ∧ t + 4 ≤ queryBuffLen
  · refine ⟨backAt t, ?_, fun d q hd hahead hcnt hdata hlt hlong => ?_⟩
    · simp only [backAt, List.length_append, List.length_replicate, List.length_cons]
      have : (ascii "x-6").length = 3 := by decide
      omega
    · obtain ⟨a, hrounds, hbuf, ha, hq, hcnt⟩ := exists_ahead hd hcnt (hahead ▸ ht) hlt
      rw [hahead, hm] at hcnt
      rw [← hbuf] at hdata
      obtain ⟨hp, hok⟩ := backAt_line hdata
      obtain ⟨b, hmore, hzero⟩ := rounds_back hp hok ha hq hcnt
      exact ⟨b, hrounds.trans hmore, hzero⟩
  · refine ⟨lfs, List.length_replicate, fun d q hd hahead hcnt hdata hlt hlong => ?_⟩
    obtain ⟨a, hrounds, hbuf, ha, hq, hcnt⟩ := exists_ahead hd hcnt (hahead ▸ ht) hlt
    rw [hahead, hm] at hcnt
    rw [← hbuf] at hdata hlong
    by_cases hzero : m = 0
    · exact ⟨a, hrounds, by rw [hcnt, hzero]; rfl⟩
    · obtain ⟨b, hmore, hzero⟩ :=
        rounds_lf (fun i => lfs_get hdata) ha hq hcnt (by omega) (by omega)
      exact ⟨b, hrounds.trans hmore, hzero⟩

/-! ### One more read -/

theorem arrived_qryType (h2 : c.qryType = 2) : (c.arrived data).qryType = 2 :=
  (if_neg (by rw [h2]; decide)).trans h2

theorem processInput_dispatches {d : Client ω} (hne : data ≠ [])
    (h2 : (c.arrived data).qryType = 2) (hr : (c.arrived data).parseBulkQuery = .ok (0, d)) :
    c.processInput data = .ok (some d.paras, { d with paras := [] }) := by
  refine processInput_dispatch.2 ⟨d, ?_, rfl, rfl⟩
  rw [processQuery_eq hne, if_pos h2, hr]

/-- Between requests: a line of its own. -/
theorem Tidy.serve_inline (h : c.Tidy) (h2 : c.qryType ≠ 2)
    (hroom : c.queryBuff.length + queryBuffLen < 2 ^ 31) :
    ∃ cmd c', c.processInput (ascii "a\n") = .ok (some cmd, c') := by
  have hfits : (ascii "a\n").length ≤ queryBuffLen := by decide
  have harrived := h.arrived hfits hroom
  obtain ⟨r, hr⟩ := prefix_receive c.queryBuff (ascii "a\n")
  have hbuf : (c.arrived (ascii "a\n")).queryBuff = [97] ++ lf :: r := hr.symm
  have htype : (c.arrived (ascii "a\n")).qryType ≠ 2 := by
    have hhead : (receive c.queryBuff (ascii "a\n")).head? ≠ some star := by
      rw [← hr]
      exact fun h => absurd (Option.some.inj h) (by decide)
    simp only [Client.arrived, if_neg hhead]
    split
    · decide
    · exact h2
  obtain ⟨hpos, hcnt⟩ := harrived.idle htype
  have hline := parseQuery_line hbuf (by decide) hpos (harrived.empty hcnt) (by decide)
  have hword : lineWords [97] ≠ [] := by
    rw [lineWords_cons (by decide)]
    simp
  rw [if_pos hword] at hline
  exact ⟨_, _, processInput_dispatch.2 ⟨_, by
    rw [processQuery_eq (by decide), if_neg htype, hline], rfl, rfl⟩⟩

/-- Before the count: a count of zero, and a byte more. -/
theorem Tidy.serve_count (h : c.Tidy) (h2 : c.qryType = 2) (hcnt : c.multiBulkCnt = 0)
    (hroom : c.queryBuff.length + queryBuffLen < 2 ^ 31) :
    ∃ cmd c', c.processInput (ascii "*0\nx") = .ok (some cmd, c') := by
  have hfits : (ascii "*0\nx").length ≤ queryBuffLen := by decide
  obtain ⟨r, hr⟩ := prefix_receive c.queryBuff (ascii "*0\nx")
  have hzero : (c.arrived (ascii "*0\nx")).ZeroCount := by
    have hbuf : (c.arrived (ascii "*0\nx")).queryBuff = ascii "*0\nx" ++ r := hr.symm
    refine ⟨hcnt, 2, ?_, ?_, ?_⟩
    · rw [hbuf]
      exact find_eq_some.1 (find_first (p := []) (w := ascii "*0") (by decide))
    · rw [hbuf]
      rfl
    · rw [hbuf, List.length_append]
      have : (ascii "*0\nx").length = 4 := by decide
      omega
  obtain ⟨d, hparse, -⟩ := hzero.parseBulkQuery (h.arrived hfits hroom)
  exact ⟨_, _, processInput_dispatches (by decide) (arrived_qryType h2) hparse⟩

/-- After the count, with the next length near enough: bytes of full length. -/
theorem Tidy.serve_lengths (h : c.Tidy) (h2 : c.qryType = 2) (hcnt : 0 < c.multiBulkCnt)
    (hserv : Servable c.ahead.1 c.ahead.2)
    (hnear : c.ahead.1 < c.queryBuff.length + queryBuffLen)
    (hroom : c.queryBuff.length + queryBuffLen < 2 ^ 31) :
    ∃ data cmd c', data ≠ [] ∧ data.length ≤ queryBuffLen ∧
      c.processInput data = .ok (some cmd, c') := by
  obtain ⟨t, ht⟩ := Int.eq_ofNat_of_zero_le hserv.1
  obtain ⟨data, hlen, hserving⟩ := exists_serving (ω := ω) ht hserv hcnt
  have hne : data ≠ [] := by
    rintro rfl
    cases hlen
  have hsize : (c.arrived data).queryBuff.length = c.queryBuff.length + data.length :=
    receive_length (by omega)
  have hfits : data.length ≤ queryBuffLen := by omega
  obtain ⟨q, hq⟩ := (h.arrived hfits hroom).placed
  have hq₀ : c.qryPos = q := hq.qryPos
  have hmany := h.counted (by omega)
  obtain ⟨b, hrounds, hzero⟩ := hserving _ q hq rfl hcnt (prefix_receive _ _) (by omega) (by omega)
  have hlt : (c.arrived data).qryPos < (c.arrived data).queryBuff.length := by
    obtain ⟨q', hq'⟩ := h.placed
    have hle := hq'.le
    have hpos : (c.arrived data).qryPos = q' := hq'.qryPos
    rw [hpos, hsize, hlen]
    have : 0 < queryBuffLen := by decide
    omega
  have hbulk : (c.arrived data).parseBulkQuery = .ok b.endBulk :=
    (parseBulkQuery_eq_iff hq).2 (.loop (.known (by show c.multiBulkCnt ≠ 0; omega)) hlt hrounds
      (.done (by omega)))
  unfold endBulk at hbulk
  rw [if_pos hzero] at hbulk
  exact ⟨data, _, _, hne, by omega, processInput_dispatches hne (arrived_qryType h2) hbulk⟩

/-- Far from the end of the argument: a byte more, which the parser waits through. -/
theorem Tidy.wait_byte (h : c.Tidy) (h2 : c.qryType = 2) (hcnt : 0 < c.multiBulkCnt)
    (hfar : c.queryBuff.length + 1 ≤ c.ahead.1)
    (hroom : c.queryBuff.length + queryBuffLen < 2 ^ 31) :
    ∃ c', c.processInput [120] = .ok (none, c') ∧ c'.qryType = 2 ∧
      c'.multiBulkCnt = c.multiBulkCnt ∧ c'.ahead = c.ahead ∧
      c'.queryBuff.length = c.queryBuff.length + 1 := by
  have hfits : ([120] : Bytes).length ≤ queryBuffLen := by decide
  have hsize : (c.arrived [120]).queryBuff.length = c.queryBuff.length + 1 :=
    receive_length hfits
  have harrived := h.arrived hfits hroom
  obtain ⟨q, hq⟩ := h.placed
  obtain ⟨q', hq'⟩ := harrived.placed
  obtain rfl : q' = q := Int.ofNat.inj (hq'.qryPos.symm.trans hq.qryPos)
  have hle := hq.le
  -- the length is known: without one the next line would be looked for in the buffer
  have hm : c.bulkLen ≠ -1 := by
    intro hm
    rw [ahead_unknown hm, hq.qryPos] at hfar
    omega
  have hlt : (c.arrived [120]).qryPos < (c.arrived [120]).queryBuff.length := by
    rw [hq'.qryPos, hsize]
    omega
  have hwait : ∀ t : Nat, (q' : Int) + (c.arrived [120]).bulkLen + 2 = t →
      (c.arrived [120]).queryBuff.length ≤ t := by
    intro t ht
    rw [ahead_known hm, hq.qryPos] at hfar
    have hsame : (c.arrived [120]).bulkLen = c.bulkLen := rfl
    rw [hsame] at ht
    rw [hsize]
    omega
  have hbulk := (parseBulkQuery_eq_iff hq').2 (.loop (.known (by show c.multiBulkCnt ≠ 0; omega))
    hlt .refl (.arg hcnt (.known hm hq'.qryPos) hwait))
  have hquery : c.processQuery [120] = .ok (-1, { c.arrived [120] with qryPos := (q' : Int) }) := by
    rw [processQuery_eq (by decide), if_pos (arrived_qryType h2), hbulk]
  refine ⟨{ c.arrived [120] with qryPos := (q' : Int) }, ?_, arrived_qryType h2, rfl, ?_, hsize⟩
  · unfold Client.processInput
    rw [hquery]
    rfl
  · rw [ahead_known hm, ← hq.qryPos]
    exact ahead_known hm

end Client

/-! ### Runs -/

namespace Session

variable {s s' : Session} {data : Bytes}

theorem event_ok {cmd : Option (List Bytes)} {c : Client UInt8} (hread : s.CanRead data)
    (h : s.client.processInput data = .ok (cmd, c)) :
    s.event data = some ⟨c, s.tasks ++ cmd.toList, none⟩ := by
  unfold event
  rw [if_pos hread, feed, hread.running, h]

theorem stuck_exec {more : List Bytes} (h : s.client.Stuck) (hs : s.client.Tidy)
    (hmore : ∀ data ∈ more, data ≠ []) (hrun : exec event s more = some s') :
    s'.tasks = s.tasks := by
  induction more generalizing s with
  | nil =>
    cases hrun
    rfl
  | cons data more ih =>
    obtain ⟨t, ht, hrun⟩ := exec_cons_eq_some.1 hrun
    have htidy := tidy_event hs ht
    obtain ⟨hread, ⟨cmd, c, hok, rfl⟩ | ⟨ex, -, rfl⟩⟩ := event_cases ht
    · obtain ⟨rfl, hstuck⟩ := h.processInput hs (hmore data (by simp)) hread.fits hread.room hok
      rw [ih hstuck htidy (fun d hd => hmore d (by simp [hd])) hrun]
      exact List.append_nil _
    · exact ih (s := { s with crashed := some ex }) h htidy
        (fun d hd => hmore d (by simp [hd])) hrun

theorem dispatches_of_read (hread : s.CanRead data) (hne : data ≠ []) {cmd : List Bytes}
    {c : Client UInt8} (h : s.client.processInput data = .ok (some cmd, c)) :
    ∃ more s', (∀ data ∈ more, data ≠ []) ∧ exec event s more = some s' ∧
      s.tasks.length < s'.tasks.length := by
  refine ⟨[data], _, by simpa using hne, by rw [exec_cons, event_ok hread h]; rfl, ?_⟩
  simp

/-- Single bytes until the end of the argument comes within reach of one read. -/
theorem lengths_dispatch (hs : s.client.Tidy) (hrunning : s.crashed = none)
    (hconn : s.client.isExited = false) (h2 : s.client.qryType = 2)
    (hcnt : 0 < s.client.multiBulkCnt) (hserv : Client.Servable s.client.ahead.1 s.client.ahead.2)
    (hroom : s.client.queryBuff.length + queryBuffLen < 2 ^ 31) :
    ∃ more s', (∀ data ∈ more, data ≠ []) ∧ exec event s more = some s' ∧
      s.tasks.length < s'.tasks.length := by
  generalize hn : (s.client.ahead.1 - s.client.queryBuff.length).toNat = n
  induction n generalizing s with
  | zero =>
    have hbuf : queryBuffLen = 14336 := rfl
    obtain ⟨data, cmd, c, hne, hfits, hok⟩ := hs.serve_lengths h2 hcnt hserv (by omega) hroom
    exact dispatches_of_read ⟨hrunning, hconn, hfits, hroom⟩ hne hok
  | succ n ih =>
    rcases Int.lt_or_le s.client.ahead.1 (s.client.queryBuff.length + queryBuffLen) with
      hnear | hfar
    · obtain ⟨data, cmd, c, hne, hfits, hok⟩ := hs.serve_lengths h2 hcnt hserv hnear hroom
      exact dispatches_of_read ⟨hrunning, hconn, hfits, hroom⟩ hne hok
    · obtain ⟨c, hok, h2', hcnt', hahead, hlen⟩ := hs.wait_byte h2 hcnt (by omega) hroom
      have hread : s.CanRead [120] := ⟨hrunning, hconn, by decide, hroom⟩
      have hevent : s.event [120] = some ⟨c, s.tasks, none⟩ := by
        simpa using event_ok hread hok
      have hconn' : c.isExited = false := by
        rw [(Client.processInput_parsed hok).2, hconn]
        rfl
      have hlimit := hserv.2.1
      obtain ⟨more, s', hmore, hrun, htasks⟩ := ih (s := ⟨c, s.tasks, none⟩) (tidy_event hs hevent)
        rfl hconn' h2' (by simp only; omega) (by simp only [hahead]; exact hserv)
        (by simp only; omega) (by simp only [hahead]; omega)
      refine ⟨[120] :: more, s', ?_, ?_, htasks⟩
      · simpa using hmore
      · rw [exec_cons, hevent]
        exact hrun

theorem live_dispatches (hs : s.client.Tidy) (hrunning : s.crashed = none)
    (hconn : s.client.isExited = false) (h : s.client.Live) :
    ∃ more s', (∀ data ∈ more, data ≠ []) ∧ exec event s more = some s' ∧
      s.tasks.length < s'.tasks.length := by
  obtain ⟨hroom, hlive⟩ := h
  by_cases h2 : s.client.qryType = 2
  · by_cases hcnt : s.client.multiBulkCnt = 0
    · obtain ⟨cmd, c, hok⟩ := hs.serve_count h2 hcnt hroom
      exact dispatches_of_read ⟨hrunning, hconn, by decide, hroom⟩ (by decide) hok
    · obtain ⟨hcnt, hserv⟩ := (hlive.resolve_left (not_not_intro h2)).resolve_left hcnt
      exact lengths_dispatch hs hrunning hconn h2 hcnt hserv hroom
  · obtain ⟨cmd, c, hok⟩ := hs.serve_inline h2 hroom
    exact dispatches_of_read ⟨hrunning, hconn, by decide, hroom⟩ (by decide) hok

/-- Reads that deliver something leave the client connected. -/
theorem connected_exec {fd : Int} {reads : List Bytes} (hreads : ∀ data ∈ reads, data ≠ [])
    (h : exec event (start fd) reads = some s) : s.client.isExited = false := by
  refine invariant_along (P := fun _ data => data ≠ []) (I := fun s => s.client.isExited = false)
    (fun s data s' hs hne h => ?_) rfl (along_of_forall fun data hd _ => hreads data hd) h
  obtain ⟨-, ⟨cmd, c, hok, rfl⟩ | ⟨ex, -, rfl⟩⟩ := event_cases h
  · simp only [(Client.processInput_parsed hok).2, hs, Bool.false_or]
    simpa using hne
  · exact hs

/-- After reads without an exception, further reads get a request dispatched if and only if the
client is live. -/
theorem dispatchable_iff {fd : Int} {reads : List Bytes} (hreads : ∀ data ∈ reads, data ≠ [])
    (hrun : exec event (start fd) reads = some s) (hrunning : s.crashed = none) :
    (∃ more s', (∀ data ∈ more, data ≠ []) ∧ exec event s more = some s' ∧
      s.tasks.length < s'.tasks.length) ↔ s.client.Live := by
  have htidy := tidy_exec hrun
  refine ⟨?_, live_dispatches htidy hrunning (connected_exec hreads hrun)⟩
  rintro ⟨more, s', hmore, hexec, htasks⟩
  refine Classical.not_not.1 fun hdead => ?_
  by_cases hroom : s.client.queryBuff.length + queryBuffLen < 2 ^ 31
  · have hstuck : s.client.Stuck := by
      refine ⟨Classical.not_not.1 fun h2 => ?_, fun hcnt => ?_, fun hcnt hserv => ?_⟩
      · exact hdead ⟨hroom, .inl h2⟩
      · exact hdead ⟨hroom, .inr (.inl hcnt)⟩
      · exact hdead ⟨hroom, .inr (.inr ⟨hcnt, hserv⟩)⟩
    rw [stuck_exec hstuck htidy hmore hexec] at htasks
    exact Nat.lt_irrefl _ htasks
  · -- no read is possible any more
    cases more with
    | nil =>
      cases hexec
      exact Nat.lt_irrefl _ htasks
    | cons data more =>
      obtain ⟨t, ht, -⟩ := exec_cons_eq_some.1 hexec
      exact hroom (event_cases ht).1.room

/-- Inside a request whose length is known. -/
theorem dispatchable_iff_data :
    ∃ s, exec event (start 5) [ascii "*2\r\n$5\r\nab"] = some s ∧
      ((∃ more s', (∀ data ∈ more, data ≠ []) ∧ exec event s more = some s' ∧
        s.tasks.length < s'.tasks.length) ↔ s.client.Live) := by
  have hex : (exec event (start 5) [ascii "*2\r\n$5\r\nab"]).map Session.crashed = some none := by
    decide
  obtain ⟨s, hs, hrunning⟩ := Option.map_eq_some_iff.1 hex
  exact ⟨s, hs, dispatchable_iff (by decide) hs hrunning⟩

/-- A negative count: nothing is dispatched any more. -/
theorem not_dispatchable :
    ¬ ∀ (fd : Int) (reads : List Bytes) (s : Session), (∀ data ∈ reads, data ≠ []) →
      exec event (start fd) reads = some s → s.crashed = none →
      ∃ more s', (∀ data ∈ more, data ≠ []) ∧ exec event s more = some s' ∧
        s.tasks.length < s'.tasks.length := by
  intro h
  have hex : (exec event (start 5) [ascii "*-1\r\n"]).map
      (fun s => (s.crashed, s.client.qryType, s.client.multiBulkCnt)) = some (none, 2, -1) := by
    decide
  obtain ⟨s, hs, hfields⟩ := Option.map_eq_some_iff.1 hex
  obtain ⟨hrunning, hrest⟩ := Prod.mk.inj hfields
  obtain ⟨h2, hcnt⟩ := Prod.mk.inj hrest
  obtain ⟨more, s', hmore, hexec, htasks⟩ := h 5 _ s (by decide) hs hrunning
  have hstuck : s.client.Stuck := by
    refine ⟨h2, ?_, fun hpos => ?_⟩
    · rw [hcnt]
      decide
    · rw [hcnt] at hpos
      exact absurd hpos (by decide)
  rw [stuck_exec hstuck (tidy_exec hs) hmore hexec] at htasks
  exact Nat.lt_irrefl _ htasks

end Session

end LittleLearning.Db
