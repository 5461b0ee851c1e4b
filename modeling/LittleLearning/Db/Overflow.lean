import LittleLearning.Db.Events

/-!
# The sum of the completeness test

`parseBulkQuery` asks whether an argument has arrived by `qry_pos + bulkLen + 2`,
where `bulkLen` is any `int` that a line can spell. `parseBulkQueryTests` keeps the
two summands of every such test. All sums of a run fit an `int` exactly if no line
with a length that the parser gets to carries the offset behind it too far.
-/

namespace LittleLearning.Db

open Cxx Relation Transition

namespace Client

variable {ω : Type}

/-- `bulkLoop`, and `qry_pos` and `bulkLen` at each of its completeness tests. -/
def bulkLoopTests : Nat → Client ω → Except StdException (Int × Client ω) × List (Int × Int)
  | 0, c => (.ok c.endBulk, [])
  | n + 1, c =>
    if c.multiBulkCnt > 0 then
      match c.readLen with
      | .error e => (.error e, [])
      | .ok none => (.ok (-1, c), [])
      | .ok (some c) =>
        let test := (c.qryPos, c.bulkLen)
        if sizeT (int32 (int32 (c.qryPos + c.bulkLen) + 2)) ≥ c.queryBuff.length then
          (.ok (-1, c), [test])
        else
          match c.takeArg with
          | .error e => (.error e, [test])
          | .ok c => ((bulkLoopTests n c).1, test :: (bulkLoopTests n c).2)
    else (.ok c.endBulk, [])

/-- `parseBulkQuery` with its completeness tests. -/
def parseBulkQueryTests (c : Client ω) :
    Except StdException (Int × Client ω) × List (Int × Int) :=
  match c.readCount with
  | .error e => (.error e, [])
  | .ok none => (.ok (-1, c), [])
  | .ok (some c) =>
    if sizeT c.qryPos ≥ c.queryBuff.length then (.ok (-1, c), [])
    else bulkLoopTests c.multiBulkCnt.toNat c

/-- Neither `qry_pos + bulkLen` nor what is 2 more overflows. -/
def SumFits (test : Int × Int) : Prop :=
  intMin ≤ test.1 + test.2 ∧ test.1 + test.2 ≤ intMax ∧
    intMin ≤ test.1 + test.2 + 2 ∧ test.1 + test.2 + 2 ≤ intMax

instance (test : Int × Int) : Decidable (SumFits test) := inferInstanceAs (Decidable (_ ∧ _))

variable {c d e c' : Client ω} {q p n : Nat} {len : Int} {data : Bytes}

/-! ### The tests are those of the parser -/

theorem bulkLoopTests_fst (n : Nat) (c : Client ω) : (bulkLoopTests n c).1 = bulkLoop n c := by
  induction n generalizing c with
  | zero => rfl
  | succ n ih =>
    rw [bulkLoopTests, bulkLoop]
    by_cases hcnt : c.multiBulkCnt > 0
    · rw [if_pos hcnt, if_pos hcnt]
      rcases c.readLen with _ | (_ | c)
      · rfl
      · rfl
      · simp only [bind, Except.bind]
        split
        · rfl
        · cases c.takeArg with
          | error => rfl
          | ok c => exact ih c
    · rw [if_neg hcnt, if_neg hcnt]

theorem parseBulkQueryTests_fst (c : Client ω) : c.parseBulkQueryTests.1 = c.parseBulkQuery := by
  unfold parseBulkQueryTests parseBulkQuery
  rcases c.readCount with _ | (_ | c)
  · rfl
  · rfl
  · simp only [bind, Except.bind]
    split
    · rfl
    · exact bulkLoopTests_fst _ c

/-! ### Which tests there are -/

theorem readLen_iff (hc : c.Placed q) : c.readLen = .ok (some d) ↔
    ∃ len q', Header c len q' ∧ d = { c with bulkLen := len, qryPos := (q' : Nat) } := by
  constructor
  · intro h
    by_cases hlen : c.bulkLen = -1
    · rw [readLen_eq hc hlen] at h
      cases hfind : find c.queryBuff lf q with
      | none => simp [hfind] at h
      | some p =>
        cases hok : lenOf c.queryBuff q p with
        | error => simp [hfind, hok, Except.map] at h
        | ok len =>
          simp only [hfind, hok, Except.map, Except.ok.injEq, Option.some.injEq] at h
          exact ⟨len, p + 1, .line hlen hc.qryPos (find_eq_some.1 hfind) hok, h.symm⟩
    · rw [readLen_known hlen] at h
      cases h
      exact ⟨_, q, .known hlen hc.qryPos, by rw [← hc.qryPos]⟩
  · rintro ⟨len, q', hhead, rfl⟩
    exact hhead.readLen hc

theorem Header.unique {len' : Int} {q' t : Nat} (h : Header c len q) (h' : Header c len' q')
    (hc : c.Placed t) : len' = len ∧ q' = q := by
  have hread := (h'.readLen hc).symm.trans (h.readLen hc)
  simp only [Except.ok.injEq, Option.some.injEq, mk.injEq, Int.ofNat_inj] at hread
  exact ⟨hread.2.2.2.2.2.2.1, hread.2.2.2.1⟩

theorem Round.unique {t : Nat} (h : Round c d) (h' : Round c e) (hc : c.Placed t) : e = d := by
  cases h with
  | take hcnt hhead ht hlt =>
    cases h' with
    | take hcnt' hhead' ht' hlt' =>
      obtain ⟨rfl, rfl⟩ := hhead.unique hhead' hc
      obtain rfl := Int.ofNat.inj (ht.symm.trans ht')
      rfl

theorem bulkLoopTests_wait (hc : c.Placed q) (hcnt : 0 < c.multiBulkCnt) {pos : Nat}
    (hhead : Header c len pos) (hwait : ¬ ∃ t : Nat, (pos : Int) + len + 2 = t ∧
      t < c.queryBuff.length) : (bulkLoopTests (n + 1) c).2 = [((pos : Int), len)] := by
  obtain ⟨hpos, -, hlo, hhi⟩ := hhead.bounds hc
  have hge := mt (cursor_test hpos hlo hhi hc.size).1 hwait
  rw [bulkLoopTests, if_pos hcnt]
  simp only [hhead.readLen hc]
  rw [if_pos (by omega)]

theorem Round.bulkLoopTests_eq (h : Round c d) (hc : c.Placed q) :
    ∃ len, ∃ pos : Nat, Header c len pos ∧ (bulkLoopTests c.multiBulkCnt.toNat c).2 =
      ((pos : Int), len) :: (bulkLoopTests d.multiBulkCnt.toNat d).2 := by
  cases h with
  | take hcnt hhead ht hlt =>
    rename_i len pos t
    obtain ⟨hpos, -, hlo, hhi⟩ := hhead.bounds hc
    obtain ⟨n, hn⟩ := exists_toNat_succ hcnt
    have hcnt' : (c.multiBulkCnt - 1).toNat = n := by omega
    have htest := (cursor_test hpos hlo hhi hc.size).2 ⟨t, ht, hlt⟩
    refine ⟨len, pos, hhead, ?_⟩
    rw [hn, bulkLoopTests, if_pos hcnt]
    simp only [hhead.readLen hc, hhead.takeArg hc ht hlt, hcnt']
    rw [if_neg (by omega)]

theorem bulkLoopTests_noHeader (hc : c.Placed q) (hnone : ∀ len pos, ¬ Header c len pos) :
    (bulkLoopTests n c).2 = [] := by
  cases n with
  | zero => rfl
  | succ n =>
    rw [bulkLoopTests]
    by_cases hcnt : c.multiBulkCnt > 0
    · rw [if_pos hcnt]
      cases hread : c.readLen with
      | error => rfl
      | ok next =>
        cases next with
        | none => rfl
        | some d =>
          obtain ⟨len, pos, hhead, -⟩ := (readLen_iff hc).1 hread
          exact absurd hhead (hnone len pos)
    · rw [if_neg hcnt]

/-- A test is made behind any rounds that are followed by a header. -/
theorem mem_bulkLoopTests {test : Int × Int} (hc : c.Placed q) :
    test ∈ (bulkLoopTests c.multiBulkCnt.toNat c).2 ↔
      ∃ e len, ∃ pos : Nat, ReflTransGen Round c e ∧ 0 < e.multiBulkCnt ∧ Header e len pos ∧
        test = ((pos : Int), len) := by
  generalize hn : c.multiBulkCnt.toNat = n
  induction n generalizing c q with
  | zero =>
    refine ⟨nofun, ?_⟩
    rintro ⟨e, len, pos, hrounds, hcnt, -, -⟩
    obtain rfl := rounds_eq hrounds (by omega)
    omega
  | succ n ih =>
    have hcnt : 0 < c.multiBulkCnt := by omega
    by_cases hround : ∃ d, Round c d
    · -- the argument is there: this test, and those of the rounds behind it
      obtain ⟨d, hround⟩ := hround
      obtain ⟨t, ht⟩ := hround.placed hc
      obtain ⟨len, pos, hhead, htests⟩ := hround.bulkLoopTests_eq hc
      have hd : d.multiBulkCnt.toNat = n := by
        have := hround.multiBulkCnt.2
        omega
      rw [hn, hd] at htests
      rw [htests, List.mem_cons, ih ht hd]
      constructor
      · rintro (rfl | ⟨e, len', pos', hrounds, hrest⟩)
        · exact ⟨c, len, pos, .refl, hcnt, hhead, rfl⟩
        · exact ⟨e, len', pos', .head hround hrounds, hrest⟩
      · rintro ⟨e, len', pos', hrounds, hcnt', hhead', rfl⟩
        rcases hrounds.cases_head with rfl | ⟨d', hround', hrounds⟩
        · obtain ⟨rfl, rfl⟩ := hhead.unique hhead' hc
          exact .inl rfl
        · obtain rfl := hround.unique hround' hc
          exact .inr ⟨e, len', pos', hrounds, hcnt', hhead', rfl⟩
    · -- there is no further round: at most the test of an argument that is awaited
      have hlast : ∀ {e}, ReflTransGen Round c e → e = c := by
        intro e hrounds
        rcases hrounds.cases_head with rfl | ⟨d, hd, -⟩
        · rfl
        · exact absurd ⟨d, hd⟩ hround
      by_cases hhead : ∃ len pos, Header c len pos
      · obtain ⟨len, pos, hhead⟩ := hhead
        rw [bulkLoopTests_wait hc hcnt hhead fun ⟨t, ht, hlt⟩ =>
          hround ⟨_, .take hcnt hhead ht hlt⟩, List.mem_singleton]
        constructor
        · rintro rfl
          exact ⟨c, len, pos, .refl, hcnt, hhead, rfl⟩
        · rintro ⟨e, len', pos', hrounds, -, hhead', rfl⟩
          obtain rfl := hlast hrounds
          obtain ⟨rfl, rfl⟩ := hhead.unique hhead' hc
          rfl
      · rw [bulkLoopTests_noHeader hc fun len pos h => hhead ⟨len, pos, h⟩]
        refine ⟨nofun, ?_⟩
        rintro ⟨e, len, pos, hrounds, -, hhead', -⟩
        obtain rfl := hlast hrounds
        exact absurd ⟨len, pos, hhead'⟩ hhead

theorem readCount_iff (hc : c.Placed q) : c.readCount = .ok (some d) ↔ Entry c d := by
  constructor
  · intro h
    by_cases hcnt : c.multiBulkCnt = 0
    · rw [readCount_eq hcnt hc.size] at h
      cases hfind : find c.queryBuff lf 0 with
      | none => simp [hfind] at h
      | some p =>
        cases hok : countOf c.queryBuff p with
        | error => simp [hfind, hok, Except.map] at h
        | ok n =>
          simp only [hfind, hok, Except.map, Except.ok.injEq, Option.some.injEq] at h
          subst h
          exact .line hcnt (find_eq_some.1 hfind) hok
    · rw [readCount_known hcnt] at h
      cases h
      exact .known hcnt
  · exact fun h => h.readCount hc

theorem mem_parseBulkQueryTests {test : Int × Int} (hc : c.Placed q) :
    test ∈ c.parseBulkQueryTests.2 ↔ ∃ d e len, ∃ pos : Nat, Entry c d ∧
      d.qryPos < c.queryBuff.length ∧ ReflTransGen Round d e ∧ 0 < e.multiBulkCnt ∧
        Header e len pos ∧ test = ((pos : Int), len) := by
  have hentry : ∀ {d}, Entry c d → (test ∈ c.parseBulkQueryTests.2 ↔
      d.qryPos < c.queryBuff.length ∧ test ∈ (bulkLoopTests d.multiBulkCnt.toNat d).2) := by
    intro d hentry
    obtain ⟨t, ht⟩ := hentry.placed hc
    have hsize := ht.size
    have hle := ht.le
    unfold parseBulkQueryTests
    simp only [hentry.readCount hc]
    rw [ht.qryPos, sizeT_natCast (by omega), hentry.queryBuff]
    by_cases hlt : c.queryBuff.length ≤ t
    · rw [if_pos hlt]
      exact iff_of_false nofun fun h => by omega
    · rw [if_neg hlt]
      exact (and_iff_right (by omega)).symm
  constructor
  · intro htest
    cases hread : c.readCount with
    | error =>
      rw [parseBulkQueryTests, hread] at htest
      cases htest
    | ok next =>
      cases next with
      | none =>
        rw [parseBulkQueryTests, hread] at htest
        cases htest
      | some d =>
        have hd := (readCount_iff hc).1 hread
        obtain ⟨t, ht⟩ := hd.placed hc
        obtain ⟨hlt, htest⟩ := (hentry hd).1 htest
        obtain ⟨e, len, pos, hrest⟩ := (mem_bulkLoopTests ht).1 htest
        exact ⟨d, e, len, pos, hd, hlt, hrest⟩
  · rintro ⟨d, e, len, pos, hd, hlt, hrest⟩
    obtain ⟨t, ht⟩ := hd.placed hc
    exact (hentry hd).2 ⟨hlt, (mem_bulkLoopTests ht).2 ⟨e, len, pos, hrest⟩⟩

/-! ### Which sums fit -/

/-- The lines with a length that the parser gets to: what `stoi` gets of one, and where its LF
is. -/
inductive LengthText (c : Client ω) : Bytes → Nat → Prop where
  | line {d e : Client ω} {q p : Nat} : Entry c d → d.qryPos < c.queryBuff.length →
      ReflTransGen Round d e → 0 < e.multiBulkCnt → e.bulkLen = -1 → e.qryPos = q →
      FirstAt e.queryBuff lf q p → q + 1 < p → LengthText c (lenText e.queryBuff q p) p

/-- A length kept from an earlier read fits behind its line. -/
def Held (c : Client ω) : Prop := c.bulkLen ≠ -1 → c.qryPos + c.bulkLen + 2 ≤ intMax

/-- No offset is negative: a sum is never too small. -/
theorem Header.sumFits_iff (h : Header c len q) {t : Nat} (hc : c.Placed t) :
    SumFits (q, len) ↔ (q : Int) + len + 2 ≤ intMax := by
  obtain ⟨-, -, hlo, -⟩ := h.bounds hc
  unfold SumFits
  constructor
  · exact fun h => h.2.2.2
  · intro hfit
    refine ⟨?_, ?_, ?_, hfit⟩ <;> dsimp only <;> omega

/-- The parser goes on with a kept length or has none. -/
theorem reached_bulkLen (hc : c.Tidy) (hentry : Entry c d) (hrounds : ReflTransGen Round d e) :
    e = c ∧ c.multiBulkCnt ≠ 0 ∨ e.bulkLen = -1 := by
  rcases hrounds.cases_tail with rfl | ⟨b, -, hround⟩
  · cases hentry with
    | known hcnt => exact .inl ⟨rfl, hcnt⟩
    | line hcnt => exact .inr (hc.unread hcnt)
  · cases hround
    exact .inr rfl

theorem lenOf_numeral {buf : Bytes} (hlong : q + 1 < p) :
    lenOf buf q p = .ok len ↔ Numeral (lenText buf q p) len := by
  rw [lenOf, if_pos hlong, stoi_eq_ok_iff]

/-- The sums of one call fit exactly if the lengths do that it reads. -/
theorem Held.sumFits_iff (hheld : c.Held) (hc : c.Tidy) :
    (∀ test ∈ c.parseBulkQueryTests.2, SumFits test) ↔
      ∀ text p z, c.LengthText text p → Numeral text z → (p : Int) + 3 + z ≤ intMax := by
  obtain ⟨q₀, hq₀⟩ := hc.placed
  have hplaced : ∀ {d e}, Entry c d → ReflTransGen Round d e → ∃ t, e.Placed t := by
    intro d e hentry hrounds
    obtain ⟨t, ht⟩ := hentry.placed hq₀
    exact rounds_placed hrounds ht
  constructor
  · intro hfits text p z htext hnum
    cases htext with
    | line hentry hlt hrounds hcnt hlen hq hp hlong =>
      have hhead := Header.line hlen hq hp ((lenOf_numeral hlong).2 hnum)
      obtain ⟨t, ht⟩ := hplaced hentry hrounds
      have hmem := (mem_parseBulkQueryTests hq₀).2
        ⟨_, _, _, _, hentry, hlt, hrounds, hcnt, hhead, rfl⟩
      have hsum := (hhead.sumFits_iff ht).1 (hfits _ hmem)
      omega
  · intro hlengths test hmem
    obtain ⟨d, e, len, pos, hentry, hlt, hrounds, hcnt, hhead, rfl⟩ :=
      (mem_parseBulkQueryTests hq₀).1 hmem
    obtain ⟨t, ht⟩ := hplaced hentry hrounds
    refine (hhead.sumFits_iff ht).2 ?_
    cases hhead with
    | known hlen hq =>
      obtain ⟨rfl, -⟩ := (reached_bulkLen hc hentry hrounds).resolve_right hlen
      rw [← hq]
      exact hheld hlen
    | line hlen hq hp hok =>
      rename_i q p
      by_cases hlong : q + 1 < p
      · have := hlengths _ p len (.line hentry hlt hrounds hcnt hlen hq hp hlong)
          ((lenOf_numeral hlong).1 hok)
        omega
      · -- a line without a length: the sum is a little more than the offset
        rw [lenOf, if_neg hlong] at hok
        cases hok
        have hreach := ht.tail.lf_lt hp
        unfold queryBuffLen at hreach
        unfold intMax
        omega

theorem Held.parseBulkQuery {st : Int} (hheld : c.Held) (hc : c.Tidy)
    (hfits : ∀ test ∈ c.parseBulkQueryTests.2, SumFits test)
    (hr : c.parseBulkQuery = .ok (st, c')) : c'.Held := by
  obtain ⟨q₀, hq₀⟩ := hc.placed
  have hreached : ∀ {d e}, Entry c d → ReflTransGen Round d e → e.Held := by
    intro d e hentry hrounds
    rcases reached_bulkLen hc hentry hrounds with ⟨rfl, -⟩ | hnone
    · exact hheld
    · exact fun hlen => absurd hnone hlen
  cases parseBulkQuery_returned hq₀ hr with
  | count => exact hheld
  | exhausted hentry => exact hreached hentry .refl
  | header hentry _ hrounds => exact hreached hentry hrounds
  | arg hentry hlt hrounds hcnt hhead =>
    -- the length now kept has just been tested
    have hmem := (mem_parseBulkQueryTests hq₀).2
      ⟨_, _, _, _, hentry, hlt, hrounds, hcnt, hhead, rfl⟩
    exact fun _ => (hfits _ hmem).2.2.2
  | taken hentry _ hrounds h0 =>
    rcases reached_bulkLen hc hentry hrounds with ⟨rfl, hcnt⟩ | hnone
    · exact absurd h0 hcnt
    · exact fun hlen => absurd hnone hlen

theorem Held.processInput {cmd : Option (List Bytes)} (hheld : c.Held) (hc : c.Tidy)
    (hsize : data.length ≤ queryBuffLen) (hroom : c.queryBuff.length + queryBuffLen < 2 ^ 31)
    (hfits : data ≠ [] → (c.arrived data).qryType = 2 →
      ∀ test ∈ (c.arrived data).parseBulkQueryTests.2, SumFits test)
    (hr : c.processInput data = .ok (cmd, c')) : c'.Held := by
  obtain ⟨st, d, hquery, hr⟩ := processInput_cases hr
  have harrived := hc.arrived hsize hroom
  have hd : d.Held := by
    obtain ⟨-, -, rfl⟩ | ⟨hdata, h2, hparse⟩ | ⟨-, h2, hparse⟩ := processQuery_cases hquery
    · exact hheld
    · exact Held.parseBulkQuery (c := c.arrived data) hheld harrived (hfits hdata h2) hparse
    · obtain ⟨-, rfl⟩ | ⟨p, -, rfl⟩ := harrived.parseQuery_cases h2 hparse
      · exact hheld
      · exact hheld
  obtain ⟨-, -, rfl⟩ | ⟨-, -, rfl⟩ := hr
  · exact hd
  · exact hd

end Client

/-! ### Runs -/

namespace Session

variable {s s' : Session} {data : Bytes}

/-- Every sum of the completeness test that the read leads to fits an `int`. -/
def SumsFit (s : Session) (data : Bytes) : Prop :=
  data ≠ [] → (s.client.arrived data).qryType = 2 →
    ∀ test ∈ (s.client.arrived data).parseBulkQueryTests.2, Client.SumFits test

instance (s : Session) (data : Bytes) : Decidable (s.SumsFit data) :=
  inferInstanceAs (Decidable (_ → _))

/-- No length that the read lets the parser get to carries the offset of its LF within two of the
largest `int`. -/
def LengthsFit (s : Session) (data : Bytes) : Prop :=
  data ≠ [] → (s.client.arrived data).qryType = 2 →
    ∀ text p z, (s.client.arrived data).LengthText text p → Numeral text z →
      (p : Int) + 3 + z ≤ intMax

theorem sumsFit_iff (hs : s.client.Tidy) (hheld : s.client.Held) (hread : s.CanRead data) :
    s.SumsFit data ↔ s.LengthsFit data := by
  refine imp_congr_right fun _ => imp_congr_right fun _ => ?_
  exact Client.Held.sumFits_iff (c := s.client.arrived data) hheld
    (hs.arrived hread.fits hread.room)

theorem held_event (hs : s.client.Tidy) (hheld : s.client.Held) (hfits : s.SumsFit data)
    (h : s.event data = some s') : s'.client.Held := by
  obtain ⟨hread, ⟨cmd, c, hok, rfl⟩ | ⟨ex, -, rfl⟩⟩ := event_cases h
  · exact hheld.processInput hs hread.fits hread.room hfits hok
  · exact hheld

theorem held_start (fd : Int) : (start fd).client.Held := fun hlen => absurd rfl hlen

/-- The test overflows nowhere in a run if and only if no length the parser gets to is too
large for the place it stands at. -/
theorem sums_fit_iff {fd : Int} {reads : List Bytes} (h : exec event (start fd) reads = some s) :
    Along event SumsFit (start fd) reads ↔ Along event LengthsFit (start fd) reads := by
  refine along_iff (I := fun s => s.client.Tidy ∧ s.client.Held) ?_ ?_
    ⟨Client.tidy_new fd, held_start fd⟩ h
  · rintro s data s' ⟨hs, hheld⟩ h
    exact sumsFit_iff hs hheld (event_cases h).1
  · rintro s data s' ⟨hs, hheld⟩ hfits h
    exact ⟨tidy_event hs h, held_event hs hheld hfits h⟩

/-- The largest length that fits behind its line, tested again by a second read. -/
theorem sums_fit_iff_largest :
    ∃ s, exec event (start 5) [ascii "*1\r\n$2147483628\r\n", ascii "x"] = some s ∧
      (Along event SumsFit (start 5) [ascii "*1\r\n$2147483628\r\n", ascii "x"] ↔
        Along event LengthsFit (start 5) [ascii "*1\r\n$2147483628\r\n", ascii "x"]) := by
  obtain ⟨s, hs⟩ := Option.isSome_iff_exists.1 (show (exec event (start 5)
    [ascii "*1\r\n$2147483628\r\n", ascii "x"]).isSome by decide)
  exact ⟨s, hs, sums_fit_iff hs⟩

/-- Seventeen bytes with a length that no offset can be added to. -/
theorem not_sums_fit :
    ¬ ∀ (fd : Int) (reads : List Bytes) (s : Session), exec event (start fd) reads = some s →
      Always event (fun s => s.client.queryBuff.length < 2 ^ 30) (start fd) reads →
        Along event SumsFit (start fd) reads := by
  intro h
  have hex : (event (start 5) (ascii "*1\r\n$2147483647\r\n")).map
      (fun s => s.client.queryBuff.length) = some 17 := by decide
  obtain ⟨s, hs, hlen⟩ := Option.map_eq_some_iff.1 hex
  have hexec : exec event (start 5) [ascii "*1\r\n$2147483647\r\n"] = some s :=
    exec_cons_eq_some.2 ⟨s, hs, rfl⟩
  refine absurd (h 5 _ s hexec ⟨Nat.two_pow_pos 30, fun s' hs' => ?_⟩) (by decide)
  obtain rfl := Option.some.inj (hs.symm.trans hs')
  show s.client.queryBuff.length < 2 ^ 30
  omega

end Session

end LittleLearning.Db
