import LittleLearning.Db.Session
import LittleLearning.Lib.Numeral
import Mathlib.Logic.Relation

/-!
# The multi-bulk parser, line by line

`parseBulkQuery` on any buffer, well-formed or not. `countOf` and `lenOf` are
the numbers of the two kinds of header line; `Entry` reads the first kind, a
`Round` the second with the argument after it, and `BulkEnd` lists the ways the
parser returns or throws. `parseBulkQuery_eq_iff` says that these are all.

Only a part of the buffer can hold header lines: a read stores at the front,
and from `queryBuffLen` on there are NULs (`NulTail`). So the sums of offsets
and lengths that the code computes in `int` come out right wherever they are
used.
-/

namespace LittleLearning.Db

open Cxx Relation

/-! ### Header lines -/

/-- What `stoi` gets of the line with the number of arguments, its LF at `p`. -/
def countText (buf : Bytes) (p : Nat) : Bytes :=
  (buf.drop 1).take (if buf[p - 1]? = some cr then p - 2 else p - 1)

/-- What `stoi` gets of the line with a length, from `q` to its LF at `p`. -/
def lenText (buf : Bytes) (q p : Nat) : Bytes :=
  (buf.drop (q + 1)).take (if buf[p - 1]? = some cr then p - q - 1 else p - q)

/-- The number of arguments: a line of at most one byte leaves it at zero. -/
def countOf (buf : Bytes) (p : Nat) : Except StdException Int :=
  if 1 < p then stoi (countText buf p) else .ok 0

/-- The length of an argument: a line of at most one byte leaves it at `-1`. -/
def lenOf (buf : Bytes) (q p : Nat) : Except StdException Int :=
  if q + 1 < p then stoi (lenText buf q p) else .ok (-1)

theorem lenOf_bounds {buf : Bytes} {q p : Nat} {len : Int} (h : lenOf buf q p = .ok len) :
    intMin ≤ len ∧ len ≤ intMax := by
  unfold lenOf at h
  split at h
  · exact stoi_bounds h
  · cases h
    decide

/-- Nothing but NULs beyond the reach of `read`. -/
def NulTail (buf : Bytes) : Prop := ∀ b ∈ buf.drop queryBuffLen, b = 0

theorem NulTail.lf_lt {buf : Bytes} {q p : Nat} (h : NulTail buf) (hp : FirstAt buf lf q p) :
    p < queryBuffLen := by
  refine Nat.lt_of_not_ge fun hge => ?_
  obtain ⟨k, rfl⟩ := Nat.exists_eq_add_of_le hge
  have := h lf (List.mem_iff_getElem?.2 ⟨k, by rw [List.getElem?_drop, hp.2.1]⟩)
  exact absurd this (by decide)

/-! ### Offsets in `int` -/

theorem sizeT_sub {a b : Nat} (hab : b ≤ a) (ha : a < 2 ^ 64) : sizeT ((a : Int) - b) = a - b := by
  rw [← Int.ofNat_sub hab]
  exact sizeT_natCast (by omega)

theorem sizeT_neg {z : Int} (h1 : intMin ≤ z) (h2 : z < 0) : 2 ^ 63 ≤ sizeT z := by
  unfold intMin at h1
  unfold sizeT
  omega

theorem int32_succ {n : Nat} (h : n + 1 < 2 ^ 31) : int32 ((n : Int) + 1) = (n + 1 : Nat) := by
  rw [← Int.natCast_succ]
  exact int32_natCast h

theorem exists_toNat_succ {z : Int} (h : 0 < z) : ∃ n, z.toNat = n + 1 :=
  ⟨z.toNat - 1, by omega⟩

/-- Where an offset and a length do not fit an `int`, the sum is negative. -/
theorem int32_wrap {z : Int} (h1 : intMax < z) (h2 : z < 2 ^ 32) : int32 z = z - 2 ^ 32 := by
  unfold intMax at h1
  rw [int32, Int.bmod_eq_emod]
  split <;> omega

theorem int32_add_add (a b c : Int) : int32 (int32 (a + b) + c) = int32 (a + b + c) :=
  Int.bmod_add_bmod

theorem int32_add_int32 (a b : Int) : int32 (a + int32 b) = int32 (a + b) := by
  rw [Int.add_comm, Int.add_comm a b]
  exact Int.bmod_add_bmod

section

variable {q size : Nat} {len : Int}

/-- The completeness test of the code, on an offset in the reach of `read` and any length. -/
theorem cursor_test (hq : q ≤ queryBuffLen) (hlo : intMin ≤ len) (hhi : len ≤ intMax)
    (hsize : size < 2 ^ 31) :
    sizeT (int32 (int32 (q + len) + 2)) < size ↔ ∃ t : Nat, (q : Int) + len + 2 = t ∧ t < size := by
  have hbuf : queryBuffLen = 14336 := rfl
  rw [int32_add_add]
  constructor
  · intro h
    have hnn : 0 ≤ int32 (q + len + 2) := by
      refine Int.not_lt.1 fun hneg => ?_
      have := sizeT_neg (int32_bounds _).1 hneg
      omega
    have hfit : (q : Int) + len + 2 ≤ intMax := by
      refine Int.not_lt.1 fun hgt => ?_
      have hw := int32_wrap hgt (by unfold intMax at hhi; omega)
      unfold intMax at hhi
      omega
    have he : int32 (q + len + 2) = q + len + 2 :=
      int32_eq (by unfold intMin at hlo ⊢; omega) hfit
    rw [he] at hnn h
    obtain ⟨t, ht⟩ := Int.eq_ofNat_of_zero_le hnn
    rw [ht, sizeT_natCast (by unfold intMax at hfit; omega)] at h
    exact ⟨t, ht, h⟩
  · rintro ⟨t, ht, hlt⟩
    rw [ht, int32_natCast (by omega), sizeT_natCast (by omega)]
    exact hlt

end

/-! ### Steps of the parser -/

namespace Client

variable {ω : Type}

/-- `q` is the offset of the parser, in a buffer it can work on. -/
structure Placed (c : Client ω) (q : Nat) : Prop where
  qryPos : c.qryPos = q
  le : q ≤ c.queryBuff.length
  size : c.queryBuff.length < 2 ^ 31
  tail : NulTail c.queryBuff
  lower : intMin ≤ c.bulkLen
  upper : c.bulkLen ≤ intMax
  known : c.bulkLen ≠ -1 → q ≤ queryBuffLen

theorem Placed.eq {c : Client ω} {q q' : Nat} (h : c.Placed q) (hq : c.qryPos = q') : q' = q :=
  Int.ofNat.inj (hq.symm.trans h.qryPos)

/-- Into the loop: with the number of arguments known, or read from the first line. -/
inductive Entry (c : Client ω) : Client ω → Prop where
  | known : c.multiBulkCnt ≠ 0 → Entry c c
  | line {p : Nat} {n : Int} : c.multiBulkCnt = 0 → FirstAt c.queryBuff lf 0 p →
      countOf c.queryBuff p = .ok n → Entry c { c with multiBulkCnt := n, qryPos := (p + 1 : Nat) }

/-- The next argument has length `len` and starts at `q`. -/
inductive Header (c : Client ω) : Int → Nat → Prop where
  | known {q : Nat} : c.bulkLen ≠ -1 → c.qryPos = q → Header c c.bulkLen q
  | line {q p : Nat} {len : Int} : c.bulkLen = -1 → c.qryPos = q → FirstAt c.queryBuff lf q p →
      lenOf c.queryBuff q p = .ok len → Header c len (p + 1)

/-- One round of the loop: the argument is there, the parser goes on at `t`. A negative length
moves it back. -/
inductive Round (c : Client ω) : Client ω → Prop where
  | take {len : Int} {q t : Nat} : 0 < c.multiBulkCnt → Header c len q →
      (q : Int) + len + 2 = t → t < c.queryBuff.length →
      Round c { c with
        paras := c.paras ++ [(c.queryBuff.drop q).take (sizeT len)]
        qryPos := t
        multiBulkCnt := c.multiBulkCnt - 1
        bulkLen := -1 }

/-- How the loop ends. -/
inductive Stop (c : Client ω) : Except StdException (Int × Client ω) → Prop where
  | done : c.multiBulkCnt ≤ 0 → Stop c (.ok c.endBulk)
  | header {q : Nat} : 0 < c.multiBulkCnt → c.bulkLen = -1 → c.qryPos = q →
      find c.queryBuff lf q = none → Stop c (.ok (-1, c))
  | arg {len : Int} {q : Nat} : 0 < c.multiBulkCnt → Header c len q →
      (∀ t : Nat, (q : Int) + len + 2 = t → c.queryBuff.length ≤ t) →
      Stop c (.ok (-1, { c with bulkLen := len, qryPos := q }))
  | bad {q p : Nat} {e : StdException} : 0 < c.multiBulkCnt → c.bulkLen = -1 → c.qryPos = q →
      FirstAt c.queryBuff lf q p → lenOf c.queryBuff q p = .error e → Stop c (.error e)

/-- How `parseBulkQuery` ends. -/
inductive BulkEnd (c : Client ω) : Except StdException (Int × Client ω) → Prop where
  | count : c.multiBulkCnt = 0 → find c.queryBuff lf 0 = none → BulkEnd c (.ok (-1, c))
  | badCount {p : Nat} {e : StdException} : c.multiBulkCnt = 0 → FirstAt c.queryBuff lf 0 p →
      countOf c.queryBuff p = .error e → BulkEnd c (.error e)
  | exhausted {d : Client ω} : Entry c d → (c.queryBuff.length : Int) ≤ d.qryPos →
      BulkEnd c (.ok (-1, d))
  | loop {d e : Client ω} {r : Except StdException (Int × Client ω)} : Entry c d →
      d.qryPos < c.queryBuff.length → ReflTransGen Round d e → Stop e r → BulkEnd c r

variable {c d e : Client ω} {q : Nat} {len : Int} {r : Except StdException (Int × Client ω)}

/-! ### The code takes these steps -/

theorem readCount_eq (hcnt : c.multiBulkCnt = 0) (hsize : c.queryBuff.length < 2 ^ 31) :
    c.readCount = match find c.queryBuff lf 0 with
      | none => .ok none
      | some p => (countOf c.queryBuff p).map fun n =>
          some { c with multiBulkCnt := n, qryPos := (p + 1 : Nat) } := by
  unfold readCount
  rw [if_pos hcnt]
  cases hfind : find c.queryBuff lf 0 with
  | none => rfl
  | some p =>
    have hlt := (find_eq_some.1 hfind).lt_length
    have hpos : int32 ((p : Int) + 1) = (p + 1 : Nat) := int32_succ (by omega)
    have hsub : ∀ n, substr c.queryBuff 1 n = .ok ((c.queryBuff.drop 1).take n) :=
      fun n => if_pos (by omega)
    simp only [hpos, hsub, bind, Except.bind, countOf, countText, hcnt]
    by_cases hp : 1 < p
    · rw [if_pos hp, if_pos hp]
      by_cases hcr : c.queryBuff[p - 1]? = some cr
      · rw [if_pos hcr, if_pos hcr]
        rfl
      · rw [if_neg hcr, if_neg hcr]
        rfl
    · rw [if_neg hp, if_neg hp]
      rfl

theorem readLen_of_pos (hq : c.qryPos = q) (hle : q ≤ c.queryBuff.length)
    (hsize : c.queryBuff.length < 2 ^ 31) (hlen : c.bulkLen = -1) :
    c.readLen = match find c.queryBuff lf q with
      | none => .ok none
      | some p => (lenOf c.queryBuff q p).map fun len =>
          some { c with bulkLen := len, qryPos := (p + 1 : Nat) } := by
  unfold readLen
  rw [if_pos hlen, hq, sizeT_natCast (by omega)]
  cases hfind : find c.queryBuff lf q with
  | none => rfl
  | some p =>
    obtain ⟨hqp, -, -⟩ := find_eq_some.1 hfind
    have hlt := (find_eq_some.1 hfind).lt_length
    have hpos : int32 ((p : Int) + 1) = (p + 1 : Nat) := int32_succ (by omega)
    have hnext : sizeT (int32 ((q : Int) + 1)) = q + 1 := by
      rw [int32_succ (by omega), sizeT_natCast (by omega)]
    have hwidth : sizeT ((p : Int) - q) = p - q := sizeT_sub hqp (by omega)
    have hsub : ∀ n, substr c.queryBuff (q + 1) n = .ok ((c.queryBuff.drop (q + 1)).take n) :=
      fun n => if_pos (by omega)
    dsimp only
    rw [hwidth, hnext, hpos, hlen, hsub, hsub]
    unfold lenOf lenText
    by_cases hp : q + 1 < p
    · have hwidth' : sizeT ((p : Int) - q - 1) = p - q - 1 := by
        have : (p : Int) - q - 1 = p - (q + 1 : Nat) := by omega
        rw [this, sizeT_sub (by omega) (by omega)]
        omega
      rw [if_pos hp, if_pos (by omega), hwidth']
      by_cases hcr : c.queryBuff[p - 1]? = some cr
      · rw [if_pos hcr, if_pos hcr]
        rfl
      · rw [if_neg hcr, if_neg hcr]
        rfl
    · rw [if_neg hp, if_neg (by omega)]
      rfl

theorem readLen_eq (h : c.Placed q) (hlen : c.bulkLen = -1) :
    c.readLen = match find c.queryBuff lf q with
      | none => .ok none
      | some p => (lenOf c.queryBuff q p).map fun len =>
          some { c with bulkLen := len, qryPos := (p + 1 : Nat) } :=
  readLen_of_pos h.qryPos h.le h.size hlen

/-- Where the argument is, and its length. -/
theorem Header.bounds (h : Header c len q) {q₀ : Nat} (hc : c.Placed q₀) :
    q ≤ queryBuffLen ∧ q ≤ c.queryBuff.length ∧ intMin ≤ len ∧ len ≤ intMax := by
  cases h with
  | known hlen hq =>
    obtain rfl := hc.eq hq
    exact ⟨hc.known hlen, hc.le, hc.lower, hc.upper⟩
  | line _ _ hp hlen =>
    have := hc.tail.lf_lt hp
    have := hp.lt_length
    exact ⟨by omega, by omega, lenOf_bounds hlen⟩

theorem Header.readLen (h : Header c len q) {q₀ : Nat} (hc : c.Placed q₀) :
    c.readLen = .ok (some { c with bulkLen := len, qryPos := q }) := by
  cases h with
  | known hlen hq =>
    rw [readLen_known hlen, ← hq]
  | line hlen hq hp hok =>
    obtain rfl := hc.eq hq
    rw [readLen_eq hc hlen, find_eq_some.2 hp]
    simp only [hok]
    rfl

theorem Round.placed (h : Round c d) (hc : c.Placed q) : ∃ t, d.Placed t := by
  cases h with
  | take hcnt hhead ht hlt =>
    have hlo : intMin ≤ -1 := by decide
    have hhi : -1 ≤ intMax := by decide
    exact ⟨_, rfl, Nat.le_of_lt hlt, hc.size, hc.tail, hlo, hhi, fun h => absurd rfl h⟩

theorem rounds_placed (h : ReflTransGen Round c d) (hc : c.Placed q) : ∃ t, d.Placed t := by
  induction h with
  | refl => exact ⟨q, hc⟩
  | tail _ hround ih =>
    obtain ⟨t, ht⟩ := ih
    exact hround.placed ht

/-- An argument that is there is taken. -/
theorem Header.takeArg (h : Header c len q) {q₀ t : Nat} (hc : c.Placed q₀)
    (ht : (q : Int) + len + 2 = t) (hlt : t < c.queryBuff.length) :
    ({ c with bulkLen := len, qryPos := q } : Client ω).takeArg = .ok { c with
      paras := c.paras ++ [(c.queryBuff.drop q).take (sizeT len)]
      qryPos := t
      multiBulkCnt := c.multiBulkCnt - 1
      bulkLen := -1 } := by
  obtain ⟨hq, hle, hlo, hhi⟩ := h.bounds hc
  have hsize := hc.size
  have hnext : int32 ((q : Int) + int32 (len + 2)) = t := by
    rw [int32_add_int32, ← Int.add_assoc, ht, int32_natCast (by omega)]
  have hsub : substr c.queryBuff (sizeT (q : Int)) (sizeT len) =
      .ok ((c.queryBuff.drop q).take (sizeT len)) := by
    rw [sizeT_natCast (by omega)]
    exact if_pos hle
  simp only [Client.takeArg, hsub, hnext, bind, Except.bind, pure, Except.pure]

theorem Round.bulkLoop_eq (h : Round c d) (hc : c.Placed q) :
    bulkLoop c.multiBulkCnt.toNat c = bulkLoop d.multiBulkCnt.toNat d := by
  cases h with
  | take hcnt hhead ht hlt =>
    rename_i len q t
    obtain ⟨hq, hle, hlo, hhi⟩ := hhead.bounds hc
    obtain ⟨n, hn⟩ := exists_toNat_succ hcnt
    have htest := (cursor_test hq hlo hhi hc.size).2 ⟨t, ht, hlt⟩
    have hcnt' : (c.multiBulkCnt - 1).toNat = n := by omega
    rw [hn, bulkLoop_round hcnt (hhead.readLen hc), if_neg (by simp only; omega),
      hhead.takeArg hc ht hlt]
    simp only [hcnt', Except.bind]

theorem rounds_bulkLoop_eq (h : ReflTransGen Round c d) (hc : c.Placed q) :
    bulkLoop c.multiBulkCnt.toNat c = bulkLoop d.multiBulkCnt.toNat d := by
  induction h with
  | refl => rfl
  | tail hrounds hround ih =>
    obtain ⟨t, ht⟩ := rounds_placed hrounds hc
    rw [ih, hround.bulkLoop_eq ht]

theorem Stop.bulkLoop_eq (h : Stop c r) (hc : c.Placed q) :
    bulkLoop c.multiBulkCnt.toNat c = r := by
  cases h with
  | done hcnt =>
    rw [Int.toNat_of_nonpos hcnt]
    rfl
  | header hcnt hlen hq hnone =>
    obtain ⟨n, hn⟩ := exists_toNat_succ hcnt
    obtain rfl := hc.eq hq
    rw [hn, bulkLoop, if_pos hcnt, readLen_eq hc hlen, hnone]
    rfl
  | arg hcnt hhead hwait =>
    rename_i len q'
    obtain ⟨hq, -, hlo, hhi⟩ := hhead.bounds hc
    obtain ⟨n, hn⟩ := exists_toNat_succ hcnt
    rw [hn, bulkLoop_round hcnt (hhead.readLen hc), if_pos]
    refine Nat.not_lt.1 fun hlt => ?_
    obtain ⟨t, ht, hlt⟩ := (cursor_test hq hlo hhi hc.size).1 hlt
    exact absurd hlt (Nat.not_lt.2 (hwait t ht))
  | bad hcnt hlen hq hp herr =>
    obtain ⟨n, hn⟩ := exists_toNat_succ hcnt
    obtain rfl := hc.eq hq
    rw [hn, bulkLoop, if_pos hcnt, readLen_eq hc hlen, find_eq_some.2 hp]
    simp only [herr]
    rfl

/-- There is always a next round or an end. -/
theorem progress (hc : c.Placed q) : (∃ d, Round c d) ∨ ∃ r, Stop c r := by
  rcases Int.lt_or_le 0 c.multiBulkCnt with hcnt | hcnt
  · have harg : ∀ {len : Int} {q' : Nat}, Header c len q' →
        (∃ d, Round c d) ∨ ∃ r, Stop c r := by
      intro len q' hhead
      by_cases ht : ∃ t : Nat, (q' : Int) + len + 2 = t ∧ t < c.queryBuff.length
      · obtain ⟨t, ht, hlt⟩ := ht
        exact .inl ⟨_, .take hcnt hhead ht hlt⟩
      · exact .inr ⟨_, .arg hcnt hhead fun t he => Nat.not_lt.1 fun hlt => ht ⟨t, he, hlt⟩⟩
    by_cases hlen : c.bulkLen = -1
    · cases hfind : find c.queryBuff lf q with
      | none => exact .inr ⟨_, .header hcnt hlen hc.qryPos hfind⟩
      | some p =>
        have hp := find_eq_some.1 hfind
        cases hok : lenOf c.queryBuff q p with
        | error e => exact .inr ⟨_, .bad hcnt hlen hc.qryPos hp hok⟩
        | ok len => exact harg (.line hlen hc.qryPos hp hok)
    · exact harg (.known hlen hc.qryPos)
  · exact .inr ⟨_, .done hcnt⟩

theorem Round.multiBulkCnt (h : Round c d) :
    0 < c.multiBulkCnt ∧ d.multiBulkCnt = c.multiBulkCnt - 1 := by
  cases h with
  | take hcnt => exact ⟨hcnt, rfl⟩

theorem rounds_queryBuff (h : ReflTransGen Round c d) : d.queryBuff = c.queryBuff := by
  induction h with
  | refl => rfl
  | tail _ hround ih =>
    rw [← ih]
    cases hround
    rfl

theorem rounds_eq (h : ReflTransGen Round c d) (hcnt : c.multiBulkCnt ≤ 0) : d = c := by
  rcases h.cases_head with rfl | ⟨e, hround, -⟩
  · rfl
  · have := hround.multiBulkCnt.1
    omega

/-- The rounds come to an end: each counts an argument. -/
theorem rounds_stop (hc : c.Placed q) : ∃ d r, ReflTransGen Round c d ∧ Stop d r := by
  generalize hn : c.multiBulkCnt.toNat = n
  induction n generalizing c q with
  | zero => exact ⟨c, _, .refl, .done (by omega)⟩
  | succ n ih =>
    rcases progress hc with ⟨d, hround⟩ | ⟨r, hstop⟩
    · obtain ⟨t, ht⟩ := hround.placed hc
      obtain ⟨hcnt, hcnt'⟩ := hround.multiBulkCnt
      obtain ⟨e, r, hrounds, hstop⟩ := ih ht (by omega)
      exact ⟨e, r, .head hround hrounds, hstop⟩
    · exact ⟨c, r, .refl, hstop⟩

/-! ### The whole parser -/

theorem Entry.queryBuff (h : Entry c d) : d.queryBuff = c.queryBuff := by
  cases h <;> rfl

theorem Entry.placed (h : Entry c d) (hc : c.Placed q) : ∃ t, d.Placed t := by
  cases h with
  | known => exact ⟨q, hc⟩
  | line hcnt hp hok =>
    have := hc.tail.lf_lt hp
    exact ⟨_, rfl, hp.lt_length, hc.size, hc.tail, hc.lower, hc.upper, fun _ => this⟩

theorem Entry.readCount (h : Entry c d) (hc : c.Placed q) : c.readCount = .ok (some d) := by
  cases h with
  | known hcnt => rw [Client.readCount, if_neg hcnt]
  | line hcnt hp hok =>
    rw [readCount_eq hcnt hc.size, find_eq_some.2 hp]
    simp only [hok]
    rfl

theorem Entry.parseBulkQuery (h : Entry c d) (hc : c.Placed q) {t : Nat} (ht : d.Placed t) :
    c.parseBulkQuery = if c.queryBuff.length ≤ t then .ok (-1, d)
      else bulkLoop d.multiBulkCnt.toNat d := by
  have hsize := ht.size
  have hle := ht.le
  rw [parseBulkQuery_eq (h.readCount hc), ht.qryPos, sizeT_natCast (by omega), h.queryBuff]

/-- The parser returns or throws in one of the ways listed. -/
theorem parseBulkQuery_eq_iff (hc : c.Placed q) : c.parseBulkQuery = r ↔ BulkEnd c r := by
  have hsound : ∀ {r}, BulkEnd c r → c.parseBulkQuery = r := by
    intro r h
    cases h with
    | count hcnt hnone =>
      unfold Client.parseBulkQuery
      rw [readCount_eq hcnt hc.size, hnone]
      rfl
    | badCount hcnt hp herr =>
      unfold Client.parseBulkQuery
      rw [readCount_eq hcnt hc.size, find_eq_some.2 hp]
      simp only [herr]
      rfl
    | exhausted hentry hge =>
      obtain ⟨t, ht⟩ := hentry.placed hc
      rw [hentry.parseBulkQuery hc ht, if_pos]
      rw [ht.qryPos] at hge
      omega
    | loop hentry hlt hrounds hstop =>
      obtain ⟨t, ht⟩ := hentry.placed hc
      obtain ⟨u, hu⟩ := rounds_placed hrounds ht
      rw [hentry.parseBulkQuery hc ht, if_neg, rounds_bulkLoop_eq hrounds ht, hstop.bulkLoop_eq hu]
      rw [ht.qryPos] at hlt
      omega
  have hentry : ∀ {d}, Entry c d → ∃ r, BulkEnd c r := by
    intro d hentry
    obtain ⟨t, ht⟩ := hentry.placed hc
    rcases Int.lt_or_le d.qryPos c.queryBuff.length with hlt | hge
    · obtain ⟨e, r, hrounds, hstop⟩ := rounds_stop ht
      exact ⟨r, .loop hentry hlt hrounds hstop⟩
    · exact ⟨_, .exhausted hentry hge⟩
  have hsome : ∃ r, BulkEnd c r := by
    by_cases hcnt : c.multiBulkCnt = 0
    · cases hfind : find c.queryBuff lf 0 with
      | none => exact ⟨_, .count hcnt hfind⟩
      | some p =>
        have hp := find_eq_some.1 hfind
        cases hok : countOf c.queryBuff p with
        | error e => exact ⟨_, .badCount hcnt hp hok⟩
        | ok n => exact hentry (.line hcnt hp hok)
    · exact hentry (.known hcnt)
  refine ⟨fun h => ?_, hsound⟩
  obtain ⟨r', hr'⟩ := hsome
  rwa [← h, hsound hr']

/-- What the parser returns: it waits where it is, or takes a request out of the buffer. -/
inductive Returned (c : Client ω) : Int → Client ω → Prop where
  | count : c.multiBulkCnt = 0 → Returned c (-1) c
  | exhausted {d : Client ω} : Entry c d → Returned c (-1) d
  | header {d e : Client ω} : Entry c d → d.qryPos < c.queryBuff.length →
      ReflTransGen Round d e → e.multiBulkCnt ≠ 0 → Returned c (-1) e
  | arg {d e : Client ω} {len : Int} {q : Nat} : Entry c d → d.qryPos < c.queryBuff.length →
      ReflTransGen Round d e → 0 < e.multiBulkCnt → Header e len q →
      Returned c (-1) { e with bulkLen := len, qryPos := q }
  | taken {d e : Client ω} : Entry c d → d.qryPos < c.queryBuff.length →
      ReflTransGen Round d e → e.multiBulkCnt = 0 →
      Returned c 0 { e with
        queryBuff := e.queryBuff.drop (sizeT e.qryPos), qryPos := 0, qryType := 0 }

theorem parseBulkQuery_returned {st : Int} (hc : c.Placed q) (hr : c.parseBulkQuery = .ok (st, e)) :
    Returned c st e := by
  have hend := (parseBulkQuery_eq_iff hc).1 hr
  generalize hres : (.ok (st, e) : Except StdException (Int × Client ω)) = r at hend
  cases hend with
  | count hcnt =>
    cases hres
    exact .count hcnt
  | badCount => cases hres
  | exhausted hentry =>
    cases hres
    exact .exhausted hentry
  | loop hentry hlt hrounds hstop =>
    cases hstop with
    | done hcnt =>
      unfold endBulk at hres
      split at hres
      · rename_i h0
        cases hres
        exact .taken hentry hlt hrounds h0
      · rename_i hne
        cases hres
        exact .header hentry hlt hrounds hne
    | header hcnt =>
      cases hres
      exact .header hentry hlt hrounds (Int.ne_of_gt hcnt)
    | arg hcnt hhead =>
      cases hres
      exact .arg hentry hlt hrounds hcnt hhead
    | bad => cases hres

/-- It returns 0 only with a request read to its end. -/
theorem parseBulkQuery_taken (hc : c.Placed q) (hr : c.parseBulkQuery = .ok (0, e)) :
    ∃ d b, Entry c d ∧ d.qryPos < c.queryBuff.length ∧ ReflTransGen Round d b ∧
      b.multiBulkCnt = 0 ∧ e = { b with
        queryBuff := b.queryBuff.drop (sizeT b.qryPos), qryPos := 0, qryType := 0 } := by
  have hret := parseBulkQuery_returned hc hr
  generalize hst : (0 : Int) = st at hret
  cases hret with
  | taken hentry hlt hrounds h0 => exact ⟨_, _, hentry, hlt, hrounds, h0, rfl⟩
  | _ => cases hst

end Client

end LittleLearning.Db
