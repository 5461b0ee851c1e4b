import LittleLearning.Db.Client

/-!
# The parsers and the output

`graft` gives a client another exit flag and another output, of bytes of any
type. The parsers read neither: they do to the grafted client what they do to
the client (`processInput_graft`), whatever another thread has done to the two.
-/

namespace LittleLearning.Db

open Cxx

namespace Client

variable {ω ω' ω'' : Type}

def graft (c : Client ω) (isExited : Bool) (output : List ω') : Client ω' :=
  { c with isExited := isExited, output := output }

variable (c : Client ω) (x : Bool) (out : List ω')

@[simp] theorem graft_graft (y : Bool) (out' : List ω'') :
    (c.graft x out).graft y out' = c.graft y out' := rfl

theorem graft_self : c.graft c.isExited c.output = c := rfl

theorem map_bind {α β γ ε : Type} (r : Except ε α) (f : α → Except ε β) (g : β → γ) :
    (r >>= f).map g = r >>= fun a => (f a).map g := by
  cases r <;> rfl

theorem readCount_graft :
    (c.graft x out).readCount = c.readCount.map (Option.map (graft · x out)) := by
  unfold readCount
  show (if c.multiBulkCnt = 0 then _ else _) = _
  by_cases hcnt : c.multiBulkCnt = 0
  · rw [if_pos hcnt, if_pos hcnt]
    dsimp only [graft]
    cases find c.queryBuff lf 0 with
    | none => rfl
    | some pos =>
      dsimp only [graft]
      by_cases hlong : pos > 1
      · refine (if_pos hlong).trans ?_
        rw [if_pos hlong]
        by_cases hcr : c.queryBuff[pos - 1]? = some cr
        · refine (if_pos hcr).trans ?_
          rw [if_pos hcr]
          simp only [map_bind]
          simp only [pure, Except.pure, Except.map, Option.map]
        · refine (if_neg hcr).trans ?_
          rw [if_neg hcr]
          simp only [map_bind]
          simp only [pure, Except.pure, Except.map, Option.map]
      · refine (if_neg hlong).trans ?_
        rw [if_neg hlong]
        simp only [map_bind]
        simp only [pure, Except.pure, Except.map, Option.map]
  · rw [if_neg hcnt, if_neg hcnt]
    rfl

theorem readLen_graft :
    (c.graft x out).readLen = c.readLen.map (Option.map (graft · x out)) := by
  unfold readLen
  show (if c.bulkLen = -1 then _ else _) = _
  by_cases hlen : c.bulkLen = -1
  · rw [if_pos hlen, if_pos hlen]
    dsimp only [graft]
    cases find c.queryBuff lf (sizeT c.qryPos) with
    | none => rfl
    | some pos =>
      dsimp only [graft]
      by_cases hlong : sizeT (pos - c.qryPos) > 1
      · refine (if_pos hlong).trans ?_
        rw [if_pos hlong]
        by_cases hcr : c.queryBuff[pos - 1]? = some cr
        · refine (if_pos hcr).trans ?_
          rw [if_pos hcr]
          simp only [map_bind]
          simp only [pure, Except.pure, Except.map, Option.map]
        · refine (if_neg hcr).trans ?_
          rw [if_neg hcr]
          simp only [map_bind]
          simp only [pure, Except.pure, Except.map, Option.map]
      · refine (if_neg hlong).trans ?_
        rw [if_neg hlong]
        simp only [map_bind]
        simp only [pure, Except.pure, Except.map, Option.map]
  · rw [if_neg hlen, if_neg hlen]
    rfl

theorem takeArg_graft : (c.graft x out).takeArg = c.takeArg.map (graft · x out) := by
  unfold takeArg
  rw [map_bind]
  rfl

theorem endBulk_graft :
    (c.graft x out).endBulk = (c.endBulk.1, c.endBulk.2.graft x out) := by
  unfold endBulk
  show (if c.multiBulkCnt = 0 then _ else _) = _
  by_cases hcnt : c.multiBulkCnt = 0
  · rw [if_pos hcnt, if_pos hcnt]
    rfl
  · rw [if_neg hcnt, if_neg hcnt]

theorem bulkLoop_graft (n : Nat) :
    bulkLoop n (c.graft x out) = (bulkLoop n c).map (Prod.map id (graft · x out)) := by
  induction n generalizing c with
  | zero => exact congrArg Except.ok (c.endBulk_graft x out)
  | succ n ih =>
    unfold bulkLoop
    show (if c.multiBulkCnt > 0 then _ else _) = _
    by_cases hcnt : c.multiBulkCnt > 0
    · rw [if_pos hcnt, if_pos hcnt, readLen_graft, map_bind]
      cases c.readLen with
      | error => rfl
      | ok next =>
        cases next with
        | none => rfl
        | some d =>
          show (if sizeT (int32 (int32 (d.qryPos + d.bulkLen) + 2)) ≥ d.queryBuff.length then _
            else _) = Except.map _ (if _ then _ else _)
          by_cases hge : sizeT (int32 (int32 (d.qryPos + d.bulkLen) + 2)) ≥ d.queryBuff.length
          · rw [if_pos hge, if_pos hge]
            rfl
          · rw [if_neg hge, if_neg hge, takeArg_graft, map_bind]
            cases d.takeArg with
            | error => rfl
            | ok e => exact ih e
    · rw [if_neg hcnt, if_neg hcnt]
      exact congrArg Except.ok (c.endBulk_graft x out)

theorem parseBulkQuery_graft : (c.graft x out).parseBulkQuery =
    c.parseBulkQuery.map (Prod.map id (graft · x out)) := by
  unfold parseBulkQuery
  rw [readCount_graft, map_bind]
  cases c.readCount with
  | error => rfl
  | ok next =>
    cases next with
    | none => rfl
    | some d =>
      show (if sizeT d.qryPos ≥ d.queryBuff.length then _ else _) =
        Except.map _ (if _ then _ else _)
      by_cases hge : sizeT d.qryPos ≥ d.queryBuff.length
      · rw [if_pos hge, if_pos hge]
        rfl
      · rw [if_neg hge, if_neg hge]
        exact d.bulkLoop_graft x out _

theorem parseQuery_graft :
    (c.graft x out).parseQuery = c.parseQuery.map (Prod.map id (graft · x out)) := by
  unfold parseQuery
  dsimp only [graft]
  cases find c.queryBuff lf (sizeT c.qryPos) with
  | none => rfl
  | some pos =>
    simp only [map_bind]
    rfl

theorem parse_graft :
    (c.graft x out).parse = c.parse.map (Prod.map id (graft · x out)) := by
  have hparser : ∀ d : Client ω,
      (if d.qryType = 2 then (d.graft x out).parseBulkQuery else (d.graft x out).parseQuery) =
        (if d.qryType = 2 then d.parseBulkQuery else d.parseQuery).map
          (Prod.map id (graft · x out)) := by
    intro d
    by_cases h2 : d.qryType = 2
    · rw [if_pos h2, if_pos h2, parseBulkQuery_graft]
    · rw [if_neg h2, if_neg h2, parseQuery_graft]
  have hkind : (if (c.graft x out).qryType = 0 then
        { c.graft x out with qryType := if c.queryBuff.head? = some star then 2 else 1 }
      else c.graft x out) = (if c.qryType = 0 then
        { c with qryType := if c.queryBuff.head? = some star then 2 else 1 }
      else c).graft x out := by
    show (if c.qryType = 0 then _ else _) = _
    by_cases h0 : c.qryType = 0
    · rw [if_pos h0, if_pos h0]
      rfl
    · rw [if_neg h0, if_neg h0]
  exact (congrArg (fun d : Client ω' =>
    if d.qryType = 2 then d.parseBulkQuery else d.parseQuery) hkind).trans (hparser _)

/-- One read event: only end-of-file touches what the graft has brought in. -/
theorem processInput_graft (data : Bytes) : (c.graft x out).processInput data =
    (c.processInput data).map (Prod.map id (graft · (x || data.isEmpty) out)) := by
  unfold processInput processQuery
  by_cases hdata : data = []
  · subst hdata
    rw [if_pos rfl, if_pos rfl]
    cases x <;> rfl
  · rw [if_neg hdata, if_neg hdata]
    have hx : (x || data.isEmpty) = x := by simp [hdata]
    have hparse := parse_graft { c with queryBuff := receive c.queryBuff data } x out
    rw [hx, map_bind]
    refine (congrArg (· >>= _) hparse).trans ?_
    cases ({ c with queryBuff := receive c.queryBuff data } : Client ω).parse with
    | error => rfl
    | ok res =>
      by_cases hst : res.1 = 0
      · show (if res.1 = 0 then _ else _) = Except.map _ (if res.1 = 0 then _ else _)
        rw [if_pos hst, if_pos hst]
        rfl
      · show (if res.1 = 0 then _ else _) = Except.map _ (if res.1 = 0 then _ else _)
        rw [if_neg hst, if_neg hst]
        rfl

end Client

end LittleLearning.Db
