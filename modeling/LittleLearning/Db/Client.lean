import LittleLearning.Lib.Cxx

/-!
# A client of the database server

`Client` is the server's record of one connection and the two parsers that run
on its query buffer: `parseQuery` for an inline line, `parseBulkQuery` for the
multi-bulk format. A parser that must wait returns `-1` and keeps in the record
what it has read so far. An exception of the string library leaves the parser
as `.error`; nothing in the event loop catches it.

The query buffer stays below `2 ^ 31` bytes, so its size and the indices into
it are natural numbers; what the code stores in an `int` is reduced by `int32`.
`ω` is the type of a byte of `output`: the parsers do not look at it.
-/

namespace LittleLearning.Db

open Cxx

def sp : UInt8 := 32
def cr : UInt8 := 13
def lf : UInt8 := 10
def star : UInt8 := 42
def dollar : UInt8 := 36

def queryBuffLen : Nat := 14 * 1024

structure Client (ω : Type) where
  isExited : Bool
  fd : Int
  qryType : Int
  qryPos : Int
  queryBuff : Bytes
  multiBulkCnt : Int
  bulkLen : Int
  paras : List Bytes
  output : List ω

namespace Client

variable {ω : Type}

/-- The constructor `Client(int fd)`. -/
def new (fd : Int) : Client ω where
  isExited := false
  fd := fd
  qryType := 0
  qryPos := 0
  queryBuff := []
  multiBulkCnt := 0
  bulkLen := -1
  paras := []
  output := []

def exit (c : Client ω) : Client ω := { c with isExited := true }

/-! ### Inline lines -/

/-- The inner `while` of `parseQuery`: where the word starting before `j` ends. -/
def wordEnd (buf : Bytes) (pos : Nat) : Nat → Nat → Nat
  | 0, j => j
  | n + 1, j =>
    if j < pos ∧ buf[j]? ≠ some sp ∧ buf[j]? ≠ some cr then wordEnd buf pos n (j + 1) else j

/-- The `for` of `parseQuery` from index `i` on. Every round moves `i`, so `pos` rounds are
enough. -/
def wordLoop (buf : Bytes) (pos : Nat) : Nat → Nat → List Bytes → Except StdException (List Bytes)
  | 0, _, paras => .ok paras
  | n + 1, i, paras =>
    if (i : Int) < int32 pos ∧ buf[pos]? ≠ some cr then
      if buf[i]? = some sp then wordLoop buf pos n (i + 1) paras
      else do
        let j := wordEnd buf pos pos i
        let w ← substr buf i (j - i)
        wordLoop buf pos n (j + 1) (paras ++ [w])
    else .ok paras

def parseQuery (c : Client ω) : Except StdException (Int × Client ω) :=
  match find c.queryBuff lf (sizeT c.qryPos) with
  | none => .ok (-1, c)
  | some pos => do
    let paras ← wordLoop c.queryBuff pos pos 0 c.paras
    let c := { c with paras := paras, queryBuff := c.queryBuff.drop (pos + 1), qryType := 0 }
    return (if c.paras ≠ [] then 0 else -1, c)

/-! ### Multi-bulk requests -/

/-- `if(!multiBulkCnt)`: the header line with the number of arguments. `none` is the early
`return -1`, before anything is stored. -/
def readCount (c : Client ω) : Except StdException (Option (Client ω)) :=
  if c.multiBulkCnt = 0 then
    match find c.queryBuff lf 0 with
    | none => .ok none
    | some pos => do
      let cnt ←
        if pos > 1 then
          if c.queryBuff[pos - 1]? = some cr then do stoi (← substr c.queryBuff 1 (pos - 2))
          else do stoi (← substr c.queryBuff 1 (pos - 1))
        else pure c.multiBulkCnt
      return some { c with multiBulkCnt := cnt, qryPos := int32 (pos + 1) }
  else .ok (some c)

/-- `if(bulkLen == -1)`: the header line of one argument. -/
def readLen (c : Client ω) : Except StdException (Option (Client ω)) :=
  if c.bulkLen = -1 then
    match find c.queryBuff lf (sizeT c.qryPos) with
    | none => .ok none
    | some pos => do
      let len ←
        if sizeT (pos - c.qryPos) > 1 then
          if c.queryBuff[pos - 1]? = some cr then do
            stoi (← substr c.queryBuff (sizeT (int32 (c.qryPos + 1))) (sizeT (pos - c.qryPos - 1)))
          else do
            stoi (← substr c.queryBuff (sizeT (int32 (c.qryPos + 1))) (sizeT (pos - c.qryPos)))
        else pure c.bulkLen
      return some { c with bulkLen := len, qryPos := int32 (pos + 1) }
  else .ok (some c)

/-- The argument itself: pushed, its bytes and the two after it passed over. -/
def takeArg (c : Client ω) : Except StdException (Client ω) := do
  let arg ← substr c.queryBuff (sizeT c.qryPos) (sizeT c.bulkLen)
  return { c with
    paras := c.paras ++ [arg]
    qryPos := int32 (c.qryPos + int32 (c.bulkLen + 2))
    multiBulkCnt := c.multiBulkCnt - 1
    bulkLen := -1 }

/-- What follows the `while`. -/
def endBulk (c : Client ω) : Int × Client ω :=
  if c.multiBulkCnt = 0 then
    (0, { c with queryBuff := c.queryBuff.drop (sizeT c.qryPos), qryPos := 0, qryType := 0 })
  else (-1, c)

/-- `while(multiBulkCnt > 0)`: a round counts `multiBulkCnt` down by one. -/
def bulkLoop : Nat → Client ω → Except StdException (Int × Client ω)
  | 0, c => .ok c.endBulk
  | n + 1, c =>
    if c.multiBulkCnt > 0 then do
      match ← c.readLen with
      | none => return (-1, c)
      | some c =>
        if sizeT (int32 (int32 (c.qryPos + c.bulkLen) + 2)) ≥ c.queryBuff.length then
          return (-1, c)
        else bulkLoop n (← c.takeArg)
    else .ok c.endBulk

def parseBulkQuery (c : Client ω) : Except StdException (Int × Client ω) := do
  match ← c.readCount with
  | none => return (-1, c)
  | some c =>
    if sizeT c.qryPos ≥ c.queryBuff.length then return (-1, c)
    else bulkLoop c.multiBulkCnt.toNat c

/-! ### Reading -/

/-- `resize`, `read` to `&queryBuff.front()`, `resize`: the bytes read replace the first ones of
the buffer, which grows by as many NULs at its end. -/
def receive (buf data : Bytes) : Bytes :=
  let grown := buf ++ List.replicate queryBuffLen 0
  (data ++ grown.drop data.length).take (buf.length + data.length)

/-- The parser for the buffer as it stands. -/
def parse (c : Client ω) : Except StdException (Int × Client ω) :=
  let c := if c.qryType = 0 then
      { c with qryType := if c.queryBuff.head? = some star then 2 else 1 } else c
  if c.qryType = 2 then c.parseBulkQuery else c.parseQuery

/-- `data` is what `read` delivers, nothing at end-of-file and after an error. -/
def processQuery (c : Client ω) (data : Bytes) : Except StdException (Int × Client ω) :=
  if data = [] then
    .ok (-1, exit { c with queryBuff := c.queryBuff ++ List.replicate queryBuffLen 0 })
  else parse { c with queryBuff := receive c.queryBuff data }

/-- `forwardTask` into the empty `cmd` of a new task. -/
def forwardTask (c : Client ω) : List Bytes × Client ω := (c.paras, { c with paras := [] })

/-- The part of `processInput` inside one client: the command it dispatches, if any. -/
def processInput (c : Client ω) (data : Bytes) :
    Except StdException (Option (List Bytes) × Client ω) := do
  let (st, c) ← c.processQuery data
  if st = 0 then
    let (cmd, c) := c.forwardTask
    return (some cmd, c)
  else return (none, c)

/-! ### What the parsers leave alone -/

/-- `c'` is `c` but for what the parsers keep. -/
structure Parsed (c c' : Client ω) : Prop where
  isExited : c'.isExited = c.isExited
  output : c'.output = c.output

section

variable {c c' c'' : Client ω} {st : Int}

theorem Parsed.refl : Parsed c c := ⟨rfl, rfl⟩

theorem Parsed.trans (h : Parsed c c') (h' : Parsed c' c'') : Parsed c c'' :=
  ⟨h'.isExited.trans h.isExited, h'.output.trans h.output⟩

theorem readCount_parsed (h : c.readCount = .ok (some c')) : Parsed c c' := by
  unfold readCount at h
  split at h
  · split at h
    · cases h
    · split at h <;> try split at h
      all_goals
        simp only [bind_eq_ok, pure_eq_ok, Except.ok.injEq, Option.some.injEq] at h
        grind [Parsed]
  · cases h
    exact .refl

theorem readLen_parsed (h : c.readLen = .ok (some c')) : Parsed c c' := by
  unfold readLen at h
  split at h
  · split at h
    · cases h
    · split at h <;> try split at h
      all_goals
        simp only [bind_eq_ok, pure_eq_ok, Except.ok.injEq, Option.some.injEq] at h
        grind [Parsed]
  · cases h
    exact .refl

theorem takeArg_parsed (h : c.takeArg = .ok c') : Parsed c c' := by
  obtain ⟨arg, -, h⟩ := bind_eq_ok.1 h
  cases h
  exact ⟨rfl, rfl⟩

theorem endBulk_parsed (c : Client ω) : Parsed c c.endBulk.2 := by
  unfold endBulk
  split
  · exact ⟨rfl, rfl⟩
  · exact .refl

theorem bulkLoop_parsed (n : Nat) {c : Client ω} (h : bulkLoop n c = .ok (st, c')) :
    Parsed c c' := by
  have hend : ∀ d : Client ω, (.ok d.endBulk : Except StdException _) = .ok (st, c') →
      Parsed d c' := by
    intro d h
    have := endBulk_parsed d
    rwa [Except.ok.inj h] at this
  induction n generalizing c with
  | zero => exact hend _ h
  | succ n ih =>
    unfold bulkLoop at h
    split at h
    · obtain ⟨d, hlen, h⟩ := bind_eq_ok.1 h
      cases d with
      | none =>
        cases h
        exact .refl
      | some d =>
        have hd := readLen_parsed hlen
        simp only at h
        split at h
        · cases h
          exact hd
        · obtain ⟨e, he, h⟩ := bind_eq_ok.1 h
          exact hd.trans ((takeArg_parsed he).trans (ih h))
    · exact hend _ h

theorem parseBulkQuery_parsed (h : c.parseBulkQuery = .ok (st, c')) : Parsed c c' := by
  obtain ⟨d, hcnt, h⟩ := bind_eq_ok.1 h
  cases d with
  | none =>
    cases h
    exact .refl
  | some d =>
    have hd := readCount_parsed hcnt
    simp only at h
    split at h
    · cases h
      exact hd
    · exact hd.trans (bulkLoop_parsed _ h)

theorem parseQuery_parsed (h : c.parseQuery = .ok (st, c')) : Parsed c c' := by
  unfold parseQuery at h
  split at h
  · cases h
    exact .refl
  · obtain ⟨paras, -, h⟩ := bind_eq_ok.1 h
    cases h
    exact ⟨rfl, rfl⟩

theorem parse_parsed (h : c.parse = .ok (st, c')) : Parsed c c' := by
  have hparser : ∀ d : Client ω,
      (if d.qryType = 2 then d.parseBulkQuery else d.parseQuery) = .ok (st, c') →
        Parsed d c' := by
    intro d h
    split at h
    · exact parseBulkQuery_parsed h
    · exact parseQuery_parsed h
  refine Parsed.trans ?_ (hparser _ h)
  split
  · exact ⟨rfl, rfl⟩
  · exact .refl

/-- Only a read that delivers nothing changes the exit flag, and none changes the output. -/
theorem processInput_parsed {data : Bytes} {cmd : Option (List Bytes)}
    (h : c.processInput data = .ok (cmd, c')) :
    c'.output = c.output ∧ c'.isExited = (c.isExited || data.isEmpty) := by
  obtain ⟨⟨st, d⟩, hq, h⟩ := bind_eq_ok.1 h
  have hd : d.output = c.output ∧ d.isExited = (c.isExited || data.isEmpty) := by
    unfold processQuery at hq
    by_cases hdata : data = []
    · rw [if_pos hdata] at hq
      cases hq
      simp [exit, hdata]
    · rw [if_neg hdata] at hq
      have hp := parse_parsed hq
      simp [hp.output, hp.isExited, hdata]
  simp only at h
  split at h <;> cases h <;> exact hd

end

end Client

end LittleLearning.Db
