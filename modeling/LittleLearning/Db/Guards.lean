import LittleLearning.Db.Proxy

/-!
# A command cut short

`set` and `get` check that their words are there before they index them, `del`
does not. So a list of words that ends inside a command is turned down unless it
ends with `del`, which is read whatever leveldb answers only if a call before it
fails.
-/

namespace LittleLearning.Db

open Cxx

/-! ### Lists that end inside a command -/

def Cmd.words : Cmd → List Bytes
  | .set key value => [ascii "set", key, value]
  | .get key => [ascii "get", key]
  | .del key => [ascii "del", key]

/-- Complete commands, and the first words of one more. -/
def CutShort (cmdPara : List Bytes) : Prop :=
  ∃ (cmds : List Cmd) (last : Cmd) (part : List Bytes), cmdPara = cmds.flatMap Cmd.words ++ part ∧
    part <+: last.words ∧ part ≠ [] ∧ part ≠ last.words

theorem reading_words (cmd : Cmd) (ws : List Bytes) :
    reading (cmd.words ++ ws) = (cmd :: (reading ws).1, (reading ws).2) := by
  cases cmd with
  | set key value => exact reading_set key value ws
  | get key => exact reading_get key ws
  | del key => exact reading_del key ws

theorem reading_flatMap (cmds : List Cmd) (ws : List Bytes) :
    reading (cmds.flatMap Cmd.words ++ ws) = (cmds ++ (reading ws).1, (reading ws).2) := by
  induction cmds with
  | nil => rfl
  | cons cmd cmds ih => rw [List.flatMap_cons, List.append_assoc, reading_words, ih]; rfl

/-- The first words of a command are no command. -/
theorem reading_part {last : Cmd} {part : List Bytes} (h : part <+: last.words) (hne : part ≠ [])
    (hpart : part ≠ last.words) :
    (reading part).2 = .malformed ∨ (reading part).2 = .danglingDel := by
  obtain ⟨rest, hrest⟩ := h
  have hlen := congrArg List.length hrest
  have hpos := List.length_pos_iff.2 hne
  have hmore : rest ≠ [] := by
    rintro rfl
    exact hpart (by rw [← hrest, List.append_nil])
  have hmore' := List.length_pos_iff.2 hmore
  rw [List.length_append] at hlen
  have htake : part = last.words.take part.length := by rw [← hrest, List.take_left]
  cases last with
  | set key value =>
    have hcases : part.length = 1 ∨ part.length = 2 := by
      simp only [Cmd.words, List.length_cons, List.length_nil] at hlen
      omega
    rcases hcases with h1 | h2
    · rw [htake, h1]
      exact .inl rfl
    · rw [htake, h2]
      exact .inl rfl
  | get key =>
    have h1 : part.length = 1 := by
      simp only [Cmd.words, List.length_cons, List.length_nil] at hlen
      omega
    rw [htake, h1]
    exact .inl rfl
  | del key =>
    have h1 : part.length = 1 := by
      simp only [Cmd.words, List.length_cons, List.length_nil] at hlen
      omega
    rw [htake, h1]
    exact .inr rfl

theorem CutShort.reading_ne {cmdPara : List Bytes} (h : CutShort cmdPara) :
    (reading cmdPara).2 ≠ .complete := by
  obtain ⟨cmds, last, part, rfl, hpre, hne, hpart⟩ := h
  rw [reading_flatMap]
  rcases reading_part hpre hne hpart with hend | hend <;> rw [hend] <;> decide

/-! ### The end of a list of words -/

section

variable {D : Type} (db : LevelDb D)

/-- No call of the commands, run in order, fails. -/
def AllSucceed : List Cmd → D → Client UInt8 → Prop
  | [], _, _ => True
  | cmd :: cmds, d, client =>
    let (stat, d, client) := DbProxy.call db d client cmd
    0 ≤ stat ∧ AllSucceed cmds d client

theorem call_stat (d : D) (client : Client UInt8) (cmd : Cmd) :
    (DbProxy.call db d client cmd).1 = 0 ∨ (DbProxy.call db d client cmd).1 = -1 := by
  cases cmd with
  | set key value => cases hok : (db.put d key value).1 <;> simp [DbProxy.call, DbProxy.set, hok]
  | get key =>
    cases hok : (db.get d key client.output).1 <;> simp [DbProxy.call, DbProxy.get, hok]
  | del key => cases hok : (db.delete d key).1 <;> simp [DbProxy.call, DbProxy.del, hok]

/-- Where all calls succeed the end of the reading decides, else the call that fails. -/
theorem runCmds_cases (ending : Ending) (cmds : List Cmd) (d : D) (client : Client UInt8) :
    (AllSucceed db cmds d client ∧ ∃ d' client',
        runCmds db ending cmds d client = runCmds db ending [] d' client') ∨
      ¬ AllSucceed db cmds d client ∧ ∃ d' client',
        runCmds db ending cmds d client = some (-1, d', client') := by
  induction cmds generalizing d client with
  | nil => exact .inl ⟨trivial, d, client, rfl⟩
  | cons cmd cmds ih =>
    have hstat := call_stat db d client cmd
    rw [AllSucceed, runCmds]
    generalize DbProxy.call db d client cmd = r at hstat ⊢
    obtain ⟨stat, d', client'⟩ := r
    rcases hstat with h0 | h1
    · obtain rfl : stat = 0 := h0
      rcases ih d' client' with ⟨hall, hrun⟩ | ⟨hfail, hrun⟩
      · exact .inl ⟨⟨Int.le_refl 0, hall⟩, hrun⟩
      · exact .inr ⟨fun h => hfail h.2, hrun⟩
    · obtain rfl : stat = -1 := h1
      exact .inr ⟨fun h => absurd h.1 (by decide), d', client', rfl⟩

/-- Every index into `cmdPara` is in range, and a list cut short is turned down. -/
def Guarded (cmdPara : List Bytes) (d : D) (client : Client UInt8) : Prop :=
  (DbProxy.handleCmd db cmdPara d client).isSome ∧
    (CutShort cmdPara → ∃ d' client',
      DbProxy.handleCmd db cmdPara d client = some (-1, d', client'))

/-- The index goes past the end exactly where the last word is a `del` and every call before it
succeeds. -/
theorem guarded_iff (cmdPara : List Bytes) (d : D) (client : Client UInt8) :
    Guarded db cmdPara d client ↔
      ((reading cmdPara).2 = .danglingDel → ¬ AllSucceed db (reading cmdPara).1 d client) := by
  have hne : CutShort cmdPara → (reading cmdPara).2 ≠ .complete := CutShort.reading_ne
  rw [Guarded, handleCmd_eq_runCmds]
  generalize (reading cmdPara).2 = ending at hne ⊢
  rcases runCmds_cases db ending (reading cmdPara).1 d client with
    ⟨hall, d', client', hrun⟩ | ⟨hfail, d', client', hrun⟩
  · rw [hrun]
    cases ending with
    | complete =>
      have hwhole : ¬ CutShort cmdPara := fun h => hne h rfl
      simp [runCmds, hwhole]
    | malformed => simp [runCmds]
    | danglingDel => simp [runCmds, hall]
  · rw [hrun]
    simp [hfail]

end

/-- The key of the only command is read past the end. -/
theorem not_guarded : ¬ ∀ (D : Type) (db : LevelDb D) (cmdPara : List Bytes) (d : D)
    (client : Client UInt8), Guarded db cmdPara d client := by
  intro h
  exact Bool.false_ne_true (h _ LevelDb.ofMap [ascii "del"] (fun _ => none) (.new 5)).1

end LittleLearning.Db
