import LittleLearning.Db.Client
import Mathlib.Logic.Function.Basic

/-!
# Commands on the database

`DbProxy.handleCmd` runs a list of words on leveldb by an index into it. The
library is a parameter, `LevelDb`: its calls, on states of any type. What it
documents is `GetLaws` and `Laws`, with `contents` the map a state stands for.

The interpreter it is compared with has no index: `reading` cuts the words into
commands from left to right, `succeeded` counts the commands leveldb carries out
before one fails, `Cmd.apply` is what a command does to the map. The number of
words is below `2 ^ 31`, so indices are natural numbers.
-/

namespace LittleLearning.Db

open Cxx

/-! ### The calls -/

/-- The calls of `leveldb::DB`, on states `D`. The `Bool` is whether the status is ok; `get` is
given the string it may replace. -/
structure LevelDb (D : Type) where
  put : D → Bytes → Bytes → Bool × D
  get : D → Bytes → Bytes → Bool × Bytes × D
  delete : D → Bytes → Bool × D

/-- The words of a call in the `while` of `handleCmd`. -/
inductive Cmd where
  | set (key value : Bytes)
  | get (key : Bytes)
  | del (key : Bytes)
  deriving DecidableEq

/-- What the branches of the `while` choose at an index. -/
inductive Fetch where
  /-- A call, and `st` after it, before the `++st` at the end of the round. -/
  | call (cmd : Cmd) (st : Nat)
  | invalid
  /-- `cmdPara[++st]` past the end. -/
  | pastEnd
  deriving DecidableEq

def fetch (cmdPara : List Bytes) (st : Nat) : Fetch :=
  if cmdPara[st]? = some (ascii "set") ∧ st + 2 < cmdPara.length then
    .call (.set (cmdPara.getD (st + 1) []) (cmdPara.getD (st + 2) [])) (st + 2)
  else if cmdPara[st]? = some (ascii "get") ∧ st + 1 < cmdPara.length then
    .call (.get (cmdPara.getD (st + 1) [])) (st + 1)
  else if cmdPara[st]? = some (ascii "del") then
    match cmdPara[st + 1]? with
    | some key => .call (.del key) (st + 1)
    | none => .pastEnd
  else .invalid

namespace DbProxy

variable {D : Type} (db : LevelDb D)

def set (d : D) (key value : Bytes) : Int × D :=
  let (ok, d) := db.put d key value
  (if ok then 0 else -1, d)

def get (d : D) (key : Bytes) (client : Client UInt8) : Int × D × Client UInt8 :=
  let (ok, value, d) := db.get d key client.output
  let client := { client with output := value }
  if ok then (0, d, { client with output := client.output ++ [lf] }) else (-1, d, client)

def del (d : D) (key : Bytes) : Int × D :=
  let (ok, d) := db.delete d key
  (if ok then 0 else -1, d)

def call (d : D) (client : Client UInt8) : Cmd → Int × D × Client UInt8
  | .set key value => let (stat, d) := set db d key value; (stat, d, client)
  | .get key => get db d key client
  | .del key => let (stat, d) := del db d key; (stat, d, client)

/-- The `while` from index `st` on; every round moves `st`. `none` is undefined behaviour. -/
def cmdLoop (cmdPara : List Bytes) :
    Nat → Nat → D → Client UInt8 → Option (Int × D × Client UInt8)
  | 0, _, d, client => some (0, d, client)
  | n + 1, st, d, client =>
    if st < cmdPara.length then
      match fetch cmdPara st with
      | .pastEnd => none
      | .invalid => some (-1, d, client)
      | .call cmd st =>
        let (stat, d, client) := call db d client cmd
        if stat < 0 then some (stat, d, client) else cmdLoop cmdPara n (st + 1) d client
    else some (0, d, client)

def handleCmd (cmdPara : List Bytes) (d : D) (client : Client UInt8) :
    Option (Int × D × Client UInt8) := cmdLoop db cmdPara cmdPara.length 0 d client

end DbProxy

/-! ### Reading words as commands -/

/-- How the reading of a list of words ends. -/
inductive Ending where
  | complete
  | malformed
  /-- At a `del` that is the last word. -/
  | danglingDel
  deriving DecidableEq

/-- The complete commands at the front of the words, and what comes after them. -/
def reading : List Bytes → List Cmd × Ending
  | [] => ([], .complete)
  | w :: ws =>
    if w = ascii "set" then
      match ws with
      | k :: v :: ws => (.set k v :: (reading ws).1, (reading ws).2)
      | _ => ([], .malformed)
    else if w = ascii "get" then
      match ws with
      | k :: ws => (.get k :: (reading ws).1, (reading ws).2)
      | [] => ([], .malformed)
    else if w = ascii "del" then
      match ws with
      | k :: ws => (.del k :: (reading ws).1, (reading ws).2)
      | [] => ([], .danglingDel)
    else ([], .malformed)

theorem reading_set (k v : Bytes) (ws : List Bytes) : reading (ascii "set" :: k :: v :: ws) =
    (.set k v :: (reading ws).1, (reading ws).2) := by
  rw [reading.eq_def]
  exact if_pos rfl

theorem reading_get (k : Bytes) (ws : List Bytes) : reading (ascii "get" :: k :: ws) =
    (.get k :: (reading ws).1, (reading ws).2) := by
  rw [reading.eq_def]
  exact (if_neg (by decide)).trans (if_pos rfl)

theorem reading_del (k : Bytes) (ws : List Bytes) : reading (ascii "del" :: k :: ws) =
    (.del k :: (reading ws).1, (reading ws).2) := by
  rw [reading.eq_def]
  exact (if_neg (by decide)).trans ((if_neg (by decide)).trans (if_pos rfl))

theorem reading_other {w : Bytes} (hset : w ≠ ascii "set") (hget : w ≠ ascii "get")
    (hdel : w ≠ ascii "del") (ws : List Bytes) : reading (w :: ws) = ([], .malformed) := by
  rw [reading.eq_def]
  exact (if_neg hset).trans ((if_neg hget).trans (if_neg hdel))

/-- The map after a command that succeeds. -/
def Cmd.apply (m : Bytes → Option Bytes) : Cmd → Bytes → Option Bytes
  | .set k v => Function.update m k (some v)
  | .get _ => m
  | .del k => Function.update m k none

/-! ### The library -/

namespace LevelDb

variable {D : Type}

/-- One command: whether it succeeds, and the state after it. -/
def run (db : LevelDb D) (d : D) : Cmd → Bool × D
  | .set k v => db.put d k v
  | .get k => ((db.get d k []).1, (db.get d k []).2.2)
  | .del k => db.delete d k

/-- How many of the commands, run in order, succeed before one fails. -/
def succeeded (db : LevelDb D) : List Cmd → D → Nat
  | [], _ => 0
  | cmd :: cmds, d =>
    if (db.run d cmd).1 then db.succeeded cmds (db.run d cmd).2 + 1 else 0

/-- The state after them, and after the one that fails. -/
def after (db : LevelDb D) : List Cmd → D → D
  | [], d => d
  | cmd :: cmds, d =>
    if (db.run d cmd).1 then db.after cmds (db.run d cmd).2 else (db.run d cmd).2

/-- The stored values of the successful gets among them. -/
def gotten (db : LevelDb D) (contents : D → Bytes → Option Bytes) : List Cmd → D → List Bytes
  | [], _ => []
  | cmd :: cmds, d =>
    if (db.run d cmd).1 then
      match cmd with
      | .get k => (contents d k).getD [] :: db.gotten contents cmds (db.run d cmd).2
      | _ => db.gotten contents cmds (db.run d cmd).2
    else []

/-- A successful `Get` replaces the string by the stored value, a failing one leaves it; the string
decides nothing. -/
structure GetLaws (db : LevelDb D) (contents : D → Bytes → Option Bytes) : Prop where
  get_ok : ∀ d k s, (db.get d k s).1 = true → contents d k = some (db.get d k s).2.1
  get_fail : ∀ d k s, (db.get d k s).1 = false → (db.get d k s).2.1 = s
  get_out : ∀ d k s, (db.get d k s).1 = (db.get d k []).1 ∧
    (db.get d k s).2.2 = (db.get d k []).2.2

/-- leveldb is a map: what succeeds changes its key, what fails changes nothing. -/
structure Laws (db : LevelDb D) (contents : D → Bytes → Option Bytes) : Prop
    extends GetLaws db contents where
  get_contents : ∀ d k s, contents (db.get d k s).2.2 = contents d
  put_ok : ∀ d k v, (db.put d k v).1 = true →
    contents (db.put d k v).2 = Function.update (contents d) k (some v)
  put_fail : ∀ d k v, (db.put d k v).1 = false → contents (db.put d k v).2 = contents d
  delete_ok : ∀ d k, (db.delete d k).1 = true →
    contents (db.delete d k).2 = Function.update (contents d) k none
  delete_fail : ∀ d k, (db.delete d k).1 = false → contents (db.delete d k).2 = contents d

theorem succeeded_le (db : LevelDb D) (cmds : List Cmd) (d : D) :
    db.succeeded cmds d ≤ cmds.length := by
  induction cmds generalizing d with
  | nil => simp [succeeded]
  | cons cmd cmds ih =>
    have := ih (db.run d cmd).2
    simp only [succeeded, List.length_cons]
    split <;> omega

/-- A map whose calls all succeed, except a `Get` of an absent key. -/
def ofMap : LevelDb (Bytes → Option Bytes) where
  put m k v := (true, Function.update m k (some v))
  get m k s := ((m k).isSome, (m k).getD s, m)
  delete m k := (true, Function.update m k none)

theorem ofMap_laws : ofMap.Laws id where
  get_ok m k s h := by
    obtain ⟨v, hv⟩ := Option.isSome_iff_exists.1 h
    simp [ofMap, hv]
  get_fail m k s h := by
    have hk : m k = none := by simpa [ofMap] using h
    simp [ofMap, hk]
  get_out _ _ _ := ⟨rfl, rfl⟩
  get_contents _ _ _ := rfl
  put_ok _ _ _ _ := rfl
  put_fail _ _ _ h := by cases h
  delete_ok _ _ _ := rfl
  delete_fail _ _ h := by cases h

variable {db : LevelDb D} {contents : D → Bytes → Option Bytes}

theorem Laws.run_contents (h : db.Laws contents) (d : D) (cmd : Cmd) :
    contents (db.run d cmd).2 =
      if (db.run d cmd).1 then cmd.apply (contents d) else contents d := by
  cases cmd with
  | set k v =>
    by_cases hok : (db.put d k v).1 = true
    · exact (h.put_ok d k v hok).trans (if_pos hok).symm
    · exact (h.put_fail d k v (by simpa using hok)).trans (if_neg hok).symm
  | get k =>
    have hc := h.get_contents d k []
    by_cases hok : (db.get d k []).1 = true
    · exact hc.trans (if_pos hok).symm
    · exact hc.trans (if_neg hok).symm
  | del k =>
    by_cases hok : (db.delete d k).1 = true
    · exact (h.delete_ok d k hok).trans (if_pos hok).symm
    · exact (h.delete_fail d k (by simpa using hok)).trans (if_neg hok).symm

/-- What fails leaves the map alone, so it is changed by the commands that succeed. -/
theorem Laws.after_contents (h : db.Laws contents) (cmds : List Cmd) (d : D) :
    contents (db.after cmds d) =
      (cmds.take (db.succeeded cmds d)).foldl Cmd.apply (contents d) := by
  induction cmds generalizing d with
  | nil => rfl
  | cons cmd cmds ih =>
    have hrun := h.run_contents d cmd
    by_cases hok : (db.run d cmd).1 = true
    · rw [if_pos hok] at hrun
      rw [after, succeeded, if_pos hok, if_pos hok, List.take_succ_cons, List.foldl_cons, ← hrun]
      exact ih _
    · rw [if_neg hok] at hrun
      rw [after, succeeded, if_neg hok, if_neg hok, hrun]
      rfl

end LevelDb

/-! ### One round of the loop -/

section

variable {pre ws : List Bytes} {w k v : Bytes}

theorem set_ne_get : ascii "set" ≠ ascii "get" := by decide

theorem set_ne_del : ascii "set" ≠ ascii "del" := by decide

theorem get_ne_del : ascii "get" ≠ ascii "del" := by decide

theorem fetch_set : fetch (pre ++ ascii "set" :: k :: v :: ws) pre.length =
    .call (.set k v) (pre.length + 2) := by
  unfold fetch
  rw [if_pos (by simp)]
  simp

theorem fetch_get : fetch (pre ++ ascii "get" :: k :: ws) pre.length =
    .call (.get k) (pre.length + 1) := by
  unfold fetch
  rw [if_neg (by simp [set_ne_get.symm]), if_pos (by simp)]
  simp

theorem fetch_del : fetch (pre ++ ascii "del" :: k :: ws) pre.length =
    .call (.del k) (pre.length + 1) := by
  unfold fetch
  rw [if_neg (by simp [set_ne_del.symm]), if_neg (by simp [get_ne_del.symm]), if_pos (by simp)]
  simp

theorem fetch_pastEnd : fetch (pre ++ [ascii "del"]) pre.length = .pastEnd := by
  unfold fetch
  rw [if_neg (by simp), if_neg (by simp), if_pos (by simp)]
  simp

/-- The length guards fall through to the last branch. -/
theorem fetch_invalid (hset : w = ascii "set" → ws.length < 2) (hget : w = ascii "get" → ws = [])
    (hdel : w ≠ ascii "del") : fetch (pre ++ w :: ws) pre.length = .invalid := by
  unfold fetch
  rw [if_neg, if_neg, if_neg (by simpa using hdel)]
  · rintro ⟨h1, h2⟩
    have := hget (by simpa using h1)
    simp [this] at h2
  · rintro ⟨h1, h2⟩
    have := hset (by simpa using h1)
    simp at h2
    omega

end

/-! ### The loop -/

section

variable {D : Type} (db : LevelDb D)

/-- The calls of a reading, up to the first that fails, and the end of the reading. -/
def runCmds (ending : Ending) :
    List Cmd → D → Client UInt8 → Option (Int × D × Client UInt8)
  | [], d, client =>
    match ending with
    | .complete => some (0, d, client)
    | .malformed => some (-1, d, client)
    | .danglingDel => none
  | cmd :: cmds, d, client =>
    let (stat, d, client) := DbProxy.call db d client cmd
    if stat < 0 then some (stat, d, client) else runCmds ending cmds d client

/-- The loop from the index where `ws` begins runs the reading of `ws`. -/
theorem cmdLoop_eq :
    ∀ (n : Nat) (pre ws : List Bytes) (d : D) (client : Client UInt8), ws.length ≤ n →
      DbProxy.cmdLoop db (pre ++ ws) n pre.length d client =
        runCmds db (reading ws).2 (reading ws).1 d client := by
  intro n
  induction n with
  | zero =>
    intro pre ws d client hn
    obtain rfl : ws = [] := List.length_eq_zero_iff.1 (by omega)
    simp [DbProxy.cmdLoop, reading, runCmds]
  | succ n ih =>
    intro pre ws d client hn
    -- a round at a complete command goes on behind its words
    have hround : ∀ (cmd : Cmd) (front rest : List Bytes), ws = front ++ rest → front ≠ [] →
        fetch (pre ++ ws) pre.length = .call cmd (pre.length + front.length - 1) →
        DbProxy.cmdLoop db (pre ++ ws) (n + 1) pre.length d client =
          runCmds db (reading rest).2 (cmd :: (reading rest).1) d client := by
      intro cmd front rest hws hfront hf
      have hpos := List.length_pos_iff.2 hfront
      have hnext : pre.length + front.length - 1 + 1 = (pre ++ front).length := by simp; omega
      have hlt : pre.length < (pre ++ ws).length := by rw [hws]; simp; omega
      have hrest : rest.length ≤ n := by rw [hws] at hn; simp at hn; omega
      rw [DbProxy.cmdLoop, if_pos hlt, hf, runCmds]
      simp only [hnext]
      rw [hws, ← List.append_assoc, ih (pre ++ front) rest _ _ hrest]
    have hinvalid : ws ≠ [] → fetch (pre ++ ws) pre.length = .invalid →
        DbProxy.cmdLoop db (pre ++ ws) (n + 1) pre.length d client = some (-1, d, client) := by
      intro hws hf
      have hpos := List.length_pos_iff.2 hws
      rw [DbProxy.cmdLoop, if_pos (by simp; omega), hf]
    cases ws with
    | nil =>
      simp [DbProxy.cmdLoop, reading, runCmds]
    | cons w ws =>
      by_cases hset : w = ascii "set"
      · subst hset
        match ws with
        | k :: v :: ws =>
          rw [hround (.set k v) [_, k, v] ws rfl (by simp) fetch_set, reading_set]
        | [k] =>
          have hread : reading [ascii "set", k] = ([], .malformed) := rfl
          rw [hinvalid (by simp) (fetch_invalid (by simp) (absurd · set_ne_get) set_ne_del), hread]
          rfl
        | [] =>
          have hread : reading [ascii "set"] = ([], .malformed) := rfl
          rw [hinvalid (by simp) (fetch_invalid (by simp) (absurd · set_ne_get) set_ne_del), hread]
          rfl
      · by_cases hget : w = ascii "get"
        · subst hget
          match ws with
          | k :: ws =>
            rw [hround (.get k) [_, k] ws rfl (by simp) fetch_get, reading_get]
          | [] =>
            have hread : reading [ascii "get"] = ([], .malformed) := rfl
            rw [hinvalid (by simp) (fetch_invalid (by simp) (by simp) get_ne_del), hread]
            rfl
        · by_cases hdel : w = ascii "del"
          · subst hdel
            match ws with
            | k :: ws =>
              rw [hround (.del k) [_, k] ws rfl (by simp) fetch_del, reading_del]
            | [] =>
              have hread : reading [ascii "del"] = ([], .danglingDel) := rfl
              rw [DbProxy.cmdLoop, if_pos (by simp), fetch_pastEnd, hread]
              rfl
          · rw [hinvalid (by simp) (fetch_invalid (absurd · hset) (absurd · hget) hdel),
              reading_other hset hget hdel]
            rfl

theorem handleCmd_eq_runCmds (cmdPara : List Bytes) (d : D) (client : Client UInt8) :
    DbProxy.handleCmd db cmdPara d client =
      runCmds db (reading cmdPara).2 (reading cmdPara).1 d client :=
  cmdLoop_eq db cmdPara.length [] cmdPara d client (Nat.le_refl _)

end

section

variable {D : Type} {db : LevelDb D} {contents : D → Bytes → Option Bytes}

/-- The output after the successful gets with these values: each replaces it. -/
def overwritten (out : Bytes) (values : List Bytes) : Bytes :=
  values.foldl (fun _ v => v ++ [lf]) out

/-- What `handleCmd` should come to on the commands of a reading. -/
def outcome (db : LevelDb D) (contents : D → Bytes → Option Bytes) (cmds : List Cmd)
    (ending : Ending) (d : D) (client : Client UInt8) : Option (Int × D × Client UInt8) :=
  let final := (db.after cmds d,
    { client with output := overwritten client.output (db.gotten contents cmds d) })
  if db.succeeded cmds d < cmds.length then some (-1, final)
  else match ending with
    | .complete => some (0, final)
    | .malformed => some (-1, final)
    | .danglingDel => none

theorem call_eq (h : db.GetLaws contents) (d : D) (client : Client UInt8) (cmd : Cmd) :
    DbProxy.call db d client cmd =
      (if (db.run d cmd).1 then 0 else -1, (db.run d cmd).2,
        { client with output := overwritten client.output (db.gotten contents [cmd] d) }) := by
  cases cmd with
  | set k v =>
    have hcall : DbProxy.call db d client (.set k v) =
        (if (db.put d k v).1 then 0 else -1, (db.put d k v).2, client) := rfl
    by_cases hok : (db.put d k v).1 = true <;>
      simp [hcall, LevelDb.run, LevelDb.gotten, overwritten, hok]
  | del k =>
    have hcall : DbProxy.call db d client (.del k) =
        (if (db.delete d k).1 then 0 else -1, (db.delete d k).2, client) := rfl
    by_cases hok : (db.delete d k).1 = true <;>
      simp [hcall, LevelDb.run, LevelDb.gotten, overwritten, hok]
  | get k =>
    obtain ⟨hok, hd⟩ := h.get_out d k client.output
    by_cases ht : (db.get d k []).1 = true
    · have hv := h.get_ok d k client.output (by rw [hok, ht])
      simp [DbProxy.call, DbProxy.get, LevelDb.run, LevelDb.gotten, overwritten, hok, hd, ht, hv]
    · have hv := h.get_fail d k client.output (by rw [hok]; simpa using ht)
      simp [DbProxy.call, DbProxy.get, LevelDb.run, LevelDb.gotten, overwritten, hok, hd, ht, hv]

theorem gotten_cons (cmd : Cmd) (cmds : List Cmd) (d : D) (h : (db.run d cmd).1 = true) :
    db.gotten contents (cmd :: cmds) d =
      db.gotten contents [cmd] d ++ db.gotten contents cmds (db.run d cmd).2 := by
  cases cmd <;> simp [LevelDb.gotten, h]

theorem gotten_fail (cmd : Cmd) (cmds : List Cmd) (d : D) (h : (db.run d cmd).1 ≠ true) :
    db.gotten contents (cmd :: cmds) d = [] := by
  simp [LevelDb.gotten, h]

theorem outcome_cons (cmd : Cmd) (cmds : List Cmd) (ending : Ending) (d : D)
    (client : Client UInt8) :
    outcome db contents (cmd :: cmds) ending d client =
      if (db.run d cmd).1 then
        outcome db contents cmds ending (db.run d cmd).2
          { client with output := overwritten client.output (db.gotten contents [cmd] d) }
      else some (-1, (db.run d cmd).2, client) := by
  by_cases h : (db.run d cmd).1 = true
  · rw [if_pos h]
    simp [outcome, LevelDb.succeeded, LevelDb.after, h, gotten_cons cmd cmds d h, overwritten]
  · rw [if_neg h]
    simp [outcome, LevelDb.succeeded, LevelDb.after, h, gotten_fail cmd cmds d h, overwritten]

/-- What the library documents makes the calls of a reading come to its outcome. -/
theorem runCmds_eq_outcome (h : db.GetLaws contents) (ending : Ending) (cmds : List Cmd) (d : D)
    (client : Client UInt8) :
    runCmds db ending cmds d client = outcome db contents cmds ending d client := by
  induction cmds generalizing d client with
  | nil =>
    cases ending <;>
      simp [runCmds, outcome, LevelDb.succeeded, LevelDb.after, LevelDb.gotten, overwritten]
  | cons cmd cmds ih =>
    rw [runCmds, outcome_cons]
    simp only [call_eq h]
    by_cases hok : (db.run d cmd).1 = true
    · simp [hok, ih]
    · simp [hok, gotten_fail cmd [] d hok, overwritten]

theorem handleCmd_eq (h : db.GetLaws contents) (cmdPara : List Bytes) (d : D)
    (client : Client UInt8) :
    DbProxy.handleCmd db cmdPara d client =
      outcome db contents (reading cmdPara).1 (reading cmdPara).2 d client := by
  rw [handleCmd_eq_runCmds, runCmds_eq_outcome h]

/-- Off a dangling `del` the outcome is defined, and tells whether all went well. -/
theorem outcome_defined {cmds : List Cmd} {ending : Ending} (hdel : ending ≠ .danglingDel) (d : D)
    (client : Client UInt8) : ∃ st, outcome db contents cmds ending d client = some (st,
        db.after cmds d,
        { client with output := overwritten client.output (db.gotten contents cmds d) }) ∧
      (st = 0 ↔ ending = .complete ∧ db.succeeded cmds d = cmds.length) := by
  have hle := db.succeeded_le cmds d
  unfold outcome
  by_cases hfail : db.succeeded cmds d < cmds.length
  · exact ⟨-1, by rw [if_pos hfail], by simp; omega⟩
  · have hall : db.succeeded cmds d = cmds.length := by omega
    cases ending with
    | complete => exact ⟨0, by rw [if_neg hfail], by simp [hall]⟩
    | malformed => exact ⟨-1, by rw [if_neg hfail], by simp⟩
    | danglingDel => exact absurd rfl hdel

/-! ### The store -/

/-- `handleCmd` is the interpreter without an index: it returns 0 if and only if the words are
complete commands that all succeed, and the map is changed by the commands before the first that
fails or is malformed. -/
theorem handleCmd_refines (h : db.Laws contents) {cmdPara : List Bytes}
    (hdel : (reading cmdPara).2 ≠ .danglingDel) (d : D) (client : Client UInt8) :
    ∃ st d' client', DbProxy.handleCmd db cmdPara d client = some (st, d', client') ∧
      (st = 0 ↔ (reading cmdPara).2 = .complete ∧
        db.succeeded (reading cmdPara).1 d = (reading cmdPara).1.length) ∧
      contents d' = ((reading cmdPara).1.take (db.succeeded (reading cmdPara).1 d)).foldl
        Cmd.apply (contents d) := by
  obtain ⟨st, hout, hst⟩ := @outcome_defined D db contents _ _ hdel d client
  exact ⟨st, _, _, (handleCmd_eq h.toGetLaws cmdPara d client).trans hout, hst,
    h.after_contents _ d⟩

/-- A key may be the word `get`; the last word is no command. -/
theorem handleCmd_refines_keyword :
    ∃ st d' client', DbProxy.handleCmd LevelDb.ofMap
        [ascii "set", ascii "get", ascii "1", ascii "get", ascii "get", ascii "put"]
        (fun _ => none) (.new 5) = some (st, d', client') ∧
      (st = 0 ↔ Ending.malformed = .complete ∧ 2 = 2) ∧
      d' = [.set (ascii "get") (ascii "1"), .get (ascii "get")].foldl Cmd.apply fun _ => none :=
  handleCmd_refines LevelDb.ofMap_laws (by decide) _ _

/-! ### The output -/

/-- What the gets with these values should add to the output. -/
def appended (values : List Bytes) : Bytes := values.flatMap (· ++ [lf])

theorem overwritten_eq_appended_iff {out : Bytes} {values : List Bytes} :
    overwritten out values = out ++ appended values ↔
      values = [] ∨ (values.length = 1 ∧ out = []) := by
  rcases List.eq_nil_or_concat values with rfl | ⟨init, v, rfl⟩
  · simp [overwritten, appended]
  · rw [List.concat_eq_append]
    have hlast : overwritten out (init ++ [v]) = v ++ [lf] := by simp [overwritten]
    have hall : out ++ appended (init ++ [v]) = (out ++ appended init) ++ (v ++ [lf]) := by
      simp [appended]
    rw [hlast, hall, List.self_eq_append_left]
    cases init with
    | nil => simp [appended]
    | cons u init => simp [appended]

/-- The output grows by the values of the successful gets if and only if there is none, or a
single one that finds the output empty. -/
theorem handleCmd_output_iff (h : db.GetLaws contents) {cmdPara : List Bytes}
    (hdel : (reading cmdPara).2 ≠ .danglingDel) (d : D) (client : Client UInt8) :
    ∃ st d' client', DbProxy.handleCmd db cmdPara d client = some (st, d', client') ∧
      (client'.output = client.output ++ appended (db.gotten contents (reading cmdPara).1 d) ↔
        db.gotten contents (reading cmdPara).1 d = [] ∨
        ((db.gotten contents (reading cmdPara).1 d).length = 1 ∧ client.output = [])) := by
  obtain ⟨st, hout, -⟩ := @outcome_defined D db contents _ _ hdel d client
  exact ⟨st, _, _, (handleCmd_eq h cmdPara d client).trans hout, overwritten_eq_appended_iff⟩

theorem handleCmd_output_get :
    ∃ st d' client', DbProxy.handleCmd LevelDb.ofMap [ascii "get", ascii "k"]
        (Function.update (fun _ => none) (ascii "k") (some (ascii "1"))) (.new 5) =
        some (st, d', client') ∧
      (client'.output = [] ++ appended [ascii "1"] ↔
        [ascii "1"] = [] ∨ ([ascii "1"].length = 1 ∧ ([] : Bytes) = [])) :=
  handleCmd_output_iff LevelDb.ofMap_laws.toGetLaws (by decide) _ _

/-- Two gets in one request: the first value is gone. -/
theorem not_appended_two_gets :
    ¬ ∀ (D : Type) (db : LevelDb D) (contents : D → Bytes → Option Bytes) (cmdPara : List Bytes)
      (d : D) (client : Client UInt8), db.GetLaws contents →
      (reading cmdPara).2 ≠ .danglingDel →
      ∃ st d' client', DbProxy.handleCmd db cmdPara d client = some (st, d', client') ∧
        client'.output = client.output ++ appended (db.gotten contents (reading cmdPara).1 d) := by
  intro h
  obtain ⟨st, d', client', hcmd, hout⟩ := h _ LevelDb.ofMap id
    [ascii "set", ascii "k", ascii "1", ascii "get", ascii "k", ascii "get", ascii "k"]
    (fun _ => none) (.new 5) LevelDb.ofMap_laws.toGetLaws (by decide)
  have hrun : (DbProxy.handleCmd LevelDb.ofMap
      [ascii "set", ascii "k", ascii "1", ascii "get", ascii "k", ascii "get", ascii "k"]
      (fun _ => none) (.new 5)).map (·.2.2.output) = some (ascii "1\n") := by decide
  rw [hcmd] at hrun
  have hgot : client'.output = ascii "1\n" := Option.some.inj hrun
  rw [hgot] at hout
  exact absurd hout (by decide)

end

end LittleLearning.Db
