import LittleLearning.Db.Server

/-!
# Serving tasks one after the other

`serial` is what the worker would do on its own: one whole call of `handleCmd`
for a task, what it says in reply, then the next task. `course` is what a call
comes to; the words from an index on have a course too, which is how far the
loop has to go. Where leveldb fails at nothing but the get of an absent key, it
is a map (`serial_map`).
-/

namespace LittleLearning.Db

open Cxx

/-! ### Serving the tasks one after the other -/

section

variable {D : Type} (db : LevelDb D) (contents : D → Bytes → Option Bytes)

/-- The values the commands get, whether the words were complete commands that all succeeded, and
the state after them; undefined at a dangling `del`. -/
def course (r : List Cmd × Ending) (d : D) : Option (List Bytes × Bool × D) :=
  (outcome db contents r.1 r.2 d (.new 0)).map fun res =>
    (db.gotten contents r.1 d, res.1 = 0, res.2.1)

/-- The texts for a task, in the order in which they are put into the output. -/
def texts (task : Task) (values : List Bytes) : List (Task × Bytes) :=
  values.map fun v => (task, v ++ [lf])

/-- One task, and what has been said so far. -/
def serve (p : List (Task × Bytes) × D) (task : Task) : Option (List (Task × Bytes) × D) :=
  if task.cmd.head? = some (ascii "exit") then some p
  else (DbProxy.handleCmd db task.cmd p.2 (.new task.fd)).map fun res =>
    (p.1 ++ texts task (db.gotten contents (reading task.cmd).1 p.2) ++
      [(task, Server.answer (res.1 = 0))], res.2.1)

def serial (tasks : List Task) (d : D) : Option (List (Task × Bytes) × D) :=
  tasks.foldlM (serve db contents) ([], d)

variable {db contents}

theorem serial_snoc {tasks : List Task} {d : D} {p : List (Task × Bytes) × D}
    (h : serial db contents tasks d = some p) (task : Task) :
    serial db contents (tasks ++ [task]) d = serve db contents p task := by
  rw [serial, List.foldlM_append]
  rw [serial] at h
  rw [h]
  simp

/-- The client decides nothing but the output it is left with. -/
theorem map_outcome {β : Type} (f : Int × D → β) (r : List Cmd × Ending) (d : D)
    (c c' : Client UInt8) : (outcome db contents r.1 r.2 d c).map (fun res => f (res.1, res.2.1)) =
      (outcome db contents r.1 r.2 d c').map fun res => f (res.1, res.2.1) := by
  unfold outcome
  by_cases hfail : db.succeeded r.1 d < r.1.length
  · rw [if_pos hfail, if_pos hfail]
    rfl
  · rw [if_neg hfail, if_neg hfail]
    cases r.2 <;> rfl

theorem serve_eq (h : db.GetLaws contents) (p : List (Task × Bytes) × D) {task : Task}
    (hexit : task.cmd.head? ≠ some (ascii "exit")) : serve db contents p task =
      (course db contents (reading task.cmd) p.2).map fun res =>
        (p.1 ++ texts task res.1 ++ [(task, Server.answer res.2.1)], res.2.2) := by
  rw [serve, if_neg hexit, handleCmd_eq h, course, Option.map_map]
  exact map_outcome (fun res => (p.1 ++ texts task (db.gotten contents (reading task.cmd).1 p.2) ++
    [(task, Server.answer (res.1 = 0))], res.2)) _ _ _ _

theorem course_nil (ending : Ending) (d : D) : course db contents ([], ending) d =
    match ending with
    | .complete => some ([], true, d)
    | .malformed => some ([], false, d)
    | .danglingDel => none := by
  cases ending <;> rfl

theorem course_cons (cmd : Cmd) (cmds : List Cmd) (ending : Ending) (d : D) :
    course db contents (cmd :: cmds, ending) d =
      if (db.run d cmd).1 then
        (course db contents (cmds, ending) (db.run d cmd).2).map fun res =>
          (db.gotten contents [cmd] d ++ res.1, res.2)
      else some ([], false, (db.run d cmd).2) := by
  rw [course, outcome_cons]
  by_cases hok : (db.run d cmd).1 = true
  · rw [if_pos hok, if_pos hok, course, Option.map_map, gotten_cons cmd cmds d hok]
    exact map_outcome (fun res => (db.gotten contents [cmd] d ++
      db.gotten contents cmds (db.run d cmd).2, decide (res.1 = 0), res.2)) (cmds, ending) _ _ _
  · rw [if_neg hok, if_neg hok, gotten_fail cmd cmds d hok]
    rfl

end

/-! ### The words from an index on -/

/-- What the loop chooses at an index is what is read first from there on. -/
theorem reading_fetch {cmdPara : List Bytes} {st : Nat} (hst : st < cmdPara.length) :
    reading (cmdPara.drop st) =
      match fetch cmdPara st with
      | .call cmd st' => (cmd :: (reading (cmdPara.drop (st' + 1))).1,
          (reading (cmdPara.drop (st' + 1))).2)
      | .invalid => ([], .malformed)
      | .pastEnd => ([], .danglingDel) := by
  have hsplit : cmdPara = cmdPara.take st ++ cmdPara.drop st := (List.take_append_drop _ _).symm
  have hlen : st = (cmdPara.take st).length := by rw [List.length_take]; omega
  generalize cmdPara.take st = pre at *
  generalize cmdPara.drop st = ws at *
  subst hlen hsplit
  have hdrop : ∀ (front rest : List Bytes) (n : Nat), ws = front ++ rest →
      n = pre.length + front.length → (pre ++ ws).drop n = rest := by
    rintro front rest n rfl rfl
    rw [← List.append_assoc, ← List.length_append, List.drop_left]
  cases ws with
  | nil => simp at hst
  | cons w ws =>
    by_cases hset : w = ascii "set"
    · subst hset
      match ws with
      | k :: v :: ws =>
        rw [fetch_set, reading_set]
        simp only [hdrop [_, k, v] ws (pre.length + 2 + 1) rfl (by simp)]
      | [k] => rw [fetch_invalid (by simp) (absurd · set_ne_get) set_ne_del]; rfl
      | [] => rw [fetch_invalid (by simp) (absurd · set_ne_get) set_ne_del]; rfl
    · by_cases hget : w = ascii "get"
      · subst hget
        match ws with
        | k :: ws =>
          rw [fetch_get, reading_get]
          simp only [hdrop [_, k] ws (pre.length + 1 + 1) rfl (by simp)]
        | [] => rw [fetch_invalid (by simp) (by simp) get_ne_del]; rfl
      · by_cases hdel : w = ascii "del"
        · subst hdel
          match ws with
          | k :: ws =>
            rw [fetch_del, reading_del]
            simp only [hdrop [_, k] ws (pre.length + 1 + 1) rfl (by simp)]
          | [] => rw [fetch_pastEnd]; rfl
        · rw [fetch_invalid (absurd · hset) (absurd · hget) hdel, reading_other hset hget hdel]

/-! ### A map for the database -/

/-- leveldb where no call fails but the get of an absent key. -/
structure LevelDb.Healthy {D : Type} (db : LevelDb D) (contents : D → Bytes → Option Bytes) : Prop
    extends LevelDb.Laws db contents where
  put_true : ∀ d k v, (db.put d k v).1 = true
  delete_true : ∀ d k, (db.delete d k).1 = true
  get_iff : ∀ d k s, (db.get d k s).1 = (contents d k).isSome

section

variable {D : Type} {db : LevelDb D} {contents : D → Bytes → Option Bytes}

theorem LevelDb.ofMap_healthy : LevelDb.ofMap.Healthy id where
  toLaws := LevelDb.ofMap_laws
  put_true _ _ _ := rfl
  delete_true _ _ := rfl
  get_iff _ _ _ := rfl

/-- A command does to the contents what it does to the map. -/
theorem LevelDb.Healthy.run (h : db.Healthy contents) (d : D) (cmd : Cmd) :
    (db.run d cmd).1 = (LevelDb.ofMap.run (contents d) cmd).1 ∧
      contents (db.run d cmd).2 = (LevelDb.ofMap.run (contents d) cmd).2 ∧
      db.gotten contents [cmd] d = LevelDb.ofMap.gotten id [cmd] (contents d) := by
  have hok : (db.run d cmd).1 = (LevelDb.ofMap.run (contents d) cmd).1 := by
    cases cmd with
    | set k v => exact h.put_true d k v
    | get k => exact h.get_iff d k []
    | del k => exact h.delete_true d k
  refine ⟨hok, ?_, ?_⟩
  · have hmap : (LevelDb.ofMap.run (contents d) cmd).2 = _ :=
      LevelDb.ofMap_laws.run_contents (contents d) cmd
    rw [h.run_contents, hmap, hok]
    rfl
  · cases cmd with
    | get k =>
      simp only [LevelDb.gotten, hok]
      rfl
    | _ => simp [LevelDb.gotten]

theorem course_map (h : db.Healthy contents) (r : List Cmd × Ending) (d : D) :
    (course db contents r d).map (fun res => (res.1, res.2.1, contents res.2.2)) =
      course LevelDb.ofMap id r (contents d) := by
  obtain ⟨cmds, ending⟩ := r
  induction cmds generalizing d with
  | nil =>
    rw [course_nil, course_nil]
    cases ending <;> rfl
  | cons cmd cmds ih =>
    obtain ⟨hok, hrun, hgot⟩ := h.run d cmd
    rw [course_cons, course_cons, ← hok, ← hrun, ← hgot, ← ih]
    by_cases ht : (db.run d cmd).1 = true
    · rw [if_pos ht, if_pos ht, Option.map_map, Option.map_map]
      rfl
    · rw [if_neg ht, if_neg ht]
      rfl

theorem serve_map (h : db.Healthy contents) (p : List (Task × Bytes) × D) (task : Task) :
    (serve db contents p task).map (Prod.map id contents) =
      serve LevelDb.ofMap id (p.1, contents p.2) task := by
  by_cases hexit : task.cmd.head? = some (ascii "exit")
  · rw [serve, serve, if_pos hexit, if_pos hexit]
    rfl
  · rw [serve_eq h.toGetLaws p hexit, serve_eq LevelDb.ofMap_laws.toGetLaws _ hexit, ← course_map h,
      Option.map_map, Option.map_map]
    rfl

theorem serial_map (h : db.Healthy contents) (tasks : List Task) (d : D) :
    (serial db contents tasks d).map (Prod.map id contents) =
      serial LevelDb.ofMap id tasks (contents d) := by
  have hfold : ∀ p : List (Task × Bytes) × D,
      (tasks.foldlM (serve db contents) p).map (Prod.map id contents) =
        tasks.foldlM (serve LevelDb.ofMap id) (p.1, contents p.2) := by
    induction tasks with
    | nil => exact fun _ => rfl
    | cons task tasks ih =>
      intro p
      rw [List.foldlM_cons, List.foldlM_cons, ← serve_map h]
      cases serve db contents p task with
      | none => rfl
      | some p' => exact ih p'
  exact hfold ([], d)

end

end LittleLearning.Db
