import LittleLearning.Repo.Linear

/-!
# First in, first out

What the calls of the two threads say about each other, read off the logs of the
ring queue. `read` and `frontPtr` give the records that `write` took, in order
(`reads_in_order`); what no call has removed is what the destructor destroys
(`destroys_rest`); and a consumer that calls `popFront` only after `frontPtr`
has given it a record never meets the assertion (`popFront_holds`).
-/

namespace LittleLearning.Repo

open Transition Circular

variable {T : Type}

/-- The record that a call put in. -/
def put : Method T × Answer T → Option T
  | (.write record, .flag true) => some record
  | _ => none

/-- The records that `write` took. -/
def accepted (calls : List (Method T × Answer T)) : List T := calls.filterMap put

/-- The record that a call gives to see or to keep. -/
def given : Method T × Answer T → Option T
  | (.read, .record x) => x
  | (.frontPtr, .front x) => x
  | _ => none

def removes : Method T × Answer T → Bool
  | (.read, .record (some _)) => true
  | (.popFront, .popped) => true
  | _ => false

/-- How many records the calls removed. -/
def removed (calls : List (Method T × Answer T)) : Nat := calls.countP removes

/-- A call that gives a record gives the first of `records` that none before it has removed. -/
def GivesInOrder (records : List T) (calls : List (Method T × Answer T)) : Prop :=
  ∀ k e x, calls[k]? = some e → given e = some x → records[removed (calls.take k)]? = some x

def asked : Option (Method T × Answer T) → Bool
  | some (.frontPtr, .front (some _)) => true
  | _ => false

/-- The consumer calls `popFront` only where its last call was a `frontPtr` that gave a record. -/
def Careful (log : List (Party × Atomic.Mark (Method T) (Answer T))) : Prop :=
  ∀ k, k < log.length → log[k]? = some (.consumer, .call .popFront) →
    asked (Atomic.returned .consumer (log.take k)).getLast? = true

instance [DecidableEq T] (log : List (Party × Atomic.Mark (Method T) (Answer T))) :
    Decidable (Careful log) := inferInstanceAs (Decidable (∀ k, k < log.length → _ → _))

/-! ### One call after another -/

section

variable {records : List T} {calls : List (Method T × Answer T)} {e : Method T × Answer T}

theorem put_eq_some {record : T} (h : put e = some record) : e = (.write record, .flag true) := by
  unfold put at h
  split at h
  · rw [Option.some.inj h]
  · cases h

theorem asked_eq_true {o : Option (Method T × Answer T)} (h : asked o = true) :
    ∃ x, o = some (.frontPtr, .front (some x)) := by
  unfold asked at h
  split at h
  · exact ⟨_, rfl⟩
  · cases h

theorem Method.apply_eq_none {capacity : Nat} {m : Method T} {q : List T}
    (h : m.apply capacity q = none) : m = .popFront ∧ q = [] := by
  unfold Method.apply at h
  split at h
  case h_5 => exact ⟨rfl, rfl⟩
  case h_1 => split at h <;> cases h
  all_goals cases h

theorem accepted_snoc : accepted (calls ++ [e]) = accepted calls ++ (put e).toList := by
  cases h : put e <;> simp [accepted, h]

theorem removed_snoc : removed (calls ++ [e]) = removed calls + if removes e then 1 else 0 := by
  simp [removed, List.countP_append, List.countP_singleton]

theorem GivesInOrder.extend {records' : List T} (h : GivesInOrder records calls)
    (hp : records <+: records') :
    GivesInOrder records' calls := by
  intro k e x hk hx
  obtain ⟨l, rfl⟩ := hp
  exact List.getElem?_append_left (List.getElem?_eq_some_iff.1 (h k e x hk hx)).1 ▸ h k e x hk hx

theorem GivesInOrder.snoc (h : GivesInOrder records calls)
    (he : ∀ x, given e = some x → records[removed calls]? = some x) :
    GivesInOrder records (calls ++ [e]) := by
  intro k e' x hk hx
  rcases Nat.lt_trichotomy k calls.length with hlt | rfl | hgt
  · rw [List.getElem?_append_left hlt] at hk
    rw [List.take_append_of_le_length hlt.le]
    exact h k e' x hk hx
  · obtain rfl : e = e' := by simpa using hk
    simpa using he x hx
  · rw [List.getElem?_eq_none (by simp; omega)] at hk
    cases hk

theorem GivesInOrder.of_append {calls' : List (Method T × Answer T)}
    (h : GivesInOrder records (calls ++ calls')) : GivesInOrder records calls := by
  intro k e x hk hx
  have hlt := (List.getElem?_eq_some_iff.1 hk).1
  have := h k e x (by rw [List.getElem?_append_left hlt, hk]) hx
  rwa [List.take_append_of_le_length hlt.le] at this

/-- The list is what was accepted and not removed, and the consumer is given it in order. -/
structure InTurn (records : List T) (calls : List (Method T × Answer T)) (obj : List T) : Prop where
  rest : obj = records.drop (removed calls)
  le : removed calls ≤ records.length
  inOrder : GivesInOrder records calls

variable {obj : List T}

theorem InTurn.write (h : InTurn records calls obj) (record : T) :
    InTurn (records ++ [record]) calls (obj ++ [record]) where
  rest := by rw [h.rest, List.drop_append_of_le_length h.le]
  le := by
    have := h.le
    simp
    omega
  inOrder := h.inOrder.extend (List.prefix_append _ _)

/-- A call that leaves the list. -/
theorem InTurn.keep (h : InTurn records calls obj) (hr : removes e = false)
    (he : ∀ x, given e = some x → obj.head? = some x) : InTurn records (calls ++ [e]) obj where
  rest := by rw [removed_snoc, hr, h.rest]; simp
  le := by rw [removed_snoc, hr]; simpa using h.le
  inOrder := h.inOrder.snoc fun x hx => by
    rw [← List.head?_drop, ← h.rest]
    exact he x hx

/-- A call that removes the first record. -/
theorem InTurn.remove {x : T} (h : InTurn records calls (x :: obj)) (hr : removes e = true)
    (he : ∀ y, given e = some y → y = x) : InTurn records (calls ++ [e]) obj where
  rest := by
    rw [removed_snoc, hr, if_pos rfl, ← List.drop_drop, ← h.rest]
    rfl
  le := by
    have hlen := congrArg List.length h.rest
    rw [removed_snoc, hr, if_pos rfl]
    simp at hlen
    omega
  inOrder := h.inOrder.snoc fun y hy => by
    rw [← List.head?_drop, ← h.rest, he y hy]
    rfl

/-- Serial calls of one producer and one consumer. -/
theorem inTurn_of_serial {capacity : Nat} {h : List (Party × Method T × Answer T)}
    (hs : Atomic.Serial (Method.apply capacity) [] h obj)
    (hh : ∀ e ∈ h, Spsc.entry e.1 e.2.1 ≠ none) :
    InTurn (accepted (Atomic.own .producer h)) (Atomic.own .consumer h) obj := by
  induction hs with
  | nil => exact ⟨rfl, Nat.le_refl 0, fun k e x hk => by cases hk⟩
  | @snoc h obj obj' i m r _ happly ih =>
    have ih := ih fun e he => hh e (List.mem_append_left _ he)
    have hentry : Spsc.entry i m ≠ none := hh (i, m, r) (by simp)
    cases i with
    | producer =>
      rw [Atomic.own_snoc, Atomic.own_other (i := Party.consumer) (by decide), accepted_snoc]
      cases m with
      | write record =>
        by_cases hroom : obj.length < capacity
        · obtain ⟨rfl, rfl⟩ := Prod.mk.inj (Option.some.inj ((if_pos hroom).symm.trans happly))
          exact ih.write record
        · obtain ⟨rfl, rfl⟩ := Prod.mk.inj (Option.some.inj ((if_neg hroom).symm.trans happly))
          simpa [put] using ih
      | look op =>
        obtain ⟨rfl, rfl⟩ := Prod.mk.inj (Option.some.inj happly)
        simpa [put] using ih
      | _ => exact absurd rfl hentry
    | consumer =>
      rw [Atomic.own_snoc, Atomic.own_other (i := Party.producer) (by decide)]
      cases m with
      | write => exact absurd rfl hentry
      | read =>
        cases obj with
        | nil =>
          obtain ⟨rfl, rfl⟩ := Prod.mk.inj (Option.some.inj happly)
          exact ih.keep rfl (fun x hx => by cases hx)
        | cons x obj =>
          obtain ⟨rfl, rfl⟩ := Prod.mk.inj (Option.some.inj happly)
          exact ih.remove rfl (fun y hy => (Option.some.inj hy).symm)
      | frontPtr =>
        have happly : some (Answer.front obj.head?, obj) = some (r, obj') := by
          rw [← happly]
          cases obj <;> rfl
        obtain ⟨rfl, rfl⟩ := Prod.mk.inj (Option.some.inj happly)
        exact ih.keep (by cases obj <;> rfl) (fun x hx => hx)
      | popFront =>
        cases obj with
        | nil => cases happly
        | cons x obj =>
          obtain ⟨rfl, rfl⟩ := Prod.mk.inj (Option.some.inj happly)
          exact ih.remove rfl (fun y hy => by cases hy)
      | look op =>
        obtain ⟨rfl, rfl⟩ := Prod.mk.inj (Option.some.inj happly)
        exact ih.keep (by cases op <;> rfl) (fun x hx => by cases op <;> cases hx)

end

namespace Spsc

variable {size : Nat} {s s' : Spsc T}

/-! ### What the logs say -/

theorem writeStep_log (i : Party) (record : T) (st : WriteStage) :
    (s.writeStep size i record st).log = s.log ∨
      ∃ a, (s.writeStep size i record st).log = s.log ++ [(i, .ret a)] := by
  unfold writeStep
  split
  · exact .inl rfl
  · exact .inr ⟨_, rfl⟩

theorem readStep_log (i : Party) (st : ReadStage T) : (s.readStep size i st).log = s.log ∨
    ∃ a, (s.readStep size i st).log = s.log ++ [(i, .ret a)] := by
  unfold readStep
  split
  · exact .inl rfl
  · exact .inr ⟨_, rfl⟩

/-- A step inside a call logs nothing, or that the call has returned. -/
theorem advance_log {i : Party} {readFirst : Bool} {pc : Pc T}
    (h : s.advance size i readFirst pc = some s') :
    s'.log = s.log ∨ ∃ a, s'.log = s.log ++ [(i, .ret a)] := by
  cases pc with
  | idle => cases h
  | write record st =>
    obtain rfl := Option.some.inj h
    exact writeStep_log i record st
  | read st =>
    obtain rfl := Option.some.inj h
    exact readStep_log i st
  | frontLoad | popLoad =>
    obtain rfl := Option.some.inj h
    exact .inl rfl
  | frontCheck currentRead =>
    simp only [advance] at h
    split at h
    · obtain rfl := Option.some.inj h
      exact .inr ⟨_, rfl⟩
    · split at h <;> obtain rfl := Option.some.inj h
      · exact .inr ⟨_, rfl⟩
      · exact .inl rfl
  | popCheck | popDestroy =>
    simp only [advance] at h
    split at h <;> obtain rfl := Option.some.inj h <;> exact .inl rfl
  | popStore =>
    obtain rfl := Option.some.inj h
    exact .inr ⟨_, rfl⟩
  | look op ri wi =>
    cases ri <;> cases wi
    · by_cases hfirst : readFirst = true ∧ op ≠ .isFull
      · obtain rfl := Option.some.inj ((if_pos hfirst).symm.trans h)
        exact .inl rfl
      · obtain rfl := Option.some.inj ((if_neg hfirst).symm.trans h)
        exact .inl rfl
    · obtain rfl := Option.some.inj h
      exact .inr ⟨_, rfl⟩
    · obtain rfl := Option.some.inj h
      exact .inr ⟨_, rfl⟩
    · cases h

/-- Every thread calls what it may call. -/
theorem entry_of_log (hs : Reachable (step size) init s) {i : Party} {m : Method T}
    (hm : (i, .call m) ∈ s.log) : entry i m ≠ none := by
  revert i m
  refine hs.invariant (I := fun s => ∀ {i m}, (i, .call m) ∈ s.log → entry i m ≠ none) ?_ ?_
  · intro s a s' hI hstep i m hm
    unfold step at hstep
    split at hstep
    · cases hstep
    · cases a with
      | call j m' =>
        cases hidle : s.pc j with
        | idle =>
          simp only [hidle] at hstep
          obtain ⟨pc, hentry, rfl⟩ := Option.map_eq_some_iff.1 hstep
          rcases List.mem_append.1 hm with hm | hm
          · exact hI hm
          · obtain ⟨rfl, hmark⟩ := Prod.mk.inj (List.mem_singleton.1 hm)
            obtain rfl := Atomic.Mark.call.inj hmark
            rw [hentry]
            exact Option.some_ne_none pc
        | _ => simp [hidle] at hstep
      | step j readFirst =>
        rcases advance_log hstep with hlog | ⟨a, hlog⟩
        · exact hI (hlog ▸ hm)
        · rw [hlog, List.mem_append, List.mem_singleton, Prod.mk.injEq] at hm
          rcases hm with hm | ⟨-, hm⟩
          · exact hI hm
          · cases hm
  · intro i m hm
    cases hm

/-- The serial execution behind a log, cut to each thread. -/
theorem exists_inTurn (h0 : 0 < size) (hsize : size ≤ 2 ^ 31)
    (hs : Reachable (step size) init s) :
    ∃ (h : List (Party × Method T × Answer T)) (t : Listed T) (R : Nat),
      Reachable (Atomic.step (Method.apply (capacity size))) (.init []) t ∧ Refines size R s t ∧
      InTurn (accepted (Atomic.own .producer h)) (Atomic.own .consumer h) t.obj ∧
      ∀ i, (t.pending i).Acted (Atomic.own i h) (Atomic.returned i s.log)
        (Atomic.current i s.log) := by
  obtain ⟨t, R, ht, hR⟩ := refines_run h0 hsize hs
  obtain ⟨h, hserial, hacted⟩ := Atomic.exists_serial ht
  rw [← hR.log] at hacted
  refine ⟨h, t, R, ht, hR, inTurn_of_serial hserial fun e he => ?_, hacted⟩
  exact entry_of_log hs ((hacted e.1).called (Atomic.mem_own he))

/-- What `read` and `frontPtr` give the consumer are the records that `write` took, in order and
each until it is removed; the last of them may be of a `write` that is still to return. -/
theorem reads_in_order (h2 : 2 ≤ size) (hsize : size ≤ 2 ^ 31) (hs : Reachable (step size) init s) :
    GivesInOrder (accepted (Atomic.returned .producer s.log)) (Atomic.returned .consumer s.log) ∨
    ∃ record, Atomic.current .producer s.log = some (.write record) ∧
      GivesInOrder (accepted (Atomic.returned .producer s.log) ++ [record])
        (Atomic.returned .consumer s.log) := by
  obtain ⟨h, t, R, ht, hR, hturn, hacted⟩ := exists_inTurn (by omega) hsize hs
  have hcons : GivesInOrder (accepted (Atomic.own .producer h))
      (Atomic.returned .consumer s.log) := by
    have hc := hacted .consumer
    cases hpend : t.pending .consumer with
    | idle => rw [hpend] at hc; exact hc.2 ▸ hturn.inOrder
    | called m => rw [hpend] at hc; exact hc.2 ▸ hturn.inOrder
    | done a =>
      rw [hpend] at hc
      obtain ⟨m, -, hown⟩ := hc
      exact (hown ▸ hturn.inOrder).of_append
  have hp := hacted .producer
  cases hpend : t.pending .producer with
  | idle => rw [hpend] at hp; exact .inl (hp.2 ▸ hcons)
  | called m => rw [hpend] at hp; exact .inl (hp.2 ▸ hcons)
  | done a =>
    rw [hpend] at hp
    obtain ⟨m, hm, hown⟩ := hp
    rw [hown, accepted_snoc] at hcons
    rcases hput : put (m, a) with _ | record
    · exact .inl (by simpa [hput] using hcons)
    · obtain ⟨rfl, rfl⟩ := Prod.mk.inj (put_eq_some hput)
      exact .inr ⟨record, hm, by simpa [put] using hcons⟩

theorem reads_in_order_pop :
    GivesInOrder (accepted (Atomic.returned .producer popEnd.log))
      (Atomic.returned .consumer popEnd.log) ∨
    ∃ record, Atomic.current .producer popEnd.log = some (.write record) ∧
      GivesInOrder (accepted (Atomic.returned .producer popEnd.log) ++ [record])
        (Atomic.returned .consumer popEnd.log) :=
  reads_in_order (by decide) (by decide) ⟨popRun, popRun_exec⟩

/-- The loop of the destructor empties the slots that show `cells`. -/
theorem destroyLoop_eq {cells : List (Slot T)} (hraw : .raw ∉ cells) (hlen : cells.length < size)
    {fuel : Nat} (hfuel : cells.length < fuel) {R : Nat} {slots : Nat → Slot T}
    (h : Shows size R slots .raw cells) : ∃ slots',
      destroyLoop size ((R + cells.length) % size) fuel (R % size) slots = some (cells, slots') ∧
        ∀ k, k < size → slots' k = .raw := by
  induction cells generalizing R slots fuel with
  | nil =>
    obtain ⟨fuel, rfl⟩ := Nat.exists_eq_succ_of_ne_zero (Nat.ne_of_gt hfuel)
    exact ⟨slots, if_pos rfl, fun k hk => h.all_free hk⟩
  | cons cell cells ih =>
    obtain ⟨fuel, rfl⟩ := Nat.exists_eq_succ_of_ne_zero (Nat.ne_of_gt (Nat.zero_lt_of_lt hfuel))
    simp only [List.length_cons] at hlen hfuel
    obtain ⟨slots', hloop, hslots'⟩ := ih (fun hm => hraw (List.mem_cons_of_mem _ hm)) (by omega)
      (show cells.length < fuel by omega) (h.setFront .raw).pop
    refine ⟨slots', ?_, hslots'⟩
    have hend : R % size ≠ (R + (cells.length + 1)) % size := fun he =>
      absurd ((add_mod_eq_iff hlen).1 he.symm) (by omega)
    have hend' : (R + (cells.length + 1)) % size = (R + 1 + cells.length) % size := by
      congr 1
      omega
    have hfront := h.front
    cases cell with
    | raw => exact absurd List.mem_cons_self hraw
    | live x | moved =>
      simp only [destroyLoop, List.length_cons, if_neg hend, hfront]
      rw [next_mod (by omega), hend', hloop]
      rfl

/-- Once both threads are done the destructor destroys the records that were taken and not removed,
in order and each once, and no object is left in a slot. -/
theorem destroys_rest (h2 : 2 ≤ size) (hsize : size ≤ 2 ^ 31) (hs : Reachable (step size) init s)
    (hp : s.pc .producer = .idle) (hc : s.pc .consumer = .idle) : ∃ slots,
      s.destroy false size = some
        (((accepted (Atomic.returned .producer s.log)).drop
          (removed (Atomic.returned .consumer s.log))).map .live, slots) ∧
      ∀ k, k < size → slots k = .raw := by
  obtain ⟨h, t, R, ht, hR, hturn, hacted⟩ := exists_inTurn (by omega) hsize hs
  have hprod := hR.producer
  have hcons := hR.consumer
  have hholds := hR.holds
  have hown := hacted .producer
  have hown' := hacted .consumer
  rw [hp] at hprod hholds
  rw [hc] at hcons hholds
  generalize t.pending .producer = p at hprod hown
  generalize t.pending .consumer = c at hcons hown'
  cases hprod
  cases hcons
  have hslots : Shows size R s.slots .raw (t.obj.map .live) := by
    have hcells : cells (Pc.idle : Pc T).frontCell t.obj = t.obj.map .live := cells_live t.obj
    simpa [hcells, Pc.backCells] using hholds.slots
  have hrest := hturn.rest
  rw [hown.2, hown'.2] at hrest
  obtain ⟨slots, hloop, hfree⟩ := destroyLoop_eq (by simp) (by simpa using hholds.room)
    (by simpa using hholds.room) hslots
  refine ⟨slots, ?_, hfree⟩
  rw [← hrest, ← hloop, List.length_map, ← hholds.writeIndex, ← hholds.readIndex]
  rfl

theorem destroys_rest_pop : ∃ slots, popEnd.destroy false 2 = some ([.live 8], slots) ∧
    ∀ k, k < 2 → slots k = .raw :=
  destroys_rest (by decide) (by decide) ⟨popRun, popRun_exec⟩ rfl rfl

/-- The assertion of `popFront` holds for a consumer that has asked `frontPtr` right before. -/
theorem popFront_holds (h2 : 2 ≤ size) (hsize : size ≤ 2 ^ 31) (hs : Reachable (step size) init s)
    (hcare : Careful s.log) : s.failed = false := by
  obtain ⟨h, t, R, ht, hR, hturn, hacted⟩ := exists_inTurn (by omega) hsize hs
  by_contra hf
  have hf : t.failed = true := by
    rw [← hR.failed]
    simpa using hf
  obtain ⟨i, m, hpend, happly⟩ := Atomic.call_of_failed ht hf
  have hi := hacted i
  rw [hpend] at hi
  obtain ⟨hcur, hown⟩ := hi
  obtain ⟨l₁, l₂, hlog, hl₁⟩ := Atomic.call_of_current hcur
  obtain ⟨rfl, hempty⟩ := Method.apply_eq_none happly
  have hentry : entry i (.popFront : Method T) ≠ none := entry_of_log hs (by simp [hlog])
  cases i with
  | producer => exact absurd rfl hentry
  | consumer =>
    -- the last call that returned gave the record the list would have to be empty of
    have hasked := hcare l₁.length (by simp [hlog]) (by simp [hlog])
    rw [hlog, List.take_left' rfl, hl₁, ← hown] at hasked
    obtain ⟨x, hlast⟩ := asked_eq_true hasked
    obtain ⟨calls, hcalls⟩ := List.getLast?_eq_some_iff.1 hlast
    have hgiven := hturn.inOrder calls.length (.frontPtr, .front (some x)) x (by simp [hcalls]) rfl
    have hrest := hturn.rest
    rw [hcalls, removed_snoc, hempty] at hrest
    rw [hcalls, List.take_left' rfl, ← List.head?_drop] at hgiven
    have hkeep : removes ((.frontPtr, .front (some x)) : Method T × Answer T) = false := rfl
    rw [hkeep, if_neg Bool.false_ne_true, Nat.add_zero] at hrest
    rw [← hrest] at hgiven
    cases hgiven

theorem popFront_holds_pop : popEnd.failed = false :=
  popFront_holds (by decide) (by decide) ⟨popRun, popRun_exec⟩ (by decide)

end Spsc

end LittleLearning.Repo
