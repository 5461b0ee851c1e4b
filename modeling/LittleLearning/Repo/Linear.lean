import LittleLearning.Repo.Spsc

/-!
# Calls of the ring queue act at one moment

`Spsc.Refines` relates the ring to a list, with what has become of the call of
each thread. A step of the ring is matched by steps of the list (`Matched`), so
every log of calls and answers is one of the list (`linearizable`).
-/

namespace LittleLearning.Repo

open Transition Circular Cxx

variable {T : Type}

/-! ### What the two stand for each other -/

/-- The slot of the oldest record, by where the consumer is. -/
def Pc.frontCell (pc : Pc T) (x : T) : Slot T :=
  match pc with
  | .read st => st.frontCell x
  | .popStore _ => .raw
  | _ => .live x

/-- The record that is constructed and not yet published, by where the producer is. -/
def Pc.backCells : Pc T → List (Slot T)
  | .write record st => st.backCells (some record)
  | _ => []

/-- Where the producer is, and what has become of its call. -/
inductive ProducerAt (size writeIndex : Nat) (q : List T) :
    Pc T → Atomic.Pending (Method T) (Answer T) → Prop where
  | idle : ProducerAt size writeIndex q .idle .idle
  | write (record : T) (st : WriteStage) : st.Knows size writeIndex q →
      ProducerAt size writeIndex q (.write record st) (.called (.write record))
  | look (op : Look) : ProducerAt size writeIndex q (.look op none none) (.called (.look op))
  | lookOwn (op : Look) : ProducerAt size writeIndex q (.look op none (some writeIndex))
      (.called (.look op))
  | lookOther (op : Look) (r : Nat) : ProducerAt size writeIndex q (.look op (some r) none)
      (.done (op.answer size r writeIndex))

/-- Where the consumer is, and what has become of its call. -/
inductive ConsumerAt (size readIndex : Nat) (q : List T) :
    Pc T → Atomic.Pending (Method T) (Answer T) → Prop where
  | idle : ConsumerAt size readIndex q .idle .idle
  | read (st : ReadStage T) : st.Knows readIndex q →
      ConsumerAt size readIndex q (.read st) (.called .read)
  | frontLoad : ConsumerAt size readIndex q .frontLoad (.called .frontPtr)
  | frontCheck : ConsumerAt size readIndex q (.frontCheck readIndex) (.called .frontPtr)
  | popLoad : ConsumerAt size readIndex q .popLoad (.called .popFront)
  | popCheck : ConsumerAt size readIndex q (.popCheck readIndex) (.called .popFront)
  | popDestroy : q ≠ [] → ConsumerAt size readIndex q (.popDestroy readIndex) (.called .popFront)
  | popStore : q ≠ [] → ConsumerAt size readIndex q (.popStore readIndex) (.called .popFront)
  | look (op : Look) : ConsumerAt size readIndex q (.look op none none) (.called (.look op))
  | lookOwn (op : Look) : ConsumerAt size readIndex q (.look op (some readIndex) none)
      (.called (.look op))
  | lookOther (op : Look) (w : Nat) : ConsumerAt size readIndex q (.look op none (some w))
      (.done (op.answer size readIndex w))

/-- The ring `s` stands for the listed queue `t`; `R` is the position of its oldest record. -/
structure Spsc.Refines (size R : Nat) (s : Spsc T) (t : Listed T) : Prop where
  log : s.log = t.log
  failed : s.failed = t.failed
  holds : s.pq.Holds size R t.obj (s.pc .consumer).frontCell (s.pc .producer).backCells
  producer : ProducerAt size s.writeIndex t.obj (s.pc .producer) (t.pending .producer)
  consumer : ConsumerAt size s.readIndex t.obj (s.pc .consumer) (t.pending .consumer)

section

variable {size R w r : Nat} {q q' : List T} {pc : Pc T} {p : Atomic.Pending (Method T) (Answer T)}
  {s s' : Spsc T} {t : Listed T} {pq : ProducerConsumerQueue T}

theorem ProducerAt.mono (h : ProducerAt size w q pc p) (hlen : q'.length ≤ q.length) :
    ProducerAt size w q' pc p := by
  cases h with
  | write record st hknows => exact .write record st (hknows.mono hlen)
  | _ => constructor

theorem ConsumerAt.mono (h : ConsumerAt size r q pc p) (hq : q <+: q') :
    ConsumerAt size r q' pc p := by
  have hne : q ≠ [] → q' ≠ [] := fun hne he => hne (List.prefix_nil.1 (he ▸ hq))
  cases h with
  | read st hknows => exact .read st (hknows.mono hq)
  | popDestroy h => exact .popDestroy (hne h)
  | popStore h => exact .popStore (hne h)
  | _ => constructor

/-- On an empty ring the consumer has nothing in work. -/
theorem ConsumerAt.frontCell_nil (h : ConsumerAt size r q pc p) (hq : q = []) (x : T) :
    pc.frontCell x = .live x := by
  cases h with
  | read st hknows => exact hknows.frontCell_nil hq x
  | popStore h => exact absurd hq h
  | _ => rfl

namespace Spsc

/-! ### Steps that only move a thread -/

theorem Refines.producer_goto (h : Refines size R s t)
    (hback : pc.backCells = (s.pc .producer).backCells)
    (hp : ProducerAt size s.writeIndex t.obj pc p) :
    Refines size R (s.goto .producer pc) (t.set .producer p) where
  log := h.log
  failed := h.failed
  holds := by
    have hholds := h.holds
    rw [← hback] at hholds
    simpa [goto, Atomic.State.set] using hholds
  producer := by simpa [goto, Atomic.State.set] using hp
  consumer := by simpa [goto, Atomic.State.set] using h.consumer

theorem Refines.consumer_goto (h : Refines size R s t)
    (hfront : ∀ x, pc.frontCell x = (s.pc .consumer).frontCell x)
    (hc : ConsumerAt size s.readIndex t.obj pc p) :
    Refines size R (s.goto .consumer pc) (t.set .consumer p) where
  log := h.log
  failed := h.failed
  holds := by simpa [goto, Atomic.State.set] using h.holds.congr hfront
  producer := by simpa [goto, Atomic.State.set] using h.producer
  consumer := by simpa [goto, Atomic.State.set] using hc

theorem set_pending (i : Party) : t.set i (t.pending i) = t := by
  simp [Atomic.State.set]

theorem Refines.enter {i : Party} {m : Method T} {pc : Pc T}
    (h : Refines size R (s.goto i pc) (t.set i (.called m))) :
    Refines size R (s.enter i m pc) (t.enter i m) :=
  { h with
    log := by
      have hlog : s.log = t.log := h.log
      show s.log ++ _ = t.log ++ _
      rw [hlog] }

theorem Refines.answer {i : Party} (h : Refines size R (s.goto i .idle) (t.set i .idle))
    (a : Answer T) : Refines size R (s.answer i a) (t.answer i a) :=
  { h with
    log := by
      have hlog : s.log = t.log := h.log
      show s.log ++ _ = t.log ++ _
      rw [hlog] }

/-! ### Steps of the producer -/

/-- Steps of the listed queue match a step of the ring to `s'`. -/
def Matched (size : Nat) (s' : Spsc T) (t : Listed T) : Prop :=
  ∃ bs t' R, exec (Atomic.step (Method.apply (capacity size))) t bs = some t' ∧ Refines size R s' t'

/-- A step that the listed queue does not see. -/
theorem Refines.matched (h : Refines size R s' t) : Matched size s' t := ⟨[], t, R, rfl, h⟩

theorem Refines.producer_unseen (h : Refines size R s t)
    (hback : pc.backCells = (s.pc .producer).backCells)
    (hp : ProducerAt size s.writeIndex t.obj pc (t.pending .producer)) :
    Matched size (s.goto .producer pc) t := by
  have hnext := h.producer_goto hback hp
  rw [set_pending] at hnext
  exact hnext.matched

theorem Refines.consumer_unseen (h : Refines size R s t)
    (hfront : ∀ x, pc.frontCell x = (s.pc .consumer).frontCell x)
    (hc : ConsumerAt size s.readIndex t.obj pc (t.pending .consumer)) :
    Matched size (s.goto .consumer pc) t := by
  have hnext := h.consumer_goto hfront hc
  rw [set_pending] at hnext
  exact hnext.matched

/-- The producer has worked on the ring, the records or its call may be others. -/
theorem Refines.producer_pq (h : Refines size R s t)
    (hpq : pq.Holds size R q (s.pc .consumer).frontCell pc.backCells) (hq : t.obj <+: q)
    (hp : ProducerAt size pq.writeIndex q pc p) :
    Refines size R ({ s with pq := pq }.goto .producer pc) ({ t with obj := q }.set .producer p)
    where
  log := h.log
  failed := h.failed
  holds := by simpa [goto, Atomic.State.set] using hpq
  producer := by simpa [goto, Atomic.State.set] using hp
  consumer := by
    have hindex : pq.readIndex = s.readIndex := hpq.readIndex.trans h.holds.readIndex.symm
    have hc := h.consumer.mono hq
    rw [← hindex] at hc
    simpa [goto, Atomic.State.set] using hc

theorem Refines.writeStep (h : Refines size R s t) (hup : t.failed = false) {record : T}
    {st : WriteStage} (hpc : s.pc .producer = .write record st) :
    Matched size (s.writeStep size .producer record st) t := by
  have hp := h.producer
  have hholds := h.holds
  rw [hpc] at hp hholds
  generalize hpend : t.pending .producer = p at hp
  cases hp with
  | write _ _ hknows =>
    have hring : s.pq.Holds size R t.obj (s.pc .consumer).frontCell
      (st.backCells (some record)) := hholds
    have hends := hring.writeStep hknows h.consumer.frontCell_nil
    unfold Spsc.writeStep
    generalize s.pq.writeStep size record st = e at hends ⊢
    obtain ⟨pq, res⟩ := e
    cases hends with
    | goes st' hpq hknows' =>
      have hnext := h.producer_pq hpq List.prefix_rfl (.write record st' hknows')
      rw [← hpend] at hnext
      exact Refines.matched (set_pending (t := t) Party.producer ▸ hnext)
    | full hfull hpq =>
      have happly : Method.apply (capacity size) (.write record) t.obj =
          some (.flag false, t.obj) := if_neg (by unfold capacity; omega)
      exact ⟨_, _, R, Atomic.exec_act_ret hup hpend happly,
        (h.producer_pq hpq List.prefix_rfl .idle).answer _⟩
    | wrote hroom hpq =>
      have happly : Method.apply (capacity size) (.write record) t.obj =
          some (.flag true, t.obj ++ [record]) := if_pos (by unfold capacity; omega)
      exact ⟨_, _, R, Atomic.exec_act_ret hup hpend happly,
        (h.producer_pq hpq (List.prefix_append _ _) .idle).answer _⟩

/-! ### Steps of the consumer -/

/-- The consumer has worked on the ring, the records or its call may be others. -/
theorem Refines.consumer_pq (h : Refines size R s t) {R' : Nat}
    (hpq : pq.Holds size R' q pc.frontCell (s.pc .producer).backCells)
    (hindex : pq.writeIndex = s.writeIndex) (hq : q.length ≤ t.obj.length)
    (hc : ConsumerAt size pq.readIndex q pc p) :
    Refines size R' ({ s with pq := pq }.goto .consumer pc) ({ t with obj := q }.set .consumer p)
    where
  log := h.log
  failed := h.failed
  holds := by simpa [goto, Atomic.State.set] using hpq
  producer := by
    have hp := h.producer.mono hq
    rw [← hindex] at hp
    simpa [goto, Atomic.State.set] using hp
  consumer := by simpa [goto, Atomic.State.set] using hc

/-- A step of the consumer on the ring that the listed queue does not see. -/
theorem Refines.consumer_slot (h : Refines size R s t)
    (hpq : pq.Holds size R t.obj pc.frontCell (s.pc .producer).backCells)
    (hc : ConsumerAt size pq.readIndex t.obj pc (t.pending .consumer)) :
    Matched size ({ s with pq := pq }.goto .consumer pc) t := by
  have hindex : pq.writeIndex = s.writeIndex := hpq.writeIndex.trans h.holds.writeIndex.symm
  have hnext := h.consumer_pq hpq hindex (Nat.le_refl _) hc
  exact Refines.matched (set_pending (t := t) Party.consumer ▸ hnext)

/-- The consumer publishes that the oldest record is gone. -/
theorem Refines.consumer_store (h : Refines size R s t) (hup : t.failed = false) {m : Method T}
    {a : Answer T} {x : T} (hq : t.obj = x :: q)
    (hpq : pq.Holds size (R + 1) q .live (s.pc .producer).backCells)
    (hpend : t.pending .consumer = .called m)
    (happly : Method.apply (capacity size) m (x :: q) = some (a, q)) :
    Matched size ({ s with pq := pq }.answer .consumer a) t := by
  have hindex : pq.writeIndex = s.writeIndex := (hq ▸ h.holds).writeIndex_popped hpq
  rw [← hq] at happly
  have hidle : pq.Holds size (R + 1) q (Pc.frontCell .idle) (s.pc .producer).backCells := hpq
  exact ⟨_, _, R + 1, Atomic.exec_act_ret hup hpend happly,
    (h.consumer_pq hidle hindex (by simp [hq]) .idle).answer _⟩

theorem Refines.readStep (h : Refines size R s t) (hup : t.failed = false) {st : ReadStage T}
    (hpc : s.pc .consumer = .read st) : Matched size (s.readStep size .consumer st) t := by
  have hc := h.consumer
  have hholds := h.holds
  rw [hpc] at hc hholds
  generalize hpend : t.pending .consumer = p at hc
  cases hc with
  | read _ hknows =>
    have hring : s.pq.Holds size R t.obj st.frontCell (s.pc .producer).backCells := hholds
    have hends := hring.readStep hknows
    unfold Spsc.readStep
    generalize s.pq.readStep size st = e at hends ⊢
    obtain ⟨pq, res⟩ := e
    cases hends with
    | goes st' hpq hknows' => exact h.consumer_slot hpq (by rw [hpend]; exact .read st' hknows')
    | empty hempty hpq =>
      have happly : Method.apply (capacity size) .read t.obj = some (.record none, t.obj) := by
        rw [hempty]
        rfl
      have hindex : pq.writeIndex = s.writeIndex := hpq.writeIndex.trans h.holds.writeIndex.symm
      have hidle : pq.Holds size R t.obj (Pc.frontCell .idle) (s.pc .producer).backCells := hpq
      exact ⟨_, _, R, Atomic.exec_act_ret hup hpend happly,
        (h.consumer_pq hidle hindex (Nat.le_refl _) .idle).answer _⟩
    | took x q hq hpq => exact h.consumer_store hup hq hpq hpend rfl

/-! ### Steps of the methods that only look -/

theorem Refines.look_producer (h : Refines size R s t) (hsize : size ≤ 2 ^ 31)
    (hup : t.failed = false) {op : Look} {ri wi : Option Nat} {readFirst : Bool}
    (hpc : s.pc .producer = .look op ri wi)
    (hs : s.advance size .producer readFirst (.look op ri wi) = some s') : Matched size s' t := by
  have hp := h.producer
  rw [hpc] at hp
  generalize hpend : t.pending .producer = p at hp
  have htold : op.answer size s.readIndex s.writeIndex = op.tells (capacity size) t.obj := by
    rw [h.holds.readIndex, h.holds.writeIndex]
    exact Look.answer_eq hsize h.holds.room op
  cases hp with
  | look =>
    by_cases hfirst : readFirst = true ∧ op ≠ .isFull
    · simp only [advance, if_pos hfirst, Option.some.injEq] at hs
      subst hs
      refine ⟨_, _, R, Atomic.exec_act hup hpend rfl, h.producer_goto (by rw [hpc]; rfl) ?_⟩
      rw [← htold]
      exact .lookOther op _
    · simp only [advance, if_neg hfirst, Option.some.injEq] at hs
      subst hs
      exact h.producer_unseen (by rw [hpc]; rfl) (by rw [hpend]; exact .lookOwn op)
  | lookOwn =>
    simp only [advance, Option.some.injEq] at hs
    subst hs
    rw [htold]
    exact ⟨_, _, R, Atomic.exec_act_ret hup hpend rfl,
      (h.producer_goto (by rw [hpc]; rfl) .idle).answer _⟩
  | lookOther _ r =>
    simp only [advance, Option.some.injEq] at hs
    subst hs
    exact ⟨_, _, R, Atomic.exec_ret hup hpend,
      (h.producer_goto (by rw [hpc]; rfl) .idle).answer _⟩

theorem Refines.look_consumer (h : Refines size R s t) (hsize : size ≤ 2 ^ 31)
    (hup : t.failed = false) {op : Look} {ri wi : Option Nat} {readFirst : Bool}
    (hpc : s.pc .consumer = .look op ri wi)
    (hs : s.advance size .consumer readFirst (.look op ri wi) = some s') : Matched size s' t := by
  have hc := h.consumer
  rw [hpc] at hc
  generalize hpend : t.pending .consumer = p at hc
  have htold : op.answer size s.readIndex s.writeIndex = op.tells (capacity size) t.obj := by
    rw [h.holds.readIndex, h.holds.writeIndex]
    exact Look.answer_eq hsize h.holds.room op
  cases hc with
  | look =>
    by_cases hfirst : readFirst = true ∧ op ≠ .isFull
    · simp only [advance, if_pos hfirst, Option.some.injEq] at hs
      subst hs
      exact h.consumer_unseen (fun x => by rw [hpc]; rfl) (by rw [hpend]; exact .lookOwn op)
    · simp only [advance, if_neg hfirst, Option.some.injEq] at hs
      subst hs
      refine ⟨_, _, R, Atomic.exec_act hup hpend rfl,
        h.consumer_goto (fun x => by rw [hpc]; rfl) ?_⟩
      rw [← htold]
      exact .lookOther op _
  | lookOwn =>
    simp only [advance, Option.some.injEq] at hs
    subst hs
    rw [htold]
    exact ⟨_, _, R, Atomic.exec_act_ret hup hpend rfl,
      (h.consumer_goto (fun x => by rw [hpc]; rfl) .idle).answer _⟩
  | lookOther _ w =>
    simp only [advance, Option.some.injEq] at hs
    subst hs
    exact ⟨_, _, R, Atomic.exec_ret hup hpend,
      (h.consumer_goto (fun x => by rw [hpc]; rfl) .idle).answer _⟩

/-! ### Every step -/

theorem Refines.call (h : Refines size R s t) (hup : t.failed = false) {i : Party} {m : Method T}
    (hidle : s.pc i = .idle) (hs : (entry i m).map (s.enter i m) = some s') :
    Matched size s' t := by
  obtain ⟨pc, hentry, rfl⟩ := Option.map_eq_some_iff.1 hs
  cases i with
  | producer =>
    have hp := h.producer
    rw [hidle] at hp
    generalize hpend : t.pending .producer = p at hp
    cases hp
    refine ⟨_, _, R, Atomic.exec_call hup hpend m, (h.producer_goto ?_ ?_).enter⟩
    · rw [hidle]
      cases m <;> cases hentry <;> rfl
    · cases m <;> cases hentry
      · exact .write _ _ trivial
      · exact .look _
  | consumer =>
    have hc := h.consumer
    rw [hidle] at hc
    generalize hpend : t.pending .consumer = p at hc
    cases hc
    refine ⟨_, _, R, Atomic.exec_call hup hpend m, (h.consumer_goto (fun x => ?_) ?_).enter⟩
    · rw [hidle]
      cases m <;> cases hentry <;> rfl
    · cases m <;> cases hentry
      · exact .read _ trivial
      · exact .frontLoad
      · exact .popLoad
      · exact .look _

theorem Refines.producer_step (h : Refines size R s t) (hsize : size ≤ 2 ^ 31)
    (hup : t.failed = false) {readFirst : Bool}
    (hs : s.advance size .producer readFirst (s.pc .producer) = some s') : Matched size s' t := by
  have hp := h.producer
  generalize hpc : s.pc .producer = pc at hs
  rw [hpc] at hp
  cases pc with
  | idle => cases hs
  | write record st =>
    obtain rfl := Option.some.inj hs
    exact h.writeStep hup hpc
  | look op ri wi => exact h.look_producer hsize hup hpc hs
  | _ => cases hp

theorem Refines.consumer_step (h : Refines size R s t) (hsize : size ≤ 2 ^ 31)
    (hup : t.failed = false) {readFirst : Bool}
    (hs : s.advance size .consumer readFirst (s.pc .consumer) = some s') : Matched size s' t := by
  have hc := h.consumer
  generalize hpc : s.pc .consumer = pc at hs
  rw [hpc] at hc
  generalize hpend : t.pending .consumer = p at hc
  cases pc with
  | idle => cases hs
  | write => cases hc
  | read st =>
    obtain rfl := Option.some.inj hs
    exact h.readStep hup hpc
  | frontLoad =>
    obtain rfl := Option.some.inj hs
    cases hc
    exact h.consumer_unseen (fun x => by rw [hpc]; rfl) (by rw [hpend]; exact .frontCheck)
  | frontCheck cr =>
    cases hc
    have happly : ∀ q : List T, Method.apply (capacity size) .frontPtr q =
        some (.front q.head?, q) := fun q => by cases q <;> rfl
    have hreturn : ∀ a, a = Answer.front t.obj.head? → Matched size (s.answer .consumer a) t := by
      rintro a rfl
      exact ⟨_, _, R, Atomic.exec_act_ret hup hpend (happly t.obj),
        (h.consumer_goto (fun x => by rw [hpc]; rfl) .idle).answer _⟩
    by_cases hempty : t.obj = []
    · simp only [advance, if_pos (h.holds.empty_iff.2 hempty), Option.some.injEq] at hs
      subst hs
      exact hreturn _ (by rw [hempty]; rfl)
    · obtain ⟨x, q, hq⟩ := List.exists_cons_of_ne_nil hempty
      have hfront := (hq ▸ h.holds).slot_front
      rw [hpc] at hfront
      simp only [advance, if_neg (mt h.holds.empty_iff.1 hempty), hfront, Pc.frontCell,
        Option.some.injEq] at hs
      subst hs
      exact hreturn _ (by rw [hq]; rfl)
  | popLoad =>
    obtain rfl := Option.some.inj hs
    cases hc
    exact h.consumer_unseen (fun x => by rw [hpc]; rfl) (by rw [hpend]; exact .popCheck)
  | popCheck cr =>
    cases hc
    by_cases hempty : t.obj = []
    · simp only [advance, if_neg (not_not.2 (h.holds.empty_iff.2 hempty)), Option.some.injEq] at hs
      subst hs
      have happly : Method.apply (capacity size) .popFront t.obj = none := by rw [hempty]; rfl
      exact ⟨_, _, R, Atomic.exec_fail hup hpend happly, { h with failed := rfl }⟩
    · simp only [advance, if_pos (mt h.holds.empty_iff.1 hempty), Option.some.injEq] at hs
      subst hs
      exact h.consumer_unseen (fun x => by rw [hpc]; rfl) (by rw [hpend]; exact .popDestroy hempty)
  | popDestroy cr =>
    cases hc with
    | popDestroy hne =>
      obtain ⟨x, q, hq⟩ := List.exists_cons_of_ne_nil hne
      have hholds := h.holds
      rw [hq] at hholds
      have hfront := hholds.slot_front
      rw [hpc] at hfront
      simp only [advance, hfront, Pc.frontCell, Option.some.injEq] at hs
      subst hs
      have hset : ProducerConsumerQueue.Holds size R
          { s.pq with slots := Function.update s.slots s.readIndex .raw } (x :: q)
          (Pc.popStore s.readIndex).frontCell (s.pc .producer).backCells := hholds.setFront rfl
      rw [← hq] at hset
      exact h.consumer_slot hset (by rw [hpend]; exact .popStore hne)
  | popStore cr =>
    obtain rfl := Option.some.inj hs
    cases hc with
    | popStore hne =>
      obtain ⟨x, q, hq⟩ := List.exists_cons_of_ne_nil hne
      have hholds := h.holds
      rw [hq] at hholds
      exact h.consumer_store hup hq (hholds.pop (by rw [hpc]; rfl)) hpend rfl
  | look op ri wi => exact h.look_consumer hsize hup hpc hs

theorem Refines.step (hsize : size ≤ 2 ^ 31) (h : Refines size R s t) {a : Act T}
    (hs : s.step size a = some s') : Matched size s' t := by
  by_cases hdown : s.failed = true
  · simp [Spsc.step, hdown] at hs
  have hup : t.failed = false := by
    rw [← h.failed]
    simpa using hdown
  simp only [Spsc.step, hdown] at hs
  cases a with
  | call i m =>
    cases hidle : s.pc i with
    | idle =>
      simp only [hidle] at hs
      exact h.call hup hidle hs
    | _ => simp [hidle] at hs
  | step i readFirst =>
    cases i with
    | producer => exact h.producer_step hsize hup hs
    | consumer => exact h.consumer_step hsize hup hs

theorem refines_init (h : 0 < size) : Refines size 0 (init : Spsc T) (.init []) where
  log := rfl
  failed := rfl
  holds := ProducerConsumerQueue.holds_init h
  producer := .idle
  consumer := .idle

theorem refines_run (h0 : 0 < size) (hsize : size ≤ 2 ^ 31)
    (hs : Reachable (Spsc.step size) init s) : ∃ t R,
      Reachable (Atomic.step (Method.apply (capacity size))) (.init []) t ∧ Refines size R s t := by
  obtain ⟨as, has⟩ := hs
  obtain ⟨bs, t, hbs, R, hR⟩ := exec_simulation (R := fun s t => ∃ R, Refines size R s t)
    (fun s t a s' h hs => by
      obtain ⟨R, h⟩ := h
      obtain ⟨bs, t', R', hbs, h'⟩ := h.step hsize hs
      exact ⟨bs, t', hbs, R', h'⟩) ⟨0, refines_init h0⟩ has
  exact ⟨t, R, ⟨bs, hbs⟩, hR⟩

/-- Whatever one producer and one consumer call, all they are answered can be answered by a list of
at most `capacity` records, each call being made at one moment while it lasts; the assertion of
`popFront` fails only where the list is empty at that moment, and no slot is touched out of turn. -/
theorem linearizable (h2 : 2 ≤ size) (hsize : size ≤ 2 ^ 31)
    (hs : Reachable (Spsc.step size) init s) : ∃ t : Listed T,
      Reachable (Atomic.step (Method.apply (capacity size))) (.init []) t ∧ s.log = t.log ∧
        s.failed = t.failed ∧ s.fault = false := by
  obtain ⟨t, R, ht, h⟩ := refines_run (by omega) hsize hs
  exact ⟨t, ht, h.log, h.failed, h.holds.noFault⟩

/-- A ring of two slots: a record is written, looked at while it is published, and popped; then
another is written. -/
def popRun : List (Act Nat) :=
  [.call .producer (.write 7), .step .producer false, .step .producer false,
    .call .consumer .frontPtr, .step .consumer false, .step .producer false, .step .producer false,
    .step .consumer false, .call .consumer .popFront, .step .consumer false, .step .consumer false,
    .step .consumer false, .step .consumer false, .call .producer (.write 8),
    .step .producer false, .step .producer false, .step .producer false, .step .producer false]

def popEnd : Spsc Nat := (exec (step 2) init popRun).getD init

theorem popRun_exec : exec (step 2) init popRun = some popEnd := by rfl

theorem linearizable_pop : ∃ t : Listed Nat,
    Reachable (Atomic.step (Method.apply (capacity 2))) (.init []) t ∧ popEnd.log = t.log ∧
      popEnd.failed = t.failed ∧ popEnd.fault = false :=
  linearizable (by decide) (by decide) ⟨popRun, popRun_exec⟩

end Spsc

end

end LittleLearning.Repo
