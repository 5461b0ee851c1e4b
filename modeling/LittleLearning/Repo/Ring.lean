import LittleLearning.Repo.ProducerConsumerQueue
import LittleLearning.Repo.TaskQueue

/-!
# The ring under the task queue

The task queue over `ProducerConsumerQueue`: `RingQueue` runs the steps of
`pq.write` and `pq.read` where `Queue` makes one attempt, and `Refines` relates
the two at every step.
-/

namespace LittleLearning.Repo

open Transition Circular

structure RingQueue (T : Type) extends pq : ProducerConsumerQueue T where
  ctl : Control T
  writing : WriteStage
  reading : ReadStage T

variable {T : Type}

namespace RingQueue

def init : RingQueue T where
  pq := .init
  ctl := .init
  writing := .load
  reading := .load

/-- The next step of `pq.write(task)`. -/
def writeStep (size : Nat) (s : RingQueue T) (task : T) : RingQueue T :=
  match s.pq.writeStep size task s.writing with
  | (pq, .inl st) => { s with pq := pq, writing := st }
  | (pq, .inr ok) => { s with pq := pq, writing := .load, ctl := s.ctl.wrote ok }

/-- The next step of `pq.read(record)`. -/
def readStep (size : Nat) (s : RingQueue T) : RingQueue T :=
  match s.pq.readStep size s.reading with
  | (pq, .inl st) => { s with pq := pq, reading := st }
  | (pq, .inr record) => { s with pq := pq, reading := .load, ctl := s.ctl.took record }

def step (size : Nat) (s : RingQueue T) (a : Act T) : Option (RingQueue T) :=
  match a, s.ctl.producer.trying, s.ctl.consumer.trying with
  | .producer, some task, _ => some (s.writeStep size task)
  | .consumer, _, true => some (s.readStep size)
  | a, _, _ => (s.ctl.step a).map ({ s with ctl := · })

end RingQueue

/-- The ring `s` stands for the queue `q`; `R` is the position of its oldest task. -/
structure RefinesAt (size R : Nat) (s : RingQueue T) (q : Queue T) : Prop where
  ctl : s.ctl = q.ctl
  holds : s.pq.Holds size R q.pq s.reading.frontCell
    (s.writing.backCells s.ctl.producer.trying)
  writing : s.writing.Knows size s.writeIndex q.pq
  reading : s.reading.Knows s.readIndex q.pq
  inWrite : s.writing ≠ .load → s.ctl.producer.trying ≠ none
  inRead : s.reading ≠ .load → s.ctl.consumer.trying = true

def Refines (size : Nat) (s : RingQueue T) (q : Queue T) : Prop := ∃ R, RefinesAt size R s q

variable {size R : Nat} {s s' : RingQueue T} {q : Queue T} {a : Act T}

theorem refines_init (h : 0 < size) : Refines size (.init : RingQueue T) .init :=
  ⟨0, rfl, ProducerConsumerQueue.holds_init h, trivial, trivial, fun hne => absurd rfl hne,
    fun hne => absurd rfl hne⟩

/-! ### Steps off the ring -/

theorem Control.Move.producer_trying {c c' : Control T} {task : T} (h : c.Move a c')
    (ht : c.producer.trying = some task) : c'.producer.trying = some task := by
  cases h with
  | producerLock task hp => rcases hp with hp | hp <;> simp [hp, Producer.trying] at ht
  | consumerNotifyHeld | consumerNotify =>
    rcases Producer.trying_cases ht with hp | hp <;> simp [hp, Producer.notified, Producer.trying]
  | _ => simp_all [Producer.trying]

theorem Control.Move.consumer_trying {c c' : Control T} (h : c.Move a c')
    (ht : c.consumer.trying = true) : c'.consumer.trying = true := by
  cases h with
  | consumerLock hc => rcases hc with hc | hc <;> simp [hc, Consumer.trying] at ht
  | producerNotify =>
    rcases Consumer.trying_cases ht with hc | hc <;> simp [hc, Consumer.notified, Consumer.trying]
  | _ => simp_all [Consumer.trying]

theorem RefinesAt.move {c : Control T} (h : RefinesAt size R s q) (hm : s.ctl.Move a c) :
    RefinesAt size R { s with ctl := c } { q with ctl := c } where
  ctl := rfl
  holds := by
    have hback : s.writing.backCells c.producer.trying =
        s.writing.backCells s.ctl.producer.trying := by
      have hw := h.inWrite
      cases hst : s.writing with
      | store cw =>
        obtain ⟨task, ht⟩ := Option.ne_none_iff_exists'.1 (hw (by simp [hst]))
        rw [hm.producer_trying ht, ht]
      | _ => rfl
    have hholds := h.holds
    rwa [← hback] at hholds
  writing := h.writing
  reading := h.reading
  inWrite hne := by
    obtain ⟨task, ht⟩ := Option.ne_none_iff_exists'.1 (h.inWrite hne)
    simp [hm.producer_trying ht]
  inRead hne := hm.consumer_trying (h.inRead hne)

/-! ### Steps of an attempt -/

theorem Control.wrote_consumer (c : Control T) (ok : Bool) :
    (c.wrote ok).consumer = c.consumer := by
  unfold Control.wrote
  split <;> rfl

theorem Control.took_producer (c : Control T) (record : Option T) :
    (c.took record).producer = c.producer := by
  unfold Control.took
  split <;> rfl

/-- A step of `pq.write` is unseen by the queue or fails on a full one, unless it is the store of
`writeIndex_`, from which on the task is in the queue. -/
theorem RefinesAt.writeStep {task : T} (h : RefinesAt size R s q)
    (ht : s.ctl.producer.trying = some task) :
    ((∃ cw, s.writing = .store cw) ∧ q.pq.length + 1 < size ∧
        Refines size (s.writeStep size task) ⟨q.ctl.wrote true, q.pq ++ [task]⟩) ∨
      (∀ cw, s.writing ≠ .store cw) ∧ (Refines size (s.writeStep size task) q ∨
        q.pq.length + 1 = size ∧
          Refines size (s.writeStep size task) { q with ctl := q.ctl.wrote false }) := by
  have hholds := h.holds
  rw [ht] at hholds
  have hends := hholds.writeStep h.writing h.reading.frontCell_nil
  have hstore : (s.pq.writeStep size task s.writing).2 = .inr true ↔
      ∃ cw, s.writing = .store cw := ProducerConsumerQueue.writeStep_eq_true
  unfold RingQueue.writeStep
  generalize s.pq.writeStep size task s.writing = e at hends hstore ⊢
  obtain ⟨pq, res⟩ := e
  have hreading : ∀ {q' : List T} {back : List (Slot T)},
      pq.Holds size R q' s.reading.frontCell back → q.pq <+: q' →
      s.reading.Knows pq.readIndex q' := by
    intro q' back hpq hq'
    rw [hpq.readIndex, ← h.holds.readIndex]
    exact h.reading.mono hq'
  have hnot : res ≠ .inr true → ∀ cw, s.writing ≠ .store cw :=
    fun hres cw hw => hres (hstore.2 ⟨cw, hw⟩)
  cases hends with
  | goes st hpq hknows =>
    refine .inr ⟨hnot (by simp), .inl ⟨R, h.ctl, ?_, hknows, hreading hpq List.prefix_rfl, ?_,
      h.inRead⟩⟩
    · rw [ht]
      exact hpq
    · intro _
      simp [ht]
  | full hfull hpq =>
    refine .inr ⟨hnot (by simp), .inr ⟨hfull, R, by rw [h.ctl], hpq, trivial,
      hreading hpq List.prefix_rfl, fun hne => absurd rfl hne, ?_⟩⟩
    rw [Control.wrote_consumer]
    exact h.inRead
  | wrote hroom hpq =>
    refine .inl ⟨hstore.1 rfl, hroom, R, by rw [h.ctl], hpq, trivial,
      hreading hpq (List.prefix_append _ _), fun hne => absurd rfl hne, ?_⟩
    rw [Control.wrote_consumer]
    exact h.inRead

/-- A step of `pq.read` is unseen by the queue or fails on an empty one, unless it is the store of
`readIndex_`, from which on the task is out of the queue. -/
theorem RefinesAt.readStep (h : RefinesAt size R s q) (ht : s.ctl.consumer.trying = true) :
    (∃ cr x pq, s.reading = .store cr x ∧ q.pq = x :: pq ∧
        Refines size (s.readStep size) ⟨q.ctl.took (some x), pq⟩) ∨
      (∀ cr x, s.reading ≠ .store cr x) ∧ (Refines size (s.readStep size) q ∨
        q.pq = [] ∧ Refines size (s.readStep size) { q with ctl := q.ctl.took none }) := by
  have hends := h.holds.readStep h.reading
  have hstore : ∀ x, (s.pq.readStep size s.reading).2 = .inr (some x) ↔
      ∃ cr, s.reading = .store cr x := fun _ => ProducerConsumerQueue.readStep_eq_some
  unfold RingQueue.readStep
  generalize s.pq.readStep size s.reading = e at hends hstore ⊢
  obtain ⟨pq, res⟩ := e
  have hnot : (∀ x, res ≠ .inr (some x)) → ∀ cr x, s.reading ≠ .store cr x :=
    fun hres cr x hr => hres x ((hstore x).2 ⟨cr, hr⟩)
  cases hends with
  | goes st hpq hknows =>
    refine .inr ⟨hnot (by simp), .inl ⟨R, h.ctl, hpq, ?_, hknows, h.inWrite, fun _ => ht⟩⟩
    show s.writing.Knows size pq.writeIndex q.pq
    rw [hpq.writeIndex, ← h.holds.writeIndex]
    exact h.writing
  | empty hempty hpq =>
    refine .inr ⟨hnot (by simp), .inr ⟨hempty, R, by rw [h.ctl], ?_, ?_, trivial, ?_,
      fun hne => absurd rfl hne⟩⟩
    · rw [Control.took_producer]
      exact hpq
    · show s.writing.Knows size pq.writeIndex q.pq
      rw [hpq.writeIndex, ← h.holds.writeIndex]
      exact h.writing
    · rw [Control.took_producer]
      exact h.inWrite
  | took x pq' hcons hpq =>
    obtain ⟨cr, hr⟩ := (hstore x).1 rfl
    refine .inl ⟨cr, x, pq', hr, hcons, R + 1, by rw [h.ctl], ?_, ?_, trivial, ?_,
      fun hne => absurd rfl hne⟩
    · rw [Control.took_producer]
      exact hpq
    · have hindex : pq.writeIndex = s.writeIndex := (hcons ▸ h.holds).writeIndex_popped hpq
      show s.writing.Knows size pq.writeIndex pq'
      rw [hindex]
      exact h.writing.mono (by simp [hcons])
    · rw [Control.took_producer]
      exact h.inWrite

/-- No attempt. -/
theorem RingQueue.step_ctl (ha : a = .producer → s.ctl.producer.trying = none)
    (hc : a = .consumer → s.ctl.consumer.trying = false) :
    s.step size a = (s.ctl.step a).map ({ s with ctl := · }) := by
  cases a with
  | producer => simp [RingQueue.step, ha rfl]
  | consumer => simp [RingQueue.step, hc rfl]
  | _ => rfl

/-- A step of the ring is a step of the queue or unseen by it. -/
theorem Refines.step (h : Refines size s q) (hs : s.step size a = some s') :
    Refines size s' q ∨ ∃ q', q.step (size - 1) a = some q' ∧ Refines size s' q' := by
  obtain ⟨R, h⟩ := h
  by_cases hp : a = .producer ∧ s.ctl.producer.trying ≠ none
  · obtain ⟨rfl, hp⟩ := hp
    obtain ⟨task, ht⟩ := Option.ne_none_iff_exists'.1 hp
    have hstep : s.step size .producer = some (s.writeStep size task) := by
      simp [RingQueue.step, ht]
    rw [hstep] at hs
    obtain rfl := Option.some.inj hs
    rw [h.ctl] at ht
    obtain ⟨-, hroom, hnext⟩ | ⟨-, hnext | ⟨hfull, hnext⟩⟩ := h.writeStep (h.ctl ▸ ht)
    · exact .inr ⟨_, by simp only [Queue.step, ht, if_pos (show q.pq.length < size - 1 by omega)],
        hnext⟩
    · exact .inl hnext
    · exact .inr ⟨_, by simp only [Queue.step, ht, if_neg (show ¬ q.pq.length < size - 1 by omega)],
        hnext⟩
  by_cases hc : a = .consumer ∧ s.ctl.consumer.trying = true
  · obtain ⟨rfl, ht⟩ := hc
    have hstep : s.step size .consumer = some (s.readStep size) := by simp [RingQueue.step, ht]
    rw [hstep] at hs
    obtain rfl := Option.some.inj hs
    rw [h.ctl] at ht
    obtain ⟨-, x, pq, -, hpq, hnext⟩ | ⟨-, hnext | ⟨hpq, hnext⟩⟩ := h.readStep (h.ctl ▸ ht)
    · exact .inr ⟨_, by simp only [Queue.step, ht, hpq], hnext⟩
    · exact .inl hnext
    · exact .inr ⟨_, by simp only [Queue.step, ht, hpq], hpq ▸ hnext⟩
  · -- no attempt: both take the step of the control
    have hpa : a = .producer → s.ctl.producer.trying = none := fun ha => by simpa [ha] using hp
    have hca : a = .consumer → s.ctl.consumer.trying = false := fun ha => by simpa [ha] using hc
    rw [RingQueue.step_ctl hpa hca] at hs
    obtain ⟨c, hmove, rfl⟩ := Option.map_eq_some_iff.1 hs
    refine .inr ⟨{ q with ctl := c }, ?_, R, h.move (Control.step_cases hmove)⟩
    rw [Queue.step_ctl (by rwa [← h.ctl]) (by rwa [← h.ctl]), ← h.ctl, hmove]
    rfl

/-! ### Where an attempt succeeds -/

section

variable {c : Control T} {task : T}

theorem Producer.pending_of_trying (h : c.producer.trying = some task) :
    c.producer.pending = [task] := by
  rcases Producer.trying_cases h with hp | hp <;> simp [hp, Producer.pending]

theorem Control.pending_wrote (h : c.producer.trying = some task) (ok : Bool) :
    (c.wrote ok).producer.pending = if ok then [] else [task] := by
  rcases Producer.trying_cases h with hp | hp <;> cases ok <;>
    simp [hp, Control.wrote, Producer.pending]

theorem Consumer.record_of_trying (h : c.consumer.trying = true) : c.consumer.record = [] := by
  rcases Consumer.trying_cases h with hc | hc <;> simp [hc, Consumer.record]

theorem Control.record_took (h : c.consumer.trying = true) (record : Option T) :
    (c.took record).consumer.record = record.toList := by
  rcases Consumer.trying_cases h with hc | hc <;> cases record <;>
    simp [hc, Control.took, Consumer.record]

/-- The task is in the queue from the store of `writeIndex_` on. -/
theorem RefinesAt.published (h : RefinesAt size R s q) (ht : s.ctl.producer.trying = some task) :
    ((∃ cw, s.writing = .store cw) ∧ q.pq.length < size - 1 ∧
        Refines size (s.writeStep size task) ⟨q.ctl.wrote true, q.pq ++ [task]⟩) ∨
      (∀ cw, s.writing ≠ .store cw) ∧
        ∃ c, c.producer.pending = q.ctl.producer.pending ∧ c.consumer = q.ctl.consumer ∧
          c.producer ≠ .idle ∧ Refines size (s.writeStep size task) { q with ctl := c } := by
  have htq : q.ctl.producer.trying = some task := h.ctl ▸ ht
  obtain ⟨hstore, hroom, hnext⟩ | ⟨hnot, hnext | ⟨-, hnext⟩⟩ := h.writeStep ht
  · exact .inl ⟨hstore, by omega, hnext⟩
  · refine .inr ⟨hnot, q.ctl, rfl, rfl, ?_, hnext⟩
    rcases Producer.trying_cases htq with hp | hp <;> simp [hp]
  · have hpending := Control.pending_wrote htq false
    refine .inr ⟨hnot, _, hpending.trans (Producer.pending_of_trying htq).symm,
      Control.wrote_consumer _ _, ?_, hnext⟩
    rcases Producer.trying_cases htq with hp | hp <;> simp [hp, Control.wrote]

/-- The task is out of the queue from the store of `readIndex_` on. -/
theorem RefinesAt.consumed (h : RefinesAt size R s q) (ht : s.ctl.consumer.trying = true) :
    (∃ cr x pq, s.reading = .store cr x ∧ q.pq = x :: pq ∧
        Refines size (s.readStep size) ⟨q.ctl.took (some x), pq⟩) ∨
      (∀ cr x, s.reading ≠ .store cr x) ∧
        ∃ c, c.consumer.record = q.ctl.consumer.record ∧ c.producer = q.ctl.producer ∧
          c.consumer ≠ .idle ∧ Refines size (s.readStep size) { q with ctl := c } := by
  have htq : q.ctl.consumer.trying = true := h.ctl ▸ ht
  obtain hstore | ⟨hnot, hnext | ⟨-, hnext⟩⟩ := h.readStep ht
  · exact .inl hstore
  · refine .inr ⟨hnot, q.ctl, rfl, rfl, ?_, hnext⟩
    rcases Consumer.trying_cases htq with hc | hc <;> simp [hc]
  · have hrecord := Control.record_took htq none
    refine .inr ⟨hnot, _, hrecord.trans (Consumer.record_of_trying htq).symm,
      Control.took_producer _ _, ?_, hnext⟩
    rcases Consumer.trying_cases htq with hc | hc <;> simp [hc, Control.took]

end

/-! ### Runs -/

/-- A run of the ring is a run of the queue with one slot less. -/
theorem refines_run (h : 0 < size) (hs : Reachable (RingQueue.step size) .init s) :
    ∃ q, Reachable (Queue.step (size - 1)) .init q ∧ Refines size s q := by
  obtain ⟨as, has⟩ := hs
  have hstep : ∀ (s : RingQueue T) (q : Queue T) (a : Act T) (s' : RingQueue T), Refines size s q →
      s.step size a = some s' →
      ∃ bs q', exec (Queue.step (size - 1)) q bs = some q' ∧ Refines size s' q' := by
    intro s q a s' hr hs
    rcases hr.step hs with hr' | ⟨q', hq, hr'⟩
    · exact ⟨[], q, rfl, hr'⟩
    · exact ⟨[a], q', by simp [hq], hr'⟩
  obtain ⟨bs, q, hbs, hr⟩ := exec_simulation hstep (refines_init h) has
  exact ⟨q, ⟨bs, hbs⟩, hr⟩

/-- The slots that hold an object. -/
def RingQueue.constructed (size : Nat) (s : RingQueue T) : Nat :=
  (List.range size).countP fun k => !(s.slots k).isRaw

theorem RefinesAt.constructed_lt (h : RefinesAt size R s q) : s.constructed size < size := by
  have hlen : (cells s.reading.frontCell q.pq ++
      s.writing.backCells s.ctl.producer.trying).length < size := by
    have hroom := h.holds.room
    have hw := h.writing
    rw [List.length_append, cells_length]
    cases hst : s.writing with
    | store cw =>
      rw [hst] at hw
      have := hw.2
      have hback : (WriteStage.backCells (.store cw) s.ctl.producer.trying).length ≤ 1 := by
        cases s.ctl.producer.trying <;> simp [WriteStage.backCells]
      omega
    | _ => simpa [WriteStage.backCells] using hroom
  obtain ⟨k, hk, hraw⟩ := h.holds.slots.exists_free hlen
  have hle : s.constructed size ≤ size := by
    have := List.countP_le_length (p := fun k => !(s.slots k).isRaw) (l := List.range size)
    rwa [List.length_range] at this
  have hne : s.constructed size ≠ size := by
    intro he
    have hall := List.countP_eq_length.1 (he.trans List.length_range.symm) k (List.mem_range.2 hk)
    simp [hraw, Slot.isRaw] at hall
  omega

/-- The tasks of completed reads are a prefix of those passed to `write`, no slot is touched out
of turn, and one slot is always free. -/
theorem ring_delivers (h2 : 2 ≤ size) (hs : Reachable (RingQueue.step size) .init s) :
    s.ctl.returned <+: s.ctl.passed ∧ s.fault = false ∧ s.constructed size ≤ size - 1 := by
  obtain ⟨q, hq, R, hr⟩ := refines_run (by omega) hs
  have horder : InOrder q := hq.invariant (fun _ _ _ h hs => h.step hs) rfl
  have hlt := hr.constructed_lt
  refine ⟨?_, hr.holds.noFault, by omega⟩
  rw [hr.ctl, horder, List.append_assoc, List.append_assoc]
  exact List.prefix_append _ _

/-- Three tasks for a ring of two slots: the second finds it full, and its producer sleeps until the
first is read; the third is in its slot, not yet published. -/
def deliverThree : List (Act Nat) :=
  .write 7 :: List.replicate 5 .producer ++ .write 8 :: List.replicate 6 .producer ++
    .read :: List.replicate 6 .consumer ++ List.replicate 7 .producer ++
    .read :: List.replicate 6 .consumer ++ .write 9 :: List.replicate 3 .producer

theorem ring_delivers_three :
    [7, 8] <+: ((exec (RingQueue.step 2) .init deliverThree).getD .init).ctl.passed ∧
      ((exec (RingQueue.step 2) .init deliverThree).getD .init).fault = false ∧
      ((exec (RingQueue.step 2) .init deliverThree).getD .init).constructed 2 ≤ 2 - 1 :=
  ring_delivers (s := (exec (RingQueue.step 2) .init deliverThree).getD .init) (by decide)
    ⟨deliverThree, rfl⟩

end LittleLearning.Repo
