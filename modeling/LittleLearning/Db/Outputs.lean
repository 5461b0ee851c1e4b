import LittleLearning.Db.Step

/-!
# The outputs

What a step does to the outputs. Most steps do nothing to them (`Aside`). The
others put a part of an output on a connection, take a part of one out, or put
something in (`Touch`). Between the write and what is then taken out a handler
has the count in hand.
-/

namespace LittleLearning.Db

open Cxx

namespace Server

variable {s s' : Server} {a : Act} {fd : Int}

/-! ### Setting a client -/

theorem output_setClient {fd' : Int} {c c' : Client OutByte} (hcl : s.clients fd' = some c)
    (hout : c'.output = c.output) : (s.setClient fd' c').output fd = s.output fd := by
  unfold output setClient
  by_cases he : fd = fd'
  · subst he
    simp [hcl, hout]
  · simp [Function.update_of_ne he]

theorem output_setOutput {out : List OutByte} (h : s.clients fd ≠ none) :
    (s.setOutput fd out).output fd = out := by
  obtain ⟨c, hc⟩ := Option.ne_none_iff_exists'.1 h
  simp [setOutput, output, hc, setClient]

theorem output_setOutput_ne {fd' : Int} {out : List OutByte} (h : fd ≠ fd') :
    (s.setOutput fd' out).output fd = s.output fd := by
  unfold setOutput output
  cases s.clients fd' with
  | none => rfl
  | some c => simp [setClient, Function.update_of_ne h]

theorem output_setOutput_drop (s : Server) (fd : Int) (n : Nat) :
    (s.setOutput fd ((s.output fd).drop n)).output fd = (s.output fd).drop n := by
  by_cases hnone : s.clients fd = none
  · simp [setOutput, output, hnone]
  · exact output_setOutput hnone

theorem setOutput_clients {c : Client OutByte} {out : List OutByte} (h : s.clients fd = some c) :
    (s.setOutput fd out).clients fd = some { c with output := out } := by
  simp [setOutput, h, setClient]

theorem setOutput_clients_ne {fd' : Int} {out : List OutByte} (h : fd ≠ fd') :
    (s.setOutput fd' out).clients fd = s.clients fd := by
  unfold setOutput
  cases s.clients fd' with
  | none => rfl
  | some c => simp [setClient, Function.update_of_ne h]

/-- The client under `fd` stays in the map. -/
theorem Move.client_ne_none (h : Move s a s') (hcl : s.clients fd ≠ none) :
    s'.clients fd ≠ none := by
  have hstep := h.clientStep fd
  generalize s'.clients fd = c' at hstep
  cases hstep with
  | same => exact hcl
  | new => simp
  | changed => simp

/-! ### Steps on the outputs -/

/-- Where the handlers have nothing of the output under `fd` in hand. -/
structure EmptyHanded (fd : Int) (io : Io) : Prop where
  settle : ∀ n, io ≠ .settle fd (.wrote n)
  reSettle : ∀ n, io ≠ .reSettle fd (.wrote n)
  clear : io ≠ .clear fd

theorem emptyHanded {io : Io} (h : match io with
    | .settle _ (.wrote _) | .reSettle _ (.wrote _) | .clear _ => False
    | _ => True) : EmptyHanded fd io := by
  refine ⟨?_, ?_, ?_⟩
  · rintro n rfl
    exact h
  · rintro n rfl
    exact h
  · rintro rfl
    exact h

/-- The step writes nothing of an output, puts nothing into one and takes nothing out. -/
def Aside (s : Server) : Act → Prop
  | .io st =>
    match s.io, st with
    | .flush _, .wrote _ | .reFlush _, .wrote _ | .clear _, _ => False
    | .settle _ (.wrote _), _ | .reSettle _ (.wrote _), _ => False
    | _, _ => True
  | .worker ok _ =>
    match s.worker with
    | .exec task st =>
      ok = true → st < task.cmd.length → ∀ key st', fetch task.cmd st ≠ .call (.get key) st'
    | .finish _ _ => False
    | _ => True
  | _ => True

/-- What a step does to the outputs and to what the handlers have in hand. -/
inductive Touch (s : Server) : Act → Server → Prop where
  | aside (a : Act) (s' : Server) : s.Aside a → s'.wire = s.wire →
      (∀ fd, s'.output fd = s.output fd) →
      s'.io = s.io ∨ (∀ fd, EmptyHanded fd s.io) ∧ (∀ fd, EmptyHanded fd s'.io) → Touch s a s'
  | wrote (fd : Int) (conn : ConnId) (n : Nat) (next : Io) :
      s.io = .flush fd ∧ next = .settle fd (.wrote n) ∨
        s.io = .reFlush fd ∧ next = .reSettle fd (.wrote n) →
      s.conns fd = some conn → n ≤ (s.output fd).length → Touch s (.io (.wrote n))
        { s with wire := s.wire ++ ((s.output fd).take n).map (conn, ·), io := next }
  /-- `reply` leaves a part it has written, and `reReply` gives up where nothing was written. -/
  | dropped (st : WriteResult) (s' : Server) (fd : Int) (n : Nat) :
      s.io = .settle fd (.wrote n) ∧ n ≠ (s.output fd).length ∨
        s.io = .reSettle fd (.wrote n) ∧ n = 0 →
      s'.wire = s.wire → (∀ fd, s'.output fd = s.output fd) → s'.io = .idle → Touch s (.io st) s'
  | settleAll (st : WriteResult) (fd : Int) : s.io = .settle fd (.wrote (s.output fd).length) →
      Touch s (.io st) (s.goto (.clear fd))
  | clear (st : WriteResult) (fd : Int) : s.io = .clear fd →
      Touch s (.io st) ((s.setOutput fd []).goto .idle)
  | erase (st : WriteResult) (fd : Int) (n : Nat) : s.io = .reSettle fd (.wrote n) → 0 < n →
      Touch s (.io st) ((s.setOutput fd ((s.output fd).drop n)).goto (.rePend fd))
  | got (value key : Bytes) (task : Task) (st st' : Nat) : s.worker = .exec task st →
      st < task.cmd.length → fetch task.cmd st = .call (.get key) st' →
      Touch s (.worker true value)
        ((s.setOutput task.fd (produced task (value ++ [lf]))).work (.exec task (st' + 1)))
  | answer (ok good : Bool) (value : Bytes) (task : Task) : s.worker = .finish task good →
      Touch s (.worker ok value)
        ((s.setOutput task.fd (s.output task.fd ++ produced task (answer good))).work
          (.notify task))

/-- Within a handler, with nothing in hand. -/
theorem Touch.handler {st : WriteResult} {io : Io} (hio : s.io = io) (ha : s.Aside (.io st))
    (hio' : ∀ fd, EmptyHanded fd io) (hwire : s'.wire = s.wire)
    (hout : ∀ fd, s'.output fd = s.output fd) (hnext : ∀ fd, EmptyHanded fd s'.io) :
    Touch s (.io st) s' :=
  .aside _ _ ha hwire hout (.inr ⟨fun fd => hio ▸ hio' fd, hnext⟩)

/-- Between two handlers. -/
theorem Touch.event (hio : s.io = .idle) (ha : s.Aside a) (hwire : s'.wire = s.wire)
    (hout : ∀ fd, s'.output fd = s.output fd) (hnext : ∀ fd, EmptyHanded fd s'.io) :
    Touch s a s' :=
  .aside _ _ ha hwire hout (.inr ⟨fun _ => hio ▸ emptyHanded trivial, hnext⟩)

theorem Touch.worker {ok : Bool} {value : Bytes} (ha : s.Aside (.worker ok value))
    (hwire : s'.wire = s.wire) (hout : ∀ fd, s'.output fd = s.output fd) (hio : s'.io = s.io) :
    Touch s (.worker ok value) s' :=
  .aside _ _ ha hwire hout (.inl hio)

theorem Closes.touch {c : Client OutByte} (h : Closes s a fd c) :
    Touch s a (((s.setClient fd c).close fd).goto .idle) := by
  obtain ⟨c₀, hcl, hout, -⟩ := h.client
  have hkeep : ∀ fd', (((s.setClient fd c).close fd).goto .idle).output fd' = s.output fd' :=
    fun _ => output_setClient hcl hout
  cases h with
  | input fd data conn c c' hio => exact .event hio trivial rfl hkeep fun _ => emptyHanded trivial
  | check st value c hio | settle st fd c hio =>
    exact .handler hio (by simp [Aside, hio]) (fun _ => emptyHanded trivial) rfl hkeep
      fun _ => emptyHanded trivial
  | reSettle st fd r c hio hr =>
    rcases hr with rfl | rfl
    · exact .handler hio (by simp [Aside, hio]) (fun _ => emptyHanded trivial) rfl hkeep
        fun _ => emptyHanded trivial
    · exact .dropped st _ fd 0 (.inr ⟨hio, rfl⟩) rfl hkeep rfl

theorem Move.touch (h : Move s a s') : Touch s a s' := by
  cases h with
  | acceptNew fd' garbage hio _ _ _ hnone =>
    refine .event hio trivial rfl (fun fd => ?_) fun _ => hio ▸ emptyHanded trivial
    by_cases he : fd = fd'
    · subst he
      simp [Server.output, hnone, Client.new]
    · simp [Server.output, Function.update_of_ne he]
  | acceptOld | inputNull | inputCrash | writableNull =>
    exact .aside _ _ trivial rfl (fun _ => rfl) (.inl rfl)
  | inputTask fd data conn c c' cmd hio _ hcl hp =>
    exact .event hio trivial rfl (fun _ => output_setClient hcl (Client.processInput_parsed hp).1)
      fun _ => emptyHanded trivial
  | inputWait fd data conn c c' hio _ hcl hp _ =>
    exact .aside _ _ trivial rfl (fun _ => output_setClient hcl (Client.processInput_parsed hp).1)
      (.inl rfl)
  | closes a fd c hcloses => exact hcloses.touch
  | notified hio _ => exact .event hio trivial rfl (fun _ => rfl) fun _ => emptyHanded trivial
  | writable fd c io hio _ _ _ hnext =>
    refine .event hio trivial rfl (fun _ => rfl) fun _ => ?_
    show EmptyHanded _ io
    rw [hnext]
    split <;> exact emptyHanded trivial
  | enqueue st _ hio | checkNull st _ hio | checkQuiet st _ _ hio | checkFlush st _ _ hio
  | rePendNone st _ hio =>
    exact .handler hio (by simp [Aside, hio])
      (fun _ => emptyHanded trivial) rfl (fun _ => rfl) fun _ => emptyHanded trivial
  | wrote fd conn n next hio hconn hn => exact .wrote fd conn n next hio hconn hn
  | notWritten fd st next hnext hst =>
    rcases hnext with ⟨hio, rfl⟩ | ⟨hio, rfl⟩ <;> rcases hst with ⟨rfl, -⟩ | rfl <;>
      exact .handler hio (by simp [Aside, hio])
        (fun _ => emptyHanded trivial) rfl (fun _ => rfl) fun _ => emptyHanded trivial
  | settleAll st fd hio => exact .settleAll st fd hio
  | pend st r fd hr =>
    rcases hr with ⟨hio, herr, hlen⟩ | ⟨hio, rfl⟩ | ⟨hio, -⟩
    · cases r with
      | wrote n =>
        exact .dropped st _ fd n (.inl ⟨hio, fun he => hlen (by rw [he])⟩) rfl (fun _ => rfl) rfl
      | again =>
        exact .handler hio (by simp [Aside, hio])
          (fun _ => emptyHanded trivial) rfl (fun _ => rfl) fun _ => emptyHanded trivial
      | error => exact absurd rfl herr
    all_goals
      exact .handler hio (by simp [Aside, hio])
        (fun _ => emptyHanded trivial) rfl (fun _ => rfl) fun _ => emptyHanded trivial
  | settleNull st fd r hr =>
    rcases hr with hio | ⟨hio, rfl | rfl⟩
    · exact .handler hio (by simp [Aside, hio])
        (fun _ => emptyHanded trivial) rfl (fun _ => rfl) fun _ => emptyHanded trivial
    · exact .handler hio (by simp [Aside, hio])
        (fun _ => emptyHanded trivial) rfl (fun _ => rfl) fun _ => emptyHanded trivial
    · exact .dropped st _ fd 0 (.inr ⟨hio, rfl⟩) rfl (fun _ => rfl) rfl
  | clear st fd hio => exact .clear st fd hio
  | erase st fd n hio hn => exact .erase st fd n hio hn
  | startExit ok value task c hw hcl _ =>
    exact .worker (by simp [Aside, hw]) rfl (fun _ => output_setClient hcl rfl) rfl
  | execGet value key task st st' hw hst hf => exact .got value key task st st' hw hst hf
  | execCall value task st st' cmd hw hst hf hget =>
    refine .worker ?_ rfl (fun _ => rfl) rfl
    simp only [Aside, hw, hf]
    intro _ _ key st'' he
    exact hget key (Fetch.call.inj he).1
  | execEnd ok value task st good hw hend =>
    refine .worker ?_ rfl (fun _ => rfl) rfl
    simp only [Aside, hw]
    rintro rfl hlt key st' hf
    rcases hend with ⟨hst, -⟩ | ⟨-, -, hf' | ⟨hok, -⟩⟩
    · omega
    · rw [hf] at hf'
      cases hf'
    · cases hok
  | execCrash ok value task st hw hst hf =>
    exact .worker (by simp [Aside, hw, hf]) rfl (fun _ => rfl) rfl
  | finish ok good value task hw => exact .answer ok good value task hw
  | take _ _ _ _ hw | startCrash _ _ _ _ hw | startExec _ _ _ _ hw | notify _ _ _ hw
  | notifyFull _ _ _ hw => exact .worker (by simp [Aside, hw]) rfl (fun _ => rfl) rfl

end Server

end LittleLearning.Db
