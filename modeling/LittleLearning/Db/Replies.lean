import LittleLearning.Db.Append
import LittleLearning.Db.Drain

/-!
# What a client gets to read

Three things come between what the worker says and what the sockets carry: a get
that replaces an output, a reply that is written in part, and an append while
`reply` has the output in hand. In a run without them (`Gentle`) every byte said
to an fd is sent or still in its output, once and in order; so what the sockets
carry are the replies of the tasks served one after the other.
-/

namespace LittleLearning.Db

open Cxx Transition

/-- The fd `reply` is about to write to. -/
def Io.flushing : Io → Option Int
  | .flush fd => some fd
  | _ => none

/-- The fd whose output `reply` has written and may be about to clear. -/
def Io.replied : Io → Option Int
  | .settle fd (.wrote _) | .clear fd => some fd
  | _ => none

/-- Of an output of `size` bytes under `fd`, how many the event loop has in hand. -/
def Io.held (io : Io) (fd : Int) (size : Nat) : Nat :=
  match io with
  | .settle fd' (.wrote n) | .reSettle fd' (.wrote n) => if fd' = fd then n else 0
  | .clear fd' => if fd' = fd then size else 0
  | _ => 0

namespace Server

open Event

variable {s s' : Server} {a : Act} {tr : List Event} {fd : Int}

/-- The step is none of the three that lose or repeat bytes: a reply is written whole, nothing is
said to an fd while `reply` has its output in hand, and a get finds the output empty. -/
def Gentle (s : Server) : Act → Prop
  | .io (.wrote n) => ∀ fd ∈ s.io.flushing, n = (s.output fd).length
  | .worker ok _ => (∀ fd ∈ s.worker.answering, s.io.replied ≠ some fd) ∧
      (ok = true → ∀ fd ∈ s.worker.getting, s.output fd = [] ∧ s.io.replied ≠ some fd)
  | _ => True

instance (s : Server) : DecidablePred (Gentle s)
  | .io (.wrote n) => inferInstanceAs (Decidable (∀ fd ∈ s.io.flushing, n = (s.output fd).length))
  | .worker ok _ => inferInstanceAs (Decidable ((∀ fd ∈ s.worker.answering, _) ∧
      (ok = true → ∀ fd ∈ s.worker.getting, s.output fd = [] ∧ _)))
  | .io .again | .io .error | .accept _ _ | .input _ _ | .notified | .writable _ => .isTrue trivial

/-- The bytes at the front of the output under `fd` that were written and not yet taken out. -/
def held (s : Server) (fd : Int) : Nat := s.io.held fd (s.output fd).length

/-- Every byte said was sent or is in the output, in this order. -/
structure Balanced (s : Server) (tr : List Event) : Prop where
  bytes : ∀ fd, saidTo fd tr = sentTo fd tr ++ (s.outputBytes fd).drop (s.held fd)
  whole : ∀ fd n, s.io = .settle fd (.wrote n) → n = (s.output fd).length
  part : ∀ fd n, s.io = .reSettle fd (.wrote n) → n ≤ (s.output fd).length

theorem balanced_init : Balanced init [] where
  bytes _ := rfl
  whole _ _ h := by cases h
  part _ _ h := by cases h

theorem EmptyHanded.held {io : Io} (h : EmptyHanded fd io) (size : Nat) : io.held fd size = 0 := by
  cases io with
  | settle fd' st =>
    cases st with
    | wrote n => simp [Io.held, show fd' ≠ fd from fun he => h.settle n (by rw [he])]
    | _ => rfl
  | reSettle fd' st =>
    cases st with
    | wrote n => simp [Io.held, show fd' ≠ fd from fun he => h.reSettle n (by rw [he])]
    | _ => rfl
  | clear fd' => simp [Io.held, show fd' ≠ fd from fun he => h.clear (by rw [he])]
  | _ => rfl

/-- A step that says and sends nothing, and changes no output. -/
theorem Balanced.keep (h : Balanced s tr) {os : List Event} (hsaid : said os = [])
    (hsent : ∀ fd, sentTo fd os = []) (hout : ∀ fd, s'.output fd = s.output fd)
    (hio : s'.io = s.io ∨ (∀ fd, s.held fd = 0) ∧ ∀ fd, EmptyHanded fd s'.io) :
    Balanced s' (tr ++ os) where
  bytes fd := by
    have hheld : s'.held fd = s.held fd := by
      rcases hio with hio | hio
      · rw [held, held, hio, hout]
      · rw [hio.1, held, (hio.2 fd).held]
    have hto : saidTo fd os = [] := by rw [saidTo, hsaid]; rfl
    rw [saidTo_append, sentTo_append, hto, hsent, List.append_nil, List.append_nil, h.bytes,
      outputBytes, outputBytes, hout, hheld]
  whole fd n hn := by
    rw [hout]
    rcases hio with hio | hio
    · exact h.whole fd n (hio ▸ hn)
    · exact absurd hn ((hio.2 fd).settle n)
  part fd n hn := by
    rw [hout]
    rcases hio with hio | hio
    · exact h.part fd n (hio ▸ hn)
    · exact absurd hn ((hio.2 fd).reSettle n)

theorem Balanced.held_le (h : Balanced s tr) (fd : Int) : s.held fd ≤ (s.output fd).length := by
  unfold held
  cases hio : s.io with
  | settle fd' st =>
    cases st with
    | wrote n =>
      by_cases he : fd' = fd
      · subst he
        simp [Io.held, h.whole fd' n hio]
      · simp [Io.held, he]
    | _ => exact Nat.zero_le _
  | reSettle fd' st =>
    cases st with
    | wrote n =>
      by_cases he : fd' = fd
      · subst he
        simpa [Io.held] using h.part fd' n hio
      · simp [Io.held, he]
    | _ => exact Nat.zero_le _
  | clear fd' =>
    by_cases he : fd' = fd
    · simp [Io.held, he]
    · simp [Io.held, he]
  | _ => exact Nat.zero_le _

/-- What is said comes to the end of what is there. -/
theorem Balanced.produce (h : Balanced s tr) {task : Task} {text : Bytes} {w : Worker}
    {os : List Event} (hcl : s.clients task.fd ≠ none)
    (hio : s.io.replied ≠ some task.fd)
    (hsaid : said os = [(task, text)]) (hsent : ∀ fd, sentTo fd os = []) :
    Balanced ((s.setOutput task.fd (s.output task.fd ++ produced task text)).work w)
      (tr ++ os) := by
  generalize ht : (s.setOutput task.fd (s.output task.fd ++ produced task text)).work w = t
  have htio : t.io = s.io := by simp [← ht, work]
  have hself : t.output task.fd = s.output task.fd ++ produced task text := by
    rw [← ht]
    exact output_setOutput hcl
  have hother : ∀ fd, fd ≠ task.fd → t.output fd = s.output fd := fun fd hne => by
    rw [← ht]
    exact output_setOutput_ne hne
  have hlen : s.held task.fd = s.io.held task.fd (t.output task.fd).length := by
    unfold held
    cases hcase : s.io with
    | clear fd' =>
      have he : fd' ≠ task.fd := fun he => hio (by rw [hcase, he]; rfl)
      simp [Io.held, he]
    | settle fd' st | reSettle fd' st => cases st <;> rfl
    | _ => rfl
  refine ⟨fun fd => ?_, fun fd n hn => ?_, fun fd n hn => ?_⟩
  · have hheld : t.held fd = s.io.held fd (t.output fd).length := by rw [held, htio]
    rw [saidTo_append, sentTo_append, hsent, List.append_nil, h.bytes, hheld]
    by_cases he : fd = task.fd
    · subst he
      have hto : saidTo task.fd os = text := by simp [saidTo, hsaid]
      have hbytes : t.outputBytes task.fd = s.outputBytes task.fd ++ text := by
        simp [outputBytes, hself, produced, Function.comp_def]
      have hle : s.held task.fd ≤ (s.outputBytes task.fd).length := by
        rw [outputBytes, List.length_map]
        exact h.held_le task.fd
      rw [hto, ← hlen, hbytes, List.drop_append_of_le_length hle, List.append_assoc]
    · have hto : saidTo fd os = [] := by simp [saidTo, hsaid, Ne.symm he]
      rw [hto, List.append_nil, held, outputBytes, outputBytes, hother fd he]
  · rw [htio] at hn
    by_cases he : fd = task.fd
    · exact absurd (by rw [hn, he]; rfl) hio
    · rw [hother fd he]
      exact h.whole fd n hn
  · rw [htio] at hn
    have hle := h.part fd n hn
    by_cases he : fd = task.fd
    · subst he
      rw [hself, List.length_append]
      omega
    · rwa [hother fd he]

/-- A write takes from the output what it then has in hand. -/
theorem Balanced.wrote (h : Balanced s tr) {fd : Int} {n : Nat} {next : Io}
    {wire : List (ConnId × OutByte)}
    (hio : s.io = .flush fd ∧ next = .settle fd (.wrote n) ∨
      s.io = .reFlush fd ∧ next = .reSettle fd (.wrote n))
    (hn : n ≤ (s.output fd).length) (hwhole : s.io = .flush fd → n = (s.output fd).length) :
    Balanced { s with wire := wire, io := next } (tr ++ s.observe (.io (.wrote n))) := by
  have hos : s.observe (.io (.wrote n)) = [.sent fd ((s.outputBytes fd).take n)] := by
    obtain ⟨hio, -⟩ | ⟨hio, -⟩ := hio <;> simp [observe, hio]
  have hbefore : ∀ fd', s.held fd' = 0 := by
    intro fd'
    obtain ⟨hio, -⟩ | ⟨hio, -⟩ := hio <;> rw [held, hio] <;> rfl
  have hafter : ∀ fd' size, next.held fd' size = if fd = fd' then n else 0 := by
    intro fd' size
    obtain ⟨-, rfl⟩ | ⟨-, rfl⟩ := hio <;> rfl
  rw [hos]
  refine ⟨fun fd' => ?_, fun fd' m hm => ?_, fun fd' m hm => ?_⟩
  · have hnow : ({ s with wire := wire, io := next } : Server).held fd' =
        if fd = fd' then n else 0 := hafter fd' _
    have hsaid : saidTo fd' [.sent fd ((s.outputBytes fd).take n)] = [] := rfl
    rw [saidTo_append, sentTo_append, h.bytes, hbefore, hnow, hsaid, List.append_nil]
    by_cases he : fd = fd'
    · subst he
      rw [if_pos rfl, List.append_assoc]
      have hsent : sentTo fd [.sent fd ((s.outputBytes fd).take n)] =
          (s.outputBytes fd).take n := by
        simp [sentTo]
      rw [hsent]
      exact congrArg _ (List.take_append_drop n (s.outputBytes fd)).symm
    · rw [if_neg he]
      have hsent : sentTo fd' [.sent fd ((s.outputBytes fd).take n)] = [] := by simp [sentTo, he]
      rw [hsent, List.append_nil]
      rfl
  · obtain ⟨hio, rfl⟩ | ⟨-, rfl⟩ := hio
    · cases hm
      exact hwhole hio
    · cases hm
  · obtain ⟨-, rfl⟩ | ⟨-, rfl⟩ := hio
    · cases hm
    · cases hm
      exact hn

/-- What is in hand is taken out, and no more of anything is. -/
theorem Balanced.takeOut (h : Balanced s tr) {io : Io} (hcl : s.clients fd ≠ none)
    (hother : ∀ fd', fd' ≠ fd → s.held fd' = 0) (hio : ∀ fd', EmptyHanded fd' io) :
    Balanced ((s.setOutput fd ((s.output fd).drop (s.held fd))).goto io) tr := by
  generalize ht : (s.setOutput fd ((s.output fd).drop (s.held fd))).goto io = t
  have htio : t.io = io := by rw [← ht]; rfl
  refine ⟨fun fd' => ?_, fun fd' n hn => ?_, fun fd' n hn => ?_⟩
  · have hheld : t.held fd' = 0 := by rw [held, htio, (hio fd').held]
    rw [h.bytes, hheld, List.drop_zero]
    by_cases he : fd' = fd
    · subst he
      have hout : t.output fd' = (s.output fd').drop (s.held fd') := by
        rw [← ht]
        exact output_setOutput hcl
      rw [outputBytes, outputBytes, hout, List.map_drop]
    · have hout : t.output fd' = s.output fd' := by
        rw [← ht]
        exact output_setOutput_ne he
      rw [outputBytes, outputBytes, hout, hother fd' he, List.drop_zero]
  · rw [htio] at hn
    exact absurd hn ((hio fd').settle n)
  · rw [htio] at hn
    exact absurd hn ((hio fd').reSettle n)

/-- A step that leaves the outputs aside says and sends nothing. -/
theorem observe_aside (ha : s.Aside a) :
    said (s.observe a) = [] ∧ ∀ fd, sentTo fd (s.observe a) = [] := by
  unfold observe
  cases a with
  | input fd data =>
    by_cases hcl : (s.clients fd).isSome = true <;> simp [hcl, said, sentTo]
  | io st =>
    simp only [Aside] at ha
    cases hio : s.io with
    | flush | reFlush =>
      cases st with
      | wrote n => simp [hio] at ha
      | _ => exact ⟨rfl, fun _ => rfl⟩
    | _ => exact ⟨rfl, fun _ => rfl⟩
  | worker ok value =>
    refine ⟨?_, (worker_events s ok value).2⟩
    simp only [Aside] at ha
    cases hw : s.worker with
    | idle => cases s.queue <;> rfl
    | start task =>
      simp only
      split <;> rfl
    | exec task st =>
      simp only [hw] at ha ⊢
      split
      · rename_i key st' hf
        rw [if_neg fun h => ha h.2 h.1 key st' hf]
        rfl
      · rfl
    | finish task good => simp [hw] at ha
    | notify task => rfl
  | _ => exact ⟨rfl, fun _ => rfl⟩

/-- `reply` is about to clear what it has in hand. -/
theorem Balanced.settleAll (h : Balanced s tr)
    (hio : s.io = .settle fd (.wrote (s.output fd).length)) :
    Balanced (s.goto (.clear fd)) tr := by
  refine ⟨fun fd' => ?_, fun _ _ hn => (by cases hn), fun _ _ hn => (by cases hn)⟩
  have hheld : (s.goto (.clear fd)).held fd' = s.held fd' := by
    rw [held, held, hio]
    by_cases he : fd = fd'
    · subst he
      rfl
    · simp [Server.goto, Io.held, he]
  rw [h.bytes, hheld]
  rfl

theorem balanced_step (s : Server) (tr : List Event) (a : Act) (s' : Server) (hk : Known s)
    (h : Balanced s tr) (hg : Gentle s a) (hs : s.step a = some s') :
    Balanced s' (tr ++ s.observe a) := by
  have hexec : ∀ {task : Task}, s.worker.tasks = [(task, .executing)] →
      s.clients task.fd ≠ none := fun hw =>
    hk.tasks _ .executing (mem_tasks.2 (.inr (by rw [hw]; exact List.mem_singleton_self _)))
  cases (step_cases hs).touch with
  | aside a s' ha _ hout hio =>
    obtain ⟨hsaid, hsent⟩ := observe_aside ha
    exact h.keep hsaid hsent hout (hio.imp_right fun hio => ⟨fun fd => (hio.1 fd).held _, hio.2⟩)
  | wrote fd conn n next hio _ hn =>
    exact h.wrote hio hn fun hflush => by
      simpa [Gentle, hflush, Io.flushing] using hg
  | dropped st s' fd n hr _ hout hidle =>
    obtain ⟨hio, hne⟩ | ⟨hio, rfl⟩ := hr
    · exact absurd (h.whole fd n hio) hne
    · have hos : s.observe (.io st) = [] := by simp [observe, hio]
      rw [hos]
      refine h.keep rfl (fun _ => rfl) hout (.inr ⟨fun fd' => ?_, fun _ => ?_⟩)
      · rw [held, hio]
        simp [Io.held]
      · exact hidle ▸ emptyHanded trivial
  | settleAll st fd hio =>
    have hos : s.observe (.io st) = [] := by simp [observe, hio]
    rw [hos, List.append_nil]
    exact h.settleAll hio
  | clear st fd hio =>
    have hos : s.observe (.io st) = [] := by simp [observe, hio]
    have hall : (s.output fd).drop (s.held fd) = [] := by
      rw [held, hio]
      simp [Io.held]
    rw [hos, List.append_nil, ← hall]
    exact h.takeOut (hk.sending fd (.inl (by rw [hio]; rfl))) (fun fd' he => by
      rw [held, hio]
      exact if_neg he.symm) (fun _ => emptyHanded trivial)
  | erase st fd n hio =>
    have hos : s.observe (.io st) = [] := by simp [observe, hio]
    have hheld : s.held fd = n := by
      rw [held, hio]
      exact if_pos rfl
    rw [hos, List.append_nil, ← hheld]
    exact h.takeOut (hk.sending fd (.inl (by rw [hio]; rfl))) (fun fd' he => by
      rw [held, hio]
      exact if_neg he.symm) (fun _ => emptyHanded trivial)
  | got value key task st st' hw hst hf =>
    have hos : s.observe (.worker true value) = [.got task value] := by
      simp [observe, hw, hf, hst]
    obtain ⟨hempty, hio⟩ : s.output task.fd = [] ∧ s.io.replied ≠ some task.fd := by
      simpa [Gentle, hw, hf, Worker.answering, Worker.getting] using hg
    have hproduce : Balanced ((s.setOutput task.fd (s.output task.fd ++
        produced task (value ++ [lf]))).work (.exec task (st' + 1))) (tr ++ [.got task value]) :=
      h.produce (hexec (by rw [hw]; rfl)) hio rfl (fun _ => rfl)
    rw [hempty, List.nil_append] at hproduce
    rw [hos]
    exact hproduce
  | answer _ good _ task hw =>
    have hos : ∀ ok value, s.observe (.worker ok value) = [.answer task good] := by
      simp [observe, hw]
    have hio : s.io.replied ≠ some task.fd := by
      simpa [Gentle, hw, Worker.answering, Worker.getting] using hg
    rw [hos]
    exact h.produce (hexec (by rw [hw]; rfl)) hio rfl (fun _ => rfl)

/-! ### Over whole runs -/

variable {as : List Act}

theorem balanced_run {D : Type} {db : LevelDb D} {d₀ d : D}
    (hg : Along (stepOn db) (fun p a => Gentle p.1 (answered db p a).1) (init, d₀) as)
    (hr : exec (stepOn db) (init, d₀) as = some (s, d)) : Balanced s (traceOn db d₀ as) := by
  refine (invariant_emitted_along (I := fun p tr => Known p.1 ∧ Balanced p.1 tr)
    (fun p tr a p' h hg hs => ?_) ⟨known_init, balanced_init⟩ hg hr).2
  obtain ⟨hstep, -⟩ := stepOn_eq_some.1 hs
  exact ⟨h.1.step hstep, balanced_step _ tr _ _ h.1 h.2 hg hstep⟩

/-- In a gentle run on such a database, what was sent to an fd and what is left to send are what a
plain map, given the tasks one after the other, replies to those of that fd. -/
theorem replies_in_order {D : Type} {db : LevelDb D} {contents : D → Bytes → Option Bytes}
    {d₀ d : D} (hdb : db.Healthy contents)
    (hg : Along (stepOn db) (fun p a => Gentle p.1 (answered db p a).1) (init, d₀) as)
    (hr : exec (stepOn db) (init, d₀) as = some (s, d)) (hidle : s.worker.holds = []) :
    ∃ out, serial LevelDb.ofMap id (ended (traceOn db d₀ as)) (contents d₀) =
        some (out, contents d) ∧
      ∀ fd, sentTo fd (traceOn db d₀ as) ++ (s.outputBytes fd).drop (s.held fd) =
        (out.filter (·.1.fd = fd)).flatMap Prod.snd :=
  ⟨_, served_map hdb hr hidle, fun fd => ((balanced_run hg hr).bytes fd).symm⟩

/-- A request, its answer and the reply. -/
def replyRun : List Act :=
  [.accept 10 false, .input 10 (ascii "set k v\n"), .io .again] ++
    List.replicate 6 (.worker false []) ++
    [.notified, .io .again, .io (.wrote 4), .io .again, .io .again]

theorem replies_in_order_set : ∃ s d,
    exec (stepOn LevelDb.ofMap) (init, fun _ => none) replyRun = some (s, d) ∧
    ∃ out, serial LevelDb.ofMap id [⟨10, [ascii "set", ascii "k", ascii "v"], 0⟩] (fun _ => none) =
      some (out, d) ∧ ascii "OK!\n" ++ (s.outputBytes 10).drop (s.held 10) =
        (out.filter (·.1.fd = 10)).flatMap Prod.snd := by
  have hrun : (exec (stepOn LevelDb.ofMap) (init, fun _ => none) replyRun).map
      (·.1.worker.holds) = some [] := by decide +kernel
  have hg : Along (stepOn LevelDb.ofMap) (fun p a => Gentle p.1 (answered LevelDb.ofMap p a).1)
      (init, fun _ => none) replyRun := by decide +kernel
  have htrace : ended (traceOn LevelDb.ofMap (fun _ => none) replyRun) =
        [⟨10, [ascii "set", ascii "k", ascii "v"], 0⟩] ∧
      sentTo 10 (traceOn LevelDb.ofMap (fun _ => none) replyRun) = ascii "OK!\n" := by
    decide +kernel
  obtain ⟨⟨s, d⟩, hs, hw⟩ := Option.map_eq_some_iff.1 hrun
  obtain ⟨out, hserial, hsent⟩ := replies_in_order LevelDb.ofMap_healthy hg hs hw
  rw [htrace.1] at hserial
  have hfd := hsent 10
  rw [htrace.2] at hfd
  exact ⟨s, d, hs, out, hserial, hfd⟩

end Server

end LittleLearning.Db
