import LittleLearning.Db.Events

/-!
# What a header line can do to the server

A header line that is no numeral ends the server, one that asks for no argument
makes a command without words. Both happen exactly then: `no_crash_iff` and
`commands_nonempty_iff` say so of every run of read events.
-/

namespace LittleLearning.Db

open Cxx Relation Transition

namespace Client

variable {ω : Type} {c d e c' : Client ω} {q : Nat} {data : Bytes}

/-! ### Texts handed to `stoi` -/

/-- The texts `parseBulkQuery` converts: of the line with the number of arguments, and of every
line with a length that the rounds get to. -/
inductive HeaderText (c : Client ω) : Bytes → Prop where
  | count {p : Nat} : c.multiBulkCnt = 0 → FirstAt c.queryBuff lf 0 p → 1 < p →
      HeaderText c (countText c.queryBuff p)
  | len {d e : Client ω} {q p : Nat} : Entry c d → d.qryPos < c.queryBuff.length →
      ReflTransGen Round d e → 0 < e.multiBulkCnt → e.bulkLen = -1 → e.qryPos = q →
      FirstAt e.queryBuff lf q p → q + 1 < p → HeaderText c (lenText e.queryBuff q p)

theorem stoi_error_iff {s : Bytes} : (∃ ex, stoi s = .error ex) ↔ ¬ ∃ z, Numeral s z := by
  simp only [← stoi_eq_ok_iff]
  cases stoi s <;> simp

theorem countOf_error_iff {buf : Bytes} {p : Nat} : (∃ ex, countOf buf p = .error ex) ↔
    1 < p ∧ ¬ ∃ z, Numeral (countText buf p) z := by
  rw [← stoi_error_iff, countOf]
  split <;> simp [*]

theorem lenOf_error_iff {buf : Bytes} {q p : Nat} : (∃ ex, lenOf buf q p = .error ex) ↔
    q + 1 < p ∧ ¬ ∃ z, Numeral (lenText buf q p) z := by
  rw [← stoi_error_iff, lenOf]
  split <;> simp [*]

theorem parseBulkQuery_error_iff (hc : c.Placed q) : (∃ ex, c.parseBulkQuery = .error ex) ↔
    ∃ text, HeaderText c text ∧ ¬ ∃ z, Numeral text z := by
  simp only [parseBulkQuery_eq_iff hc]
  constructor
  · rintro ⟨ex, hend⟩
    generalize hr : (.error ex : Except StdException (Int × Client ω)) = r at hend
    cases hend with
    | badCount hcnt hp hbad =>
      obtain ⟨hlt, hnum⟩ := countOf_error_iff.1 ⟨_, hbad⟩
      exact ⟨_, .count hcnt hp hlt, hnum⟩
    | loop hentry hlt hrounds hstop =>
      cases hstop with
      | bad hcnt hlen hq hp hbad =>
        obtain ⟨hlong, hnum⟩ := lenOf_error_iff.1 ⟨_, hbad⟩
        exact ⟨_, .len hentry hlt hrounds hcnt hlen hq hp hlong, hnum⟩
      | _ => cases hr
    | _ => cases hr
  · rintro ⟨text, htext, hnum⟩
    cases htext with
    | count hcnt hp hlt =>
      obtain ⟨ex, hbad⟩ := countOf_error_iff.2 ⟨hlt, hnum⟩
      exact ⟨ex, .badCount hcnt hp hbad⟩
    | len hentry hlt hrounds hcnt hlen hq hp hlong =>
      obtain ⟨ex, hbad⟩ := lenOf_error_iff.2 ⟨hlong, hnum⟩
      exact ⟨ex, .loop hentry hlt hrounds (.bad hcnt hlen hq hp hbad)⟩

/-! ### Commands without words -/

theorem rounds_paras (h : ReflTransGen Round c d) :
    (d.paras.length : Int) + d.multiBulkCnt = c.paras.length + c.multiBulkCnt := by
  induction h with
  | refl => rfl
  | tail _ hround ih =>
    rw [← ih]
    cases hround with
    | take =>
      simp only [List.length_append, List.length_singleton]
      omega

/-- The first line is there, it asks for no argument, and a byte follows it. -/
def ZeroCount (c : Client ω) : Prop :=
  c.multiBulkCnt = 0 ∧
    ∃ p, FirstAt c.queryBuff lf 0 p ∧ countOf c.queryBuff p = .ok 0 ∧ p + 1 < c.queryBuff.length

theorem ZeroCount.parseBulkQuery (h : c.ZeroCount) (hc : c.Tidy) :
    ∃ c', c.parseBulkQuery = .ok (0, c') ∧ c'.paras = [] := by
  obtain ⟨q, hq⟩ := hc.placed
  obtain ⟨hcnt, p, hp, hzero, hlt⟩ := h
  refine ⟨_, (parseBulkQuery_eq_iff hq).2 (.loop (.line hcnt hp hzero) ?_ .refl (.done ?_)), ?_⟩
  · show ((p + 1 : Nat) : Int) < c.queryBuff.length
    omega
  · exact Int.le_refl 0
  · exact hc.empty hcnt

theorem Tidy.zeroCount (h : c.Tidy) (hr : c.parseBulkQuery = .ok (0, c')) (hnil : c'.paras = []) :
    c.ZeroCount := by
  obtain ⟨q, hq⟩ := h.placed
  obtain ⟨d, b, hentry, hlt, hrounds, hzero, rfl⟩ := parseBulkQuery_taken hq hr
  simp only at hnil
  -- no argument was read, so none was asked for
  have hsum := rounds_paras hrounds
  rw [hnil, hzero, List.length_nil] at hsum
  obtain rfl : b = d := rounds_eq hrounds (by omega)
  cases hentry with
  | known hcnt => exact absurd hzero hcnt
  | line hcnt hp hok =>
    simp only at hzero hlt
    subst hzero
    exact ⟨hcnt, _, hp, hok, by omega⟩

theorem Tidy.parseQuery_nonempty (h : c.Tidy) (h2 : c.qryType ≠ 2)
    (hr : c.parseQuery = .ok (0, c')) : c'.paras ≠ [] := by
  obtain ⟨h0, -⟩ | ⟨p, h0, rfl⟩ := h.parseQuery_cases h2 hr
  · cases h0
  · intro hw
    rw [if_pos hw] at h0
    cases h0

/-- A read dispatches a command without words exactly if it completes such a line. -/
theorem Tidy.processInput_empty (h : c.Tidy) (hfits : data.length ≤ queryBuffLen)
    (hroom : c.queryBuff.length + queryBuffLen < 2 ^ 31) :
    (∃ c', c.processInput data = .ok (some [], c')) ↔
      data ≠ [] ∧ (c.arrived data).qryType = 2 ∧ (c.arrived data).ZeroCount := by
  have harrived := h.arrived hfits hroom
  constructor
  · rintro ⟨c', hr⟩
    obtain ⟨d, hquery, hnil, -⟩ := processInput_dispatch.1 hr
    obtain ⟨-, h0, -⟩ | ⟨hdata, h2, hparse⟩ | ⟨-, h2, hparse⟩ := processQuery_cases hquery
    · cases h0
    · exact ⟨hdata, h2, harrived.zeroCount hparse hnil.symm⟩
    · exact absurd hnil.symm (harrived.parseQuery_nonempty h2 hparse)
  · rintro ⟨hdata, h2, hzero⟩
    obtain ⟨d, hr, hnil⟩ := hzero.parseBulkQuery harrived
    refine ⟨_, processInput_dispatch.2 ⟨d, ?_, hnil.symm, rfl⟩⟩
    rw [processQuery_eq hdata, if_pos h2, hr]

end Client

/-! ### Runs -/

namespace Session

variable {s s' : Session} {data : Bytes}

/-- Every header line that the read lets the parser get to is a numeral that fits an `int`. -/
def NumericHeaders (s : Session) (data : Bytes) : Prop :=
  data ≠ [] → (s.client.arrived data).qryType = 2 →
    ∀ text, (s.client.arrived data).HeaderText text → ∃ z, Numeral text z

theorem crashed_event (hs : s.client.Tidy) (h : s.event data = some s') :
    s'.crashed = none ↔ s.crashed = none ∧ s.NumericHeaders data := by
  obtain ⟨hread, hcases⟩ := event_cases h
  obtain ⟨q, hq⟩ := (hs.arrived hread.fits hread.room).placed
  have herror : (∃ ex, s.client.processInput data = .error ex) ↔ ¬ s.NumericHeaders data := by
    simp only [hs.processInput_error hread.fits hread.room, exists_and_left,
      Client.parseBulkQuery_error_iff hq, NumericHeaders, Classical.not_imp, not_forall]
  rcases hcases with ⟨cmd, c, hok, rfl⟩ | ⟨ex, hex, rfl⟩
  · have hnum : s.NumericHeaders data := by
      refine Classical.not_not.1 fun hnot => ?_
      obtain ⟨ex, hex⟩ := herror.2 hnot
      rw [hok] at hex
      cases hex
    simp [hread.running, hnum]
  · have hnum := herror.1 ⟨ex, hex⟩
    simp [hnum]

/-- No exception has ended the server if and only if every header line was a numeral. -/
theorem no_crash_iff {fd : Int} {reads : List Bytes} (h : exec event (start fd) reads = some s) :
    s.crashed = none ↔ Along event NumericHeaders (start fd) reads := by
  have hiff := exec_iff_along (I := fun s => s.client.Tidy) (Q := fun s => s.crashed = none)
    (fun _ _ _ hs h => tidy_event hs h) (fun _ _ _ hs h => crashed_event hs h)
    (Client.tidy_new fd) h
  rw [hiff]
  exact and_iff_right rfl

/-- A request with a parameter of one byte. -/
theorem no_crash_iff_one :
    ∃ s, exec event (start 5) [ascii "*1\r\n$1\r\na\r\n\r\n"] = some s ∧
      (s.crashed = none ↔
        Along event NumericHeaders (start 5) [ascii "*1\r\n$1\r\na\r\n\r\n"]) := by
  obtain ⟨s, hs⟩ := Option.isSome_iff_exists.1
    (show (exec event (start 5) [ascii "*1\r\n$1\r\na\r\n\r\n"]).isSome by decide)
  exact ⟨s, hs, no_crash_iff hs⟩

/-- The four bytes `*a\r\n` end the server. -/
theorem not_no_crash :
    ¬ ∀ (fd : Int) (reads : List Bytes) (s : Session),
      exec event (start fd) reads = some s → s.crashed = none := by
  intro h
  have hex : (exec event (start 5) [ascii "*a\r\n"]).map Session.crashed =
      some (some .invalidArgument) := by decide
  obtain ⟨s, hs, hcrash⟩ := Option.map_eq_some_iff.1 hex
  rw [h 5 _ s hs] at hcrash
  cases hcrash

/-- The read completes a first line that asks for no argument, with a byte behind it. -/
def AsksForNothing (s : Session) (data : Bytes) : Prop :=
  data ≠ [] ∧ (s.client.arrived data).qryType = 2 ∧ (s.client.arrived data).ZeroCount

theorem nonempty_event (hs : s.client.Tidy) (h : s.event data = some s') :
    (∀ cmd ∈ s'.tasks, cmd ≠ []) ↔ (∀ cmd ∈ s.tasks, cmd ≠ []) ∧ ¬ s.AsksForNothing data := by
  obtain ⟨hread, hcases⟩ := event_cases h
  have hempty : (∃ c', s.client.processInput data = .ok (some [], c')) ↔ s.AsksForNothing data :=
    hs.processInput_empty hread.fits hread.room
  rw [← hempty]
  rcases hcases with ⟨cmd, c, hok, rfl⟩ | ⟨ex, hex, rfl⟩
  · rw [hok]
    cases cmd with
    | none => simp
    | some cmd =>
      by_cases hcmd : cmd = []
      · simp [hcmd]
      · simp [hcmd, or_imp, forall_and]
  · simp [hex]

/-- Every command dispatched has a first word if and only if no read completed a request for
nothing. -/
theorem commands_nonempty_iff {fd : Int} {reads : List Bytes}
    (h : exec event (start fd) reads = some s) :
    (∀ cmd ∈ s.tasks, cmd ≠ []) ↔
      Along event (fun s data => ¬ s.AsksForNothing data) (start fd) reads := by
  have hiff := exec_iff_along (I := fun s => s.client.Tidy)
    (Q := fun s => ∀ cmd ∈ s.tasks, cmd ≠ []) (fun _ _ _ hs h => tidy_event hs h)
    (fun _ _ _ hs h => nonempty_event hs h) (Client.tidy_new fd) h
  rw [hiff]
  exact and_iff_right (by simp [start])

/-- An empty inline line, and a request with an empty parameter. -/
theorem commands_nonempty_iff_empty :
    ∃ s, exec event (start 5) [ascii "\r\n", ascii "*1\r\n$0\r\n\r\n\n"] = some s ∧
      ((∀ cmd ∈ s.tasks, cmd ≠ []) ↔ Along event (fun s data => ¬ s.AsksForNothing data) (start 5)
        [ascii "\r\n", ascii "*1\r\n$0\r\n\r\n\n"]) := by
  obtain ⟨s, hs⟩ := Option.isSome_iff_exists.1 (show (exec event (start 5)
    [ascii "\r\n", ascii "*1\r\n$0\r\n\r\n\n"]).isSome by decide)
  exact ⟨s, hs, commands_nonempty_iff hs⟩

/-- `*0` and a byte behind the line: `handleTask` will look for the first of no words. -/
theorem not_commands_nonempty :
    ¬ ∀ (fd : Int) (reads : List Bytes) (s : Session),
      exec event (start fd) reads = some s → ∀ cmd ∈ s.tasks, cmd ≠ [] := by
  intro h
  have hex : (exec event (start 5) [ascii "*0\r\nx"]).map Session.tasks = some [[]] := by decide
  obtain ⟨s, hs, htasks⟩ := Option.map_eq_some_iff.1 hex
  exact h 5 _ s hs [] (by simp [htasks]) rfl

end Session

end LittleLearning.Db
