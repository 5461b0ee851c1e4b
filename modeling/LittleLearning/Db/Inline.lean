import LittleLearning.Db.Client
import Mathlib.Data.List.Infix
import Mathlib.Data.List.TakeWhile

/-!
# Inline lines

`lineWords` is what the two index loops of `parseQuery` compute on the text of
a line, as a function of that text. `joinWords` is the inverse: words with one
space between them, then the end of the line.
-/

namespace LittleLearning.Db

open Cxx

/-- Neither a space nor a CR: the bytes words are made of. -/
def notBlank (b : UInt8) : Bool := b != sp && b != cr

/-- The words of the text of a line, as the loops of `parseQuery` cut it. -/
def lineWords : Bytes → List Bytes
  | [] => []
  | b :: t =>
    if b = sp then lineWords t
    else
      (b :: t).takeWhile notBlank ::
        lineWords ((b :: t).drop (((b :: t).takeWhile notBlank).length + 1))
termination_by t => t.length
decreasing_by all_goals simp [List.length_drop]; try omega

@[simp] theorem lineWords_nil : lineWords [] = [] := by rw [lineWords]

theorem lineWords_sp (t : Bytes) : lineWords (sp :: t) = lineWords t := by
  rw [lineWords, if_pos rfl]

theorem lineWords_cons {b : UInt8} {t : Bytes} (h : b ≠ sp) :
    lineWords (b :: t) = (b :: t).takeWhile notBlank ::
      lineWords ((b :: t).drop (((b :: t).takeWhile notBlank).length + 1)) := by
  rw [lineWords, if_neg h]

/-! ### The loops -/

theorem wordEnd_eq {buf : Bytes} {pos : Nat} (hpos : pos ≤ buf.length) :
    ∀ n j, pos ≤ j + n → j ≤ pos →
      Client.wordEnd buf pos n j = j + (((buf.take pos).drop j).takeWhile notBlank).length := by
  intro n
  induction n with
  | zero =>
    intro j h1 h2
    have : (buf.take pos).drop j = [] := List.drop_eq_nil_of_le (by simp; omega)
    simp [Client.wordEnd, this]
  | succ n ih =>
    intro j h1 h2
    rcases Nat.lt_or_ge j pos with hj | hj
    · have hd : (buf.take pos).drop j = buf[j] :: (buf.take pos).drop (j + 1) := by
        rw [List.drop_eq_getElem_cons (by simp; omega)]
        simp
      simp only [Client.wordEnd, List.getElem?_eq_getElem (show j < buf.length by omega), hj,
        true_and, ne_eq, Option.some.injEq]
      by_cases hb : notBlank buf[j] = true
      · have hb' := hb
        simp only [notBlank, Bool.and_eq_true, bne_iff_ne, ne_eq] at hb'
        rw [if_pos hb', ih (j + 1) (by omega) (by omega), hd, List.takeWhile_cons_of_pos hb]
        simp only [List.length_cons]
        omega
      · have hb' := hb
        simp only [notBlank, Bool.and_eq_true, bne_iff_ne, ne_eq] at hb'
        rw [if_neg hb', hd, List.takeWhile_cons_of_neg hb]
        rfl
    · have : (buf.take pos).drop j = [] := List.drop_eq_nil_of_le (by simp; omega)
      rw [Client.wordEnd, if_neg (by omega), this]
      rfl

/-- The `for` cuts the rest of the line into its words, whatever fuel is left beyond need. -/
theorem wordLoop_eq {buf : Bytes} {pos : Nat} (hpos : buf[pos]? = some lf) (hint : pos < 2 ^ 31) :
    ∀ n i paras, pos ≤ i + n →
      Client.wordLoop buf pos n i paras = .ok (paras ++ lineWords ((buf.take pos).drop i)) := by
  have hlt : pos < buf.length := by
    rcases Nat.lt_or_ge pos buf.length with h | h
    · exact h
    · rw [List.getElem?_eq_none h] at hpos; cases hpos
  have hnil : ∀ i, pos ≤ i → (buf.take pos).drop i = [] := fun i h =>
    List.drop_eq_nil_of_le (by simp; omega)
  intro n
  induction n with
  | zero =>
    intro i paras h
    simp [Client.wordLoop, hnil i (by omega)]
  | succ n ih =>
    intro i paras h
    have hcr : buf[pos]? ≠ some cr := by rw [hpos]; decide
    simp only [Client.wordLoop, int32_natCast hint, Int.ofNat_lt]
    rcases Nat.lt_or_ge i pos with hi | hi
    · rw [if_pos ⟨hi, hcr⟩]
      have hd : (buf.take pos).drop i = buf[i] :: (buf.take pos).drop (i + 1) := by
        rw [List.drop_eq_getElem_cons (by simp; omega)]
        simp
      simp only [List.getElem?_eq_getElem (show i < buf.length by omega), Option.some.injEq]
      by_cases hsp : buf[i] = sp
      · rw [if_pos hsp, ih (i + 1) paras (by omega), hd, hsp, lineWords_sp]
      · rw [if_neg hsp, wordEnd_eq (by omega) pos i (by omega) (by omega)]
        generalize hw : ((buf.take pos).drop i).takeWhile notBlank = w
        -- the word found is the slice the code cuts out
        have hpre : w <+: buf.drop i := by
          rw [← hw]
          exact (List.takeWhile_prefix _).trans (List.IsPrefix.drop (List.take_prefix pos buf) i)
        have hsub : substr buf i (i + w.length - i) = .ok w := by
          rw [substr, if_pos (by omega), Nat.add_sub_cancel_left, ← List.prefix_iff_eq_take.1 hpre]
        rw [hsub]
        simp only [bind, Except.bind]
        rw [ih (i + w.length + 1) _ (by omega), List.append_assoc]
        congr 2
        rw [hd, lineWords_cons hsp, ← hd, hw, List.drop_drop]
        simp only [List.singleton_append]
        congr 2
    · rw [if_neg (by omega), hnil i hi]
      simp

/-- `parseQuery` on a buffer that starts with a whole line. -/
theorem parseQuery_line {ω : Type} {c : Client ω} {text rest : Bytes}
    (hbuf : c.queryBuff = text ++ lf :: rest) (htext : lf ∉ text) (hpos : c.qryPos = 0)
    (hparas : c.paras = []) (hint : text.length < 2 ^ 31) :
    c.parseQuery = .ok (if lineWords text ≠ [] then 0 else -1,
      { c with paras := lineWords text, queryBuff := rest, qryType := 0 }) := by
  have hfind : find c.queryBuff lf (sizeT c.qryPos) = some text.length := by
    have := find_first (p := []) (r := rest) htext
    rw [hbuf, hpos]
    simpa using this
  have hlf : c.queryBuff[text.length]? = some lf := by simp [hbuf]
  unfold Client.parseQuery
  rw [hfind]
  simp only [wordLoop_eq hlf hint text.length 0 c.paras (by omega), bind, Except.bind]
  simp [hbuf, hparas, pure, Except.pure]

/-- `parseQuery` waits for the end of the line. -/
theorem parseQuery_wait {ω : Type} {c : Client ω} (hbuf : lf ∉ c.queryBuff) (hpos : c.qryPos = 0) :
    c.parseQuery = .ok (-1, c) := by
  have hfind : find c.queryBuff lf (sizeT c.qryPos) = none := by
    have := find_of_notMem (p := []) hbuf
    rw [hpos]
    simpa using this
  unfold Client.parseQuery
  rw [hfind]

/-- `parseQuery` on any buffer, with nothing parsed before. -/
theorem parseQuery_eq {ω : Type} {c : Client ω} (hpos : c.qryPos = 0) (hparas : c.paras = [])
    (hsize : c.queryBuff.length < 2 ^ 31) :
    c.parseQuery = match find c.queryBuff lf 0 with
      | none => .ok (-1, c)
      | some p => .ok (if lineWords (c.queryBuff.take p) ≠ [] then 0 else -1,
          { c with
            paras := lineWords (c.queryBuff.take p)
            queryBuff := c.queryBuff.drop (p + 1)
            qryType := 0 }) := by
  unfold Client.parseQuery
  rw [hpos, sizeT_zero]
  cases hfind : find c.queryBuff lf 0 with
  | none => rfl
  | some p =>
    obtain ⟨-, hlf, -⟩ := find_eq_some.1 hfind
    have hlt := (find_eq_some.1 hfind).lt_length
    simp only [wordLoop_eq hlf (by omega) p 0 c.paras (by omega), bind, Except.bind]
    simp [hparas, pure, Except.pure]

/-! ### Words joined by single spaces -/

/-- A word of a request: not empty, without space, CR and LF. -/
def IsWord (w : Bytes) : Prop := w ≠ [] ∧ ∀ b ∈ w, b ≠ sp ∧ b ≠ cr ∧ b ≠ lf

instance (w : Bytes) : Decidable (IsWord w) := inferInstanceAs (Decidable (_ ∧ _))

def joinWords (ws : List Bytes) : Bytes := [sp].intercalate ws

theorem joinWords_cons (w v : Bytes) (ws : List Bytes) :
    joinWords (w :: v :: ws) = w ++ sp :: joinWords (v :: ws) := by
  simp [joinWords, List.intercalate, List.intersperse]

theorem IsWord.notBlank {w : Bytes} (h : IsWord w) : ∀ b ∈ w, notBlank b = true := by
  intro b hb
  simp [Db.notBlank, (h.2 b hb).1, (h.2 b hb).2.1]

theorem lineWords_word {w t : Bytes} (h : IsWord w) (ht : ∀ b ∈ t.head?, notBlank b = false) :
    lineWords (w ++ t) = w :: lineWords (t.drop 1) := by
  obtain ⟨b, v, rfl⟩ := List.exists_cons_of_ne_nil h.1
  have htake : (b :: v ++ t).takeWhile notBlank = b :: v := by
    rw [List.takeWhile_append_of_pos h.notBlank]
    cases t with
    | nil => simp
    | cons x t => simp [ht x (by simp)]
  have hb : b ≠ sp := (h.2 b (by simp)).1
  rw [List.cons_append, lineWords_cons hb, ← List.cons_append, htake, ← List.drop_drop,
    List.drop_left]

/-- The text of a well-formed line is cut back into its words, with or without a final CR. -/
theorem lineWords_joinWords {e : Bytes} (he : e = [] ∨ e = [cr]) :
    ∀ {ws : List Bytes}, ws ≠ [] → (∀ w ∈ ws, IsWord w) → lineWords (joinWords ws ++ e) = ws
  | [w], _, h => by
    have hw := h w (by simp)
    have : ∀ b ∈ e.head?, notBlank b = false := by
      rcases he with rfl | rfl
      · simp
      · simp
        decide
    have hjoin : joinWords [w] = w := by simp [joinWords]
    rw [hjoin, lineWords_word hw this]
    rcases he with rfl | rfl <;> simp
  | w :: v :: ws, _, h => by
    have hw := h w (by simp)
    rw [joinWords_cons, List.append_assoc, lineWords_word hw (by simp; decide)]
    simp only [List.cons_append, List.drop_succ_cons, List.drop_zero]
    rw [lineWords_joinWords he (by simp) fun x hx => h x (by simp [hx])]

theorem joinWords_ne_nil : ∀ {ws : List Bytes}, ws ≠ [] → (∀ w ∈ ws, IsWord w) → joinWords ws ≠ []
  | [w], _, h => by simpa [joinWords] using (h w (by simp)).1
  | w :: v :: ws, _, _ => by simp [joinWords_cons]

theorem lf_notMem_joinWords {ws : List Bytes} (h : ∀ w ∈ ws, IsWord w) : lf ∉ joinWords ws := by
  induction ws with
  | nil => simp [joinWords]
  | cons w ws ih =>
    have hw : lf ∉ w := fun hm => ((h w (by simp)).2 lf hm).2.2 rfl
    cases ws with
    | nil => simpa [joinWords] using hw
    | cons v ws =>
      rw [joinWords_cons]
      have hs : lf ≠ sp := by decide
      simp only [List.mem_append, List.mem_cons, not_or]
      exact ⟨hw, hs, ih fun x hx => h x (by simp [hx])⟩

/-! ### Lines cut at blanks -/

/-- The maximal runs of bytes other than space and CR, in order. -/
def runs (text : Bytes) : List Bytes := (text.splitOnP fun b => !notBlank b).filter (· ≠ [])

/-- A CR that ends no word: alone on the line, or behind a space. -/
def StrayCr (text : Bytes) : Prop := text = [cr] ∨ [sp, cr] <:+ text

instance (text : Bytes) : Decidable (StrayCr text) := inferInstanceAs (Decidable (_ ∨ _))

theorem notBlank_eq_false {b : UInt8} : notBlank b = false ↔ b = sp ∨ b = cr := by
  simp [notBlank, imp_iff_not_or]

theorem runs_word {w : Bytes} (h : IsWord w) : runs w = [w] := by
  rw [runs, List.splitOnP_eq_singleton fun b hb => by simp [h.notBlank b hb]]
  simp [h.1]

theorem runs_append {b : UInt8} (v t : Bytes) (h : notBlank b = false) :
    runs (v ++ b :: t) = runs v ++ runs t := by
  rw [runs, List.splitOnP_append_cons v t (by simp [h]), List.filter_append]
  rfl

theorem suffix_append {v t : Bytes} (h : ∀ b ∈ v, notBlank b = true) :
    [sp, cr] <:+ v ++ sp :: t ↔ StrayCr t := by
  induction v with
  | nil =>
    rw [List.nil_append, List.suffix_cons_iff, StrayCr, List.cons.injEq, eq_comm (a := [cr])]
    simp
  | cons b v ih =>
    have hb : sp ≠ b := by
      rintro rfl
      exact absurd (h sp (by simp)) (by decide)
    rw [List.cons_append, List.suffix_cons_iff, List.cons.injEq, ih fun x hx => h x (by simp [hx])]
    simp [hb]

theorem strayCr_append {v t : Bytes} (h : ∀ b ∈ v, notBlank b = true) :
    StrayCr (v ++ sp :: t) ↔ StrayCr t := by
  have hne : v ++ sp :: t ≠ [cr] := fun he => by
    have hmem : sp ∈ [cr] := he ▸ List.mem_append_right v (.head t)
    exact absurd hmem (by decide)
  rw [StrayCr, suffix_append h]
  exact or_iff_right hne

/-- A word alone, or before the CR of the line. -/
theorem not_strayCr {w e : Bytes} (h : IsWord w) (he : e = [] ∨ e = [cr]) : ¬ StrayCr (w ++ e) := by
  rcases he with rfl | rfl
  · rw [List.append_nil]
    rintro (rfl | hsuf)
    · exact (h.2 cr (by simp)).2.1 rfl
    · exact (h.2 sp (hsuf.subset (by simp))).1 rfl
  · rintro (heq | ⟨p, hp⟩)
    · exact h.1 (by simpa using heq)
    · have hw : p ++ [sp] = w := by
        rw [← List.append_left_inj [cr], ← hp]
        simp
      exact (h.2 sp (by simp [← hw])).1 rfl

/-- The first word of a text that does not start with a blank. -/
theorem exists_word {b : UInt8} {t : Bytes} (hb : notBlank b = true) (hlf : lf ∉ b :: t) :
    ∃ w r, b :: t = w ++ r ∧ IsWord w ∧ ∀ x ∈ r.head?, notBlank x = false := by
  refine ⟨(b :: t).takeWhile notBlank, (b :: t).dropWhile notBlank,
    List.takeWhile_append_dropWhile.symm, ⟨?_, fun x hx => ?_⟩, fun x hx => ?_⟩
  · rw [List.takeWhile_cons_of_pos hb]
    exact List.cons_ne_nil _ _
  · have hblank : notBlank x = true := List.mem_takeWhile_imp hx
    simp only [notBlank, Bool.and_eq_true, bne_iff_ne, ne_eq] at hblank
    exact ⟨hblank.1, hblank.2, fun he => hlf (he ▸ (List.takeWhile_subset _ hx))⟩
  · have hhead := List.head?_dropWhile_not notBlank (b :: t)
    rw [Option.mem_def.1 hx] at hhead
    simpa using hhead

/-- The loops cut the line at its blanks, and a stray CR leaves an empty word. -/
theorem lineWords_eq {text : Bytes} (hlf : lf ∉ text) (hcr : ∀ p s, text = p ++ cr :: s → s = []) :
    lineWords text = runs text ++ if StrayCr text then [[]] else [] := by
  generalize hn : text.length = n
  induction n using Nat.strong_induction_on generalizing text with
  | _ n ih =>
    subst hn
    cases text with
    | nil => rw [lineWords_nil]; rfl
    | cons b t =>
      by_cases hb : notBlank b = true
      · obtain ⟨w, r, hsplit, hw, hr⟩ := exists_word hb hlf
        rw [hsplit] at hlf hcr ih ⊢
        rw [lineWords_word hw hr]
        cases r with
        | nil =>
          rw [if_neg (not_strayCr hw (.inl rfl)), List.append_nil, List.append_nil, runs_word hw]
          simp
        | cons x r =>
          have hx := hr x (by simp)
          rw [runs_append w r hx, runs_word hw]
          rcases notBlank_eq_false.1 hx with rfl | rfl
          · have hrest := ih r.length (by simp; omega) (fun h => hlf (by simp [h]))
              (fun p s h => hcr (w ++ sp :: p) s (by simp [h])) rfl
            rw [List.drop_one, List.tail_cons, hrest, if_congr (strayCr_append hw.notBlank) rfl rfl]
            simp
          · obtain rfl := hcr w r rfl
            rw [if_neg (not_strayCr hw (.inr rfl))]
            simp [runs]
      · rcases notBlank_eq_false.1 (Bool.eq_false_iff.2 hb) with rfl | rfl
        · have hrest := ih t.length (by simp) (fun h => hlf (by simp [h]))
            (fun p s h => hcr (sp :: p) s (by simp [h])) rfl
          have hstray : StrayCr (sp :: t) ↔ StrayCr t := @strayCr_append [] t (by simp)
          rw [lineWords_sp, hrest, if_congr hstray rfl rfl]
          congr 1
        · obtain rfl := hcr [] t rfl
          rw [lineWords_cons (by decide), if_pos (.inl rfl)]
          have hruns : runs [cr] = [] := by decide
          simp [notBlank, hruns]

/-- A CR is at most the last byte of the text. -/
theorem eq_nil_of_cr {text : Bytes} (hcr : cr ∉ text.dropLast) (p s : Bytes)
    (h : text = p ++ cr :: s) : s = [] := by
  by_contra hne
  apply hcr
  rw [h, List.dropLast_append_of_ne_nil (List.cons_ne_nil _ _), List.dropLast_cons_of_ne_nil hne]
  simp

section

variable {ω : Type} {c : Client ω} {text rest : Bytes}

/-- The line at the front is taken off and cut into its words: `-1` if it has none. -/
def CutsAtBlanks (c : Client ω) (text rest : Bytes) : Prop :=
  c.parseQuery = .ok (if runs text = [] then -1 else 0,
    { c with paras := runs text, queryBuff := rest, qryType := 0 })

theorem parseQuery_runs (hbuf : c.queryBuff = text ++ lf :: rest) (hlf : lf ∉ text)
    (hcr : cr ∉ text.dropLast) (hpos : c.qryPos = 0) (hparas : c.paras = [])
    (hsize : c.queryBuff.length < 2 ^ 31) :
    let words := runs text ++ if StrayCr text then [[]] else []
    c.parseQuery = .ok (if words ≠ [] then 0 else -1,
      { c with paras := words, queryBuff := rest, qryType := 0 }) := by
  have hlen : text.length < 2 ^ 31 := by
    rw [hbuf, List.length_append] at hsize
    omega
  rw [parseQuery_line hbuf hlf hpos hparas hlen, lineWords_eq hlf (eq_nil_of_cr hcr)]

theorem not_cutsAtBlanks_of_stray (hbuf : c.queryBuff = text ++ lf :: rest) (hlf : lf ∉ text)
    (hcr : cr ∉ text.dropLast) (hpos : c.qryPos = 0) (hparas : c.paras = [])
    (hsize : c.queryBuff.length < 2 ^ 31) (hstray : StrayCr text) : ¬ CutsAtBlanks c text rest := by
  rw [CutsAtBlanks, parseQuery_runs hbuf hlf hcr hpos hparas hsize, if_pos hstray]
  intro h
  have hwords := congrArg Client.paras (Prod.mk.inj (Except.ok.inj h)).2
  simp at hwords

/-- A buffer that starts with a line, its only CR before the LF: with the cursor at its front, as
`parseQuery` finds it, it is cut exactly at the blanks unless the CR ends no word. -/
theorem cutsAtBlanks_iff (hbuf : c.queryBuff = text ++ lf :: rest) (hlf : lf ∉ text)
    (hcr : cr ∉ text.dropLast) (hpos : c.qryPos = 0) (hparas : c.paras = [])
    (hsize : c.queryBuff.length < 2 ^ 31) : CutsAtBlanks c text rest ↔ ¬ StrayCr text := by
  constructor
  · exact fun h hstray => not_cutsAtBlanks_of_stray hbuf hlf hcr hpos hparas hsize hstray h
  · intro hstray
    rw [CutsAtBlanks, parseQuery_runs hbuf hlf hcr hpos hparas hsize, if_neg hstray,
      List.append_nil]
    congr 2
    by_cases hnil : runs text = [] <;> simp [hnil]

end

theorem cutsAtBlanks_get : CutsAtBlanks
    { (Client.new 5 : Client Unit) with queryBuff := ascii "  get  a\r\n" }
    (ascii "  get  a\r") [] :=
  (cutsAtBlanks_iff (by decide) (by decide) (by decide) rfl rfl (by decide)).2 (by decide)

/-- The space before the CR ends the last word, and the CR makes one more, an empty one. -/
theorem not_cutsAtBlanks : ¬ ∀ (c : Client Unit) (text rest : Bytes),
    c.queryBuff = text ++ lf :: rest → lf ∉ text → cr ∉ text.dropLast → c.qryPos = 0 →
      c.paras = [] → CutsAtBlanks c text rest := by
  intro h
  have hbuf : ascii "get a \r\n" = ascii "get a \r" ++ lf :: [] := by decide
  have hcuts := h { Client.new 5 with queryBuff := ascii "get a \r\n" } _ _ hbuf (by decide)
    (by decide) rfl rfl
  exact not_cutsAtBlanks_of_stray hbuf (by decide) (by decide) rfl rfl (by decide) (by decide) hcuts

end LittleLearning.Db
