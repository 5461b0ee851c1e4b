import LittleLearning.Db.Events

/-!
# Lines that end in LF alone

The header lines may end in LF or in CR LF, but the parser passes over two bytes
after every argument. Behind an argument that ends in LF alone it has swallowed
the `$` of the next header, and behind the last one it waits for a byte more.
-/

namespace LittleLearning.Db

open Cxx

def encodeArgWith (e a : Bytes) : Bytes := dollar :: (decimal a.length ++ e) ++ (a ++ e)

/-- The multi-bulk encoding of `args` with `e` at the end of every line. -/
def encodeWith (e : Bytes) (args : List Bytes) : Bytes :=
  star :: (decimal args.length ++ e) ++ args.flatMap (encodeArgWith e)

theorem encodeWith_crlf (args : List Bytes) : encodeWith crlf args = encodeBulk args := rfl

theorem encodeWith_length_le (args : List Bytes) :
    (encodeWith [lf] args).length ≤ (encodeBulk args).length := by
  have hargs : ∀ as : List Bytes,
      (as.flatMap (encodeArgWith [lf])).length ≤ (as.flatMap (encodeArgWith crlf)).length := by
    intro as
    induction as with
    | nil => exact Nat.le_refl _
    | cons a as ih =>
      simp only [List.flatMap_cons, encodeArgWith, List.length_append, List.length_cons,
        crlf] at ih ⊢
      simp only [List.length_nil]
      omega
  have h := hargs args
  simp only [← encodeWith_crlf, encodeWith, List.length_append, List.length_cons, crlf,
    List.length_nil] at h ⊢
  omega

theorem length_le_flatMap (e : Bytes) (args : List Bytes) :
    args.length ≤ (args.flatMap (encodeArgWith e)).length := by
  induction args with
  | nil => exact Nat.le_refl _
  | cons a args ih =>
    simp only [List.flatMap_cons, encodeArgWith, List.length_append, List.length_cons]
    omega

/-! ### Header lines -/

theorem not_isDigit_lf : ∀ b ∈ [lf].head?, isDigit b = false := by simp; decide

/-- The number a line `v` gives that ends in a digit and LF: its first byte is passed over, and a
line of one byte is not read. -/
theorem lenOf_lf {buf p w t : Bytes} {b : UInt8} (hbuf : buf = p ++ (b :: w ++ lf :: t))
    (hw : ∀ x ∈ w, isDigit x = true) (hmax : (digitsValue w : Int) ≤ intMax) :
    lenOf buf p.length (p.length + (b :: w).length) =
      .ok (if w = [] then -1 else (digitsValue w : Int)) := by
  rw [lenOf, List.length_cons]
  by_cases hnil : w = []
  · rw [if_neg (by simp [hnil]), if_pos hnil]
  · have hpos := List.length_pos_iff.2 hnil
    have hlast : buf[p.length + (w.length + 1) - 1]? ≠ some cr := by
      obtain ⟨u, x, rfl⟩ := (List.eq_nil_or_concat' w).resolve_left hnil
      have hx : x ≠ cr := by
        rintro rfl
        exact absurd (hw cr (by simp)) (by decide)
      rw [hbuf, List.getElem?_append_right (by simp)]
      simp [hx]
    have htext : lenText buf p.length (p.length + (w.length + 1)) = w ++ [lf] := by
      have hdrop : buf.drop (p.length + 1) = w ++ lf :: t := by
        rw [hbuf, ← List.drop_drop, List.drop_left]
        rfl
      rw [lenText, if_neg hlast, hdrop, Nat.add_sub_cancel_left, List.take_length_add_append]
      rfl
    rw [if_pos (by omega), if_neg hnil, htext, stoi_digits hnil hw not_isDigit_lf hmax]

namespace Client

variable {ω : Type} {c d e : Client ω} {st : Int} {n : Nat}

/-! ### Rounds of the loop -/

/-- A loop that ends with a request takes an argument first. -/
theorem bulkLoop_taken (hcnt : 0 < c.multiBulkCnt) (h : bulkLoop (n + 1) c = .ok (0, e)) :
    ∃ d d', c.readLen = .ok (some d) ∧
      sizeT (int32 (int32 (d.qryPos + d.bulkLen) + 2)) < d.queryBuff.length ∧
      d.takeArg = .ok d' ∧ bulkLoop n d' = .ok (0, e) := by
  unfold bulkLoop at h
  rw [if_pos hcnt] at h
  obtain ⟨o, hread, h⟩ := bind_eq_ok.1 h
  cases o with
  | none => cases h
  | some d =>
    simp only at h
    split at h
    · cases h
    · obtain ⟨d', htake, h⟩ := bind_eq_ok.1 h
      exact ⟨d, d', hread, by omega, htake, h⟩

theorem readLen_paras (h : c.readLen = .ok (some d)) : d.paras = c.paras := by
  unfold readLen at h
  split at h
  · split at h
    · cases h
    · split at h <;> try split at h
      all_goals
        simp only [bind_eq_ok, pure_eq_ok, Except.ok.injEq, Option.some.injEq] at h
        grind
  · cases h
    rfl

theorem takeArg_paras (h : c.takeArg = .ok d) : d.paras =
    c.paras ++ [(c.queryBuff.drop (sizeT c.qryPos)).take (sizeT c.bulkLen)] := by
  obtain ⟨arg, hsub, h⟩ := bind_eq_ok.1 h
  cases h
  unfold substr at hsub
  split at hsub
  · rw [Except.ok.inj hsub]
  · cases hsub

theorem endBulk_paras (c : Client ω) : c.endBulk.2.paras = c.paras := by
  unfold endBulk
  split <;> rfl

/-- The loop only adds arguments. -/
theorem bulkLoop_paras (h : bulkLoop n c = .ok (0, e)) : c.paras <+: e.paras := by
  have hend : ∀ c : Client ω, .ok c.endBulk = (.ok (0, e) : Except StdException _) →
      c.paras <+: e.paras := by
    intro c h
    have hparas := endBulk_paras c
    rw [Except.ok.inj h] at hparas
    rw [← hparas]
  induction n generalizing c with
  | zero => exact hend c h
  | succ n ih =>
    by_cases hcnt : 0 < c.multiBulkCnt
    · obtain ⟨d, d', hread, -, htake, hloop⟩ := bulkLoop_taken hcnt h
      have hmore := ih hloop
      rw [takeArg_paras htake, readLen_paras hread] at hmore
      exact (List.prefix_append _ _).trans hmore
    · rw [bulkLoop, if_neg hcnt] at h
      exact hend c h

end Client

/-! ### A request whose lines end in LF -/

section

variable {ω : Type} {base d : Client ω} {args done todo : List Bytes} {a b buf p t : Bytes}
  {x : UInt8}

theorem readCount_lf (hbuf : buf = star :: (decimal args.length ++ lf :: t))
    (hlen : buf.length < 2 ^ 30) (hargs : args.length < 2 ^ 30) :
    (base.bulkAt buf [] [] 0 (-1)).readCount =
      .ok (some (base.bulkAt buf [] args ((decimal args.length).length + 2) (-1))) := by
  have hdigits : ∀ x ∈ decimal args.length, isDigit x = true := fun x hx => isDigit_decimal hx
  have hlf : lf ∉ star :: decimal args.length := by
    rw [List.mem_cons, not_or]
    exact ⟨by decide, lf_notMem_decimal _⟩
  have hfind : find buf lf 0 = some ((decimal args.length).length + 1) := by
    have h := find_first (p := []) (r := t) hlf
    rw [hbuf]
    simpa using h
  have hcount : countOf buf ((decimal args.length).length + 1) = .ok (args.length : Int) := by
    have hpos := decimal_length_pos args.length
    have hlast : buf[(decimal args.length).length + 1 - 1]? ≠ some cr := by
      obtain ⟨u, x, hu⟩ := (List.eq_nil_or_concat' (decimal args.length)).resolve_left
        (decimal_ne_nil _)
      have hx : x ≠ cr := by
        rintro rfl
        exact absurd (hdigits cr (by simp [hu])) (by decide)
      rw [hbuf, hu]
      simp [hx]
    have htext : countText buf ((decimal args.length).length + 1) = decimal args.length := by
      rw [countText, if_neg hlast, hbuf, List.drop_one, List.tail_cons, Nat.add_sub_cancel,
        List.take_left]
    have hstoi := stoi_decimal (n := args.length) (r := []) (by simp only [intMax]; omega) (by simp)
    rw [List.append_nil] at hstoi
    rw [countOf, if_pos (by omega), htext, hstoi]
  rw [Client.readCount_eq rfl (by simp only [Client.bulkAt_queryBuff]; omega),
    Client.bulkAt_queryBuff, hfind]
  simp only [hcount]
  rfl

/-- The header line of an argument, from its `$` on. -/
theorem readLen_lf (hbuf : buf = p ++ (dollar :: decimal a.length ++ lf :: t))
    (hlen : buf.length < 2 ^ 30) (ha : a.length < 2 ^ 30) :
    (base.bulkAt buf done todo p.length (-1)).readLen =
      .ok (some (base.bulkAt buf done todo (p.length + (decimal a.length).length + 2)
        a.length)) := by
  have hle : p.length ≤ buf.length := by
    rw [hbuf, List.length_append]
    omega
  have hlf : lf ∉ dollar :: decimal a.length := by
    rw [List.mem_cons, not_or]
    exact ⟨by decide, lf_notMem_decimal _⟩
  have hfind : find buf lf p.length = some (p.length + (dollar :: decimal a.length).length) := by
    rw [hbuf, find_first hlf]
  have hvalue := digitsValue_decimal a.length
  have hlenOf := lenOf_lf hbuf (fun x hx => isDigit_decimal hx) (by
    rw [hvalue]
    simp only [intMax]
    omega)
  rw [if_neg (decimal_ne_nil _), hvalue] at hlenOf
  rw [Client.readLen_of_pos rfl hle (by simp only [Client.bulkAt_queryBuff]; omega) rfl,
    Client.bulkAt_queryBuff, hfind]
  simp only [hlenOf]
  rfl

/-- The `$` of the header line is passed over already. -/
theorem readLen_drifted (hbuf : buf = p ++ (decimal b.length ++ lf :: t))
    (hlen : buf.length < 2 ^ 30) (hb : b.length < 2 ^ 30) :
    ∃ len : Int, (len = -1 ∨ 0 ≤ len ∧ len < b.length) ∧
      (base.bulkAt buf done todo p.length (-1)).readLen =
        .ok (some (base.bulkAt buf done todo (p.length + (decimal b.length).length + 1) len)) := by
  have hle : p.length ≤ buf.length := by
    rw [hbuf, List.length_append]
    omega
  have hfind : find buf lf p.length = some (p.length + (decimal b.length).length) := by
    rw [hbuf, find_first (lf_notMem_decimal _)]
  obtain ⟨c, w, hw⟩ := List.exists_cons_of_ne_nil (decimal_ne_nil b.length)
  have hdigits : ∀ x ∈ w, isDigit x = true := fun x hx =>
    isDigit_decimal (n := b.length) (by rw [hw]; exact .tail c hx)
  have hsmall : w ≠ [] → digitsValue w < b.length := by
    intro hne
    have h := digitsValue_tail_lt (n := b.length) (by
      rw [hw, List.length_cons]
      exact Nat.succ_lt_succ (List.length_pos_iff.2 hne))
    rwa [hw, List.tail_cons] at h
  have hmax : (digitsValue w : Int) ≤ intMax := by
    rw [intMax]
    by_cases hne : w = []
    · rw [hne]
      decide
    · have := hsmall hne
      omega
  have hlenOf := lenOf_lf (hw ▸ hbuf) hdigits hmax
  refine ⟨if w = [] then -1 else (digitsValue w : Int), ?_, ?_⟩
  · by_cases hne : w = []
    · exact .inl (if_pos hne)
    · have := hsmall hne
      rw [if_neg hne]
      omega
  · rw [Client.readLen_of_pos rfl hle (by simp only [Client.bulkAt_queryBuff]; omega) rfl,
      Client.bulkAt_queryBuff, hfind, hw]
    simp only [hlenOf]
    rfl

/-- One argument alone: the parser waits for a byte behind the last. -/
theorem single_not_taken (hbuf : buf = p ++ (encodeArgWith [lf] a ++ [x]))
    (hlen : buf.length < 2 ^ 30) :
    Client.bulkLoop 1 (base.bulkAt buf [] [a] p.length (-1)) ≠ .ok (0, d) := by
  intro h
  obtain ⟨c, c', hread, htest, -, -⟩ := Client.bulkLoop_taken (by simp) h
  have hsize : buf.length = p.length + (decimal a.length).length + 2 + a.length + 2 := by
    rw [hbuf]
    simp only [encodeArgWith, List.length_append, List.length_cons, List.length_nil]
    omega
  have hline : buf = p ++ (dollar :: decimal a.length ++ lf :: (a ++ [lf] ++ [x])) := by
    rw [hbuf]
    simp [encodeArgWith]
  rw [readLen_lf hline hlen (by omega)] at hread
  obtain rfl := Option.some.inj (Except.ok.inj hread)
  have hcursor := @complete_test a (p.length + (decimal a.length).length + 2) (by omega)
  simp only [Client.bulkAt_qryPos, Client.bulkAt_bulkLen, Client.bulkAt_queryBuff, hcursor] at htest
  omega

/-- Too short a length does not take the argument, and -1 takes all there is. -/
theorem take_drifted {len : Int} (hlen : len = -1 ∨ 0 ≤ len ∧ len < b.length)
    (hsize : (b ++ [lf] ++ t).length < 2 ^ 30) : (b ++ [lf] ++ t).take (sizeT len) ≠ b := by
  intro hb
  have hblen := congrArg List.length hb
  rw [List.length_append, List.length_append, List.length_singleton] at hsize
  rw [List.length_take, List.length_append, List.length_append, List.length_singleton] at hblen
  rcases hlen with rfl | ⟨hnn, hlt⟩
  · have hhuge : sizeT (-1) = 2 ^ 64 - 1 := rfl
    rw [hhuge] at hblen
    omega
  · obtain ⟨n, rfl⟩ := Int.eq_ofNat_of_zero_le hnn
    rw [sizeT_natCast (by omega)] at hblen
    omega

/-- Of two arguments or more the second comes out wrong. -/
theorem second_differs (hbuf : buf = p ++ (encodeArgWith [lf] a ++ (encodeArgWith [lf] b ++ t)))
    (hlen : buf.length < 2 ^ 30)
    (h : Client.bulkLoop (todo.length + 2) (base.bulkAt buf [] (a :: b :: todo) p.length (-1)) =
      .ok (0, d)) : d.paras ≠ a :: b :: todo := by
  obtain ⟨c, c', hread, -, htake, hloop⟩ := Client.bulkLoop_taken (by
    simp only [Client.bulkAt_multiBulkCnt, List.length_cons]
    omega) h
  have hsize : p.length + (decimal a.length).length + 2 + a.length + 2 +
      (decimal b.length).length + b.length < buf.length := by
    rw [hbuf]
    simp only [encodeArgWith, List.length_append, List.length_cons, List.length_nil]
    omega
  have hline : buf = p ++ (dollar :: decimal a.length ++ lf ::
      (a ++ [lf] ++ (encodeArgWith [lf] b ++ t))) := by
    rw [hbuf]
    simp [encodeArgWith]
  rw [readLen_lf hline hlen (by omega)] at hread
  obtain rfl := Option.some.inj (Except.ok.inj hread)
  -- the first argument is taken, and the `$` behind it
  have hfirst : buf = (p ++ (dollar :: decimal a.length ++ [lf])) ++
      (a ++ ([lf] ++ (encodeArgWith [lf] b ++ t))) := by
    rw [hline]
    simp
  have hoff : p.length + (decimal a.length).length + 2 =
      (p ++ (dollar :: decimal a.length ++ [lf])).length := by
    simp only [List.length_append, List.length_cons, List.length_nil]
    omega
  rw [hoff] at hsize htake
  rw [takeArg_eq hfirst (by omega)] at htake
  obtain rfl := Except.ok.inj htake
  have hsecond : buf = (p ++ (dollar :: decimal a.length ++ [lf]) ++ (a ++ [lf, dollar])) ++
      (decimal b.length ++ lf :: (b ++ [lf] ++ t)) := by
    rw [hfirst]
    simp [encodeArgWith]
  have hoff' : (p ++ (dollar :: decimal a.length ++ [lf])).length + a.length + 2 =
      (p ++ (dollar :: decimal a.length ++ [lf]) ++ (a ++ [lf, dollar])).length := by
    simp only [List.length_append, List.length_cons, List.length_nil]
    omega
  generalize p ++ (dollar :: decimal a.length ++ [lf]) ++ (a ++ [lf, dollar]) = q at hsecond hoff'
  rw [hoff'] at hloop
  obtain ⟨c, c', hread, -, htake, hloop⟩ := Client.bulkLoop_taken (by
    simp only [Client.bulkAt_multiBulkCnt, List.length_cons]
    omega) hloop
  obtain ⟨len, hlen', hread'⟩ := @readLen_drifted ω base ([] ++ [a]) (b :: todo) b buf q _ hsecond
    hlen (by omega)
  rw [hread'] at hread
  obtain rfl := Option.some.inj (Except.ok.inj hread)
  have hparas := Client.bulkLoop_paras hloop
  rw [Client.takeArg_paras htake] at hparas
  simp only [Client.bulkAt_paras, Client.bulkAt_qryPos, Client.bulkAt_queryBuff,
    Client.bulkAt_bulkLen] at hparas
  have hpos : sizeT ((q.length + (decimal b.length).length + 1 : Nat) : Int) =
      q.length + ((decimal b.length).length + 1) := by
    rw [sizeT_natCast (by omega)]
    omega
  have hdrop : buf.drop (q.length + ((decimal b.length).length + 1)) = b ++ [lf] ++ t := by
    rw [hsecond, ← List.drop_drop, List.drop_left, ← List.drop_drop, List.drop_left]
    rfl
  intro heq
  rw [heq, hpos, hdrop, List.nil_append, List.singleton_append, List.cons_prefix_cons] at hparas
  have hrest : (b ++ [lf] ++ t).length < 2 ^ 30 := by
    rw [← hdrop, List.length_drop]
    omega
  exact take_drifted hlen' hrest (List.cons_prefix_cons.1 hparas.2).1

/-- No request of at least one argument is dispatched as it was meant. -/
theorem parseBulkQuery_lf (hne : args ≠ []) (hlen : (encodeWith [lf] args ++ [x]).length < 2 ^ 30)
    (h : (base.bulkAt (encodeWith [lf] args ++ [x]) [] [] 0 (-1)).parseBulkQuery = .ok (0, d)) :
    d.paras ≠ args := by
  obtain ⟨a, todo, rfl⟩ := List.exists_cons_of_ne_nil hne
  have hbuf : encodeWith [lf] (a :: todo) ++ [x] = (star :: decimal (a :: todo).length ++ [lf]) ++
      (encodeArgWith [lf] a ++ (todo.flatMap (encodeArgWith [lf]) ++ [x])) := by
    simp [encodeWith]
  have hargs : (a :: todo).length < 2 ^ 30 := by
    have h := length_le_flatMap [lf] (a :: todo)
    simp only [encodeWith, List.length_append, List.length_cons] at h hlen ⊢
    omega
  generalize encodeWith [lf] (a :: todo) ++ [x] = buf at *
  have hoff : (decimal (a :: todo).length).length + 2 =
      (star :: decimal (a :: todo).length ++ [lf]).length := by
    simp only [List.length_append, List.length_cons, List.length_nil]
  have hread : (base.bulkAt buf [] [] 0 (-1)).readCount = .ok (some (base.bulkAt buf [] (a :: todo)
      (star :: decimal (a :: todo).length ++ [lf]).length (-1))) := by
    rw [← hoff]
    apply readCount_lf _ hlen hargs
    · exact encodeArgWith [lf] a ++ (todo.flatMap (encodeArgWith [lf]) ++ [x])
    · rw [hbuf]
      simp
  rw [parseBulkQuery_eq hread] at h
  generalize star :: decimal (a :: todo).length ++ [lf] = p at hbuf h
  split at h
  · cases h
  · cases todo with
    | nil => exact absurd h (single_not_taken hbuf hlen)
    | cons b todo =>
      rw [List.flatMap_cons, List.append_assoc] at hbuf
      exact second_differs hbuf hlen h

end

/-! ### Both encodings -/

/-- A fresh client given either encoding and a byte more dispatches the same command. -/
def SameTask (fd : Int) (args : List Bytes) (x : UInt8) : Prop :=
  ∃ cmd c c', (Client.new fd : Client UInt8).processInput (encodeWith [lf] args ++ [x]) =
      .ok (some cmd, c) ∧
    (Client.new fd : Client UInt8).processInput (encodeWith crlf args ++ [x]) = .ok (some cmd, c')

section

variable {fd : Int} {args cmd : List Bytes} {x : UInt8} {c : Client UInt8} {data : Bytes}

/-- What the first read of a client leads to. -/
theorem dispatch_new {t : Bytes} (hdata : data = star :: t)
    (h : (Client.new fd : Client UInt8).processInput data = .ok (some cmd, c)) :
    ∃ d : Client UInt8, ((Client.new fd).bulkAt data [] [] 0 (-1)).parseBulkQuery = .ok (0, d) ∧
      cmd = d.paras := by
  obtain ⟨d, hquery, hcmd, -⟩ := Client.processInput_dispatch.1 h
  have hrecv : Client.receive [] data = data := by simp [Client.receive]
  have harrived : (Client.new fd : Client UInt8).arrived data =
      (Client.new fd).bulkAt data [] [] 0 (-1) := by
    have hbuf : (Client.new fd : Client UInt8).queryBuff = [] := rfl
    rw [Client.arrived, hbuf, hrecv, hdata]
    rfl
  rw [Client.processQuery_eq (by rw [hdata]; exact List.cons_ne_nil _ _), harrived] at hquery
  exact ⟨d, hquery, hcmd⟩

theorem dispatch_crlf (hne : args ≠ []) (hlen : (encodeBulk args ++ [x]).length < 2 ^ 30)
    (h : (Client.new fd : Client UInt8).processInput (encodeWith crlf args ++ [x]) =
      .ok (some cmd, c)) : cmd = args := by
  obtain ⟨d, hparse, rfl⟩ := dispatch_new (by rw [encodeWith]; rfl) h
  rw [List.length_append, List.length_singleton] at hlen
  have hwait : BulkWait (Client.new fd : Client UInt8) args [] _ := .count (by simp)
  have hdecoded := parseBulkQuery_decoded hwait List.nil_prefix
    (List.prefix_refl (encodeBulk args ++ [x])) hne
    (by rw [List.length_append, List.length_singleton]; omega) (by omega)
  rw [Decoded, if_neg (by rw [List.length_append, List.length_singleton]; omega)] at hdecoded
  have heq := hdecoded.symm.trans hparse
  rw [← (Prod.mk.inj (Except.ok.inj heq)).2]
  rfl

/-- With LF at the end of its lines no request, whatever its arguments, is dispatched as it is with
CR LF. -/
theorem not_sameTask (fd : Int) (hne : args ≠ []) (x : UInt8)
    (hlen : (encodeBulk args ++ [x]).length < 2 ^ 30) : ¬ SameTask fd args x := by
  rintro ⟨cmd, c, c', hlf, hcrlf⟩
  obtain rfl := dispatch_crlf hne hlen hcrlf
  obtain ⟨d, hparse, hcmd⟩ := dispatch_new (by rw [encodeWith]; rfl) hlf
  have hshort : (encodeWith [lf] cmd ++ [x]).length < 2 ^ 30 := by
    have := encodeWith_length_le cmd
    rw [List.length_append] at hlen ⊢
    omega
  exact parseBulkQuery_lf hne hshort hparse hcmd.symm

theorem not_sameTask_get : ¬ SameTask 5 [ascii "get", ascii "a"] lf :=
  not_sameTask 5 (by decide) lf (by decide +kernel)

end

/-- `*1`, `$3` and `get`, and a byte more: the parser waits for another. -/
theorem not_sameTask_always : ¬ ∀ (fd : Int) (args : List Bytes) (x : UInt8),
    args ≠ [] → SameTask fd args x := by
  intro h
  obtain ⟨cmd, c, c', hlf, -⟩ := h 5 [ascii "get"] lf (by decide)
  have hwait : ((Client.new 5 : Client UInt8).processInput
      (encodeWith [lf] [ascii "get"] ++ [lf])).toOption.map Prod.fst = some none := by
    decide +kernel
  rw [hlf] at hwait
  cases hwait

end LittleLearning.Db
