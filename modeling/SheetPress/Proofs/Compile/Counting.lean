import SheetPress.Proofs.Compile.Effect
import SheetPress.Proofs.Decimal.Exact
import SheetPress.Proofs.Expr.Signs

/-!
# Counters

What a loop needs: the head of a rule whose name ends with the counter is written with the number
that the loop has counted to (`run_substitute_numbered`), a bound of a loop, with or without a
sign, is the double that its text is read as (`Bound.run_calculate`, `Bound.run_boundOf`), and the
head of a loop is cut at the words between its parts (`readCount_through_iff`).
-/

set_option autoImplicit false

namespace SheetPress.Compile

open List Text

variable {a t var : Text}

open Source (Word counterName loopRange numberedHead labelHead classHead)

/-! ## Heads with the counter -/

theorem findVariable_of_head (before : Text) (h : ∀ c ∈ t.head?, c ≠ '$' ∧ c ≠ '#') :
    findVariable before t = none := by
  unfold findVariable
  split
  · exact absurd rfl (h '#' (by simp)).2
  · dsimp only
    split
    · exact absurd rfl (h '$' (by simp)).1
    · rfl

theorem variableTexts_append (c : Context) (unquote : Bool) {x rest : Text}
    (hx : ∀ d ∈ x, d ≠ '$' ∧ d ≠ '#') : ∀ before : Text,
    variableTexts c unquote (scanFrom findVariable (x.reverse ++ before) 0 rest) = pure t →
    variableTexts c unquote (scanFrom findVariable before 0 (x ++ rest)) = pure (x ++ t) := by
  induction x with
  | nil => exact fun _ h => h
  | cons d x ih =>
    intro before h
    have hnone : findVariable before (d :: (x ++ rest)) = none :=
      findVariable_of_head before (by simpa using hx d (by simp))
    have hrest := ih (fun y hy => hx y (by simp [hy])) (d :: before) (by simpa using h)
    simp only [cons_append, scanFrom, hnone, variableTexts, hrest, pure_bind]

/-- The counter of a flat context is replaced by the number that the loop has counted to. -/
theorem variableText_counter {flat : Context} {k : Int}
    (h : flat.get? counterName = some (.word (ofInt k))) :
    variableText flat true (Source.Outline.interpolation counterName) true counterName =
      pure (ofInt k) := by
  have hdequote : dequote (ofInt k) = ofInt k := by
    obtain ⟨y, rest, hk⟩ := exists_cons_of_ne_nil (Source.ofInt_ne_nil k)
    have hy : isQuote y = false := by
      rcases Source.isDigit_or_of_mem_ofInt (k := k) (c := y) (by simp [hk]) with hy | rfl
      · refine Bool.eq_false_iff.mpr fun hquote => ?_
        rcases (by simpa [isQuote] using hquote : y = '"' ∨ y = '\'') with rfl | rfl <;>
          exact absurd hy (by decide)
      · decide
    simp [hk, dequote, hy]
  have hshown : (Value.word (ofInt k)).shown = pure (ofInt k) := by simp [Value.shown]
  have htrue : ∃ b, (Value.word (ofInt k)).isTrue = pure b := ⟨_, by simp only [Value.isTrue]; rfl⟩
  obtain ⟨b, hb⟩ := htrue
  simp only [variableText, h, pure_bind, hshown, hb, hdequote, ite_self]

variable (inner : Compiler) {first last : Text}

theorem run_substitute_numbered (r : Nat) {c : Context} {k : Int} (h : (Count.reached k).Fits c)
    (name : Word) (s : Session) :
    (substitute inner r c true (numberedHead name)).run s = (.ok (labelHead name k), s) := by
  have hplain : ∀ d ∈ classHead name, d ≠ '$' ∧ d ≠ '#' := fun d hd =>
    have hcalm := (Source.calm_classHead name).chars d hd
    ⟨Source.Outline.ne_of_isCalm hcalm (by decide), Source.Outline.ne_of_isCalm hcalm (by decide)⟩
  have hnone : c.get? (numberedHead name) = none :=
    h.1.1 _ ⟨'.', rfl, by decide, by decide⟩
  obtain ⟨flat, hflat, hget⟩ := h.1.2.exists_flatten
  have hreached : flat.get? counterName = some (.word (ofInt k)) :=
    hget _ _ h.2 (h.1.1.get?_ofInt k)
  have hany : (numberedHead name).any (· == '$') = true := by
    simp [numberedHead, Source.Outline.interpolation, counterName]
  have hcounter : ∀ before : Text, variableTexts flat true
      (scanFrom findVariable before 0 (Source.Outline.interpolation counterName)) =
        pure (ofInt k) := by
    intro before
    show variableTexts flat true
      [.found (Source.Outline.interpolation counterName, true, counterName)] = _
    simp [variableTexts, variableText_counter hreached]
  have hvalue : substituteValue c true (numberedHead name) = pure (.word (labelHead name k)) := by
    have htexts : variableTexts flat true (scan findVariable (numberedHead name)) =
        pure (labelHead name k) := variableTexts_append flat true hplain [] (hcounter _)
    simp [substituteValue, hany, hnone, hflat, htexts]
  have hbrace : '#' ∉ labelHead name k :=
    (Source.calm_labelHead name k).notMem (by decide)
  have hspelled : (Value.word (labelHead name k)).spelled = pure (labelHead name k) := by
    simp [Value.spelled, Value.shown]
  simp [substitute, hvalue, hspelled, run_interpolate inner r true s hbrace]

/-! ## Numerals -/

theorem toLower_of_isDigit {c : Char} (h : c.isDigit = true) : c.toLower = c := by
  refine dif_neg fun hupper => ?_
  simp only [Char.isDigit, Bool.and_eq_true, decide_eq_true_eq] at h
  have hhigh : c.toNat ≤ 57 := UInt32.le_iff_toNat_le.mp h.2
  have hlow : 65 ≤ c.toNat := UInt32.le_iff_toNat_le.mp hupper.1
  omega

theorem readUnsigned?_ofNat (n : Nat) :
    Decimal.readUnsigned? (Text.ofNat n) = some (Float.ofScientific n false 0) := by
  have hdigits : ∀ c ∈ Text.ofNat n, isDigit c = true := fun c hc =>
    Source.isDigit_of_mem_ofNat hc
  have hlower : lower (Text.ofNat n) = Text.ofNat n := by
    refine (map_congr_left fun c hc => ?_).trans (map_id _)
    exact toLower_of_isDigit (hdigits c hc)
  -- A row of digits is none of the words for special numbers.
  have hword : ∀ (c : Char) (w : Text), isDigit c = false → (ofNat n == c :: w) = false := by
    intro c w hc
    refine beq_eq_false_iff_ne.mpr fun heq => ?_
    rw [hdigits c (by simp [heq])] at hc
    cases hc
  have htake : Decimal.takeDigits (ofNat n) = (ofNat n, []) := by
    simp [Decimal.takeDigits, takeWhile_eq_self_iff.mpr hdigits,
      dropWhile_eq_nil_iff.mpr hdigits]
  have hvalue : digitsValue (ofNat n) = n :=
    Nat.ofDigitChars_eq_foldl.symm.trans Nat.ofDigitChars_ten_toDigits
  have hscaled : ∀ width : Nat, Decimal.scaled n 0 width = Float.ofScientific n false 0 := by
    intro width
    by_cases hn : n = 0
    · subst hn
      rfl
    · have hwidth : ¬ ((width : Int) < -400) := by omega
      simp [Decimal.scaled, hn, hwidth]
  have hinf : (ofNat n == "inf".toList) = false := hword 'i' ['n', 'f'] (by decide)
  have hinfinity : (ofNat n == "infinity".toList) = false :=
    hword 'i' ['n', 'f', 'i', 'n', 'i', 't', 'y'] (by decide)
  have hnan : (ofNat n == "nan".toList) = false := hword 'n' ['a', 'n'] (by decide)
  simp only [Decimal.readUnsigned?, hlower, hinf, hinfinity, hnan, htake]
  simp [Source.ofNat_ne_nil, Decimal.readExponent?, hvalue, hscaled]

theorem readFloat?_ofInt {a : Int} (ht : trim t = ofInt a) :
    Decimal.readFloat? t = some (Decimal.ofInt a) := by
  cases a with
  | ofNat n =>
    obtain ⟨x, digits, hn⟩ := exists_cons_of_ne_nil (Source.ofNat_ne_nil n)
    have hx : x.isDigit = true := Source.isDigit_of_mem_ofNat (n := n) (by simp [hn])
    have hsign : Decimal.takeSign (Text.ofNat n) = (false, Text.ofNat n) := by
      rw [hn]
      unfold Decimal.takeSign
      split
      next heq => exact absurd ((cons.inj heq).1 ▸ hx) (by decide)
      next heq => exact absurd ((cons.inj heq).1 ▸ hx) (by decide)
      next => rfl
    simp [Decimal.readFloat?, ht, ofInt, hsign, readUnsigned?_ofNat, Decimal.ofInt]
  | negSucc n =>
    simp [Decimal.readFloat?, ht, ofInt, Decimal.takeSign, readUnsigned?_ofNat,
      Decimal.ofInt, Int.negSucc_lt_zero]

/-! ## Negative numbers -/

theorem setIfInBounds_getD {α : Type} {a : Array α} {i : Nat} (hi : i < a.size) (d : α) :
    a.setIfInBounds i (a.getD i d) = a := by
  simp [Array.setIfInBounds, Array.getD, hi]

/-- A product of bare numbers leaves them as they are. -/
theorem product_bare {p : Pool} {l r : Nat} {x y : Float} (hl : l < p.quantities.size)
    (hr : r < p.quantities.size) (hx : p.quantities.getD l (.bare 0.0) = .bare x)
    (hy : p.quantities.getD r (.bare 0.0) = .bare y) :
    ∃ q : Quantity, q.size = .real (x * y) ∧
      (Value.operateNumber .mul (.number l) (.number r)).run p =
        (.ok (.number p.quantities.size), { p with quantities := p.quantities.push q }) := by
  obtain ⟨q, hq, hsize⟩ : ∃ q : Quantity,
      Quantity.operate .mul (.bare x) (.bare y) = .ok ⟨q, .bare x, .bare y⟩ ∧
        q.size = .real (x * y) := ⟨_, rfl, rfl⟩
  have hset : (p.quantities.setIfInBounds l (.bare x)).setIfInBounds r (.bare y) =
      p.quantities := by
    rw [← hx, ← hy, setIfInBounds_getD hl, setIfInBounds_getD hr]
  refine ⟨q, hsize, ?_⟩
  have hrun : (Value.operateNumber .mul (.number l) (.number r)).run p = (do
      let outcome ← Calc.ofExcept (Quantity.operate .mul (p.quantities.getD l (.bare 0.0))
        (p.quantities.getD r (.bare 0.0)))
      Calc.setQuantity l outcome.left
      Calc.setQuantity r outcome.right
      Calc.newNumber outcome.result : Calc Value).run p := rfl
  rw [hrun, hx, hy, hq]
  have hnew : (do
      Calc.setQuantity l (.bare x)
      Calc.setQuantity r (.bare y)
      Calc.newNumber q : Calc Value).run p = (Calc.newNumber q).run { p with
        quantities := (p.quantities.setIfInBounds l (.bare x)).setIfInBounds r (.bare y) } := rfl
  rw [hset] at hnew
  exact hnew

theorem run_negative (m : Expr.Meaning) (s : Session) {digits : Text} {x : Float}
    (hx : Decimal.readFloat? digits = some x) :
    ∃ q : Array Quantity, s.pool.quantities.toList <+: q.toList ∧
      ∃ slot < q.size, (q.getD slot (.bare 0.0)).size = .real (-x) ∧
        (Expr.eval m (.list [(none, .negative (.numeral digits))])).run s =
          (.ok (.number slot), { s with pool := { s.pool with quantities := q } }) := by
  obtain ⟨a, ha⟩ : ∃ a, s.pool.quantities.push (.bare x) = a := ⟨_, rfl⟩
  obtain ⟨b, hb⟩ : ∃ b, a.push (.bare (Decimal.ofInt (-1))) = b := ⟨_, rfl⟩
  have hgrows : a.toList <+: b.toList := by rw [← hb]; exact prefix_push _ _
  have hsize : s.pool.quantities.size < a.size := by simp [← ha]
  have hsize' : a.size < b.size := by simp [← hb]
  obtain ⟨q, hq, hproduct⟩ := product_bare (p := { s.pool with quantities := b })
    (l := s.pool.quantities.size) (r := a.size) (x := x) (y := Decimal.ofInt (-1))
    (by simp only; omega) hsize' (by
      rw [getD_of_isPrefix hgrows hsize, ← ha, getD_push_size]) (by rw [← hb, getD_push_size])
  rw [Decimal.mul_ofInt_neg_one] at hq
  refine ⟨b.push q, ?_, b.size, by simp, by rw [getD_push_size, hq], ?_⟩
  · exact (ha ▸ prefix_push _ _).trans (hgrows.trans (prefix_push _ _))
  · have hitem : (do
        let v ← (Calc.newNumber (.bare x) : Calc Value)
        (v.signed '-' : Calc Value) : Run Value).run s =
          (.ok (.number b.size), { s with pool := { s.pool with quantities := b.push q } }) := by
      rw [← ha] at hb
      rw [← hb, ← ha] at hproduct
      rw [← hb]
      exact congrArg (fun z : Except Fault Value × Pool => (z.1, { s with pool := z.2 })) hproduct
    simp only [Expr.eval, Expr.evalItems, hx, Option.getD_some, bind_assoc, pure_bind]
    rw [← bind_assoc, Run.bind_ok hitem]
    rfl
/-! ## Bounds -/

/-- A bound of a loop as it is written, with a blank before it and perhaps one behind it. -/
structure Bound (a : Int) (t : Text) : Prop where
  written : t = ' ' :: ofInt a ∨ t = ' ' :: (ofInt a ++ [' '])

namespace Bound

variable {a : Int} {t : Text}

theorem trim (h : Bound a t) : trim t = ofInt a := by
  rcases h.written with rfl | rfl
  · simpa using trim_pad (a := [' ']) (b := []) (by simp; decide) (by simp)
      (Source.tight_ofInt a)
  · exact trim_pad (a := [' ']) (b := [' ']) (by simp; decide) (by simp; decide)
      (Source.tight_ofInt a)

theorem notMem (h : Bound a t) {d : Char} (hblank : d ≠ ' ') (hname : isName d = false) :
    d ∉ t := by
  have hnumber : d ∉ ofInt a := fun hd => by
    rw [(Source.isName_of_mem_ofInt hd).1] at hname
    cases hname
  rcases h.written with rfl | rfl <;> simp [hblank, hnumber]

theorem isPlain {n : Nat} (h : Bound (.ofNat n) t) : isPlain t = true := by
  have hchars : ∀ c ∈ t, c.isDigit = true ∨ c = ' ' := by
    have hdigit : ∀ c ∈ ofInt (.ofNat n), c.isDigit = true ∨ c = ' ' := fun c hc =>
      .inl (Source.isDigit_of_mem_ofNat hc)
    rcases h.written with rfl | rfl
    · exact forall_mem_cons.mpr ⟨.inr rfl, hdigit⟩
    · exact forall_mem_cons.mpr ⟨.inr rfl, forall_mem_append.mpr ⟨hdigit, by simp⟩⟩
  have hother : ∀ d : Char, d.isDigit = false → d ≠ ' ' → d ∉ t := by
    intro d hd hblank hm
    rcases hchars d hm with h | h
    · rw [hd] at h
      cases h
    · exact hblank h
  have hrow : isPlainRow t = true := by
    have hsign : (t.head? == some '-') = false := by
      simpa using fun h => hother '-' (by decide) (by decide) (mem_of_head? h)
    have hdrop : t.dropWhile (fun c => isPlainChar c || isSpace c) = [] := by
      refine dropWhile_eq_nil_iff.mpr fun c hc => ?_
      rcases hchars c hc with hc | rfl
      · simp [isPlainChar, isWord, Char.isAlphanum, hc]
      · decide
    simp [isPlainRow, hsign, hdrop]
  have hsigns : operatorWords.any (fun o => contains t o) = false := by
    have hletter : ∀ o ∈ operatorWords, '-' ∈ o ∨ 'n' ∈ o ∨ 'o' ∈ o := by decide
    simp only [any_eq_false, Bool.not_eq_true]
    intro o ho
    rcases hletter o ho with hm | hm | hm <;>
      exact contains_eq_false_of_mem hm (hother _ (by decide) (by decide))
  simp [Compile.isPlain, hrow, hsigns]

theorem isPlain_negSucc {n : Nat} (h : Bound (.negSucc n) t) : Compile.isPlain t = false := by
  rcases h.written with rfl | rfl <;> rfl

theorem run_boundOf (h : Bound a t) {i : Int} (hi : Decimal.truncate? (Decimal.ofInt a) = some i)
    {p : Pool} {v : Value} (hv : Kept p t v) : (boundOf v).run p = (.ok i, p) := by
  have hread := readFloat?_ofInt h.trim
  have htruncate : (Scalar.real (Decimal.ofInt a)).truncate = .ok i := by
    simp only [Scalar.truncate, hi]
  have hnumber : ∀ x : Scalar, x.truncate = .ok i → v.plainNumber.run p = (.ok x, p) →
      (boundOf v).run p = (.ok i, p) := by
    intro x hx hplain
    unfold boundOf
    rw [Run.bind_ok hplain, hx]
    rfl
  cases hv with
  | word =>
    refine hnumber _ htruncate ?_
    simp only [Value.plainNumber, hread]
    rfl
  | @number slot x hplain hslot hsize hread' =>
    rw [hread] at hread'
    cases hread'
    refine hnumber _ htruncate ?_
    rw [← hsize]
    rfl

/-- The value of a bound is what may be kept for it, if what is kept for it already is. -/
theorem run_calculate_of_lookup (h : Bound a t) (inner : Compiler) (r : Nat) (c : Context)
    {s : Session} (hs : ∀ v, s.results.lookup t = some v → Kept s.pool t v) :
    ∃ v pool results, (calculate inner r c t).run s = (.ok v, { s with pool, results }) ∧
      Richer s.pool pool ∧ (results = s.results ∨ results = (t, v) :: s.results) ∧
      Kept pool t v := by
  cases hkept : s.results.lookup t with
  | some v =>
    refine ⟨v, s.pool, s.results, ?_, .refl _, .inl rfl, hs v hkept⟩
    simp only [calculate, run_keptResult_bind, hkept, Run.run_pure]
  | none =>
    cases a with
    | ofNat n =>
      refine ⟨.word t, s.pool, (t, .word t) :: s.results, ?_, .refl _, .inr rfl, .word⟩
      simp only [calculate, run_keptResult_bind, hkept, h.isPlain, if_true,
        run_keepResult_bind, Run.run_pure]
    | negSucc n =>
      have htail : ∃ tail, (tail = [] ∨ tail = [' ']) ∧
          t = ' ' :: '-' :: (ofNat (n + 1) ++ tail) := by
        rcases h.written with rfl | rfl
        · exact ⟨[], .inl rfl, by simp [ofInt]⟩
        · exact ⟨[' '], .inr rfl, rfl⟩
      obtain ⟨tail, htail, ht⟩ := htail
      obtain ⟨q, hgrows, slot, hslot, hsize, hrun⟩ := run_negative (meaning inner r) s
        (readFloat?_ofInt (t := ofNat (n + 1)) (a := .ofNat (n + 1))
          (Source.tight_ofInt (.ofNat (n + 1))).trim)
      have hopposite : -Decimal.ofInt (.ofNat (n + 1)) = Decimal.ofInt (.negSucc n) := by
        have hpositive : ¬ (Int.ofNat (n + 1) < 0) := Int.not_lt.mpr (Int.natCast_nonneg _)
        rw [Decimal.ofInt, Decimal.ofInt, if_neg hpositive, if_pos (Int.negSucc_lt_zero n)]
        rfl
      refine ⟨.number slot, { s.pool with quantities := q }, (t, .number slot) :: s.results, ?_,
        ⟨hgrows, rfl⟩, .inr rfl,
        .number h.isPlain_negSucc hslot (hopposite ▸ hsize) (readFloat?_ofInt h.trim)⟩
      have hvariable : t.any (· == '$') = false := by
        simpa using fun c hc => ne_of_mem_of_not_mem hc (h.notMem (by decide) (by decide))
      have hvalue : (value inner t r).run s =
          (.ok (.number slot), { s with pool := { s.pool with quantities := q } }) := by
        rw [ht, value, parse_negative (n + 1) htail, guarded, Run.bind_ok (Run.attempt_ok hrun)]
        rfl
      simp only [calculate, run_keptResult_bind, hkept, h.isPlain_negSucc, Bool.false_eq_true,
        if_false]
      rw [Run.bind_ok (run_interpolate inner r false s (h.notMem (by decide) (by decide))),
        Run.bind_ok hvalue]
      simp only [pure_bind, hvariable]
      rfl

theorem run_calculate (h : Bound a t) (inner : Compiler) (r : Nat) (c : Context) {s : Session}
    (hs : Faithful s.pool s.results) :
    ∃ v pool results, (calculate inner r c t).run s = (.ok v, { s with pool, results }) ∧
      Richer s.pool pool ∧ Faithful pool results ∧ Kept pool t v := by
  obtain ⟨v, pool, results, hrun, hricher, hresults, hkept⟩ :=
    h.run_calculate_of_lookup inner r c fun _ => hs.lookup
  refine ⟨v, pool, results, hrun, hricher, ?_, hkept⟩
  rcases hresults with rfl | rfl
  · exact hs.mono hricher
  · exact (hs.mono hricher).cons hkept

end Bound

/-! ## Heads of loops -/

/-- The head of a counting loop behind the name of the directive. -/
def countHeader (var first word last : Text) : Text :=
  var ++ ' ' :: ("from".toList ++ ' ' :: (first ++ ' ' :: (word ++ ' ' :: last)))

theorem cut_spaced {mark b : Text} (hmark : mark ≠ []) (hblank : ' ' ∉ mark)
    (h : ¬ mark <:+: a) : cut mark (a ++ ' ' :: (mark ++ b)) = (a ++ [' '], b) := by
  rw [cut, (cut?_append_cons_iff hmark hblank).mpr h]
  rfl

theorem cut_of_isInfix {mark : Text} (h : mark <:+: a) :
    ∃ p q, a = p ++ (mark ++ q) ∧ ∀ r, cut mark (a ++ r) = (p, q ++ r) := by
  obtain ⟨⟨p, q⟩, hcut⟩ := Option.isSome_iff_exists.mp (contains_iff.mpr h)
  refine ⟨p, q, eq_append_of_cut? hcut, fun r => ?_⟩
  rw [cut, cut?_append hcut]
  rfl

theorem infix_cons_blank {mark : Text} (hmark : mark ≠ []) (hblank : ' ' ∉ mark) :
    mark <:+: ' ' :: a ↔ mark <:+: a := by
  refine ⟨fun h => ?_, infix_cons⟩
  rcases infix_append_cons (a := []) hblank h with h | h
  · exact absurd (infix_nil.mp h) hmark
  · exact h

/-- The variable of a head is read as it is written, unless it has the first word in its name. -/
theorem fst_readCount_iff {word : Text} :
    (readCount (countHeader var first word last)).1 = var ++ [' '] ↔
      ¬ "from".toList <:+: var := by
  have hread : ∀ head : Text, (readCount head).1 = (cut "from".toList head).1 := by
    intro head
    unfold readCount
    dsimp only
    split_ifs <;> rfl
  rw [hread]
  refine ⟨fun h hfound => ?_, fun h => ?_⟩
  · obtain ⟨p, q, hvar, hcut⟩ := cut_of_isInfix hfound
    rw [countHeader, hcut, hvar] at h
    have hlength := congrArg length h
    simp only [length_append, length_singleton] at hlength
    omega
  · rw [countHeader, cut_spaced (by decide) (by decide) h]

/-- Where the variable is read as it is written, the rest is cut by itself. -/
theorem readCount_countHeader {word : Text} (h : ¬ "from".toList <:+: var) :
    readCount (countHeader var first word last) =
      let range := ' ' :: first ++ ' ' :: (word ++ ' ' :: last)
      let parts := cut "through".toList range
      (var ++ [' '], if parts.2.isEmpty then cut "to".toList parts.1 else parts) := by
  have hfrom : cut "from".toList (countHeader var first word last) =
      (var ++ [' '], ' ' :: first ++ ' ' :: (word ++ ' ' :: last)) :=
    cut_spaced (by decide) (by decide) h
  simp only [readCount, hfrom]
  split_ifs <;> rfl

/-- A loop up to and with its last number is read as it is written, unless its variable or its first
number has the word behind it in its name. -/
theorem readCount_through_iff :
    readCount (countHeader var first "through".toList last) =
        (var ++ [' '], ' ' :: (first ++ [' ']), ' ' :: last) ↔
      ¬ "from".toList <:+: var ∧ ¬ "through".toList <:+: first := by
  by_cases hvar : "from".toList <:+: var
  · exact iff_of_false (fun h => fst_readCount_iff.mp (congrArg Prod.fst h) hvar)
      (fun h => h.1 hvar)
  rw [readCount_countHeader hvar]
  dsimp only
  by_cases hfirst : "through".toList <:+: first
  · refine iff_of_false (fun h => ?_) (fun h => h.2 hfirst)
    obtain ⟨p, q, heq, hcut⟩ := cut_of_isInfix (infix_cons (a := ' ') hfirst)
    have hlast : (q ++ ' ' :: ("through".toList ++ ' ' :: last)).isEmpty = false := by simp
    simp only [hcut, hlast, Bool.false_eq_true, if_false, Prod.mk.injEq] at h
    have hlength := congrArg length (h.2.1 ▸ heq)
    simp only [length_append, length_cons, length_nil] at hlength
    omega
  · refine iff_of_true ?_ ⟨hvar, hfirst⟩
    have hthrough : cut "through".toList
        (' ' :: first ++ ' ' :: ("through".toList ++ ' ' :: last)) =
          (' ' :: first ++ [' '], ' ' :: last) :=
      cut_spaced (by decide) (by decide)
        (mt (infix_cons_blank (by decide) (by decide)).mp hfirst)
    simp only [hthrough]
    rfl

/-- A loop that counts with a variable from the value of one text to the value of another. -/
def loopBetween (inner : Compiler) (f : Frame) (var first last code : Text) : Run Unit := do
  let v ← calculate inner f.rule (← Run.contextOf f.rule) first
  let w ← calculate inner f.rule (← Run.contextOf f.rule) last
  let bounds : Run (Int × Int) := do
    let a ← boundOf v
    let b ← boundOf w
    return (a, b)
  match ← Run.attempt bounds with
  | .error .wrongValue => return
  | .error e => throw e
  | .ok (a, b) => countThrough inner f var code (steps a b)

theorem interpolate_plain (r : Nat) (unquote : Bool) (h : '#' ∉ t) :
    interpolate inner r unquote t = pure t := by
  have hbrace : contains t ['#', '{'] = false := contains_eq_false_of_notMem h
  simp [interpolate, hbrace]

/-- What a counting loop does follows from how its head is read. -/
theorem runCount_eq (f : Frame) {head : Text} (code : Text)
    (hhead : readCount head = (var, first, last)) (hplain : '#' ∉ trim var) :
    runCount inner f head code = loopBetween inner f (trim var) first last code := by
  have hvar := interpolate_plain inner f.rule true hplain
  simp only [runCount, countOf, loopBetween, hhead, bind_assoc]
  refine bind_congr fun _ => bind_congr fun v => bind_congr fun _ => bind_congr fun w =>
    bind_congr fun bounds => ?_
  rcases bounds with e | ⟨a, b⟩
  · cases e <;> rfl
  · simp only [hvar, pure_bind]

theorem run_loopBetween (f : Frame) (var code : Text) {s s₁ s₂ : Session} {v w : Value} {a b : Int}
    (hfirst : (calculate inner f.rule (variablesOf s f.rule) first).run s = (.ok v, s₁))
    (hlast : (calculate inner f.rule (variablesOf s₁ f.rule) last).run s₁ = (.ok w, s₂))
    (ha : (boundOf v).run s₂.pool = (.ok a, s₂.pool))
    (hb : (boundOf w).run s₂.pool = (.ok b, s₂.pool)) :
    (loopBetween inner f var first last code).run s =
      (countThrough inner f var code (steps a b)).run s₂ := by
  have hbound : ∀ {u : Value} {i : Int}, (boundOf u).run s₂.pool = (.ok i, s₂.pool) →
      (Run.ofCalc (boundOf u)).run s₂ = (.ok i, s₂) := by
    intro u i hu
    rw [Run.run_ofCalc, hu]
  have hbounds : (do
      let a ← (boundOf v : Calc Int)
      let b ← (boundOf w : Calc Int)
      return (a, b) : Run (Int × Int)).run s₂ = (.ok (a, b), s₂) :=
    (Run.bind_ok (hbound ha)).trans (Run.bind_ok (hbound hb))
  rw [variablesOf] at hfirst hlast
  rw [loopBetween, Run.run_contextOf_bind, Run.bind_ok hfirst, Run.run_contextOf_bind,
    Run.bind_ok hlast, Run.bind_ok (Run.attempt_ok hbounds)]

theorem readCount_loop (a b : Int) :
    readCount (counterName ++ ' ' :: (Source.fromWord.text ++ loopRange a b)) =
      (counterName ++ [' '], ' ' :: (ofInt a ++ [' ']), ' ' :: ofInt b) := by
  have hdigit : 't' ∉ ofInt a := fun ht =>
    absurd (Source.isName_of_mem_ofInt ht).2.1 (by decide)
  exact readCount_through_iff.mpr ⟨by decide, fun h => hdigit (h.subset (by decide))⟩

end SheetPress.Compile
