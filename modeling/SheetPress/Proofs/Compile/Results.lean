import SheetPress.Proofs.Compile.Mild

/-!
# Kept results

Results of expressions without variables are kept.  A computation *consults* some texts if what it
comes to depends on the kept results of these texts only; whatever it keeps itself comes on top.
Calculating a text consults the text, the expressions in it, and the expressions in the text with
its variables put in (`calculate_consults`).  So a text of which nothing was kept has its value
whatever else was kept, and a text that was kept has the value that was kept, whoever kept it
(`fresh_texts_ignore_results`).
-/

set_option autoImplicit false

namespace SheetPress

open List Text

namespace Run

variable {α β : Type} {r : Nat} {K : Text → Prop}

/-- What was kept of the texts in question is the same in both tables. -/
def SameKept (K : Text → Prop) (kept kept' : List (Text × Value)) : Prop :=
  ∀ e, K e → kept.lookup e = kept'.lookup e

theorem SameKept.append {kept kept' : List (Text × Value)} (h : SameKept K kept kept')
    (new : List (Text × Value)) : SameKept K (new ++ kept) (new ++ kept') := by
  intro e he
  simp only [lookup_append, h e he]

/-- With tables that agree on the texts in question the computation comes to the same, and keeps
the same. -/
def Consults (r : Nat) (K : Text → Prop) (x : Run α) : Prop :=
  ∀ s, Plain r s → ∀ kept kept', SameKept K kept kept' →
    ∃ result p new, s.pool.Drifts p ∧
      x.run { s with results := kept } = (result, { s with pool := p, results := new ++ kept }) ∧
      x.run { s with results := kept' } = (result, { s with pool := p, results := new ++ kept' })

theorem Mild.consults {x : Run α} (h : Mild r x) : Consults r K x := by
  intro s hs kept kept' _
  obtain ⟨result, p, hdrift, hrun⟩ := h s hs
  exact ⟨result, p, [], hdrift, hrun kept, hrun kept'⟩

theorem consults_pure (a : α) : Consults r K (pure a : Run α) := (mild_pure a).consults

/-- The computation that follows has to be looked at for possible results only. -/
theorem Consults.bind {x : Run α} {f : α → Run β} (hx : Consults r K x)
    (hf : ∀ a, (∃ s s', x.run s = (.ok a, s')) → Consults r K (f a)) : Consults r K (x >>= f) := by
  intro s hs kept kept' hsame
  obtain ⟨result, p, new, hdrift, hrun, hrun'⟩ := hx s hs kept kept' hsame
  cases result with
  | error e =>
    refine ⟨.error e, p, new, hdrift, ?_, ?_⟩
    · rw [run_bind, hrun]
    · rw [run_bind, hrun']
  | ok a =>
    obtain ⟨result, p', more, hdrift', hmore, hmore'⟩ :=
      hf a ⟨_, _, hrun⟩ { s with pool := p } hs _ _ (hsame.append new)
    refine ⟨result, p', more ++ new, hdrift.trans hdrift', ?_, ?_⟩
    · rw [run_bind, hrun, append_assoc]
      exact hmore
    · rw [run_bind, hrun', append_assoc]
      exact hmore'

theorem Consults.plain {x : Run α} (hx : Consults r K x) {s : Session} (hs : Plain r s) :
    Plain r (x.run s).2 := by
  obtain ⟨result, p, new, -, hrun, -⟩ := hx s hs s.results s.results fun _ _ => rfl
  rw [hrun]
  exact hs

end Run

open Run
open Calc (Tame tame_bind)

namespace Compile

variable {e t : Text} {s : Session} {v : Value}

variable {r : Nat} {K : Text → Prop} {inner : Compiler}

theorem consults_keptResult (he : K e) : Consults r K (keptResult e) := by
  intro s _ kept kept' hsame
  refine ⟨.ok (kept.lookup e), s.pool, [], .refl _, rfl, ?_⟩
  rw [hsame e he]
  rfl

theorem consults_keepResult (e : Text) (v : Value) : Consults r K (keepResult e v) :=
  fun s _ _ _ _ => ⟨.ok (), s.pool, [(e, v)], .refl _, rfl, rfl⟩

theorem consults_partValue (hinner : MildValues r inner) (unquote : Bool) (he : K e) :
    Consults r K (partValue inner r unquote e) := by
  refine (consults_keptResult he).bind fun found _ => ?_
  split
  · exact consults_pure _
  · split
    · exact (consults_keepResult e _).bind fun _ _ => consults_pure _
    · refine (mild_valueText hinner e).consults.bind fun t _ => ?_
      dsimp only
      split
      · exact (consults_keepResult e _).bind fun _ _ => consults_pure _
      · exact consults_pure _

theorem consults_partValues (hinner : MildValues r inner) (unquote : Bool)
    (pieces : List (Text.Piece Text)) (h : ∀ e, .found e ∈ pieces → K e) :
    Consults r K (partValues inner r unquote pieces) := by
  induction pieces with
  | nil => exact consults_pure []
  | cons piece rest ih =>
    have hrest := ih fun e he => h e (mem_cons_of_mem _ he)
    cases piece with
    | plain c => exact hrest.bind fun _ _ => consults_pure _
    | found e =>
      refine (consults_partValue hinner unquote (h e (by simp))).bind fun _ _ => ?_
      exact hrest.bind fun _ _ => consults_pure _

theorem mild_joinWords (vs : List Value) : Mild r (joinWords vs) := by
  fun_induction joinWords vs <;> grind

/-- Putting the values of its expressions into a text consults these expressions. -/
theorem interpolate_consults (hinner : MildValues r inner) (unquote : Bool) (t : Text)
    (h : ∀ e ∈ finds findBraced t, K e) : Consults r K (interpolate inner r unquote t) := by
  unfold interpolate
  split
  · exact consults_pure _
  · refine (consults_partValues hinner unquote _ fun e he => h e ?_).bind fun vs _ =>
      (mild_joinWords vs).consults
    exact mem_finds.mpr he

/-! ## Expressions that were kept -/

theorem run_partValue_of_kept
    (h : s.results.lookup e = some v) (unquote : Bool) :
    (partValue inner r unquote e).run s = (.ok v, s) := by
  unfold partValue
  rw [run_keptResult_bind, h]
  rfl

/-- An expression that was kept stays kept while others get their values. -/
theorem kept_partValue (hinner : MildValues r inner) (hs : Plain r s)
    (h : s.results.lookup e = some v) (unquote : Bool) (e' : Text) :
    Plain r ((partValue inner r unquote e').run s).2 ∧
      ((partValue inner r unquote e').run s).2.results.lookup e = some v := by
  cases hkept : s.results.lookup e' with
  | some w =>
    rw [run_partValue_of_kept hkept]
    exact ⟨hs, h⟩
  | none =>
    have hne : e ≠ e' := by
      rintro rfl
      simp [h] at hkept
    have hlater : ∀ w, ((e', w) :: s.results).lookup e = some v := by
      intro w
      rw [lookup_cons, beq_eq_false_iff_ne.mpr hne]
      exact h
    obtain ⟨result, p, _, hrun⟩ := mild_valueText hinner e' s hs
    have htext : (valueText inner e' r).run s = (result, { s with pool := p }) := hrun s.results
    unfold partValue
    rw [run_keptResult_bind, hkept]
    dsimp only
    split
    · exact ⟨hs, hlater _⟩
    · rw [run_bind, htext]
      cases result with
      | error _ => exact ⟨hs, h⟩
      | ok t =>
        dsimp only
        split
        · exact ⟨hs, hlater _⟩
        · exact ⟨hs, h⟩

/-- The value of an expression that was kept is among the values put into the text. -/
theorem mem_partValues_of_kept (hinner : MildValues r inner) (unquote : Bool)
    {pieces : List (Text.Piece Text)} {s' : Session} {vs : List Value} (hs : Plain r s)
    (h : s.results.lookup e = some v) (he : .found e ∈ pieces)
    (hrun : (partValues inner r unquote pieces).run s = (.ok vs, s')) : v ∈ vs := by
  induction pieces generalizing s s' vs with
  | nil => simp at he
  | cons piece rest ih =>
    cases piece with
    | plain c =>
      obtain ⟨ws, t, hrest, hws⟩ := of_bind_ok hrun
      obtain ⟨⟨rfl⟩, -⟩ : _ ∧ _ := Prod.mk.injEq .. ▸ hws
      exact mem_cons_of_mem _ (ih hs h (by simpa using he) hrest)
    | found e' =>
      obtain ⟨w, t, hpart, hrun⟩ := of_bind_ok hrun
      obtain ⟨ws, t', hrest, hws⟩ := of_bind_ok hrun
      obtain ⟨⟨rfl⟩, -⟩ : _ ∧ _ := Prod.mk.injEq .. ▸ hws
      rcases mem_cons.mp he with heq | he
      · obtain rfl : e = e' := by simpa using heq
        rw [run_partValue_of_kept h] at hpart
        obtain ⟨⟨rfl⟩, -⟩ : _ ∧ _ := Prod.mk.injEq .. ▸ hpart
        exact mem_cons_self
      · obtain ⟨hs', h'⟩ := kept_partValue hinner hs h unquote e'
        rw [hpart] at hs' h'
        exact mem_cons_of_mem _ (ih (s := t) hs' h' he hrest)

theorem contains_of_mem_finds (h : e ∈ finds findBraced t) :
    Text.contains t ['#', '{'] = true := by
  have hfrom : ∀ before skip t, .found e ∈ scanFrom findBraced before skip t →
      contains t ['#', '{'] = true := by
    intro before skip t
    fun_induction scanFrom findBraced before skip t with
    | case1 => simp
    | case2 before skip c r ih => exact fun h => contains_cons c (ih h)
    | case3 before c r n a hfind ih =>
      intro _
      unfold findBraced at hfind
      split at hfind
      next rest heq =>
        rw [heq]
        rfl
      next => cases hfind
    | case4 before c r hfind ih => exact fun h => contains_cons c (ih (by simpa using h))
  exact hfrom [] 0 t (mem_finds.mp h)

/-- A value fits into a text. -/
def FitsText (v : Value) : Prop := v = .nothing ∨ ∃ t, v = .word t

theorem fitsText_of_joinWords {vs : List Value} {s' : Session}
    (h : (joinWords vs).run s = (.ok t, s')) : ∀ v ∈ vs, FitsText v := by
  fun_induction joinWords vs generalizing t with
  | case1 => simp
  | case2 w rest ih =>
    obtain ⟨u, s₁, hrest, hu⟩ := of_bind_ok h
    have hs₁ : s₁ = s' := (Prod.mk.injEq .. ▸ hu).2
    exact forall_mem_cons.mpr ⟨.inr ⟨w, rfl⟩, ih (hs₁ ▸ hrest)⟩
  | case3 rest ih => exact forall_mem_cons.mpr ⟨.inl rfl, ih h⟩
  | case4 => cases h

/-- A text in which an expression was kept as a value that fits into no text comes to nothing. -/
theorem interpolate_fails (hinner : MildValues r inner) (unquote : Bool)
    (hs : Plain r s) (he : e ∈ finds findBraced t)
    (h : s.results.lookup e = some v) (hv : ¬ FitsText v) :
    ∃ f s', (interpolate inner r unquote t).run s = (.error f, s') := by
  rcases hrun : (interpolate inner r unquote t).run s with ⟨f | u, s'⟩
  · exact ⟨f, s', rfl⟩
  exfalso
  unfold interpolate at hrun
  split at hrun
  next hbrace => simp [contains_of_mem_finds he] at hbrace
  next =>
    obtain ⟨vs, s₁, hvs, hjoin⟩ := of_bind_ok hrun
    have hfound := mem_finds.mp he
    exact hv (fitsText_of_joinWords hjoin v (mem_partValues_of_kept hinner unquote hs h hfound hvs))

/-! ## Variables in texts -/

theorem tame_settle (c : Context) (v : Value) : Tame (c.settle v) := by
  have hfollow : ∀ n v, Tame (c.follow n v) := by
    intro n v
    fun_induction Context.follow c n v <;> grind
  exact hfollow _ v

theorem tame_flatten (c : Context) : Tame c.flatten := by
  have hsettle := tame_settle c
  have hall : ∀ d, Tame (c.settleAll d) := by
    intro d
    fun_induction Context.settleAll c d <;> grind
  exact hall c

theorem tame_substituteValue (c : Context) (unquote : Bool) (t : Text) :
    Tame (substituteValue c unquote t) := by
  have hsettle := tame_settle
  have hflatten := tame_flatten c
  have htext : ∀ flat stretch braced name,
      Tame (variableText flat unquote stretch braced name) := by
    intro flat stretch braced name
    unfold variableText
    grind
  have htexts : ∀ flat pieces, Tame (variableTexts flat unquote pieces) := by
    intro flat pieces
    fun_induction variableTexts flat unquote pieces <;> grind
  unfold substituteValue
  grind

/-- The text with the values of its variables is `u`, in some pool. -/
def TurnsInto (c : Context) (unquote : Bool) (t u : Text) : Prop :=
  ∃ p p', (substituteValue c unquote t >>= Value.spelled).run p = (.ok u, p')

/-- The texts whose kept results may matter where a text is calculated: the text, the expressions
in it, and those in it with the values of its variables. -/
def Reads (c : Context) (t e : Text) : Prop :=
  e = t ∨ e ∈ finds findBraced t ∨ ∃ u, TurnsInto c false t u ∧ e ∈ finds findBraced u

theorem substitute_eq_bind (c : Context) (unquote : Bool) (t : Text) :
    substitute inner r c unquote t =
      ofCalc (substituteValue c unquote t >>= Value.spelled) >>= interpolate inner r unquote := by
  funext s
  change (ofCalc (substituteValue c unquote t) >>= fun v =>
      ofCalc v.spelled >>= interpolate inner r unquote).run s =
    (ofCalc (substituteValue c unquote t >>= Value.spelled) >>= interpolate inner r unquote).run s
  rw [run_bind, run_bind, run_ofCalc, run_ofCalc, run_bind]
  rcases (substituteValue c unquote t).run s.pool with ⟨_ | v, p⟩
  · rfl
  · exact run_bind _ _ _

theorem substitute_consults (hinner : MildValues r inner) (c : Context) (unquote : Bool) (t : Text)
    (h : ∀ u, TurnsInto c unquote t u → ∀ e ∈ finds findBraced u, K e) :
    Consults r K (substitute inner r c unquote t) := by
  have htext : Tame (substituteValue c unquote t >>= Value.spelled) :=
    tame_bind (tame_substituteValue c unquote t) Value.tame_spelled
  rw [substitute_eq_bind]
  refine (mild_ofCalc htext).consults.bind fun u hu =>
    interpolate_consults hinner unquote u (h u ?_)
  obtain ⟨s, s', hs⟩ := hu
  refine ⟨s.pool, s'.pool, ?_⟩
  rw [run_ofCalc] at hs
  obtain ⟨hresult, rfl⟩ := Prod.mk.injEq .. ▸ hs
  exact Prod.ext hresult rfl

theorem calculate_consults (hinner : MildValues r inner) (c : Context) (t : Text)
    (h : ∀ e, Reads c t e → K e) : Consults r K (calculate inner r c t) := by
  refine (consults_keptResult (h t (.inl rfl))).bind fun found _ => ?_
  split
  · exact consults_pure _
  · split
    · exact (consults_keepResult t _).bind fun _ _ => consults_pure _
    · have hparts := interpolate_consults hinner false t fun e he => h e (.inr (.inl he))
      refine hparts.bind fun x _ => ?_
      refine (mild_value hinner x).consults.bind fun v _ => ?_
      have hkeep : ∀ v, Consults r K
          (do if !t.any (· == '$') then keepResult t v
              return v : Run Value) := by
        intro v
        split
        · exact (consults_keepResult t v).bind fun _ _ => consults_pure v
        · exact consults_pure v
      dsimp only
      split
      · refine (substitute_consults hinner c false t fun u hu e he => ?_).bind fun _ _ =>
          (consults_pure _).bind fun v _ => hkeep v
        exact h e (.inr (.inr ⟨u, hu, he⟩))
      · exact (consults_pure _).bind fun v _ => hkeep v

/-! ## Fresh texts -/

/-- The computation comes to the same as if nothing had been kept, and what it keeps is put on top
of what was kept. -/
def IgnoresKept {α : Type} (x : Run α) (s : Session) : Prop :=
  ∃ result s', x.run { s with results := [] } = (result, s') ∧
    x.run s = (result, { s' with results := s'.results ++ s.results })

theorem ignoresKept_of_consults {α : Type} {x : Run α} (hx : Consults r K x)
    (hs : Plain r s) (hfresh : ∀ e, K e → s.results.lookup e = none) : IgnoresKept x s := by
  obtain ⟨result, p, new, -, hrun, hrun'⟩ := hx s hs s.results [] fun e he => by
    rw [hfresh e he, lookup_nil]
  refine ⟨result, _, hrun', ?_⟩
  simpa using hrun

theorem eq_of_turnsInto {c : Context} {unquote : Bool} {u : Text} (ht : '$' ∉ t)
    (h : TurnsInto c unquote t u) : u = t := by
  obtain ⟨p, p', hrun⟩ := h
  have hany : t.any (· == '$') = false := by
    simpa using fun c hc => ne_of_mem_of_not_mem hc ht
  have hvalue : substituteValue c unquote t = pure (.word t) := by
    simp [substituteValue, hany]
  rw [hvalue, pure_bind, show (Value.word t).spelled = pure t by
    simp [Value.spelled, Value.shown]] at hrun
  cases hrun
  rfl

/-- A text of which nothing was kept has its value whatever else was kept.  A text that was kept
has the value that was kept, and an expression that was kept as a value that fits into no text
makes every text around it fail. -/
theorem results_matter_where_kept (n : Nat) {r : Nat} {s : Session} (hs : Plain r s) (c : Context)
    (t : Text) :
    (∀ unquote, (∀ e ∈ Text.finds findBraced t, s.results.lookup e = none) →
      IgnoresKept (interpolate (compiler n) r unquote t) s) ∧
    (∀ unquote, ∀ e ∈ Text.finds findBraced t, ∀ v, s.results.lookup e = some v → ¬ FitsText v →
      ∃ f s', (interpolate (compiler n) r unquote t).run s = (.error f, s')) ∧
    ((∀ e, Reads c t e → s.results.lookup e = none) →
      IgnoresKept (calculate (compiler n) r c t) s) ∧
    ∀ v, s.results.lookup t = some v → (calculate (compiler n) r c t).run s = (.ok v, s) := by
  have hinner := mildValues_compiler r n
  refine ⟨fun unquote hfresh => ?_, fun unquote e he v hv hfits => ?_, fun hfresh => ?_,
    fun v hv => ?_⟩
  · exact ignoresKept_of_consults (interpolate_consults hinner unquote t fun _ he => he) hs hfresh
  · exact interpolate_fails hinner unquote hs he hv hfits
  · exact ignoresKept_of_consults (calculate_consults hinner c t fun _ he => he) hs hfresh
  · unfold calculate
    rw [run_keptResult_bind, hv]
    rfl

/-- A session with one rule and nothing calculated. -/
def firstSession : Session := ((topRule none []).run (Session.restart {} [] [])).2

theorem plain_firstSession : Plain 0 firstSession := by
  intro name f h
  have hmem : (name, .function f) ∈ Session.usualSettings := by
    obtain ⟨before, after, heq, -⟩ := lookup_eq_some_iff.mp h
    have hall : Session.usualSettings = before ++ (name, .function f) :: after := heq
    simp [hall]
  simp [Session.usualSettings] at hmem

/-- A session in which a sum was calculated as a number. -/
def summedSession : Session :=
  { firstSession with
    pool := { quantities := #[.bare 2] }
    results := [("1+1".toList, .number 0)] }

theorem results_matter_where_kept_sum :
    Plain 0 summedSession ∧
      IgnoresKept (interpolate (compiler depthLimit) 0 true "#\x7b2+2\x7d".toList) summedSession ∧
      (∃ f s', (interpolate (compiler depthLimit) 0 true "#\x7b1+1\x7d".toList).run summedSession =
        (.error f, s')) ∧
      IgnoresKept (calculate (compiler depthLimit) 0 [] "2+2".toList) summedSession ∧
      (calculate (compiler depthLimit) 0 [] "1+1".toList).run summedSession =
        (.ok (.number 0), summedSession) := by
  have hs : Plain 0 summedSession := plain_firstSession
  have hnumber : ¬ FitsText (.number 0) := by simp [FitsText]
  have hparts : Text.finds findBraced "2+2".toList = [] := by decide
  have hreads : ∀ e, Reads [] "2+2".toList e → summedSession.results.lookup e = none := by
    rintro e (rfl | he | ⟨u, hu, he⟩)
    · decide
    · exact absurd (hparts ▸ he) List.not_mem_nil
    · obtain rfl := eq_of_turnsInto (by decide) hu
      exact absurd (hparts ▸ he) List.not_mem_nil
  refine ⟨hs, (results_matter_where_kept depthLimit hs [] _).1 true (by decide), ?_,
    (results_matter_where_kept depthLimit hs [] _).2.2.1 hreads,
    (results_matter_where_kept depthLimit hs [] _).2.2.2 _ rfl⟩
  exact (results_matter_where_kept depthLimit hs [] _).2.1 true "1+1".toList (by decide) (.number 0)
    rfl hnumber

/-- A sum that was calculated as a number no longer fits into a text. -/
theorem calculated_sum_breaks_text :
    let s := ((calculate (compiler depthLimit) 0 [] "1+1".toList).run firstSession).2
    ((interpolate (compiler depthLimit) 0 true "#\x7b1+1\x7d".toList).run s).1 =
        .error .wrongKind ∧
      ((interpolate (compiler depthLimit) 0 true "#\x7b1+1\x7d".toList).run
        { s with results := [] }).1.isOk = true := by
  decide +kernel

end Compile

end SheetPress
