import SheetPress.Compile.Stylesheet
import SheetPress.Proofs.Text.Cutting

/-!
# Running a compilation

What the primitive computations on a session give and leave, one lemma each, so that a
computation is run by rewriting.  Texts without variables and braces go through substitution as
they are, and a plain text is its own value, which the session keeps.
-/

set_option autoImplicit false

namespace SheetPress

open List

namespace Run

variable {s : Session}

variable {σ α β : Type}

/-! ## One part after the other

These hold of computations on any state, not only on a session. -/

theorem bind_ok {x : ExceptT Fault (StateM σ) α} {f : α → ExceptT Fault (StateM σ) β} {s t : σ}
    {a : α} (h : x.run s = (.ok a, t)) : (x >>= f).run s = (f a).run t := by
  change ExceptT.bindCont f (x.run s).1 (x.run s).2 = _
  rw [h]
  rfl

theorem run_bind (x : ExceptT Fault (StateM σ) α) (f : α → ExceptT Fault (StateM σ) β) (s : σ) :
    (x >>= f).run s =
      match x.run s with
      | (.ok a, s') => (f a).run s'
      | (.error e, s') => (.error e, s') := by
  change ExceptT.bindCont f (x.run s).1 (x.run s).2 = _
  cases x.run s with
  | mk r s' => cases r <;> rfl

theorem of_bind_ok {x : ExceptT Fault (StateM σ) α} {f : α → ExceptT Fault (StateM σ) β} {s t : σ}
    {b : β} (h : (x >>= f).run s = (.ok b, t)) :
    ∃ a s', x.run s = (.ok a, s') ∧ (f a).run s' = (.ok b, t) := by
  rw [run_bind] at h
  rcases hx : x.run s with ⟨_ | a, s'⟩
  · rw [hx] at h
    cases h
  · rw [hx] at h
    exact ⟨a, s', rfl, h⟩

variable {x : Run α} (r : Nat)

theorem run_attempt {t : Session} {result : Except Fault α} (h : x.run s = (result, t)) :
    (attempt x).run s = (kept result, t) :=
  congrArg (fun z : Except Fault α × Session => (kept z.1, z.2)) h

theorem attempt_ok {t : Session} {a : α} (h : x.run s = (.ok a, t)) :
    (attempt x).run s = (.ok (.ok a), t) := run_attempt h

theorem exists_of_isOk (h : (x.run s).1.isOk = true) : ∃ a, x.run s = (.ok a, (x.run s).2) := by
  rcases hx : x.run s with ⟨_ | a, t⟩
  · rw [hx] at h
    cases h
  · exact ⟨a, rfl⟩

theorem eq_of_toOption {a : α} (h : (x.run s).1.toOption = some a) :
    x.run s = (.ok a, (x.run s).2) := by
  rcases hx : x.run s with ⟨_ | b, t⟩
  · rw [hx] at h
    cases h
  · rw [hx] at h
    cases h
    rfl

theorem eq_of_isOk {x : Run Unit} (h : (x.run s).1.isOk = true) :
    x.run s = (.ok (), (x.run s).2) :=
  (exists_of_isOk h).choose_spec

theorem run_ofCalc (x : Calc α) (s : Session) :
    (ofCalc x).run s = ((x.run s.pool).1, { s with pool := (x.run s.pool).2 }) := rfl

/-- Computations on values, one after the other, are so as computations on a session. -/
theorem ofCalc_bind (x : Calc α) (f : α → Calc β) :
    ofCalc (x >>= f) = ofCalc x >>= fun a => ofCalc (f a) := by
  funext s
  change (ofCalc (x >>= f)).run s = (ofCalc x >>= fun a => ofCalc (f a)).run s
  rw [run_ofCalc, run_bind, run_bind, run_ofCalc]
  rcases x.run s.pool with ⟨_ | a, p⟩ <;> rfl

@[simp] theorem run_pure (a : α) (s : Session) : (pure a : Run α).run s = (.ok a, s) := rfl

@[simp] theorem run_get_bind (f : Session → Run β) (s : Session) :
    ((get : Run Session) >>= f).run s = (f s).run s := rfl

@[simp] theorem run_modify_bind (g : Session → Session) (f : PUnit → Run β) (s : Session) :
    ((modify g : Run PUnit) >>= f).run s = (f ()).run (g s) := rfl

@[simp] theorem run_modify (g : Session → Session) (s : Session) :
    (modify g : Run PUnit).run s = (.ok (), g s) := rfl

@[simp] theorem run_set (t s : Session) : (set t : Run PUnit).run s = (.ok (), t) := rfl

@[simp] theorem run_lift_pure_bind (a : α) (f : α → Run β) (s : Session) :
    ((monadLift (pure a : Calc α) : Run α) >>= f).run s = (f a).run s := rfl

/-! ## Entries -/

@[simp] theorem run_rule_bind (f : Rule → Run β) (s : Session) :
    (Run.rule r >>= f).run s = (f (s.rules.getD r {})).run s := rfl

@[simp] theorem run_contextOf_bind (f : Context → Run β) (s : Session) :
    (Run.contextOf r >>= f).run s =
      (f (s.contexts.getD (s.rules.getD r {}).context [])).run s := rfl

@[simp] theorem run_settingsOf_bind (f : Settings → Run β) (s : Session) :
    (Run.settingsOf r >>= f).run s =
      (f (s.settings.getD (s.rules.getD r {}).settings [])).run s := rfl

@[simp] theorem run_owner_bind (o : Nat) (f : Owner → Run β) (s : Session) :
    (Run.owner o >>= f).run s = (f (s.owners.getD o ⟨[], [], []⟩)).run s := rfl

@[simp] theorem run_newRule_bind (r : Rule) (f : Nat → Run β) (s : Session) :
    (Run.newRule r >>= f).run s = (f s.rules.size).run { s with rules := s.rules.push r } := rfl

@[simp] theorem run_newContext_bind (c : Context) (f : Nat → Run β) (s : Session) :
    (Run.newContext c >>= f).run s =
      (f s.contexts.size).run { s with contexts := s.contexts.push c } := rfl

@[simp] theorem run_newSettings_bind (t : Settings) (f : Nat → Run β) (s : Session) :
    (Run.newSettings t >>= f).run s =
      (f s.settings.size).run { s with settings := s.settings.push t } := rfl

@[simp] theorem run_newSink_bind (f : Nat → Run β) (s : Session) :
    (Run.newSink >>= f).run s = (f s.sinks.size).run { s with sinks := s.sinks.push [] } := rfl

@[simp] theorem run_newOwner_bind (o : Owner) (f : Nat → Run β) (s : Session) :
    (Run.newOwner o >>= f).run s =
      (f s.owners.size).run { s with owners := s.owners.push o } := rfl

@[simp] theorem run_modifyOwner (o : Nat) (g : Owner → Owner) (s : Session) :
    (Run.modifyOwner o g).run s = (.ok (), { s with owners := s.owners.modify o g }) := rfl

@[simp] theorem run_modifySettings (g : Settings → Settings) (s : Session) :
    (Run.modifySettings r g).run s =
      (.ok (), { s with settings := s.settings.modify (s.rules.getD r {}).settings g }) := rfl

@[simp] theorem run_modifyRule_bind (g : Rule → Rule) (f : PUnit → Run β) (s : Session) :
    (Run.modifyRule r g >>= f).run s = (f ()).run { s with rules := s.rules.modify r g } := rfl

theorem run_addProperty {r k : Nat} (p : Sheet.Property)
    (h : (s.rules.getD r {}).sink = some k) :
    (Run.addProperty r p).run s = (.ok (), { s with sinks := s.sinks.modify k (p :: ·) }) := by
  simp only [Run.addProperty, run_rule_bind, h, run_modify]

end Run

namespace Compile

variable {t : Text} {α β : Type} {p q : Pool} {v : Value} {i : Nat}

/-! ## Texts that stand for themselves -/

variable (inner : Compiler) {results : List (Text × Value)} {a : Array α} (rs : List Nat)

theorem run_interpolate (r : Nat) (unquote : Bool) (s : Session) (h : '#' ∉ t) :
    (interpolate inner r unquote t).run s = (.ok t, s) := by
  have hbrace : Text.contains t ['#', '{'] = false := Text.contains_eq_false_of_notMem h
  simp [interpolate, hbrace]

theorem run_substitute (r : Nat) (c : Context) (unquote : Bool) (s : Session) (hvariable : '$' ∉ t)
    (hbrace : '#' ∉ t) : (substitute inner r c unquote t).run s = (.ok t, s) := by
  have hvalue : substituteValue c unquote t = pure (.word t) := by
    have hany : t.any (· == '$') = false := by
      simpa using fun c hc => ne_of_mem_of_not_mem hc hvariable
    simp [substituteValue, hany]
  have hspelled : (Value.word t).spelled = pure t := by
    simp [Value.spelled, Value.shown]
  simp [substitute, hvalue, hspelled, run_interpolate inner r unquote s hbrace]

@[simp] theorem run_keptResult_bind (t : Text) (f : Option Value → Run β)
    (s : Session) : (keptResult t >>= f).run s = (f (s.results.lookup t)).run s := rfl

@[simp] theorem run_keepResult_bind (t : Text) (v : Value) (f : PUnit → Run β)
    (s : Session) :
    (keepResult t v >>= f).run s = (f ()).run { s with results := (t, v) :: s.results } := rfl

/-- A pool with more quantities, in which nothing else was noted. -/
structure Richer (p q : Pool) : Prop where
  quantities : p.quantities.toList <+: q.quantities.toList
  journal : q.journal = p.journal

theorem Richer.refl (p : Pool) : Richer p p := ⟨prefix_rfl, rfl⟩

theorem Richer.trans {r : Pool} (h : Richer p q) (h' : Richer q r) : Richer p r :=
  ⟨h.quantities.trans h'.quantities, h'.journal.trans h.journal⟩

/-- What may be kept for a text: the text itself, or the quantity that it is the numeral of.  A
plain text stands for itself. -/
inductive Kept (p : Pool) (t : Text) : Value → Prop where
  | word : Kept p t (.word t)
  | number {slot : Nat} {x : Float} (hplain : isPlain t = false)
      (hslot : slot < p.quantities.size)
      (hsize : (p.quantities.getD slot (.bare 0.0)).size = .real x)
      (hread : Decimal.readFloat? t = some x) : Kept p t (.number slot)

theorem Kept.of_plain (h : Kept p t v)
    (hplain : isPlain t = true) : v = .word t := by
  cases h with
  | word => rfl
  | number hother => rw [hplain] at hother; cases hother

/-- All that is kept may be kept. -/
def Faithful (p : Pool) (results : List (Text × Value)) : Prop := ∀ r ∈ results, Kept p r.1 r.2

theorem Faithful.lookup (h : Faithful p results) (hkept : results.lookup t = some v) :
    Kept p t v := by
  obtain ⟨l, l', hl, _⟩ := lookup_eq_some_iff.mp hkept
  exact h (t, v) (by simp [hl])

theorem Faithful.cons (h : Faithful p results) (hv : Kept p t v) :
    Faithful p ((t, v) :: results) := by
  intro r hr
  rcases mem_cons.mp hr with rfl | hr
  · exact hv
  · exact h r hr

theorem run_calculate (r : Nat) (c : Context) {s : Session} (hplain : isPlain t = true)
    (hs : Faithful s.pool s.results) :
    ∃ results, Faithful s.pool results ∧
      (calculate inner r c t).run s = (.ok (.word t), { s with results }) := by
  cases hkept : s.results.lookup t with
  | some v =>
    obtain rfl := (hs.lookup hkept).of_plain hplain
    refine ⟨s.results, hs, ?_⟩
    simp only [calculate, run_keptResult_bind, hkept, Run.run_pure]
  | none =>
    refine ⟨(t, .word t) :: s.results, hs.cons .word, ?_⟩
    simp only [calculate, run_keptResult_bind, hkept, hplain, if_true, run_keepResult_bind,
      Run.run_pure]

/-! ## Tables -/

/-- The sink of a rule. -/
def sinkOf (s : Session) (r : Nat) : Option Nat := (s.rules.getD r {}).sink

theorem getD_of_isPrefix {b : Array α} (h : a.toList <+: b.toList) (hi : i < a.size) (d : α) :
    b.getD i d = a.getD i d := by
  obtain ⟨l, hl⟩ := h
  have hb : b = a ++ l.toArray := by
    apply Array.toList_inj.mp
    simp [hl]
  subst hb
  simp [Array.getD, hi, Nat.lt_add_right]

theorem size_le_of_isPrefix {b : Array α} (h : a.toList <+: b.toList) : a.size ≤ b.size := by
  simpa using h.length_le

theorem Kept.mono (h : Kept p t v) (hq : Richer p q) :
    Kept q t v := by
  cases h with
  | word => exact .word
  | number hplain hslot hsize hread =>
    refine .number hplain (Nat.lt_of_lt_of_le hslot (size_le_of_isPrefix hq.quantities)) ?_ hread
    rw [getD_of_isPrefix hq.quantities hslot, hsize]

theorem Faithful.mono (h : Faithful p results) (hq : Richer p q) :
    Faithful q results := fun r hr => (h r hr).mono hq

theorem prefix_push (a : Array α) (x : α) : a.toList <+: (a.push x).toList := by
  simp

theorem getD_push_size (a : Array α) (x d : α) : (a.push x).getD a.size d = x := by
  simp [Array.getD]

theorem getD_modify_self (f : α → α) (hi : i < a.size) (d : α) :
    (a.modify i f).getD i d = f (a.getD i d) := by
  simp [Array.getD, hi, Array.getElem_modify]

theorem getD_modify_of_ne {j : Nat} (f : α → α) (h : j ≠ i) (d : α) :
    (a.modify i f).getD j d = a.getD j d := by
  simp [Array.getD, Array.getElem_modify, h.symm]

/-- What a change of a rule leaves alone stays the same in all rules. -/
theorem field_modify (f : Rule → β) {g : Rule → Rule}
    (hg : ∀ rule, f (g rule) = f rule) (rules : Array Rule) (x r : Nat) :
    f ((rules.modify x g).getD r {}) = f (rules.getD r {}) := by
  by_cases hx : r = x
  · subst hx
    by_cases hr : r < rules.size
    · rw [getD_modify_self g hr, hg]
    · simp [Array.getD, hr]
  · rw [getD_modify_of_ne g hx]

/-! ## Several rules -/

/-- The rules after each of some rules has been changed in the same way. -/
def modifyAll (rs : List Nat) (g : Rule → Rule) (rules : Array Rule) : Array Rule :=
  rs.foldl (fun rules r => rules.modify r g) rules

theorem run_modifyAll (g : Rule → Rule) (s : Session) :
    (forIn rs PUnit.unit fun r _ => do
        Run.modifyRule r g
        pure (ForInStep.yield PUnit.unit) : Run PUnit).run s =
      (.ok (), { s with rules := modifyAll rs g s.rules }) := by
  induction rs generalizing s with
  | nil => rfl
  | cons r rs ih =>
    rw [forIn_cons, bind_assoc, Run.run_modifyRule_bind, pure_bind]
    exact ih _

theorem size_modifyAll (g : Rule → Rule) (rules : Array Rule) :
    (modifyAll rs g rules).size = rules.size := by
  induction rs generalizing rules with
  | nil => rfl
  | cons r rs ih =>
    rw [modifyAll, foldl_cons]
    exact (ih _).trans (by simp)

theorem getD_modifyAll_of_notMem {r : Nat} (hr : r ∉ rs) (g : Rule → Rule) (rules : Array Rule) :
    (modifyAll rs g rules).getD r {} = rules.getD r {} := by
  induction rs generalizing rules with
  | nil => rfl
  | cons x rs ih =>
    simp only [mem_cons, not_or] at hr
    rw [modifyAll, foldl_cons]
    exact (ih hr.2 _).trans (getD_modify_of_ne _ hr.1 _)

theorem getD_modifyAll {r : Nat} {rs : List Nat} (hr : r ∈ rs) (hnodup : rs.Nodup)
    (g : Rule → Rule) (rules : Array Rule) (hbound : r < rules.size) :
    (modifyAll rs g rules).getD r {} = g (rules.getD r {}) := by
  induction rs generalizing rules with
  | nil => simp at hr
  | cons x rs ih =>
    rw [nodup_cons] at hnodup
    rw [modifyAll, foldl_cons]
    rcases mem_cons.mp hr with rfl | hr
    · exact (getD_modifyAll_of_notMem rs hnodup.1 g _).trans (getD_modify_self _ hbound _)
    · have hne : r ≠ x := fun h => hnodup.1 (h ▸ hr)
      exact (ih hr hnodup.2 _ (by simpa using hbound)).trans
        (congrArg g (getD_modify_of_ne g hne _))

/-! ## Settings -/

theorem get?_set_self (s : Settings) (name : Text) (v : Setting) :
    (s.set name v).get? name = some v := by
  induction s with
  | nil => simp [Settings.set, Settings.get?]
  | cons p s ih =>
    obtain ⟨key, w⟩ := p
    by_cases h : key = name
    · simp [Settings.set, Settings.get?, h]
    · have hne : (name == key) = false := by simpa using Ne.symm h
      simpa [Settings.set, Settings.get?, h, lookup_cons, hne] using ih

theorem get?_set_of_ne (s : Settings) {name other : Text} (v : Setting) (h : other ≠ name) :
    (s.set name v).get? other = s.get? other := by
  have hne : (other == name) = false := by simpa using h
  induction s with
  | nil => simp [Settings.set, Settings.get?, lookup_cons, hne]
  | cons p s ih =>
    obtain ⟨key, w⟩ := p
    simp only [Settings.get?] at ih
    by_cases hkey : key = name
    · simp [Settings.set, Settings.get?, hkey, lookup_cons, hne]
    · simp [Settings.set, Settings.get?, hkey, lookup_cons, ih]

end Compile

end SheetPress
