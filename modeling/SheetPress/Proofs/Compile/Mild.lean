import SheetPress.Proofs.Compile.Growth
import SheetPress.Proofs.Library.Tame

/-!
# Evaluating expressions

Evaluating an expression neither sets a variable nor looks at the results that were kept; it only
lets the shared parts of values drift.  Such a computation is *mild*.  The functions that a
stylesheet defines are left out here: calling one works on code, which may do anything.
-/

set_option autoImplicit false

namespace SheetPress

namespace Run

variable {α β : Type} {r : Nat}

/-- The rule knows no functions that the stylesheet defines. -/
def Plain (r : Nat) (s : Session) : Prop :=
  ∀ name f, (s.settings.getD (s.rules.getD r {}).settings []).get? name ≠ some (.function f)

/-- The computation changes nothing but the pool, lets it only drift, and comes to the same
whatever results were kept. -/
def Mild (r : Nat) (x : Run α) : Prop :=
  ∀ s, Plain r s → ∃ result p, s.pool.Drifts p ∧
    ∀ kept, x.run { s with results := kept } = (result, { s with pool := p, results := kept })

@[grind ←]
theorem mild_pure (a : α) : Mild r (pure a : Run α) :=
  fun s _ => ⟨.ok a, s.pool, .refl _, fun _ => rfl⟩

@[grind ←]
theorem mild_throw (f : Fault) : Mild r (throw f : Run α) :=
  fun s _ => ⟨.error f, s.pool, .refl _, fun _ => rfl⟩

@[grind ←]
theorem mild_bind {x : Run α} {f : α → Run β} (hx : Mild r x) (hf : ∀ a, Mild r (f a)) :
    Mild r (x >>= f) := by
  intro s hs
  obtain ⟨result, p, hdrift, hrun⟩ := hx s hs
  cases result with
  | error e =>
    refine ⟨.error e, p, hdrift, fun kept => ?_⟩
    rw [run_bind, hrun]
  | ok a =>
    obtain ⟨result, p', hdrift', hrun'⟩ := hf a { s with pool := p } hs
    refine ⟨result, p', hdrift.trans hdrift', fun kept => ?_⟩
    rw [run_bind, hrun]
    exact hrun' kept

@[grind ←]
theorem mild_attempt {x : Run α} (hx : Mild r x) : Mild r (attempt x) := by
  intro s hs
  obtain ⟨result, p, hdrift, hrun⟩ := hx s hs
  exact ⟨_, p, hdrift, fun kept => run_attempt (hrun kept)⟩

@[grind ←]
theorem mild_ofCalc {x : Calc α} (hx : Calc.Tame x) : Mild r (ofCalc x) :=
  fun s _ => ⟨(x.run s.pool).1, (x.run s.pool).2, hx s.pool, fun _ => rfl⟩

@[grind ←]
theorem mild_liftM {x : Calc α} (hx : Calc.Tame x) : Mild r (liftM x : Run α) := mild_ofCalc hx

@[grind ←]
theorem mild_logLine (level : Level) (t : Text) : Mild r (logLine level t) :=
  mild_ofCalc (Calc.tame_logLine level t)

theorem mild_get {f : Session → Run α} (hf : ∀ s, Mild r (f s))
    (hkept : ∀ s kept, f { s with results := kept } = f s) : Mild r (get >>= f) := by
  intro s hs
  obtain ⟨result, p, hdrift, hrun⟩ := hf s s hs
  refine ⟨result, p, hdrift, fun kept => ?_⟩
  change (f { s with results := kept }).run _ = _
  rw [hkept]
  exact hrun kept

@[grind ←]
theorem mild_contextOf (q : Nat) : Mild r (contextOf q) :=
  mild_get (fun _ => mild_pure _) fun _ _ => rfl

@[grind ←]
theorem mild_placeOf (q : Nat) : Mild r (placeOf q) := by
  refine mild_get (fun s => ?_) fun _ _ => rfl
  dsimp only
  repeat' split
  all_goals grind

theorem mild_settingsOf {f : Settings → Run α}
    (hf : ∀ t : Settings, (∀ name g, t.get? name ≠ some (.function g)) → Mild r (f t)) :
    Mild r (settingsOf r >>= f) := by
  intro s hs
  obtain ⟨result, p, hdrift, hrun⟩ := hf _ hs s hs
  exact ⟨result, p, hdrift, hrun⟩

end Run

open Run Calc

/-! ## Expressions -/

namespace Expr

/-- The computations that give expressions a meaning are mild. -/
structure Meaning.Mild (r : Nat) (m : Meaning) : Prop where
  named : ∀ name, Run.Mild r (m.named name)
  call : ∀ name arguments, Run.Mild r (m.call name arguments)
  measure : ∀ v unit, Run.Mild r (m.measure v unit)

@[grind ←]
theorem tame_signed (sign : Char) (v : Value) : Tame (v.signed sign) := by
  unfold Value.signed
  grind

variable {r : Nat} {m : Meaning}

mutual

theorem mild_eval (hm : m.Mild r) : (e : Expr) → Mild r (eval m e)
  | .word _ | .numeral _ | .string _ | .quoted _ | .truth _ | .colour _ | .broken _ => by
      unfold eval
      grind
  | .variable name => hm.named name
  | .call name none => hm.call name none
  | .call name (some items) => by
      have := mild_evalItems hm items
      have := hm.call
      unfold eval listOfNamed
      grind
  | .measured e u => by
      have := mild_eval hm e
      have := hm.measure
      unfold eval
      grind
  | .negative e | .bang e | .negation e => by
      have := mild_eval hm e
      unfold eval
      grind
  | .operation _ a b | .comparison _ a b | .both a b | .either a b | .instead a b => by
      have := mild_eval hm a
      have := mild_eval hm b
      unfold eval
      grind
  | .row items | .list items | .halted items _ => by
      have := mild_evalItems hm items
      unfold eval
      grind [listOfNamed]

theorem mild_evalItems (hm : m.Mild r) :
    (items : List (Option Text × Expr)) → Mild r (evalItems m items)
  | [] => mild_pure []
  | (name, e) :: rest => by
      have := mild_eval hm e
      have := mild_evalItems hm rest
      unfold evalItems
      grind

end

end Expr

namespace Compile

/-- The inner operations evaluate expressions of the rule mildly. -/
def MildValues (r : Nat) (inner : Compiler) : Prop := ∀ e, Mild r (inner.value e r)

variable {r : Nat} {inner : Compiler}

theorem mild_variableValue (hinner : MildValues r inner) (name : Text) :
    Mild r (variableValue inner r name) := by
  unfold MildValues at hinner
  unfold variableValue
  grind

@[grind ←]
theorem tame_argumentText (between : Text) (items : List (Key × Value)) :
    Tame (argumentText between items) := by
  have hnamed : ∀ items, Tame (namedTexts items) := by
    intro items
    fun_induction namedTexts items <;> grind
  unfold argumentText
  grind

theorem mild_unknownCall (name : Text) (arguments : Listing) :
    Mild r (unknownCall r name arguments) := by
  unfold unknownCall
  grind

theorem mild_library (name : Text) (ordered : List Value) (named : List (Text × Value)) :
    Mild r
      (match Library.find? name ordered.length with
        | some f => (f.apply ordered named : Calc Value)
        | none => throw .missingKey : Run Value) := by
  split
  next f hf => exact mild_liftM ((Library.tame_find? hf).apply ordered named)
  next => exact mild_throw _

/-- Without functions of the stylesheet a call goes to the library. -/
theorem mild_applyFunction (name : Text) (ordered : List Value) (named : List (Text × Value)) :
    Mild r (applyFunction inner r name ordered named) := by
  have hlibrary := mild_library (r := r) name ordered named
  refine mild_settingsOf fun t ht => ?_
  split
  next f hf => exact absurd hf (ht _ f)
  next setting _ _ =>
    have hsetting : Tame setting.isTrue := by
      unfold Setting.isTrue
      grind
    refine mild_bind (mild_liftM hsetting) fun _ => ?_
    split
    · exact mild_throw _
    · exact hlibrary
  next => exact hlibrary

theorem mild_callWith (name : Text) (arguments : Listing) {otherwise : Run Value}
    (h : Mild r otherwise) : Mild r (callWith inner r name arguments otherwise) := by
  have happly : ∀ name ordered named, Mild r (applyFunction inner r name ordered named) :=
    mild_applyFunction
  unfold callWith
  refine mild_bind (mild_attempt (mild_bind (happly _ _ _) fun v => ?_)) fun _ => ?_
  · grind
  · grind

theorem mild_meaning (hinner : MildValues r inner) : (meaning inner r).Mild r where
  named := mild_variableValue hinner
  call := by
    intro name arguments
    refine mild_bind ?_ fun _ => mild_callWith name _ (mild_unknownCall name _)
    unfold argumentsOf
    grind
  measure := by
    intro v unit
    exact mild_callWith unit _ (mild_bind (mild_liftM (by grind)) fun _ => mild_pure _)

theorem mild_guarded (expression : Text) {x : Run Value} (hx : Mild r x) :
    Mild r (guarded r expression x) := by
  have hdebug : ∀ f : Fault, Mild r (do
      if (← get).debug then throw f
      return Value.nothing : Run Value) := by
    intro f
    refine mild_get (fun s => ?_) fun _ _ => rfl
    dsimp only
    split
    · exact mild_bind (mild_throw f) fun _ => mild_pure _
    · exact mild_pure _
  unfold guarded
  refine mild_bind (mild_attempt hx) fun result => ?_
  split
  · exact mild_pure _
  · dsimp only
    split
    · rw [if_neg (by decide)]
      exact hdebug _
    · rw [if_pos (by decide)]
      refine mild_bind (mild_placeOf r) fun _ => ?_
      exact mild_bind (mild_ofCalc (tame_note _)) fun _ => hdebug _

theorem mild_value (hinner : MildValues r inner) (expression : Text) :
    Mild r (value inner expression r) :=
  mild_guarded expression (Expr.mild_eval (mild_meaning hinner) _)

theorem mild_valueText (hinner : MildValues r inner) (expression : Text) :
    Mild r (valueText inner expression r) := by
  have heval := Expr.mild_eval (mild_meaning hinner) (Expr.parse expression)
  refine mild_bind (mild_guarded expression (mild_bind heval fun v => ?_)) fun v => ?_
  · split
    · exact mild_pure _
    · exact mild_bind (mild_liftM (Value.tame_shown _)) fun _ => mild_pure _
  · split
    · exact mild_pure _
    · exact mild_pure _

/-- However deep variables that hold expressions are followed. -/
theorem mildValues_compiler (r n : Nat) : MildValues r (compiler n) := by
  induction n with
  | zero => exact fun _ => mild_throw _
  | succ n ih => exact fun e => mild_value ih e

end Compile

end SheetPress
