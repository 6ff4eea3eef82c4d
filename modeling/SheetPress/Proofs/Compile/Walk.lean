import SheetPress.Proofs.Compile.Run

/-!
# Walking through work on code

Work on code evaluates expressions, changes the variables and the settings of its rule, fills the
rule's place for properties, and goes on with copies of the rule; a call works on code of a rule of
its own.  `Limits` are bounds on what evaluating and working do to a session that all this keeps
to, and `Limits.allow_compiler` says that work on code keeps to them, however deep it nests.
-/

set_option autoImplicit false

namespace SheetPress

open List

namespace Run

variable {α β : Type} {R : Session → Session → Prop}

/-- What the computation leaves of a session is in a relation with it, whatever the result. -/
def Within (R : Session → Session → Prop) (x : Run α) : Prop := ∀ s, R s (x.run s).2

variable {x : Run α}

theorem Within.of_run (hx : Within R x) {s t : Session} {result : Except Fault α}
    (hrun : x.run s = (result, t)) : R s t := by
  have hs := hx s
  rwa [hrun] at hs

theorem Within.mono {R' : Session → Session → Prop} (hx : Within R x) (h : ∀ s t, R s t → R' s t) :
    Within R' x := fun s => h _ _ (hx s)

section Refl

variable [Std.Refl R]

@[grind ←]
theorem within_pure (a : α) : Within R (pure a : Run α) := fun s => refl_of R s

@[grind ←]
theorem within_throw (f : Fault) : Within R (throw f : Run α) := fun s => refl_of R s

@[grind ←]
theorem within_get : Within R (get : Run Session) := fun s => refl_of R s

@[grind ←]
theorem within_rule (r : Nat) : Within R (rule r) := fun s => refl_of R s

@[grind ←]
theorem within_contextOf (r : Nat) : Within R (contextOf r) := fun s => refl_of R s

@[grind ←]
theorem within_settingsOf (r : Nat) : Within R (settingsOf r) := fun s => refl_of R s

@[grind ←]
theorem within_owner (o : Nat) : Within R (owner o) := fun s => refl_of R s

@[grind ←]
theorem within_placeOf (r : Nat) : Within R (placeOf r) := by
  intro s
  unfold placeOf
  rw [run_get_bind]
  dsimp only
  repeat' split
  all_goals first | exact within_pure _ s | exact within_throw _ s

end Refl

@[grind ←]
theorem within_attempt (hx : Within R x) : Within R (attempt x) := hx

theorem within_modify {g : Session → Session} (h : ∀ s, R s (g s)) :
    Within R (modify g : Run PUnit) := h

variable [IsTrans Session R]

@[grind ←]
theorem within_bind {f : α → Run β} (hx : Within R x) (hf : ∀ a, Within R (f a)) :
    Within R (x >>= f) := by
  intro s
  rw [run_bind]
  rcases hrun : x.run s with ⟨_ | a, t⟩
  · exact hx.of_run hrun
  · exact trans_of R (hx.of_run hrun) (hf a t)

variable [Std.Refl R]

theorem within_unless {c : Prop} [Decidable c] {f : Fault} (hx : Within R x) :
    Within R (if c then throw f >>= fun _ : PUnit => x else x) := by
  split
  · exact within_bind (within_throw f) fun _ => hx
  · exact hx

theorem within_forIn {f : α → β → Run (ForInStep β)} (hf : ∀ a b, Within R (f a b)) (l : List α)
    (b : β) : Within R (forIn l b f) := by
  induction l generalizing b with
  | nil => exact within_pure b
  | cons a l ih =>
    rw [forIn_cons]
    refine within_bind (hf a b) fun step => ?_
    cases step with
    | done b => exact within_pure b
    | yield b => exact ih b

theorem within_mapM {f : α → Run β} (hf : ∀ a, Within R (f a)) (l : List α) :
    Within R (l.mapM f) := by
  induction l with
  | nil => exact within_pure []
  | cons a l ih =>
    rw [mapM_cons]
    exact within_bind (hf a) fun _ => within_bind ih fun _ => within_pure _

end Run

namespace Compile

/-- No setting is lost but the one that conditions leave. -/
def KeepsNames (g : Settings → Settings) : Prop :=
  ∀ (t : Settings) (name : Text), name ≠ conditionKey → t.has name = true → (g t).has name = true

theorem keepsNames_set (key : Text) (v : Setting) : KeepsNames (Settings.set key v) := by
  intro t name _ hname
  unfold Settings.has at hname ⊢
  by_cases h : name = key
  · rw [h, get?_set_self, Option.isSome_some]
  · rwa [get?_set_of_ne t v h]

theorem keepsNames_foldl {ι : Type} {g : Settings → ι → Settings}
    (hg : ∀ x, KeepsNames fun t => g t x) (xs : List ι) : KeepsNames fun t => xs.foldl g t := by
  induction xs with
  | nil => exact fun _ _ _ h => h
  | cons x xs ih => exact fun t name hne h => ih (g t x) name hne (hg x t name hne h)

theorem get?_erase_of_ne (t : Settings) {name other : Text} (h : other ≠ name) :
    (t.erase name).get? other = t.get? other := by
  change List.lookup other (List.filter _ t) = List.lookup other t
  induction t with
  | nil => rfl
  | cons p t ih =>
    obtain ⟨key, v⟩ := p
    by_cases hkey : key = name
    · have hne : (other == key) = false := by simpa [hkey] using h
      rw [filter_cons_of_neg (by simpa using hkey), lookup_cons, hne, ih]
    · rw [filter_cons_of_pos (by simpa using hkey), lookup_cons, lookup_cons, ih]

theorem keepsNames_erase : KeepsNames fun t => t.erase conditionKey := by
  intro t name hne hname
  rwa [Settings.has, get?_erase_of_ne t hne]

/-- Bounds on what evaluating an expression and working on the code of a rule may do to a
session. -/
structure Limits where
  evaluating : Session → Session → Prop
  working : (rule : Nat) → Session → Session → Prop
  refl : ∀ s, evaluating s s
  trans : ∀ {s t u}, evaluating s t → evaluating t u → evaluating s u
  of_evaluating : ∀ r {s t}, evaluating s t → working r s t
  then_working : ∀ {r s t u}, working r s t → working r t u → working r s u
  /-- Values, results, the places of lines and debugging may change. -/
  aside : ∀ s pool debug places results, evaluating s { s with pool, debug, places, results }
  setVariables : ∀ r s g, working r s
    { s with contexts := s.contexts.modify (s.rules.getD r {}).context g }
  setSettings : ∀ r s {g}, KeepsNames g → working r s
    { s with settings := s.settings.modify (s.rules.getD r {}).settings g }
  property : ∀ r s i (p : Sheet.Property), working r s
    { s with sinks := s.sinks.modify i (p :: ·) }
  owner : ∀ r s o {g : Owner → Owner}, (∀ x, (g x).children = x.children) → working r s
    { s with owners := s.owners.modify o g }
  /-- A call works on code of a new rule, with tables of its own. -/
  call : ∀ r s c d (b : Rule) {u}, b.file = (s.rules.getD r {}).file →
    b.sink = some s.sinks.size → b.context = s.contexts.size → b.settings = s.settings.size →
    working s.rules.size
      { s with
        contexts := s.contexts.push c
        settings := s.settings.push d
        sinks := s.sinks.push []
        rules := s.rules.push b } u →
    evaluating s u
  /-- A copy of the rule shares its variables and settings. -/
  copy : ∀ r s (b : Rule) {u}, b.file = (s.rules.getD r {}).file →
    (b.sink = (s.rules.getD r {}).sink ∨ b.sink = none) →
    b.context = (s.rules.getD r {}).context → b.settings = (s.rules.getD r {}).settings →
    working s.rules.size { s with rules := s.rules.push b } u → working r s u
  /-- An included rule has variables of its own. -/
  branch : ∀ r s c (b : Rule) {u}, b.file = (s.rules.getD r {}).file →
    b.sink = (s.rules.getD r {}).sink → b.context = s.contexts.size →
    b.settings = (s.rules.getD r {}).settings →
    working s.rules.size { s with contexts := s.contexts.push c, rules := s.rules.push b } u →
    working r s u
  /-- A nested rule waits for its turn. -/
  nest : ∀ r {s t} c d o (b : Rule), evaluating s t → b.file = (s.rules.getD r {}).file →
    b.sink = some t.sinks.size → working r s
      { t with
        contexts := t.contexts.push c
        settings := t.settings.push d
        sinks := t.sinks.push []
        rules := t.rules.push b
        owners := t.owners.modify o fun x => { x with children := x.children ++ [t.rules.size] } }

namespace Limits

variable {L : Limits} {r : Nat}

instance : Std.Refl L.evaluating := ⟨L.refl⟩

instance : IsTrans Session L.evaluating := ⟨fun _ _ _ => L.trans⟩

instance : Std.Refl (L.working r) := ⟨fun s => L.of_evaluating r (L.refl s)⟩

instance : IsTrans Session (L.working r) := ⟨fun _ _ _ => L.then_working⟩

end Limits

end Compile

namespace Run

open Compile (Limits KeepsNames keepsNames_set)

variable {α β : Type} {L : Limits}

/-! ## Values, variables and settings -/

/-- Work may evaluate. -/
@[grind ←]
theorem Within.working {x : Run α} (hx : Within L.evaluating x) (r : Nat) :
    Within (L.working r) x := hx.mono fun _ _ => L.of_evaluating r

theorem Within.bind {x : Run α} {f : α → Run β} {r : Nat} (hx : Within L.evaluating x)
    (hf : ∀ a, Within (L.working r) (f a)) : Within (L.working r) (x >>= f) :=
  within_bind (hx.working r) hf

@[grind ←]
theorem within_ofCalc (x : Calc α) : Within L.evaluating (ofCalc x) := fun s =>
  L.aside s _ s.debug s.places s.results

@[grind ←]
theorem within_liftM (x : Calc α) : Within L.evaluating (liftM x : Run α) := within_ofCalc x

@[grind ←]
theorem within_monadLift (x : Calc α) : Within L.evaluating (monadLift x : Run α) :=
  within_ofCalc x

@[grind ←]
theorem within_logLine (level : Level) (t : Text) : Within L.evaluating (logLine level t) :=
  within_ofCalc _

@[grind ←]
theorem within_load (file : Option Text) (code : Text) : Within L.evaluating (load file code) :=
  fun s => L.aside s s.pool s.debug _ s.results

@[grind ←]
theorem within_setVariable (r : Nat) (k : Key) (v : Value) :
    Within (L.working r) (setVariable r k v) := fun s => L.setVariables r s _

@[grind ←]
theorem within_modifySettings (r : Nat) {g : Settings → Settings} (hg : KeepsNames g) :
    Within (L.working r) (modifySettings r g) := fun s => L.setSettings r s hg

@[grind ←]
theorem within_setSetting (r : Nat) (name : Text) (v : Setting) :
    Within (L.working r) (setSetting r name v) := within_modifySettings r (keepsNames_set name v)

@[grind ←]
theorem within_addProperty (r : Nat) (p : Sheet.Property) :
    Within (L.working r) (addProperty r p) := by
  unfold addProperty
  refine within_bind (within_rule r) fun rule => ?_
  split
  · exact within_throw _
  · exact within_modify fun s => L.property r s _ p

theorem within_modifyOwner (r o : Nat) {g : Owner → Owner} (h : ∀ x, (g x).children = x.children) :
    Within (L.working r) (modifyOwner o g) := fun s => L.owner r s o h

end Run

open Run Compile

/-! ## Expressions -/

namespace Expr

/-- The computations that give expressions a meaning keep to the limits. -/
structure Meaning.Allowed (L : Limits) (m : Meaning) : Prop where
  named : ∀ name, Within L.evaluating (m.named name)
  call : ∀ name arguments, Within L.evaluating (m.call name arguments)
  measure : ∀ v unit, Within L.evaluating (m.measure v unit)

variable {L : Limits} {m : Meaning}

mutual

theorem within_eval (hm : m.Allowed L) : (e : Expr) → Within L.evaluating (eval m e)
  | .word _ | .numeral _ | .string _ | .quoted _ | .truth _ | .colour _ | .broken _ => by
      unfold eval
      grind
  | .variable name => hm.named name
  | .call name none => hm.call name none
  | .call name (some items) => by
      have := within_evalItems hm items
      have := hm.call
      unfold eval listOfNamed
      grind
  | .measured e u => by
      have := within_eval hm e
      have := hm.measure
      unfold eval
      grind
  | .negative e | .bang e | .negation e => by
      have := within_eval hm e
      unfold eval
      grind
  | .operation _ a b | .comparison _ a b | .both a b | .either a b | .instead a b => by
      have := within_eval hm a
      have := within_eval hm b
      unfold eval
      grind
  | .row items | .list items | .halted items _ => by
      have := within_evalItems hm items
      unfold eval
      grind [listOfNamed]

theorem within_evalItems (hm : m.Allowed L) :
    (items : List (Option Text × Expr)) → Within L.evaluating (evalItems m items)
  | [] => within_pure []
  | (name, e) :: rest => by
      have := within_eval hm e
      have := within_evalItems hm rest
      unfold evalItems
      grind

end

end Expr

namespace Compile

/-- Both operations of a compiler keep to the limits. -/
structure Limits.Allow (L : Limits) (inner : Compiler) : Prop where
  value : ∀ e r, Within L.evaluating (inner.value e r)
  work : ∀ f code, Within (L.working f.rule) (inner.work f code)

attribute [grind ←] Limits.Allow.value Limits.Allow.work

variable {L : Limits} {inner : Compiler}

/-! ## Work on no code of its own -/

section

variable (r : Nat)

@[grind ←]
theorem within_unknownCall (name : Text) (arguments : Listing) :
    Within L.evaluating (unknownCall r name arguments) := by
  unfold unknownCall
  grind

theorem within_guarded (expression : Text) {x : Run Value} (hx : Within L.evaluating x) :
    Within L.evaluating (guarded r expression x) := by
  unfold guarded
  grind

@[grind ←]
theorem within_keptResult (expression : Text) : Within L.evaluating (keptResult expression) :=
  L.refl

@[grind ←]
theorem within_keepResult (expression : Text) (v : Value) :
    Within L.evaluating (keepResult expression v) := fun s => L.aside s s.pool s.debug s.places _

@[grind ←]
theorem within_joinWords (vs : List Value) : Within L.evaluating (joinWords vs) := by
  fun_induction joinWords vs <;> grind

theorem within_define (f : Frame) (line : Int) (kind head code : Text) :
    Within (L.working f.rule) (define f line kind head code) := by
  unfold define
  split
  · exact within_pure _
  · refine within_bind (within_contextOf _) fun _ => (within_monadLift _).bind fun _ => ?_
    exact within_modifySettings _ (keepsNames_foldl (fun _ => keepsNames_set _ _) _)

@[grind ←]
theorem within_checkCondition (tail : Text) : Within L.evaluating (checkCondition r tail) := by
  unfold checkCondition
  refine within_bind (within_settingsOf r) fun _ => ?_
  split
  · exact within_bind (within_placeOf r) fun _ => within_logLine _ _
  · exact within_pure _

@[grind ←]
theorem within_lastCondition : Within L.evaluating (lastCondition r) := by
  unfold lastCondition
  refine within_bind (within_settingsOf r) fun _ => ?_
  split
  · exact within_monadLift _
  · exact within_pure _

@[grind ←]
theorem within_bindItem (var : Text) (item : Key × Value) :
    Within (L.working r) (bindItem r var item) := by
  unfold bindItem
  grind

theorem within_runDebug (t : Text) : Within L.evaluating (runDebug t) := by
  unfold runDebug
  refine within_bind (within_monadLift _) fun on => ?_
  refine within_bind (within_modify fun s => ?_) fun _ => within_logLine _ _
  exact L.aside s s.pool on s.places s.results

end

section Inner

/-! ## Values -/

variable (h : L.Allow inner) (r : Nat) (f : Frame)

include h

@[grind ←]
theorem within_variableValue (name : Text) : Within L.evaluating (variableValue inner r name) := by
  unfold variableValue
  grind

@[grind ←]
theorem within_runFunction (f : FunctionDef) (ordered : List Value) (named : List (Text × Value)) :
    Within L.evaluating (runFunction inner r f ordered named) := by
  unfold runFunction
  refine within_unless (within_bind (within_contextOf _) fun _ => within_unless ?_)
  intro s
  simp only [run_rule_bind, run_newContext_bind, run_settingsOf_bind, run_newSettings_bind,
    run_newSink_bind, run_newRule_bind]
  let b : Rule :=
    { s.rules.getD r {} with
      context := s.contexts.size, settings := s.settings.size, deps := []
      sink := some s.sinks.size, line := f.line }
  split
  · exact L.call r s _ _ b rfl rfl rfl rfl (within_bind (h.work ⟨s.rules.size, _, _, _⟩ _) (fun _ =>
      within_bind (within_settingsOf _) fun _ => within_pure _) _)
  · exact L.call r s _ _ b rfl rfl rfl rfl (within_throw _ _)

@[grind ←]
theorem within_applyFunction (name : Text) (ordered : List Value) (named : List (Text × Value)) :
    Within L.evaluating (applyFunction inner r name ordered named) := by
  unfold applyFunction
  grind

@[grind ←]
theorem within_callWith (name : Text) (arguments : Listing) {otherwise : Run Value}
    (ho : Within L.evaluating otherwise) :
    Within L.evaluating (callWith inner r name arguments otherwise) := by
  unfold callWith
  grind

theorem within_meaning : (meaning inner r).Allowed L where
  named := within_variableValue h r
  call := by
    intro name arguments
    simp only [meaning, callValue, argumentsOf]
    grind
  measure := by
    intro v unit
    simp only [meaning, measuredValue]
    grind

theorem within_value (expression : Text) (r : Nat) :
    Within L.evaluating (value inner expression r) :=
  within_guarded r expression (Expr.within_eval (within_meaning h r) _)

@[grind ←]
theorem within_valueText (expression : Text) (r : Nat) :
    Within L.evaluating (valueText inner expression r) := by
  have heval := Expr.within_eval (within_meaning h r) (Expr.parse expression)
  unfold valueText
  refine within_bind (within_guarded r expression ?_) fun _ => ?_
  · grind
  · grind

/-! ## Texts -/

@[grind ←]
theorem within_partValue (unquote : Bool) (expression : Text) :
    Within L.evaluating (partValue inner r unquote expression) := by
  unfold partValue
  grind

@[grind ←]
theorem within_partValues (unquote : Bool) (pieces : List (Text.Piece Text)) :
    Within L.evaluating (partValues inner r unquote pieces) := by
  fun_induction partValues inner r unquote pieces <;> grind

@[grind ←]
theorem within_interpolate (unquote : Bool) (t : Text) :
    Within L.evaluating (interpolate inner r unquote t) := by
  unfold interpolate
  grind

@[grind ←]
theorem within_substitute (c : Context) (unquote : Bool) (t : Text) :
    Within L.evaluating (substitute inner r c unquote t) := by
  unfold substitute
  grind

@[grind ←]
theorem within_calculate (c : Context) (t : Text) :
    Within L.evaluating (calculate inner r c t) := by
  unfold calculate
  refine within_bind (within_keptResult t) fun _ => ?_
  split
  · exact within_pure _
  · split
    · grind
    · refine within_bind (within_interpolate h _ _ _) fun _ => ?_
      refine within_bind (within_value h _ _) fun _ => ?_
      grind

/-! ## Mixins and imports -/

theorem within_bindArguments (parameters : List Text) (bound : Context)
    (arguments : List (Key × Text)) :
    Within L.evaluating (bindArguments inner r parameters bound arguments) := by
  induction arguments generalizing bound with
  | nil => exact within_pure _
  | cons a rest ih =>
    refine within_bind (within_contextOf r) fun _ => ?_
    exact within_bind (within_calculate h _ _ _) fun _ => ih _

theorem within_settleArguments (arguments : List (Key × Text)) (bound : Context) (keys : List Key) :
    Within L.evaluating (settleArguments inner r arguments bound keys) := by
  induction keys generalizing bound with
  | nil => exact within_pure _
  | cons k rest ih =>
    unfold settleArguments
    split
    · split
      · exact ih _
      · exact within_bind (within_calculate h _ _ _) fun _ => ih _
    · exact ih _

theorem within_runInclude (line : Int) (head : Text) :
    Within (L.working f.rule) (runInclude inner f line head) := by
  unfold runInclude enterMixin
  simp only [bind_assoc]
  refine (within_interpolate h _ _ _).bind fun _ => within_bind (within_settingsOf _) fun _ => ?_
  split
  · simp only [bind_assoc, pure_bind]
    exact within_bind (within_placeOf _) fun _ => (within_logLine _ _).bind fun _ => within_pure _
  · simp only [bind_assoc]
    refine (within_bindArguments h _ _ _ _).bind fun _ => ?_
    refine (within_settleArguments h _ _ _ _).bind fun _ => ?_
    intro s
    simp only [run_contextOf_bind, run_rule_bind, run_newContext_bind, run_newRule_bind]
    let b : Rule := { s.rules.getD f.rule {} with context := s.contexts.size, line }
    split
    · exact L.branch f.rule s _ b rfl rfl rfl rfl (h.work { f with rule := s.rules.size } _ _)
    · exact L.branch f.rule s _ b rfl rfl rfl rfl (within_throw _ _)

@[grind ←]
theorem within_setMapVariable (map name : Text) (usual : Value) :
    Within (L.working r) (setMapVariable inner r map name usual) := by
  unfold setMapVariable
  grind

@[grind ←]
theorem within_setSpriteVariables (map : Text) (defaults : List (Text × Value))
    (images : List Text) :
    Within (L.working r) (setSpriteVariables inner r map defaults images) := by
  induction images with
  | nil => exact within_pure _
  | cons image rest ih =>
    refine within_bind (within_forIn (fun _ _ => ?_) _ _) fun _ => ih
    exact within_bind (within_setMapVariable h _ _ _ _) fun _ => within_pure _

theorem within_importSprites (name : Text) : Within (L.working r) (importSprites inner r name) := by
  unfold importSprites
  refine (within_monadLift _).bind fun _ => ?_
  dsimp only
  split
  · exact within_pure _
  · repeat first
      | refine within_bind (within_setMapVariable h _ _ _ _) fun _ => ?_
      | refine (within_monadLift _).bind fun _ => ?_
    grind

theorem within_copy (code : Text) {g : Rule → Rule} (hfile : ∀ b, (g b).file = b.file)
    (hsink : ∀ b, (g b).sink = b.sink ∨ (g b).sink = none)
    (hcontext : ∀ b, (g b).context = b.context) (hsettings : ∀ b, (g b).settings = b.settings) :
    Within (L.working f.rule) (Run.rule f.rule >>= fun b => Run.newRule (g b) >>= fun rule =>
      inner.work { f with rule } code) := by
  intro s
  rw [run_rule_bind, run_newRule_bind]
  exact L.copy f.rule s _ (hfile _) (hsink _) (hcontext _) (hsettings _)
    (h.work { f with rule := s.rules.size } _ _)

theorem within_importFile (line : Int) (name : Text) :
    Within (L.working f.rule) (importFile inner f line name) := by
  have hcopy : ∀ path code, Within (L.working f.rule) (Run.rule f.rule >>= fun b =>
      Run.newRule { b with path, line } >>= fun rule => inner.work { f with rule } code >>= fun _ =>
      Run.setSetting f.rule ("@import ".toList ++ name) (.flag true)) := by
    intro path code
    have hwork := within_copy h f code (g := fun b => { b with path, line }) (fun _ => rfl)
      (fun _ => .inl rfl) (fun _ => rfl) (fun _ => rfl)
    simpa only [bind_assoc] using within_bind hwork fun _ => within_setSetting _ _ _
  unfold importFile
  refine within_bind (within_settingsOf _) fun _ => ?_
  split
  · exact within_pure _
  · refine (within_monadLift _).bind fun _ => within_bind within_get fun _ => ?_
    refine within_bind (within_rule _) fun _ => ?_
    dsimp only
    split
    · exact within_bind (within_importSprites h _ _) fun _ => (within_logLine _ _).working _
    · split
      · exact within_bind (within_pure _) fun _ => hcopy _ _
      · exact (within_load _ _).bind fun _ => hcopy _ _

@[grind ←]
theorem within_importFiles (line : Int) (names : List Text) :
    Within (L.working f.rule) (importFiles inner f line names) := by
  induction names with
  | nil => exact within_pure _
  | cons t rest ih => exact within_bind (within_importFile h f line _) fun _ => ih

theorem within_runImport (line : Int) (whole names : Text) :
    Within (L.working f.rule) (runImport inner f line whole names) := by
  unfold runImport
  grind

/-! ## Conditions and loops -/

@[grind ←]
theorem within_test (condition : Text) : Within L.evaluating (test inner f condition) := by
  unfold test
  grind

@[grind ←]
theorem within_runIf (condition code : Text) :
    Within (L.working f.rule) (runIf inner f condition code) := by
  unfold runIf
  grind

theorem within_runElseIf (condition code : Text) :
    Within (L.working f.rule) (runElseIf inner f condition code) := by
  unfold runElseIf
  grind

theorem within_runElse (code : Text) : Within (L.working f.rule) (runElse inner f code) := by
  have := within_modifySettings (L := L) f.rule keepsNames_erase
  unfold runElse
  grind

theorem within_countThrough (var code : Text) (is : List Int) :
    Within (L.working f.rule) (countThrough inner f var code is) := by
  induction is with
  | nil => exact within_pure _
  | cons i rest ih =>
    exact within_bind (within_setVariable _ _ _) fun _ => within_bind (h.work f code) fun _ => ih

theorem within_countOf (head : Text) : Within L.evaluating (countOf inner f head) := by
  have hcalculate := within_calculate h
  unfold countOf
  refine within_bind (within_contextOf _) fun _ => within_bind (hcalculate _ _ _) fun _ => ?_
  refine within_bind (within_contextOf _) fun _ => within_bind (hcalculate _ _ _) fun _ => ?_
  grind

theorem within_eachItem (var code : Text) (items : List (Key × Value)) :
    Within (L.working f.rule) (eachItem inner f var code items) := by
  induction items with
  | nil => exact within_pure _
  | cons item rest ih =>
    exact within_bind (within_bindItem _ _ _) fun _ => within_bind (h.work f code) fun _ => ih

theorem within_eachOf (head : Text) : Within L.evaluating (eachOf inner f head) := by
  have hcalculate := within_calculate h
  unfold eachOf
  refine within_bind (within_contextOf _) fun _ => within_bind (hcalculate _ _ _) fun _ => ?_
  grind

/-! ## Declarations and nested rules -/

theorem within_declaredValue (given : Option Text) :
    Within L.evaluating (declaredValue inner r given) := by
  unfold declaredValue
  grind

/-- A declaration evaluates, and sets a variable or adds a property. -/
theorem within_declare {R : Session → Session → Prop} [Std.Refl R] [IsTrans Session R] (line : Int)
    (t : Text) (hR : ∀ s t, L.evaluating s t → R s t)
    (hvariable : ∀ k v, Within R (Run.setVariable f.rule k v))
    (hproperty : ∀ p, Within R (Run.addProperty f.rule p)) : Within R (declare inner f line t) := by
  have hcalc : ∀ {α : Type} (x : Calc α), Within R (monadLift x : Run α) := fun x =>
    (within_monadLift x).mono hR
  unfold declare
  refine within_bind ((within_interpolate h _ _ _).mono hR) fun _ => ?_
  split
  · exact within_pure _
  · refine within_bind ((within_declaredValue h _ _).mono hR) fun _ => ?_
    dsimp only
    split
    · refine within_bind (within_contextOf _) fun _ => within_bind (hcalc _) fun _ => ?_
      split
      · exact within_pure _
      · exact hvariable _ _
    · refine within_bind (within_contextOf _) fun _ => ?_
      refine within_bind ((within_substitute h _ _ _ _).mono hR) fun _ => ?_
      refine within_bind (within_rule _) fun _ => within_unless ?_
      split
      · exact within_bind (within_pure _) fun _ => hproperty _
      · exact within_bind (hcalc _) fun _ => within_bind (within_pure _) fun _ => hproperty _

theorem within_runVariables (code : Text) : Within (L.working f.rule) (runVariables inner f code) :=
  within_copy h f code (fun _ => rfl) (fun _ => .inr rfl) (fun _ => rfl) fun _ => rfl

@[grind ←]
theorem within_nestRule (line : Int) (head code : Text) :
    Within (L.working f.rule) (nestRule inner f line head code) := by
  intro s
  unfold nestRule
  rw [run_rule_bind]
  dsimp only
  split
  · exact within_bind (h.work f code) (fun _ => within_pure _) s
  · rw [run_contextOf_bind, run_bind]
    rcases hrun : ExceptT.run (substitute inner f.rule _ true head) s with ⟨_ | head, t⟩
    · exact ((within_substitute h _ _ _ _).working f.rule).of_run hrun
    · exact L.nest f.rule _ _ _ _ ((within_substitute h _ _ _ _).of_run hrun) rfl rfl

theorem within_nestUnscoped (line : Int) (head code : Text) :
    Within (L.working f.rule) (nestUnscoped inner f line head code) := by
  unfold nestUnscoped
  grind

/-! ## Items -/

theorem within_messageText (t : Text) : Within L.evaluating (messageText inner r t) := by
  unfold messageText
  grind

theorem within_runLine? {f : Frame} {line : Int} {head kind t : Text} {x : Run Unit}
    (hx : runLine? inner f line head kind t = some x) : Within (L.working f.rule) x := by
  have hcalculate : ∀ {α : Type} {g : Value → Run α}, (∀ v, Within (L.working f.rule) (g v)) →
      Within (L.working f.rule) (contextOf f.rule >>= fun c => calculate inner f.rule c t >>= g) :=
    fun hg => within_bind (within_contextOf _) fun _ => (within_calculate h _ _ _).bind hg
  unfold runLine? at hx
  split at hx <;> cases hx
  · exact (within_messageText h _ _).bind fun _ => (within_logLine _ _).working _
  · exact (within_messageText h _ _).bind fun _ => (within_logLine _ _).working _
  · exact hcalculate fun _ => (within_monadLift _).bind fun _ => (within_logLine _ _).working _
  · exact (within_runDebug t).working _
  · exact within_modifySettings _ (keepsNames_foldl (fun _ => keepsNames_set _ _) _)
  · exact within_runImport h _ _ _ _
  · refine within_bind (within_contextOf _) fun _ => ?_
    refine (within_substitute h _ _ _ _).bind fun _ => ?_
    exact within_modifyOwner _ _ fun _ => rfl
  · exact hcalculate fun _ => within_setSetting _ _ _
  · exact within_runInclude h _ _ _

theorem within_runBlock? {f : Frame} {line : Int} {head kind t code : Text} {x : Run Unit}
    (hx : runBlock? inner f line head kind t code = some x) : Within (L.working f.rule) x := by
  unfold runBlock? at hx
  split at hx <;> cases hx
  · exact within_define _ _ _ _ _
  · exact within_define _ _ _ _ _
  · exact within_runIf h _ _ _
  · split
    · exact within_runElseIf h _ _ _
    · exact within_runElse h _ _
  · exact (within_countOf h _ _).bind fun _ => within_countThrough h _ _ _ _
  · exact (within_eachOf h _ _).bind fun _ => within_eachItem h _ _ _ _
  · exact within_runVariables h _ _
  · exact within_runVariables h _ _
  · exact h.work { f with media := some (f.media.getD [] ++ [t]) } _

theorem within_runDirective (line : Int) (head : Text) (code : Option Text) :
    Within (L.working f.rule) (runDirective inner f line head code) := by
  unfold runDirective
  dsimp only
  split
  next x hx => exact within_runLine? h hx
  next =>
    split
    next => exact within_addProperty _ _
    next code =>
      cases hx : runBlock? inner f line head _ _ code with
      | none => exact within_nestUnscoped h _ _ _ _
      | some x => exact within_runBlock? h hx

theorem within_runItem (i : Source.Item) : Within (L.working f.rule) (runItem inner f i) := by
  have := within_runDirective h
  have := h.work
  have := fun line t => within_declare h f line t (fun s t => L.of_evaluating f.rule)
    (within_setVariable _) (within_addProperty _)
  have := within_nestUnscoped h
  unfold runItem
  grind

theorem within_runItems (fault : Option Fault) (items : List Source.Item) :
    Within (L.working f.rule) (runItems inner f fault items) := by
  induction items with
  | nil =>
    unfold runItems
    split
    · exact within_pure _
    · exact within_throw _
  | cons i rest ih =>
    refine within_bind (within_settingsOf _) fun _ => ?_
    split
    · exact within_pure _
    · exact within_bind (within_runItem h f i) fun _ => ih

end Inner

/-- Work on code keeps to the limits, however deep the code nests. -/
theorem Limits.allow_compiler (L : Limits) (n : Nat) : L.Allow (compiler n) := by
  induction n with
  | zero => exact ⟨fun _ _ => within_throw _, fun _ _ => within_throw _⟩
  | succ n ih => exact ⟨fun e r => within_value ih e r, fun f _ => within_runItems ih f _ _⟩

end Compile

end SheetPress
