import SheetPress.Proofs.Compile.Branches
import SheetPress.Proofs.Compile.Calls

/-!
# The first return

Once a function has returned, no item is worked on; but loops still go through their rounds, and a
condition still leaves its setting.  `prompt` works on code and stops at the first return: behind it
the loops around it only bind their variables, and no code is looked at.  A call comes to the same
with it (`first_return_wins`).  Two faults behind the return are still seen: an item of a list that
has no text, and code that cannot be split behind its last item.
-/

set_option autoImplicit false

namespace SheetPress.Compile

open Text Run

/-! ## Working up to the first return -/

/-- Rounds up to the one that returns; for the others the variable is bound, and that is all. -/
def promptRounds {ι : Type} (prepare : ι → Run Unit) (go : Run Bool) : List ι → Run Bool
  | [] => return false
  | i :: rest => do
    prepare i
    if ← go then
      rest.forM prepare
      return true
    promptRounds prepare go rest

/-- A block with a condition. -/
def promptIf (n : Nat) (f : Frame) (condition : Text) (go : Run Bool) : Run Bool := do
  let held ← test (compiler n) f condition
  let returned ← if held then go else pure false
  Run.setSetting f.rule conditionKey (.flag held)
  return returned

/-- A directive with a block, if it is a condition or a loop. -/
def promptBlock? (n : Nat) (f : Frame) (head kind t : Text) (go : Run Bool) : Option (Run Bool) :=
  match String.ofList kind with
  | "@if" => some (promptIf n f t go)
  | "@else" =>
    some (match after? "@else if ".toList head with
      | some condition => do
        checkCondition f.rule [')']
        if !(← lastCondition f.rule) then promptIf n f (trim condition) go else return false
      | none => do
        checkCondition f.rule []
        let held ← lastCondition f.rule
        Run.modifySettings f.rule fun s => s.erase conditionKey
        if !held then go else return false)
  | "@for" => some do
    let (var, values) ← countOf (compiler n) f t
    promptRounds (fun i => Run.setVariable f.rule (.name var) (.word (ofInt i))) go values
  | "@each" => some do
    let (var, items) ← eachOf (compiler n) f t
    promptRounds (bindItem f.rule var) go items
  | _ => none

/-- Work on an item up to the first return. -/
def promptItem (n : Nat) (go : Frame → Text → Run Bool) (f : Frame) (i : Source.Item) :
    Run Bool := do
  let head := expandHead i.head
  let (kind, t) := firstWord head
  let kind := lower kind
  if head.head? == some '@' && String.ofList kind == "@include" then
    match ← enterMixin (compiler n) f i.line t with
    | none => return false
    | some (rule, code) => go { f with rule } code
  else
    match if head.head? == some '@' then
        i.code.bind fun code => promptBlock? n f head kind t (go f code) else none with
    | some x => x
    | none =>
      runItem (compiler n) f i
      return (← Run.settingsOf f.rule).has returnKey

/-- Work on items up to the first return. -/
def promptItems (n : Nat) (go : Frame → Text → Run Bool) (f : Frame) (fault : Option Fault) :
    List Source.Item → Run Bool
  | [] => fault.elim (pure false) throw
  | i :: rest => do
    if ← promptItem n go f i then
      fault.elim (pure ()) fun e => if rest.isEmpty then throw e else pure ()
      return true
    promptItems n go f fault rest

/-- Work on code up to the first return, and say whether there was one. -/
def prompt : (n : Nat) → Frame → Text → Run Bool
  | 0, _, _ => throw .tooDeep
  | n + 1, f, code => promptItems n (prompt n) f (Source.items code).fault (Source.items code).items

/-! ## One part after the other -/

/-- In a rule in which no function has returned, the first computation comes to the same as the
second one, which says whether one has returned then. -/
def Stops (r : Nat) (x : Run Unit) (y : Run Bool) : Prop :=
  ∀ s, Standing r false s → x.run s = ((y.run s).1.map fun _ => (), (y.run s).2) ∧
    ∀ b, (y.run s).1 = .ok b → Standing r b (y.run s).2

variable {r : Nat} {s t : Session}

theorem stops_throw (e : Fault) : Stops r (throw e) (throw e) := fun _ _ => ⟨rfl, nofun⟩

theorem stops_pure : Stops r (pure ()) (pure false) := fun _ hs =>
  ⟨rfl, fun _ hb => Except.ok.inj hb ▸ hs⟩

theorem Stops.after {α : Type} {p : Run α} {x : α → Run Unit} {y : α → Run Bool}
    (hp : Within (Stays r false) p) (h : ∀ a, Stops r (x a) (y a)) :
    Stops r (p >>= x) (p >>= y) := by
  intro s hs
  have hstanding := hp s hs
  rw [run_bind, run_bind]
  rcases hrun : p.run s with ⟨e | a, t⟩
  · exact ⟨rfl, by simp⟩
  · rw [hrun] at hstanding
    exact h a t hstanding

/-- What comes next depends on whether a function has returned. -/
theorem Stops.bind {x z w : Run Unit} {y : Run Bool} {y' : Bool → Run Bool} (h : Stops r x y)
    (hgoing : Stops r z (y' false)) (hy' : y' true = w >>= fun _ => pure true)
    (hreturned : (∃ s t, y.run s = (.ok true, t)) → Follows r true z w) :
    Stops r (x >>= fun _ => z) (y >>= y') := by
  intro s hs
  obtain ⟨hx, hb⟩ := h s hs
  rw [run_bind, run_bind, hx]
  rcases hy : y.run s with ⟨e | b, t⟩
  · exact ⟨rfl, by simp⟩
  · rw [hy] at hb
    have hstanding := hb b rfl
    cases b with
    | false => exact hgoing t hstanding
    | true =>
      obtain ⟨hz, ht⟩ := hreturned ⟨s, t, hy⟩ t hstanding
      dsimp only
      rw [hy', run_bind, ← hz]
      change z.run t = _ ∧ _
      rw [← hz] at ht
      rcases hrun : z.run t with ⟨e | a, u⟩
      · exact ⟨rfl, by simp⟩
      · rw [hrun] at ht
        exact ⟨rfl, fun b hb => Except.ok.inj hb ▸ ht⟩

/-! ## Loops -/

theorem follows_forM {ι : Type} {prepare : ι → Run Unit} {work : Run Unit}
    (hprepare : ∀ i, Within (Stays r true) (prepare i)) (hwork : Follows r true work (pure ()))
    (is : List ι) :
    Follows r true (is.forM fun i => prepare i >>= fun _ => work) (is.forM prepare) := by
  induction is with
  | nil => exact fun _ hs => ⟨rfl, hs⟩
  | cons i is ih =>
    have hround := (Follows.of_within (hprepare i)).bind fun _ => hwork
    exact (by simpa using hround : Follows r true _ (prepare i)).bind fun _ => ih

theorem stops_forM {ι : Type} {prepare : ι → Run Unit} {work : Run Unit} {go : Run Bool}
    (hprepare : ∀ i b, Within (Stays r b) (prepare i)) (hgo : Stops r work go)
    (hpass : (∃ s t, go.run s = (.ok true, t)) → Follows r true work (pure ())) (is : List ι) :
    Stops r (is.forM fun i => prepare i >>= fun _ => work) (promptRounds prepare go is) := by
  induction is with
  | nil => exact stops_pure
  | cons i is ih =>
    have hrounds : (i :: is).forM (fun i => prepare i >>= fun _ => work) =
        prepare i >>= fun _ => work >>= fun _ => is.forM fun i => prepare i >>= fun _ => work := by
      simp [List.forM]
    rw [hrounds]
    exact .after (hprepare i false) fun _ => hgo.bind ih rfl fun h =>
      follows_forM (fun i => hprepare i true) (hpass h) is

theorem eachItem_eq (inner : Compiler) (f : Frame) (var code : Text) (items : List (Key × Value)) :
    eachItem inner f var code items =
      items.forM fun item => bindItem f.rule var item >>= fun _ => inner.work f code := by
  induction items with
  | nil => rfl
  | cons item items ih => simp [eachItem, ih]

theorem countThrough_eq (inner : Compiler) (f : Frame) (var code : Text) (is : List Int) :
    countThrough inner f var code is = is.forM fun i =>
      setVariable f.rule (.name var) (.word (ofInt i)) >>= fun _ => inner.work f code := by
  induction is with
  | nil => rfl
  | cons i is ih => simp [countThrough, ih]

theorem stays_bindItem (var : Text) (item : Key × Value) (b : Bool) :
    Within (Stays r b) (bindItem r var item) := by
  refine within_bind (stays_of_adds (within_monadLift (L := tableLimits) _)) fun t =>
    within_bind (stays_setVariable _ _) fun _ => ?_
  split
  · exact within_pure _
  · exact stays_setVariable _ _

/-! ## Items -/

variable {n : Nat} {f : Frame}

/-- Once it has returned, code with an item in it is passed over. -/
theorem follows_returned {code : Text} (h : ∃ s t, (prompt n f code).run s = (.ok true, t)) :
    Follows f.rule true ((compiler n).work f code) (pure ()) := by
  obtain ⟨s, t, hrun⟩ := h
  cases n with
  | zero => cases hrun
  | succ n =>
    refine fun s hs => ⟨run_runItems_of_returned hs.returned fun hnil => ?_, hs⟩
    rw [prompt, hnil] at hrun
    cases hfault : (Source.items code).fault with
    | none => rfl
    | some e =>
      rw [hfault] at hrun
      cases hrun

theorem stops_runIf {condition code : Text} {go : Run Bool}
    (hgo : Stops f.rule ((compiler n).work f code) go) :
    Stops f.rule (runIf (compiler n) f condition code) (promptIf n f condition go) := by
  refine .after (stays_of_adds (within_test (tableLimits.allow_compiler n) f condition))
    fun held => ?_
  have hstays : ∀ b, Within (Stays f.rule b) (setSetting f.rule conditionKey (.flag held)) :=
    fun b s hs => hs.modifySettings fun d => get?_set_of_ne d _ (by decide)
  have hset : Stops f.rule (setSetting f.rule conditionKey (.flag held)) (do
      setSetting f.rule conditionKey (.flag held)
      return false) := fun s hs => ⟨rfl, fun b hb => Except.ok.inj hb ▸ hstays false s hs⟩
  cases held with
  | false => exact hset
  | true => simpa using hgo.bind hset rfl fun _ => .of_within (hstays true)

theorem stops_block {head kind t code : Text} {y : Run Bool} (line : Int)
    (hgo : Stops f.rule ((compiler n).work f code) (prompt n f code))
    (hy : promptBlock? n f head kind t (prompt n f code) = some y) :
    runLine? (compiler n) f line head kind t = none ∧
      ∃ x, runBlock? (compiler n) f line head kind t code = some x ∧ Stops f.rule x y := by
  have hallow := tableLimits.allow_compiler n
  unfold promptBlock? at hy
  split at hy
  next hkind =>
    cases hy
    simp only [runLine?, runBlock?, hkind]
    exact ⟨rfl, _, rfl, stops_runIf hgo⟩
  next hkind =>
    cases hy
    simp only [runLine?, runBlock?, hkind]
    refine ⟨rfl, _, rfl, ?_⟩
    have hcheck := fun tail => stays_of_adds (r := f.rule) (b := false)
      (within_checkCondition (L := tableLimits) f.rule tail)
    have hlast := stays_of_adds (r := f.rule) (b := false)
      (within_lastCondition (L := tableLimits) f.rule)
    cases after? "@else if ".toList head with
    | some condition =>
      refine .after (hcheck _) fun _ => .after hlast fun held => ?_
      cases held with
      | true => exact stops_pure
      | false => exact stops_runIf hgo
    | none =>
      refine .after (hcheck _) fun _ => .after hlast fun held => .after (fun s hs =>
        hs.modifySettings fun d => get?_erase_of_ne d (show returnKey ≠ conditionKey by decide))
        fun _ => ?_
      cases held with
      | true => exact stops_pure
      | false => exact hgo
  next hkind =>
    cases hy
    simp only [runLine?, runBlock?, hkind]
    refine ⟨rfl, _, rfl, .after (stays_of_adds (within_countOf hallow f t)) fun p => ?_⟩
    obtain ⟨var, is⟩ := p
    dsimp only
    rw [countThrough_eq]
    exact stops_forM (fun _ _ => stays_setVariable _ _) hgo follows_returned is
  next hkind =>
    cases hy
    simp only [runLine?, runBlock?, hkind]
    refine ⟨rfl, _, rfl, .after (stays_of_adds (within_eachOf hallow f t)) fun p => ?_⟩
    obtain ⟨var, items⟩ := p
    dsimp only
    rw [eachItem_eq]
    exact stops_forM (stays_bindItem var) hgo follows_returned items
  next => cases hy

/-- The code of a mixin has a rule of its own, which shares the settings. -/
theorem stops_include (hgo : ∀ q code, Stops q ((compiler n).work { f with rule := q } code)
    (prompt n { f with rule := q } code)) (line : Int) (head : Text) :
    Stops f.rule (runInclude (compiler n) f line head) (do
      match ← enterMixin (compiler n) f line head with
      | none => return false
      | some (rule, code) => prompt n { f with rule } code) := by
  have hallow := tableLimits.allow_compiler n
  simp only [runInclude, enterMixin, bind_assoc]
  refine .after (stays_of_adds (within_interpolate hallow _ _ _)) fun name =>
    .after (within_settingsOf _) fun _ => ?_
  split
  next =>
    simp only [bind_assoc, pure_bind]
    exact .after (within_placeOf _) fun _ =>
      .after (stays_of_adds (within_logLine (L := tableLimits) _ _)) fun _ => stops_pure
  next mixin args _ =>
    simp only [bind_assoc]
    refine .after (stays_of_adds (within_bindArguments hallow _ _ _ _)) fun _ =>
      .after (stays_of_adds (within_settleArguments hallow _ _ _ _)) fun bound => ?_
    intro s hs
    simp only [run_contextOf_bind, run_rule_bind, run_newContext_bind, run_newRule_bind]
    cases mixin.body with
    | word code =>
      let b : Rule := { s.rules.getD f.rule {} with context := s.contexts.size, line }
      let u : Session := { s with
        contexts := s.contexts.push
          ((s.contexts.getD (s.rules.getD f.rule {}).context []).update bound)
        rules := s.rules.push b }
      have hb : u.rules.getD s.rules.size {} = b := getD_push_size _ _ _
      have hadds : Adds s u := ⟨.push _ _ _, .push _ _ _, .refl _ _⟩
      have hf : Standing f.rule false u := hadds.standing hs
      have hreturned : settingOf u s.rules.size returnKey = settingOf s f.rule returnKey := by
        rw [settingOf, hb]
        rfl
      have hq : Standing s.rules.size false u := by
        refine ⟨⟨by simp [u], by simp [b, u], ?_⟩, hreturned ▸ hs.returned⟩
        exact hb ▸ hs.placed.settings
      obtain ⟨hx, hok⟩ := hgo s.rules.size code u hq
      refine ⟨hx, fun b hy => ?_⟩
      let t := ((prompt n { f with rule := s.rules.size } code).run u).2
      have hconfined : Confined s.rules.size u t := by
        have hwork := hallow.work { f with rule := s.rules.size } code u hq.placed.rule
        rwa [hx] at hwork
      have hshared : settingOf t f.rule returnKey = settingOf t s.rules.size returnKey := by
        rw [settingOf, settingOf, hconfined.rule hf.placed.rule, hconfined.rule hq.placed.rule, hb,
          hadds.rule hs.placed.rule]
      exact ⟨hconfined.placed hf.placed, (congrArg Option.isSome hshared).trans (hok b hy).returned⟩
    | _ => exact ⟨rfl, fun _ h => by cases h⟩

section Items

variable (hgo : ∀ g code, Stops g.rule ((compiler n).work g code) (prompt n g code))

include hgo

theorem stops_item (i : Source.Item) :
    Stops f.rule (runItem (compiler n) f i) (promptItem n (prompt n) f i) := by
  unfold promptItem
  dsimp only
  split
  next h =>
    obtain ⟨hhead, hkind⟩ := Bool.and_eq_true_iff.mp h
    have hinclude : runItem (compiler n) f i = runInclude (compiler n) f i.line
        (firstWord (expandHead i.head)).2 := by
      simp only [runItem, hhead, if_true, runDirective, runLine?, beq_iff_eq.mp hkind]
    rw [hinclude]
    exact stops_include (fun q code => hgo { f with rule := q } code) _ _
  next =>
    split
    next y hy =>
      obtain ⟨hhead, hy⟩ := Option.ite_none_right_eq_some.mp hy
      obtain ⟨code, hcode, hy⟩ := Option.bind_eq_some_iff.mp hy
      obtain ⟨hline, x, hblock, hstops⟩ := stops_block i.line (hgo f code) hy
      have hx : runItem (compiler n) f i = x := by
        simp only [runItem, hhead, if_true, runDirective, hline, hcode, hblock, Option.getD_some]
      exact hx ▸ hstops
    next =>
      intro s hs
      have hconfined := within_runItem (tableLimits.allow_compiler n) f i s hs.placed.rule
      rw [run_bind]
      rcases hrun : (runItem (compiler n) f i).run s with ⟨e | ⟨⟩, t⟩
      · exact ⟨rfl, by simp⟩
      · rw [hrun] at hconfined
        exact ⟨rfl, fun b hb => ⟨hconfined.placed hs.placed, Except.ok.inj hb⟩⟩

/-- After a return, only a fault right behind the item is seen. -/
theorem stops_items (fault : Option Fault) (items : List Source.Item) :
    Stops f.rule (runItems (compiler n) f fault items)
      (promptItems n (prompt n) f fault items) := by
  induction items with
  | nil =>
    cases fault with
    | none => exact stops_pure
    | some e => exact stops_throw e
  | cons i items ih =>
    intro s hs
    rw [hs.run_runItems, promptItems]
    refine (stops_item hgo i).bind ih rfl (fun _ s hs => ?_) s hs
    cases fault with
    | none => exact ⟨run_runItems_of_returned hs.returned fun _ => rfl, hs⟩
    | some e =>
      cases items with
      | nil => exact ⟨rfl, hs⟩
      | cons i items => exact ⟨run_runItems_of_returned hs.returned (by simp), hs⟩

end Items

/-- Work up to the first return comes to the same. -/
theorem stops_work (n : Nat) (f : Frame) (code : Text) :
    Stops f.rule ((compiler n).work f code) (prompt n f code) := by
  induction n generalizing f code with
  | zero => exact stops_throw _
  | succ n ih => exact stops_items ih _ _

/-! ## Calls -/

/-- What a function has returned in a rule. -/
def returnedIn (s : Session) (r : Nat) : Value :=
  ((settingOf s r returnKey).map Setting.toValue).getD (.word [])

theorem run_runBody {inner : Compiler} {code : Text} {result : Except Fault Bool}
    (h : (inner.work f code).run s = (result.map fun _ => (), t)) :
    (runBody inner f code).run s = (result.map fun _ => returnedIn t f.rule, t) := by
  rw [runBody, run_bind, h]
  cases result <;> rfl

theorem standing_calling (r : Nat) {g : FunctionDef} (c : Context)
    (hgoing : settingOf s g.rule returnKey = none) :
    Standing s.rules.size false (calling s r g c) := by
  let b : Rule := { s.rules.getD r {} with
    context := s.contexts.size, settings := s.settings.size, deps := []
    sink := some s.sinks.size, line := g.line }
  have hb : (calling s r g c).rules.getD s.rules.size {} = b := getD_push_size _ _ _
  refine ⟨⟨by simp [calling], ?_, ?_⟩, ?_⟩
  · rw [hb]
    simp [b, calling]
  · rw [hb]
    simp [b, calling]
  · rw [settingOf, hb]
    change (((s.settings.push _).getD s.settings.size []).get? returnKey).isSome = false
    rw [getD_push_size]
    exact congrArg Option.isSome hgoing

/-- A call of a function works up to the first return, and its value is what was returned there. -/
theorem first_return_wins (n r : Nat) {g : FunctionDef} {ordered : List Value}
    {byName : List (Text × Value)} {body : Text} (s : Session) (hbody : g.mixin.body = .word body)
    (hlength : ordered.length ≤ g.mixin.parameters.length) (hnames : ∀ p ∈ byName, p.1 ≠ ['R'])
    (hgoing : settingOf s g.rule returnKey = none) :
    let out := (prompt n (callFrame s r g) body).run
      (calling s r g (callContext (variablesOf s g.rule) g.mixin ordered byName))
    (runFunction (compiler n) r g ordered byName).run s =
      (out.1.map fun _ => returnedIn out.2 s.rules.size, out.2) ∧ Adds s out.2 := by
  intro out
  have hrun : (runFunction (compiler n) r g ordered byName).run s =
      (out.1.map fun _ => returnedIn out.2 s.rules.size, out.2) := by
    rw [run_runFunction (compiler n) r s hbody hlength hnames]
    exact run_runBody (stops_work n (callFrame s r g) body _
      (standing_calling r (callContext (variablesOf s g.rule) g.mixin ordered byName) hgoing)).1
  have hadds := within_runFunction (tableLimits.allow_compiler n) r g ordered byName s
  rw [hrun] at hadds
  exact ⟨hrun, hadds⟩

/-- A function without parameters. -/
def withBody (body : Text) : FunctionDef := ⟨⟨[], [], .word body⟩, 0, 0, none, 0⟩

/-- The second round of the loop returns nothing any more. -/
theorem first_return_wins_in_loop :
    ∃ v t, (runFunction (compiler 4) 0 (withBody "@each $x in a b{@return $x;}".toList) [] []).run
      oneRule = (.ok v, t) ∧ (v.shown.run t.pool).1.toOption = some ['a'] := by
  have hvalue : ∀ (out : Except Fault Bool × Session) (y : Except Fault Value × Session),
      y = (out.1.map fun _ => returnedIn out.2 1, out.2) → out.1.toOption = some true ∧
        ((returnedIn out.2 1).shown.run out.2.pool).1.toOption = some ['a'] →
      ∃ v t, y = (.ok v, t) ∧ (v.shown.run t.pool).1.toOption = some ['a'] := by
    rintro ⟨e | b, u⟩ y rfl ⟨hout, htext⟩
    · cases hout
    · exact ⟨_, u, rfl, htext⟩
  exact hvalue _ _ (first_return_wins 4 0 (g := withBody "@each $x in a b{@return $x;}".toList)
    oneRule rfl (by decide) (by decide) (by decide)).1 (by decide +kernel)

/-- Code that cannot be split behind the return is a fault of the call. -/
theorem fault_behind_return_is_seen :
    ((runFunction (compiler 3) 0
      (withBody ("@return a;$b:\n1".toList ++ Source.mark :: "c;".toList)) [] []).run
      oneRule).1.isOk = false := by
  decide +kernel

end SheetPress.Compile
