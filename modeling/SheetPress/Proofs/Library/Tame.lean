import SheetPress.Library.Table
import SheetPress.Proofs.Value.Drift

/-!
# The functions of the library are tame

Whatever function of the library is called with whatever arguments, shared parts of values change
only as operations change them (`tame_find?`).
-/

set_option autoImplicit false

namespace SheetPress

open List Calc

/-! ## Routines -/

namespace Routine

variable {p q : String}

/-- The routine is tame for all arguments. -/
def Tame (r : Routine) : Prop := ∀ slots vs, Calc.Tame (r.body slots vs)

theorem Tame.apply {r : Routine} (h : r.Tame) (ordered : List Value) (named : List (Text × Value)) :
    Calc.Tame (r.apply ordered named) := by
  unfold Tame at h
  unfold Routine.apply
  grind

@[grind ←]
theorem tame_mk {required optional : List Text} {variadic anyName : Bool}
    {body : List (Option Value) → List Value → Calc Value}
    (h : ∀ slots vs, Calc.Tame (body slots vs)) :
    Tame ⟨required, optional, variadic, anyName, body⟩ := h

@[grind ←]
theorem tame_ofNone {f : Calc Value} (h : Calc.Tame f) : Tame (ofNone f) := fun _ _ => h

@[grind ←]
theorem tame_ofOne {f : Value → Calc Value} (h : ∀ a, Calc.Tame (f a)) :
    Tame (ofOne p f) := by
  intro slots vs
  unfold ofOne
  grind

@[grind ←]
theorem tame_ofTwo {f : Value → Value → Calc Value} (h : ∀ a b, Calc.Tame (f a b)) :
    Tame (ofTwo p q f) := by
  intro slots vs
  unfold ofTwo
  grind

@[grind ←]
theorem tame_ofOneOrTwo {f : Value → Option Value → Calc Value}
    (h : ∀ a b, Calc.Tame (f a b)) : Tame (ofOneOrTwo p q f) := by
  intro slots vs
  unfold ofOneOrTwo
  grind

@[grind ←]
theorem tame_ofTwoOrThree {r : String} {f : Value → Value → Option Value → Calc Value}
    (h : ∀ a b c, Calc.Tame (f a b c)) : Tame (ofTwoOrThree p q r f) := by
  intro slots vs
  unfold ofTwoOrThree
  grind

@[grind ←]
theorem tame_ofAny {f : List Value → Calc Value} (h : ∀ vs, Calc.Tame (f vs)) : Tame (ofAny f) :=
  fun _ vs => h vs

@[grind ←]
theorem tame_ofOneAndAny {f : Value → List Value → Calc Value}
    (h : ∀ a vs, Calc.Tame (f a vs)) : Tame (ofOneAndAny p f) := by
  intro slots vs
  unfold ofOneAndAny
  grind

end Routine

namespace Library

/-- A computation for each element in turn. -/
@[grind ←]
theorem tame_mapAll {α β : Type} {f : α → Calc β} (h : ∀ a, Calc.Tame (f a)) (xs : List α) :
    Calc.Tame (mapAll f xs) := by
  induction xs with
  | nil => exact tame_pure []
  | cons a rest ih =>
    unfold mapAll
    grind

/-! ## Lists -/

variable (args vs : List Value) (v : Value) (op : Change) (percentages : Bool)
  (place : Option Value)

@[grind ←]
theorem tame_argumentList : Calc.Tame (argumentList args) := by
  unfold argumentList
  grind

@[grind ←]
theorem tame_allBlank : Calc.Tame (allBlank vs) := by
  induction vs with
  | nil => exact tame_pure true
  | cons _ rest ih =>
    unfold allBlank
    grind

@[grind ←]
theorem tame_trueItems (items : List (Key × Value)) : Calc.Tame (trueItems items) := by
  induction items with
  | nil => exact tame_pure []
  | cons _ rest ih =>
    unfold trueItems
    grind

@[grind ←]
theorem tame_compact : Calc.Tame (compact args) := by
  unfold compact
  grind

@[grind ←]
theorem tame_nth (lst n : Value) : Calc.Tame (nth lst n) := by
  unfold nth wantedItem
  grind

@[grind ←]
theorem tame_listingWith (given : Option Text) : Calc.Tame (listingWith v given) := by
  unfold listingWith
  grind

@[grind ←]
theorem tame_append (lst v : Value) (separator : Option Value) :
    Calc.Tame (append lst v separator) := by
  unfold append
  split
  · grind
  · refine tame_bind (by grind) fun _ => ?_
    split
    · refine tame_bind (by grind) fun _ => ?_
      grind
    · grind

theorem tame_lists : ∀ e ∈ lists, e.2.Tame := by
  simp only [lists, forall_mem_cons]
  and_intros
  all_goals grind [asList, asRow, slice, firstValue, join, length, greatestEntry]

/-! ## Numbers, strings and kinds -/

@[grind ←]
theorem tame_ofScalars (f : Scalar → Except Fault Scalar) (v : Value) :
    Calc.Tame (ofScalars f v) := by
  unfold ofScalars
  grind

@[grind ←]
theorem tame_ofMathematics (f : Scalar → Except Fault Scalar) : (ofMathematics f).Tame := by
  unfold ofMathematics
  grind

@[grind ←]
theorem tame_convert (v unit : Value) : Calc.Tame (convert v unit) := by
  unfold convert
  grind

@[grind ←]
theorem tame_joinedTexts : Calc.Tame (joinedTexts vs) := by
  fun_induction joinedTexts vs <;> grind

theorem tame_numbers : ∀ e ∈ numbers, e.2.Tame := by
  have hunits : ∀ e ∈ Unit.all.map fun u =>
      (String.ofList u ++ ":2", Routine.ofTwo "value" "type" convert), e.2.Tame := by
    intro e he
    obtain ⟨u, -, rfl⟩ := mem_map.mp he
    grind
  simp only [numbers, forall_mem_append, forall_mem_cons]
  and_intros
  all_goals grind [percentage, comparable, choose, holds]

/-! ## Positions -/

@[grind ←]
theorem tame_wordsOf : Calc.Tame (wordsOf vs) := by
  induction vs with
  | nil => exact tame_pure []
  | cons _ rest ih =>
    unfold wordsOf
    grind

@[grind ←]
theorem tame_position (opposite : Bool) (vs : List Value) : Calc.Tame (position opposite vs) := by
  unfold position
  grind

@[grind ←]
theorem tame_gradientPoint : Calc.Tame (gradientPoint vs) := by
  unfold gradientPoint
  grind

@[grind ←]
theorem tame_gradientPointList : Calc.Tame (gradientPointList vs) := by
  unfold gradientPointList
  grind

theorem tame_positions : ∀ e ∈ positions, e.2.Tame := by
  simp only [positions, forall_mem_cons]
  and_intros
  all_goals grind

/-! ## Colours -/

@[grind ←]
theorem tame_notationOf (v : Option Value) (usual : String) : Calc.Tame (notationOf v usual) := by
  unfold notationOf
  grind

@[grind ←]
theorem tame_hsla (h s l a : Value) (notationName : Text) :
    Calc.Tame (hsla h s l a notationName) := by
  unfold hsla
  grind

@[grind ←]
theorem tame_changed (c : Scalar) (a : Option Scalar) : Calc.Tame (changed op c a) := by
  unfold changed
  grind

@[grind ←]
theorem tame_sizeOf? (v : Option Value) : Calc.Tame (sizeOf? v) := by
  unfold sizeOf?
  grind

@[grind ←]
theorem tame_changeRgba (colour : Value) (r g b a : Option Value) :
    Calc.Tame (changeRgba op colour r g b a) := by
  unfold changeRgba
  repeat refine tame_bind (by grind) fun _ => ?_
  exact tame_pure _

@[grind ←]
theorem tame_quantityOf? (v : Option Value) : Calc.Tame (quantityOf? v) := by
  unfold quantityOf?
  grind

@[grind ←]
theorem tame_changedShare (x : Float) (a : Option Scalar) : Calc.Tame (changedShare op x a) := by
  unfold changedShare
  grind

@[grind ←]
theorem tame_changeHsl (colour : Value) (h s l : Option Value) :
    Calc.Tame (changeHsl op colour h s l) := by
  unfold changeHsl
  repeat refine tame_bind (by grind) fun _ => ?_
  exact tame_pure _

@[grind ←]
theorem tame_isSet (v : Option Value) : Calc.Tame (isSet v) := by
  unfold isSet
  grind

@[grind ←]
theorem tame_anySet (vs : List (Option Value)) : Calc.Tame (anySet vs) := by
  induction vs with
  | nil => exact tame_pure false
  | cons _ rest ih =>
    unfold anySet
    grind

@[grind ←]
theorem tame_changeColour (colour : Value) (s l r g b a : Option Value) :
    Calc.Tame (changeColour op colour s l r g b a) := by
  unfold changeColour
  grind

@[grind ←]
theorem tame_mix (a b : Value) (weight : Option Value) : Calc.Tame (mix a b weight) := by
  unfold mix
  grind

@[grind ←]
theorem tame_invert : Calc.Tame (invert v) := by
  unfold invert
  refine tame_bind (Value.tame_asColour v) fun c => ?_
  split
  · exact tame_throw _
  · rename_i slot hsource
    rw [hsource]
    intro p
    refine Pool.Drifts.setMixture fun ch hch => ?_
    rw [Array.getD_eq_getD_getElem?, hch]
    rfl

@[grind ←]
theorem tame_filterDigits : Calc.Tame (filterDigits v) := by
  unfold filterDigits
  grind

@[grind ←]
theorem tame_fromChannels {make : Value → Value → Value → Value → Text → Calc Value}
    (h : ∀ x y z a t, Calc.Tame (make x y z a t)) (names : List String) (usual : String) :
    (fromChannels make names usual).Tame := by
  unfold fromChannels
  grind

@[grind ←]
theorem tame_byAmount {f : Value → Option Value → Calc Value} (h : ∀ c a, Calc.Tame (f c a)) :
    (byAmount f).Tame := by
  unfold byAmount
  grind

@[grind ←]
theorem tame_changing : (changing op).Tame := by
  unfold changing
  grind

theorem tame_colours : ∀ e ∈ colours, e.2.Tame := by
  simp only [colours, forall_mem_cons]
  and_intros
  all_goals grind [rgba, retyped, channelNumber, coordinate]

/-! ## Selectors -/

@[grind ←]
theorem tame_plainWords : Calc.Tame (plainWords vs) := by
  fun_induction plainWords vs <;> grind

@[grind ←]
theorem tame_selectorsOf : Calc.Tame (selectorsOf v) := by
  unfold selectorsOf
  grind

@[grind ←]
theorem tame_nest : Calc.Tame (nest args) := by
  unfold nest
  split
  · exact tame_throw _
  · refine tame_bind (tame_selectorsOf _) fun _ => tame_bind ?_ fun _ => tame_pure _
    exact Value.tame_foldlM (fun _ v => tame_bind (tame_selectorsOf v) fun _ => tame_pure _) _ _

@[grind ←]
theorem tame_wholeOr (usual : Int) (v : Value) : Calc.Tame (wholeOr usual v) := by
  unfold wholeOr
  grind

@[grind ←]
theorem tame_headers (first last : Option Value) : Calc.Tame (headers first last) := by
  unfold headers
  repeat' first
    | refine tame_bind (by grind) fun _ => ?_
    | split
  all_goals grind

@[grind ←]
theorem tame_mapM {α β : Type} {f : α → Calc β} (h : ∀ a, Calc.Tame (f a)) (xs : List α) :
    Calc.Tame (xs.mapM f) := by
  induction xs with
  | nil => exact tame_pure []
  | cons x xs ih =>
    rw [mapM_cons]
    grind

@[grind ←]
theorem tame_enumeration (name separator : Text) (first last : Value) :
    Calc.Tame (enumeration name separator first last) := by
  unfold enumeration
  grind

theorem tame_selectors : ∀ e ∈ selectors, e.2.Tame := by
  simp only [selectors, forall_mem_cons]
  and_intros
  all_goals grind [appendSelector, elementsOfType]

/-! ## Gradients -/

@[grind ←]
theorem tame_readStops (pieces : List Text) : Calc.Tame (readStops pieces) := by
  induction pieces with
  | nil => exact tame_pure []
  | cons _ rest ih =>
    unfold readStops
    grind [readStop]

@[grind ←]
theorem tame_addArgument (c : Collected) (v : Value) : Calc.Tame (c.addArgument v) := by
  unfold Collected.addArgument
  grind

@[grind ←]
theorem tame_measureOf (s : Option Value) : Calc.Tame (measureOf percentages s) := by
  unfold measureOf
  grind

@[grind ←]
theorem tame_relativeStop (greatest : Value) (s : Option Value) :
    Calc.Tame (relativeStop greatest s) := by
  unfold relativeStop
  grind

@[grind ←]
theorem tame_spread (init stride : Value) (count next : Nat) :
    Calc.Tame (spread init stride count next) := by
  induction count generalizing next with
  | zero => exact tame_pure []
  | succ count ih =>
    unfold spread
    grind

@[grind ←]
theorem tame_fillGaps (init : Value) (missing : Nat) (stops : List (Option Value)) :
    Calc.Tame (fillGaps init missing stops) := by
  fun_induction fillGaps init missing stops <;> grind

@[grind ←]
theorem tame_settleStops (colours : List Value) (stops : List (Option Value)) :
    Calc.Tame (settleStops percentages colours stops) := by
  unfold settleStops
  repeat' first
    | refine tame_bind (by grind) fun _ => ?_
    | split
  all_goals grind

@[grind ←]
theorem tame_colourStops (args : List Value) : Calc.Tame (colourStops percentages args) := by
  unfold colourStops
  grind

@[grind ←]
theorem tame_stopTexts (write : Text → Text → Text) (stops : List Stop) :
    Calc.Tame (stopTexts write stops) := by
  induction stops with
  | nil => exact tame_pure []
  | cons _ rest ih =>
    unfold stopTexts
    grind

@[grind ←]
theorem tame_endPosition (radial : Bool) (stops : List Stop) :
    Calc.Tame (endPosition radial stops) := by
  unfold endPosition
  split
  · exact tame_newNumber _
  · refine tame_bind (Value.tame_quantity _) fun q => ?_
    split
    · refine tame_bind (tame_ofExcept _) fun _ => tame_bind (tame_logLine _ _) fun _ => ?_
      exact tame_newNumber q
    · exact tame_newNumber q

@[grind ←]
theorem tame_shownAll : Calc.Tame (shownAll vs) := by
  unfold shownAll
  grind

@[grind ←]
theorem tame_linearGradient : Calc.Tame (linearGradient args) := by
  unfold linearGradient
  grind

@[grind ←]
theorem tame_radialGradient : Calc.Tame (radialGradient args) := by
  have hfinish : ∀ place leading stops, Calc.Tame (radialGradient.finish place leading stops) := by
    intro place leading stops
    unfold radialGradient.finish
    grind
  unfold radialGradient
  grind

@[grind ←]
theorem tame_numberText : Calc.Tame (numberText v) := by
  unfold numberText
  grind

@[grind ←]
theorem tame_splitPlace : Calc.Tame (splitPlace args) := by
  unfold splitPlace
  grind

@[grind ←]
theorem tame_linearImage : Calc.Tame (linearImage args) := by
  unfold linearImage
  repeat refine tame_bind (by grind) fun _ => ?_
  exact tame_pure _

@[grind ←]
theorem tame_radialImage : Calc.Tame (radialImage args) := by
  unfold radialImage
  repeat refine tame_bind (by grind) fun _ => ?_
  exact tame_pure _

@[grind ←]
theorem tame_placeOr (usual : String) : Calc.Tame (placeOr place usual) := by
  unfold placeOr
  grind

@[grind ←]
theorem tame_oldLinear (stops : List Stop) : Calc.Tame (oldLinear place stops) := by
  unfold oldLinear
  grind

@[grind ←]
theorem tame_oldRadial (stops : List Stop) : Calc.Tame (oldRadial place stops) := by
  unfold oldRadial
  repeat refine tame_bind (by grind) fun _ => ?_
  exact tame_pure _

@[grind ←]
theorem tame_valueForBrowser (name : Text) (v : Value) : Calc.Tame (valueForBrowser name v) := by
  unfold valueForBrowser forBrowser?
  split
  · dsimp only
    split_ifs
    · exact tame_pure _
    · exact tame_pure _
    · exact tame_throw _
    · split
      · exact tame_oldLinear _ _
      · exact tame_oldRadial _ _
    · exact tame_bind (tame_logLine _ _) fun _ => tame_pure _
    · exact tame_pure _
  · exact tame_pure _

@[grind ←]
theorem tame_argumentForBrowser (name : Text) (v : Value) :
    Calc.Tame (argumentForBrowser name v) := by
  unfold argumentForBrowser
  split
  · refine tame_bind (Value.tame_mapItems (fun _ w => tame_valueForBrowser name w) _) fun _ => ?_
    grind
  · grind

theorem tame_gradients : ∀ e ∈ gradients, e.2.Tame := by
  simp only [gradients, map_cons, map_nil, forall_mem_append, forall_mem_cons]
  and_intros
  all_goals grind [stopList, inNotation, isPrefixed]

/-! ## Images -/

@[grind ←]
theorem tame_imageAddress (image : Value) (wanted given : Option Value) :
    Calc.Tame (imageAddress image wanted given) := by
  unfold imageAddress
  dsimp only
  repeat' first
    | exact tame_pure _
    | exact tame_throw _
    | refine tame_bind (by grind) fun _ => ?_
    | split

@[grind ←]
theorem tame_inlineAddress (image : Value) (kind : Option Value) :
    Calc.Tame (inlineAddress image kind) := by
  unfold inlineAddress
  grind

@[grind ←]
theorem tame_findMap (map : Text) : Calc.Tame (findMap map) := by
  have hmissed : Calc.Tame (findMap.missed map) := by
    unfold findMap.missed
    grind
  unfold findMap
  grind

@[grind ←]
theorem tame_stated (x : Option Text) : Calc.Tame (stated x) := by
  unfold stated
  grind

@[grind ←]
theorem tame_findSprite (map sprite : Value) : Calc.Tame (findSprite map sprite) := by
  unfold findSprite
  repeat' first
    | refine tame_bind (by grind) fun _ => ?_
    | split
  all_goals grind

@[grind ←]
theorem tame_mapAddress (m : SpriteMap) : Calc.Tame (mapAddress m) := by
  unfold mapAddress
  grind

@[grind ←]
theorem tame_placed (offset : Option Value) (place : Float) : Calc.Tame (placed offset place) := by
  unfold placed
  repeat' first
    | refine tame_bind (by grind) fun _ => ?_
    | split
  all_goals grind

@[grind ←]
theorem tame_sprite (map name : Value) (x y : Option Value) : Calc.Tame (sprite map name x y) := by
  unfold sprite
  repeat' first
    | refine tame_bind (by grind) fun _ => ?_
    | split
  all_goals grind

@[grind ←]
theorem tame_coordinateOf (words : List String) (offset : Option Value) (place : Float) :
    Calc.Tame (coordinateOf words offset place) := by
  unfold coordinateOf
  grind

@[grind ←]
theorem tame_spritePosition (map name : Value) (x y : Option Value) :
    Calc.Tame (spritePosition map name x y) := by
  unfold spritePosition
  grind

@[grind ←]
theorem tame_ofSprite {f : Value → Value → Option Value → Option Value → Calc Value}
    (h : ∀ m s x y, Calc.Tame (f m s x y)) : (ofSprite f).Tame := by
  unfold ofSprite
  grind

theorem tame_images : ∀ e ∈ images, e.2.Tame := by
  simp only [images, forall_mem_cons]
  and_intros
  all_goals grind [mapName, mapUrl, spriteFile, spriteNames, withoutImages]

/-! ## The table -/

theorem tame_find? {name : Text} {count : Nat} {r : Routine} (h : find? name count = some r) :
    r.Tame := by
  have htable : ∀ {k : Text}, table.lookup k = some r → r.Tame := by
    intro k hk
    obtain ⟨l₁, l₂, htable, -⟩ := lookup_eq_some_iff.mp hk
    have hmem : (k, r) ∈ table := by
      rw [htable]
      simp
    obtain ⟨e, he, heq⟩ := mem_map.mp hmem
    obtain ⟨-, rfl⟩ := Prod.mk.inj heq
    simp only [mem_append] at he
    rcases he with (((((he | he) | he) | he) | he) | he) | he
    · exact tame_images e he
    · exact tame_positions e he
    · exact tame_gradients e he
    · exact tame_colours e he
    · exact tame_lists e he
    · exact tame_selectors e he
    · exact tame_numbers e he
  unfold find? at h
  split at h
  next r' hr =>
    obtain rfl := Option.some.inj h
    exact htable hr
  next => exact htable h

end Library

end SheetPress
