import SheetPress.Proofs.Compile.Arrange
import SheetPress.Proofs.Selector.Paths

/-!
# Nested rules are flattened

A sheet is a tree of declarations, groups of properties, rules for classes and media blocks.
`Sheet.styled` reads off the tree which rules it stands for: those rules and media blocks that
own a declaration, each before the ones inside it, with the path of classes and the media around
it.  The main statement, `nested_rules_flattened`, is that compiling the written sheet gives just
these rules.
-/

set_option autoImplicit false

namespace SheetPress.Nesting

open List
open Source (Outline Word PlainWord declaration groupHead classHead directive mediaWord includeWord)
open Compile (Count Finished Outcome Means Drains nestedIn arrange ruleOf styledRules)
open Selector (IsClass pathText within)

/-- Items one after the other.  A hole stands for items that are not written out. -/
inductive Sheet (Hole : Type) where
  | nil
  | declare (name value : PlainWord) (rest : Sheet Hole)
  | group (name : PlainWord) (body rest : Sheet Hole)
  | rule (name : Word) (body rest : Sheet Hole)
  | media (query : PlainWord) (body rest : Sheet Hole)
  | hole (h : Hole) (rest : Sheet Hole)

namespace Sheet

variable {Hole : Type}

/-- The sheet as lines and blocks, with the given line for a hole. -/
def outlineWith (line : Hole → Text) : Sheet Hole → Outline
  | .nil => .nil
  | .declare name value rest => .line (declaration name.toWord value.toWord) (rest.outlineWith line)
  | .group name body rest =>
    .block (groupHead name.toWord) (body.outlineWith line) (rest.outlineWith line)
  | .rule name body rest => .block (classHead name) (body.outlineWith line) (rest.outlineWith line)
  | .media query body rest =>
    .block (directive mediaWord.toWord query.text) (body.outlineWith line) (rest.outlineWith line)
  | .hole h rest => .line (line h) (rest.outlineWith line)

/-- A sheet without holes as lines and blocks. -/
def outline (d : Sheet Empty) : Outline := d.outlineWith nofun

/-- A sheet without holes, written on one line with single blanks. -/
def source (d : Sheet Empty) : Text := d.outline.source

/-- The declarations that a rule owns, each behind the names of the groups around it.  A group
holds no rules: they are passed over. -/
def properties (scope : Text) : Sheet Empty → List (Text × Option Text)
  | .nil => []
  | .declare name value rest => (scope ++ name.text, some value.text) :: rest.properties scope
  | .group name body rest => body.properties (scope ++ name.text ++ ['-']) ++ rest.properties scope
  | .rule _ _ rest => rest.properties scope
  | .media _ _ rest => rest.properties scope

/-- The media around a rule, if there are any. -/
def mediaOf (media : List Text) : Option (List Text) := if media = [] then none else some media

/-- The rules and media blocks in pre-order, each with what it owns. -/
def blocks (path : List Word) (media : List Text) : Sheet Empty → List Finished
  | .nil => []
  | .declare _ _ rest => rest.blocks path media
  | .group _ _ rest => rest.blocks path media
  | .rule name body rest =>
    ⟨pathText (path ++ [name]), mediaOf media, body.properties []⟩ ::
      (body.blocks (path ++ [name]) media ++ rest.blocks path media)
  | .media query body rest =>
    ⟨pathText path, mediaOf (media ++ [query.text]), body.properties []⟩ ::
      (body.blocks path (media ++ [query.text]) ++ rest.blocks path media)

/-- The whole sheet and all its rules and media blocks. -/
def allBlocks (d : Sheet Empty) : List Finished :=
  ⟨pathText [], none, d.properties []⟩ :: d.blocks [] []

/-- Those that own a declaration. -/
def styled (d : Sheet Empty) : List Finished :=
  d.allBlocks.filter fun b => !b.properties.isEmpty

/-- The items of one sheet and then those of another. -/
def append : Sheet Empty → Sheet Empty → Sheet Empty
  | .nil, e => e
  | .declare name value rest, e => .declare name value (rest.append e)
  | .group name body rest, e => .group name body (rest.append e)
  | .rule name body rest, e => .rule name body (rest.append e)
  | .media query body rest, e => .media query body (rest.append e)

theorem properties_append (scope : Text) (d e : Sheet Empty) :
    (d.append e).properties scope = d.properties scope ++ e.properties scope := by
  induction d with
  | nil => rfl
  | declare name value rest ih => simp [append, properties, ih]
  | group name body rest _ ih => simp [append, properties, ih]
  | rule name body rest _ ih => exact ih
  | media query body rest _ ih => exact ih
  | hole h => exact h.elim

theorem blocks_append (path : List Word) (media : List Text) (d e : Sheet Empty) :
    (d.append e).blocks path media = d.blocks path media ++ e.blocks path media := by
  induction d with
  | nil => rfl
  | declare name value rest ih => exact ih
  | group name body rest _ ih => exact ih
  | rule name body rest _ ih => simp [append, blocks, ih]
  | media query body rest _ ih => simp [append, blocks, ih]
  | hole h => exact h.elim

theorem allCalm_outlineWith {line : Hole → Text} (hline : ∀ h, Outline.Calm (line h))
    (d : Sheet Hole) : (d.outlineWith line).AllCalm := by
  induction d with
  | nil => trivial
  | declare name value rest ih => exact ⟨Source.calm_declaration name value, ih⟩
  | group name body rest ihb ihr => exact ⟨Source.calm_groupHead name, ihb, ihr⟩
  | rule name body rest ihb ihr => exact ⟨Source.calm_classHead name, ihb, ihr⟩
  | media query body rest ihb ihr =>
    exact ⟨Source.calm_directive mediaWord (Source.calm_word query), ihb, ihr⟩
  | hole h rest ih => exact ⟨hline h, ih⟩

end Sheet

/-! ## What code comes to -/

theorem selecting_classHead (name : Word) : Compile.Selecting (classHead name) where
  point := rfl
  last := by
    intro h
    rcases mem_cons.mp (mem_of_getLast? h) with h | h
    · exact absurd h (by decide)
    · exact name.notMem (by decide) h

theorem mediaOf_snoc (media : List Text) (query : Text) :
    some ((Sheet.mediaOf media).getD [] ++ [query]) = Sheet.mediaOf (media ++ [query]) := by
  by_cases h : media = [] <;> simp [Sheet.mediaOf, h]

/-- What a sheet adds: its declarations, and its rules outside of groups. -/
def added (scope : Option Text) (properties : List (Text × Option Text))
    (nodes : List Compile.Node) : Outcome :=
  ⟨properties, if scope.isNone then nodes else []⟩

theorem nestedIn_append_added (scope : Option Text) (n : Compile.Node)
    (properties : List (Text × Option Text)) (nodes : List Compile.Node) :
    nestedIn scope n ++ added scope properties nodes = added scope properties (n :: nodes) := by
  cases scope <;> rfl

theorem added_append_added (scope : Option Text) (ps qs : List (Text × Option Text))
    (ns ms : List Compile.Node) :
    added scope ps ns ++ added scope qs ms = added scope (ps ++ qs) (ns ++ ms) := by
  cases scope <;> rfl

/-- A rule that extends nothing keeps its selectors, and the rules nested in it come next. -/
theorem drains_cons {mixins : Text → Option Outline} {depth m : Nat} {classes : List Text}
    {media : Option (List Text)} {e : Count} {body : Outline}
    {properties : List (Text × Option Text)} {nested pending : List Compile.Node}
    {inner done : List Finished} (hclasses : ∀ t ∈ classes, IsClass t)
    (hbody : Means mixins [within classes] media e depth none body
      (added none properties nested))
    (hinner : Drains mixins depth m nested inner)
    (hrest : Drains mixins depth (m + 1) pending done) :
    Drains mixins depth (m + 1) (⟨within classes, media, body, e⟩ :: pending)
      (⟨within classes, media, properties⟩ :: (inner ++ done)) := by
  obtain ⟨n, hn⟩ : ∃ n : Compile.Node, n = ⟨within classes, media, body, e⟩ := ⟨_, rfl⟩
  have hplain : n.Plain := by
    rw [Compile.Node.Plain, hn, Selector.cutExtends_within hclasses]
  have hfinish : n.finish (added none properties nested) =
      ⟨within classes, media, properties⟩ := by
    rw [hn]
    rfl
  have houter : n.outer = [within classes] := by
    rw [Compile.Node.outer, hn, Selector.splitOn_within hclasses]
  rw [← hfinish, ← hn]
  refine Drains.cons hplain ?_ hinner hrest
  rw [houter, hn]
  exact hbody

/-- What code comes to in a place with enough room, which is as much as `room` for mixins and more
than `k`: it adds these declarations at once, and these rules come out of it later.  None of them
extends another one. -/
def ComesTo (mixins : Text → Option Outline) (e : Count) (depth room k : Nat)
    (path media : List Text) (scope : Option Text) (o : Outline)
    (properties : List (Text × Option Text))
    (rules : List Finished) : Prop :=
  room + k ≤ depth → (∀ b ∈ rules, Text.cut? Selector.extendsMark b.selectors = none) ∧
    ∀ n m, room + k ≤ n → room + k ≤ m → ∃ nodes,
      Means mixins [within path] (Sheet.mediaOf media) e n scope o
        (added scope properties nodes) ∧
      Drains mixins depth m nodes rules

section ComesTo

variable {mixins : Text → Option Outline} {e : Count} {depth room k k' : Nat}
  {path media : List Text} {scope : Option Text} {body rest : Outline}
  {ps qs : List (Text × Option Text)} {bs ds : List Finished}

theorem comesTo_nil : ComesTo mixins e depth room 0 path media scope .nil [] [] := by
  refine fun _ => ⟨by simp, fun n m _ _ => ⟨[], ?_, .nil⟩⟩
  cases scope <;> exact Means.nil

namespace ComesTo

theorem declare (hr : ComesTo mixins e depth room k path media scope rest ps bs)
    (name value : PlainWord) :
    ComesTo mixins e depth room (k + 1) path media scope
      (.line (declaration name.toWord value.toWord) rest)
      ((scope.getD [] ++ name.text, some value.text) :: ps) bs := by
  intro hdepth
  obtain ⟨hsingle, hrest⟩ := hr (by omega)
  refine ⟨hsingle, fun n m hn hm => ?_⟩
  obtain ⟨nodes, hmeans, hdrains⟩ := hrest n m (by omega) (by omega)
  exact ⟨nodes, hmeans.declare name.toWord value.toWord, hdrains⟩

theorem group {name : PlainWord} (hb : ComesTo mixins e depth room k' path media
      (some (scope.getD [] ++ name.text ++ ['-'])) body ps bs)
    (hr : ComesTo mixins e depth room k path media scope rest qs ds) :
    ComesTo mixins e depth room (k' + k + 1) path media scope
      (.block (groupHead name.toWord) body rest) (ps ++ qs) ds := by
  intro hdepth
  obtain ⟨hsingle, hrest⟩ := hr (by omega)
  refine ⟨hsingle, fun n m hn hm => ?_⟩
  obtain ⟨n, rfl⟩ : ∃ j, n = j + 1 := ⟨n - 1, by omega⟩
  obtain ⟨_, hbody, _⟩ := (hb (by omega)).2 n m (by omega) (by omega)
  obtain ⟨nodes, hmeans, hdrains⟩ := hrest (n + 1) m (by omega) (by omega)
  exact ⟨nodes, hbody.group name.toWord hmeans, hdrains⟩

theorem nested {path' media' : List Text} (hpath : ∀ t ∈ path', IsClass t)
    (hb : ComesTo mixins e depth room k' path' media' none body ps bs)
    (hr : ComesTo mixins e depth room k path media scope rest qs ds) {head : Text}
    (hmeans : ∀ {n out}, Means mixins [within path] (Sheet.mediaOf media) e (n + 1) scope
        rest out →
      Means mixins [within path] (Sheet.mediaOf media) e (n + 1) scope
        (.block head body rest)
        (nestedIn scope ⟨within path', Sheet.mediaOf media', body, e⟩ ++ out)) :
    ComesTo mixins e depth room (k' + k + 1) path media scope (.block head body rest) qs
      (⟨within path', Sheet.mediaOf media', ps⟩ :: (bs ++ ds)) := by
  intro hdepth
  obtain ⟨hsingle, hrest⟩ := hr (by omega)
  obtain ⟨hsingle', hbody⟩ := hb (by omega)
  refine ⟨?_, fun n m hn hm => ?_⟩
  · simp only [forall_mem_cons, forall_mem_append]
    exact ⟨Selector.cut?_within hpath, hsingle', hsingle⟩
  · obtain ⟨n, rfl⟩ : ∃ j, n = j + 1 := ⟨n - 1, by omega⟩
    obtain ⟨m, rfl⟩ : ∃ j, m = j + 1 := ⟨m - 1, by omega⟩
    obtain ⟨inner, hinner, hrules⟩ := hbody depth m (by omega) (by omega)
    obtain ⟨nodes, hnodes, hdrains⟩ := hrest (n + 1) (m + 1) (by omega) (by omega)
    have hblock := hmeans hnodes
    rw [nestedIn_append_added] at hblock
    exact ⟨_, hblock, drains_cons hpath hinner hrules hdrains⟩

theorem mediaBlock {query : PlainWord} (hpath : ∀ t ∈ path, IsClass t)
    (hb : ComesTo mixins e depth room k' path (media ++ [query.text]) none body ps bs)
    (hr : ComesTo mixins e depth room k path media scope rest qs ds) :
    ComesTo mixins e depth room (k' + k + 1) path media scope
      (.block (directive mediaWord.toWord query.text) body rest) qs
      (⟨within path, Sheet.mediaOf (media ++ [query.text]), ps⟩ :: (bs ++ ds)) := by
  refine hb.nested hpath hr fun h => ?_
  simpa only [Selector.nestedSelectors_self, mediaOf_snoc] using h.media (Source.calm_word query)

theorem inclusion {name : PlainWord} (hname : mixins name.text = some body)
    (hb : ComesTo mixins e depth 0 room path media scope body ps bs)
    (hr : ComesTo mixins e depth room k path media scope rest qs ds) :
    ComesTo mixins e depth room (k + 1) path media scope
      (.line (directive includeWord.toWord name.text) rest) (ps ++ qs) (bs ++ ds) := by
  intro hdepth
  obtain ⟨hsingle, hrest⟩ := hr (by omega)
  obtain ⟨hsingle', hbody⟩ := hb (by omega)
  refine ⟨forall_mem_append.mpr ⟨hsingle', hsingle⟩, fun n m hn hm => ?_⟩
  obtain ⟨n, rfl⟩ : ∃ j, n = j + 1 := ⟨n - 1, by omega⟩
  obtain ⟨inner, hinner, hrules⟩ := hbody n m (by omega) (by omega)
  obtain ⟨nodes, hnodes, hdrains⟩ := hrest (n + 1) m (by omega) (by omega)
  have hboth := hinner.inclusion name hname hnodes
  rw [added_append_added] at hboth
  exact ⟨_, hboth, hrules.append hdrains⟩

/-- A whole sheet is one rule without selectors, and all others come out of it. -/
theorem drains {o : Outline} (h : ComesTo mixins e depth room k [] [] none o ps bs)
    (hdepth : room + k ≤ depth) :
    Drains mixins depth (room + k + 1) [⟨[], none, o, e⟩] (⟨[], none, ps⟩ :: bs) := by
  obtain ⟨nodes, hmeans, hdrains⟩ := (h hdepth).2 depth (room + k) hdepth (Nat.le_refl _)
  have hall := drains_cons (by simp) hmeans hdrains .nil
  rwa [append_nil] at hall

theorem single {o : Outline} (h : ComesTo mixins e depth room k [] [] none o ps bs)
    (hdepth : room + k ≤ depth) : ∀ b ∈ (⟨[], none, ps⟩ :: bs : List Finished),
      Text.cut? Selector.extendsMark b.selectors = none :=
  forall_mem_cons.mpr ⟨rfl, (h hdepth).1⟩

end ComesTo

theorem comesTo_rule {classes : List Word} {name : Word}
    (hb : ComesTo mixins e depth room k' ((classes ++ [name]).map classHead) media none body ps bs)
    (hr : ComesTo mixins e depth room k (classes.map classHead) media scope rest qs ds) :
    ComesTo mixins e depth room (k' + k + 1) (classes.map classHead) media scope
      (.block (classHead name) body rest) qs
      (⟨pathText (classes ++ [name]), Sheet.mediaOf media, ps⟩ :: (bs ++ ds)) := by
  refine hb.nested Selector.isClass_path hr fun h => ?_
  rw [← pathText, ← pathText, ← Selector.nestedSelectors_classHead]
  exact h.rule (selecting_classHead name) (Source.calm_classHead name)

end ComesTo

/-! ## Sheets -/

/-- A sheet comes to its declarations and to its rules and media blocks, whatever mixins there
are. -/
theorem comesTo_outline (mixins : Text → Option Outline) (depth : Nat) (d : Sheet Empty)
    (path : List Word) (media : List Text) (scope : Option Text) :
    ComesTo mixins .unknown depth 0 d.outline.size (path.map classHead) media scope d.outline
      (d.properties (scope.getD [])) (d.blocks path media) := by
  induction d generalizing path media scope with
  | nil => exact comesTo_nil
  | declare name value rest ih => exact (ih path media scope).declare name value
  | group name body rest ihb ihr => exact (ihb path media _).group (ihr path media scope)
  | rule name body rest ihb ihr => exact comesTo_rule (ihb _ media none) (ihr path media scope)
  | media query body rest ihb ihr =>
    exact (ihb path _ none).mediaBlock Selector.isClass_path (ihr path media scope)
  | hole h => exact h.elim

/-- The rules of a compiled sheet are the sheet, its rules and its media blocks. -/
theorem arranged_sheet (s : Session) (vars : Context) (file : Option Text) (d : Sheet Empty) :
    ∃ t, (arrange file d.source).run (s.restart vars []) = (.ok (), t) ∧
      t.order.map (ruleOf t) = d.allBlocks := by
  have heven : d.outline.AllEven := (d.allCalm_outlineWith nofun).even
  have hsheet := fun depth => comesTo_outline (fun _ => none) depth d [] [] none
  exact Compile.arranged s vars file heven (e := .unknown) trivial
    (fun depth hdepth => (hsheet depth).drains (by omega)) (by nlinarith)
    ((hsheet _).single (Nat.le_refl _))

/-- Compiling a sheet gives its rules and media blocks that own a declaration, in pre-order. -/
theorem nested_rules_flattened (s : Session) (vars : Context) (file : Option Text)
    (d : Sheet Empty) :
    ∃ t, (arrange file d.source).run (s.restart vars []) = (.ok (), t) ∧
      styledRules t = d.styled := by
  obtain ⟨t, hrun, hrules⟩ := arranged_sheet s vars file d
  exact ⟨t, hrun, by rw [styledRules, hrules, Sheet.styled]⟩

end SheetPress.Nesting
