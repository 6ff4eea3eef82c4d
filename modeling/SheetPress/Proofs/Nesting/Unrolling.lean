import SheetPress.Proofs.Nesting.Flatten

/-!
# Loops are unrolled

A style sheet is a tree of declarations, groups of properties, rules for classes, media blocks and
counting loops.  The classes in a loop may have the counter behind their names.  Unrolling a style
sheet writes the rules of each loop out, once for every number, with the number in place of the
counter.  `loop_eq_unrolling` says that both are compiled to the same rules.

The bounds of a loop are read as doubles.  `arranged_style` says what a loop counts through in any
case; beyond 53 bits this need not be what was written (`long_bound_rounded`).
-/

set_option autoImplicit false

namespace SheetPress.Nesting

open List
open Source (Outline Word PlainWord declaration groupHead classHead directive mediaWord loopHead
  numberedHead labelHead)
open Compile (Count Finished Outcome Means Drains nestedIn arrange ruleOf styledRules steps)

/-- Items one after the other, with names of classes and loops of some kinds. -/
inductive Tree (Name Loop : Type) where
  | nil
  | declare (name value : PlainWord) (rest : Tree Name Loop)
  | group (name : PlainWord) (body rest : Tree Name Loop)
  | rule (name : Name) (body rest : Tree Name Loop)
  | media (query : PlainWord) (body rest : Tree Name Loop)
  | loop (l : Loop) (rest : Tree Name Loop)

/-- The name of a class: a word, and perhaps a number. -/
inductive Label where
  | plain (word : Word)
  | numbered (word : Word) (k : Int)

def Label.head : Label → Text
  | .plain w => classHead w
  | .numbered w k => labelHead w k

/-- The name of a class in a loop: a word, and perhaps the counter. -/
inductive Stem where
  | plain (word : Word)
  | counted (word : Word)

def Stem.head : Stem → Text
  | .plain w => classHead w
  | .counted w => numberedHead w

/-- The name with a number in place of the counter. -/
def Stem.label (k : Int) : Stem → Label
  | .plain w => .plain w
  | .counted w => .numbered w k

/-- A loop, with its bounds and its items. -/
structure Loop where
  first : Int
  last : Int
  body : Tree Stem Empty

/-- A sheet with loops. -/
abbrev Style := Tree Word Loop

/-- A sheet without loops. -/
abbrev Listing := Tree Label Empty

namespace Tree

variable {Name Loop : Type}

/-- The tree as lines and blocks. -/
def outline (head : Name → Text) (loop : Loop → Text × Outline) : Tree Name Loop → Outline
  | .nil => .nil
  | .declare name value rest =>
    .line (declaration name.toWord value.toWord) (rest.outline head loop)
  | .group name body rest =>
    .block (groupHead name.toWord) (body.outline head loop) (rest.outline head loop)
  | .rule name body rest => .block (head name) (body.outline head loop) (rest.outline head loop)
  | .media query body rest =>
    .block (directive mediaWord.toWord query.text) (body.outline head loop) (rest.outline head loop)
  | .loop l rest => .block (loop l).1 (loop l).2 (rest.outline head loop)

/-- The loops of a tree. -/
def loops : Tree Name Loop → List Loop
  | .nil => []
  | .declare _ _ rest => rest.loops
  | .group _ body rest | .rule _ body rest | .media _ body rest => body.loops ++ rest.loops
  | .loop l rest => l :: rest.loops

/-- The items of one sheet and then those of another. -/
def append : Listing → Listing → Listing
  | .nil, e => e
  | .declare name value rest, e => .declare name value (rest.append e)
  | .group name body rest, e => .group name body (rest.append e)
  | .rule name body rest, e => .rule name body (rest.append e)
  | .media query body rest, e => .media query body (rest.append e)

/-- The tree with the given names, and the given items in place of its loops. -/
def unroll (label : Name → Label) (turns : Loop → Listing) : Tree Name Loop → Listing
  | .nil => .nil
  | .declare name value rest => .declare name value (rest.unroll label turns)
  | .group name body rest => .group name (body.unroll label turns) (rest.unroll label turns)
  | .rule name body rest => .rule (label name) (body.unroll label turns) (rest.unroll label turns)
  | .media query body rest => .media query (body.unroll label turns) (rest.unroll label turns)
  | .loop l rest => (turns l).append (rest.unroll label turns)

/-! ## The rules of a sheet -/

/-- The declarations that a rule owns, each behind the names of the groups around it. -/
def properties (scope : Text) : Listing → List (Text × Option Text)
  | .nil => []
  | .declare name value rest => (scope ++ name.text, some value.text) :: rest.properties scope
  | .group name body rest => body.properties (scope ++ name.text ++ ['-']) ++ rest.properties scope
  | .rule _ _ rest => rest.properties scope
  | .media _ _ rest => rest.properties scope

/-- The rules and media blocks in pre-order, each with what it owns. -/
def blocks (path : List Label) (media : List Text) : Listing → List Finished
  | .nil => []
  | .declare _ _ rest => rest.blocks path media
  | .group _ _ rest => rest.blocks path media
  | .rule name body rest =>
    ⟨Selector.within ((path ++ [name]).map Label.head), Sheet.mediaOf media, body.properties []⟩ ::
      (body.blocks (path ++ [name]) media ++ rest.blocks path media)
  | .media query body rest =>
    ⟨Selector.within (path.map Label.head), Sheet.mediaOf (media ++ [query.text]),
      body.properties []⟩ ::
      (body.blocks path (media ++ [query.text]) ++ rest.blocks path media)

/-- The whole sheet and all its rules and media blocks. -/
def allBlocks (d : Listing) : List Finished := ⟨[], none, d.properties []⟩ :: d.blocks [] []

theorem properties_append (scope : Text) (d e : Listing) :
    (d.append e).properties scope = d.properties scope ++ e.properties scope := by
  induction d with
  | nil => rfl
  | declare name value rest ih => simp [append, properties, ih]
  | group name body rest _ ih => simp [append, properties, ih]
  | rule name body rest _ ih => exact ih
  | media query body rest _ ih => exact ih
  | loop l => exact l.elim

theorem blocks_append (path : List Label) (media : List Text) (d e : Listing) :
    (d.append e).blocks path media = d.blocks path media ++ e.blocks path media := by
  induction d with
  | nil => rfl
  | declare name value rest ih => exact ih
  | group name body rest _ ih => exact ih
  | rule name body rest _ ih => simp [append, blocks, ih]
  | media query body rest _ ih => simp [append, blocks, ih]
  | loop l => exact l.elim

theorem unroll_listing (d : Listing) : d.unroll id nofun = d := by
  induction d with
  | nil => rfl
  | declare name value rest ih => simp [unroll, ih]
  | group name body rest ihb ihr => simp [unroll, ihb, ihr]
  | rule name body rest ihb ihr => simp [unroll, ihb, ihr]
  | media query body rest ihb ihr => simp [unroll, ihb, ihr]
  | loop l => exact l.elim

end Tree

theorem isClass_head (c : Label) : Selector.IsClass c.head := by
  cases c with
  | plain w => exact Selector.isClass_classHead w
  | numbered w k =>
    refine ⟨⟨by simp [Label.head, labelHead, classHead], fun x hx => ?_⟩, rfl⟩
    rcases mem_append.mp hx with hx | hx
    · exact (Selector.compact_classHead w).chars x hx
    · obtain ⟨hname, -, hspace⟩ := Source.isName_of_mem_ofInt hx
      refine ⟨hspace, ?_, ?_⟩ <;>
      · rintro rfl
        exact absurd hname (by decide)

theorem isClass_heads (path : List Label) : ∀ t ∈ path.map Label.head, Selector.IsClass t := by
  intro t ht
  obtain ⟨c, -, rfl⟩ := mem_map.mp ht
  exact isClass_head c

theorem nestedSelectors_label (path : List Label) (c : Label) :
    Compile.nestedSelectors [Selector.within (path.map Label.head)] c.head =
      Selector.within ((path ++ [c]).map Label.head) := by
  rw [Selector.nestedSelectors_class (isClass_heads path) (isClass_head c), map_append,
    map_singleton]

/-! ## What trees mean -/

/-- Names are written with these heads, where this is known of the counter, and stand for these
labels. -/
structure Writes {Name : Type} (e : Count) (head : Name → Text) (label : Name → Label) : Prop where
  even : ∀ name, Outline.Even (head name)
  means : ∀ {outer : List Text} {media : Option (List Text)} {n : Nat} {scope : Option Text}
    {body rest : Outline} {out : Outcome} (name : Name),
    Means (fun _ => none) outer media e n scope rest out →
    Means (fun _ => none) outer media e n scope (.block (head name) body rest)
      (nestedIn scope ⟨Compile.nestedSelectors outer (label name).head, media, body, e⟩ ++ out)

/-- What code comes to as part of a sheet with these items. -/
def Unrolls (e : Count) (depth k : Nat) (path : List Label) (media : List Text)
    (scope : Option Text) (o : Outline) (d : Listing) : Prop :=
  ComesTo (fun _ => none) e depth 0 k (path.map Label.head) media scope o
    (d.properties (scope.getD [])) (d.blocks path media)

/-- A loop written in this way means these items, before any others. -/
def Turns (e : Count) (written : Text × Outline) (turns : Listing) : Prop :=
  ∀ {depth k : Nat} {path : List Label} {media : List Text} {scope : Option Text} {rest : Outline}
    {d : Listing}, Unrolls e depth k path media scope rest d →
    Unrolls e depth (written.2.size + k + 1) path media scope (.block written.1 written.2 rest)
      (turns.append d)

namespace Tree

variable {Name Loop : Type} {e : Count} {head : Name → Text} {label : Name → Label}
  {loop : Loop → Text × Outline} {turns : Loop → Listing}

theorem allEven (hnames : Writes e head label)
    (hloops : ∀ l, Outline.Even (loop l).1 ∧ (loop l).2.AllEven) (d : Tree Name Loop) :
    (d.outline head loop).AllEven := by
  induction d with
  | nil => trivial
  | declare name value rest ih => exact ⟨(Source.calm_declaration name value).even, ih⟩
  | group name body rest ihb ihr => exact ⟨(Source.calm_groupHead name).even, ihb, ihr⟩
  | rule name body rest ihb ihr => exact ⟨hnames.even name, ihb, ihr⟩
  | media query body rest ihb ihr =>
    exact ⟨(Source.calm_directive mediaWord (Source.calm_word query)).even, ihb, ihr⟩
  | loop l rest ih => exact ⟨(hloops l).1, (hloops l).2, ih⟩

/-- A tree means its items, with those of its loops written out. -/
theorem unrolls (hnames : Writes e head label) (depth : Nat) (d : Tree Name Loop)
    (hloops : ∀ l ∈ d.loops, Turns e (loop l) (turns l)) (path : List Label) (media : List Text)
    (scope : Option Text) : Unrolls e depth (d.outline head loop).size path media scope
      (d.outline head loop) (d.unroll label turns) := by
  induction d generalizing path media scope with
  | nil => exact comesTo_nil
  | declare name value rest ih => exact (ih hloops path media scope).declare name value
  | group name body rest ihb ihr =>
    obtain ⟨hbody, hrest⟩ := forall_mem_append.mp hloops
    exact (ihb hbody path media _).group (ihr hrest path media scope)
  | rule name body rest ihb ihr =>
    obtain ⟨hbody, hrest⟩ := forall_mem_append.mp hloops
    refine (ihb hbody (path ++ [label name]) media none).nested (isClass_heads _)
      (ihr hrest path media scope) fun h => ?_
    simpa only [nestedSelectors_label] using hnames.means name h
  | media query body rest ihb ihr =>
    obtain ⟨hbody, hrest⟩ := forall_mem_append.mp hloops
    exact (ihb hbody path _ none).mediaBlock (isClass_heads _) (ihr hrest path media scope)
  | loop l rest ih =>
    obtain ⟨hl, hrest⟩ := forall_mem_cons.mp hloops
    exact hl (ih hrest path media scope)

/-- Compiling a tree gives the rules and media blocks of its items, with those of its loops written
out. -/
theorem arranged (s : Session) (vars : Context) (file : Option Text) (hnames : Writes e head label)
    (hvars : e.Fits (Session.usualVariables.update vars))
    (heven : ∀ l, Outline.Even (loop l).1 ∧ (loop l).2.AllEven) (d : Tree Name Loop)
    (hloops : ∀ l ∈ d.loops, Turns e (loop l) (turns l)) :
    ∃ t, (arrange file (d.outline head loop).source).run (s.restart vars []) = (.ok (), t) ∧
      t.order.map (ruleOf t) = (d.unroll label turns).allBlocks := by
  have hsheet := fun depth => d.unrolls hnames depth hloops [] [] none
  exact Compile.arranged s vars file (allEven hnames heven d) hvars
    (fun depth hdepth => (hsheet depth).drains (by omega)) (by nlinarith)
    ((hsheet _).single (Nat.le_refl _))

end Tree

/-! ## Names -/

theorem selecting_labelHead (name : Word) (k : Int) : Compile.Selecting (labelHead name k) where
  point := rfl
  last := fun h => by
    have hmem : ':' ∈ labelHead name k := mem_of_getLast? h
    rcases mem_append.mp hmem with hmem | hmem
    · exact absurd hmem (by simpa [classHead] using name.notMem (by decide))
    · exact absurd (Source.isName_of_mem_ofInt hmem).1 (by decide)

theorem writes_word (e : Count) : Writes e classHead Label.plain where
  even := fun name => (Source.calm_classHead name).even
  means := fun name h => h.rule (selecting_classHead name) (Source.calm_classHead name)

theorem writes_label (e : Count) : Writes e Label.head id where
  even := fun c => by
    cases c with
    | plain w => exact (Source.calm_classHead w).even
    | numbered w k => exact (Source.calm_labelHead w k).even
  means := fun c h => by
    cases c with
    | plain w => exact h.rule (selecting_classHead w) (Source.calm_classHead w)
    | numbered w k => exact h.rule (selecting_labelHead w k) (Source.calm_labelHead w k)

/-- Where a loop has counted to a number, the counter stands for it. -/
theorem writes_stem (k : Int) : Writes (.reached k) Stem.head (Stem.label k) where
  even := fun c => by
    cases c with
    | plain w => exact (Source.calm_classHead w).even
    | counted w => exact Source.even_numberedHead w
  means := fun c h => by
    cases c with
    | plain w => exact h.rule (selecting_classHead w) (Source.calm_classHead w)
    | counted w => exact h.numbered w

/-! ## Loops -/

namespace Loop

/-- How a loop is written. -/
def written (l : Loop) : Text × Outline :=
  (loopHead l.first l.last, l.body.outline Stem.head nofun)

/-- The items of a loop for one number. -/
def turn (l : Loop) (k : Int) : Listing := l.body.unroll (Stem.label k) nofun

/-- The items of a loop for each of some numbers. -/
def turnsOf (l : Loop) (ks : List Int) : Listing := ks.foldr (fun k d => (l.turn k).append d) .nil

/-- The items of a loop whose bounds are read in this way. -/
def turns (read : Int → Int) (l : Loop) : Listing := l.turnsOf (steps (read l.first) (read l.last))

/-- This is how the bounds are read. -/
def ReadAs (read : Int → Int) (l : Loop) : Prop :=
  Decimal.truncate? (Decimal.ofInt l.first) = some (read l.first) ∧
    Decimal.truncate? (Decimal.ofInt l.last) = some (read l.last)

theorem even_written (l : Loop) : Outline.Even l.written.1 ∧ l.written.2.AllEven :=
  ⟨Source.even_loopHead _ _, Tree.allEven (writes_stem 0) nofun l.body⟩

/-- A loop means its items, once for every number. -/
theorem turns_means {read : Int → Int} {l : Loop} (h : l.ReadAs read) :
    Turns .still l.written (l.turns read) := by
  intro depth k path media scope rest d hrest hdepth
  have hturn : ∀ j, Unrolls (.reached j) depth l.written.2.size path media scope l.written.2
      (l.turn j) := fun j => l.body.unrolls (writes_stem j) depth nofun path media scope
  obtain ⟨hsingle, hrest⟩ := hrest (by omega)
  have hcons : ∀ j ks, l.turnsOf (j :: ks) = (l.turn j).append (l.turnsOf ks) := fun _ _ => rfl
  have hsingles : ∀ ks, ∀ b ∈ (l.turnsOf ks).blocks path media,
      Text.cut? Selector.extendsMark b.selectors = none := by
    intro ks
    induction ks with
    | nil => simp [turnsOf, Tree.blocks]
    | cons j ks ih =>
      rw [hcons, Tree.blocks_append]
      exact forall_mem_append.mpr ⟨(hturn j (by omega)).1, ih⟩
  refine ⟨?_, fun n m hn hm => ?_⟩
  · rw [Tree.blocks_append]
    exact forall_mem_append.mpr ⟨hsingles _, hsingle⟩
  obtain ⟨n, rfl⟩ : ∃ j, n = j + 1 := ⟨n - 1, by omega⟩
  obtain ⟨nodes, hmeans, hdrains⟩ := hrest (n + 1) m (by omega) (by omega)
  choose inner hinner hrules using fun j => (hturn j (by omega)).2 n m (by omega) (by omega)
  -- All turns together.
  have hall : ∀ ks : List Int,
      Outcome.concat
          (ks.map fun j => added scope ((l.turn j).properties (scope.getD [])) (inner j)) =
        added scope ((l.turnsOf ks).properties (scope.getD [])) (ks.flatMap inner) ∧
      Drains (fun _ => none) depth m (ks.flatMap inner) ((l.turnsOf ks).blocks path media) := by
    intro ks
    induction ks with
    | nil => exact ⟨by cases scope <;> rfl, .nil⟩
    | cons j ks ih =>
      rw [hcons, Tree.properties_append, Tree.blocks_append, flatMap_cons,
        ← added_append_added, ← ih.1]
      exact ⟨rfl, (hrules j).append ih.2⟩
  obtain ⟨hconcat, hturns⟩ := hall (steps (read l.first) (read l.last))
  have hloop := Means.loop h.1 h.2 (fun j _ => hinner j) hmeans
  rw [hconcat, added_append_added, ← Tree.properties_append] at hloop
  refine ⟨_, hloop, ?_⟩
  rw [Tree.blocks_append]
  exact hturns.append hdrains

end Loop

/-! ## Style sheets -/

namespace Tree

/-- A style sheet, written on one line with single blanks. -/
def source (d : Style) : Text := (d.outline classHead Loop.written).source

/-- A sheet without loops, written in the same way. -/
def listed (d : Listing) : Text := (d.outline Label.head nofun).source

/-- A style sheet with its loops written out, whose bounds are read in the given way. -/
def unrolledBy (read : Int → Int) (d : Style) : Listing := d.unroll .plain (Loop.turns read)

/-- A style sheet with its loops written out. -/
def unrolled (d : Style) : Listing := d.unrolledBy id

end Tree

/-- Names that start with a dollar sign or a letter. -/
def opensName : Key → Bool
  | .name (c :: _) => c == '$' || c.isLower
  | _ => true

section Variables

variable {vars : Context} (h : ∀ p ∈ vars, ∀ t, p.1 = .name t → t.head? = some '$')

include h

/-- Variables whose names start with a dollar sign have no other names. -/
theorem get?_update {c : Context} {t : Text} (ht : t.head? ≠ some '$') :
    (c.update vars).get? t = c.get? t := by
  induction vars generalizing c with
  | nil => rfl
  | cons p vars ih =>
    refine (ih fun q hq => h q (mem_cons_of_mem _ hq)).trans (Context.get?_set_of_ne c _ ?_)
    exact fun heq => ht (h p mem_cons_self t heq.symm)

/-- The usual variables, and others whose names start with a dollar sign. -/
theorem lettered_update : Compile.Lettered (Session.usualVariables.update vars) := by
  rintro t ⟨x, hx, hdollar, hlower⟩
  have hopens : ∀ p ∈ Session.usualVariables, opensName p.1 = true := by decide
  rw [get?_update h fun hhead => hdollar (Option.some.inj (hx.symm.trans hhead))]
  refine lookup_eq_none_iff.mpr fun p hp => ?_
  obtain ⟨r, rfl⟩ := head?_eq_some_iff.mp hx
  refine bne_iff_ne.mpr fun heq => ?_
  simpa [← heq, opensName, hdollar, hlower] using hopens p hp

/-- The usual variables hold no names of variables. -/
theorem settled_update
    (hways : ∀ p ∈ vars, ∀ t, p.2 = .word t → (Session.usualVariables.update vars).Arrives t) :
    (Session.usualVariables.update vars).Settled := by
  have husual : ∀ p ∈ Session.usualVariables, ∃ t, p.2 = .word t ∧ t.head? ≠ some '$' ∧
      Session.usualVariables.get? t = none := by
    intro p hp
    obtain ⟨q, hq, rfl⟩ := mem_map.mp hp
    clear hp
    refine ⟨_, rfl, ?_⟩
    revert q
    decide
  have hmem : ∀ (ds : Context) {c : Context} {p : Key × Value}, p ∈ c.update ds →
      p ∈ c ∨ p ∈ ds := by
    intro ds
    induction ds with
    | nil => exact fun hp => .inl hp
    | cons d ds ih =>
      intro c p hp
      rcases ih hp with hp | hp
      · exact (Context.mem_set hp).symm.imp_right fun (heq : p = d) => heq ▸ mem_cons_self
      · exact .inr (mem_cons_of_mem _ hp)
  intro p hp t ht
  rcases hmem vars hp with hp | hp
  · obtain ⟨u, hu, hhead, hnone⟩ := husual p hp
    obtain rfl := Value.word.inj (hu.symm.trans ht)
    exact .free (by rw [get?_update h hhead, hnone])
  · exact hways p hp t ht

end Variables

section Compiling

variable (s : Session) (vars : Context) (file : Option Text)

/-- The rules of a compiled sheet without loops are its rules and media blocks. -/
theorem arranged_listing (d : Listing) :
    ∃ t, (arrange file d.listed).run (s.restart vars []) = (.ok (), t) ∧
      t.order.map (ruleOf t) = d.allBlocks := by
  obtain ⟨t, hrun, hrules⟩ := d.arranged s vars file (writes_label .unknown) trivial nofun nofun
  exact ⟨t, hrun, by rw [hrules, Tree.unroll_listing]⟩

/-- The rules of a compiled style sheet are those that its loops are unrolled to. -/
theorem arranged_style (hvars : ∀ p ∈ vars, ∀ t, p.1 = .name t → t.head? = some '$')
    (hways : ∀ p ∈ vars, ∀ t, p.2 = .word t → (Session.usualVariables.update vars).Arrives t)
    (read : Int → Int) (d : Style) (hread : ∀ l ∈ d.loops, l.ReadAs read) :
    ∃ t, (arrange file d.source).run (s.restart vars []) = (.ok (), t) ∧
      t.order.map (ruleOf t) = (d.unrolledBy read).allBlocks :=
  d.arranged s vars file (writes_word .still)
    ⟨lettered_update hvars, settled_update hvars hways⟩ Loop.even_written
    fun l hl => Loop.turns_means (hread l hl)

end Compiling

/-- A style sheet is compiled to the same rules as the sheet with its loops written out, as long as
no bound of a loop needs more than 53 bits, and no variable that is given leads to others in a
circle. -/
theorem loop_eq_unrolling (s : Session) (vars : Context)
    (hvars : ∀ p ∈ vars, ∀ t, p.1 = .name t → t.head? = some '$')
    (hways : ∀ p ∈ vars, ∀ t, p.2 = .word t → (Session.usualVariables.update vars).Arrives t)
    (file : Option Text) (d : Style)
    (hbounds : ∀ l ∈ d.loops, l.first.natAbs ≤ 2 ^ 53 ∧ l.last.natAbs ≤ 2 ^ 53) :
    ∃ t u, (arrange file d.source).run (s.restart vars []) = (.ok (), t) ∧
      (arrange file d.unrolled.listed).run (s.restart vars []) = (.ok (), u) ∧
      styledRules t = styledRules u := by
  have hread : ∀ l ∈ d.loops, l.ReadAs id := fun l hl =>
    ⟨Decimal.truncate?_ofInt (hbounds l hl).1, Decimal.truncate?_ofInt (hbounds l hl).2⟩
  obtain ⟨t, hrun, hrules⟩ := arranged_style s vars file hvars hways id d hread
  obtain ⟨u, hrun', hrules'⟩ := arranged_listing s vars file d.unrolled
  exact ⟨t, u, hrun, hrun', by rw [styledRules, styledRules, hrules, hrules', Tree.unrolled]⟩

/-- A loop over a numbered class, in a rule. -/
def countedClass (first last : Int) : Style :=
  let word (c : Char) (h : c.isLower = true ∧ Colour.digits? [c] = none) : PlainWord :=
    ⟨⟨[c], by simp, by simpa using h.1⟩, h.2⟩
  let declaration := Tree.declare (word 'c' (by decide +kernel)) (word 'd' (by decide +kernel)) .nil
  .rule (word 'a' (by decide +kernel)).toWord
    (.loop ⟨first, last, .rule (.counted (word 'b' (by decide +kernel)).toWord) declaration .nil⟩
      .nil) .nil

theorem loop_eq_unrolling_downwards :
    (countedClass 1 (-1)).source =
      ".a \x7b @for $i from 1 through -1 \x7b .b#\x7b$i\x7d \x7b c: d; \x7d \x7d \x7d".toList ∧
    (countedClass 1 (-1)).unrolled.listed =
      ".a \x7b .b1 \x7b c: d; \x7d .b0 \x7b c: d; \x7d .b-1 \x7b c: d; \x7d \x7d".toList ∧
    ∃ t u,
      (arrange none (countedClass 1 (-1)).source).run (Session.restart {} [] []) = (.ok (), t) ∧
      (arrange none (countedClass 1 (-1)).unrolled.listed).run (Session.restart {} [] []) =
        (.ok (), u) ∧
      styledRules t = styledRules u :=
  ⟨by decide +kernel, by decide +kernel,
    loop_eq_unrolling {} [] nofun nofun none (countedClass 1 (-1))
      (by simp [countedClass, Tree.loops])⟩

/-- Of a bound with more bits, only 53 are read. -/
theorem long_bound_rounded :
    ∃ t u, (arrange none (countedClass 9007199254740993 9007199254740993).source).run
        (Session.restart {} [] []) = (.ok (), t) ∧
      (arrange none (countedClass 9007199254740993 9007199254740993).unrolled.listed).run
        (Session.restart {} [] []) = (.ok (), u) ∧
      (styledRules t).map Finished.selectors = [".a .b9007199254740992".toList] ∧
      (styledRules u).map Finished.selectors = [".a .b9007199254740993".toList] := by
  have hread :
      Decimal.truncate? (Decimal.ofInt 9007199254740993) = some (9007199254740993 - 1) := by
    decide +kernel
  obtain ⟨t, hrun, hrules⟩ := arranged_style {} [] none nofun nofun (· - 1)
    (countedClass 9007199254740993 9007199254740993)
    (by simpa [countedClass, Tree.loops, Loop.ReadAs] using hread)
  obtain ⟨u, hrun', hrules'⟩ := arranged_listing {} [] none
    (countedClass 9007199254740993 9007199254740993).unrolled
  refine ⟨t, u, hrun, hrun', ?_, ?_⟩
  · rw [styledRules, hrules]
    decide +kernel
  · rw [styledRules, hrules']
    decide +kernel

end SheetPress.Nesting
