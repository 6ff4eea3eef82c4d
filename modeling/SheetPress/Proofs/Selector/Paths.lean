import SheetPress.Compile.Declare
import SheetPress.Proofs.Source.Words

/-!
# Paths of classes

The selector of a nested rule is the path of the classes around it, with single blanks between
them.  The main statements are about the selectors that nesting makes: a class in a path makes
the path longer by one, and a block of the rule itself keeps it.
-/

set_option autoImplicit false

namespace SheetPress.Selector

open List Text
open Source (Word classHead)

/-! ## One selector -/

/-- A selector in one piece. -/
structure Compact (t : Text) : Prop where
  ne_nil : t ≠ []
  chars : ∀ c ∈ t, isSpace c = false ∧ c ≠ ',' ∧ c ≠ '&'

theorem squeeze_of_chars {t : Text} (h : ∀ c ∈ t, isSpace c = false) : squeeze t = t := by
  induction t with
  | nil => rfl
  | cons c t ih =>
    have hc := h c (by simp)
    have ht := ih fun d hd => h d (by simp [hd])
    simp [squeeze, hc, ht]

theorem sortedSet_singleton (t : Text) : sortedSet [t] = [t] := rfl

namespace Compact

variable {t : Text}

theorem notMem (h : Compact t) : ' ' ∉ t ∧ ',' ∉ t ∧ '&' ∉ t := by
  refine ⟨fun hm => ?_, fun hm => (h.chars _ hm).2.1 rfl, fun hm => (h.chars _ hm).2.2 rfl⟩
  exact absurd (h.chars _ hm).1 (by decide)

theorem tight (h : Compact t) : Text.Tight t := tight_of_all fun c hc => (h.chars c hc).1

theorem normalize (h : Compact t) : Selector.normalize t [] [] = t := by
  obtain ⟨hblank, hcomma, _⟩ := h.notMem
  have hsqueeze : squeeze t = t := squeeze_of_chars fun c hc => (h.chars c hc).1
  have hextends : Text.contains t extendsMark = false := contains_eq_false_of_notMem hblank
  have hne : t.isEmpty = false := by simpa using h.ne_nil
  have hread : Selector.read t = ([t], []) := by
    simp [Selector.read, hextends, parts, filled, splitOn_of_notMem hcomma, h.tight.trim, hne]
  have hnone : sortedSet [] = [] := by simp [sortedSet]
  simp [Selector.normalize, hsqueeze, hread, filled, Selector.write, sortedSet_singleton, hnone,
    joinWith]

theorem cutExtends (h : Compact t) : Selector.cutExtends t = (t, []) := by
  have hcut : cut? extendsMark t = none := cut?_eq_none_of_notMem h.notMem.1
  simp [Selector.cutExtends, cut, hcut]

end Compact

theorem compact_word (w : Word) : Compact w.text where
  ne_nil := w.ne_nil
  chars := fun _ hc =>
    ⟨Word.isSpace_of_mem hc, Word.ne_of_mem hc (by decide), Word.ne_of_mem hc (by decide)⟩

theorem compact_classHead (name : Word) : Compact (classHead name) where
  ne_nil := by simp [classHead]
  chars := by
    intro c hc
    rcases mem_cons.mp hc with rfl | hc
    · decide
    · exact (compact_word name).chars c hc

/-! ## Paths -/

/-- The selector of a class. -/
structure IsClass (t : Text) : Prop extends Compact t where
  point : t.head? = some '.'

theorem isClass_classHead (name : Word) : IsClass (classHead name) :=
  ⟨compact_classHead name, rfl⟩

/-- Classes one in the other, the outermost one first. -/
def within (classes : List Text) : Text := joinWith [' '] classes

theorem within_snoc (classes : List Text) (t : Text) :
    within (classes ++ [t]) = if classes = [] then t else within classes ++ ' ' :: t := by
  cases classes with
  | nil => simp [within, joinWith]
  | cons w ws =>
    simp only [within, cons_append, Source.Outline.joinWith_cons, cons_ne_nil, if_false]
    simp [Source.Outline.spread]

/-- Where a blank is followed by anything, it is followed by a point. -/
def Pointed (t : Text) : Prop := t.IsChain fun c d => c = ' ' → d = '.'

theorem Pointed.append {x y : Text} (hx : ' ' ∉ x) (hy : Pointed y) : Pointed (x ++ y) := by
  refine isChain_append.mpr ⟨?_, hy, fun c hc d _ hblank => ?_⟩
  · refine (pairwise_of_forall_mem_list fun c hc d _ hblank => ?_).isChain
    exact absurd (hblank ▸ hc) hx
  · exact absurd (hblank ▸ mem_of_getLast? hc) hx

section Within

variable {classes : List Text} (h : ∀ t ∈ classes, IsClass t)
include h

theorem within_eq_nil : within classes = [] ↔ classes = [] := by
  cases classes with
  | nil => simp [within, joinWith]
  | cons w ws => simp [within, Source.Outline.joinWith_cons, (h w (by simp)).ne_nil]

theorem pointed_within : Pointed (within classes) := by
  have hspread : ∀ ws : List Text, (∀ t ∈ ws, IsClass t) → Pointed (Source.Outline.spread ws) := by
    intro ws hws
    induction ws with
    | nil => simp [Pointed, Source.Outline.spread]
    | cons w ws ih =>
      have hw := hws w (by simp)
      have hword : Pointed (w ++ Source.Outline.spread ws) :=
        (ih fun t ht => hws t (by simp [ht])).append hw.notMem.1
      refine isChain_cons.mpr ⟨fun d hd _ => ?_, hword⟩
      change d ∈ (w ++ Source.Outline.spread ws).head? at hd
      rw [List.head?_append_of_ne_nil _ hw.ne_nil, hw.point] at hd
      exact (Option.some.inj hd).symm
  cases classes with
  | nil => simp [Pointed, within, joinWith]
  | cons w ws =>
    rw [within, Source.Outline.joinWith_cons]
    exact (hspread ws fun t ht => h t (by simp [ht])).append (h w (by simp)).notMem.1

theorem cut?_within : cut? extendsMark (within classes) = none := by
  cases hcut : cut? extendsMark (within classes) with
  | none => rfl
  | some p =>
    have hpointed := pointed_within h
    rw [eq_append_of_cut? hcut] at hpointed
    have hmark := (isChain_append.mp hpointed).2.1
    have hfirst : ' ' = ' ' → 'e' = '.' := isChain_cons_cons.mp hmark |>.1
    exact absurd (hfirst rfl) (by decide)

theorem cutExtends_within : cutExtends (within classes) = (within classes, []) := by
  simp [cutExtends, cut, cut?_within h]

theorem splitOn_within : Text.splitOn ',' (within classes) = [within classes] := by
  refine splitOn_of_notMem fun hmem => ?_
  rcases mem_joinWith hmem with hmem | ⟨t, ht, hmem⟩
  · exact absurd hmem (by decide)
  · exact (h t ht).notMem.2.1 hmem

/-! ## Nesting -/

omit h in
theorem nestedSelectors_compact {head : Text} (h : Compact head) (outer : Text) :
    Compile.nestedSelectors [outer] head = Compile.nestedSelector outer head := by
  have hnone : sortedSet (filled (Text.splitOn '&' [])) = [] := by
    simp [Text.splitOn, filled, tight_nil.trim, sortedSet]
  simp [Compile.nestedSelectors, h.normalize, h.cutExtends, splitOn_of_notMem h.notMem.2.1,
    hnone, sortedSet_singleton, joinWith]

theorem nestedSelectors_class {t : Text} (ht : IsClass t) :
    Compile.nestedSelectors [within classes] t = within (classes ++ [t]) := by
  have hself : (t == Compile.selfWord) = false := by
    refine beq_eq_false_iff_ne.mpr fun heq => ?_
    have hpoint := ht.point
    rw [heq] at hpoint
    exact absurd hpoint (by decide)
  have hany : t.any (· == '&') = false := by
    simpa using fun c hc => ne_of_mem_of_not_mem hc ht.notMem.2.2
  rw [nestedSelectors_compact ht.toCompact, within_snoc, Compile.nestedSelector, hself, hany]
  simp [within_eq_nil h]

omit h in
theorem nestedSelectors_self (outer : Text) :
    Compile.nestedSelectors [outer] Compile.selfWord = outer := by
  have hself : Compact Compile.selfWord :=
    compact_word (Source.keyword Compile.selfWord (by decide)).toWord
  rw [nestedSelectors_compact hself, Compile.nestedSelector, if_pos (by simp)]

end Within

/-! ## Paths of words -/

/-- A path of classes, the outermost one first. -/
def pathText (path : List Word) : Text := within (path.map classHead)

theorem isClass_path {path : List Word} : ∀ t ∈ path.map classHead, IsClass t := by
  intro t ht
  obtain ⟨w, -, rfl⟩ := mem_map.mp ht
  exact isClass_classHead w

theorem nestedSelectors_classHead (path : List Word) (name : Word) :
    Compile.nestedSelectors [pathText path] (classHead name) = pathText (path ++ [name]) := by
  rw [pathText, nestedSelectors_class isClass_path (isClass_classHead name), pathText,
    map_append, map_singleton]

end SheetPress.Selector
