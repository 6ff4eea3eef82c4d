import SheetPress.Proofs.Extend.Extensions

/-!
# What extending a class makes of other selectors

Where a class is extended by another one, the new selectors are the old ones with the name of the
class replaced, together with the character before it (`extensions_substitute`).  This character
need not be the point: `ap` is replaced when `.p` is extended.  Where no other part of a selector
ends with the name, exactly the parts that are the class are replaced.
-/

set_option autoImplicit false

namespace SheetPress

open List Text

/-- What may stand behind the point of a class. -/
structure PartName where
  text : Text
  ne_nil : text ≠ []
  names : ∀ c ∈ text, isName c = true
  deriving DecidableEq

/-- A part of a selector: an element, a class or an id. -/
inductive SelectorPart where
  | element (name : PartName)
  | «class» (name : PartName)
  | id (name : PartName)
  deriving DecidableEq

namespace SelectorPart

def name : SelectorPart → PartName
  | .element n | .class n | .id n => n

def mark : SelectorPart → Text
  | .element _ => []
  | .class _ => ['.']
  | .id _ => ['#']

def text (q : SelectorPart) : Text := q.mark ++ q.name.text

/-- A selector: parts with single blanks between them. -/
def selector (parts : List SelectorPart) : Text := joinWith [' '] (parts.map text)

/-- What stands behind a part. -/
def tailText (parts : List SelectorPart) : Text := Source.Outline.spread (parts.map text)

/-- Another class in the place of one. -/
def rename (p c : PartName) (q : SelectorPart) : SelectorPart :=
  if q = .class p then .class c else q

theorem selector_cons (q : SelectorPart) (parts : List SelectorPart) :
    selector (q :: parts) = q.text ++ tailText parts := Source.Outline.joinWith_cons _ _

theorem tailText_cons (q : SelectorPart) (parts : List SelectorPart) :
    tailText (q :: parts) = ' ' :: (q.text ++ tailText parts) := by
  simp [tailText, Source.Outline.spread]

theorem head?_tailText (parts : List SelectorPart) :
    ∀ c ∈ (tailText parts).head?, isName c = false := by
  cases parts with
  | nil => rintro c ⟨⟩
  | cons q parts =>
    rw [tailText_cons]
    rintro c ⟨⟩
    decide

end SelectorPart

namespace Pattern

open SelectorPart (tailText)

variable {first : Char → Bool} {name new : Text} {previous : Option Char}

/-- The name is found before other characters of names only if they are the name. -/
theorem eq_of_foundAt (hname : ∀ c ∈ name, isName c = true) {x : Char} {v rest : Text}
    (hv : ∀ c ∈ v, isName c = true) (hrest : ∀ c ∈ rest.head?, isName c = false)
    (h : foundAt first name previous (x :: (v ++ rest)) = true) : v = name := by
  have htake : ∀ {w r : Text}, (∀ c ∈ w, isName c = true) →
      (∀ c ∈ r.head?, isName c = false) → (w ++ r).takeWhile isName = w :=
    fun hw hr => (Source.takeWhile_append_of_head _ hr).trans (takeWhile_eq_self_iff.mpr hw)
  rw [foundAt] at h
  cases hafter : after? name (v ++ rest) with
  | none => simp [hafter] at h
  | some r =>
    have hr : ∀ c ∈ r.head?, isName c = false := by
      simp only [hafter, Bool.and_eq_true, Bool.not_eq_true'] at h
      cases r <;> simp_all
    rw [← htake hv hrest, eq_append_of_after? hafter, htake hname hr]

theorem substitute_append {t rest : Text}
    (h : ∀ u x v, t = u ++ x :: v → ∀ previous,
      foundAt first name previous (x :: (v ++ rest)) = false) :
    substitute first name new 0 previous (t ++ rest) =
      t ++ substitute first name new 0 (t.getLast?.or previous) rest := by
  induction t generalizing previous with
  | nil => rfl
  | cons x t ih =>
    rw [cons_append, substitute, h [] x t rfl,
      ih fun u y v ht => h (x :: u) y v (by simp [ht]), getLast?_or_cons]
    rfl

variable {p c : PartName} {q : SelectorPart} {parts : List SelectorPart}

theorem substitute_class (hprevious : previous.any Selector.startsPart = false) :
    substitute (· != '\n') p.text new 0 previous ((SelectorPart.class p).text ++ tailText parts) =
      new ++ substitute (· != '\n') p.text new 0 (some (p.text.getLast p.ne_nil))
        (tailText parts) := by
  have hrest := SelectorPart.head?_tailText parts
  have hfound : foundAt (· != '\n') p.text previous ('.' :: (p.text ++ tailText parts)) = true := by
    rw [foundAt, after?_append, hprevious]
    have hany : (tailText parts).head?.any isName = false := by
      cases hhead : (tailText parts).head? with
      | none => rfl
      | some x => exact hrest x hhead
    simp [hany]
  change substitute _ _ _ 0 previous ('.' :: (p.text ++ tailText parts)) = _
  rw [substitute, hfound, if_pos rfl, substitute_skip,
    getLast?_eq_some_getLast p.ne_nil]
  rfl

theorem suffix_of_mark {u v : Text} {x : Char} (h : q.text = u ++ x :: v) : v <:+ q.name.text := by
  cases q with
  | element n =>
    exact ⟨u ++ [x], by simp [← h, SelectorPart.text, SelectorPart.mark, SelectorPart.name]⟩
  | «class» n | id n =>
    cases u with
    | nil => exact ⟨[], (cons.inj h).2.symm⟩
    | cons y u => exact ⟨u ++ [x], by simpa using (cons.inj h).2.symm⟩

theorem substitute_part (hq : ¬ p.text <:+ q.name.text) :
    substitute first p.text new 0 previous (q.text ++ tailText parts) =
      q.text ++ substitute first p.text new 0 (some (q.name.text.getLast q.name.ne_nil))
        (tailText parts) := by
  rw [substitute_append fun u x v ht previous => ?_]
  · have hlast : q.text.getLast?.or previous = some (q.name.text.getLast q.name.ne_nil) := by
      rw [SelectorPart.text, List.getLast?_append_of_ne_nil _ q.name.ne_nil,
        List.getLast?_eq_some_getLast q.name.ne_nil]
      rfl
    rw [hlast]
  · have hsuffix := suffix_of_mark ht
    have hv : ∀ c ∈ v, isName c = true := fun c hc => q.name.names c (hsuffix.subset hc)
    rw [Bool.eq_false_iff]
    intro hfound
    exact hq (eq_of_foundAt p.names hv (SelectorPart.head?_tailText parts) hfound ▸ hsuffix)

/-- The blank before a part is not taken for the point of the class. -/
theorem foundAt_blank (hq : p.text <:+ q.name.text → q = .class p) :
    foundAt first p.text previous (' ' :: (q.text ++ tailText parts)) = false := by
  have hmark : ∀ (m : Char) (r : Text), isName m = false →
      ¬ foundAt first p.text previous (' ' :: m :: r) = true := by
    intro m r hm hfound
    obtain ⟨rest, hrest⟩ := exists_of_foundAt hfound
    obtain ⟨x, t, htext⟩ := exists_cons_of_ne_nil p.ne_nil
    have hx := p.names x (by simp [htext])
    rw [htext, cons_append] at hrest
    rw [← (cons.inj hrest).1, hm] at hx
    cases hx
  rw [Bool.eq_false_iff]
  cases q with
  | element n =>
    intro hfound
    have hname := eq_of_foundAt p.names n.names (SelectorPart.head?_tailText parts) hfound
    cases hq (hname ▸ suffix_refl _)
  | «class» n => exact hmark '.' _ (by decide)
  | id n => exact hmark '#' _ (by decide)

/-- A part is replaced if it is the class, and all others stay. -/
theorem substitute_rename (parts : List SelectorPart) (hq : p.text <:+ q.name.text → q = .class p)
    (hprevious : previous.any Selector.startsPart = false) :
    ∃ last, isName last = true ∧
      substitute (· != '\n') p.text ('.' :: c.text) 0 previous (q.text ++ tailText parts) =
        (q.rename p c).text ++
          substitute (· != '\n') p.text ('.' :: c.text) 0 (some last) (tailText parts) := by
  by_cases hclass : q = .class p
  · subst hclass
    refine ⟨_, p.names _ (getLast_mem p.ne_nil), ?_⟩
    rw [substitute_class hprevious, SelectorPart.rename, if_pos rfl]
    rfl
  · refine ⟨_, q.name.names _ (getLast_mem q.name.ne_nil), ?_⟩
    rw [substitute_part fun h => hclass (hq h), SelectorPart.rename, if_neg hclass]

theorem substitute_tailText (hparts : ∀ q ∈ parts, p.text <:+ q.name.text → q = .class p)
    {last : Char} (hlast : isName last = true) :
    substitute (· != '\n') p.text ('.' :: c.text) 0 (some last) (tailText parts) =
      tailText (parts.map (SelectorPart.rename p c)) := by
  induction parts generalizing last with
  | nil => rfl
  | cons q parts ih =>
    have hq := hparts q mem_cons_self
    obtain ⟨last, hlast', hsubstitute⟩ :=
      substitute_rename (c := c) parts hq (show (some ' ').any _ = false by decide)
    rw [SelectorPart.tailText_cons, substitute, foundAt_blank hq, map_cons,
      SelectorPart.tailText_cons, hsubstitute,
      ih (fun q hq => hparts q (mem_cons_of_mem _ hq)) hlast']
    rfl

theorem substitute_selector (hparts : ∀ q ∈ parts, p.text <:+ q.name.text → q = .class p) :
    substitute (· != '\n') p.text ('.' :: c.text) 0 none (SelectorPart.selector parts) =
      SelectorPart.selector (parts.map (SelectorPart.rename p c)) := by
  cases parts with
  | nil => rfl
  | cons q parts =>
    obtain ⟨last, hlast, hsubstitute⟩ :=
      substitute_rename (c := c) parts (hparts q mem_cons_self)
        (show (none : Option Char).any _ = false from rfl)
    rw [SelectorPart.selector_cons, hsubstitute, map_cons, SelectorPart.selector_cons,
      substitute_tailText (fun q hq => hparts q (mem_cons_of_mem _ hq)) hlast]

end Pattern

namespace Compile

/-- The selector in which another class takes the place of one. -/
theorem extended?_substitute {p c : PartName} (hne : p.text ≠ c.text) (s : Text) :
    let new := Pattern.substitute (· != '\n') p.text ('.' :: c.text) 0 none s
    extended? ('.' :: p.text) ('.' :: c.text) s = .ok (if new == s then none else some new) := by
  have hbackslash : '\\' ∉ '.' :: c.text := by
    intro hmem
    rcases mem_cons.mp hmem with h | h
    · cases h
    · cases c.names _ h
  intro new
  unfold extended?
  rw [cutCommon_class c.names p.names (Ne.symm hne)]
  show (Pattern.replaceAll (wholePattern ('.' :: p.text)) ('.' :: c.text) s >>=
    fun new => pure (if new == s then none else some new)) = _
  rw [Pattern.replaceAll_wholePattern p.names hbackslash]
  rfl

/-- A class that another one extends is replaced in every selector with it, along with the name of
the class behind any other character.  In a selector of elements, classes and ids, of which no other
one ends with the name of the class, the class is replaced and everything else stays. -/
theorem extensions_substitute {p c : PartName} (hne : p.text ≠ c.text) (selectors : List Text) :
    (extensions ('.' :: p.text) ['.' :: c.text] selectors =
      .ok (selectors.flatMap fun s =>
        let new := Pattern.substitute (· != '\n') p.text ('.' :: c.text) 0 none s
        if Text.contains s ('.' :: p.text) = true ∧ new ≠ s then [new] else [])) ∧
    ∀ parts : List SelectorPart, (∀ q ∈ parts, p.text <:+ q.name.text → q = .class p) →
      Pattern.substitute (· != '\n') p.text ('.' :: c.text) 0 none (SelectorPart.selector parts) =
        SelectorPart.selector (parts.map (SelectorPart.rename p c)) := by
  refine ⟨?_, fun parts hparts => Pattern.substitute_selector hparts⟩
  induction selectors with
  | nil => rfl
  | cons s selectors ih =>
    rw [extensions, ih, List.flatMap_cons]
    cases hcontains : Text.contains s ('.' :: p.text) with
    | false => rfl
    | true =>
      simp only [if_true, List.mapM_cons, List.mapM_nil, extended?_substitute hne, true_and]
      generalize hrest : (selectors.flatMap fun s => _) = rest
      generalize Pattern.substitute (· != '\n') p.text ('.' :: c.text) 0 none s = new
      by_cases hnew : new = s
      · simp [hnew]
        rfl
      · simp [hnew]
        rfl

theorem names_letter {x : Char} (hx : isName x = true) : ∀ c ∈ [x], isName c = true := by
  simpa using hx

/-- A name of one letter. -/
def letterName (x : Char) (hx : isName x = true) : PartName :=
  ⟨[x], cons_ne_nil x [], names_letter hx⟩

theorem extensions_substitute_between :
    let parts : List SelectorPart := [.element (letterName 'a' rfl), .class (letterName 'p' rfl),
      .id (letterName 'x' rfl)]
    ['p'] ≠ ['c'] ∧ (∀ q ∈ parts, ['p'] <:+ q.name.text → q = .class (letterName 'p' rfl)) ∧
    SelectorPart.selector parts = "a .p #x".toList ∧
    extensions ".p".toList [".c".toList] ["a .p #x".toList] = .ok ["a .c #x".toList] := by
  intro parts
  have hparts : ∀ q ∈ parts, ['p'] <:+ q.name.text → q = .class (letterName 'p' rfl) := by
    decide +kernel
  obtain ⟨hextensions, hselector⟩ := extensions_substitute (p := letterName 'p' rfl)
    (c := letterName 'c' rfl) (by decide) [SelectorPart.selector parts]
  have htext : SelectorPart.selector parts = "a .p #x".toList := by decide +kernel
  refine ⟨by decide, hparts, htext, ?_⟩
  have hnew := hselector parts hparts
  rw [List.flatMap_singleton, htext] at hextensions
  rw [htext] at hnew
  simp only [hnew] at hextensions
  exact hextensions.trans (by decide +kernel)

/-- An element that ends with the name of a class is taken for the class. -/
theorem element_taken_for_class :
    extensions ".p".toList [".c".toList] ["ap .p".toList] = .ok [".c .c".toList] := by
  decide +kernel

end Compile

end SheetPress
