import SheetPress.Proofs.Selector.Paths

/-!
# Names of nodes

A node is named by its selectors, and behind ` extends ` by what they extend.  Adding selectors
puts a name into normal form: blanks around selectors are lost and runs of blanks become one, and
apart from this every selector stays (`neat_mem_normalize`), unless the normal form makes
the word ` extends ` out of something that was none.  A selector is *bare* if this cannot happen.
-/

set_option autoImplicit false

namespace SheetPress.Selector

open List Text

/-- The selectors of a node, without what they extend. -/
def own (node : Text) : Text := (cutExtends node).1

/-- What the selectors of a node extend. -/
def parentOf (node : Text) : Text := (cutExtends node).2

/-- The selectors of a node one by one. -/
def ownSelectors (node : Text) : List Text := Text.splitOn ',' (own node)

/-- A selector without blanks around it and with single blanks in it. -/
def neat (x : Text) : Text := trim (squeeze x)

/-- There is no ` extends ` in a selector, not even if a blank follows it. -/
def Bare (x : Text) : Prop := Text.contains (squeeze x ++ [' ']) extendsMark = false

instance : DecidablePred Bare := fun _ => inferInstanceAs (Decidable (_ = _))

/-! ## Blanks -/

section Blanks

variable {a b t x : Text} {c d : Char}

theorem isSpace_blank : isSpace ' ' = true := by decide

theorem squeeze_append {a : Text} (ha : ∀ c ∈ a.getLast?, isSpace c = false) (b : Text) :
    squeeze (a ++ b) = squeeze a ++ squeeze b := by
  induction a with
  | nil => rfl
  | cons c a ih =>
    cases a with
    | nil =>
      have hc : isSpace c = false := ha c rfl
      simp [squeeze, hc]
    | cons d a =>
      have hrest := ih fun e he => ha e (by simpa using he)
      rw [cons_append] at hrest
      simp only [cons_append, squeeze] at hrest ⊢
      cases hc : isSpace c with
      | false => simp [hrest]
      | true => cases hd : isSpace d <;> simp_all

theorem squeeze_cons (hc : isSpace c = false) (t : Text) :
    squeeze (c :: t) = c :: squeeze t := by
  cases t <;> simp [squeeze, hc]

theorem squeeze_space (hc : isSpace c = true) (ht : ∀ d ∈ t.head?, isSpace d = false) :
    squeeze (c :: t) = ' ' :: squeeze t := by
  cases t with
  | nil => simp [squeeze, hc]
  | cons d t =>
    have hd := ht d rfl
    simp [squeeze, hc, hd]

theorem squeeze_space_space (hc : isSpace c = true) (hd : isSpace d = true) (t : Text) :
    squeeze (c :: d :: t) = squeeze (d :: t) := by
  rw [squeeze, if_pos hc]
  exact if_pos hd

/-- A text starts with a character, with the last of its blanks, or with one more of them. -/
theorem squeeze_induct {motive : Text → Prop} (nil : motive [])
    (char : ∀ c t, isSpace c = false → motive t → motive (c :: t))
    (last : ∀ c t, isSpace c = true → (∀ d ∈ t.head?, isSpace d = false) → motive t →
      motive (c :: t))
    (more : ∀ c d t, isSpace c = true → isSpace d = true → motive (d :: t) →
      motive (c :: d :: t)) (t : Text) : motive t := by
  induction t with
  | nil => exact nil
  | cons c t ih =>
    cases hc : isSpace c with
    | false => exact char c t hc ih
    | true =>
      cases t with
      | nil => exact last c [] hc (by simp) ih
      | cons d t =>
        cases hd : isSpace d with
        | false => exact last c (d :: t) hc (by simpa using hd) ih
        | true => exact more c d t hc hd ih

theorem mem_squeeze (h : c ∈ squeeze t) : c = ' ' ∨ isSpace c = false ∧ c ∈ t := by
  induction t using squeeze_induct with
  | nil => simp [squeeze] at h
  | char d t hd ih =>
    rw [squeeze_cons hd, mem_cons] at h
    rcases h with rfl | h
    · exact .inr ⟨hd, by simp⟩
    · exact (ih h).imp_right (And.imp_right (mem_cons_of_mem d))
  | last d t hd ht ih =>
    rw [squeeze_space hd ht, mem_cons] at h
    rcases h with rfl | h
    · exact .inl rfl
    · exact (ih h).imp_right (And.imp_right (mem_cons_of_mem d))
  | more d e t hd he ih =>
    rw [squeeze_space_space hd he] at h
    exact (ih h).imp_right (And.imp_right (mem_cons_of_mem d))

theorem squeeze_append_of_head (a : Text) (hb : ∀ c ∈ b.head?, isSpace c = false) :
    squeeze (a ++ b) = squeeze a ++ squeeze b := by
  induction a using squeeze_induct with
  | nil => rfl
  | char c a hc ih => rw [cons_append, squeeze_cons hc, squeeze_cons hc, ih, cons_append]
  | last c a hc ha ih =>
    have hhead : ∀ d ∈ (a ++ b).head?, isSpace d = false := by
      cases a with
      | nil => exact hb
      | cons e a => exact ha
    rw [cons_append, squeeze_space hc hhead, squeeze_space hc ha, ih, cons_append]
  | more c d a hc hd ih =>
    rw [cons_append, cons_append, squeeze_space_space hc hd, squeeze_space_space hc hd]
    exact ih

theorem head?_squeeze (ht : ∀ c ∈ t.head?, isSpace c = false) :
    (squeeze t).head? = t.head? := by
  cases t with
  | nil => rfl
  | cons c t => rw [squeeze_cons (ht c rfl), head?_cons, head?_cons]

theorem squeeze_squeeze (t : Text) : squeeze (squeeze t) = squeeze t := by
  induction t using squeeze_induct with
  | nil => rfl
  | char c t hc ih => rw [squeeze_cons hc, squeeze_cons hc, ih]
  | last c t hc ht ih =>
    rw [squeeze_space hc ht, squeeze_space isSpace_blank (head?_squeeze ht ▸ ht), ih]
  | more c d t hc hd ih => rw [squeeze_space_space hc hd, ih]

theorem exists_squeeze_space (hc : isSpace c = true) (t : Text) :
    ∃ rest, squeeze (c :: t) = ' ' :: rest := by
  induction t generalizing c with
  | nil => exact ⟨[], squeeze_space hc (by simp)⟩
  | cons d t ih =>
    cases hd : isSpace d with
    | false => exact ⟨_, squeeze_space hc (by simpa using hd)⟩
    | true =>
      rw [squeeze_space_space hc hd]
      exact ih hd

/-- One more blank at the end makes a difference only where there is none. -/
theorem squeeze_append_blank (t : Text) :
    ∃ w, squeeze (t ++ [' ']) = w ++ [' '] ∧ (squeeze t = w ∨ squeeze t = w ++ [' ']) := by
  induction t using squeeze_induct with
  | nil => exact ⟨[], rfl, .inl rfl⟩
  | char c t hc ih =>
    obtain ⟨w, hw, ht⟩ := ih
    refine ⟨c :: w, by rw [cons_append, squeeze_cons hc, hw, cons_append], ?_⟩
    rw [squeeze_cons hc]
    exact ht.imp (congrArg (c :: ·)) (congrArg (c :: ·))
  | last c t hc ht ih =>
    cases t with
    | nil =>
      refine ⟨[], ?_, .inr ?_⟩
      · rw [cons_append, nil_append, squeeze_space_space hc isSpace_blank]
        rfl
      · rw [squeeze_space hc ht]
        rfl
    | cons d t =>
      obtain ⟨w, hw, ht'⟩ := ih
      refine ⟨' ' :: w, ?_, ?_⟩
      · rw [cons_append, squeeze_space hc (by simpa using ht), hw, cons_append]
      · rw [squeeze_space hc ht]
        exact ht'.imp (congrArg (' ' :: ·)) (congrArg (' ' :: ·))
  | more c d t hc hd ih =>
    obtain ⟨w, hw, ht⟩ := ih
    refine ⟨w, ?_, ?_⟩
    · rw [cons_append, cons_append, squeeze_space_space hc hd]
      exact hw
    · rwa [squeeze_space_space hc hd]

theorem splitOn_squeeze {sep : Char} (hsep : isSpace sep = false) (t : Text) :
    Text.splitOn sep (squeeze t) = (Text.splitOn sep t).map squeeze := by
  have hnone : ∀ {s : Text}, sep ∉ s → sep ∉ squeeze s := by
    intro s hs h
    rcases mem_squeeze h with rfl | h
    · exact absurd isSpace_blank (by simp [hsep])
    · exact hs h.2
  induction t using splitOn_induct sep with
  | single s hs =>
    rw [splitOn_of_notMem hs, splitOn_of_notMem (hnone hs), map_singleton]
  | more a b ha ih =>
    rw [squeeze_append_of_head a (by simpa using hsep), squeeze_cons hsep,
      splitOn_append _ (hnone ha), splitOn_append _ ha, ih, map_cons]

end Blanks

/-! ## Neat selectors -/

section Neat

variable {t x : Text}

theorem tight_trim (t : Text) : Text.Tight (trim t) := by
  have hdrop : ∀ (s : Text), ∀ c ∈ (s.dropWhile isSpace).head?, isSpace c = false := by
    intro s c hc
    have hhead := head?_dropWhile_not isSpace s
    rwa [hc] at hhead
  constructor
  · intro c hc
    have hprefix : trim t <+: trimLeft t := by
      rw [trim, trimRight, dropEndWhile, ← reverse_suffix, reverse_reverse]
      exact dropWhile_suffix _
    obtain ⟨rest, hrest⟩ := hprefix
    refine hdrop t c ?_
    rw [← trimLeft, ← hrest, head?_append, hc]
    rfl
  · intro c hc
    rw [trim, trimRight, dropEndWhile, getLast?_reverse] at hc
    exact hdrop _ c hc

theorem trim_append_blank (t : Text) : trim (t ++ [' ']) = trim t := by
  obtain ⟨a, b, ha, hb, ht⟩ := exists_trim t
  conv_lhs => rw [ht, append_assoc, append_assoc]
  refine trim_pad ha ?_ (tight_trim t)
  simpa [or_imp, forall_and, isSpace_blank] using hb

theorem tight_squeeze (ht : Text.Tight t) : Text.Tight (squeeze t) := by
  refine ⟨head?_squeeze ht.head ▸ ht.head, ?_⟩
  rcases eq_nil_or_concat t with rfl | ⟨s, c, rfl⟩
  · exact tight_nil.last
  · have hc : isSpace c = false := ht.last c (by simp)
    rw [concat_eq_append, squeeze_append_of_head s (by simpa using hc), squeeze_cons hc]
    simpa [squeeze] using hc

theorem isSpace_of_mem_squeeze (ht : ∀ c ∈ t, isSpace c = true) :
    ∀ c ∈ squeeze t, isSpace c = true := by
  intro c hc
  rcases mem_squeeze hc with rfl | ⟨hspace, hmem⟩
  · exact isSpace_blank
  · exact absurd (ht c hmem) (by simp [hspace])

/-- It is all the same whether blanks are trimmed or squeezed first. -/
theorem squeeze_trim (t : Text) : squeeze (trim t) = neat t := by
  obtain ⟨a, b, ha, hb, ht⟩ := exists_trim t
  have htight := tight_trim t
  by_cases hnil : trim t = []
  · have hall : ∀ c ∈ squeeze t, isSpace c = true := by
      refine isSpace_of_mem_squeeze fun c hc => ?_
      rw [ht, hnil, nil_append, mem_append] at hc
      exact hc.elim (ha c) (hb c)
    have htrim := trim_pad (t := []) (b := []) hall (by simp) tight_nil
    rw [append_nil, append_nil] at htrim
    rw [neat, htrim, hnil]
    rfl
  · have hhead : ∀ c ∈ (trim t ++ b).head?, isSpace c = false := by
      rw [head?_append_of_ne_nil _ hnil]
      exact htight.head
    have hsqueezed : squeeze t = squeeze a ++ (squeeze (trim t) ++ squeeze b) := by
      conv_lhs => rw [ht]
      rw [squeeze_append_of_head a hhead, squeeze_append htight.last]
    rw [neat, hsqueezed]
    exact (trim_pad (isSpace_of_mem_squeeze ha) (isSpace_of_mem_squeeze hb)
      (tight_squeeze htight)).symm

theorem neat_neat (x : Text) : neat (neat x) = neat x := by
  rw [← squeeze_trim x, neat, squeeze_squeeze, (tight_squeeze (tight_trim x)).trim]

theorem comma_notMem_neat (h : ',' ∉ x) : ',' ∉ neat x := by
  intro hmem
  rcases mem_squeeze (mem_of_mem_trim hmem) with heq | ⟨-, hx⟩
  · exact absurd heq (by decide)
  · exact h hx

end Neat

/-! ## The word between selectors and what they extend -/

section Mark

variable {a b x z : Text}

theorem extendsMark_ne_nil : extendsMark ≠ [] := by decide

theorem comma_notMem_extendsMark : ',' ∉ extendsMark := by decide

/-- The mark starts and ends with a blank and has none in between. -/
theorem eq_of_extendsMark_eq (hne : a ≠ []) (h : extendsMark = a ++ ' ' :: z) :
    a = " extends".toList ∧ z = [] := by
  have hword : ' ' ∉ "extends".toList := by decide
  obtain ⟨c, a, rfl⟩ := exists_cons_of_ne_nil hne
  have hsplit : ' ' :: ("extends".toList ++ [' ']) = c :: (a ++ ' ' :: z) := h
  obtain ⟨rfl, hrest⟩ := cons.inj hsplit
  rcases append_eq_append_iff.mp hrest with ⟨y, ha, hy⟩ | ⟨y, ha, hy⟩
  · cases y with
    | nil =>
      rw [append_nil] at ha
      exact ⟨by rw [ha]; rfl, by simpa using hy.symm⟩
    | cons d y => simp at hy
  · cases y with
    | nil =>
      rw [append_nil] at ha
      exact ⟨by rw [← ha]; rfl, by simpa using hy⟩
    | cons d y =>
      obtain ⟨rfl, -⟩ := cons.inj hy
      exact absurd (by rw [ha]; simp) hword

/-- A text without the mark is cut from a mark behind it, unless its end and the start of the mark
make one together. -/
theorem cut?_mark_behind (hx : ¬ extendsMark <:+: x) (b : Text) :
    cut? extendsMark (x ++ (extendsMark ++ b)) = some (x, b) ∨
      ∃ o rest, x = o ++ " extends".toList ∧
        cut? extendsMark (x ++ (extendsMark ++ b)) = some (o, rest) := by
  have hcontains : contains (x ++ (extendsMark ++ b)) extendsMark = true :=
    contains_iff.mpr ⟨x, b, append_assoc _ _ _⟩
  obtain ⟨⟨o, rest⟩, hcut⟩ := Option.isSome_iff_exists.mp hcontains
  obtain ⟨y, hxy, hy⟩ : ∃ y, x = o ++ y ∧ extendsMark ++ rest = y ++ (extendsMark ++ b) := by
    rcases append_eq_append_iff.mp (eq_append_of_cut? hcut) with ⟨y, ho, hy⟩ | h
    · have hle := length_le_of_cut? hcut rfl
      have hnil : y = [] := by
        rw [ho, length_append] at hle
        exact length_eq_zero_iff.mp (by omega)
      subst hnil
      exact ⟨[], by simpa using ho.symm, by simpa using hy.symm⟩
    · exact h
  rcases append_eq_append_iff.mp hy with ⟨u, hu, -⟩ | ⟨u, hu, hb⟩
  · exact absurd ⟨o, u, by rw [hxy, hu, append_assoc]⟩ hx
  · by_cases hnil : y = []
    · subst hnil
      rw [append_nil] at hxy
      rw [nil_append, append_cancel_left_eq] at hy
      exact .inl (by rw [hcut, hxy, hy])
    · cases u with
      | nil => exact absurd ⟨o, [], by simp [hxy, hu]⟩ hx
      | cons d u =>
        have hd : ' ' = d := (cons.inj hb).1
        subst hd
        obtain ⟨rfl, -⟩ := eq_of_extendsMark_eq hnil hu
        exact .inr ⟨o, rest, hxy, hcut⟩

/-- A text that does not make a mark together with a blank is cut from a mark behind it. -/
theorem cut?_mark (hx : ¬ extendsMark <:+: x ++ [' ']) (b : Text) :
    cut? extendsMark (x ++ (extendsMark ++ b)) = some (x, b) := by
  have hx' : ¬ extendsMark <:+: x := fun h => hx (h.trans (infix_append [] x [' ']))
  rcases cut?_mark_behind hx' b with hcut | ⟨o, rest, rfl, -⟩
  · exact hcut
  · exact absurd ⟨o, [], by rw [append_assoc, append_assoc]; rfl⟩ hx

/-- Squeezing keeps the mark, and a blank that stood before it may be lost. -/
theorem squeeze_mark (x b : Text) :
    ∃ w rest, squeeze (x ++ (extendsMark ++ b)) = w ++ (extendsMark ++ rest) ∧
      (squeeze x = w ∨ squeeze x = w ++ [' ']) ∧ squeeze (' ' :: b) = ' ' :: rest := by
  have hword : squeeze "extends".toList = "extends".toList := by decide
  have hlast : ∀ c ∈ "extends".toList.getLast?, isSpace c = false := by
    intro c hc
    obtain rfl : 's' = c := Option.some.inj hc
    decide
  have hhead : ∀ c ∈ ("extends".toList ++ ' ' :: b).head?, isSpace c = false := by
    intro c hc
    obtain rfl : 'e' = c := Option.some.inj hc
    decide
  obtain ⟨w, hw, hx⟩ := squeeze_append_blank x
  obtain ⟨rest, hrest⟩ := exists_squeeze_space isSpace_blank b
  refine ⟨w, rest, ?_, hx, hrest⟩
  have hsplit : x ++ (extendsMark ++ b) = (x ++ [' ']) ++ ("extends".toList ++ ' ' :: b) := by
    rw [append_assoc]
    rfl
  rw [hsplit, squeeze_append_of_head _ hhead, squeeze_append hlast, hw, hword, hrest,
    append_assoc]
  rfl

end Mark

/-! ## Reading names -/

section Reading

variable {node x : Text} {new : List Text}

theorem Bare.markless (h : Bare x) : ¬ extendsMark <:+: squeeze x ++ [' '] :=
  contains_eq_false_iff.mp h

theorem cut?_of_bare (h : Bare x) : cut? extendsMark (squeeze x) = none :=
  cut?_eq_none_iff.mpr fun hmark => h.markless (hmark.trans (infix_append [] _ [' ']))

theorem cut?_squeeze_mark (h : Bare x) (b : Text) :
    ∃ w rest, cut? extendsMark (squeeze (x ++ (extendsMark ++ b))) = some (w, rest) ∧
      trim w = neat x ∧ squeeze (' ' :: b) = ' ' :: rest := by
  obtain ⟨w, rest, hsqueeze, hw, hrest⟩ := squeeze_mark x b
  have hbare := h.markless
  refine ⟨w, rest, ?_, ?_, hrest⟩
  · rw [hsqueeze]
    refine cut?_mark (fun hmark => hbare ?_) rest
    rcases hw with hw | hw
    · rwa [hw]
    · rw [hw]
      exact hmark.trans (infix_append [] _ [' '])
  · rcases hw with hw | hw
    · rw [neat, hw]
    · rw [neat, hw, trim_append_blank]

theorem infix_squeeze (h : extendsMark <:+: x) : extendsMark <:+: squeeze x := by
  obtain ⟨a, b, rfl⟩ := h
  obtain ⟨w, rest, hsqueeze, -⟩ := squeeze_mark a b
  rw [append_assoc, hsqueeze]
  exact ⟨w, rest, append_assoc _ _ _⟩

theorem name_cases (node : Text) :
    (own node = node ∧ parentOf node = [] ∧ ¬ extendsMark <:+: node) ∨
      node = own node ++ (extendsMark ++ parentOf node) ∧
        cut? extendsMark node = some (own node, parentOf node) := by
  unfold own parentOf cutExtends cut
  cases hcut : cut? extendsMark node with
  | none => exact .inl ⟨rfl, rfl, cut?_eq_none_iff.mp hcut⟩
  | some p => exact .inr ⟨eq_append_of_cut? hcut, rfl⟩

/-- The pieces of a name: the last selector goes on with the first piece of what it extends. -/
theorem splitOn_name (h : node = own node ++ (extendsMark ++ parentOf node)) :
    ∃ init last first rest, ownSelectors node = init ++ [last] ∧
      Text.splitOn ',' (parentOf node) = first :: rest ∧
      Text.splitOn ',' node = init ++ (last ++ (extendsMark ++ first)) :: rest := by
  obtain ⟨init, last, hown, happend⟩ := exists_splitOn_append ',' (own node)
  obtain ⟨first, rest, hparent⟩ := exists_cons_of_ne_nil
    (Text.splitOn_ne_nil ',' (parentOf node))
  refine ⟨init, last, first, rest, hown, hparent, ?_⟩
  conv_lhs => rw [h]
  exact happend (splitOn_append_of_notMem comma_notMem_extendsMark hparent)

theorem cut_of_markless (h : ¬ extendsMark <:+: x) : cut extendsMark x = (x, []) := by
  rw [cut, cut?_eq_none_iff.mpr h]
  rfl

theorem parts_nil : parts '&' (trim []) = [] := by decide

/-- It makes no difference whether a list is read as one in which selectors extend others. -/
theorem read_eq_readExtending (s : Text) : read s = readExtending s := by
  unfold read
  split
  next => rfl
  next hmark =>
    rw [contains_iff] at hmark
    have hcut : ∀ p ∈ Text.splitOn ',' s, cut extendsMark p = (p, []) := fun p hp =>
      cut_of_markless fun h => hmark (h.trans (infix_of_mem_splitOn hp))
    rw [readExtending, map_congr_left hcut]
    refine Prod.ext ?_ ?_
    · simp [parts, filled, Function.comp_def]
    · simp [flatMap_map, parts_nil]

theorem read_squeeze (node : Text) :
    read (squeeze node) =
      (filled ((Text.splitOn ',' node).map fun p => (cut extendsMark (squeeze p)).1),
        (Text.splitOn ',' node).flatMap fun p =>
          parts '&' (trim (cut extendsMark (squeeze p)).2)) := by
  rw [read_eq_readExtending, readExtending, splitOn_squeeze (by decide)]
  simp only [map_map, flatMap_map, Function.comp_def]

theorem mem_filled {ts : List Text} : x ∈ filled ts ↔ x ≠ [] ∧ ∃ t ∈ ts, trim t = x := by
  simp [filled, and_comm]

theorem neat_mem_read (hx : x ∈ ownSelectors node) (hbare : Bare x) (hne : neat x ≠ []) :
    neat x ∈ (read (squeeze node)).1 := by
  -- The piece that the selector stands in is cut to the selector.
  obtain ⟨p, hp, hcut⟩ : ∃ p ∈ Text.splitOn ',' node,
      trim (cut extendsMark (squeeze p)).1 = neat x := by
    have hwhole : trim (cut extendsMark (squeeze x)).1 = neat x := by
      rw [cut, cut?_of_bare hbare]
      rfl
    rcases name_cases node with ⟨hown, -⟩ | ⟨hname, -⟩
    · exact ⟨x, by rwa [ownSelectors, hown] at hx, hwhole⟩
    · obtain ⟨init, last, first, rest, hselectors, -, hsplit⟩ := splitOn_name hname
      rw [hselectors, mem_append, mem_singleton] at hx
      rw [hsplit]
      rcases hx with hx | rfl
      · exact ⟨x, by simp [hx], hwhole⟩
      · obtain ⟨w, rest, hcut, hw, -⟩ := cut?_squeeze_mark hbare first
        refine ⟨x ++ (extendsMark ++ first), by simp, ?_⟩
        rw [cut, hcut]
        exact hw
  rw [read_squeeze, mem_filled]
  exact ⟨hne, _, mem_map_of_mem hp, hcut⟩

theorem not_infix_of_mem_read (hx : x ∈ (read (squeeze node)).1) : ¬ extendsMark <:+: x := by
  rw [read_squeeze, mem_filled] at hx
  obtain ⟨-, t, ht, rfl⟩ := hx
  obtain ⟨p, -, rfl⟩ := mem_map.mp ht
  intro hmark
  have hcut : ¬ extendsMark <:+: (cut extendsMark (squeeze p)).1 := by
    rw [cut]
    cases hcut : cut? extendsMark (squeeze p) with
    | none => exact cut?_eq_none_iff.mp hcut
    | some q => exact not_infix_of_cut? extendsMark_ne_nil hcut
  exact hcut (hmark.trans (infix_trim _))

/-! ## Reading what has been written -/

/-- A text is one selector, without blanks that could be lost. -/
structure Single (q : Text) : Prop where
  ne_nil : q ≠ []
  neat : neat q = q
  comma : ',' ∉ q
  amp : '&' ∉ q

theorem Single.tight {q : Text} (h : Single q) : Text.Tight q := h.neat ▸ tight_trim _

theorem Single.parts {q : Text} (h : Single q) : parts '&' q = [q] := by
  simp [Selector.parts, filled, splitOn_of_notMem h.amp, h.tight.trim, h.ne_nil]

theorem joinWith_append_last (init : List Text) (last x : Text) :
    joinWith [','] (init ++ [last]) ++ x = joinWith [','] (init ++ [last ++ x]) := by
  induction init with
  | nil => simp [joinWith]
  | cons c init ih =>
    cases init with
    | nil => simp [joinWith]
    | cons d init =>
      simp only [cons_append, joinWith_cons_cons] at ih ⊢
      simp [← ih]

theorem tight_joinWith (sep : Text) {cs : List Text} (hne : cs ≠ [])
    (hcs : ∀ c ∈ cs, c ≠ [] ∧ Text.Tight c) :
    joinWith sep cs ≠ [] ∧ Text.Tight (joinWith sep cs) := by
  induction cs with
  | nil => exact absurd rfl hne
  | cons c cs ih =>
    have hc := hcs c (by simp)
    cases cs with
    | nil => simpa [joinWith] using hc
    | cons d cs =>
      obtain ⟨hrest, htight⟩ := ih (by simp) fun c hc => hcs c (by simp [hc])
      rw [joinWith_cons_cons]
      exact ⟨by simp [hc.1], hc.2.append sep htight hc.1 hrest⟩

theorem squeeze_of_neat (h : neat x = x) : squeeze x = x := by
  have htight : Text.Tight x := h ▸ tight_trim _
  rw [← htight.trim, squeeze_trim, h, htight.trim]

section Neat

variable {ts : List Text} (h : ∀ t ∈ ts, t ≠ [] ∧ neat t = t)

include h

theorem map_squeeze_of_neat : ts.map squeeze = ts := by
  conv_rhs => rw [← map_id ts]
  exact map_congr_left fun t ht => squeeze_of_neat (h t ht).2

theorem filled_of_neat : filled ts = ts := by
  have htight : ∀ t ∈ ts, Text.Tight t := fun t ht => (h t ht).2 ▸ tight_trim _
  have hmap : ts.map trim = ts.map id := map_congr_left fun t ht => (htight t ht).trim
  rw [filled, hmap, map_id, filter_eq_self]
  exact fun t ht => by simpa using (h t ht).1

end Neat

section Written

variable {cs : List Text} (hne : cs ≠ []) (hcs : ∀ c ∈ cs, ',' ∉ c ∧ ¬ extendsMark <:+: squeeze c)

include hne hcs

theorem read_joined : read (squeeze (joinWith [','] cs)) = (filled (cs.map squeeze), []) := by
  have hcut : ∀ c ∈ cs, cut extendsMark (squeeze c) = (squeeze c, []) := fun c hc =>
    cut_of_markless (hcs c hc).2
  rw [read_squeeze, splitOn_joinWith hne fun c hc => (hcs c hc).1]
  refine Prod.ext ?_ (flatMap_eq_nil_iff.mpr fun c hc => by rw [hcut c hc, parts_nil])
  exact congrArg filled (map_congr_left fun c hc => by rw [hcut c hc])

/-- The last selector is cut from what it extends, and every one is read. -/
theorem read_extending {y : Text} (hlast : ∀ c ∈ cs.getLast?, Bare c) (hcomma : ',' ∉ y)
    (hy : ∀ d ∈ y.head?, isSpace d = false) :
    read (squeeze (joinWith [','] cs ++ (extendsMark ++ y))) =
      (filled (cs.map squeeze), parts '&' (neat y)) := by
  obtain ⟨init, last, rfl⟩ : ∃ init last, cs = init ++ [last] :=
    ⟨_, _, (dropLast_append_getLast hne).symm⟩
  have hcut : ∀ c ∈ init, cut extendsMark (squeeze c) = (squeeze c, []) := fun c hc =>
    cut_of_markless (hcs c (by simp [hc])).2
  obtain ⟨w, rest, hcutLast, hw, hrest⟩ := cut?_squeeze_mark (hlast last (by simp)) y
  rw [squeeze_space isSpace_blank hy, cons.injEq] at hrest
  have hpiece : cut extendsMark (squeeze (last ++ (extendsMark ++ y))) = (w, squeeze y) := by
    rw [cut, hcutLast, hrest.2]
    rfl
  have hsplit : Text.splitOn ',' (joinWith [','] (init ++ [last]) ++ (extendsMark ++ y)) =
      init ++ [last ++ (extendsMark ++ y)] := by
    rw [joinWith_append_last]
    refine splitOn_joinWith (by simp) fun c hc => ?_
    rcases mem_append.mp hc with hc | hc
    · exact (hcs c (by simp [hc])).1
    · rw [mem_singleton.mp hc]
      exact not_mem_append (hcs last (by simp)).1
        (not_mem_append comma_notMem_extendsMark hcomma)
  rw [read_squeeze, hsplit]
  refine Prod.ext ?_ ?_
  · have hmap : init.map (fun p => (cut extendsMark (squeeze p)).1) = init.map squeeze :=
      map_congr_left fun c hc => by rw [hcut c hc]
    have hneat : trim (squeeze last) = neat last := rfl
    simp only [map_append, map_singleton, hmap, hpiece, filled, hw, hneat]
  · have hnone : (init.flatMap fun p =>
        parts '&' (trim (cut extendsMark (squeeze p)).2)) = [] :=
      flatMap_eq_nil_iff.mpr fun c hc => by rw [hcut c hc, parts_nil]
    rw [flatMap_append, hnone, nil_append, flatMap_singleton, hpiece]
    rfl

end Written

/-! ## Writing names -/

/-- A selector that makes no mark with a blank behind it is one of the selectors of the name that
is written. -/
theorem mem_ownSelectors_write {selectors parents : List Text}
    (hall : ∀ y ∈ selectors, ¬ extendsMark <:+: y) (hx : x ∈ selectors)
    (hbare : ¬ extendsMark <:+: x ++ [' ']) (hcomma : ',' ∉ x) :
    x ∈ ownSelectors (write selectors parents) := by
  obtain ⟨joined, hjoined⟩ : ∃ t, joinWith [','] (sortedSet selectors) = t := ⟨_, rfl⟩
  have hne : sortedSet selectors ≠ [] := sortedSet_ne_nil (ne_nil_of_mem hx)
  have hpieces : Text.splitOn ',' joined =
      (sortedSet selectors).flatMap (Text.splitOn ',') := by
    rw [← hjoined, splitOn_joinWith_flatMap hne]
  have hmem : x ∈ Text.splitOn ',' joined := by
    rw [hpieces, mem_flatMap]
    exact ⟨x, mem_sortedSet.mpr hx, by simp [splitOn_of_notMem hcomma]⟩
  have hmark : ¬ extendsMark <:+: joined := by
    intro hmark
    obtain ⟨p, hp, hmark⟩ := exists_infix_splitOn comma_notMem_extendsMark hmark
    rw [hpieces, mem_flatMap] at hp
    obtain ⟨y, hy, hp⟩ := hp
    exact hall y (mem_sortedSet.mp hy) (hmark.trans (infix_of_mem_splitOn hp))
  have hwrite : write selectors parents = joined ∨
      ∃ b, write selectors parents = joined ++ (extendsMark ++ b) := by
    simp only [write, List.isEmpty_iff, hne, if_false, hjoined]
    split
    · exact Or.inl rfl
    · exact Or.inr ⟨_, append_assoc _ _ _⟩
  rcases hwrite with hwrite | ⟨b, hwrite⟩
  · rwa [hwrite, ownSelectors, own, cutExtends, cut_of_markless hmark]
  · rw [hwrite, ownSelectors, own, cutExtends, cut]
    rcases cut?_mark_behind hmark b with hcut | ⟨o, rest, ho, hcut⟩
    · rwa [hcut]
    · -- The last selector has lost its end, but this is not the one.
      rw [hcut]
      obtain ⟨init, last, hinit, happend⟩ := exists_splitOn_append ',' o
      have hsplit : Text.splitOn ',' joined = init ++ [last ++ " extends".toList] := by
        rw [ho]
        exact happend (splitOn_of_notMem (by decide))
      rw [hsplit, mem_append, mem_singleton] at hmem
      rcases hmem with hmem | rfl
      · show x ∈ Text.splitOn ',' o
        rw [hinit]
        simp [hmem]
      · exact absurd ⟨last, [], by rw [append_assoc, append_assoc]; rfl⟩ hbare

theorem markless_neat (h : Bare x) : ¬ extendsMark <:+: neat x ++ [' '] := by
  obtain ⟨a, b, -, hb, hx⟩ := exists_trim (squeeze x)
  intro hmark
  refine h.markless (hmark.trans ?_)
  cases b with
  | nil => exact ⟨a, [], by rw [hx]; simp [neat]⟩
  | cons c b =>
    have hc : c = ' ' := by
      rcases mem_squeeze (t := x) (c := c) (by rw [hx]; simp) with hc | ⟨hc, -⟩
      · exact hc
      · exact absurd (hb c (by simp)) (by simp [hc])
    exact ⟨a, b ++ [' '], by rw [hx, hc]; simp [neat]⟩

theorem neat_mem_normalize (hx : x ∈ ownSelectors node) (hbare : Bare x) (hne : neat x ≠ [])
    (hnew : ∀ y ∈ new, Bare y) : neat x ∈ ownSelectors (normalize node new []) := by
  have hcomma : ',' ∉ neat x := comma_notMem_neat (notMem_of_mem_splitOn hx)
  refine mem_ownSelectors_write (fun y hy => ?_) ?_ (markless_neat hbare) hcomma
  · rcases mem_append.mp hy with hy | hy
    · exact not_infix_of_mem_read hy
    · obtain ⟨-, t, ht, rfl⟩ := mem_filled.mp hy
      intro hmark
      have hsqueezed := infix_squeeze (hmark.trans (infix_trim t))
      exact (hnew t ht).markless (hsqueezed.trans (infix_append [] _ [' ']))
  · exact mem_append_left _ (neat_mem_read hx hbare hne)

/-! ## What is extended -/

theorem markless_trim (h : Bare x) : ¬ extendsMark <:+: trim x ++ [' '] := by
  intro hmark
  obtain ⟨w, hw, hx⟩ := squeeze_append_blank (trim x)
  refine markless_neat h ?_
  have hsqueezed := infix_squeeze hmark
  rw [hw] at hsqueezed
  rcases hx with hx | hx
  · rwa [← squeeze_trim, hx]
  · rw [← squeeze_trim, hx]
    exact hsqueezed.trans (infix_append [] _ [' '])

theorem markless_joinWith {ts : List Text} (h : ∀ t ∈ ts, ¬ extendsMark <:+: t ++ [' ']) :
    ¬ extendsMark <:+: joinWith [','] ts ++ [' '] := by
  induction ts with
  | nil => decide
  | cons t ts ih =>
    cases ts with
    | nil => simpa [joinWith] using h t (by simp)
    | cons u ts =>
      intro hmark
      rw [joinWith_cons_cons, singleton_append, append_assoc,
        cons_append] at hmark
      rcases infix_append_cons comma_notMem_extendsMark hmark with hmark | hmark
      · exact h t (by simp) (hmark.trans (infix_append [] t [' ']))
      · exact ih (fun x hx => h x (by simp [hx])) hmark

/-- Adding selectors to a name leaves what it extends. -/
theorem parentOf_normalize (hparent : Single (parentOf node))
    (hown : ∀ x ∈ ownSelectors node, Bare x) (hnew : ∀ y ∈ new, Bare y)
    (hx : x ∈ ownSelectors node) (hne : neat x ≠ []) :
    parentOf (normalize node new []) = parentOf node := by
  have hname : node = own node ++ (extendsMark ++ parentOf node) := by
    rcases name_cases node with ⟨-, hnone, -⟩ | ⟨hname, -⟩
    · exact absurd hnone hparent.ne_nil
    · exact hname
  have hread :
      read (squeeze node) = (filled ((ownSelectors node).map squeeze), [parentOf node]) := by
    conv_lhs => rw [hname, ← joinWith_splitOn ',' (own node)]
    rw [read_extending (Text.splitOn_ne_nil ',' _)
      (fun c hc => ⟨notMem_of_mem_splitOn hc, cut?_eq_none_iff.mp (cut?_of_bare (hown c hc))⟩)
      (fun c hc => hown c (mem_of_getLast? hc)) hparent.comma hparent.tight.head, hparent.neat,
      hparent.parts]
    rfl
  obtain ⟨selectors, hselectors⟩ : ∃ ts, (read (squeeze node)).1 ++ filled new = ts := ⟨_, rfl⟩
  have hmarkless : ∀ t ∈ selectors, ¬ extendsMark <:+: t ++ [' '] := by
    intro t ht
    rw [← hselectors, mem_append, hread, mem_filled, mem_filled] at ht
    rcases ht with ⟨-, u, hu, rfl⟩ | ⟨-, y, hy, rfl⟩
    · obtain ⟨y, hy, rfl⟩ := mem_map.mp hu
      exact markless_neat (hown y hy)
    · exact markless_trim (hnew y hy)
  have hmem : neat x ∈ selectors := by
    rw [← hselectors]
    exact mem_append_left _ (neat_mem_read hx (hown x hx) hne)
  have hwrite : normalize node new [] =
      joinWith [','] (sortedSet selectors) ++ (extendsMark ++ parentOf node) := by
    have hempty := sortedSet_ne_nil (ne_nil_of_mem hmem)
    have hsingle : sortedSet [parentOf node] = [parentOf node] := rfl
    calc normalize node new [] = write selectors [parentOf node] := by
          rw [← hselectors, normalize, hread]
          rfl
      _ = _ := by simp [write, hempty, hsingle, joinWith]
  rw [hwrite, parentOf, cutExtends, cut, cut?_mark]
  · rfl
  · exact markless_joinWith fun t ht => hmarkless t (mem_sortedSet.mp ht)

end Reading

end SheetPress.Selector
