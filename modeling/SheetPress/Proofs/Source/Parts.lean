import SheetPress.Proofs.Source.Items

/-!
# The parts of a source

A source falls into parts: stretches of text with semicolons between them, and blocks behind
their heads.  `Gives` says which items come from parts, and `Balanced` when a block ends with the
brace that closes it.
-/

set_option autoImplicit false

namespace SheetPress.Source

open List Text

/-! ## Brackets -/

/-- What is open at a point of a source: a quote, parentheses and braces. -/
structure Brackets where
  quote : Option Char := none
  parentheses : Int := 0
  depth : Nat := 0
  deriving DecidableEq, Repr

/-- The characters that open or close something. -/
def isBracket (c : Char) : Bool :=
  c == '"' || c == '\'' || c == '(' || c == ')' || c == '{' || c == '}'

/-- What is open behind one more character.  Inside quotes only the same quote counts, and
braces count only outside of parentheses. -/
def Brackets.pass (b : Brackets) (c : Char) : Brackets :=
  if !isBracket c then b
  else
    match b.quote with
    | some q => if c == q then { b with quote := none } else b
    | none =>
      if c == '"' || c == '\'' then { b with quote := some c }
      else if c == '(' then { b with parentheses := b.parentheses + 1 }
      else if c == ')' then { b with parentheses := b.parentheses - 1 }
      else if b.parentheses != 0 then b
      else if c == '{' then { b with depth := b.depth + 1 }
      else { b with depth := b.depth - 1 }

/-- What is open behind a text. -/
def Brackets.after (x : Text) : Brackets := x.foldl Brackets.pass {}

/-- Everything that is opened in the text is closed in it, and no brace of it closes anything
else. -/
structure Balanced (x : Text) : Prop where
  closed : Brackets.after x = {}
  own : ∀ y z : Text, x = y ++ '}' :: z → Brackets.after y ≠ {}

namespace Brackets

variable {c : Char}

theorem after_snoc (x : Text) (c : Char) : after (x ++ [c]) = (after x).pass c := by
  simp [after]

theorem pass_of_not_bracket (h : isBracket c = false) (b : Brackets) :
    b.pass c = b := by
  simp [pass, h]

theorem not_bracket_of_plain (h : isStructural c = false) : isBracket c = false := by
  simp only [isStructural, Bool.or_eq_false_iff] at h
  simp [isBracket, h]

theorem not_bracket_of_isSpace (h : isSpace c = true) : isBracket c = false := by
  cases hb : isBracket c with
  | false => rfl
  | true =>
    simp only [isBracket, Bool.or_eq_true, beq_iff_eq] at hb
    rcases hb with ((((rfl | rfl) | rfl) | rfl) | rfl) | rfl <;> exact absurd h (by decide)

theorem foldl_pass_blank {x : Text} (h : ∀ c ∈ x, isSpace c = true) (b : Brackets) :
    x.foldl pass b = b := by
  induction x with
  | nil => rfl
  | cons c x ih =>
    rw [foldl_cons, pass_of_not_bracket (not_bracket_of_isSpace (h c (by simp)))]
    exact ih fun d hd => h d (by simp [hd])

theorem after_trim (x : Text) : after (trim x) = after x := by
  obtain ⟨a, b, ha, hb, hx⟩ := exists_trim x
  conv_rhs => rw [hx]
  simp only [after, foldl_append]
  rw [foldl_pass_blank ha, foldl_pass_blank hb]

theorem quote_after (x : Text) : ∀ q ∈ (after x).quote, q = '"' ∨ q = '\'' := by
  induction x using List.reverseRecOn with
  | nil => simp [after]
  | append_singleton x c ih =>
    rw [after_snoc]
    cases hb : isBracket c with
    | false => rwa [pass_of_not_bracket hb]
    | true =>
      simp only [pass, hb, Bool.not_true, Bool.false_eq_true, if_false]
      cases hquote : (after x).quote with
      | some q =>
        rw [hquote] at ih
        by_cases hq : c = q
        · simp [hq]
        · simpa [hq, hquote] using ih
      | none =>
        dsimp only
        split_ifs with hc <;> simp_all

/-- Inside a block everything is one level deeper, as long as the block lasts. -/
theorem pass_shallower {b : Brackets} (h : b.depth ≠ 0) (h' : (b.pass c).depth ≠ 0) :
    Brackets.pass { b with depth := b.depth - 1 } c =
      { b.pass c with depth := (b.pass c).depth - 1 } := by
  obtain ⟨quote, parentheses, depth⟩ := b
  dsimp only at h
  cases hb : isBracket c with
  | false => simp [pass, hb]
  | true =>
    cases quote with
    | some q =>
      simp only [pass, hb, Bool.not_true, Bool.false_eq_true, if_false]
      split <;> rfl
    | none =>
      simp only [pass, hb, Bool.not_true, Bool.false_eq_true, if_false] at h' ⊢
      split_ifs at h' ⊢ with hquote hopen hclose hinner hbrace
      · rfl
      · rfl
      · rfl
      · rfl
      · simp only [Brackets.mk.injEq, true_and]
        omega
      · rfl

end Brackets

/-! ## Parts -/

/-- A part of a source. -/
inductive Part where
  /-- Text between semicolons and blocks. -/
  | stretch (t : Text)
  | semicolon
  /-- A head, and the text between the braces behind it. -/
  | block (head body : Text)

/-- What is left of a stretch or a head without its tags and without the blanks around it: the
text behind its first tag, in which later lines have lost theirs. -/
def plainText (x : Text) : Text :=
  trim (dropTags (((cut? [mark] x).map Prod.snd).getD x))

namespace Part

/-- The part as it stands in the source. -/
def text : Part → Text
  | .stretch t => t
  | .semicolon => [';']
  | .block head body => head ++ '{' :: (body ++ ['}'])

/-- The texts of the item that the part gives, if there is anything in its stretch or head.
`bodyText` says how the text between the braces is given. -/
def given (bodyText : Text → Text) : Part → Option (Text × Option Text)
  | .stretch t => if plainText t = [] then none else some (plainText t, none)
  | .semicolon => none
  | .block head body =>
    if plainText head = [] then none else some (plainText head, some (bodyText body))

/-- Stretches hold no semicolon, and blocks end with the brace that closes them. -/
def Closed : Part → Prop
  | .stretch t => ';' ∉ t
  | .semicolon => True
  | .block _ body => Balanced body

end Part

/-- The items are those that the parts give. -/
structure Gives (parts : List Part) (found : List Item) : Prop where
  texts : (found.map fun i => (i.head, i.code)) = parts.filterMap (Part.given trim)
  closed : ∀ p ∈ parts, p.Closed

theorem Gives.nil : Gives [] [] := ⟨rfl, by simp⟩

variable {found : List Item} {line line' : Int} {x : Text}

theorem Gives.append {parts more : List Part} {found' : List Item} (h : Gives parts found)
    (h' : Gives more found') : Gives (parts ++ more) (found ++ found') := by
  refine ⟨by simp [h.texts, h'.texts], ?_⟩
  intro p hp
  rcases mem_append.mp hp with hp | hp
  · exact h.closed p hp
  · exact h'.closed p hp

/-- The code of an item is the text between the braces of a block. -/
theorem Gives.block {parts : List Part} {found : List Item} (h : Gives parts found) {i : Item}
    (hi : i ∈ found) {t : Text} (ht : i.code = some t) :
    ∃ head body, .block head body ∈ parts ∧ t = trim body := by
  have hmem : (i.head, i.code) ∈ parts.filterMap (Part.given trim) := by
    rw [← h.texts]
    exact mem_map_of_mem hi
  obtain ⟨p, hp, hgiven⟩ := mem_filterMap.mp hmem
  cases p with
  | stretch x => simp [Part.given, ht] at hgiven
  | semicolon => simp [Part.given] at hgiven
  | block head body =>
    simp only [Part.given, ht, Option.ite_none_left_eq_some, Option.some.injEq,
      Prod.mk.injEq] at hgiven
    exact ⟨head, body, hp, hgiven.2.2.symm⟩

/-! ## Stretches -/

theorem readHead_eq_ok {head : Text} (h : readHead line x = .ok (line', head)) :
    head = plainText x := by
  unfold readHead at h
  unfold plainText
  split at h
  next hcut =>
    rw [hcut]
    exact (Prod.mk.inj (Except.ok.inj h)).2.symm
  next tag rest hcut =>
    rw [hcut]
    split at h
    · exact (Prod.mk.inj (Except.ok.inj h)).2.symm
    · cases h

theorem readHead_eq_error {f : Fault} (h : readHead line x = .error f) : f = .wrongValue := by
  unfold readHead at h
  split at h
  · cases h
  · split at h
    · cases h
    · exact (Except.error.inj h).symm

theorem gives_stretch {head : Text} (hx : ';' ∉ x) (h : readHead line x = .ok (line', head)) :
    Gives [.semicolon, .stretch x] (if head.isEmpty then [] else [⟨line', head, none⟩]) := by
  obtain rfl := readHead_eq_ok h
  constructor
  · by_cases hempty : plainText x = [] <;> simp [filterMap_cons, Part.given, hempty]
  · intro p hp
    rcases mem_pair.mp hp with rfl | rfl
    · trivial
    · exact hx

/-- Stretches with a semicolon before each. -/
def behindSemicolons (ps : List Text) : List Part := ps.flatMap fun p => [.semicolon, .stretch p]

/-- A run over stretches gives their items; if it breaks off, it has given those of the first
ones, and the next one cannot be read. -/
theorem looseItems_gives {ps : List Text} {result : Except Fault Int} (hps : ∀ p ∈ ps, ';' ∉ p)
    (h : looseItems line ps = (found, result)) :
    ((∃ parts, Gives parts found) ∧ ∀ i ∈ found, i.code = none) ∧
      (∀ f, result = .error f → ∃ p ∈ ps, ∃ line, readHead line p = .error f) ∧
      ∀ line', result = .ok line' → Gives (behindSemicolons ps) found := by
  induction ps generalizing line found with
  | nil =>
    obtain ⟨rfl, rfl⟩ := Prod.mk.inj h
    exact ⟨⟨⟨[], .nil⟩, by simp⟩, nofun, fun _ _ => .nil⟩
  | cons p ps ih =>
    unfold looseItems at h
    cases hread : readHead line p with
    | error f =>
      rw [hread] at h
      obtain ⟨rfl, rfl⟩ := Prod.mk.inj h
      refine ⟨⟨⟨[], .nil⟩, by simp⟩, fun f' hf => ⟨p, by simp, line, ?_⟩, by simp⟩
      rw [hread, Except.error.inj hf]
    | ok r =>
      obtain ⟨line₁, head⟩ := r
      rw [hread] at h
      cases hrest : looseItems line₁ ps with
      | mk more result' =>
        simp only [hrest, Prod.mk.injEq] at h
        obtain ⟨hfound, rfl⟩ := h
        have hfirst := gives_stretch (hps p (by simp)) hread
        have hcons :
            found = (if head.isEmpty then [] else [⟨line₁, head, none⟩]) ++ more := by
          rw [← hfound]
          split <;> rfl
        obtain ⟨⟨⟨parts, hparts⟩, hnone⟩, hfault, hall⟩ :=
          ih (fun q hq => hps q (by simp [hq])) hrest
        rw [hcons]
        refine ⟨⟨⟨_, hfirst.append hparts⟩, ?_⟩, fun f hf => ?_,
          fun line' h => hfirst.append (hall line' h)⟩
        · split
          · exact hnone
          · simpa using hnone
        · obtain ⟨q, hq, hline⟩ := hfault f hf
          exact ⟨q, mem_cons_of_mem p hq, hline⟩

/-- The parts of a text outside of blocks. -/
def stretches (x : Text) : List Part := (behindSemicolons (Text.splitOn ';' x)).tail

theorem text_behindSemicolons (x : Text) :
    (behindSemicolons (Text.splitOn ';' x)).flatMap Part.text = ';' :: x := by
  induction x with
  | nil => rfl
  | cons c x ih =>
    rw [Text.splitOn]
    split
    next hc =>
      subst hc
      simpa [behindSemicolons, Part.text] using ih
    next hc =>
      cases hsplit : Text.splitOn ';' x with
      | nil => simp [behindSemicolons, hsplit] at ih
      | cons first rest =>
        rw [hsplit] at ih
        simpa [behindSemicolons, Part.text] using ih

theorem text_stretches (x : Text) : (stretches x).flatMap Part.text = x := by
  have h := text_behindSemicolons x
  cases hsplit : Text.splitOn ';' x with
  | nil => simp [behindSemicolons, hsplit] at h
  | cons first rest =>
    rw [hsplit] at h
    simpa [stretches, hsplit, behindSemicolons, Part.text] using h

/-- The items of a text outside of blocks are those of its stretches. -/
theorem stretches_give (h : looseItems line (Text.splitOn ';' x) = (found, .ok line')) :
    Gives (stretches x) found := by
  obtain ⟨-, -, hall⟩ := looseItems_gives (fun p hp => notMem_of_mem_splitOn hp) h
  have hgives := hall line' rfl
  unfold stretches
  cases hsplit : Text.splitOn ';' x with
  | nil => rwa [hsplit] at hgives
  | cons first rest =>
    rw [hsplit] at hgives
    exact ⟨hgives.texts, fun p hp => hgives.closed p (mem_of_mem_tail hp)⟩

end SheetPress.Source
