import SheetPress.Proofs.Expr.Rows

/-!
# Lists as they are written

A list is written as rows with commas between them, a row as items with blanks between them, and an
item is a word, a number, a text in quotes, a list in parentheses, or a function before one.  Such a
text is read back as it was written (`Series.parse_text`).

The three kinds of parts contain each other, and so do the procedures that read them.  What each
procedure does with its part (`Item.Reads`, `Row.Reads`, `Series.Reads`) is shown from what the
others do with smaller parts, one lemma for each way to write a part.
-/

set_option autoImplicit false

namespace SheetPress

open List

/-- A text between double quotes, with none inside. -/
structure Quotation where
  content : Text
  unquoted : '"' ∉ content

/-- The text with its quotes. -/
def Quotation.text (q : Quotation) : Text := '"' :: (q.content ++ ['"'])

namespace Phrase

mutual

/-- What stands between the blanks of a row. -/
inductive Item where
  | word (w : Identifier)
  | number (n : Numeral)
  | quotation (q : Quotation)
  /-- A list in parentheses. -/
  | group (l : Series)
  /-- A function applied to a list of arguments. -/
  | call (f : Identifier) (l : Series)

/-- Items with blanks between them. -/
inductive Row where
  | one (i : Item)
  | more (i : Item) (r : Row)

/-- Rows with commas between them. -/
inductive Series where
  | one (r : Row)
  | more (r : Row) (l : Series)

end

/-! ## Texts and expressions -/

mutual

def Item.text : Item → Text
  | .word w => w.text
  | .number n => n.text
  | .quotation q => q.text
  | .group l => '(' :: (l.text ++ [')'])
  | .call f l => f.text ++ '(' :: (l.text ++ [')'])

def Row.text : Row → Text
  | .one i => i.text
  | .more i r => i.text ++ ' ' :: r.text

def Series.text : Series → Text
  | .one r => r.text
  | .more r l => r.text ++ ',' :: ' ' :: l.text

end

mutual

/-- What an item is read as. -/
def Item.expr : Item → Expr
  | .word w => .word w.text
  | .number n => .numeral n.text
  | .quotation q => .quoted q.text
  | .group l => .list l.exprs
  | .call f l => .call f.text (some l.exprs)

/-- What the items of a row are read as. -/
def Row.exprs : Row → List Expr
  | .one i => [i.expr]
  | .more i r => i.expr :: r.exprs

/-- What the rows of a list are read as; none of them has a name. -/
def Series.exprs : Series → List (Option Text × Expr)
  | .one r => [(none, Grammar.rowOf r.exprs)]
  | .more r l => (none, Grammar.rowOf r.exprs) :: l.exprs

end

/-- What a row is read as. -/
def Row.expr (r : Row) : Expr := Grammar.rowOf r.exprs

/-! ## First tokens -/

/-- The first token of an item. -/
def Item.token : Item → Kind × Text
  | .word w => (.name, w.text)
  | .number n => (.numeral, n.text)
  | .quotation q => (.double, q.text)
  | .group _ => (.opening, ['('])
  | .call f _ => (.call, f.text)

/-- What an item goes on with behind its first token. -/
def Item.behind : Item → Text
  | .group l => l.text ++ [')']
  | .call _ l => '(' :: (l.text ++ [')'])
  | _ => []

def Row.first : Row → Item
  | .one i => i
  | .more i _ => i

/-- What stands behind the first item of a row. -/
def Row.tail : Row → Text
  | .one _ => []
  | .more _ r => ' ' :: r.text

def Series.first : Series → Item
  | .one r => r.first
  | .more r _ => r.first

/-- What stands behind the first item of a list. -/
def Series.tail : Series → Text
  | .one r => r.tail
  | .more r l => r.tail ++ ',' :: ' ' :: l.text

theorem Row.text_eq (r : Row) : r.text = r.first.text ++ r.tail := by
  cases r <;> simp [Row.text, Row.first, Row.tail]

theorem Series.text_eq (l : Series) : l.text = l.first.text ++ l.tail := by
  cases l <;> simp [Series.text, Series.first, Series.tail, Row.text_eq]

theorem Item.text_ne_nil (i : Item) : i.text ≠ [] := by
  cases i with
  | word w =>
    obtain ⟨c, r, htext, -⟩ := w.exists_head
    simp [Item.text, htext]
  | number n =>
    obtain ⟨c, r, htext, -⟩ := n.exists_head
    simp [Item.text, htext]
  | quotation q => simp [Item.text, Quotation.text]
  | group l => simp [Item.text]
  | call f l => simp [Item.text]

theorem Item.length_pos (i : Item) : 0 < i.text.length := length_pos_of_ne_nil i.text_ne_nil

theorem Row.length_pos (r : Row) : 0 < r.text.length := by
  have hfirst := r.first.length_pos
  rw [r.text_eq, length_append]
  omega

/-- No name and no number goes on into the text, and no word in it is a call. -/
def Ends (rest : Text) : Prop := ∀ c ∈ rest.head?, c = ' ' ∨ c = ',' ∨ c = ')'

theorem Ends.endsName {rest : Text} (h : Ends rest) :
    Kind.endsName rest = true ∧ rest.head? ≠ some '(' ∧
      ∀ c ∈ rest.head?, Text.isDigit c = false ∧ c ≠ '.' := by
  cases rest with
  | nil => exact ⟨rfl, by simp, by simp⟩
  | cons c r =>
    rcases h c rfl with rfl | rfl | rfl <;>
    · refine ⟨rfl, by simp, ?_⟩
      rintro c ⟨⟩
      decide

theorem not_isBlank_word (w : Identifier) (rest : Text) :
    ∀ x ∈ (w.text ++ rest).head?, Cursor.isBlank x = false :=
  Element.not_isBlank_text (.word w) rest

theorem Item.not_isBlank_text (i : Item) (rest : Text) :
    ∀ x ∈ (i.text ++ rest).head?, Cursor.isBlank x = false := by
  cases i with
  | word w => exact not_isBlank_word w rest
  | number n => exact Element.not_isBlank_text (.number n) rest
  | call f l =>
    rw [Item.text, append_assoc]
    exact not_isBlank_word f _
  | quotation q =>
    rintro x ⟨⟩
    decide
  | group l =>
    rintro x ⟨⟩
    decide

end Phrase

/-! ## Scanning -/

theorem Kind.first_quotation (q : Quotation) (previous : Option Char) (rest : Text) :
    Kind.first previous (q.text ++ rest) = some (.double, q.text.length) := by
  have htext : q.text ++ rest = '"' :: (q.content ++ '"' :: rest) := by
    simp [Quotation.text]
  have hcut : Text.cutAt? (· == '"') (q.content ++ '"' :: rest) = some (q.content, '"', rest) := by
    refine Text.cutAt?_append rest (fun c hc => beq_eq_false_iff_ne.mpr ?_) (by decide)
    rintro rfl
    exact q.unquoted hc
  rw [htext]
  refine Kind.first_eq (i := 21) rfl (fun k hk => ?_) ?_
  · cases k <;> first | rfl | exact absurd hk (by decide)
  · rw [Kind.matchAt, Kind.quotedBy, if_pos (by decide), hcut]
    simp [Quotation.text]

/-- Where no unit is looked for, or a blank stands before, a word before a parenthesis is the name
of a function. -/
theorem Identifier.next_call (w : Identifier) {c : Cursor} {rest : Text}
    (hc : c.skipBlanks.rest = w.text ++ '(' :: rest) {allowed : Option (List Kind)}
    (hcall : .call ∈ Cursor.candidates allowed)
    (hunit : .unit ∉ Cursor.candidates allowed ∨ c.skipBlanks.previous = some ' ') :
    ∃ token d, c.next allowed = .ok (token, d) ∧ token.kind = .call ∧ token.text = w.text ∧
      d.rest = '(' :: rest := by
  have hends : Kind.endsName ('(' :: rest) = true := rfl
  obtain ⟨p, hp⟩ : ∃ p, Cursor.candidates allowed = Kind.all.filter p := by
    cases allowed with
    | none => exact ⟨fun _ => true, by simp [Cursor.candidates]⟩
    | some ks => exact ⟨_, rfl⟩
  -- A call begins like a name, but names are tried last.
  have hlast : Cursor.candidates allowed = Kind.all.dropLast.filter p ++ [Kind.name].filter p := by
    rw [hp, ← filter_append]
    rfl
  have hmem : Kind.call ∈ Kind.all.dropLast.filter p := by
    rw [hlast] at hcall
    exact (mem_append.mp hcall).resolve_right fun h => absurd (mem_filter.mp h).1 (by decide)
  refine w.next_of_tokenOf hc ?_
  rw [Cursor.tokenOf, hc, hlast, findSome?_append, Option.or_eq_some_iff]
  refine .inl (findSome?_eq_of_unique hmem ?_ fun k hk hother => ?_)
  · rw [Kind.matchAt, Kind.callAt, w.nameAt_text hends]
    simp
  · have hname : k ≠ .name := by
      rintro rfl
      exact absurd (mem_filter.mp hk).1 (by decide)
    rw [w.matchAt_candidate hends hunit (hlast ▸ mem_append_left _ hk)
      (fun h => absurd h hother) hname]
    rfl

namespace Phrase

variable {c : Cursor}

/-- The set holds all that an item can begin with, and units only behind a blank. -/
structure Suits (c : Cursor) (allowed : Option (List Kind)) : Prop where
  atoms : ∀ k ∈ Grammar.atoms, k ∈ Cursor.candidates allowed
  unit : .unit ∉ Cursor.candidates allowed ∨ c.skipBlanks.previous = some ' '

theorem suits_items (c : Cursor) : Suits c (some Grammar.items) :=
  ⟨by decide, .inl (by decide)⟩

theorem suits_arguments (c : Cursor) : Suits c (some Grammar.arguments) :=
  ⟨by decide, .inl (by decide)⟩

theorem suits_blank (h : c.skipBlanks.previous = some ' ') : Suits c none :=
  ⟨by decide, .inr h⟩

theorem Suits.next {d : Cursor} {allowed : Option (List Kind)} (h : Suits c allowed) {k : Kind}
    {t : Text} (hmeets : c.Meets k t d) (hk : k ∈ Grammar.atoms) :
    ∃ token, c.next allowed = .ok (token, d) ∧ token.kind = k ∧ token.text = t := by
  obtain ⟨token, hnext, rfl, rfl⟩ := hmeets
  refine ⟨token, ?_, rfl, rfl⟩
  cases allowed with
  | none => exact hnext
  | some ks =>
    have hmem := h.atoms _ hk
    exact Cursor.next_some hnext (by simpa using (mem_filter.mp hmem).2)

theorem Item.token_mem (i : Item) : i.token.1 ∈ Grammar.atoms := by
  cases i <;> exact mem_of_elem_eq_true rfl

theorem Item.next_text (i : Item) {rest : Text} {allowed : Option (List Kind)}
    (hc : c.skipBlanks.rest = i.text ++ rest) (hrest : Ends rest) (hsuits : Suits c allowed) :
    ∃ token d, c.next allowed = .ok (token, d) ∧ token.kind = i.token.1 ∧
      token.text = i.token.2 ∧ d.rest = i.behind ++ rest := by
  obtain ⟨hends, hopen, hdigit⟩ := hrest.endsName
  have hfirst : i.text ++ rest = i.token.2 ++ (i.behind ++ rest) →
      Kind.first c.skipBlanks.previous (i.token.2 ++ (i.behind ++ rest)) =
        some (i.token.1, i.token.2.length) →
      ∃ token d, c.next allowed = .ok (token, d) ∧ token.kind = i.token.1 ∧
        token.text = i.token.2 ∧ d.rest = i.behind ++ rest := by
    intro htext hfirst
    rw [htext] at hc
    have hmeets := Cursor.meets_of_first hc hfirst
    rw [take_left] at hmeets
    obtain ⟨token, hnext, hkind, htoken⟩ := hsuits.next hmeets i.token_mem
    refine ⟨token, _, hnext, hkind, htoken, ?_⟩
    rw [Cursor.advance, hc, drop_left]
  cases i with
  | word w => exact w.next_text hc hends hopen (hsuits.atoms _ (by decide)) hsuits.unit
  | number n => exact hfirst rfl (Kind.first_numeral n hdigit)
  | quotation q => exact hfirst rfl (Kind.first_quotation q _ rest)
  | group l => exact hfirst rfl rfl
  | call f l =>
    have hcall : c.skipBlanks.rest = f.text ++ '(' :: (l.text ++ [')'] ++ rest) := by
      rw [hc, Item.text]
      simp
    exact f.next_call hcall (hsuits.atoms _ (by decide)) hsuits.unit

/-! ## What follows an item -/

theorem meets_mark {x : Char} {k : Kind} {rest : Text}
    (hx : (x, k) ∈ [(',', Kind.comma), (')', .closing), ('(', .opening)])
    (hc : c.rest = x :: rest) : ∃ d, c.Meets k [x] d ∧ d.rest = rest := by
  have hskip : c.skipBlanks = c := by
    refine Cursor.skipBlanks_eq fun y hy => ?_
    rw [hc] at hy
    obtain rfl : x = y := Option.some.inj hy
    revert hx
    simp only [mem_cons, not_mem_nil, or_false, Prod.mk.injEq]
    rintro (⟨rfl, -⟩ | ⟨rfl, -⟩ | ⟨rfl, -⟩) <;> decide
  have hfirst : Kind.first c.skipBlanks.previous (x :: rest) = some (k, 1) := by
    revert hx
    simp only [mem_cons, not_mem_nil, or_false, Prod.mk.injEq]
    rintro (⟨rfl, rfl⟩ | ⟨rfl, rfl⟩ | ⟨rfl, rfl⟩) <;> rfl
  refine ⟨_, Cursor.meets_of_first (by rw [hskip, hc]) hfirst, ?_⟩
  rw [hskip, Cursor.advance, hc]
  rfl

/-- The end of the text, or of the parentheses around a list. -/
def Closes (rest : Text) : Prop := rest = [] ∨ ∃ r, rest = ')' :: r

/-- The end of a row. -/
def Stops (rest : Text) : Prop := Closes rest ∨ ∃ r, rest = ',' :: r

/-- What stands behind an item: the end of the row, or a blank and the next item. -/
def Opens (rest : Text) : Prop :=
  Stops rest ∨ ∃ (i : Item) (r : Text), rest = ' ' :: (i.text ++ r) ∧ Ends r

section Behind

variable {rest : Text} {c : Cursor}

theorem Opens.ends (h : Opens rest) : Ends rest := by
  rcases h with ((rfl | ⟨r, rfl⟩) | ⟨r, rfl⟩) | ⟨i, r, rfl, -⟩ <;> simp [Ends]

theorem Stops.ends (h : Stops rest) : Ends rest := Opens.ends (.inl h)

theorem Closes.follows (h : Closes rest) (hc : c.rest = rest) :
    Grammar.Follows c [.finish, .closing] := by
  rcases h with rfl | ⟨r, rfl⟩
  · obtain ⟨d, hend⟩ := Grammar.meets_finish hc
    exact ⟨_, _, _, hend, by decide⟩
  · obtain ⟨d, hmark, -⟩ := meets_mark (k := .closing) (by decide) hc
    exact ⟨_, _, _, hmark, by decide⟩

theorem Stops.follows (h : Stops rest) (hc : c.rest = rest) :
    Grammar.Follows c Grammar.rowEnds := by
  rcases h with h | ⟨r, rfl⟩
  · exact (h.follows hc).mono (by decide)
  · obtain ⟨d, hmark, -⟩ := meets_mark (k := .comma) (by decide) hc
    exact ⟨_, _, _, hmark, by decide⟩

theorem Item.next_blank (i : Item) {r : Text} (hc : c.rest = ' ' :: (i.text ++ r)) (hr : Ends r) :
    ∃ token d, c.next none = .ok (token, d) ∧ token.kind = i.token.1 ∧ token.text = i.token.2 ∧
      d.rest = i.behind ++ r := by
  have hskip := Cursor.skipBlanks_blank hc (i.not_isBlank_text r)
  exact i.next_text (by rw [hskip]) hr (suits_blank (by rw [hskip]))

theorem Opens.follows (h : Opens rest) (hc : c.rest = rest) :
    Grammar.Follows c Grammar.outerKinds := by
  rcases h with h | ⟨i, r, rfl, hr⟩
  · exact (h.follows hc).mono (by decide)
  · obtain ⟨token, d, hnext, hkind, htext, -⟩ := i.next_blank hc hr
    exact ⟨_, _, _, ⟨token, hnext, hkind, htext⟩,
      (show Grammar.atoms ⊆ Grammar.outerKinds by decide) i.token_mem⟩

theorem Row.ends_tail (row : Row) (h : Ends rest) : Ends (row.tail ++ rest) := by
  cases row with
  | one i => exact h
  | more i r =>
    rintro c ⟨⟩
    exact .inl rfl

theorem Series.ends_tail (l : Series) (h : Ends rest) : Ends (l.tail ++ rest) := by
  cases l with
  | one r => exact r.ends_tail h
  | more r l =>
    rw [Series.tail, append_assoc]
    refine r.ends_tail ?_
    rintro c ⟨⟩
    exact .inr (.inl rfl)

end Behind

/-! ## Reading -/

open Grammar (atoms items operands afterItem afterBoth afterEither rowEnds ReadsAtom outerKinds
  rowOf atom literal item rowFrom listOf listFrom chained_alone)

/-- The reader stands before the item, behind which the text goes on. -/
def Ready (ks : List Kind) (i : Item) (rest : Text) (r : Reader) : Prop :=
  ∃ token d, r.Offers ks token d ∧ token.kind = i.token.1 ∧ token.text = i.token.2 ∧
    d.rest = i.behind ++ rest

theorem Ready.peek {ks : List Kind} {i : Item} {rest : Text} {r : Reader} (h : Ready ks i rest r)
    (hks : items ⊆ ks) : ∃ r', r.peek (some ks) = .ok (i.token.1, r') ∧ Ready items i rest r' := by
  obtain ⟨token, d, hr, hkind, htext, hd⟩ := h
  obtain ⟨r', hpeek, hr'⟩ := hr.peek
  have hmem : token.kind ∈ items := hkind ▸ (show atoms ⊆ items by decide) i.token_mem
  exact ⟨r', hkind ▸ hpeek, token, d, hr'.mono hks hmem, hkind, htext, hd⟩

theorem ready_of_fresh {i : Item} {rest : Text} {r : Reader} {ks : List Kind}
    (h : r.Fresh c) (hc : c.skipBlanks.rest = i.text ++ rest) (hrest : Ends rest)
    (hsuits : Suits c (some ks)) : Ready ks i rest r := by
  obtain ⟨token, d, hnext, hkind, htext, hd⟩ := i.next_text hc hrest hsuits
  exact ⟨token, d, h.offers hnext, hkind, htext, hd⟩

/-- The procedure for items reads the item, whatever may follow it. -/
def Item.Reads (itemOf : Reader → Parsed) (i : Item) : Prop :=
  ∀ rest r, Opens rest → Ready items i rest r →
    ∃ r' d, itemOf r = (i.expr, some r') ∧ r'.Stands d afterEither ∧ d.rest = rest

/-- The loop over the items of a row reads the row behind what is done already. -/
def Row.Reads (itemOf : Reader → Parsed) (row : Row) : Prop :=
  ∀ n done rest r, row.text.length ≤ n → Stops rest → Ready items row.first (row.tail ++ rest) r →
    ∃ e r₁ r' d, itemOf r = (e, some r₁) ∧
      rowFrom itemOf n (e :: done) r₁ = (rowOf (done.reverse ++ row.exprs), some r') ∧
      r'.Stands d rowEnds ∧ d.rest = rest

/-- The loop over the rows of a list reads the list behind what is done already. -/
def Series.Reads (rowRead : Reader → Parsed) (l : Series) : Prop :=
  ∀ n done rest r, l.text.length ≤ n → Closes rest → Ready items l.first (l.tail ++ rest) r →
    ∃ r' d, listFrom rowRead n done r = (.list (done.reverse ++ l.exprs), some r') ∧
      r'.Stands d rowEnds ∧ d.rest = rest

section Items

variable {inner : Reader → Parsed} {loops : Nat}

theorem reads_of_atom {i : Item} (hloops : 0 < loops)
    (h : ∀ token d rest, token.kind = i.token.1 → token.text = i.token.2 →
      d.rest = i.behind ++ rest → ReadsAtom inner token d i.expr fun d' => d'.rest = rest) :
    i.Reads (item inner loops) := by
  rintro rest r hrest ⟨token, d, hr, hkind, htext, hd⟩
  obtain ⟨r₁, d', hread₁, hr₁, hd'⟩ := Grammar.condition_atom hloops hloops hr
    (hkind ▸ i.token_mem) (h token d rest hkind htext hd) fun d' hd' => hrest.follows hd'
  have hend := hrest.follows hd'
  obtain ⟨r₂, hread₂, hr₂⟩ := chained_alone hloops hread₁ hr₁ hend
    (show ∀ k ∈ outerKinds, k ∈ afterBoth ∧ Grammar.bothOf k = none by decide)
  obtain ⟨r₃, hread₃, hr₃⟩ := chained_alone hloops hread₂ (hr₂.mono (by decide)) hend
    (show ∀ k ∈ outerKinds, k ∈ afterEither ∧ Grammar.eitherOf k = none by decide)
  exact ⟨r₃, d', hread₃, hr₃, hd'⟩

/-- Words, numbers and texts in quotes are single tokens. -/
theorem reads_single {i : Item} (hloops : 0 < loops) {make : Text → Expr}
    (hbehind : i.behind = []) (hexpr : i.expr = make i.token.2)
    (hatom : ∀ r r', r.peek (some atoms) = .ok (i.token.1, r') →
      atom inner r = literal i.token.1 make r') :
    i.Reads (item inner loops) := by
  refine reads_of_atom hloops fun token d rest hkind htext hd r hr => ?_
  obtain ⟨r₁, hpeek, hr₁⟩ := hr.peek
  obtain ⟨r₂, htake, hr₂⟩ := hr₁.take (hkind ▸ i.token_mem)
    (hkind ▸ fun h => absurd (h ▸ i.token_mem) (by decide))
  rw [hkind] at hpeek htake
  refine ⟨r₂, d, ?_, hr₂, by simpa [hbehind] using hd⟩
  rw [hatom r r₁ hpeek, literal, htake, hexpr, htext]

theorem reads_word (hloops : 0 < loops) (w : Identifier) :
    (Item.word w).Reads (item inner loops) :=
  reads_single hloops rfl rfl fun _ _ hpeek => by rw [atom, hpeek]; rfl

theorem reads_number (hloops : 0 < loops) (n : Numeral) :
    (Item.number n).Reads (item inner loops) :=
  reads_single hloops rfl rfl fun _ _ hpeek => by rw [atom, hpeek]; rfl

theorem reads_quotation (hloops : 0 < loops) (q : Quotation) :
    (Item.quotation q).Reads (item inner loops) :=
  reads_single hloops rfl rfl fun _ _ hpeek => by rw [atom, hpeek]; rfl

/-- The inner procedure reads the list up to a parenthesis or the end. -/
def Series.ReadBy (inner : Reader → Parsed) (l : Series) : Prop :=
  ∀ rest r, Closes rest → Ready items l.first (l.tail ++ rest) r →
    ∃ r' d, inner r = (.list l.exprs, some r') ∧ r'.Stands d rowEnds ∧ d.rest = rest

theorem Series.ReadBy.closed {l : Series} (h : l.ReadBy inner) {r : Reader} {rest : Text}
    (hr : Ready items l.first (l.tail ++ ')' :: rest) r) :
    ∃ r₁ r' d, inner r = (.list l.exprs, some r₁) ∧ r₁.take .closing = .ok ([')'], r') ∧
      r'.Fresh d ∧ d.rest = rest := by
  obtain ⟨r₁, d₁, hread, hr₁, hd₁⟩ := h _ _ (.inr ⟨rest, rfl⟩) hr
  obtain ⟨d, hclose, hd⟩ := meets_mark (k := .closing) (by decide) hd₁
  obtain ⟨r', htake, hr'⟩ := hr₁.take_fresh hclose (by decide) (by decide)
  exact ⟨r₁, r', d, hread, htake, hr', hd⟩

theorem Series.skipBlanks_text (l : Series) {d : Cursor} {rest : Text}
    (hd : d.rest = l.text ++ ')' :: rest) :
    d.skipBlanks.rest = l.first.text ++ (l.tail ++ ')' :: rest) := by
  rw [l.text_eq, append_assoc] at hd
  rw [Cursor.skipBlanks_eq (hd ▸ l.first.not_isBlank_text _), hd]

theorem Series.ends_closing (l : Series) (rest : Text) : Ends (l.tail ++ ')' :: rest) :=
  l.ends_tail (Stops.ends (.inl (.inr ⟨rest, rfl⟩)))

theorem Series.ReadBy.group {l : Series} (h : l.ReadBy inner) (hloops : 0 < loops) :
    (Item.group l).Reads (item inner loops) := by
  refine reads_of_atom hloops fun token d rest hkind htext hd r hr => ?_
  have hd : d.rest = l.text ++ ')' :: rest := by simpa [Item.behind] using hd
  obtain ⟨r₁, hpeek, hr₁⟩ := hr.peek
  obtain ⟨r₂, htake, hr₂⟩ :=
    hr₁.take (hkind ▸ (Item.group l).token_mem) (by rw [hkind]; rintro ⟨⟩)
  rw [hkind] at hpeek htake
  obtain ⟨r₃, r₄, d', hread, hclose, hr₄, hd'⟩ := h.closed
    (ready_of_fresh hr₂ (l.skipBlanks_text hd) (l.ends_closing rest) (suits_items d))
  refine ⟨r₄, d', ?_, hr₄, hd'⟩
  rw [atom, hpeek]
  simp only [Item.token] at htake ⊢
  simp only [Grammar.group, htake, hread, Grammar.closed, hclose, Item.expr]

theorem Series.ReadBy.call {l : Series} (h : l.ReadBy inner) (hloops : 0 < loops)
    (f : Identifier) : (Item.call f l).Reads (item inner loops) := by
  refine reads_of_atom hloops fun token d rest hkind htext hd r hr => ?_
  have hd : d.rest = '(' :: (l.text ++ ')' :: rest) := by simpa [Item.behind] using hd
  obtain ⟨r₁, hpeek, hr₁⟩ := hr.peek
  obtain ⟨r₂, htake, hr₂⟩ :=
    hr₁.take (hkind ▸ (Item.call f l).token_mem) (by rw [hkind]; rintro ⟨⟩)
  rw [hkind] at hpeek htake
  obtain ⟨d₁, hopen, hd₁⟩ := meets_mark (k := .opening) (by decide) hd
  obtain ⟨r₃, htake₃, hr₃⟩ :=
    (hr₂.stands [.opening]).take_fresh hopen (by decide) (by decide)
  obtain ⟨r₄, hpeek₄, hr₄⟩ := (ready_of_fresh hr₃ (l.skipBlanks_text hd₁) (l.ends_closing rest)
    (suits_arguments d₁)).peek (by decide)
  obtain ⟨r₅, r₆, d', hread, hclose, hr₆, hd'⟩ := h.closed hr₄
  have hfirst : l.first.token.1 ≠ .closing := fun heq =>
    absurd (heq ▸ l.first.token_mem) (by decide)
  refine ⟨r₆, d', ?_, hr₆, hd'⟩
  rw [atom, hpeek]
  simp only [Item.token] at htake ⊢
  simp only [Grammar.application, htake, htake₃, hpeek₄, hread, hclose, htext]
  rfl

end Items

section Rows

variable {itemOf rowRead : Reader → Parsed}

theorem Item.Reads.one {i : Item} (h : i.Reads itemOf) : (Row.one i).Reads itemOf := by
  intro n done rest r hn hrest hr
  obtain ⟨m, rfl⟩ : ∃ m, n = m + 1 := ⟨n - 1, by have := (Row.one i).length_pos; omega⟩
  obtain ⟨r₁, d, hread, hr₁, hd⟩ := h rest r (.inl hrest) hr
  obtain ⟨k, t, d', hmeets, hk⟩ := hrest.follows hd
  obtain ⟨r₂, hpeek, hr₂⟩ :=
    (hr₁.mono (by decide)).peek hmeets ((show rowEnds ⊆ afterItem by decide) hk)
  refine ⟨i.expr, r₁, r₂, d, hread, ?_, hr₂.mono (by decide), hd⟩
  rw [rowFrom, hpeek]
  cases done with
  | nil => simp [hk, Row.exprs, rowOf]
  | cons e done =>
    rw [Row.exprs, Grammar.rowOf_of_length (by simp)]
    simp [hk]

theorem Item.Reads.more {i : Item} {row : Row} (h : i.Reads itemOf) (hrow : row.Reads itemOf) :
    (Row.more i row).Reads itemOf := by
  intro n done rest r hn hrest hr
  have hpos := i.length_pos
  have hlength : (Row.more i row).text.length = i.text.length + (row.text.length + 1) := by
    simp [Row.text]
  obtain ⟨m, rfl⟩ : ∃ m, n = m + 1 := ⟨n - 1, by omega⟩
  have htail : (Row.more i row).tail ++ rest =
      ' ' :: (row.first.text ++ (row.tail ++ rest)) := by
    simp [Row.tail, row.text_eq]
  rw [htail] at hr
  have hends := row.ends_tail hrest.ends
  obtain ⟨r₁, d, hread, hr₁, hd⟩ := h _ r (.inr ⟨row.first, _, rfl, hends⟩) hr
  obtain ⟨token, d₁, hnext, hkind, htext, hd₁⟩ := row.first.next_blank hd hends
  have hmem : token.kind ∈ afterItem :=
    hkind ▸ (show atoms ⊆ afterItem by decide) row.first.token_mem
  have hready : Ready afterItem row.first (row.tail ++ rest) r₁ :=
    ⟨token, d₁, (hr₁.mono (by decide)).offers hnext hmem, hkind, htext, hd₁⟩
  obtain ⟨r₂, hpeek, hr₂⟩ := hready.peek (by decide)
  obtain ⟨e, r₃, r', d', hread₂, hrest', hr', hd'⟩ :=
    hrow m (i.expr :: done) rest r₂ (by omega) hrest hr₂
  have hgoes : rowEnds.contains row.first.token.1 = false := by
    have hkinds : ∀ k ∈ atoms, rowEnds.contains k = false := by decide
    exact hkinds _ row.first.token_mem
  refine ⟨i.expr, r₁, r', d', hread, ?_, hr', hd'⟩
  rw [rowFrom, hpeek]
  simp only [hgoes, Bool.false_eq_true, if_false, hread₂, hrest', Row.exprs]
  simp

theorem Ready.itemName {i : Item} {rest : Text} {r : Reader} (h : Ready items i rest r) :
    ∃ r', Grammar.itemName r = .ok (none, r') ∧ Ready items i rest r' := by
  obtain ⟨r', hpeek, hr'⟩ := h.peek (List.Subset.refl _)
  have hname : i.token.1 ≠ .variable := by cases i <;> rintro ⟨⟩
  refine ⟨r', ?_, hr'⟩
  simp only [Grammar.itemName, hpeek]

theorem Row.Reads.row {row : Row} (h : row.Reads itemOf) {loops : Nat}
    (hloops : row.text.length ≤ loops) {rest : Text} {r : Reader} (hrest : Stops rest)
    (hr : Ready items row.first (row.tail ++ rest) r) :
    ∃ r' d, Grammar.row itemOf loops r = (row.expr, some r') ∧ r'.Stands d rowEnds ∧
      d.rest = rest := by
  obtain ⟨e, r₁, r', d, hread, hrow, hr', hd⟩ := h loops [] rest r hloops hrest hr
  refine ⟨r', d, ?_, hr', hd⟩
  rw [Grammar.row, hread]
  exact hrow

theorem Row.Reads.last {row : Row} (h : row.Reads itemOf) {loops : Nat}
    (hloops : row.text.length ≤ loops) :
    (Series.one row).Reads (Grammar.row itemOf loops) := by
  intro n done rest r hn hrest hr
  obtain ⟨m, rfl⟩ : ∃ m, n = m + 1 := ⟨n - 1, by
    have hpos : 0 < (Series.one row).text.length := row.length_pos
    omega⟩
  obtain ⟨r₁, hname, hr₁⟩ := Ready.itemName hr
  obtain ⟨r₂, d, hread, hr₂, hd⟩ := h.row hloops (.inl hrest) hr₁
  obtain ⟨k, t, d', hmeets, hk⟩ := hrest.follows hd
  obtain ⟨r₃, hpeek, hr₃⟩ :=
    hr₂.peek hmeets ((show [Kind.finish, .closing] ⊆ rowEnds by decide) hk)
  have hcomma : k ≠ .comma := by
    rintro rfl
    exact absurd hk (by decide)
  refine ⟨r₃, d, ?_, hr₃, hd⟩
  simp only [listFrom, hname, hread, hpeek, Series.exprs]
  simp [Row.expr]

theorem Row.Reads.before {row : Row} (h : row.Reads itemOf) {loops : Nat}
    (hloops : row.text.length ≤ loops) {l : Series} (hl : l.Reads (Grammar.row itemOf loops)) :
    (Series.more row l).Reads (Grammar.row itemOf loops) := by
  intro n done rest r hn hrest hr
  have hlength : (Series.more row l).text.length = row.text.length + (l.text.length + 2) := by
    simp [Series.text]
  obtain ⟨m, rfl⟩ : ∃ m, n = m + 1 := ⟨n - 1, by omega⟩
  have htail : (Series.more row l).tail ++ rest =
      row.tail ++ ',' :: (' ' :: (l.first.text ++ (l.tail ++ rest))) := by
    simp [Series.tail, l.text_eq]
  rw [htail] at hr
  obtain ⟨r₁, hname, hr₁⟩ := Ready.itemName hr
  obtain ⟨r₂, d, hread, hr₂, hd⟩ := h.row hloops (.inr ⟨_, rfl⟩) hr₁
  obtain ⟨d₁, hcomma, hd₁⟩ := meets_mark (k := .comma) (by decide) hd
  obtain ⟨r₃, hpeek, hr₃⟩ := hr₂.peek hcomma (by decide)
  obtain ⟨r₄, htake, hr₄⟩ := hr₃.take_fresh hcomma (by decide) (by decide)
  have hskip := Cursor.skipBlanks_blank hd₁ (l.first.not_isBlank_text _)
  have hready : Ready items l.first (l.tail ++ rest) r₄ :=
    ready_of_fresh hr₄ (by rw [hskip]) (l.ends_tail (Stops.ends (.inl hrest))) (suits_items d₁)
  obtain ⟨r', d', hlist, hr', hd'⟩ :=
    hl m ((none, row.expr) :: done) rest r₄ (by omega) hrest hready
  refine ⟨r', d', ?_, hr', hd'⟩
  simp only [listFrom, hname, hread, hpeek, htake, hlist, Series.exprs]
  simp [Row.expr]

end Rows

theorem Series.Reads.readBy {loops depth : Nat} {l : Series}
    (h : l.Reads (Grammar.row (item (listOf loops depth) loops) loops))
    (hloops : l.text.length ≤ loops) : l.ReadBy (listOf loops (depth + 1)) := by
  intro rest r hrest hr
  exact h loops [] rest r hloops hrest hr

mutual

theorem Item.reads {loops depth : Nat} :
    ∀ i : Item, i.text.length ≤ depth → i.text.length ≤ loops →
      i.Reads (item (listOf loops depth) loops)
  | .word w, _, hloops => reads_word (Nat.lt_of_lt_of_le (Item.word w).length_pos hloops) w
  | .number n, _, hloops => reads_number (Nat.lt_of_lt_of_le (Item.number n).length_pos hloops) n
  | .quotation q, _, hloops =>
    reads_quotation (Nat.lt_of_lt_of_le (Item.quotation q).length_pos hloops) q
  | .group l, hdepth, hloops => by
      simp only [Item.text, length_append, length_cons, length_nil] at hdepth hloops
      obtain ⟨m, rfl⟩ : ∃ m, depth = m + 1 := ⟨depth - 1, by omega⟩
      exact ((Series.reads l (by omega) (by omega)).readBy (by omega)).group (by omega)
  | .call f l, hdepth, hloops => by
      simp only [Item.text, length_append, length_cons, length_nil] at hdepth hloops
      obtain ⟨m, rfl⟩ : ∃ m, depth = m + 1 := ⟨depth - 1, by omega⟩
      exact ((Series.reads l (by omega) (by omega)).readBy (by omega)).call (by omega) f

theorem Row.reads {loops depth : Nat} :
    ∀ row : Row, row.text.length ≤ depth → row.text.length ≤ loops →
      row.Reads (item (listOf loops depth) loops)
  | .one i, hdepth, hloops => (Item.reads i hdepth hloops).one
  | .more i row, hdepth, hloops => by
      simp only [Row.text, length_append, length_cons] at hdepth hloops
      exact (Item.reads i (by omega) (by omega)).more (Row.reads row (by omega) (by omega))

theorem Series.reads {loops depth : Nat} :
    ∀ l : Series, l.text.length ≤ depth → l.text.length ≤ loops →
      l.Reads (Grammar.row (item (listOf loops depth) loops) loops)
  | .one row, hdepth, hloops => (Row.reads row hdepth hloops).last hloops
  | .more row l, hdepth, hloops => by
      simp only [Series.text, length_append, length_cons] at hdepth hloops
      exact (Row.reads row (by omega) (by omega)).before (by omega)
        (Series.reads l (by omega) (by omega))

end

theorem Series.parse_text (l : Series) : Expr.parse l.text = .list l.exprs := by
  obtain ⟨source, hsource⟩ : ∃ t, l.text = t := ⟨_, rfl⟩
  rw [hsource]
  have hstart : (Cursor.start source).skipBlanks.rest = l.first.text ++ (l.tail ++ []) := by
    have hrest : (Cursor.start source).rest = l.first.text ++ (l.tail ++ []) := by
      rw [append_nil, ← l.text_eq, hsource]
      rfl
    rw [Cursor.skipBlanks_eq (hrest ▸ l.first.not_isBlank_text _), hrest]
  have hfresh : (Reader.ofText source).Fresh (Cursor.start source) :=
    ⟨rfl, Reader.sound_of_fresh trivial rfl, rfl⟩
  have hready : Ready items l.first (l.tail ++ []) (Reader.ofText source) :=
    ready_of_fresh hfresh hstart (l.ends_tail (Stops.ends (.inl (.inl rfl)))) (suits_items _)
  have hread : l.ReadBy (listOf (source.length + 2) (source.length + 2)) := by
    have hlength : l.text.length = source.length := congrArg List.length hsource
    exact (Series.reads l (by omega) (by omega)).readBy (by omega)
  obtain ⟨r, d, hlist, hr, hd⟩ := hread [] _ (.inl rfl) hready
  obtain ⟨d', hend⟩ := Grammar.meets_finish hd
  obtain ⟨r', htake, -⟩ := hr.take hend (by decide)
  unfold Expr.parse
  dsimp only
  rw [hlist]
  simp only [htake]

end Phrase

end SheetPress
