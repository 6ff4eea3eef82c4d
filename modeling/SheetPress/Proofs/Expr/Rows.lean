import SheetPress.Proofs.Expr.Precedence
import SheetPress.Proofs.Source.Outline

/-!
# Rows of elements

Numbers, words and flags with single blanks between them are read one after the other, and the row
has the values that its elements have alone (`row_by_elements`).  The exception are flags: of flags
that follow each other only the last one counts, because the loop that reads negations takes the
next exclamation mark for another negation in the place of the first.

A word may be the name of a unit.  At the start of the text and behind an exclamation mark no blank
keeps it from being taken for one, but there no unit is looked for.  So what a reader gives is
described by the sets that it is asked with (`Reader.Offers`).
-/

set_option autoImplicit false

namespace SheetPress

open List Text

/-! ## Elements -/

/-- The words with a meaning of their own. -/
def reservedWords : List Text := ["and", "or", "not", "true", "false"].map String.toList

/-- A letter or an underscore. -/
def startsName (c : Char) : Bool := isLetter c || c == '_'

/-- A plain name: it starts with a letter or an underscore, perhaps behind a hyphen. -/
structure Identifier where
  text : Text
  names : ∀ c ∈ text, isName c = true
  starts : text.head?.any startsName = true ∨
    (text.head? = some '-' ∧ text.tail.head?.any startsName = true)
  free : text ∉ reservedWords

/-- An element of a row. -/
inductive Element where
  | number (n : Numeral)
  | word (w : Identifier)
  | flag (w : Identifier)

namespace Element

def text : Element → Text
  | .number n => n.text
  | .word w => w.text
  | .flag w => '!' :: w.text

def isFlag : Element → Bool
  | .flag _ => true
  | _ => false

/-- What the element is read as. -/
def expr : Element → Expr
  | .number n => .numeral n.text
  | .word w => .word w.text
  | .flag w => .bang (.word w.text)

/-- Elements with single blanks between them. -/
def rowText (es : List Element) : Text := joinWith [' '] (es.map text)

/-- The elements that count: a flag that another flag follows does not. -/
def kept : List Element → List Element
  | [] => []
  | e :: es => if e.isFlag && es.head?.any isFlag then kept es else e :: kept es

/-- What stands behind an element. -/
def tailText (es : List Element) : Text := Source.Outline.spread (es.map text)

/-- What the items of a row are read as. -/
def itemExprs : List Element → List Expr
  | [] => []
  | e :: es =>
    if e.isFlag && es.head?.any isFlag then
      match itemExprs es with
      | [] => []
      | x :: xs => .instead e.expr x :: xs
    else e.expr :: itemExprs es

theorem rowText_cons (e : Element) (es : List Element) :
    rowText (e :: es) = e.text ++ tailText es := Source.Outline.joinWith_cons _ _

theorem tailText_cons (e : Element) (es : List Element) :
    tailText (e :: es) = ' ' :: (e.text ++ tailText es) := by
  simp [tailText, Source.Outline.spread]

theorem length_kept_le (es : List Element) : (kept es).length ≤ es.length := by
  induction es with
  | nil => exact Nat.le_refl _
  | cons e es ih =>
    rw [kept]
    split
    · exact Nat.le_succ_of_le ih
    · exact Nat.succ_le_succ ih

/-- All elements count where no flag follows a flag, and only there. -/
theorem kept_eq_self_iff (es : List Element) :
    kept es = es ↔ es.IsChain fun e e' => (e.isFlag && e'.isFlag) = false := by
  induction es with
  | nil => simp [kept]
  | cons e es ih =>
    have hhead : (e.isFlag && es.head?.any isFlag) = false ↔
        ∀ e' ∈ es.head?, (e.isFlag && e'.isFlag) = false := by
      cases es <;> simp
    rw [isChain_cons, ← hhead, kept]
    cases hflags : (e.isFlag && es.head?.any isFlag) with
    | false => simp [ih]
    | true =>
      have hle := length_kept_le es
      refine iff_of_false (fun h => ?_) (by simp)
      have hlength := congrArg length h
      simp only [if_true, length_cons] at hlength
      omega

end Element

/-! ## Words -/

variable {c : Char}

theorem le_toNat_of_startsName (h : startsName c = true) : 65 ≤ c.toNat := by
  simp only [startsName, isLetter, Char.isAlpha, Char.isUpper, Char.isLower, Bool.or_eq_true,
    Bool.and_eq_true, decide_eq_true_eq, beq_iff_eq] at h
  rcases h with (h | h) | rfl
  · exact UInt32.le_iff_toNat_le.mp h.1
  · exact Nat.le_trans (by decide) (UInt32.le_iff_toNat_le.mp h.1)
  · decide

theorem not_isSpace_of_startsName (h : startsName c = true) : isSpace c = false := by
  have hlow := le_toNat_of_startsName h
  have hne : c ≠ ' ' := by
    rintro rfl
    exact absurd hlow (by decide)
  simp only [isSpace, Bool.or_eq_false_iff, beq_eq_false_iff_ne, Bool.and_eq_false_iff,
    decide_eq_false_iff_not]
  exact ⟨hne, .inr (by omega)⟩

theorem ne_of_starts {d : Char} (hc : startsName c = true ∨ c = '-') (hd : startsName d = false)
    (hhyphen : d ≠ '-') : c ≠ d := by
  rintro rfl
  rcases hc with hc | hc
  · rw [hd] at hc
    cases hc
  · exact hhyphen hc

theorem not_isDigit_of_starts (hc : startsName c = true ∨ c = '-') : isDigit c = false := by
  rcases hc with hc | rfl
  · have hlow := le_toNat_of_startsName hc
    simp only [isDigit, Char.isDigit, Bool.and_eq_false_iff, decide_eq_false_iff_not]
    refine .inr fun hhigh => ?_
    have : c.toNat ≤ 57 := UInt32.le_iff_toNat_le.mp hhigh
    omega
  · decide

theorem findSome?_eq_of_unique {α β : Type} {l : List α} {f : α → Option β} {a : α} {b : β}
    (ha : a ∈ l) (hf : f a = some b) (hothers : ∀ x ∈ l, x ≠ a → f x = none) :
    l.findSome? f = some b := by
  induction l with
  | nil => cases ha
  | cons x l ih =>
    by_cases hx : x = a
    · rw [hx, findSome?_cons, hf]
    · have hmem : a ∈ l := (mem_cons.mp ha).resolve_left (Ne.symm hx)
      rw [findSome?_cons, hothers x mem_cons_self hx]
      exact ih hmem fun y hy => hothers y (mem_cons_of_mem x hy)

namespace Identifier

variable (w : Identifier) {rest : Text}

theorem exists_head : ∃ c r, w.text = c :: r ∧
    (startsName c = true ∨ (c = '-' ∧ ∃ d r', r = d :: r' ∧ startsName d = true)) := by
  have hstarts := w.starts
  cases htext : w.text with
  | nil => simp [htext] at hstarts
  | cons c r =>
    rw [htext] at hstarts
    refine ⟨c, r, rfl, hstarts.imp (by simp) ?_⟩
    rintro ⟨hc, hr⟩
    cases r with
    | nil => simp at hr
    | cons d r' => exact ⟨by simpa using hc, d, r', rfl, by simpa using hr⟩

theorem takeWhile_text (hrest : Kind.endsName rest = true) :
    (w.text ++ rest).takeWhile isName = w.text := by
  rw [takeWhile_append_of_pos w.names]
  cases rest with
  | nil => simp
  | cons c r => simp [show isName c = false by simpa [Kind.endsName] using hrest]

theorem wholeWord_eq_none (hrest : Kind.endsName rest = true) {word : Text}
    (hword : word ∈ reservedWords) (previous : Option Char) :
    Kind.wholeWord word previous (w.text ++ rest) = none := by
  have hnames : ∀ word ∈ reservedWords, word.all isName = true := by decide
  unfold Kind.wholeWord
  split
  next r hr =>
    rw [ite_eq_right_iff]
    intro hends
    have hr : w.text ++ rest = word ++ r := eq_append_of_after? hr
    have htake := w.takeWhile_text hrest
    rw [hr, takeWhile_append_of_pos (by simpa using hnames word hword)] at htake
    have hnil : r.takeWhile isName = [] := by
      cases r with
      | nil => rfl
      | cons c r =>
        have hc : isName c = false := by simp_all [Kind.endsName]
        simp [hc]
    rw [hnil, append_nil] at htake
    exact absurd (htake ▸ hword) w.free
  · rfl

theorem nameAt_text (hrest : Kind.endsName rest = true) :
    Kind.nameAt (w.text ++ rest) = some w.text.length := by
  obtain ⟨c, r, htext, hc⟩ := w.exists_head
  have htake := w.takeWhile_text hrest
  have hname : isName c = true := w.names c (by simp [htext])
  have hdigit : isDigit c = false := not_isDigit_of_starts (hc.imp id And.left)
  rw [htext, cons_append, takeWhile_cons_of_pos hname] at htake
  rw [htext, cons_append, Kind.nameAt, hname, hdigit, (cons.inj htake).2]
  rfl

/-- A hyphen at the start of a word is not an operator, as no blank follows it. -/
theorem minusAt_text (rest : Text) : Kind.minusAt (w.text ++ rest) = none := by
  obtain ⟨c, r, htext, hc⟩ := w.exists_head
  rw [htext]
  unfold Kind.minusAt
  split
  next heq =>
    obtain ⟨rfl, hr⟩ := cons.inj heq
    obtain ⟨-, d, r', rfl, hd⟩ := hc.resolve_left (by decide)
    obtain ⟨rfl, -⟩ := cons.inj hr
    rw [not_isSpace_of_startsName hd]
    rfl
  · rfl

/-- Nor is it a sign, as a name may start behind it. -/
theorem signAt_text (rest : Text) : Kind.signAt (w.text ++ rest) = none := by
  obtain ⟨c, r, htext, hc⟩ := w.exists_head
  rw [htext]
  unfold Kind.signAt
  split
  next heq =>
    obtain ⟨rfl, hr⟩ := cons.inj heq
    obtain ⟨-, d, r', rfl, -⟩ := hc.resolve_left (by decide)
    cases hr
  next heq =>
    obtain ⟨rfl, hr⟩ := cons.inj heq
    obtain ⟨-, d, r', rfl, hd⟩ := hc.resolve_left (by decide)
    obtain ⟨rfl, -⟩ := cons.inj hr
    exact if_pos hd
  · rfl

/-- Nothing but a name or a unit begins like a word, or a call before a parenthesis. -/
theorem matchAt_text (hrest : Kind.endsName rest = true) (previous : Option Char) {k : Kind}
    (hopen : k = .call → rest.head? ≠ some '(') (hname : k ≠ .name) (hunit : k ≠ .unit) :
    k.matchAt previous (w.text ++ rest) = none := by
  obtain ⟨c, r, htext, hc⟩ := w.exists_head
  have hstarts : startsName c = true ∨ c = '-' := hc.imp id And.left
  have hne : ∀ d : Char, startsName d = false → d ≠ '-' → c ≠ d := fun d hd hhyphen =>
    ne_of_starts hstarts hd hhyphen
  have hafter : ∀ x mark, startsName x = false → x ≠ '-' →
      after? (x :: mark) (w.text ++ rest) = none := by
    intro x mark hx hhyphen
    rw [htext, cons_append, after?, if_neg (Ne.symm (hne x hx hhyphen))]
  cases k with
  | name => exact absurd rfl hname
  | unit => exact absurd rfl hunit
  | both | either | negation => exact w.wholeWord_eq_none hrest (by decide) previous
  | truth =>
    exact Option.or_eq_none_iff.mpr ⟨w.wholeWord_eq_none hrest (by decide) previous,
      w.wholeWord_eq_none hrest (by decide) previous⟩
  | differs | equals | atMost | atLeast =>
    simp (disch := decide) [Kind.matchAt, Kind.exactly, startsWith, hafter]
  | call =>
    rw [Kind.matchAt, Kind.callAt, w.nameAt_text hrest]
    simpa using hopen rfl
  | minus => exact w.minusAt_text rest
  | sign => exact w.signAt_text rest
  | numeral =>
    have hdigit := not_isDigit_of_starts hstarts
    rw [Kind.matchAt, htext, Kind.numeralAt]
    simp [hdigit, hne '.' (by decide) (by decide)]
  | colour =>
    rw [Kind.matchAt, htext]
    unfold Kind.colourAt
    split
    next heq => exact absurd (cons.inj heq).1 (hne '#' (by decide) (by decide))
    · rfl
  | «variable» =>
    rw [Kind.matchAt, htext]
    unfold Kind.variableAt
    split
    next heq => exact absurd (cons.inj heq).1 (hne '$' (by decide) (by decide))
    · rfl
  | _ => simp (disch := decide) [Kind.matchAt, htext, Kind.oneOf, Kind.quotedBy, hne]

section Next

variable {c : Cursor} {allowed : Option (List Kind)}

/-- Where no unit is looked for, or a blank stands before, nothing but a name begins like a word, or
a call before a parenthesis. -/
theorem matchAt_candidate (hrest : Kind.endsName rest = true)
    (hunit : .unit ∉ Cursor.candidates allowed ∨ c.skipBlanks.previous = some ' ') {k : Kind}
    (hk : k ∈ Cursor.candidates allowed) (hopen : k = .call → rest.head? ≠ some '(')
    (hname : k ≠ .name) : k.matchAt c.skipBlanks.previous (w.text ++ rest) = none := by
  by_cases hkind : k = .unit
  · subst hkind
    rcases hunit with hunit | hblank
    · exact absurd hk hunit
    · rw [hblank]
      rfl
  · exact w.matchAt_text hrest _ hopen hname hkind

theorem next_of_tokenOf (hc : c.skipBlanks.rest = w.text ++ rest) {k : Kind}
    (htoken : c.skipBlanks.tokenOf (Cursor.candidates allowed) =
      some ⟨c.skipBlanks.position, c.skipBlanks.position + w.text.length, k, w.text⟩) :
    ∃ token d, c.next allowed = .ok (token, d) ∧ token.kind = k ∧ token.text = w.text ∧
      d.rest = rest := by
  have hnext : c.next allowed = .ok (⟨c.skipBlanks.position,
      c.skipBlanks.position + w.text.length, k, w.text⟩, c.skipBlanks.advance w.text.length) := by
    unfold Cursor.next
    simp only [htoken]
    simp
  exact ⟨_, _, hnext, rfl, rfl, by rw [Cursor.advance, hc, drop_left]⟩

/-- A word is the next token. -/
theorem next_text (hc : c.skipBlanks.rest = w.text ++ rest) (hrest : Kind.endsName rest = true)
    (hopen : rest.head? ≠ some '(') (hname : .name ∈ Cursor.candidates allowed)
    (hunit : .unit ∉ Cursor.candidates allowed ∨ c.skipBlanks.previous = some ' ') :
    ∃ token d, c.next allowed = .ok (token, d) ∧ token.kind = .name ∧ token.text = w.text ∧
      d.rest = rest := by
  refine w.next_of_tokenOf hc ?_
  rw [Cursor.tokenOf, hc]
  refine findSome?_eq_of_unique hname ?_ fun k hk hother => ?_
  · rw [Kind.matchAt, w.nameAt_text hrest, Option.map_some, take_left]
  · rw [w.matchAt_candidate hrest hunit hk (fun _ => hopen) hother]
    rfl

end Next

end Identifier

/-! ## Readers at a token -/

namespace Reader

/-- The next token, among the kinds, is this one, and `d` is the place behind it. -/
structure Offers (ks : List Kind) (token : Token) (d : Cursor) (r : Reader) : Prop where
  sound : r.Sound
  allows : r.Allows ks
  next : r.cursor.next (some ks) = .ok (token, d)
  ahead : ∀ a, r.ahead = some a → a.token = token ∧ a.behind = d

/-- The reader is at a place and has not looked further. -/
structure Fresh (c : Cursor) (r : Reader) : Prop where
  cursor : r.cursor = c
  sound : r.Sound
  ahead : r.ahead = none

variable {ks ks' : List Kind} {token : Token} {c d : Cursor} {r : Reader}

theorem Fresh.stands (h : r.Fresh c) (ks : List Kind) : r.Stands c ks :=
  ⟨h.cursor, h.sound, .of_fresh h.ahead, fun a ha => by rw [h.ahead] at ha; cases ha⟩

theorem Fresh.offers (h : r.Fresh c) (hnext : c.next (some ks) = .ok (token, d)) :
    r.Offers ks token d :=
  ⟨h.sound, .of_fresh h.ahead, h.cursor.symm ▸ hnext, fun a ha => by rw [h.ahead] at ha; cases ha⟩

theorem Stands.offers (h : r.Stands c ks) (hnext : c.next none = .ok (token, d))
    (hk : token.kind ∈ ks) : r.Offers ks token d := by
  refine ⟨h.sound, h.allows, h.cursor.symm ▸ Cursor.next_some hnext hk, fun a ha => ?_⟩
  have heq := h.ahead a ha
  rw [hnext] at heq
  cases heq
  exact ⟨rfl, rfl⟩

theorem Offers.mono (h : r.Offers ks token d) (hks : ks' ⊆ ks) (hk : token.kind ∈ ks') :
    r.Offers ks' token d :=
  ⟨h.sound, h.allows.mono hks, Cursor.next_narrow h.next hks hk, h.ahead⟩

theorem Offers.look (h : r.Offers ks token d) :
    ∃ a r', r.look (some ks) = .ok (a, r') ∧ r'.Offers ks token d ∧ r'.ahead = some a ∧
      a.token = token ∧ a.behind = d := by
  rcases look_cases h.sound fun _ h' => Option.some.inj h' ▸ h.allows with
    ⟨f, -, -, hfault⟩ | ⟨a, r', hlook, hsound, hahead, htoken, hallows, hcursor, -⟩
  · rw [h.next] at hfault
    cases hfault
  · obtain ⟨htoken, hbehind⟩ : a.token = token ∧ a.behind = d := by
      rcases htoken with htoken | htoken
      · exact h.ahead a htoken
      · rw [h.next] at htoken
        cases htoken
        exact ⟨rfl, rfl⟩
    have hks := hallows ks h.allows fun wider h' => Option.some.inj h' ▸ List.Subset.refl ks
    refine ⟨a, r', hlook, ⟨hsound, hks, hcursor ▸ h.next, fun b hb => ?_⟩, hahead, htoken, hbehind⟩
    obtain rfl : a = b := Option.some.inj (hahead ▸ hb)
    exact ⟨htoken, hbehind⟩

theorem Offers.peek (h : r.Offers ks token d) :
    ∃ r', r.peek (some ks) = .ok (token.kind, r') ∧ r'.Offers ks token d := by
  obtain ⟨a, r', hlook, hr', -, rfl, -⟩ := h.look
  exact ⟨r', by rw [Reader.peek, hlook], hr'⟩

theorem Offers.take (h : r.Offers ks token d) (hk : token.kind ∈ ks)
    (hfinish : token.kind ≠ .finish) :
    ∃ r', r.take token.kind = .ok (token.text, r') ∧ r'.Fresh d := by
  obtain ⟨a, r₁, hlook, hr₁, hahead, rfl, rfl⟩ :=
    (h.mono (by simpa using hk) (mem_singleton.mpr rfl)).look
  refine ⟨⟨a.behind, (a.token, r₁.cursor) :: r₁.taken, none⟩, ?_, rfl, ?_, rfl⟩
  · rw [Reader.take, hlook]
    simp
  · have hend := hr₁.sound.ahead a hahead hfinish
    exact sound_of_fresh ⟨hend.1, hr₁.sound.trail⟩ rfl

theorem Stands.take_fresh {k : Kind} {t : Text} (h : r.Stands c ks) (hmeets : c.Meets k t d)
    (hk : k ∈ ks) (hfinish : k ≠ .finish) : ∃ r', r.take k = .ok (t, r') ∧ r'.Fresh d := by
  obtain ⟨token, hnext, rfl, rfl⟩ := hmeets
  exact (h.offers hnext hk).take hk hfinish

end Reader

/-! ## Tokens of rows -/

namespace Element

/-- The first token of an element. -/
def token : Element → Kind × Text
  | .number n => (.numeral, n.text)
  | .word w => (.name, w.text)
  | .flag _ => (.bang, ['!'])

/-- What an element goes on with behind its first token. -/
def behind : Element → Text
  | .flag w => w.text
  | _ => []

theorem endsName_tailText (es : List Element) :
    Kind.endsName (tailText es) = true ∧ (tailText es).head? ≠ some '(' := by
  cases es with
  | nil => exact ⟨rfl, by rintro ⟨⟩⟩
  | cons e es =>
    rw [tailText_cons]
    exact ⟨rfl, by simp⟩

theorem length_le_tailText (es : List Element) : es.length ≤ (tailText es).length := by
  induction es with
  | nil => exact Nat.le_refl _
  | cons e es ih =>
    simp only [tailText_cons, length_cons, length_append]
    omega

theorem not_isBlank_text (e : Element) (rest : Text) :
    ∀ x ∈ (e.text ++ rest).head?, Cursor.isBlank x = false := by
  have hword : ∀ (w : Identifier), ∀ x ∈ (w.text ++ rest).head?, Cursor.isBlank x = false := by
    intro w x hx
    obtain ⟨c, r, htext, hc⟩ := w.exists_head
    rw [htext] at hx
    obtain rfl : c = x := Option.some.inj hx
    have hne : ∀ d : Char, startsName d = false → d ≠ '-' → (c == d) = false := fun d hd hhyphen =>
      beq_eq_false_iff_ne.mpr (ne_of_starts (hc.imp id And.left) hd hhyphen)
    simp (disch := decide) [Cursor.isBlank, hne]
  cases e with
  | number n => exact (Formula.scans_number n).unblank rest
  | word w => exact hword w
  | flag w =>
    rintro x ⟨⟩
    decide

theorem text_ne_nil (e : Element) : e.text ≠ [] := by
  cases e with
  | number n =>
    obtain ⟨c, r, htext, -⟩ := n.exists_head
    simp [text, htext]
  | word w =>
    obtain ⟨c, r, htext, -⟩ := w.exists_head
    simp [text, htext]
  | flag w => simp [text]

theorem first_bang (w : Identifier) (previous : Option Char) (rest : Text) :
    Kind.first previous ('!' :: (w.text ++ rest)) = some (.bang, 1) := by
  obtain ⟨c, r, htext, hc⟩ := w.exists_head
  have hne : '=' ≠ c := Ne.symm (ne_of_starts (hc.imp id And.left) (by decide) (by decide))
  refine Kind.first_eq (i := 14) rfl (fun k hk => ?_) rfl
  rw [htext]
  cases k with
  | differs => simp [Kind.matchAt, Kind.exactly, startsWith, after?, hne]
  | _ => first | rfl | exact absurd hk (by decide)

theorem next_rowText (e : Element) (es : List Element) {c : Cursor}
    (hc : c.skipBlanks.rest = e.text ++ tailText es) {allowed : Option (List Kind)}
    (hallowed : allowed = some Grammar.items ∨
      allowed = none ∧ c.skipBlanks.previous = some ' ') :
    ∃ token d, c.next allowed = .ok (token, d) ∧ token.kind = e.token.1 ∧
      token.text = e.token.2 ∧ d.rest = e.behind ++ tailText es := by
  obtain ⟨hends, hopen⟩ := endsName_tailText es
  have hmeets : ∀ {k t d}, c.Meets k t d → k ∈ Grammar.items →
      ∃ token, c.next allowed = .ok (token, d) ∧ token.kind = k ∧ token.text = t := by
    rintro k t d ⟨token, hnext, rfl, rfl⟩ hk
    rcases hallowed with rfl | ⟨rfl, -⟩
    · exact ⟨token, Cursor.next_some hnext hk, rfl, rfl⟩
    · exact ⟨token, hnext, rfl, rfl⟩
  cases e with
  | number n =>
    have hdigit : ∀ c ∈ (tailText es).head?, isDigit c = false ∧ c ≠ '.' := by
      cases es with
      | nil => rintro c ⟨⟩
      | cons e es =>
        rw [tailText_cons]
        rintro c ⟨⟩
        decide
    have hfirst := Cursor.meets_of_first hc (Kind.first_numeral n hdigit)
    rw [text, take_left] at hfirst
    obtain ⟨token, hnext, hkind, htext⟩ := hmeets hfirst (by decide)
    refine ⟨token, _, hnext, hkind, htext, ?_⟩
    rw [Cursor.advance, hc, text, drop_left]
    rfl
  | word w =>
    refine w.next_text hc hends hopen ?_ ?_
    · rcases hallowed with rfl | ⟨rfl, -⟩ <;> decide
    · rcases hallowed with rfl | ⟨-, hblank⟩
      · exact .inl (by decide)
      · exact .inr hblank
  | flag w =>
    have hfirst := Cursor.meets_of_first hc (first_bang w _ _)
    obtain ⟨token, hnext, hkind, htext⟩ := hmeets hfirst (by decide)
    refine ⟨token, _, hnext, hkind, htext, ?_⟩
    rw [Cursor.advance, hc]
    rfl

theorem next_tailText (e : Element) (es : List Element) {c : Cursor}
    (hc : c.rest = tailText (e :: es)) :
    ∃ token d, c.next none = .ok (token, d) ∧ token.kind = e.token.1 ∧ token.text = e.token.2 ∧
      d.rest = e.behind ++ tailText es := by
  have hskip := Cursor.skipBlanks_blank (hc.trans (tailText_cons e es))
    (e.not_isBlank_text _)
  exact e.next_rowText es (by rw [hskip]) (.inr ⟨rfl, by rw [hskip]⟩)

end Element

/-! ## Reading rows -/

namespace Grammar

variable {c : Cursor} {es : List Element} {r : Reader}

open Element

/-- The kinds of what comes behind an element of a row. -/
def rowKinds : List Kind := [.numeral, .name, .bang, .finish]

theorem meets_finish (hc : c.rest = []) : ∃ d, c.Meets .finish [] d := by
  have hskip : c.skipBlanks = c := Cursor.skipBlanks_eq fun x hx => by rw [hc] at hx; cases hx
  exact ⟨_, Cursor.meets_of_first (hskip.symm ▸ hc) (show _ = some (.finish, 0) from rfl)⟩

theorem meets_tailText (hc : c.rest = tailText es) :
    ∃ k t d, c.Meets k t d ∧ k ∈ rowKinds ∧ (k == .bang) = es.head?.any isFlag := by
  cases es with
  | nil =>
    obtain ⟨d, hend⟩ := meets_finish hc
    exact ⟨_, _, d, hend, by decide, rfl⟩
  | cons e es =>
    obtain ⟨token, d, hnext, hkind, htext, -⟩ := next_tailText e es hc
    refine ⟨_, _, _, ⟨token, hnext, hkind, htext⟩, ?_⟩
    cases e <;> exact ⟨mem_of_elem_eq_true rfl, rfl⟩

theorem follows_tailText (hc : c.rest = tailText es) :
    Follows c rowKinds := by
  obtain ⟨k, t, d, hmeets, hk, -⟩ := meets_tailText hc
  exact ⟨k, t, d, hmeets, hk⟩

variable {operand : Reader → Parsed} {loops n : Nat} {d : Cursor}

/-- The kinds that go on with neither a unit nor an operator between two operands. -/
def outerKinds : List Kind := afterItem.erase .plus

theorem chained_alone {e : Expr} {r₁ : Reader} {after ks : List Kind}
    {operators : Option (List Kind)} {join : Kind → Option (Expr → Expr → Expr)}
    (hn : 0 < n) (hread : operand r = (e, some r₁)) (hr₁ : r₁.Stands d after) (hend : Follows d ks)
    (hjoin : ∀ k ∈ ks, k ∈ after ∧ join k = none) :
    ∃ r', chained operand after operators join n r = (e, some r') ∧ r'.Stands d after := by
  obtain ⟨m, rfl⟩ : ∃ m, n = m + 1 := ⟨n - 1, by omega⟩
  obtain ⟨k, t, d', hmeets, hk⟩ := hend
  obtain ⟨hafter, hnone⟩ := hjoin k hk
  obtain ⟨r', hpeek, hr'⟩ := hr₁.peek hmeets hafter
  refine ⟨r', ?_, hr'⟩
  rw [chained, hread]
  simp only [chain, hpeek, hnone]

section Atom

variable {inner : Reader → Parsed} {token : Token} {e : Expr} {r : Reader} {P : Cursor → Prop}

/-- The atom that begins with the token is read as the expression, up to a place that is as
described. -/
def ReadsAtom (inner : Reader → Parsed) (token : Token) (d : Cursor) (e : Expr)
    (P : Cursor → Prop) : Prop :=
  ∀ r : Reader, r.Offers atoms token d → ∃ r' d', atom inner r = (e, some r') ∧ r'.Fresh d' ∧ P d'

/-- An atom that nothing is joined to is read by everything looser. -/
theorem compared_atom (hn : 0 < n) (hr : r.Offers operands token d) (hkind : token.kind ∈ atoms)
    (hatom : ReadsAtom inner token d e P) (hend : ∀ d', P d' → Follows d' outerKinds) :
    ∃ r' d', compared inner n r = (e, some r') ∧ r'.Stands d' afterComparison ∧ P d' := by
  have hkinds : ∀ k ∈ outerKinds, k ∈ afterAtom ∧ k ≠ .unit := by decide
  have hsigns : token.kind ≠ .sign ∧ token.kind ≠ .plus := by
    revert hkind
    generalize token.kind = k
    revert k
    decide
  obtain ⟨m, rfl⟩ : ∃ m, n = m + 1 := ⟨n - 1, by omega⟩
  obtain ⟨r₁, hpeek₁, hr₁⟩ := hr.peek
  obtain ⟨r₃, d', hread₃, hr₃, hd'⟩ := hatom r₁ (hr₁.mono (by decide) hkind)
  have hfollows := hend d' hd'
  have hsigned : ∃ r', signed inner (m + 1) r = (e, some r') ∧ r'.Stands d' afterProduct := by
    obtain ⟨k, t, d'', hmeets, hk⟩ := hfollows
    obtain ⟨hafter, hunit⟩ := hkinds k hk
    obtain ⟨r₄, hpeek₄, hr₄⟩ := (hr₃.stands afterAtom).peek hmeets hafter
    refine ⟨r₄, ?_, hr₄.mono (by decide)⟩
    have hmeasured : measured inner r₁ = (e, some r₄) := by
      rw [measured, hread₃]
      simp only [hpeek₄]
    rw [signed, hpeek₁]
    split
    next heq => cases heq
    next heq => exact absurd (Prod.mk.inj (Except.ok.inj heq)).1 hsigns.1
    next heq => exact absurd (Prod.mk.inj (Except.ok.inj heq)).1 hsigns.2
    next heq =>
      obtain ⟨-, rfl⟩ := Prod.mk.inj (Except.ok.inj heq)
      exact hmeasured
  obtain ⟨r₄, hread₄, hr₄⟩ := hsigned
  obtain ⟨r₅, hread₅, hr₅⟩ := chained_alone hn hread₄ hr₄ hfollows
    (show ∀ k ∈ outerKinds, k ∈ afterProduct ∧ productOf k = none by decide)
  obtain ⟨r₆, hread₆, hr₆⟩ := chained_alone hn hread₅ (hr₅.mono (by decide)) hfollows
    (show ∀ k ∈ outerKinds, k ∈ afterSum ∧ sumOf k = none by decide)
  obtain ⟨r₇, hread₇, hr₇⟩ := chained_alone hn hread₆ (hr₆.mono (by decide)) hfollows
    (show ∀ k ∈ outerKinds, k ∈ afterComparison ∧ comparisonOf k = none by decide)
  exact ⟨r₇, d', hread₇, hr₇, hd'⟩

theorem condition_atom (hloops : 0 < loops) (hn : 0 < n) (hr : r.Offers items token d)
    (hkind : token.kind ∈ atoms) (hatom : ReadsAtom inner token d e P)
    (hend : ∀ d', P d' → Follows d' outerKinds) :
    ∃ r' d', condition inner loops n r = (e, some r') ∧ r'.Stands d' afterBoth ∧ P d' := by
  have hkinds : token.kind ∈ operands ∧
      (token.kind == .negation || token.kind == .bang) = false := by
    revert hkind
    generalize token.kind = k
    revert k
    decide
  obtain ⟨m, rfl⟩ : ∃ m, n = m + 1 := ⟨n - 1, by omega⟩
  obtain ⟨r₁, hpeek, hr₁⟩ := hr.peek
  obtain ⟨r₂, d', hread, hr₂, hd'⟩ :=
    compared_atom hloops (hr₁.mono (by decide) hkinds.1) hkind hatom hend
  refine ⟨r₂, d', ?_, hr₂.mono (by decide), hd'⟩
  rw [condition, hpeek]
  simp only [hkinds.2]
  exact hread

end Atom

/-- What a number or a word alone is read as. -/
def leaf (k : Kind) (t : Text) : Expr := if k = .numeral then .numeral t else .word t

variable {token : Token}

theorem readsAtom_leaf (inner : Reader → Parsed) (hkind : token.kind ∈ [Kind.numeral, .name]) :
    ReadsAtom inner token d (leaf token.kind token.text) (· = d) := by
  intro r hr
  have hatoms : token.kind ∈ atoms ∧ token.kind ≠ .finish := by
    revert hkind
    generalize token.kind = k
    revert k
    decide
  obtain ⟨r₁, hpeek, hr₁⟩ := hr.peek
  obtain ⟨r₂, htake, hr₂⟩ := hr₁.take hatoms.1 hatoms.2
  refine ⟨r₂, d, ?_, hr₂, rfl⟩
  rw [atom, hpeek]
  simp only [mem_cons, not_mem_nil, or_false] at hkind
  rcases hkind with hkind | hkind <;> rw [hkind] at htake ⊢ <;> simp only [literal, htake] <;> rfl

theorem condition_leaf (inner : Reader → Parsed) (hloops : 0 < loops) (hn : 0 < n)
    (hr : r.Offers items token d) (hkind : token.kind ∈ [Kind.numeral, .name])
    (hend : Follows d rowKinds) :
    ∃ r', condition inner loops n r = (leaf token.kind token.text, some r') ∧
      r'.Stands d afterBoth := by
  obtain ⟨r', d', hread, hr', rfl⟩ :=
    condition_atom hloops hn hr ((show [Kind.numeral, .name] ⊆ atoms by decide) hkind)
      (readsAtom_leaf inner hkind) fun d' hd' => hd' ▸ hend.mono (by decide)
  exact ⟨r', hread, hr'⟩

theorem negated_flag (inner : Reader → Parsed) (w : Identifier) (hloops : 0 < loops) (hn : 0 < n)
    (hr : r.Offers [.negation, .bang] token d) (hkind : token.kind = .bang)
    (hd : d.rest = w.text ++ tailText es) :
    ∃ r' d', negated (condition inner loops n) r = (.bang (.word w.text), some r') ∧
      r'.Stands d' afterBoth ∧ d'.rest = tailText es := by
  obtain ⟨r₁, hpeek, hr₁⟩ := hr.peek
  obtain ⟨r₂, htake, hr₂⟩ := hr₁.take (by rw [hkind]; decide) (by rw [hkind]; decide)
  have hskip : d.skipBlanks = d :=
    Cursor.skipBlanks_eq (hd ▸ not_isBlank_text (.word w) (tailText es))
  obtain ⟨word, d', hnext, hname, htext, hd'⟩ :=
    next_rowText (.word w) es (by rw [hskip, hd]; rfl) (.inl rfl)
  obtain ⟨r₃, hread, hr₃⟩ := condition_leaf inner hloops hn (hr₂.offers hnext)
    (by rw [hname]; exact mem_of_elem_eq_true rfl) (follows_tailText hd')
  refine ⟨r₃, d', ?_, hr₃, hd'⟩
  rw [hkind] at hpeek htake
  rw [negated, hpeek]
  simp only [htake, hread]
  rw [hname, htext]
  rfl

/-- Of flags in a row the last one counts. -/
theorem negations_flags (inner : Reader → Parsed) (hloops : 0 < loops) {m : Nat} (hm : 0 < m)
    (w : Identifier) (es : List Element) (hn : es.length < n)
    (hr : r.Offers [.negation, .bang] token d) (hkind : token.kind = .bang)
    (hd : d.rest = w.text ++ tailText es) :
    ∃ x es' r' d', itemExprs (.flag w :: es) = x :: itemExprs es' ∧ es'.length ≤ es.length ∧
      negations (condition inner loops m) n r = (x, some r') ∧ r'.Stands d' afterBoth ∧
      d'.rest = tailText es' := by
  have hkinds : ∀ k ∈ rowKinds, k ∈ afterBoth ∧ (k == .negation) = false := by decide
  induction n generalizing w es r token d with
  | zero => exact absurd hn (Nat.not_lt_zero _)
  | succ n ih =>
    obtain ⟨r₁, d₁, hread, hr₁, hd₁⟩ := negated_flag inner w hloops hm hr hkind hd
    obtain ⟨k, t, d₂, hmeets, hk, hbang⟩ := meets_tailText hd₁
    obtain ⟨hafter, hnegation⟩ := hkinds k hk
    cases hflag : es.head?.any isFlag with
    | false =>
      obtain ⟨r₂, hpeek, hr₂⟩ := hr₁.peek hmeets hafter
      refine ⟨.bang (.word w.text), es, r₂, d₁, ?_, Nat.le_refl _, ?_, hr₂, hd₁⟩
      · rw [itemExprs, hflag]
        rfl
      · simp only [negations, hread, hpeek, hnegation, hbang, hflag]
        rfl
    | true =>
      obtain ⟨w', es, rfl⟩ : ∃ w' es', es = .flag w' :: es' := by
        rcases es with _ | ⟨_ | _ | w', es⟩
        · cases hflag
        · cases hflag
        · cases hflag
        · exact ⟨w', es, rfl⟩
      obtain ⟨token', d₂, hnext, hkind', -, hd₂⟩ := next_tailText (.flag w') es hd₁
      have hoffers := hr₁.offers hnext (by rw [hkind']; exact mem_of_elem_eq_true rfl)
      obtain ⟨r₂, hpeek, hr₂⟩ := hoffers.peek
      obtain ⟨x, es', r', d', hitems, hlength, hrest, hr', hd'⟩ :=
        ih w' es (by simpa using hn)
          (hr₂.mono (by decide) (by rw [hkind']; exact mem_of_elem_eq_true rfl)) hkind' hd₂
      refine ⟨.instead (.bang (.word w.text)) x, es', r', d', ?_, ?_, ?_, hr', hd'⟩
      · rw [itemExprs, hflag, hitems]
        rfl
      · exact Nat.le_trans hlength (Nat.le_succ _)
      · simp only [negations, hread, hpeek, hkind', Element.token, hrest]
        rfl

theorem item_element (inner : Reader → Parsed) (e : Element) (es : List Element)
    (hloops : es.length + 2 ≤ loops) (hr : r.Offers items token d) (hkind : token.kind = e.token.1)
    (htext : token.text = e.token.2) (hd : d.rest = e.behind ++ tailText es) :
    ∃ x es' r' d', itemExprs (e :: es) = x :: itemExprs es' ∧ es'.length ≤ es.length ∧
      item inner loops r = (x, some r') ∧ r'.Stands d' afterEither ∧ d'.rest = tailText es' := by
  obtain ⟨n, rfl⟩ : ∃ n, loops = n + 2 := ⟨loops - 2, by omega⟩
  have hcondition : ∃ x es' r' d', itemExprs (e :: es) = x :: itemExprs es' ∧
      es'.length ≤ es.length ∧ condition inner (n + 2) (n + 2) r = (x, some r') ∧
      r'.Stands d' afterBoth ∧ d'.rest = tailText es' := by
    have hleaf : e.token.1 ∈ [Kind.numeral, .name] → e.isFlag = false → e.behind = [] →
        leaf e.token.1 e.token.2 = e.expr → ∃ x es' r' d',
        itemExprs (e :: es) = x :: itemExprs es' ∧
        es'.length ≤ es.length ∧ condition inner (n + 2) (n + 2) r = (x, some r') ∧
        r'.Stands d' afterBoth ∧ d'.rest = tailText es' := by
      intro hmem hflag hbehind hexpr
      have hd : d.rest = tailText es := by rw [hd, hbehind, nil_append]
      obtain ⟨r', hread, hr'⟩ := condition_leaf inner (show 0 < n + 2 by omega)
        (show 0 < n + 2 by omega) hr (hkind ▸ hmem) (follows_tailText hd)
      refine ⟨_, es, r', d, ?_, Nat.le_refl _, hread, hr', hd⟩
      rw [itemExprs, hflag, hkind, htext, hexpr]
      rfl
    cases e with
    | number t => exact hleaf (mem_of_elem_eq_true rfl) rfl rfl rfl
    | word w => exact hleaf (mem_of_elem_eq_true rfl) rfl rfl rfl
    | flag w =>
      obtain ⟨r₁, hpeek, hr₁⟩ := hr.peek
      obtain ⟨x, es', r', d', hitems, hlength, hread, hr', hd'⟩ :=
        negations_flags (n := n + 2) inner (show 0 < n + 2 by omega) (show 0 < n + 1 by omega) w es
          (by omega) (hr₁.mono (by decide) (by rw [hkind]; exact mem_of_elem_eq_true rfl))
          hkind hd
      refine ⟨x, es', r', d', hitems, hlength, ?_, hr', hd'⟩
      rw [hkind] at hpeek
      rw [condition, hpeek]
      exact hread
  obtain ⟨x, es', r₁, d', hitems, hlength, hread, hr₁, hd'⟩ := hcondition
  have hend := follows_tailText hd'
  obtain ⟨r₂, hread₂, hr₂⟩ := chained_alone (n := n + 2) (by omega) hread hr₁ hend
    (show ∀ k ∈ rowKinds, k ∈ afterBoth ∧ bothOf k = none by decide)
  obtain ⟨r₃, hread₃, hr₃⟩ := chained_alone (n := n + 2) (by omega) hread₂ (hr₂.mono (by decide))
    hend (show ∀ k ∈ rowKinds, k ∈ afterEither ∧ eitherOf k = none by decide)
  exact ⟨x, es', r₃, d', hitems, hlength, hread₃, hr₃, hd'⟩

/-- An item alone stands for itself. -/
def rowOf : List Expr → Expr
  | [x] => x
  | xs => .row (xs.map fun x => (none, x))

theorem rowOf_of_length {xs : List Expr} (h : xs.length ≠ 1) :
    rowOf xs = .row (xs.map fun x => (none, x)) := by
  rcases xs with _ | ⟨x, _ | ⟨y, xs⟩⟩
  · rfl
  · exact absurd rfl h
  · rfl

theorem rowFrom_tailText (inner : Reader → Parsed) (es : List Element) (done : List Expr)
    (hn : es.length < n) (hloops : es.length + 1 ≤ loops) (hr : r.Stands d afterItem)
    (hd : d.rest = tailText es) :
    ∃ r' d', rowFrom (item inner loops) n done r =
        (rowOf (done.reverse ++ itemExprs es), some r') ∧
      r'.Stands d' rowEnds ∧ d'.rest = [] := by
  induction n generalizing es done r d with
  | zero => exact absurd hn (Nat.not_lt_zero _)
  | succ n ih =>
    cases es with
    | nil =>
      obtain ⟨d', hend⟩ := meets_finish hd
      obtain ⟨r₁, hpeek, hr₁⟩ := hr.peek hend (by decide)
      refine ⟨r₁, d, ?_, hr₁.mono (by decide), hd⟩
      rw [rowFrom, hpeek, itemExprs, append_nil]
      rcases done with _ | ⟨x, _ | ⟨y, done⟩⟩
      · rfl
      · rfl
      · rw [rowOf_of_length (by simp)]
        rfl
    | cons e es =>
      simp only [length_cons] at hn hloops
      obtain ⟨token, d₁, hnext, hkind, htext, hd₁⟩ := next_tailText e es hd
      have hmem : e.token.1 ∈ items ∧ rowEnds.contains e.token.1 = false := by
        cases e <;> exact ⟨mem_of_elem_eq_true rfl, rfl⟩
      have hoffers := hr.offers hnext (hkind ▸ mem_append_left _ hmem.1)
      obtain ⟨r₁, hpeek, hr₁⟩ := hoffers.peek
      obtain ⟨x, es', r₂, d₂, hitems, hlength, hread, hr₂, hd₂⟩ :=
        item_element inner e es hloops
          (hr₁.mono (by decide) (hkind ▸ hmem.1)) hkind htext hd₁
      obtain ⟨r', d', hrest, hr', hd'⟩ :=
        ih es' (x :: done) (by omega) (by omega) (hr₂.mono (by decide)) hd₂
      refine ⟨r', d', ?_, hr', hd'⟩
      rw [hkind] at hpeek
      rw [rowFrom, hpeek]
      simp only [hmem.2, hread, hrest, hitems]
      simp

end Grammar

namespace Element

theorem parse_rowText (e : Element) (es : List Element) :
    Expr.parse (rowText (e :: es)) = .list [(none, Grammar.rowOf (itemExprs (e :: es)))] := by
  let source := rowText (e :: es)
  have hsource : source = e.text ++ tailText es := rowText_cons e es
  have hlength : es.length + 1 ≤ source.length := by
    have htail := length_le_tailText es
    have hhead : 0 < e.text.length := length_pos_iff.mpr e.text_ne_nil
    rw [hsource, length_append]
    omega
  have hskip : (Cursor.start source).skipBlanks = Cursor.start source :=
    Cursor.skipBlanks_eq (show ∀ x ∈ source.head?, _ from hsource ▸ e.not_isBlank_text _)
  obtain ⟨token, d, hnext, hkind, htext, hd⟩ :=
    next_rowText e es (c := Cursor.start source) (by rw [hskip]; exact hsource) (.inl rfl)
  have hfresh : (Reader.ofText source).Fresh (Cursor.start source) :=
    ⟨rfl, Reader.sound_of_fresh trivial rfl, rfl⟩
  obtain ⟨r₁, hpeek, hr₁⟩ := (hfresh.offers hnext).peek
  have hname : Grammar.itemName (Reader.ofText source) = .ok (none, r₁) := by
    rw [hkind] at hpeek
    rw [Grammar.itemName, hpeek]
    cases e <;> rfl
  obtain ⟨x, es', r₂, d₂, hitems, hle, hread, hr₂, hd₂⟩ := Grammar.item_element
    (Grammar.listOf (source.length + 2) (source.length + 1)) e es
    (show es.length + 2 ≤ source.length + 2 by omega) hr₁ hkind htext hd
  obtain ⟨r₃, d₃, hrow, hr₃, hd₃⟩ := Grammar.rowFrom_tailText
    (Grammar.listOf (source.length + 2) (source.length + 1)) es' [x]
    (show es'.length < source.length + 2 by omega)
    (show es'.length + 1 ≤ source.length + 2 by omega) (hr₂.mono (by decide)) hd₂
  obtain ⟨d₄, hend⟩ := Grammar.meets_finish hd₃
  obtain ⟨r₄, hpeek₄, hr₄⟩ := hr₃.peek hend (by decide)
  obtain ⟨r₅, htake, -⟩ := hr₄.take hend (by decide)
  have hlist : Grammar.listOf (source.length + 2) (source.length + 2) (Reader.ofText source) =
      (.list [(none, Grammar.rowOf (itemExprs (e :: es)))], some r₄) := by
    rw [Grammar.listOf, Grammar.listFrom, hname]
    simp only [Grammar.row, hread, hrow, hpeek₄, hitems]
    rfl
  show Expr.parse source = _
  unfold Expr.parse
  dsimp only
  rw [hlist]
  simp only [htake]

/-! ## Values of rows -/

theorem itemExprs_ne_nil (e : Element) (es : List Element) : itemExprs (e :: es) ≠ [] := by
  induction es generalizing e with
  | nil => simp [itemExprs]
  | cons e' es ih =>
    obtain ⟨x, xs, hitems⟩ := exists_cons_of_ne_nil (ih e')
    rw [itemExprs, hitems]
    split <;> simp

/-- One step of a row: an element counts, or it is a flag before another flag. -/
theorem itemExprs_cons (e : Element) (es : List Element) :
    (itemExprs (e :: es) = e.expr :: itemExprs es ∧ kept (e :: es) = e :: kept es) ∨
    ∃ w x xs, e = .flag w ∧ itemExprs es = x :: xs ∧
      itemExprs (e :: es) = .instead e.expr x :: xs ∧ kept (e :: es) = kept es := by
  rw [itemExprs, kept]
  split
  next hflags =>
    cases es with
    | nil => simp at hflags
    | cons e' es =>
      obtain ⟨x, xs, hitems⟩ := exists_cons_of_ne_nil (itemExprs_ne_nil e' es)
      cases e with
      | flag w => exact .inr ⟨w, x, xs, rfl, hitems, by rw [hitems], rfl⟩
      | number n => cases hflags
      | word w => cases hflags
  · exact .inl ⟨rfl, rfl⟩

theorem length_itemExprs (es : List Element) : (itemExprs es).length = (kept es).length := by
  induction es with
  | nil => rfl
  | cons e es ih =>
    rcases itemExprs_cons e es with ⟨hitems, hkept⟩ | ⟨w, x, xs, -, hrest, hitems, hkept⟩
    · rw [hitems, hkept, length_cons, length_cons, ih]
    · rw [hitems, hkept, ← ih, hrest]
      rfl

theorem itemFaults_itemExprs (es : List Element) :
    Expr.itemFaults ((itemExprs es).map fun x => (none, x)) = [] := by
  have hexpr : ∀ e : Element, e.expr.faults = [] := by
    rintro (_ | _ | _) <;> rfl
  induction es with
  | nil => rfl
  | cons e es ih =>
    rcases itemExprs_cons e es with ⟨hitems, -⟩ | ⟨w, x, xs, -, hrest, hitems, -⟩
    · rw [hitems, map_cons, Expr.itemFaults, hexpr, ih]
      rfl
    · rw [hrest, map_cons, Expr.itemFaults] at ih
      rw [hitems, map_cons, Expr.itemFaults, Expr.faults, hexpr, nil_append, ih]

/-- The values of the items are those of the elements that count. -/
theorem evalItems_itemExprs (m : Expr.Meaning) (es : List Element) (s : Session) :
    ∃ vs t, ((kept es).mapM fun e => Expr.eval m e.expr).run s = (.ok vs, t) ∧
      vs.length = (kept es).length ∧
      (Expr.evalItems m ((itemExprs es).map fun x => (none, x))).run s =
        (.ok (vs.map fun v => (none, v)), t) := by
  induction es generalizing s with
  | nil => exact ⟨[], s, rfl, rfl, rfl⟩
  | cons e es ih =>
    rcases itemExprs_cons e es with ⟨hitems, hkept⟩ | ⟨w, x, xs, rfl, hrest, hitems, hkept⟩
    · obtain ⟨v, t, heval⟩ : ∃ v t, (Expr.eval m e.expr).run s = (.ok v, t) := by
        cases e <;> exact ⟨_, _, rfl⟩
      obtain ⟨vs, t', hvalues, hlength, hrun⟩ := ih t
      refine ⟨v :: vs, t', ?_, ?_, ?_⟩
      · rw [hkept, mapM_cons, Run.bind_ok heval, Run.bind_ok hvalues]
        rfl
      · rw [hkept, length_cons, length_cons, hlength]
      · rw [hitems, map_cons, Expr.evalItems, Run.bind_ok heval, Run.bind_ok hrun]
        rfl
    · -- The flag is evaluated and left out.
      obtain ⟨vs, t, hvalues, hlength, hrun⟩ := ih s
      refine ⟨vs, t, by rw [hkept, hvalues], by rw [hkept, hlength], ?_⟩
      rw [← hrun, hrest, hitems]
      rfl

theorem eval_parse_text (m : Expr.Meaning) (e : Element) :
    Expr.eval m (Expr.parse e.text) = Expr.eval m e.expr := by
  have hparse := parse_rowText e []
  have hrow : rowText [e] = e.text := append_nil e.text ▸ rowText_cons e []
  rw [hrow] at hparse
  rw [hparse]
  have hitems : itemExprs [e] = [e.expr] := by simp [itemExprs]
  rw [hitems]
  exact Formula.eval_grouped m true e.expr

theorem eval_parse_rowText (m : Expr.Meaning) (e : Element) (es : List Element) :
    Expr.eval m (Expr.parse (rowText (e :: es))) =
      Expr.eval m (Grammar.rowOf (itemExprs (e :: es))) := by
  rw [parse_rowText]
  exact Formula.eval_grouped m true _

theorem faults_rowOf {xs : List Expr} (h : Expr.itemFaults (xs.map fun x => (none, x)) = []) :
    (Grammar.rowOf xs).faults = [] := by
  by_cases hone : xs.length = 1
  · obtain ⟨x, rfl⟩ := length_eq_one_iff.mp hone
    simpa [Grammar.rowOf, Expr.itemFaults] using h
  · rw [Grammar.rowOf_of_length hone, Expr.faults, h]

/-- Numbers, words and flags with single blanks between them are read up to the end.  The row has
the values of its elements, each evaluated alone, in their order: the value itself if there is only
one, and else a list.  Only a flag before another flag does not count. -/
theorem row_by_elements (m : Expr.Meaning) (e : Element) (es : List Element) (s : Session) :
    (Expr.parse (rowText (e :: es))).faults = [] ∧
    (∃ vs t v t',
      ((kept (e :: es)).mapM fun q => Expr.eval m (Expr.parse q.text)).run s = (.ok vs, t) ∧
      vs.length = (kept (e :: es)).length ∧
      (Expr.eval m (Expr.parse (rowText (e :: es)))).run s = (.ok v, t') ∧
      (vs = [v] ∨ 2 ≤ vs.length ∧ ∃ slot, v = .list slot (Items.ofList vs))) ∧
    (kept (e :: es) = e :: es ↔
      (e :: es).IsChain fun p q => (p.isFlag && q.isFlag) = false) := by
  refine ⟨?_, ?_, kept_eq_self_iff _⟩
  · rw [parse_rowText, Expr.faults, Expr.itemFaults, faults_rowOf (itemFaults_itemExprs _)]
    rfl
  · obtain ⟨vs, t, hvalues, hlength, hrun⟩ := evalItems_itemExprs m (e :: es) s
    simp only [eval_parse_text, eval_parse_rowText]
    by_cases hone : (itemExprs (e :: es)).length = 1
    · obtain ⟨x, hx⟩ := List.length_eq_one_iff.mp hone
      obtain ⟨v, rfl⟩ : ∃ v, vs = [v] := by
        rw [← List.length_eq_one_iff, hlength, ← length_itemExprs, hone]
      refine ⟨[v], t, v, t, hvalues, hlength, ?_, .inl rfl⟩
      rw [hx, List.map_singleton, Expr.evalItems] at hrun
      obtain ⟨v', t', hv', hrest⟩ := Run.of_bind_ok hrun
      cases hrest
      rw [hx]
      exact hv'
    · have hmany : 2 ≤ vs.length := by
        have hpos := List.length_pos_iff.mpr (itemExprs_ne_nil e es)
        rw [hlength, ← length_itemExprs]
        omega
      have hsnd : (vs.map fun v => ((none : Option Text), v)).map Prod.snd = vs := by simp
      obtain ⟨t', hlist⟩ : ∃ t', (Expr.eval m (Grammar.rowOf (itemExprs (e :: es)))).run s =
          (.ok (.list t.pool.separators.size (Items.ofList vs)), t') := by
        rw [Grammar.rowOf_of_length hone, Expr.eval, Run.bind_ok hrun, hsnd]
        exact ⟨_, rfl⟩
      exact ⟨vs, t, _, t', hvalues, hlength, hlist, .inr ⟨hmany, _, rfl⟩⟩

/-- No name, call or unit has a meaning. -/
def noMeaning : Expr.Meaning where
  named _ := throw .missingKey
  call _ _ := throw .missingKey
  measure _ _ := throw .missingKey

/-- Two flags are one value, that of the second. -/
theorem second_flag_replaces_first :
    (Expr.eval noMeaning (Expr.parse "!a !b".toList)).run {} = (.ok (.string "!b".toList), {}) := by
  let a : Identifier := ⟨['a'], List.forall_mem_singleton.mpr rfl, .inl rfl, by decide +kernel⟩
  let b : Identifier := ⟨['b'], List.forall_mem_singleton.mpr rfl, .inl rfl, by decide +kernel⟩
  have hrow : "!a !b".toList = rowText [.flag a, .flag b] := rfl
  rw [hrow, eval_parse_rowText]
  rfl

end Element

end SheetPress
