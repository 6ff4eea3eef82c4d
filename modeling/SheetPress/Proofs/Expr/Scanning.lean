import SheetPress.Proofs.Expr.Lookahead

/-!
# Tokens of a text, whatever is allowed

Where the first kind of all that matches is among the allowed ones, a restriction of the kinds
changes nothing.  So a reader can be followed along the tokens of a text (`Lexes`), without regard
to the sets with which it looks at them, as long as each set holds the kind that comes (`Stands`).

What comes first at a place depends on the text there, and on the character before it only for words
and units (`Cursor.At`).
-/

set_option autoImplicit false

namespace SheetPress

open List Text

namespace Cursor

variable {c d e : Cursor} {ts : List (Kind × Text)} {ks : List Kind}

/-! ## The tokens of a text -/

/-- The next token has the kind and the text, and `d` is the place behind it. -/
def Meets (c : Cursor) (k : Kind) (t : Text) (d : Cursor) : Prop :=
  ∃ token, c.next none = .ok (token, d) ∧ token.kind = k ∧ token.text = t

/-- The tokens lead from one place to another. -/
inductive Lexes : Cursor → List (Kind × Text) → Cursor → Prop where
  | nil (c : Cursor) : Lexes c [] c
  | cons {c d e : Cursor} {k : Kind} {t : Text} {ts : List (Kind × Text)} (h : c.Meets k t d)
      (hk : k ≠ .finish) (hrest : Lexes d ts e) : Lexes c ((k, t) :: ts) e

theorem Meets.length_lt {k : Kind} {t : Text} (h : c.Meets k t d)
    (hk : k ≠ .finish) : d.rest.length < c.rest.length := by
  obtain ⟨token, hnext, rfl, -⟩ := h
  exact ((next_ok hnext).2.2 hk).2

theorem Lexes.single {k : Kind} {t : Text} (h : c.Meets k t d)
    (hk : k ≠ .finish) : Lexes c [(k, t)] d := .cons h hk (.nil d)

theorem Lexes.append {us : List (Kind × Text)} (h : Lexes c ts d)
    (h' : Lexes d us e) : Lexes c (ts ++ us) e := by
  induction h with
  | nil => exact h'
  | cons hmeets hk _ ih => exact .cons hmeets hk (ih h')

theorem Lexes.uncons {p : Kind × Text}
    (h : Lexes c (p :: ts) e) : ∃ d, c.Meets p.1 p.2 d ∧ p.1 ≠ .finish ∧ Lexes d ts e := by
  obtain ⟨k, t⟩ := p
  cases h with
  | cons hmeets hk hrest => exact ⟨_, hmeets, hk, hrest⟩

theorem Lexes.split {us : List (Kind × Text)} (h : Lexes c (ts ++ us) e) :
    ∃ d, Lexes c ts d ∧ Lexes d us e := by
  induction ts generalizing c with
  | nil => exact ⟨c, .nil c, h⟩
  | cons p ts ih =>
    obtain ⟨d, hmeets, hk, hrest⟩ := h.uncons
    obtain ⟨d', hd', he⟩ := ih hrest
    exact ⟨d', .cons hmeets hk hd', he⟩

theorem Lexes.length_le (h : Lexes c ts d) :
    d.rest.length ≤ c.rest.length := by
  induction h with
  | nil => exact Nat.le_refl _
  | cons hmeets hk _ ih => exact Nat.le_trans ih (Nat.le_of_lt (hmeets.length_lt hk))

variable {token : Token}

theorem tokenOf_filter {kinds : List Kind} (h : c.tokenOf kinds = some token)
    (hk : token.kind ∈ ks) : c.tokenOf (kinds.filter fun k => ks.contains k) = some token := by
  induction kinds with
  | nil => exact h
  | cons k kinds ih =>
    rw [tokenOf, findSome?_cons] at h
    cases hmatch : k.matchAt c.previous c.rest with
    | none =>
      rw [hmatch] at h
      rw [filter_cons]
      split
      · rw [tokenOf, findSome?_cons, hmatch]
        exact ih h
      · exact ih h
    | some n =>
      rw [hmatch] at h
      obtain rfl := Option.some.inj h
      rw [filter_cons_of_pos (by simpa using hk), tokenOf, findSome?_cons, hmatch]
      rfl

/-- Where the first token is of a kind that stays allowed, narrowing the kinds changes nothing. -/
theorem next_filter {allowed : Option (List Kind)}
    (hks : candidates (some ks) = (candidates allowed).filter fun k => ks.contains k)
    (h : c.next allowed = .ok (token, d)) (hk : token.kind ∈ ks) :
    c.next (some ks) = .ok (token, d) := by
  unfold next at h ⊢
  dsimp only at h ⊢
  split at h
  next token' hfirst =>
    cases h
    rw [hks, tokenOf_filter hfirst hk]
  · cases h

theorem next_some (h : c.next none = .ok (token, d)) (hk : token.kind ∈ ks) :
    c.next (some ks) = .ok (token, d) := next_filter rfl h hk

theorem next_narrow {ks' : List Kind} (h : c.next (some ks) = .ok (token, d)) (hks : ks' ⊆ ks)
    (hk : token.kind ∈ ks') : c.next (some ks') = .ok (token, d) := by
  refine next_filter ?_ h hk
  simp only [candidates, filter_filter]
  refine filter_congr fun k _ => ?_
  have := @hks k
  grind

end Cursor

/-! ## Readers along the tokens -/

namespace Reader

/-- The reader stands at a place: if there is a token ahead, it is the one that comes there, and it
might have been of any of the kinds. -/
structure Stands (c : Cursor) (ks : List Kind) (r : Reader) : Prop where
  cursor : r.cursor = c
  sound : r.Sound
  allows : r.Allows ks
  ahead : ∀ a, r.ahead = some a → c.next none = .ok (a.token, a.behind)

variable {c d : Cursor} {k : Kind} {t : Text} {ks : List Kind} {r : Reader}

theorem Stands.mono {ks' : List Kind} (h : r.Stands c ks) (hks : ks' ⊆ ks) : r.Stands c ks' :=
  ⟨h.cursor, h.sound, h.allows.mono hks, h.ahead⟩

theorem Stands.look (h : r.Stands c ks) (hmeets : c.Meets k t d) (hk : k ∈ ks) :
    ∃ a r', r.look (some ks) = .ok (a, r') ∧ r'.Stands c ks ∧ r'.ahead = some a ∧
      a.token.kind = k ∧ a.token.text = t ∧ a.behind = d ∧ r'.taken = r.taken := by
  obtain ⟨token, hnext, rfl, rfl⟩ := hmeets
  have hnext' : r.cursor.next (some ks) = .ok (token, d) := by
    rw [h.cursor]
    exact Cursor.next_some hnext hk
  rcases look_cases h.sound fun _ h' => Option.some.inj h' ▸ h.allows with
    ⟨f, -, -, hfault⟩ | ⟨a, r', hlook, hsound, hahead, htoken, hallows, hcursor, htaken⟩
  · rw [hnext'] at hfault
    cases hfault
  · have ha : c.next none = .ok (a.token, a.behind) := by
      rcases htoken with htoken | htoken
      · exact h.ahead a htoken
      · rw [hnext'] at htoken
        cases htoken
        exact hnext
    obtain ⟨htoken, hbehind⟩ : token = a.token ∧ d = a.behind := by
      rw [hnext] at ha
      cases ha
      exact ⟨rfl, rfl⟩
    have hks := hallows ks h.allows fun wider h' => Option.some.inj h' ▸ List.Subset.refl ks
    refine ⟨a, r', hlook, ⟨hcursor.trans h.cursor, hsound, hks, fun b hb => ?_⟩, hahead, ?_, ?_,
      hbehind.symm, htaken⟩
    · obtain rfl : a = b := Option.some.inj (hahead ▸ hb)
      exact ha
    · rw [htoken]
    · rw [htoken]

theorem Stands.peek (h : r.Stands c ks) (hmeets : c.Meets k t d) (hk : k ∈ ks) :
    ∃ r', r.peek (some ks) = .ok (k, r') ∧ r'.Stands c ks := by
  obtain ⟨a, r', hlook, hr', -, hkind, -⟩ := h.look hmeets hk
  refine ⟨r', ?_, hr'⟩
  rw [Reader.peek, hlook, ← hkind]

theorem Stands.take (h : r.Stands c ks) (hmeets : c.Meets k t d) (hk : k ∈ ks) :
    ∃ r', r.take k = .ok (t, r') ∧ (k ≠ .finish → ∀ ks, r'.Stands d ks) := by
  have hk' : r.Stands c [k] := h.mono (by simpa using hk)
  obtain ⟨a, r₁, hlook, hr₁, hahead, hkind, htext, hbehind, htaken⟩ :=
    hk'.look hmeets (mem_singleton.mpr rfl)
  refine ⟨⟨a.behind, (a.token, r₁.cursor) :: r₁.taken, none⟩, ?_, fun hfinish ks => ?_⟩
  · rw [Reader.take, hlook]
    simp [hkind, htext]
  · have hend := hr₁.sound.ahead a hahead (by rwa [hkind])
    refine ⟨hbehind, sound_of_fresh ⟨hend.1, hr₁.sound.trail⟩ rfl, .of_fresh rfl, ?_⟩
    intro b hb
    cases hb

end Reader

/-! ## Marks and numbers -/

/-- An unsigned number as it is written: digits, and perhaps more digits behind a point. -/
structure Numeral where
  whole : Text
  fraction : Option Text
  whole_digits : ∀ c ∈ whole, isDigit c = true
  fraction_digits : ∀ t ∈ fraction, ∀ c ∈ t, isDigit c = true
  some_digit : 0 < whole.length + (fraction.getD []).length

/-- The text of a number. -/
def Numeral.text (n : Numeral) : Text :=
  n.whole ++ match n.fraction with | none => [] | some t => '.' :: t

theorem Numeral.exists_head (n : Numeral) :
    ∃ c r, n.text = c :: r ∧ (isDigit c = true ∨ c = '.') := by
  unfold text
  cases hwhole : n.whole with
  | cons c r => exact ⟨c, _, rfl, .inl (n.whole_digits c (by simp [hwhole]))⟩
  | nil =>
    cases hfraction : n.fraction with
    | some t => exact ⟨'.', t, rfl, .inr rfl⟩
    | none =>
      have hpos := n.some_digit
      rw [hwhole, hfraction] at hpos
      exact absurd hpos (by simp)

namespace Kind

/-- The first of all kinds that matches, and the length of the match. -/
def first (previous : Option Char) (rest : Text) : Option (Kind × Nat) :=
  all.findSome? fun k => (k.matchAt previous rest).map fun n => (k, n)

variable {previous : Option Char} {rest : Text}

theorem first_eq {k : Kind} {n i : Nat} (hall : all.drop i = k :: all.drop (i + 1))
    (hearlier : ∀ k' ∈ all.take i, k'.matchAt previous rest = none)
    (hk : k.matchAt previous rest = some n) : first previous rest = some (k, n) := by
  have hnone : (all.take i).findSome?
      (fun k => (k.matchAt previous rest).map fun n => (k, n)) = none := by
    rw [findSome?_eq_none_iff]
    intro k' hk'
    rw [hearlier k' hk']
    rfl
  rw [first, ← take_append_drop i all, findSome?_append, hnone, hall,
    findSome?_cons, hk]
  rfl

theorem takeWhile_digits {digits : Text} (h : ∀ c ∈ digits, isDigit c = true)
    (hrest : ∀ c ∈ rest.head?, isDigit c = false) :
    (digits ++ rest).takeWhile isDigit = digits := by
  rw [takeWhile_append_of_pos h]
  cases rest with
  | nil => simp
  | cons c r => simp [hrest c rfl]

theorem numeralAt_append (n : Numeral) (hrest : ∀ c ∈ rest.head?, isDigit c = false ∧ c ≠ '.') :
    numeralAt (n.text ++ rest) = some n.text.length := by
  have hdigit : ∀ c ∈ rest.head?, isDigit c = false := fun c hc => (hrest c hc).1
  have hpos := n.some_digit
  unfold numeralAt Numeral.text
  cases hfraction : n.fraction with
  | none =>
    rw [hfraction] at hpos
    have hwhole : 0 < n.whole.length := hpos
    rw [append_nil, takeWhile_digits n.whole_digits hdigit]
    dsimp only
    rw [drop_left]
    cases rest with
    | nil => simp [hwhole]
    | cons c r =>
      have hc := (hrest c rfl).2
      grind
  | some t =>
    rw [hfraction, Option.getD_some] at hpos
    have hpoint : isDigit '.' = false := by decide
    dsimp only
    rw [append_assoc, takeWhile_digits n.whole_digits (by simpa using hpoint),
      drop_left]
    change (if 0 < n.whole.length + ((t ++ rest).takeWhile isDigit).length then
      some (n.whole.length + 1 + ((t ++ rest).takeWhile isDigit).length) else none) = _
    rw [takeWhile_digits (n.fraction_digits t hfraction) hdigit, if_pos hpos]
    simp only [length_append, length_cons]
    congr 1
    omega

/-- Nothing that is tried before numbers begins like one. -/
theorem matchAt_digit {k : Kind} (hk : k ∈ all.take 23) {c : Char}
    (hc : isDigit c = true ∨ c = '.') : k.matchAt previous (c :: rest) = none := by
  have hne : ∀ x : Char, isDigit x = false → x ≠ '.' → c ≠ x := by
    rintro x hx hpoint rfl
    rcases hc with hc | hc
    · rw [hx] at hc
      cases hc
    · exact hpoint hc
  have hafter : ∀ x mark, isDigit x = false → x ≠ '.' →
      after? (x :: mark) (c :: rest) = none := by
    intro x mark hx hpoint
    rw [after?, if_neg (Ne.symm (hne x hx hpoint))]
  cases k with
  | unit =>
    have hunits : ∀ u ∈ Unit.all, u ≠ [] ∧
        u.all (fun x => !isDigit x && x != '.') = true := by decide
    rw [matchAt, unitAt]
    split
    · rfl
    · rw [findSome?_eq_none_iff]
      intro u hu
      obtain ⟨hu, hmark⟩ := hunits u hu
      obtain ⟨x, mark, rfl⟩ := exists_cons_of_ne_nil hu
      rw [hafter x mark (by simp_all) (by simp_all)]
  | minus =>
    rw [matchAt]
    unfold minusAt
    split
    next heq => exact absurd (cons.inj heq).1 (hne '-' (by decide) (by decide))
    · rfl
  | sign =>
    rw [matchAt]
    unfold signAt
    split
    next heq => exact absurd (cons.inj heq).1 (hne '-' (by decide) (by decide))
    next heq => exact absurd (cons.inj heq).1 (hne '-' (by decide) (by decide))
    · rfl
  | _ =>
    first
    | exact absurd hk (by decide)
    | simp (disch := decide) [matchAt, oneOf, wholeWord, exactly, startsWith, hafter,
        quotedBy, hne]

theorem first_numeral (n : Numeral) (hrest : ∀ c ∈ rest.head?, isDigit c = false ∧ c ≠ '.') :
    first previous (n.text ++ rest) = some (.numeral, n.text.length) := by
  obtain ⟨c, r, htext, hc⟩ := n.exists_head
  refine first_eq (i := 23) rfl (fun k hk => ?_) (numeralAt_append n hrest)
  rw [htext]
  exact matchAt_digit hk hc

theorem first_negation (h : previous.any isName = false) (rest : Text) :
    first previous ("not".toList ++ ' ' :: rest) = some (.negation, 3) := by
  refine first_eq (i := 12) rfl (fun k hk => ?_) ?_
  · cases k <;> first | rfl | exact absurd hk (by decide)
  · change (if !previous.any isName && true then some 3 else none) = _
    rw [h]
    rfl

end Kind

namespace Cursor

/-- Behind the blanks at a place comes the text, and no name goes on into it. -/
def At (c : Cursor) (s : Text) : Prop :=
  c.skipBlanks.rest = s ∧ c.skipBlanks.previous.any isName = false

variable {c : Cursor} {s : Text}

theorem skipBlanks_eq (h : ∀ x ∈ c.rest.head?, isBlank x = false) : c.skipBlanks = c := by
  have hblank : c.rest.takeWhile isBlank = [] := by
    cases hrest : c.rest with
    | nil => rfl
    | cons x r => simp [h x (by rw [hrest]; rfl)]
  simp [skipBlanks, advance, hblank]

theorem at_of_rest (h : c.rest = s) (hs : ∀ x ∈ s.head?, isBlank x = false)
    (hprevious : c.previous.any isName = false) : c.At s := by
  rw [At, skipBlanks_eq (h ▸ hs)]
  exact ⟨h, hprevious⟩

theorem skipBlanks_blank (h : c.rest = ' ' :: s) (hs : ∀ x ∈ s.head?, isBlank x = false) :
    c.skipBlanks = ⟨c.position + 1, some ' ', s⟩ := by
  have hblank : c.rest.takeWhile isBlank = [' '] := by
    have hspace : isBlank ' ' = true := by decide
    rw [h, takeWhile_cons, if_pos hspace]
    cases s with
    | nil => rfl
    | cons x r => simp [hs x rfl]
  rw [skipBlanks, hblank, advance, h]
  rfl

theorem at_of_blank (h : c.rest = ' ' :: s) (hs : ∀ x ∈ s.head?, isBlank x = false) : c.At s := by
  rw [At, skipBlanks_blank h hs]
  exact ⟨rfl, show (some ' ').any isName = false by decide⟩

/-- The token that comes first of all kinds is the next one. -/
theorem meets_of_first {k : Kind} {n : Nat} (hc : c.skipBlanks.rest = s)
    (hfirst : Kind.first c.skipBlanks.previous s = some (k, n)) :
    c.Meets k (s.take n) (c.skipBlanks.advance n) := by
  let token : Token := ⟨c.skipBlanks.position, c.skipBlanks.position + n, k, s.take n⟩
  have htoken : c.skipBlanks.tokenOf Kind.all = some token := by
    have hmap := congrArg (Option.map fun p : Kind × Nat =>
      (⟨c.skipBlanks.position, c.skipBlanks.position + p.2, p.1, s.take p.2⟩ : Token)) hfirst
    rw [Kind.first, map_findSome?] at hmap
    rw [tokenOf, hc]
    simpa [Function.comp_def] using hmap
  refine ⟨token, ?_, rfl, rfl⟩
  unfold next
  simp only [candidates, htoken]
  simp [token]

end Cursor

end SheetPress
