import SheetPress.Source.Block
import SheetPress.Proofs.Expr.Lookahead

/-!
# Tokens tile the text

However a reader is asked, the tokens that it has scanned stand in the text one behind the other,
with nothing but blanks before and between them, and the text of each is what stands there
(`scanner_tiles`).  Only the end is an empty token, and nothing comes behind it: the next token
would be the same one again, and this is refused.

Asked for any token over and over, a reader comes to the end or to a mistake in the text, since
each other token takes something of the text away.
-/

set_option autoImplicit false

namespace SheetPress

open List

/-! ## Matches lie in the text -/

namespace Kind

/-- What is found is not longer than the text; the end is found where nothing is left. -/
theorem length_le_of_matchAt {k : Kind} {previous : Option Char} {rest : Text} {n : Nat}
    (h : k.matchAt previous rest = some n) : n ≤ rest.length := by
  by_cases hk : k = .finish
  · rw [hk, matchAt] at h
    split at h
    · obtain rfl := Option.some.inj h
      exact Nat.zero_le _
    · cases h
  · exact (consumes_matchAt hk previous rest n h).2

end Kind

/-! ## Tokens in their places -/

/-- The token stands in the source, behind the position and the blanks there. -/
structure Token.Spans (source : Text) (position : Nat) (t : Token) : Prop where
  behind : position ≤ t.start
  blank : ∀ c ∈ Source.slice source position t.start, Cursor.isBlank c = true
  ordered : t.start ≤ t.stop
  within : t.stop ≤ source.length
  text : t.text = Source.slice source t.start t.stop
  filled : t.kind ≠ .finish → t.start < t.stop
  finish : t.kind = .finish → t.start = source.length

/-- The tokens stand in the source one behind the other, with blanks between them.  The end is the
last one. -/
inductive Token.Tile (source : Text) : Nat → List Token → Prop where
  | nil (position : Nat) : Tile source position []
  | cons {position : Nat} {t : Token} {ts : List Token} (h : t.Spans source position)
      (hlast : t.kind = .finish → ts = []) (hrest : Tile source t.stop ts) :
      Tile source position (t :: ts)

namespace Cursor

variable {source : Text} {c d : Cursor}

/-- The place is one of the source. -/
structure Of (source : Text) (c : Cursor) : Prop where
  position : c.position ≤ source.length
  rest : c.rest = source.drop c.position

theorem of_start (source : Text) : (start source).Of source := ⟨Nat.zero_le _, rfl⟩

theorem Of.advance (h : c.Of source) {n : Nat} (hn : n ≤ c.rest.length) :
    (c.advance n).Of source := by
  rw [h.rest, length_drop] at hn
  have := h.position
  refine ⟨?_, ?_⟩
  · dsimp only [Cursor.advance]
    omega
  · rw [Cursor.advance, h.rest, drop_drop]

theorem Of.skipBlanks (h : c.Of source) : c.skipBlanks.Of source :=
  h.advance (Kind.length_takeWhile_le isBlank c.rest)

theorem take_rest (h : c.Of source) (n : Nat) :
    c.rest.take n = Source.slice source c.position (c.position + n) := by
  rw [Source.slice, h.rest, Nat.add_sub_cancel_left]

theorem blank_skipBlanks (h : c.Of source) :
    ∀ x ∈ Source.slice source c.position c.skipBlanks.position, isBlank x = true := by
  intro x hx
  have hskip : c.skipBlanks.position = c.position + (c.rest.takeWhile isBlank).length := rfl
  have htake := prefix_iff_eq_take.mp (List.takeWhile_prefix isBlank (l := c.rest))
  rw [hskip, ← take_rest h, ← htake] at hx
  exact all_eq_true.mp all_takeWhile x hx

/-- The next token stands behind the place, and the place behind the token is where it ends. -/
theorem Of.next (h : c.Of source) {allowed : Option (List Kind)} {t : Token}
    (hnext : c.next allowed = .ok (t, d)) :
    t.Spans source c.position ∧ d.Of source ∧ d.position = t.stop := by
  have hskip := h.skipBlanks
  have hblank := blank_skipBlanks h
  have hbehind : c.position ≤ c.skipBlanks.position := Nat.le_add_right _ _
  unfold Cursor.next at hnext
  dsimp only at hnext
  generalize c.skipBlanks = b at hnext hskip hblank hbehind
  split at hnext
  next t' ht =>
    cases hnext
    obtain ⟨k, -, hmatch⟩ := exists_of_findSome?_eq_some ht
    obtain ⟨n, hn, rfl⟩ := Option.map_eq_some_iff.mp hmatch
    have hle : n ≤ b.rest.length := Kind.length_le_of_matchAt hn
    have hadvance := hskip.advance hle
    dsimp only
    rw [Nat.add_sub_cancel_left]
    refine ⟨⟨hbehind, hblank, Nat.le_add_right _ _, hadvance.position, take_rest hskip n,
      fun hk => ?_, ?_⟩, hadvance, rfl⟩
    · exact Nat.lt_add_of_pos_right (Kind.consumes_matchAt hk _ _ _ hn).1
    · rintro rfl
      have hempty : b.rest = [] := by
        rw [Kind.matchAt] at hn
        split at hn
        next hrest => exact isEmpty_iff.mp hrest
        · cases hn
      have hlength := congrArg length hempty
      rw [hskip.rest, length_drop, length_nil] at hlength
      exact Nat.le_antisymm hskip.position (Nat.le_of_sub_eq_zero hlength)
  · cases hnext

theorem next_at_end {allowed : Option (List Kind)} {t : Token} (h : c.Of source)
    (hend : c.position = source.length) (hnext : c.next allowed = .ok (t, d)) :
    t = ⟨source.length, source.length, .finish, []⟩ := by
  obtain ⟨hspans, -, -⟩ := h.next hnext
  have hstart : t.start = source.length :=
    Nat.le_antisymm (Nat.le_trans hspans.ordered hspans.within) (hend ▸ hspans.behind)
  have hstop : t.stop = source.length :=
    Nat.le_antisymm hspans.within (hstart ▸ hspans.ordered)
  have hkind : t.kind = .finish := by
    by_contra hk
    exact absurd (hspans.filled hk) (by omega)
  have htext : t.text = [] := by
    rw [hspans.text, hstart, hstop, Source.slice, Nat.sub_self, take_zero]
  obtain ⟨start, stop, kind, text⟩ := t
  obtain rfl := hstart
  obtain rfl := hstop
  obtain rfl := hkind
  obtain rfl := htext
  rfl

end Cursor

/-! ## Requests -/

/-- What a reader can be asked for. -/
inductive Request where
  /-- A look at the next token; `none` is no restriction. -/
  | look (allowed : Option (List Kind))
  /-- The next token, whatever it is of what is allowed. -/
  | next (allowed : Option (List Kind))
  /-- The next token, if it is of the kind. -/
  | take (k : Kind)
  /-- The last token is given back. -/
  | giveBack

namespace Reader

/-- What a request makes of a reader. -/
def ask (q : Request) (r : Reader) : Except Fault Reader :=
  match q with
  | .look allowed => (r.look allowed).map Prod.snd
  | .next allowed => (r.look allowed).bind fun p => (p.2.take p.1.token.kind).map Prod.snd
  | .take k => (r.take k).map Prod.snd
  | .giveBack => r.giveBack

/-- The reader behind a row of requests; one that fails leaves it as it is. -/
def after (r : Reader) (qs : List Request) : Reader :=
  qs.foldl (fun r q => (r.ask q).toOption.getD r) r

theorem after_cons_ok {q : Request} {r r' : Reader} (h : r.ask q = .ok r') (qs : List Request) :
    r.after (q :: qs) = r'.after qs := by
  rw [after, foldl_cons, h]
  rfl

theorem after_cons_error {q : Request} {r : Reader} {f : Fault} (h : r.ask q = .error f)
    (qs : List Request) : r.after (q :: qs) = r.after qs := by
  rw [after, foldl_cons, h]
  rfl

/-- The tokens that were scanned and not given back. -/
def scanned (r : Reader) : List Token :=
  (r.taken.map Prod.fst).reverse ++ r.ahead.toList.map Ahead.token

/-- The tokens, the latest first, lead from the start of the source to the place, and each was
scanned at the place that is kept with it. -/
inductive Led (source : Text) : Cursor → List (Token × Cursor) → Prop where
  | start : Led source (Cursor.start source) []
  | step {before c : Cursor} {t : Token} {taken : List (Token × Cursor)}
      (hled : Led source before taken) (hlast : ∀ p ∈ taken.head?, p.1.kind ≠ .finish)
      (hspans : t.Spans source before.position) (hc : c.Of source) (hstop : c.position = t.stop) :
      Led source c ((t, before) :: taken)

/-- The token ahead stands behind the taken ones, of which none is the end. -/
structure Ahead.Fits (source : Text) (r : Reader) (a : Ahead) : Prop where
  spans : a.token.Spans source r.cursor.position
  behind : a.behind.Of source
  stop : a.behind.position = a.token.stop
  last : ∀ p ∈ r.taken.head?, p.1.kind ≠ .finish

/-- The reader has scanned the source from its start. -/
structure Scans (source : Text) (r : Reader) : Prop where
  led : Led source r.cursor r.taken
  ahead : ∀ a ∈ r.ahead, Ahead.Fits source r a

variable {source : Text} {r r' : Reader}

theorem Led.of {c : Cursor} {taken : List (Token × Cursor)} (h : Led source c taken) :
    c.Of source := by
  cases h with
  | start => exact Cursor.of_start source
  | step _ _ _ hc _ => exact hc

theorem scans_ofText (source : Text) : (ofText source).Scans source where
  led := .start
  ahead := by
    intro a ha
    cases ha

theorem Scans.notFinished (h : r.Scans source) {allowed : Option (List Kind)} {t : Token}
    {d : Cursor} (hnext : r.cursor.next allowed = .ok (t, d))
    (hnew : (r.taken.head?.any fun p => p.1 == t) = false) :
    ∀ p ∈ r.taken.head?, p.1.kind ≠ .finish := by
  obtain ⟨c, taken, ahead⟩ := r
  have hled := h.led
  dsimp only at hled hnext hnew ⊢
  cases hled with
  | start => simp
  | @step before _ t' taken' _ _ hspans hc hstop =>
    simp only [head?_cons, Option.mem_some_iff, forall_eq', Option.any_some,
      beq_eq_false_iff_ne] at hnew ⊢
    intro hfinish
    -- The end was taken, so it is scanned again.
    have hstart := hspans.finish hfinish
    have hend : c.position = source.length :=
      Nat.le_antisymm hc.position (hstop ▸ hstart ▸ hspans.ordered)
    have ht := Cursor.next_at_end hc hend hnext
    have htext : t'.text = [] := by
      rw [hspans.text, hstart, ← hstop, hend, Source.slice, Nat.sub_self, take_zero]
    refine hnew ?_
    rw [ht]
    obtain ⟨start, stop, kind, text⟩ := t'
    dsimp only at hstart hstop hfinish htext
    rw [hstart, ← hstop, hend, hfinish, htext]

theorem Scans.look (h : r.Scans source) {allowed : Option (List Kind)} {a : Ahead}
    (hlook : r.look allowed = .ok (a, r')) :
    r'.Scans source ∧ r'.ahead = some a ∧ r'.cursor = r.cursor ∧ r'.taken = r.taken := by
  unfold Reader.look at hlook
  cases hahead : r.ahead with
  | some b =>
    rw [hahead] at hlook
    have hsame : b = a ∧ r = r' := by
      dsimp only at hlook
      split at hlook
      · split at hlook
        · cases hlook
        · exact Prod.mk.inj (Except.ok.inj hlook)
      · exact Prod.mk.inj (Except.ok.inj hlook)
    obtain ⟨rfl, rfl⟩ := hsame
    exact ⟨h, hahead, rfl, rfl⟩
  | none =>
    rw [hahead] at hlook
    dsimp only at hlook
    cases hnext : r.cursor.next allowed with
    | error f =>
      rw [hnext] at hlook
      cases hlook
    | ok p =>
      obtain ⟨t, d⟩ := p
      rw [hnext] at hlook
      dsimp only at hlook
      cases hnew : r.taken.head?.any fun p => p.1 == t with
      | true => simp [hnew] at hlook
      | false =>
        simp only [hnew] at hlook
        cases hlook
        obtain ⟨hspans, hd, hstop⟩ := h.led.of.next hnext
        refine ⟨⟨h.led, fun b hb => ?_⟩, rfl, rfl, rfl⟩
        cases hb
        exact ⟨hspans, hd, hstop, h.notFinished hnext hnew⟩

theorem Scans.take (h : r.Scans source) {k : Kind} {t : Text} (htake : r.take k = .ok (t, r')) :
    r'.Scans source := by
  unfold Reader.take at htake
  cases hlook : r.look (some [k]) with
  | error f =>
    rw [hlook] at htake
    cases htake
  | ok p =>
    obtain ⟨a, r₁⟩ := p
    rw [hlook] at htake
    obtain ⟨h₁, hahead, -, -⟩ := h.look hlook
    dsimp only at htake
    split at htake
    · cases htake
      have hfits := h₁.ahead a hahead
      exact ⟨.step h₁.led hfits.last hfits.spans hfits.behind hfits.stop, by simp⟩
    · cases htake

theorem Scans.giveBack (h : r.Scans source) (hback : r.giveBack = .ok r') : r'.Scans source := by
  obtain ⟨c, taken, ahead⟩ := r
  have hled := h.led
  unfold Reader.giveBack at hback
  dsimp only at hled hback
  cases hled with
  | start =>
    cases ahead with
    | none => cases hback
    | some a =>
      cases hback
      exact scans_ofText source
  | step hled _ _ _ _ =>
    cases hback
    exact ⟨hled, by simp⟩

theorem exists_of_map_eq_ok {α β : Type} {x : Except Fault α} {f : α → β} {b : β}
    (h : x.map f = .ok b) : ∃ a, x = .ok a ∧ f a = b := by
  cases x with
  | error g => cases h
  | ok a => exact ⟨a, rfl, Except.ok.inj h⟩

/-- A request that is answered keeps the tokens in their places. -/
theorem Scans.ask (h : r.Scans source) {q : Request} (hask : r.ask q = .ok r') :
    r'.Scans source := by
  cases q with
  | look allowed =>
    obtain ⟨_, hlook, rfl⟩ := exists_of_map_eq_ok hask
    exact (h.look hlook).1
  | next allowed =>
    rw [Reader.ask] at hask
    cases hlook : r.look allowed with
    | error f =>
      rw [hlook] at hask
      cases hask
    | ok p =>
      rw [hlook] at hask
      obtain ⟨_, htake, rfl⟩ := exists_of_map_eq_ok hask
      exact (h.look hlook).1.take htake
  | take k =>
    obtain ⟨_, htake, rfl⟩ := exists_of_map_eq_ok hask
    exact h.take htake
  | giveBack => exact h.giveBack hask

theorem Scans.after (h : r.Scans source) (qs : List Request) : (r.after qs).Scans source := by
  induction qs generalizing r with
  | nil => exact h
  | cons q qs ih =>
    cases hask : r.ask q with
    | error f =>
      rw [after_cons_error hask]
      exact ih h
    | ok r' =>
      rw [after_cons_ok hask]
      exact ih (h.ask hask)

/-! ## The tokens of a reader -/

theorem Led.tile {c : Cursor} {taken : List (Token × Cursor)} (h : Led source c taken)
    {ts : List Token} (hlast : ts ≠ [] → ∀ p ∈ taken.head?, p.1.kind ≠ .finish)
    (hts : Token.Tile source c.position ts) :
    Token.Tile source 0 ((taken.map Prod.fst).reverse ++ ts) := by
  induction h generalizing ts with
  | start => exact hts
  | @step before c t taken _ hfirst hspans _ hstop ih =>
    rw [map_cons, reverse_cons, append_assoc]
    refine ih (fun _ => hfirst) (.cons hspans (fun hfinish => ?_) (hstop ▸ hts))
    by_contra hne
    exact hlast hne _ rfl hfinish

theorem Scans.tile (h : r.Scans source) : Token.Tile source 0 r.scanned := by
  refine h.led.tile ?_ ?_
  · intro hne
    cases hahead : r.ahead with
    | none =>
      rw [hahead] at hne
      exact absurd rfl hne
    | some a => exact (h.ahead a hahead).last
  · cases hahead : r.ahead with
    | none => exact .nil _
    | some a => exact .cons (h.ahead a hahead).spans (fun _ => rfl) (.nil _)

/-! ## Asking for any token -/

/-- No token but the end is scanned twice. -/
theorem Scans.isNew (h : r.Scans source) (hlast : ∀ p ∈ r.taken.head?, p.1.kind ≠ .finish)
    {t : Token} (ht : t.Spans source r.cursor.position) :
    (r.taken.head?.any fun p => p.1 == t) = false := by
  obtain ⟨c, taken, ahead⟩ := r
  have hled := h.led
  dsimp only at hled hlast ht ⊢
  cases hled with
  | start => rfl
  | @step before _ t' taken' _ _ hspans _ hstop =>
    simp only [head?_cons, Option.any_some, beq_eq_false_iff_ne]
    rintro rfl
    have hfilled := hspans.filled (hlast _ rfl)
    have hbehind := ht.behind
    omega

theorem ask_next (h : r.Scans source) (hahead : r.ahead = none)
    (hlast : ∀ p ∈ r.taken.head?, p.1.kind ≠ .finish) {t : Token} {d : Cursor}
    (hnext : r.cursor.next none = .ok (t, d)) :
    r.ask (.next none) = .ok ⟨d, (t, r.cursor) :: r.taken, none⟩ := by
  have hnew := h.isNew hlast (h.led.of.next hnext).1
  have hlook : r.look none = .ok (⟨t, none, d⟩, { r with ahead := some ⟨t, none, d⟩ }) := by
    simp [Reader.look, hahead, hnext, hnew]
  rw [Reader.ask, hlook]
  simp [Except.bind, Except.map, Reader.take, Reader.look]

theorem ask_next_error (hahead : r.ahead = none) {f : Fault}
    (hnext : r.cursor.next none = .error f) : r.ask (.next none) = .error f := by
  have hlook : r.look none = .error f := by simp [Reader.look, hahead, hnext]
  rw [Reader.ask, hlook]
  rfl

theorem after_finish (h : r.Scans source) (hfinish : ∃ p ∈ r.taken.head?, p.1.kind = .finish)
    (n : Nat) : r.after (List.replicate n (.next none)) = r := by
  have hask : ∃ f, r.ask (.next none) = .error f := by
    rw [Reader.ask]
    cases hlook : r.look none with
    | error f => exact ⟨f, rfl⟩
    | ok p =>
      obtain ⟨p', hp', hkind⟩ := hfinish
      obtain ⟨h', hahead, -, htaken⟩ := h.look hlook
      exact absurd hkind ((h'.ahead _ hahead).last p' (htaken ▸ hp'))
  obtain ⟨f, hf⟩ := hask
  induction n with
  | zero => rfl
  | succ n ih => rw [replicate_succ, after_cons_error hf, ih]

theorem after_error (hahead : r.ahead = none) {f : Fault} (hnext : r.cursor.next none = .error f)
    (n : Nat) : r.after (List.replicate n (.next none)) = r := by
  induction n with
  | zero => rfl
  | succ n ih => rw [replicate_succ, after_cons_error (ask_next_error hahead hnext), ih]

/-- Asked for any token again and again, the reader scans the tokens of the rest. -/
theorem scanned_after_next (h : r.Scans source) (hahead : r.ahead = none)
    (hlast : ∀ p ∈ r.taken.head?, p.1.kind ≠ .finish) (n : Nat) :
    (r.after (List.replicate n (.next none))).scanned =
      r.scanned ++ (tokensFrom n r.cursor).1 := by
  induction n generalizing r with
  | zero => exact (append_nil _).symm
  | succ n ih =>
    rw [tokensFrom]
    cases hnext : r.cursor.next none with
    | error f =>
      rw [after_error hahead hnext]
      exact (append_nil _).symm
    | ok p =>
      obtain ⟨t, d⟩ := p
      have hask := ask_next h hahead hlast hnext
      have h' := h.ask hask
      have hscanned : scanned ⟨d, (t, r.cursor) :: r.taken, none⟩ = r.scanned ++ [t] := by
        simp [scanned, hahead]
      rw [replicate_succ, after_cons_ok hask]
      dsimp only
      split
      next hk =>
        rw [after_finish h' ⟨_, rfl, beq_iff_eq.mp hk⟩, hscanned]
      next hk =>
        have hlast' : ∀ p ∈ (((t, r.cursor) :: r.taken).head?), p.1.kind ≠ .finish := by
          simpa using hk
        rw [ih h' rfl hlast', hscanned, append_assoc]
        rfl

end Reader

/-! ## All tokens -/

theorem length_tokensFrom_le (n : Nat) (c : Cursor) : (tokensFrom n c).1.length ≤ n := by
  induction n generalizing c with
  | zero => exact Nat.le_refl _
  | succ n ih =>
    rw [tokensFrom]
    split
    · exact Nat.zero_le _
    next t d _ =>
      split
      · exact Nat.succ_le_succ (Nat.zero_le n)
      · exact Nat.succ_le_succ (ih d)

/-- The tokens go on to the end of the text or to a mistake in it. -/
theorem tokensFrom_ends {n : Nat} {c : Cursor} (hn : c.rest.length < n) :
    ((tokensFrom n c).2 = none ∧ ∃ t ∈ (tokensFrom n c).1.getLast?, t.kind = .finish) ∨
      ∃ position, (tokensFrom n c).2 = some (.unexpected position) := by
  induction n generalizing c with
  | zero => exact absurd hn (Nat.not_lt_zero _)
  | succ n ih =>
    rw [tokensFrom]
    cases hnext : c.next none with
    | error f =>
      obtain ⟨position, rfl⟩ := Cursor.next_error hnext
      exact .inr ⟨position, rfl⟩
    | ok p =>
      obtain ⟨t, d⟩ := p
      dsimp only
      split
      next hk => exact .inl ⟨rfl, t, rfl, beq_iff_eq.mp hk⟩
      next hk =>
        have hshorter := ((Cursor.next_ok hnext).2.2 (by simpa using hk)).2
        rcases ih (c := d) (by omega) with ⟨hnone, t', ht', hkind⟩ | hmistake
        · refine .inl ⟨hnone, t', ?_, hkind⟩
          rw [getLast?_cons, Option.mem_def.mp ht']
          rfl
        · exact .inr hmistake

/-- However a reader is asked, its tokens tile the source.  Asked for any token over and over, it
gives the tokens of the source, which end with the end of the source or before a mistake in it. -/
theorem scanner_tiles (source : Text) :
    (∀ qs, Token.Tile source 0 ((Reader.ofText source).after qs).scanned) ∧
      ((Reader.ofText source).after
        (List.replicate (source.length + 1) (.next none))).scanned = (tokens source).1 ∧
      (tokens source).1.length ≤ source.length + 1 ∧
      (((tokens source).2 = none ∧ ∃ t ∈ (tokens source).1.getLast?, t.kind = .finish) ∨
        ∃ position, (tokens source).2 = some (.unexpected position)) := by
  have hscans := Reader.scans_ofText source
  refine ⟨fun qs => (hscans.after qs).tile, ?_, length_tokensFrom_le _ _, ?_⟩
  · rw [Reader.scanned_after_next hscans rfl (by simp [Reader.ofText])]
    rfl
  · exact tokensFrom_ends (Nat.lt_succ_self source.length)

end SheetPress
