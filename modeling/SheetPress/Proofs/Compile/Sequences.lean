import SheetPress.Proofs.Compile.Lists

/-!
# Lists as sequences

A list is built from words by `join` and `append`, and asked for its length and its items.  As
long as no list with a separator has another one joined to it, the answers are those of the
sequence of its words.  A separator counts as one of the entries that `join` goes on behind, so it
leaves one position empty.  Behind such a gap `nth` finds the word before the one that was asked
for, and `append` replaces the last word.
-/

set_option autoImplicit false

namespace SheetPress

open List

/-! ## Lists that are built in expressions -/

namespace Phrase

/-- Words with blanks between them. -/
def Row.words : Identifier → List Identifier → Row
  | w, [] => .one (.word w)
  | w, w' :: ws => .more (.word w) (words w' ws)

/-- Words with commas between them. -/
def Series.words : Identifier → List Identifier → Series
  | w, [] => .one (.one (.word w))
  | w, w' :: ws => .more (.one (.word w)) (words w' ws)

theorem Row.exprs_words (w : Identifier) (ws : List Identifier) :
    (Row.words w ws).exprs = (w :: ws).map fun w => Expr.word w.text := by
  induction ws generalizing w with
  | nil => rfl
  | cons w' ws ih =>
    rw [Row.words, Row.exprs, ih]
    rfl

theorem Series.exprs_words (w : Identifier) (ws : List Identifier) :
    (Series.words w ws).exprs =
      ((w :: ws).map fun w => Expr.word w.text).map fun e => (none, e) := by
  induction ws generalizing w with
  | nil => rfl
  | cons w' ws ih =>
    rw [Series.words, Series.exprs, ih]
    rfl

end Phrase

/-- A list that is built in an expression: words between blanks, words between commas and in
parentheses, two lists joined, or a word put behind a list. -/
inductive Built where
  | spaced (w : Identifier) (ws : List Identifier)
  | commas (w : Identifier) (ws : List Identifier)
  | join (a b : Built)
  | append (a : Built) (w : Identifier)

namespace Built

open Phrase

/-- How the list is written. -/
def row : Built → Row
  | spaced w ws => .words w ws
  | commas w ws => .one (.group (.words w ws))
  | join a b => .one (.call ListFunction.join.name (.more a.row (.one b.row)))
  | append a w => .one (.call ListFunction.append.name (.more a.row (.one (.one (.word w)))))

/-- How its length is asked for. -/
def lengthRow (t : Built) : Row := .one (.call ListFunction.length.name (.one t.row))

/-- How one of its items is asked for. -/
def nthRow (t : Built) (i : Nat) : Row :=
  .one (.call ListFunction.nth.name (.more t.row (.one (.one (.number (.ofNat i))))))

/-- The words that ought to be in the list. -/
def elements : Built → List Identifier
  | spaced w ws => w :: ws
  | commas w ws => w :: ws
  | join a b => a.elements ++ b.elements
  | append a w => a.elements ++ [w]

/-- The separator of the list; what a call gives has a comma. -/
def separator : Built → Option Text
  | spaced _ _ => none
  | commas _ [] => none
  | _ => some [',']

/-- The words of the list at their positions. -/
def spread : Built → Spread
  | spaced w ws => .ofList (w :: ws)
  | commas w ws => .ofList (w :: ws)
  | join a b => b.spread.onto (a.spread.size + a.separator.toList.length) a.spread
  | append a w => a.spread.place a.spread.size w

/-- No list with a separator has another one joined to it. -/
def Flush : Built → Prop
  | spaced _ _ => True
  | commas _ _ => True
  | join a b => a.Flush ∧ b.Flush ∧ a.separator = none
  | append a _ => a.Flush

theorem size_spread_pos (t : Built) : 0 < t.spread.size := by
  induction t with
  | spaced w ws => exact Nat.succ_pos _
  | commas w ws => exact Nat.succ_pos _
  | join a b iha => exact Spread.size_onto_pos iha _ b.spread
  | append a w => exact Spread.size_place_pos _ w a.spread

theorem elements_ne_nil (t : Built) : t.elements ≠ [] := by
  induction t with
  | spaced w ws => exact cons_ne_nil w ws
  | commas w ws => exact cons_ne_nil w ws
  | join a b iha => simp [elements, iha]
  | append a w => simp [elements]

theorem Flush.spread_eq {t : Built} (h : t.Flush) : t.spread = .ofList t.elements := by
  induction t with
  | spaced w ws => rfl
  | commas w ws => rfl
  | join a b iha ihb =>
    obtain ⟨ha, hb, hsep⟩ := h
    rw [spread, elements, iha ha, ihb hb, hsep, Spread.size_eq, Spread.words_ofList]
    exact Spread.onto_ofList a.elements b.elements
  | append a w iha =>
    rw [spread, elements, iha h, Spread.size_eq, Spread.words_ofList]
    exact Spread.place_ofList a.elements w

/-- Two such lists of which the first has a separator stand one position apart. -/
theorem entries_join {a b : Built} (ha : a.Flush) (hb : b.Flush) {sep : Text}
    (hsep : a.separator = some sep) :
    (join a b).spread.entries = Spread.numbered 0 a.elements ++
      Spread.numbered (a.elements.length + 1) b.elements := by
  rw [spread, ha.spread_eq, hb.spread_eq, hsep, Spread.size_eq, Spread.words_ofList]
  exact Spread.entries_gap a.elements b.elements

end Built

namespace Compile

open SheetPress.Expr (eval)

variable {inner : Compiler} {r : Nat} {s : Session}

/-! ## What they evaluate to -/

section Evaluate

variable {m : Expr.Meaning} {e : Expr} {sep : Option Text} {l : Spread}

/-- The expression gives the list, and nothing but the pool grows. -/
def Gives (m : Expr.Meaning) (s : Session) (e : Expr) (sep : Option Text) (l : Spread) : Prop :=
  ∃ v p, (eval m e).run s = (.ok v, { s with pool := p }) ∧ s.pool.Grows p ∧ p.Holds v sep l

theorem eval_word (m : Expr.Meaning) (s : Session) (w : Identifier) :
    (eval m (.word w.text)).run s = (.ok (.word w.text), { s with pool := s.pool }) := by
  rw [eval]
  rfl

theorem gives_word (w : Identifier) : Gives m s (.word w.text) none (.ofList [w]) :=
  ⟨_, _, eval_word m s w, .refl _, .word w⟩

theorem yield_words (ws : List Identifier) :
    Yield m s (ws.map fun w => .word w.text) (ws.map fun w => .word w.text) s.pool := by
  induction ws with
  | nil => exact yield_nil
  | cons w ws ih => exact .cons (eval_word m s w) ih

theorem gives_row (w : Identifier) (ws : List Identifier) :
    Gives m s (Phrase.Row.words w ws).expr none (.ofList (w :: ws)) := by
  rw [Phrase.Row.expr, Phrase.Row.exprs_words]
  cases ws with
  | nil => exact gives_word w
  | cons w' ws =>
    refine ⟨_, _, (yield_words (w :: w' :: ws)).row (by simp), Pool.grows_withList _ _, ?_⟩
    rw [← Spread.items_ofList]
    exact .list (Pool.getElem?_withList _ _)

theorem gives_commas (w : Identifier) (ws : List Identifier) :
    Gives m s (Phrase.Item.group (.words w ws)).expr (Built.commas w ws).separator
      (.ofList (w :: ws)) := by
  rw [Phrase.Item.expr, Phrase.Series.exprs_words]
  cases ws with
  | nil =>
    rw [map_singleton, map_singleton, Gives, eval_group]
    exact gives_word w
  | cons w' ws =>
    refine ⟨_, _, (yield_words (w :: w' :: ws)).list (by simp), Pool.grows_withList _ _, ?_⟩
    rw [← Spread.items_ofList]
    exact .list (Pool.getElem?_withList _ _)

end Evaluate

theorem gives_join (hs : Leaves r s) {e e' : Expr} {sep sep' : Option Text} {l m : Spread}
    (he : Gives (meaning inner r) s e sep l)
    (he' : ∀ p, Gives (meaning inner r) { s with pool := p } e' sep' m) :
    Gives (meaning inner r) s (.call ListFunction.join.text (some [(none, e), (none, e')]))
      (some [',']) (m.onto (l.size + sep.toList.length) l) := by
  obtain ⟨v, p, hv, hp, hold⟩ := he
  obtain ⟨v', p', hv', hp', hold'⟩ := he' p
  have hyield : Yield (meaning inner r) s [e, e'] [v, v'] p' := .cons hv (.cons hv' yield_nil)
  have hgrows := Pool.grows_withList p' (some [','])
  obtain ⟨items, sep'', hrun, hitems⟩ := run_join ((hold.mono hp').mono hgrows).run_listing
    (hold'.mono hgrows).run_listing (g := none) (fun _ h => nomatch h)
  rw [hitems l m rfl rfl, entries_items] at hrun
  exact ⟨_, _, eval_listCall (f := .join) hs hyield (Nat.le_refl 2)
      (Library.find?_join (.inl rfl)) hrun,
    ((hp.trans hp').trans hgrows).trans (Pool.grows_withList _ _),
    .list (Pool.getElem?_withList _ _)⟩

theorem gives_append (hs : Leaves r s) {e : Expr} {sep : Option Text} {l : Spread}
    (he : Gives (meaning inner r) s e sep l) (w : Identifier) :
    Gives (meaning inner r) s
      (.call ListFunction.append.text (some [(none, e), (none, .word w.text)]))
      (some [',']) (l.place l.size w) := by
  obtain ⟨v, p, hv, hp, hold⟩ := he
  have hyield : Yield (meaning inner r) s [e, .word w.text] [v, .word w.text] p :=
    .cons hv (.cons (eval_word _ _ w) yield_nil)
  have hgrows := Pool.grows_withList p (some [','])
  obtain ⟨items, sep', hrun, hitems⟩ := run_append (hold.mono hgrows).run_listing
    (Pool.Holds.word w).run_listing (cons_ne_nil _ _)
    (g := none) (fun _ h => nomatch h)
  rw [hitems l w rfl rfl] at hrun
  exact ⟨_, _, eval_listCall (f := .append) hs hyield (Nat.le_refl 2)
      (Library.find?_append (.inl rfl)) hrun,
    (hp.trans hgrows).trans (Pool.grows_withList _ _), .list (Pool.getElem?_withList _ _)⟩

/-- Every list that is built has its words at the positions that the calls put them at. -/
theorem gives_built (inner : Compiler) (hs : Leaves r s) (t : Built) :
    Gives (meaning inner r) s t.row.expr t.separator t.spread := by
  induction t generalizing s with
  | spaced w ws => exact gives_row w ws
  | commas w ws => exact gives_commas w ws
  | join a b iha ihb => exact gives_join hs (iha hs) fun p => ihb (s := { s with pool := p }) hs
  | append a w iha => exact gives_append hs (iha hs) w

/-! ## What is shown of them -/

/-- The text of a row, read and evaluated, is shown as `t`. -/
def Shows (inner : Compiler) (r : Nat) (s : Session) (row : Phrase.Row) (t : Text) : Prop :=
  ((valueText inner row.text r).run s).1 = .ok (some t)

/-- A list is shown as some words, their number is its length, and `found i` is the item that
`i` others precede. -/
structure Answers (inner : Compiler) (r : Nat) (s : Session) (t : Built) (ws : List Identifier)
    (found : Nat → Option Identifier) : Prop where
  shown : Shows inner r s t.row
    (Text.joinWith (t.separator.getD [] ++ [' ']) (ws.map Identifier.text))
  length : ws.length < 2 ^ 53 → Shows inner r s t.lengthRow (Text.ofNat ws.length)
  nth : ∀ i < ws.length, i + 1 < 2 ^ 53 → ∃ w ∈ found i, Shows inner r s (t.nthRow (i + 1)) w.text

theorem shows_built (hs : Leaves r s) (t : Built) :
    Shows inner r s t.row
      (Text.joinWith (t.separator.getD [] ++ [' ']) (t.spread.words.map Identifier.text)) := by
  obtain ⟨v, p, hv, -, hold⟩ := gives_built inner hs t
  have hne : v ≠ .nothing := by
    rintro rfl
    cases hold
  rw [Shows, run_valueText t.row hv hne hold.run_shown]

theorem shows_length (hs : Leaves r s) (t : Built) (hlt : t.spread.size < 2 ^ 53) :
    Shows inner r s t.lengthRow (Text.ofNat t.spread.size) := by
  obtain ⟨v, p, hv, -, hold⟩ := gives_built inner hs t
  have hyield : Yield (meaning inner r) s [t.row.expr] [v] p := .cons hv yield_nil
  have hrun := run_length (hold.mono (Pool.grows_withList p none))
  have heval := eval_otherCall (f := .length) hs hyield Library.find?_length
    (fun _ _ => Value.noConfusion) hrun
  have hshown := run_shown_number t.size_spread_pos hlt
    (Pool.getElem?_withNumber (p.withList none) _)
  rw [Shows, run_valueText t.lengthRow heval (by simp) hshown]

theorem shows_nth (hs : Leaves r s) (t : Built) {i : Nat} (hpos : 1 ≤ i) (hi : i ≤ t.spread.size)
    (hlt : i < 2 ^ 53) :
    ∃ w ∈ t.spread.nth? (i - 1), Shows inner r s (t.nthRow i) w.text := by
  obtain ⟨v, p, hv, -, hold⟩ := gives_built inner hs t
  have hyield : Yield (meaning inner r) s [t.row.expr, (Phrase.Item.number (.ofNat i)).expr]
      [v, .number p.quantities.size] (p.withNumber (Float.ofScientific i false 0)) :=
    .cons hv (.cons (eval_ofNat _ _ i) yield_nil)
  have hgrows := Pool.grows_withList (p.withNumber (Float.ofScientific i false 0)) (some [','])
  have hnumber := run_shown_number hpos hlt (hgrows.quantity (Pool.getElem?_withNumber p _))
  obtain ⟨w, hw, hrun⟩ := ((hold.mono (Pool.grows_withNumber p _)).mono hgrows).run_nth
    (n := .number p.quantities.size) hnumber hpos hi hlt
  refine ⟨w, hw, ?_⟩
  have heval := eval_otherCall (f := .nth) hs hyield Library.find?_nth
    (fun _ _ => Value.noConfusion) hrun
  rw [Shows, run_valueText (t.nthRow i) heval (by simp) (by rw [Value.shown]; rfl)]

/-- Every list answers by the positions of its words. -/
theorem answers_spread (inner : Compiler) (hs : Leaves r s) (t : Built) :
    Answers inner r s t t.spread.words t.spread.nth? where
  shown := shows_built hs t
  length := by
    rw [← Spread.size_eq]
    exact shows_length hs t
  nth := by
    intro i hi hlt
    rw [← Spread.size_eq] at hi
    exact shows_nth hs t (Nat.succ_pos i) hi hlt

/-- Where one position is left out between the words, each word but the first behind it is found
one too late. -/
theorem answers_gap (inner : Compiler) (hs : Leaves r s) {t : Built} {ws us : List Identifier}
    (ht : t.spread.entries = Spread.numbered 0 ws ++ Spread.numbered (ws.length + 1) us) :
    Answers inner r s t (ws ++ us) fun i => (ws ++ us)[if i ≤ ws.length then i else i - 1]? := by
  have h := answers_spread inner hs t
  rw [Spread.words_gap ht] at h
  refine ⟨h.shown, h.length, fun i hi hlt => ?_⟩
  obtain ⟨w, hw, hshows⟩ := h.nth i hi hlt
  refine ⟨w, ?_, hshows⟩
  by_cases hle : i ≤ ws.length
  · rw [Spread.nth?_before_gap ht hle] at hw
    rw [if_pos hle]
    exact hw
  · rw [length_append] at hi
    rw [Spread.nth?_behind_gap ht (by omega) hi] at hw
    rw [if_neg hle]
    exact hw

/-- Lists answer by the positions of their words.  Those to which no list was joined behind a
separator answer as the sequences of their words; if a list with a separator has another one
joined to it, then `nth` gives the word before from the second word of that list on, and a word
appended replaces the last one. -/
theorem lists_answer_by_position (inner : Compiler) (r : Nat) (s : Session) (hs : Leaves r s) :
    (∀ t : Built, Answers inner r s t t.spread.words t.spread.nth?) ∧
    (∀ t : Built, t.Flush → Answers inner r s t t.elements fun i => t.elements[i]?) ∧
    ∀ a b : Built, a.Flush → b.Flush → a.separator ≠ none →
      (Answers inner r s (.join a b) (a.elements ++ b.elements) fun i =>
        (a.elements ++ b.elements)[if i ≤ a.elements.length then i else i - 1]?) ∧
      ∀ w : Identifier, Answers inner r s (.append (.join a b) w)
        (a.elements ++ (b.elements.dropLast ++ [w])) fun i =>
          (a.elements ++ (b.elements.dropLast ++ [w]))[
            if i ≤ a.elements.length then i else i - 1]? := by
  refine ⟨answers_spread inner hs, fun t ht => ?_, fun a b ha hb hsep => ?_⟩
  · have h := answers_spread inner hs t
    rw [ht.spread_eq, Spread.words_ofList] at h
    refine ⟨h.shown, h.length, fun i hi hlt => ?_⟩
    simpa only [Spread.nth?_ofList] using h.nth i hi hlt
  · obtain ⟨sep, hsep⟩ := Option.ne_none_iff_exists'.mp hsep
    have hentries := Built.entries_join ha hb hsep
    refine ⟨answers_gap inner hs hentries, fun w => answers_gap inner hs ?_⟩
    exact Spread.entries_place_gap hentries b.elements_ne_nil w

/-- Two pairs of words, joined. -/
def joinedPairs (separated : Bool) : Built :=
  .join
    (if separated then .commas (.letter 'a' rfl) [.letter 'b' rfl]
      else .spaced (.letter 'a' rfl) [.letter 'b' rfl])
    (.commas (.letter 'c' rfl) [.letter 'd' rfl])

theorem lists_answer_by_position_pairs :
    Leaves 0 {} ∧ (joinedPairs false).Flush ∧
      (joinedPairs false).row.text = "join(a b, (c, d))".toList ∧
      (Answers (compiler 1) 0 {} (joinedPairs false) (joinedPairs false).elements fun i =>
        (joinedPairs false).elements[i]?) ∧
      (joinedPairs true).row.text = "join((a, b), (c, d))".toList ∧
      (Answers (compiler 1) 0 {} (joinedPairs true) (joinedPairs true).elements fun i =>
        (joinedPairs true).elements[if i ≤ 2 then i else i - 1]?) := by
  obtain ⟨-, hflush, hgap⟩ := lists_answer_by_position (compiler 1) 0 {} leaves_empty
  have hpairs : (joinedPairs false).Flush := ⟨trivial, trivial, rfl⟩
  exact ⟨leaves_empty, hpairs, by decide +kernel, hflush _ hpairs, by decide +kernel,
    (hgap (.commas (.letter 'a' rfl) [.letter 'b' rfl]) (.commas (.letter 'c' rfl)
      [.letter 'd' rfl]) trivial trivial (by decide)).1⟩

/-- The fourth of four words is not found behind a separator; the third one is, once more. -/
theorem nth_joined_repeats :
    (joinedPairs true).elements[3]? = some (.letter 'd' rfl) ∧
      ((valueText (compiler 1) "nth(join((a, b), (c, d)), 4)".toList 0).run {}).1 =
        .ok (some ['c']) := by
  have htext : ((joinedPairs true).nthRow 4).text = "nth(join((a, b), (c, d)), 4)".toList := by
    decide +kernel
  have hentries := Built.entries_join (a := .commas (.letter 'a' rfl) [.letter 'b' rfl])
    (b := .commas (.letter 'c' rfl) [.letter 'd' rfl]) trivial trivial rfl
  obtain ⟨w, hw, hshows⟩ := (answers_gap (compiler 1) leaves_empty hentries).nth 3
    (by decide) (by decide)
  cases hw
  rw [← htext]
  exact ⟨rfl, hshows⟩

end Compile

end SheetPress
