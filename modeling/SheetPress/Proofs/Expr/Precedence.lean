import SheetPress.Proofs.Compile.Run
import SheetPress.Proofs.Expr.Scanning

/-!
# Precedence

A formula is written with blanks around its operators, and with parentheses only where a part binds
less tightly than its place asks for.  Read back, it gives the tree it was written from, and so the
value that the operators give from left to right (`formula_read_back`).

The tokens of a text are found first (`Formula.scans_text`).  Then each rank of the grammar reads
the tokens of what binds as tightly as itself.  A rank whose operators lean to the left is a loop:
reading the left operand of an operator leads into the loop with the operand as its accumulator
(`Reaches`).
-/

set_option autoImplicit false

namespace SheetPress

open List

/-- How tightly an expression binds, from the loosest to the tightest. -/
inductive Rank where
  | either
  | both
  | negation
  | comparison
  | sum
  | product
  | atom
  deriving DecidableEq

namespace Rank

/-- The place of a rank among all. -/
def index : Rank → Nat
  | either => 0
  | both => 1
  | negation => 2
  | comparison => 3
  | sum => 4
  | product => 5
  | atom => 6

/-- The next tighter rank. -/
def tighter : Rank → Rank
  | either => both
  | both => negation
  | negation => comparison
  | comparison => sum
  | sum => product
  | product => atom
  | atom => atom

/-- The first rank binds less tightly than the second. -/
def looser (a b : Rank) : Bool := decide (a.index < b.index)

theorem eq_of_index_eq {a b : Rank} (h : a.index = b.index) : a = b := by
  cases a <;> cases b <;> first | rfl | exact absurd h (by decide)

theorem index_le (a : Rank) : a.index ≤ atom.index := by
  cases a <;> decide

theorem index_tighter {a : Rank} (h : a ≠ atom) : a.tighter.index = a.index + 1 := by
  cases a <;> first | rfl | exact absurd rfl h

theorem looser_tighter {own a : Rank} (ha : a ≠ atom) (h : own ≠ a) :
    own.looser a.tighter = own.looser a := by
  have hne : own.index ≠ a.index := fun heq => h (eq_of_index_eq heq)
  rw [looser, looser, index_tighter ha]
  exact decide_eq_decide.mpr (by omega)

theorem looser_self (a : Rank) : a.looser a = false := by
  simp [looser]

end Rank

/-- An operator between two operands. -/
inductive Operator where
  | operation (op : Operation)
  | comparison (c : Comparison)
  | both
  | either

namespace Operator

/-- How tightly an operator binds. -/
def rank : Operator → Rank
  | .operation .add | .operation .sub => .sum
  | .operation .mul | .operation .div => .product
  | .comparison _ => .comparison
  | .both => .both
  | .either => .either

/-- How an operator is written. -/
def symbol : Operator → Text
  | .operation .add => "+".toList
  | .operation .sub => "-".toList
  | .operation .mul => "*".toList
  | .operation .div => "/".toList
  | .comparison .lt => "<".toList
  | .comparison .le => "<=".toList
  | .comparison .eq => "==".toList
  | .comparison .ne => "!=".toList
  | .comparison .gt => ">".toList
  | .comparison .ge => ">=".toList
  | .both => "and".toList
  | .either => "or".toList

/-- The token of an operator; that of a minus takes the blank behind it. -/
def token : Operator → Kind × Text
  | .operation .add => (.plus, "+".toList)
  | .operation .sub => (.minus, "- ".toList)
  | .operation .mul => (.times, "*".toList)
  | .operation .div => (.over, "/".toList)
  | .comparison .lt => (.below, "<".toList)
  | .comparison .le => (.atMost, "<=".toList)
  | .comparison .eq => (.equals, "==".toList)
  | .comparison .ne => (.differs, "!=".toList)
  | .comparison .gt => (.above, ">".toList)
  | .comparison .ge => (.atLeast, ">=".toList)
  | .both => (.both, "and".toList)
  | .either => (.either, "or".toList)

/-- The expression of an operator. -/
def join : Operator → Expr → Expr → Expr
  | .operation op => .operation op
  | .comparison c => .comparison c
  | .both => .both
  | .either => .either

/-- What an operator makes of two values. -/
def apply (v w : Value) : Operator → Calc Value
  | .operation op => Value.operate op v w
  | .comparison c => do return .scalar (.truth (← Value.compare c v w))
  | .both => do if ← v.isTrue then return w else return v
  | .either => do if ← v.isTrue then return v else return w

end Operator

/-- A formula of unsigned numbers. -/
inductive Formula where
  | number (n : Numeral)
  | binary (op : Operator) (a b : Formula)
  | negation (a : Formula)

/-- Put something between two marks, if it needs them. -/
def enclose {α : Type} (needed : Bool) (first last : α) (l : List α) : List α :=
  if needed then first :: (l ++ [last]) else l

namespace Formula

/-- The text of a formula at a place that asks for a rank: parentheses stand where the formula binds
less tightly. -/
def text : Formula → Rank → Text
  | .number n, _ => n.text
  | .binary op a b, rank =>
    enclose (op.rank.looser rank) '(' ')'
      (text a op.rank ++ ' ' :: (op.symbol ++ ' ' :: text b op.rank.tighter))
  | .negation a, rank =>
    enclose (Rank.negation.looser rank) '(' ')' ("not ".toList ++ text a .negation)

/-- The tokens of that text. -/
def tokens : Formula → Rank → List (Kind × Text)
  | .number n, _ => [(.numeral, n.text)]
  | .binary op a b, rank =>
    enclose (op.rank.looser rank) (.opening, ['(']) (.closing, [')'])
      (tokens a op.rank ++ op.token :: tokens b op.rank.tighter)
  | .negation a, rank =>
    enclose (Rank.negation.looser rank) (.opening, ['(']) (.closing, [')'])
      ((.negation, "not".toList) :: tokens a .negation)

/-- An expression in parentheses is a list of one item. -/
def grouped (needed : Bool) (e : Expr) : Expr := if needed then .list [(none, e)] else e

/-- The expression that the text stands for. -/
def expr : Formula → Rank → Expr
  | .number n, _ => .numeral n.text
  | .binary op a b, rank =>
    grouped (op.rank.looser rank) (op.join (expr a op.rank) (expr b op.rank.tighter))
  | .negation a, rank => grouped (Rank.negation.looser rank) (.negation (expr a .negation))

/-- The value of a formula: operands first, from left to right, and both of them always. -/
def value : Formula → Calc Value
  | .number n => Calc.newNumber (.bare ((Decimal.readFloat? n.text).getD 0.0))
  | .binary op a b => do
    let v ← value a
    let w ← value b
    op.apply v w
  | .negation a => do
    let v ← value a
    return .scalar (.truth (!(← v.isTrue)))

end Formula

/-! ## Tokens -/

open Cursor (Lexes)

namespace Formula

variable {s : Text} {ts : List (Kind × Text)}

/-- No number and no name goes on into the text. -/
def Ends (rest : Text) : Prop := rest = [] ∨ ∃ r, rest = ' ' :: r ∨ rest = ')' :: r

theorem first_operator (op : Operator) (s : Text) :
    Kind.first (some ' ') (op.symbol ++ ' ' :: s) = some (op.token.1, op.token.2.length) := by
  rcases op with (_ | _ | _ | _) | (_ | _ | _ | _ | _ | _) | _ | _ <;> rfl

theorem meets_operator (op : Operator) {c : Cursor}
    (hc : c.rest = ' ' :: (op.symbol ++ ' ' :: s)) (hs : ∀ x ∈ s.head?, Cursor.isBlank x = false) :
    ∃ d, c.Meets op.token.1 op.token.2 d ∧ d.At s := by
  have hsymbol : ∀ x ∈ (op.symbol ++ ' ' :: s).head?, Cursor.isBlank x = false := by
    rcases op with (_ | _ | _ | _) | (_ | _ | _ | _ | _ | _) | _ | _ <;>
    · rintro x ⟨⟩
      decide
  have hskip := Cursor.skipBlanks_blank hc hsymbol
  have htext : (op.symbol ++ ' ' :: s).take op.token.2.length = op.token.2 := by
    rcases op with (_ | _ | _ | _) | (_ | _ | _ | _ | _ | _) | _ | _ <;> rfl
  have hmeets := Cursor.meets_of_first (Cursor.at_of_blank hc hsymbol).1
    (show _ = some (op.token.1, op.token.2.length) by rw [hskip]; exact first_operator op s)
  rw [hskip, htext] at hmeets
  refine ⟨_, hmeets, ?_⟩
  -- The minus has taken the blank behind it; all others leave it.
  rcases op with (_ | _ | _ | _) | (_ | _ | _ | _ | _ | _) | _ | _
  case operation.sub =>
    exact Cursor.at_of_rest rfl hs (show (some ' ').any Text.isName = false by decide)
  all_goals exact Cursor.at_of_blank rfl hs

/-- Before the end of a number or a word, the text has these tokens, whatever goes on behind it. -/
structure Scans (s : Text) (ts : List (Kind × Text)) : Prop where
  unblank : ∀ rest, ∀ x ∈ (s ++ rest).head?, Cursor.isBlank x = false
  lexes : ∀ (c : Cursor) (rest : Text), c.At (s ++ rest) → Ends rest →
    ∃ d, Lexes c ts d ∧ d.rest = rest

theorem scans_number (n : Numeral) : Scans n.text [(.numeral, n.text)] := by
  obtain ⟨x, r, htext, hx⟩ := n.exists_head
  refine ⟨fun rest y hy => ?_, fun c rest hc hrest => ?_⟩
  · rw [htext] at hy
    obtain rfl : x = y := Option.some.inj hy
    have hblank : ∀ b : Char, Text.isDigit b = false → b ≠ '.' → (x == b) = false := by
      intro b hb hpoint
      rw [beq_eq_false_iff_ne]
      rintro rfl
      rcases hx with hx | hx
      · rw [hb] at hx
        cases hx
      · exact hpoint hx
    simp (disch := decide) [Cursor.isBlank, hblank]
  · have hend : ∀ c ∈ rest.head?, Text.isDigit c = false ∧ c ≠ '.' := by
      rcases hrest with rfl | ⟨r, rfl | rfl⟩
      · rintro c ⟨⟩
      · rintro c ⟨⟩
        decide
      · rintro c ⟨⟩
        decide
    have hmeets := Cursor.meets_of_first hc.1 (Kind.first_numeral n hend)
    rw [take_left] at hmeets
    refine ⟨_, .single hmeets (by decide), ?_⟩
    rw [Cursor.advance, hc.1, drop_left]

theorem Scans.enclosed (h : Scans s ts) (needed : Bool) :
    Scans (enclose needed '(' ')' s)
      (enclose needed (.opening, ['(']) (.closing, [')']) ts) := by
  cases needed with
  | false => exact h
  | true =>
    refine ⟨fun rest x hx => ?_, fun c rest hc hrest => ?_⟩
    · cases hx
      decide
    · have hc : c.At ('(' :: (s ++ ')' :: rest)) := by simpa [enclose] using hc
      have hopen := Cursor.meets_of_first hc.1 (show _ = some (.opening, 1) from rfl)
      have hinner : (c.skipBlanks.advance 1).At (s ++ ')' :: rest) := by
        refine Cursor.at_of_rest ?_ (h.unblank _) ?_ <;> rw [Cursor.advance, hc.1]
        · rfl
        · exact show (some '(').any Text.isName = false by decide
      obtain ⟨d, hlexes, hd⟩ := h.lexes _ _ hinner (.inr ⟨rest, .inr rfl⟩)
      have hskip : d.skipBlanks = d := by
        refine Cursor.skipBlanks_eq fun x hx => ?_
        rw [hd] at hx
        cases hx
        decide
      have hmark : d.skipBlanks.rest = ')' :: rest := by rw [hskip, hd]
      have hclose := Cursor.meets_of_first hmark (show _ = some (.closing, 1) from rfl)
      refine ⟨_, .cons hopen (by decide) (hlexes.append (.single hclose (by decide))), ?_⟩
      rw [hskip, Cursor.advance, hd]
      rfl

theorem Scans.binary {s' : Text} {ts' : List (Kind × Text)} (op : Operator) (h : Scans s ts)
    (h' : Scans s' ts') :
    Scans (s ++ ' ' :: (op.symbol ++ ' ' :: s')) (ts ++ op.token :: ts') := by
  refine ⟨fun rest => ?_, fun c rest hc hrest => ?_⟩
  · rw [append_assoc]
    exact h.unblank _
  · have hc : c.At (s ++ ' ' :: (op.symbol ++ ' ' :: (s' ++ rest))) := by simpa using hc
    obtain ⟨d₁, hleft, hd₁⟩ := h.lexes c _ hc (.inr ⟨_, .inl rfl⟩)
    obtain ⟨d₂, hop, hd₂⟩ := meets_operator op hd₁ (h'.unblank rest)
    obtain ⟨d₃, hright, hd₃⟩ := h'.lexes d₂ rest hd₂ hrest
    have hfinish : op.token.1 ≠ .finish := by
      rcases op with (_ | _ | _ | _) | (_ | _ | _ | _ | _ | _) | _ | _ <;> decide
    exact ⟨d₃, hleft.append (.cons hop hfinish hright), hd₃⟩

theorem Scans.negation (h : Scans s ts) :
    Scans ("not ".toList ++ s) ((.negation, "not".toList) :: ts) := by
  refine ⟨fun rest x hx => ?_, fun c rest hc hrest => ?_⟩
  · cases hx
    decide
  · have hc : c.At ("not".toList ++ ' ' :: (s ++ rest)) := by simpa using hc
    have hmeets := Cursor.meets_of_first hc.1 (Kind.first_negation hc.2 (s ++ rest))
    have hinner : (c.skipBlanks.advance 3).At (s ++ rest) := by
      refine Cursor.at_of_blank ?_ (h.unblank rest)
      rw [Cursor.advance, hc.1]
      rfl
    obtain ⟨d, hlexes, hd⟩ := h.lexes _ rest hinner hrest
    exact ⟨d, .cons hmeets (by decide) hlexes, hd⟩

theorem scans_text (t : Formula) (rank : Rank) : Scans (t.text rank) (t.tokens rank) := by
  induction t generalizing rank with
  | number n => exact scans_number n
  | binary op a b iha ihb => exact ((iha _).binary op (ihb _)).enclosed _
  | negation a ih => exact (ih _).negation.enclosed _

end Formula

/-! ## Reading tokens -/

namespace Grammar

variable {c d : Cursor}

open Rank (tighter)

/-- The procedure that reads what binds as tightly as a rank; the number bounds its own loop. -/
def tier (inner : Reader → Parsed) (loops : Nat) : Rank → Nat → Reader → Parsed
  | .either => chained (conjunction inner loops) afterEither none eitherOf
  | .both => chained (condition inner loops loops) afterBoth none bothOf
  | .negation => condition inner loops
  | .comparison => chained (sum inner loops) afterComparison (some comparisons) comparisonOf
  | .sum => chained (product inner loops) afterSum (some [.plus, .minus]) sumOf
  | .product => chained (signed inner loops) afterProduct (some [.times, .over]) productOf
  | .atom => signed inner

/-- The kinds that may begin what the procedure reads. -/
def before : Rank → List Kind
  | .either | .both | .negation => items
  | .comparison | .sum | .product | .atom => operands

/-- The kinds with which the procedure looks for what follows. -/
def after : Rank → List Kind
  | .either => afterEither
  | .both | .negation => afterBoth
  | .comparison => afterComparison
  | .sum => afterSum
  | .product | .atom => afterProduct

/-- The kinds with which the procedure looks again at an operator. -/
def again : Rank → Option (List Kind)
  | .comparison => some comparisons
  | .sum => some [.plus, .minus]
  | .product => some [.times, .over]
  | .either | .both | .negation | .atom => none

/-- The operators of a rank. -/
def operators : Rank → Kind → Option (Expr → Expr → Expr)
  | .either => eitherOf
  | .both => bothOf
  | .comparison => comparisonOf
  | .sum => sumOf
  | .product => productOf
  | .negation | .atom => fun _ => none

/-- The words that join conditions, and the ends. -/
def conditionEnds : List Kind := [.both, .either, .finish, .closing]

/-- The kinds before which the procedure stops: the ends, and the operators that bind less
tightly. -/
def stops : Rank → List Kind
  | .either => [.finish, .closing]
  | .both => [.either, .finish, .closing]
  | .negation | .comparison => conditionEnds
  | .sum => comparisons ++ conditionEnds
  | .product => .plus :: .minus :: (comparisons ++ conditionEnds)
  | .atom => .times :: .over :: .plus :: .minus :: (comparisons ++ conditionEnds)

/-- The rank has operators, which lean to the left. -/
def Leans (rank : Rank) : Prop := rank ≠ .negation ∧ rank ≠ .atom

theorem tier_of_leans {inner : Reader → Parsed} {loops n : Nat} {rank : Rank} (h : Leans rank) :
    tier inner loops rank n =
      chained (tier inner loops rank.tighter loops) (after rank) (again rank) (operators rank)
        n := by
  cases rank with
  | negation => exact absurd rfl h.1
  | atom => exact absurd rfl h.2
  | _ => rfl

/-- From the one place to the other, the procedure reads the expression. -/
def Reading (p : Reader → Parsed) (c d : Cursor) (before after : List Kind) (e : Expr) : Prop :=
  ∀ r : Reader, r.Stands c before → ∃ r', p r = (e, some r') ∧ r'.Stands d after

/-- At the place comes a token of one of the kinds. -/
def Follows (d : Cursor) (ks : List Kind) : Prop := ∃ k t d', d.Meets k t d' ∧ k ∈ ks

theorem Follows.mono {ks ks' : List Kind} (h : Follows d ks) (hks : ks ⊆ ks') :
    Follows d ks' := by
  obtain ⟨k, t, d', hmeets, hk⟩ := h
  exact ⟨k, t, d', hmeets, hks hk⟩

/-- The procedure of a rank reads the tokens as the expression, wherever they stand before something
at which it stops, if its limits exceed the length of the text. -/
def Parses (loops : Nat) (rank : Rank) (ts : List (Kind × Text)) (e : Expr) : Prop :=
  ∀ (depth n : Nat) (c d : Cursor), Lexes c ts d → Follows d (stops rank) →
    c.rest.length ≤ depth → c.rest.length < loops → c.rest.length < n →
    Reading (tier (listOf loops depth) loops rank n) c d (before rank) (after rank) e

/-- Reading the tokens leads into the loop of a rank, with the expression so far. -/
def Reaches (loops : Nat) (rank : Rank) (ts : List (Kind × Text)) (e : Expr) : Prop :=
  ∀ (depth n : Nat) (c d : Cursor), Lexes c ts d → Follows d (stops rank.tighter) →
    c.rest.length ≤ depth → c.rest.length < loops → c.rest.length < n →
    ∀ r : Reader, r.Stands c (before rank) → ∃ r' n',
      tier (listOf loops depth) loops rank n r =
        chain (tier (listOf loops depth) loops rank.tighter loops) (after rank) (again rank)
          (operators rank) n' e r' ∧
      r'.Stands d (after rank) ∧ d.rest.length < n'

variable {loops : Nat} {rank : Rank} {ts us : List (Kind × Text)} {e b : Expr}

/-! ### Operators -/

theorem before_tighter (h : Leans rank) : before rank.tighter ⊆ before rank := by
  cases rank <;> decide

theorem after_tighter (h : Leans rank) : after rank ⊆ after rank.tighter := by
  cases rank with
  | negation => exact absurd rfl h.1
  | _ => decide

theorem stops_tighter : stops rank ⊆ stops rank.tighter := by
  cases rank <;> decide

theorem operators_of_stops {k : Kind} (hk : k ∈ stops rank) :
    k ∈ after rank ∧ operators rank k = none := by
  cases rank <;> revert k <;> decide

theorem Reaches.of_tighter (hrank : Leans rank) (h : Parses loops rank.tighter ts e) :
    Reaches loops rank ts e := by
  intro depth n c d hlexes hend hdepth hloops hn r hr
  obtain ⟨r', hread, hr'⟩ :=
    h depth loops c d hlexes hend hdepth hloops hloops r (hr.mono (before_tighter hrank))
  refine ⟨r', n, ?_, hr'.mono (after_tighter hrank), Nat.lt_of_le_of_lt hlexes.length_le hn⟩
  rw [tier_of_leans hrank, chained, hread]

theorem leans_rank (op : Operator) : Leans op.rank := by
  rcases op with (_ | _ | _ | _) | (_ | _ | _ | _ | _ | _) | _ | _ <;>
    exact ⟨by decide, by decide⟩

theorem lookAgain_stands {r : Reader} {ks : List Kind} {k : Kind} {t : Text}
    {looks : Option (List Kind)} (h : r.Stands c ks) (hmeets : c.Meets k t d) (hk : k ∈ ks)
    (hlooks : ∀ os ∈ looks, os ⊆ ks ∧ k ∈ os) :
    ∃ r', lookAgain looks k r = .ok (k, r') ∧ r'.Stands c [k] := by
  cases looks with
  | none => exact ⟨r, rfl, h.mono (by simpa using hk)⟩
  | some os =>
    obtain ⟨hsub, hmem⟩ := hlooks os rfl
    obtain ⟨r', hpeek, hr'⟩ := (h.mono hsub).peek hmeets hmem
    exact ⟨r', hpeek, hr'.mono (by simpa using hmem)⟩

/-- An operator of the rank and its right operand are one round of the loop. -/
theorem Reaches.step {op : Operator} (h : Reaches loops op.rank ts e)
    (hb : Parses loops op.rank.tighter us b) :
    Reaches loops op.rank (ts ++ op.token :: us) (op.join e b) := by
  have hjoin : operators op.rank op.token.1 = some op.join := by
    rcases op with (_ | _ | _ | _) | (_ | _ | _ | _ | _ | _) | _ | _ <;> rfl
  have hafter : op.token.1 ∈ after op.rank ∧ op.token.1 ∈ stops op.rank.tighter := by
    rcases op with (_ | _ | _ | _) | (_ | _ | _ | _ | _ | _) | _ | _ <;> decide
  have hagain : ∀ os ∈ again op.rank, os ⊆ after op.rank ∧ op.token.1 ∈ os := by
    rcases op with (_ | _ | _ | _) | (_ | _ | _ | _ | _ | _) | _ | _ <;> decide
  intro depth n c d hlexes hend hdepth hloops hn r hr
  obtain ⟨c₁, hleft, hrest⟩ := hlexes.split
  obtain ⟨c₂, hmeets, hfinish, hright⟩ := hrest.uncons
  have hlt₁ := hleft.length_le
  have hlt₂ := hmeets.length_lt hfinish
  have hlt₃ := hright.length_le
  obtain ⟨r₁, n', hread, hr₁, hn'⟩ :=
    h depth n c c₁ hleft ⟨_, _, _, hmeets, hafter.2⟩ hdepth hloops hn r hr
  obtain ⟨m, rfl⟩ : ∃ m, n' = m + 1 := ⟨n' - 1, by omega⟩
  obtain ⟨r₂, hpeek, hr₂⟩ := hr₁.peek hmeets hafter.1
  obtain ⟨r₂', hlook, hr₂'⟩ := lookAgain_stands hr₂ hmeets hafter.1 hagain
  obtain ⟨r₃, htake, hr₃⟩ := hr₂'.take hmeets (List.mem_singleton.mpr rfl)
  obtain ⟨r₄, hoperand, hr₄⟩ := hb depth loops c₂ d hright hend (by omega) (by omega) (by omega) r₃
    (hr₃ hfinish _)
  refine ⟨r₄, m, ?_, hr₄.mono (after_tighter (leans_rank op)), by omega⟩
  rw [hread, chain, hpeek]
  simp only [hjoin, hlook, htake, hoperand]

/-- The loop ends where the rank stops. -/
theorem Parses.of_reaches (h : Reaches loops rank ts e) : Parses loops rank ts e := by
  intro depth n c d hlexes hend hdepth hloops hn r hr
  obtain ⟨r₁, n', hread, hr₁, hn'⟩ :=
    h depth n c d hlexes (hend.mono stops_tighter) hdepth hloops hn r hr
  obtain ⟨m, rfl⟩ : ∃ m, n' = m + 1 := ⟨n' - 1, by omega⟩
  obtain ⟨k, t, d', hmeets, hk⟩ := hend
  obtain ⟨hafter, hnone⟩ := operators_of_stops hk
  obtain ⟨r₂, hpeek, hr₂⟩ := hr₁.peek hmeets hafter
  refine ⟨r₂, ?_, hr₂⟩
  rw [hread, chain, hpeek]
  simp only [hnone]

/-! ### Negations -/

/-- The first token is of one of the kinds. -/
def Begins (ks : List Kind) (ts : List (Kind × Text)) : Prop := ∃ p ∈ ts.head?, p.1 ∈ ks

theorem Begins.meets {ks : List Kind} (h : Begins ks ts) (hlexes : Lexes c ts d) :
    Follows c ks := by
  obtain ⟨p, hp, hk⟩ := h
  cases ts with
  | nil => cases hp
  | cons q ts =>
    obtain rfl : q = p := Option.some.inj hp
    obtain ⟨c', hmeets, -⟩ := hlexes.uncons
    exact ⟨_, _, _, hmeets, hk⟩

/-- What begins with a sign, a number or a parenthesis is read as a comparison. -/
theorem Parses.unnegated (h : Parses loops .comparison ts e)
    (hbegins : Begins [.sign, .numeral, .opening] ts) : Parses loops .negation ts e := by
  have hkinds : ∀ k ∈ [Kind.sign, .numeral, .opening],
      k ∈ items ∧ (k == .negation || k == .bang) = false := by decide
  intro depth n c d hlexes hend hdepth hloops hn r (hr : r.Stands c items)
  obtain ⟨m, rfl⟩ : ∃ m, n = m + 1 := ⟨n - 1, by omega⟩
  obtain ⟨k, t, c', hmeets, hk⟩ := hbegins.meets hlexes
  obtain ⟨hitem, hmark⟩ := hkinds k hk
  obtain ⟨r₁, hpeek, hr₁⟩ := hr.peek hmeets hitem
  obtain ⟨r₂, hread, hr₂⟩ :=
    h depth loops c d hlexes hend hdepth hloops hloops r₁ (hr₁.mono (by decide))
  refine ⟨r₂, ?_, hr₂.mono (by decide)⟩
  rw [tier, condition, hpeek]
  simp only [hmark]
  exact hread

theorem Parses.negated (h : Parses loops .negation ts e) :
    Parses loops .negation ((.negation, "not".toList) :: ts) (.negation e) := by
  have hkinds : ∀ k ∈ stops .negation,
      k ∈ afterBoth ∧ (k == .negation || k == .bang) = false := by decide
  intro depth n c d hlexes hend hdepth hloops hn r (hr : r.Stands c items)
  obtain ⟨m, rfl⟩ : ∃ m, n = m + 1 := ⟨n - 1, by omega⟩
  obtain ⟨l, rfl⟩ : ∃ l, loops = l + 1 := ⟨loops - 1, by omega⟩
  obtain ⟨c', hmeets, hfinish, hrest⟩ := hlexes.uncons
  have hlt := hmeets.length_lt hfinish
  obtain ⟨r₁, hpeek₁, hr₁⟩ := hr.peek hmeets (by decide)
  have hmark : r₁.Stands c [.negation, .bang] := hr₁.mono (by decide)
  obtain ⟨r₂, hpeek₂, hr₂⟩ := hmark.peek hmeets (by decide)
  obtain ⟨r₃, htake, hr₃⟩ := hr₂.take hmeets (by decide)
  obtain ⟨r₄, hread, (hr₄ : r₄.Stands d afterBoth)⟩ :=
    h depth m c' d hrest hend (by omega) (by omega) (by omega) r₃ (hr₃ hfinish _)
  obtain ⟨k, t, d', hnext, hk⟩ := hend
  obtain ⟨hafter, hother⟩ := hkinds k hk
  obtain ⟨r₅, hpeek₅, hr₅⟩ := hr₄.peek hnext hafter
  refine ⟨r₅, ?_, hr₅⟩
  have hnegated : negated (condition (listOf (l + 1) depth) (l + 1) m) r₁ =
      (.negation e, some r₄) := by
    rw [negated, hpeek₂]
    simp only [htake]
    rw [show condition (listOf (l + 1) depth) (l + 1) m r₃ = (e, some r₄) from hread]
  rw [tier, condition, hpeek₁]
  simp only [negations, hnegated, hpeek₅, hother]
  rfl

/-! ### Numbers and parentheses -/

theorem reading_signed {inner : Reader → Parsed} {n : Nat} (hn : 0 < n)
    (hbegins : Follows c [.numeral, .opening]) (hend : Follows d (stops .atom))
    (hatom : ∀ r : Reader, r.Stands c atoms →
      ∃ r', atom inner r = (e, some r') ∧ ∀ ks, r'.Stands d ks) :
    Reading (signed inner n) c d operands afterProduct e := by
  have hstops : ∀ k ∈ stops .atom, k ∈ afterAtom ∧ k ≠ .unit := by decide
  intro r hr
  obtain ⟨m, rfl⟩ : ∃ m, n = m + 1 := ⟨n - 1, by omega⟩
  obtain ⟨k, t, c', hmeets, hk⟩ := hbegins
  obtain ⟨k', t', d', hnext, hk'⟩ := hend
  obtain ⟨hafter, hunit⟩ := hstops k' hk'
  have hmeasured : ∀ r₁ : Reader, r₁.Stands c operands →
      ∃ r', measured inner r₁ = (e, some r') ∧ r'.Stands d afterProduct := by
    intro r₁ hr₁
    obtain ⟨r₂, hread, hr₂⟩ := hatom r₁ (hr₁.mono (by decide))
    obtain ⟨r₃, hpeek, hr₃⟩ := (hr₂ afterAtom).peek hnext hafter
    refine ⟨r₃, ?_, hr₃.mono (by decide)⟩
    rw [measured, hread]
    simp only [hpeek]
  simp only [mem_cons, not_mem_nil, or_false] at hk
  rcases hk with rfl | rfl
  · obtain ⟨r₁, hpeek, hr₁⟩ := hr.peek hmeets (by decide)
    rw [signed, hpeek]
    exact hmeasured r₁ hr₁
  · obtain ⟨r₁, hpeek, hr₁⟩ := hr.peek hmeets (by decide)
    rw [signed, hpeek]
    exact hmeasured r₁ hr₁

theorem parses_number (n : Numeral) :
    Parses loops .atom [(.numeral, n.text)] (.numeral n.text) := by
  intro depth m c d hlexes hend hdepth hloops hm
  obtain ⟨c', (hmeets : c.Meets .numeral n.text c'), hfinish, hrest⟩ := hlexes.uncons
  cases hrest
  refine reading_signed (by omega) ⟨_, _, _, hmeets, by decide⟩ hend fun r hr => ?_
  obtain ⟨r₁, hpeek, hr₁⟩ := hr.peek hmeets (by decide)
  obtain ⟨r₂, htake, hr₂⟩ := hr₁.take hmeets (by decide)
  refine ⟨r₂, ?_, hr₂ hfinish⟩
  rw [atom, hpeek]
  simp only [literal, htake]

theorem reading_list (h : Parses loops .either ts e)
    (hbegins : Begins [.negation, .sign, .numeral, .opening] ts) (depth : Nat)
    (hlexes : Lexes c ts d) (hend : Follows d (stops .either)) (hdepth : c.rest.length ≤ depth)
    (hloops : c.rest.length < loops) :
    Reading (listOf loops (depth + 1)) c d items rowEnds (.list [(none, e)]) := by
  have hkinds : ∀ k ∈ [Kind.negation, .sign, .numeral, .opening], k ∈ items ∧ k ≠ .variable := by
    decide
  have hstops : ∀ k ∈ stops .either,
      k ∈ afterItem ∧ k ∈ rowEnds ∧ rowEnds.contains k = true ∧ k ≠ .comma := by decide
  intro r hr
  obtain ⟨l, rfl⟩ : ∃ l, loops = l + 1 := ⟨loops - 1, by omega⟩
  obtain ⟨k, t, c', hmeets, hk⟩ := hbegins.meets hlexes
  obtain ⟨hitem, hvariable⟩ := hkinds k hk
  obtain ⟨r₁, hpeek₁, hr₁⟩ := hr.peek hmeets hitem
  obtain ⟨r₂, hread, (hr₂ : r₂.Stands d afterEither)⟩ :=
    h depth (l + 1) c d hlexes hend hdepth hloops hloops r₁ hr₁
  obtain ⟨k', t', d', hnext, hk'⟩ := hend
  obtain ⟨hafter, hrow, hends, hcomma⟩ := hstops k' hk'
  have hr₂ : r₂.Stands d afterItem := hr₂.mono (by decide)
  obtain ⟨r₃, hpeek₃, hr₃⟩ := hr₂.peek hnext hafter
  have hr₃ : r₃.Stands d rowEnds := hr₃.mono (by decide)
  obtain ⟨r₄, hpeek₄, hr₄⟩ := hr₃.peek hnext hrow
  refine ⟨r₄, ?_, hr₄⟩
  have hname : itemName r = .ok (none, r₁) := by
    simp only [itemName, hpeek₁]
  have hitems : row (item (listOf (l + 1) depth) (l + 1)) (l + 1) r₁ = (e, some r₃) := by
    rw [row, show item (listOf (l + 1) depth) (l + 1) r₁ = (e, some r₂) from hread]
    simp only [rowFrom, hpeek₃, hends, if_true]
  rw [listOf, listFrom, hname]
  simp only [hitems, hpeek₄]
  rfl

theorem Parses.grouped (h : Parses loops .either ts e)
    (hbegins : Begins [.negation, .sign, .numeral, .opening] ts) :
    Parses loops .atom ((.opening, ['(']) :: (ts ++ [(.closing, [')'])])) (.list [(none, e)]) := by
  intro depth n c d hlexes hend hdepth hloops hn
  obtain ⟨c₁, (hopen : c.Meets .opening ['('] c₁), hfinish, hrest⟩ := hlexes.uncons
  obtain ⟨c₂, hinner, hrest⟩ := hrest.split
  obtain ⟨c₃, (hclose : c₂.Meets .closing [')'] c₃), hfinish', hrest⟩ := hrest.uncons
  cases hrest
  have hlt := hopen.length_lt hfinish
  obtain ⟨depth, rfl⟩ : ∃ m, depth = m + 1 := ⟨depth - 1, by omega⟩
  refine reading_signed (by omega) ⟨_, _, _, hopen, by decide⟩ hend fun r hr => ?_
  obtain ⟨r₁, hpeek, hr₁⟩ := hr.peek hopen (by decide)
  obtain ⟨r₂, htake, hr₂⟩ := hr₁.take hopen (by decide)
  obtain ⟨r₃, hread, hr₃⟩ := reading_list h hbegins depth hinner
    ⟨_, _, _, hclose, by decide⟩ (by omega) (by omega) r₂ (hr₂ hfinish _)
  obtain ⟨r₄, htake', hr₄⟩ := hr₃.take hclose (by decide)
  refine ⟨r₄, ?_, hr₄ hfinish'⟩
  rw [atom, hpeek]
  simp only [group, htake, hread, closed, htake']

/-! ### Formulas -/

theorem Parses.loosen (hrank : rank ≠ .atom) (h : Parses loops rank.tighter ts e)
    (hbegins : rank = .negation → Begins [.sign, .numeral, .opening] ts) :
    Parses loops rank ts e := by
  by_cases hnegation : rank = .negation
  · subst hnegation
    exact h.unnegated (hbegins rfl)
  · exact .of_reaches (.of_tighter ⟨hnegation, hrank⟩ h)

theorem Parses.lower {tight : Rank} (h : Parses loops tight ts e)
    (hbegins : Rank.negation.index < tight.index → Begins [.sign, .numeral, .opening] ts)
    (hrank : rank.index ≤ tight.index) : Parses loops rank ts e := by
  obtain ⟨k, hk⟩ := Nat.le.dest hrank
  induction k generalizing rank with
  | zero => exact Rank.eq_of_index_eq (hk.trans rfl).symm ▸ h
  | succ k ih =>
    have htight := tight.index_le
    have hatom : rank ≠ .atom := by
      rintro rfl
      omega
    have hindex := Rank.index_tighter hatom
    refine .loosen hatom (ih (by omega) (by omega)) fun hnegation => hbegins ?_
    subst hnegation
    omega

/-- Something that a rank reads is read at every place, in parentheses where the place asks for a
tighter rank. -/
theorem Parses.enclosed {own : Rank} (h : Parses loops own ts e)
    (hbegins : Begins [.negation, .sign, .numeral, .opening] ts)
    (hstarts : Rank.negation.index < own.index → Begins [.sign, .numeral, .opening] ts)
    (rank : Rank) :
    Parses loops rank (enclose (own.looser rank) (.opening, ['(']) (.closing, [')']) ts)
      (Formula.grouped (own.looser rank) e) := by
  cases hlooser : own.looser rank with
  | false =>
    have hrank : rank.index ≤ own.index := by simpa [Rank.looser] using hlooser
    exact h.lower hstarts hrank
  | true =>
    have heither : Parses loops .either ts e := h.lower hstarts (Nat.zero_le _)
    have hgroup := heither.grouped hbegins
    exact hgroup.lower (fun _ => ⟨_, rfl, by decide⟩) rank.index_le

end Grammar

namespace Formula

open Grammar (Parses Reaches Begins Leans)

/-- A formula begins with a number, a parenthesis or a `not`, and the last only where its place
allows for it. -/
theorem begins_tokens (t : Formula) (rank : Rank) :
    Begins [.negation, .sign, .numeral, .opening] (t.tokens rank) ∧
      (Rank.negation.index < rank.index → Begins [.sign, .numeral, .opening] (t.tokens rank)) := by
  induction t generalizing rank with
  | number n => exact ⟨⟨_, rfl, by simp⟩, fun _ => ⟨_, rfl, by simp⟩⟩
  | binary op a b iha _ =>
    rw [tokens, enclose]
    split
    · exact ⟨⟨_, rfl, by decide⟩, fun _ => ⟨_, rfl, by decide⟩⟩
    next hlooser =>
      have hrank : rank.index ≤ op.rank.index := by simpa [Rank.looser] using hlooser
      have hhead : ∀ {ks : List Kind} {ts us : List (Kind × Text)}, Begins ks ts →
          Begins ks (ts ++ us) := by
        rintro ks ts us ⟨p, hp, hk⟩
        exact ⟨p, by rw [head?_append, Option.mem_def.mp hp]; rfl, hk⟩
      obtain ⟨hbegins, hstarts⟩ := iha op.rank
      exact ⟨hhead hbegins, fun h => hhead (hstarts (by omega))⟩
  | negation a _ =>
    rw [tokens, enclose]
    split
    · exact ⟨⟨_, rfl, by decide⟩, fun _ => ⟨_, rfl, by decide⟩⟩
    next hlooser =>
      exact ⟨⟨_, rfl, by decide⟩, fun h => absurd h (by simpa [Rank.looser] using hlooser)⟩

/-- Every formula is read as itself at every place, and leads into the loops of operators. -/
theorem parses_tokens {loops : Nat} (t : Formula) :
    (∀ rank, Parses loops rank (t.tokens rank) (t.expr rank)) ∧
      ∀ rank, Leans rank → Reaches loops rank (t.tokens rank) (t.expr rank) := by
  induction t with
  | number n =>
    have hnumber : ∀ rank, Parses loops rank [(.numeral, n.text)] (.numeral n.text) := fun rank =>
      (Grammar.parses_number n).lower (fun _ => ⟨_, rfl, by simp⟩) rank.index_le
    exact ⟨hnumber, fun rank hrank => .of_tighter hrank (hnumber _)⟩
  | binary op a b iha ihb =>
    have hreaches := (iha.2 op.rank (Grammar.leans_rank op)).step (ihb.1 op.rank.tighter)
    have hbegins := begins_tokens (.binary op a b) op.rank
    rw [tokens, enclose, Rank.looser_self] at hbegins
    have hparses := (Parses.of_reaches hreaches).enclosed hbegins.1 hbegins.2
    refine ⟨hparses, fun rank hrank => ?_⟩
    by_cases hown : op.rank = rank
    · subst hown
      rw [tokens, expr, enclose, grouped, Rank.looser_self]
      exact hreaches
    · refine .of_tighter hrank ?_
      have htighter := hparses rank.tighter
      rwa [Rank.looser_tighter hrank.2 hown] at htighter
  | negation a ih =>
    have hbegins := begins_tokens (.negation a) .negation
    have hparses := (ih.1 .negation).negated.enclosed hbegins.1 hbegins.2
    refine ⟨hparses, fun rank hrank => .of_tighter hrank ?_⟩
    have htighter := hparses rank.tighter
    rwa [Rank.looser_tighter hrank.2 (Ne.symm hrank.1)] at htighter

/-- A written formula is read as the formula, up to the end of the text. -/
theorem parse_text (t : Formula) :
    Expr.parse (t.text .either) = .list [(none, t.expr .either)] := by
  have hstart : (Cursor.start (t.text .either)).At (t.text .either ++ []) := by
    refine Cursor.at_of_rest ?_ ((scans_text t .either).unblank []) rfl
    rw [append_nil]
    rfl
  obtain ⟨d, hlexes, hd⟩ := (scans_text t .either).lexes _ [] hstart (.inl rfl)
  have hskip : d.skipBlanks = d := Cursor.skipBlanks_eq fun x hx => by rw [hd] at hx; cases hx
  have hend := Cursor.meets_of_first (hskip.symm ▸ hd) (show _ = some (.finish, 0) from rfl)
  have hr : (Reader.ofText (t.text .either)).Stands (Cursor.start (t.text .either)) Grammar.items :=
    ⟨rfl, Reader.sound_of_fresh trivial rfl, .of_fresh rfl, fun a ha => by cases ha⟩
  obtain ⟨r', hread, hr'⟩ := Grammar.reading_list ((parses_tokens t).1 .either)
    (begins_tokens t .either).1 _ hlexes ⟨_, _, _, hend, by decide⟩
    (show (t.text .either).length ≤ (t.text .either).length + 1 by omega)
    (show (t.text .either).length < (t.text .either).length + 2 by omega) _ hr
  obtain ⟨r'', htake, -⟩ := hr'.take hend (by decide)
  unfold Expr.parse
  simp only [hread, htake]

/-! ## Values -/

theorem eval_grouped (m : Expr.Meaning) (needed : Bool) (e : Expr) :
    Expr.eval m (grouped needed e) = Expr.eval m e := by
  cases needed with
  | false => rfl
  | true => simp [grouped, Expr.eval, Expr.evalItems, itemsOfNamed, Items.insert]

theorem eval_expr (m : Expr.Meaning) (t : Formula) (rank : Rank) :
    Expr.eval m (t.expr rank) = Run.ofCalc t.value := by
  induction t generalizing rank with
  | number n => rfl
  | binary op a b iha ihb =>
    rw [expr, eval_grouped, value, Run.ofCalc_bind]
    simp only [Run.ofCalc_bind]
    rcases op with op | c | _ | _ <;> rw [Operator.join, Expr.eval, iha, ihb]
    · rfl
    · simp only [Operator.apply, Run.ofCalc_bind]
      rfl
    · simp only [Operator.apply, Run.ofCalc_bind]
      refine bind_congr fun v => bind_congr fun w => bind_congr fun isTrue => ?_
      cases isTrue <;> rfl
    · simp only [Operator.apply, Run.ofCalc_bind]
      refine bind_congr fun v => bind_congr fun w => bind_congr fun isTrue => ?_
      cases isTrue <;> rfl
  | negation a ih =>
    rw [expr, eval_grouped, Expr.eval, ih, value, Run.ofCalc_bind]
    simp only [Run.ofCalc_bind]
    rfl

theorem faults_expr (t : Formula) (rank : Rank) : (t.expr rank).faults = [] := by
  have hgrouped : ∀ (needed : Bool) (e : Expr), e.faults = [] → (grouped needed e).faults = [] := by
    intro needed e he
    cases needed with
    | false => exact he
    | true => rw [grouped, if_pos rfl, Expr.faults, Expr.itemFaults, he]; rfl
  induction t generalizing rank with
  | number n => rfl
  | binary op a b iha ihb =>
    refine hgrouped _ _ ?_
    rcases op with _ | _ | _ | _ <;> rw [Operator.join, Expr.faults, iha, ihb] <;> rfl
  | negation a ih => exact hgrouped _ _ (ih _)

end Formula

/-- A formula that is written with blanks around its operators, and with parentheses only where
precedence and the leaning to the left ask for them, is read up to its end, and evaluating what was
read comes to what the operators make of the operands, from left to right. -/
theorem formula_read_back (t : Formula) :
    (Expr.parse (t.text .either)).faults = [] ∧
      ∀ m : Expr.Meaning, Expr.eval m (Expr.parse (t.text .either)) = Run.ofCalc t.value := by
  have hgroup : Expr.list [(none, t.expr .either)] = Formula.grouped true (t.expr .either) := rfl
  rw [t.parse_text]
  refine ⟨?_, fun m => ?_⟩
  · rw [Expr.faults, Expr.itemFaults, t.faults_expr]
    rfl
  · rw [hgroup, Formula.eval_grouped, t.eval_expr]

end SheetPress
