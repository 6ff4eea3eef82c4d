import SheetPress.Compile.Extend
import SheetPress.Proofs.Source.Words

/-!
# The pattern of a class

A class that is extended serves as a search pattern, between conditions on what stands before and
behind it.  The pattern is read as those conditions around one part for each character, the point
standing for any character (`parse_wholePattern`).  `replaceAll_wholePattern` says what it replaces,
in any text: the name with one more character, whatever this is (`substitute`).
-/

set_option autoImplicit false

namespace SheetPress.Pattern

open List Text

variable {p : Place}

open Source (Word classHead)

/-! ## Reading -/

section Reading

variable {n groups : Nat} {done : List (List Node)} {nodes : List Node} {closed : List Nat}

attribute [local simp] readFrom

theorem readFrom_nil :
    readFrom (n + 1) done nodes ⟨[], groups, closed⟩ =
      .ok ((nodes.reverse :: done).reverse, ⟨[], groups, closed⟩) := by
  rw [readFrom]

theorem readFrom_close (rest : Text) :
    readFrom (n + 1) done nodes ⟨')' :: rest, groups, closed⟩ =
      .ok ((nodes.reverse :: done).reverse, ⟨')' :: rest, groups, closed⟩) := by
  rw [readFrom]
  rfl

theorem readFrom_point (rest : Text) :
    readFrom (n + 1) done nodes ⟨'.' :: rest, groups, closed⟩ =
      readFrom n done (.any :: nodes) ⟨rest, groups, closed⟩ := by
  rw [readFrom]
  rfl

theorem readFrom_set {inner rest : Text} {ms : List Member} (hcaret : inner.head? ≠ some '^')
    (hmembers : members (inner.length + 1) [] inner = .ok (ms, rest)) :
    readFrom (n + 1) done nodes ⟨'[' :: inner, groups, closed⟩ =
      readFrom n done (.set false ms :: nodes) ⟨rest, groups, closed⟩ := by
  rw [readFrom]
  split
  case h_9 heq =>
    obtain ⟨-, rfl⟩ := cons.inj heq
    split
    · split at *
      · simp at hcaret
      · simp_all
  case h_11 hbracket _ heq => exact absurd (cons.inj heq).1.symm hbracket
  all_goals
    rename_i heq
    simp at heq

theorem readFrom_look {ahead negated : Bool} {inner rest rest' : Text}
    {alternatives : List (List Node)} {node : Node} {closed' : List Nat}
    (hopen : openingOf inner = .ok (.look ahead negated, rest))
    (hinner : readFrom n [] [] ⟨rest, groups, closed⟩ =
      .ok (alternatives, ⟨')' :: rest', groups, closed'⟩))
    (hclose : closeGroup (.look ahead negated) groups alternatives = .ok node) :
    readFrom (n + 1) done nodes ⟨'(' :: inner, groups, closed⟩ =
      readFrom n done (node :: nodes) ⟨rest', groups, groups :: closed'⟩ := by
  rw [readFrom]
  split
  case h_10 heq =>
    obtain ⟨-, rfl⟩ := cons.inj heq
    simp only [hopen, hinner, hclose]
  case h_11 hparen heq => exact absurd (cons.inj heq).1.symm hparen
  all_goals
    rename_i heq
    simp at heq

theorem ne_of_isName {c d : Char} (hc : isName c = true) (hd : isName d = false) :
    c ≠ d := by
  rintro rfl
  rw [hc] at hd
  exact Bool.noConfusion hd

theorem repetition?_name {c : Char} (hc : isName c = true) (rest : Text) :
    repetition? (c :: rest) = none := by
  unfold repetition?
  split
  case h_5 => rfl
  all_goals
    rename_i heq
    exact absurd (cons.inj heq).1 (ne_of_isName hc (by decide))

theorem readFrom_nameChar {c : Char} (hc : isName c = true) (rest : Text) :
    readFrom (n + 1) done nodes ⟨c :: rest, groups, closed⟩ =
      readFrom n done (.literal c :: nodes) ⟨rest, groups, closed⟩ := by
  rw [readFrom]
  split
  case h_1 heq => exact absurd heq (cons_ne_nil _ _)
  case h_11 heq =>
    obtain ⟨rfl, rfl⟩ := cons.inj heq
    rw [repetition?_name hc]
  -- The character is none of the signs.
  all_goals
    rename_i heq
    exact absurd (cons.inj heq).1 (ne_of_isName hc (by decide))

theorem readFrom_name {w : Text} (hw : ∀ c ∈ w, isName c = true) (rest : Text) :
    readFrom (n + w.length) done nodes ⟨w ++ rest, groups, closed⟩ =
      readFrom n done (w.reverse.map .literal ++ nodes) ⟨rest, groups, closed⟩ := by
  induction w generalizing nodes with
  | nil => rfl
  | cons c w ih =>
    rw [length_cons, ← Nat.add_assoc, cons_append, readFrom_nameChar (hw c (by simp)),
      ih fun d hd => hw d (by simp [hd])]
    simp

end Reading

/-- No sign of a part stands before. -/
def unmarkedBefore : Node :=
  .look false true 1 [[.set false [.range '#' '#', .range '.' '.', .range ':' ':']]]

/-- The name ends here. -/
def endOfName : Node := .look true true 0 [[.set false [.range '-' '-', .kind .word false]]]

theorem readFrom_before (n : Nat) (rest : Text) :
    readFrom (n + 3) [] [] ⟨"(?<![#.:])".toList ++ rest, 0, []⟩ =
      readFrom (n + 2) [] [unmarkedBefore] ⟨rest, 0, [0]⟩ := by
  have hmembers : members (('#' :: '.' :: ':' :: ']' :: ')' :: rest).length + 1) []
      ('#' :: '.' :: ':' :: ']' :: ')' :: rest) =
        .ok ([.range '#' '#', .range '.' '.', .range ':' ':'], ')' :: rest) := by
    simp [members, member]
  have hinner : readFrom (n + 2) [] [] ⟨'[' :: '#' :: '.' :: ':' :: ']' :: ')' :: rest, 0, []⟩ =
      .ok ([[.set false [.range '#' '#', .range '.' '.', .range ':' ':']]],
        ⟨')' :: rest, 0, []⟩) := by
    rw [readFrom_set (by simp) hmembers, readFrom_close]
    rfl
  exact readFrom_look rfl hinner rfl

theorem readFrom_behind (n : Nat) (nodes : List Node) :
    readFrom (n + 3) [] nodes ⟨"(?![-\\w])".toList, 0, [0]⟩ =
      .ok ([(endOfName :: nodes).reverse], ⟨[], 0, [0, 0]⟩) := by
  have hmembers : members (['-', '\\', 'w', ']', ')'].length + 1) [] ['-', '\\', 'w', ']', ')'] =
      .ok ([.range '-' '-', .kind .word false], [')']) := by
    simp [members, member, class?]
  have hinner : readFrom (n + 2) [] [] ⟨['[', '-', '\\', 'w', ']', ')'], 0, [0]⟩ =
      .ok ([[.set false [.range '-' '-', .kind .word false]]], ⟨[')'], 0, [0]⟩) := by
    rw [readFrom_set (by simp) hmembers, readFrom_close]
    rfl
  exact (readFrom_look rfl hinner rfl).trans readFrom_nil

theorem parse_eq_ok {s : Text} {alternatives : List (List Node)} {groups : Nat} {closed : List Nat}
    (h : readFrom (2 * s.length + 2) [] [] ⟨s, 0, []⟩ = .ok (alternatives, ⟨[], groups, closed⟩)) :
    parse s = .ok ⟨alternatives, groups⟩ := by
  simp [parse, h]

/-- The pattern of the class with a name. -/
def classPattern (name : Text) : Pattern :=
  ⟨[unmarkedBefore :: .any :: (name.map .literal ++ [endOfName])], 0⟩

theorem wholePattern_class (name : Text) :
    Compile.wholePattern ('.' :: name) =
      "(?<![#.:])".toList ++ '.' :: (name ++ "(?![-\\w])".toList) := by
  show "(?<![#.:])".toList ++ ('.' :: name) ++ "(?![-\\w])".toList = _
  rw [append_assoc]
  rfl

theorem length_wholePattern (name : Text) :
    (Compile.wholePattern ('.' :: name)).length = name.length + 20 := by
  have hbefore : "(?<![#.:])".toList.length = 10 := by decide
  have hbehind : "(?![-\\w])".toList.length = 9 := by decide
  rw [wholePattern_class]
  simp only [length_append, length_cons]
  omega

theorem parse_wholePattern {name : Text} (hname : ∀ c ∈ name, isName c = true) :
    parse (Compile.wholePattern ('.' :: name)) = .ok (classPattern name) := by
  have hfuel : 2 * (name.length + 20) + 2 = (name.length + 37 + 2 + name.length) + 3 := by
    omega
  have hsteps : name.length + 37 + 2 + name.length + 1 =
      (name.length + 37 + 3) + name.length := by
    omega
  have hread : readFrom (2 * (Compile.wholePattern ('.' :: name)).length + 2) [] []
        ⟨Compile.wholePattern ('.' :: name), 0, []⟩ =
      .ok ([unmarkedBefore :: .any :: (name.map .literal ++ [endOfName])],
        ⟨[], 0, [0, 0]⟩) := by
    rw [length_wholePattern, wholePattern_class, hfuel, readFrom_before, readFrom_point, hsteps,
      readFrom_name hname, readFrom_behind]
    simp
  exact parse_eq_ok hread

/-! ## Matching -/

/-- The name follows any character but a line break, no sign stands before that character, and the
name ends there. -/
def foundAt (first : Char → Bool) (name : Text) (previous : Option Char) : Text → Bool
  | [] => false
  | x :: r =>
    first x && !previous.any Selector.startsPart &&
      match after? name r with
      | some rest => !rest.head?.any isName
      | none => false

theorem exists_of_foundAt {first : Char → Bool} {name : Text} {previous : Option Char} {x : Char}
    {r : Text} (h : foundAt first name previous (x :: r) = true) : ∃ rest, r = name ++ rest := by
  rw [foundAt] at h
  cases hafter : after? name r with
  | none => simp [hafter] at h
  | some rest => exact ⟨rest, eq_append_of_after? hafter⟩

theorem run_set (ms : List Member) (n : Nat) (p : Place) :
    (run (n + 2) [.node (.set false ms)] p).isSome =
      p.rest.head?.any fun x => ms.any (·.holds x) := by
  rw [run]
  cases p.rest with
  | nil => rfl
  | cons x r => cases hx : ms.any (·.holds x) <;> simp [run, hx]

/-- No character of a set stands before or behind the place. -/
theorem run_unless (ms : List Member) (ahead : Bool) {width : Nat} (n : Nat) (tasks : List Task)
    (hwidth : (!ahead && decide (p.position < width)) = false) :
    run (n + 3) (.node (.look ahead true width [[.set false ms]]) :: tasks) p =
      if (if ahead then p else p.back width).rest.head?.any fun x => ms.any (·.holds x) then none
      else run (n + 2) tasks p := by
  rw [run, ← run_set ms n]
  simp only [hwidth, findSome?_cons, findSome?_nil, map_cons, map_nil]
  cases run (n + 2) [.node (.set false ms)] (if ahead then p else p.back width) <;> rfl

theorem holds_single (c x : Char) : (Member.range c c).holds x = (x == c) := by
  rw [Member.holds, Bool.eq_iff_iff, Bool.and_eq_true, decide_eq_true_eq, decide_eq_true_eq,
    beq_iff_eq]
  exact ⟨fun h => le_antisymm h.2 h.1, fun h => h ▸ ⟨le_rfl, le_rfl⟩⟩

theorem run_unmarkedBefore (n : Nat) (tasks : List Task)
    (hp : p.position = p.before.length) :
    run (n + 3) (.node unmarkedBefore :: tasks) p =
      if p.before.head?.any Selector.startsPart then none else run (n + 2) tasks p := by
  obtain ⟨position, before, rest, groups⟩ := p
  obtain rfl : position = before.length := hp
  cases before with
  | nil => rfl
  | cons x before =>
    have hholds : ∀ x : Char, ([Member.range '#' '#', .range '.' '.', .range ':' ':'].any
        (·.holds x)) = Selector.startsPart x := by
      intro x
      simp only [any_cons, any_nil, holds_single, Selector.startsPart]
      grind
    rw [unmarkedBefore, run_unless _ _ _ _ (by simp)]
    simp only [hholds]
    rfl

theorem run_any (n : Nat) (tasks : List Task) (p : Place) :
    run (n + 1) (.node .any :: tasks) p =
      match p.rest with
      | x :: r => if x = '\n' then none else run n tasks (p.next x r)
      | [] => none := rfl

theorem run_literals (w : Text) (n : Nat) (tasks : List Task) (p : Place) :
    run (n + w.length) ((w.map Node.literal).map .node ++ tasks) p =
      match after? w p.rest with
      | some r => run n tasks ⟨p.position + w.length, w.reverse ++ p.before, r, p.groups⟩
      | none => none := by
  induction w generalizing p with
  | nil => rfl
  | cons c w ih =>
    rw [length_cons, ← Nat.add_assoc, map_cons, map_cons, cons_append, run]
    cases hrest : p.rest with
    | nil => rfl
    | cons x r =>
      rw [after?]
      dsimp only
      split
      next hx =>
        rw [ih]
        simp only [Place.next, hx, reverse_cons, append_assoc, cons_append,
          nil_append]
        grind
      · rfl

theorem run_endOfName (n : Nat) (p : Place) :
    run (n + 3) [.node endOfName] p = if p.rest.head?.any isName then none else some p := by
  have hholds : ∀ x : Char, ([Member.range '-' '-', .kind .word false].any (·.holds x)) =
      isName x := by
    intro x
    rw [any_cons, holds_single]
    simp [Member.holds, CharClass.holds, isName, Bool.or_comm]
  rw [endOfName, run_unless _ _ _ _ rfl]
  simp only [hholds]
  rfl

/-- `n` characters further on. -/
def Place.forth (n : Nat) (p : Place) : Place :=
  ⟨p.position + n, (p.rest.take n).reverse ++ p.before, p.rest.drop n, []⟩

/-- The pattern of a class finds its name behind any character. -/
theorem matchAt_classPattern (name : Text) {steps : Nat} (hsteps : name.length + 5 ≤ steps)
    (hp : p.position = p.before.length) :
    (classPattern name).matchAt steps false p =
      if foundAt (· != '\n') name p.before.head? p.rest then some (p.forth (name.length + 1))
      else none := by
  obtain ⟨n, rfl⟩ := Nat.exists_eq_add_of_le hsteps
  have hcount : name.length + 5 + n = n + 2 + name.length + 3 := by omega
  simp only [matchAt, classPattern, findSome?_cons, findSome?_nil, map_cons,
    map_append, map_nil, append_nil, Bool.false_eq_true, if_false, hcount]
  have hcount' : n + 2 + name.length + 2 = n + 3 + name.length + 1 := by omega
  obtain ⟨position, before, rest, groups⟩ := p
  rw [run_unmarkedBefore (p := ⟨position, before, rest, []⟩) _ _ hp, hcount', run_any]
  cases rest with
  | nil => simp [foundAt]
  | cons x r =>
    dsimp only
    rw [run_literals]
    rcases hafter : after? name r with _ | rest
    · simp [Place.next, foundAt, hafter]
    · obtain rfl : r = name ++ rest := eq_append_of_after? hafter
      have htake : (x :: (name ++ rest)).take (name.length + 1) = x :: name := by simp
      have hdrop : (x :: (name ++ rest)).drop (name.length + 1) = rest := by simp
      simp only [Place.next, hafter, run_endOfName, foundAt, Place.forth, htake, hdrop]
      cases before.head?.any Selector.startsPart <;> by_cases hx : x = '\n' <;>
        cases rest.head?.any isName <;> simp [hx, Nat.add_assoc, Nat.add_comm 1]

/-! ## Replacing -/

theorem template_eq_ok {t : Text} (h : '\\' ∉ t) (groups n : Nat) :
    template groups (n + t.length + 1) t = .ok (t.map fun c => .text [c]) := by
  induction t with
  | nil => rfl
  | cons c t ih =>
    simp only [mem_cons, not_or] at h
    rw [length_cons, ← Nat.add_assoc, template]
    · rw [ih h.2]
      rfl
    · intro heq _
      exact h.1 heq.symm
    · intro _ _ heq _
      exact h.1 heq.symm

theorem fill_texts (whole t : Text) (groups : List (Nat × Text)) :
    fill whole groups (t.map fun c => .text [c]) = t := by
  induction t with
  | nil => rfl
  | cons c t ih =>
    simp only [fill, map_cons, flatMap_cons] at ih ⊢
    rw [ih]
    rfl

/-- Replace the name with the character before it, wherever it is found, going from left to right.
The first `skip` characters are left out. -/
def substitute (first : Char → Bool) (name new : Text) :
    (skip : Nat) → (previous : Option Char) → Text → Text
  | _, _, [] => []
  | skip + 1, _, x :: r => substitute first name new skip (some x) r
  | 0, previous, x :: r =>
    if foundAt first name previous (x :: r) then
      new ++ substitute first name new name.length (some x) r
    else x :: substitute first name new 0 (some x) r

theorem getLast?_or_cons (x : Char) (t : Text) (previous : Option Char) :
    (x :: t).getLast?.or previous = t.getLast?.or (some x) := by
  cases t with
  | nil => rfl
  | cons y t =>
    rw [getLast?_cons_cons, getLast?_eq_some_getLast (cons_ne_nil y t)]
    rfl

theorem substitute_skip (first : Char → Bool) (name new : Text) (t : Text) (previous : Option Char)
    (rest : Text) :
    substitute first name new t.length previous (t ++ rest) =
      substitute first name new 0 (t.getLast?.or previous) rest := by
  induction t generalizing previous with
  | nil => rfl
  | cons x t ih => rw [length_cons, cons_append, substitute, ih, getLast?_or_cons]

theorem replaceFrom_classPattern (name new : Text) {steps : Nat} (hsteps : name.length + 5 ≤ steps)
    {n : Nat} (hn : p.rest.length < n) (hp : p.position = p.before.length) :
    replaceFrom (classPattern name) (new.map fun c => .text [c]) steps n false p =
      substitute (· != '\n') name new 0 p.before.head? p.rest := by
  induction n generalizing p with
  | zero => exact absurd hn (Nat.not_lt_zero _)
  | succ n ih =>
    rw [replaceFrom, matchAt_classPattern name hsteps hp]
    obtain ⟨position, before, rest, groups⟩ := p
    cases rest with
    | nil => rfl
    | cons x r =>
      simp only [length_cons] at hn
      rw [substitute]
      cases hfound : foundAt (· != '\n') name before.head? (x :: r) with
      | false =>
        simp only [Bool.false_eq_true, if_false]
        have hnext := ih (p := Place.next ⟨position, before, x :: r, groups⟩ x r)
          (show r.length < n by omega) (congrArg (· + 1) hp)
        rw [hnext]
        rfl
      | true =>
        obtain ⟨rest, rfl⟩ := exists_of_foundAt hfound
        have htake : (x :: (name ++ rest)).take (name.length + 1) = x :: name := by simp
        have hdrop : (x :: (name ++ rest)).drop (name.length + 1) = rest := by simp
        have hmoved : (position + (name.length + 1) == position) = false := by simp
        simp only [if_true, Place.forth, htake, hdrop, fill_texts, hmoved, substitute_skip]
        have hposition : position + (name.length + 1) =
            ((x :: name).reverse ++ before).length := by
          rw [show position = before.length from hp]
          simp only [length_append, length_reverse, length_cons]
          omega
        rw [length_append] at hn
        rw [ih (p := ⟨_, (x :: name).reverse ++ before, rest, []⟩)
          (show rest.length < n by omega) hposition]
        simp

theorem replaceAll_wholePattern {name new : Text} (hname : ∀ c ∈ name, isName c = true)
    (hnew : '\\' ∉ new) (s : Text) :
    replaceAll (Compile.wholePattern ('.' :: name)) new s =
      .ok (substitute (· != '\n') name new 0 none s) := by
  have htemplate := template_eq_ok hnew 0 0
  rw [Nat.zero_add] at htemplate
  have hsteps : name.length + 5 ≤
      64 + 8 * ((Compile.wholePattern ('.' :: name)).length + 1) * (s.length + 2) := by
    rw [length_wholePattern]
    nlinarith
  have hreplace := replaceFrom_classPattern name new hsteps (n := 2 * s.length + 2)
    (p := Place.start s) (show s.length < 2 * s.length + 2 by omega) rfl
  rw [replaceAll, parse_wholePattern hname]
  dsimp only
  rw [show (classPattern name).groups = 0 from rfl, htemplate]
  dsimp only
  rw [hreplace]
  rfl

theorem replaceAll_class (parent child : Word) :
    replaceAll (Compile.wholePattern (classHead parent)) (classHead child) (classHead parent) =
      .ok (classHead child) := by
  have hbackslash : '\\' ∉ classHead child := by
    simpa [classHead] using child.notMem (by decide)
  have hafter := after?_append parent.text []
  have hskip := substitute_skip (· != '\n') parent.text (classHead child) parent.text (some '.') []
  rw [append_nil] at hafter hskip
  rw [classHead, replaceAll_wholePattern (fun _ => Word.isName_of_mem) hbackslash, substitute,
    hskip]
  simp [foundAt, hafter, substitute]

end SheetPress.Pattern
