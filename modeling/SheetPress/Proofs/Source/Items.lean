import SheetPress.Proofs.Source.Outline

/-!
# The items of an outline

The search for items goes through a text once and remembers positions.  Between two lines or
blocks of a written outline it stands idle: nothing is open, and the only thing it still has to
give out are the lines since the last block.  Each line, and each block with all that is in it,
takes the search from one such point to the next.
-/

set_option autoImplicit false

namespace SheetPress.Source

open List Text
open Outline (gapOf interpolation isEven)

variable {h r s t x y : Text} {i : Nat} {st : Scan} {c : Char} {o : Outline} {ps : List Text}
variable {line₁ line₂ : Int}

/-! ## One step of the search -/

/-- Items with some more in front. -/
def Items.prepend (first : List Item) (x : Items) : Items := ⟨first ++ x.items, x.fault⟩

/-- The items from a point of the search on. -/
def itemsAfter (s : Text) (i : Nat) (previous : Option Char) (st : Scan) (rest : Text) : Items :=
  match itemsFrom s i previous st rest with
  | (first, .error f) => ⟨first, some f⟩
  | (first, .ok st) =>
    (if st.depth != 0 && !st.interpolating then openBlock s st else lastItems s st).prepend first

theorem items_eq (s : Text) : items s = itemsAfter s 0 none {} s := rfl

variable {previous : Option Char} {found : List Item} {lead : Text} {line : Int}

theorem itemsAfter_skip (h : isStructural c = false) :
    itemsAfter s i previous st (c :: r) = itemsAfter s (i + 1) (some c) st r := by
  simp [itemsAfter, itemsFrom, h]

theorem itemsAfter_step {st' : Scan} (hc : isStructural c = true)
    (h : step s i previous c st = (found, .ok st')) :
    itemsAfter s i previous st (c :: r) =
      (itemsAfter s (i + 1) (some c) st' r).prepend found := by
  simp only [itemsAfter, itemsFrom, hc, if_true, h]
  cases hmore : itemsFrom s (i + 1) (some c) st' r with
  | mk more result => cases result <;> simp [Items.prepend]

theorem itemsAfter_silent {st' : Scan} (hc : isStructural c = true)
    (h : step s i previous c st = ([], .ok st')) :
    itemsAfter s i previous st (c :: r) = itemsAfter s (i + 1) (some c) st' r := by
  rw [itemsAfter_step hc h]
  simp [Items.prepend]

/-! ## Quiet texts -/

/-- A text that opens and closes nothing and ends no line. -/
def Quiet (x : Text) : Prop := ∀ c ∈ x, (isStructural c = false ∨ c = ',') ∧ c ≠ '#'

theorem Quiet.append (hx : Quiet x) (hy : Quiet y) : Quiet (x ++ y) := by
  intro c hc
  rcases mem_append.mp hc with h | h
  · exact hx c h
  · exact hy c h

theorem quiet_blank : Quiet [' '] := by
  intro c hc
  rw [mem_singleton] at hc
  subst hc
  decide

theorem quiet_of_isEven (h : ∀ c ∈ x, isEven c = true) : Quiet x := by
  intro c hc
  have hne : ∀ d, isEven d = false → c ≠ d := fun d => Outline.ne_of_isEven (h c hc)
  refine ⟨?_, hne '#' (by decide)⟩
  by_cases hcomma : c = ','
  · exact Or.inr hcomma
  · left
    simp [isStructural, hcomma, hne '{' (by decide), hne '}' (by decide), hne ';' (by decide),
      hne '(' (by decide), hne ')' (by decide), hne '\'' (by decide), hne '"' (by decide),
      hne '\n' (by decide)]

theorem Outline.Calm.quiet (h : Outline.Calm t) : Quiet t :=
  quiet_of_isEven fun c hc => by simp [isEven, h.chars c hc]

theorem quiet_gapOf (h : Text) : Quiet (gapOf h) := by
  unfold gapOf
  split
  · intro c hc
    simp at hc
  · exact quiet_blank

/-- The search between two lines or blocks. -/
def Scan.idle (line : Int) (init safe loose start : Nat) : Scan :=
  { line, init, safe, loose, start }

theorem itemsAfter_quiet (line : Int) (init loose start : Nat) (rest : Text)
    (hx : Quiet x) :
    ∀ (i safe : Nat) (previous : Option Char), ∃ (safe' : Nat) (previous' : Option Char),
      itemsAfter s i previous (.idle line init safe loose start) (x ++ rest) =
        itemsAfter s (i + x.length) previous' (.idle line init safe' loose start) rest ∧
      (x ≠ [] → previous' ≠ some '#') := by
  induction x with
  | nil => exact fun i safe previous => ⟨safe, previous, rfl, fun h => absurd rfl h⟩
  | cons c x ih =>
    intro i safe previous
    have hc := hx c (by simp)
    have hquiet : Quiet x := fun d hd => hx d (by simp [hd])
    -- Only a comma changes anything, and only the place that line breaks look at.
    have hhead : ∃ safe', itemsAfter s i previous (.idle line init safe loose start)
        (c :: (x ++ rest)) =
          itemsAfter s (i + 1) (some c) (.idle line init safe' loose start) (x ++ rest) := by
      rcases hc.1 with h | rfl
      · exact ⟨safe, itemsAfter_skip h⟩
      · exact ⟨i + 1, itemsAfter_silent (by decide) (by
          simp [step, Scan.idle, atComma, settledInit, Except.map])⟩
    obtain ⟨safe₁, h₁⟩ := hhead
    obtain ⟨safe₂, previous₂, h₂, hprev⟩ := ih hquiet (i + 1) safe₁ (some c)
    by_cases hxn : x = []
    · subst hxn
      refine ⟨safe₁, some c, ?_, fun _ => by simpa using hc.2⟩
      simpa using h₁
    · refine ⟨safe₂, previous₂, ?_, fun _ => hprev hxn⟩
      rw [cons_append, h₁, h₂, length_cons, Nat.add_right_comm, Nat.add_assoc]

/-! ## Inside a block -/

/-- A point inside a block at which no quote and no parenthesis is open. -/
structure Scan.Inside (st : Scan) : Prop where
  quote : st.quote = none
  parentheses : st.parentheses = 0
  depth : st.depth ≠ 0

theorem Scan.Inside.deeper (h : st.Inside) :
    Scan.Inside { st with depth := st.depth + 1 } :=
  ⟨h.quote, h.parentheses, by simp⟩

/-- A text inside a block that leaves the search as it is. -/
def Passes (x : Text) : Prop :=
  ∀ (s : Text) {st : Scan}, st.Inside → ∀ (i : Nat) (previous : Option Char) (rest : Text),
    ∃ previous', itemsAfter s i previous st (x ++ rest) =
      itemsAfter s (i + x.length) previous' st rest

theorem Passes.append (hx : Passes x) (hy : Passes y) : Passes (x ++ y) := by
  intro s st hst i previous rest
  obtain ⟨p₁, h₁⟩ := hx s hst i previous (y ++ rest)
  obtain ⟨p₂, h₂⟩ := hy s hst (i + x.length) p₁ rest
  refine ⟨p₂, ?_⟩
  rw [append_assoc, h₁, h₂, length_append, Nat.add_assoc]

theorem Quiet.passes (hx : Quiet x) : Passes x := by
  intro s st hst
  induction x with
  | nil => exact fun i previous rest => ⟨previous, rfl⟩
  | cons c x ih =>
    intro i previous rest
    obtain ⟨previous', htail⟩ := ih (fun d hd => hx d (by simp [hd])) (i + 1) (some c) rest
    have hhead : itemsAfter s i previous st (c :: (x ++ rest)) =
        itemsAfter s (i + 1) (some c) st (x ++ rest) := by
      rcases (hx c (by simp)).1 with hc | rfl
      · exact itemsAfter_skip hc
      · exact itemsAfter_silent (by decide) (by
          simp [step, hst.quote, hst.parentheses, hst.depth])
    refine ⟨previous', ?_⟩
    rw [cons_append, hhead, htail, length_cons, Nat.add_right_comm, Nat.add_assoc]

theorem passes_semicolon : Passes [';'] := fun _ _ hst _ _ _ =>
  ⟨some ';', itemsAfter_silent (by decide) (by
    simp [step, hst.quote, hst.parentheses, hst.depth])⟩

/-- Braces around a text that passes take the search one level down and up again. -/
theorem Passes.braces (hx : Passes x) : Passes ('{' :: (x ++ ['}'])) := by
  intro s st hst i previous rest
  have hopen : itemsAfter s i previous st ('{' :: (x ++ '}' :: rest)) =
      itemsAfter s (i + 1) (some '{') { st with depth := st.depth + 1 } (x ++ '}' :: rest) :=
    itemsAfter_silent (by decide) (by
      simp [step, hst.quote, hst.parentheses, atOpening, hst.depth])
  obtain ⟨p, hbody⟩ := hx s hst.deeper (i + 1) (some '{') ('}' :: rest)
  have hclose : itemsAfter s (i + 1 + x.length) p { st with depth := st.depth + 1 } ('}' :: rest) =
      itemsAfter s (i + 1 + x.length + 1) (some '}') st rest := by
    obtain ⟨line, parentheses, quote, depth, interpolating, thin, init, safe, loose, start⟩ := st
    have hq : quote = none := hst.quote
    have hp : parentheses = 0 := hst.parentheses
    have hd : depth ≠ 0 := hst.depth
    subst hq hp
    exact itemsAfter_silent (by decide) (by simp [step, atClosing, hd])
  have hpos : i + 1 + x.length + 1 = i + ('{' :: (x ++ ['}'])).length := by
    simp only [length_cons, length_append, length_nil]
    omega
  refine ⟨some '}', ?_⟩
  rw [← hpos, ← hclose, ← hbody, ← hopen]
  simp

/-! ## Smooth texts -/

/-- A text that ends no line and leaves the search as it is, between lines and blocks and inside of
them; only the place that line breaks look at may change. -/
structure Glides (x : Text) : Prop where
  semicolon : ';' ∉ x
  passes : Passes x
  idles : ∀ (s : Text) (line : Int) (init loose start : Nat) (rest : Text) (i safe : Nat)
    (previous : Option Char), ∃ (safe' : Nat) (previous' : Option Char),
      itemsAfter s i previous (.idle line init safe loose start) (x ++ rest) =
        itemsAfter s (i + x.length) previous' (.idle line init safe' loose start) rest ∧
      (x ≠ [] → previous' ≠ some '#')

theorem Quiet.semicolon_notMem (h : Quiet x) : ';' ∉ x := by
  intro hm
  rcases (h _ hm).1 with hs | hs
  · exact absurd hs (by decide)
  · exact absurd hs (by decide)

theorem Quiet.glides (h : Quiet x) : Glides x :=
  ⟨h.semicolon_notMem, h.passes, fun _ line init loose start rest =>
    itemsAfter_quiet line init loose start rest h⟩

theorem Glides.append (hx : Glides x) (hy : Glides y) : Glides (x ++ y) where
  semicolon := by simp [hx.semicolon, hy.semicolon]
  passes := hx.passes.append hy.passes
  idles := by
    intro s line init loose start rest i safe previous
    obtain ⟨safe₁, p₁, h₁, hp₁⟩ := hx.idles s line init loose start (y ++ rest) i safe previous
    obtain ⟨safe₂, p₂, h₂, hp₂⟩ := hy.idles s line init loose start rest (i + x.length) safe₁ p₁
    by_cases hnil : y = []
    · subst hnil
      refine ⟨safe₁, p₁, ?_, ?_⟩
      · simpa using h₁
      · simpa using hp₁
    · refine ⟨safe₂, p₂, ?_, fun _ => hp₂ hnil⟩
      rw [append_assoc, h₁, h₂, length_append, Nat.add_assoc]

theorem glides_interpolation {e : Text} (he : Quiet e) : Glides (interpolation e) where
  semicolon := by simp [interpolation, he.semicolon_notMem]
  passes := by
    have hsharp : Passes ['#'] := fun _ _ _ _ _ _ => ⟨some '#', itemsAfter_skip (by decide)⟩
    exact hsharp.append he.passes.braces
  idles := by
    intro s line init loose start rest i safe previous
    let st : Scan := { Scan.idle line init safe loose start with interpolating := true, depth := 1 }
    have hst : st.Inside := ⟨rfl, rfl, by simp [st]⟩
    have hsharp : itemsAfter s i previous (.idle line init safe loose start)
        ('#' :: '{' :: (e ++ '}' :: rest)) =
          itemsAfter s (i + 1) (some '#') (.idle line init safe loose start)
            ('{' :: (e ++ '}' :: rest)) := itemsAfter_skip (by decide)
    have hopen : itemsAfter s (i + 1) (some '#') (.idle line init safe loose start)
        ('{' :: (e ++ '}' :: rest)) =
          itemsAfter s (i + 1 + 1) (some '{') st (e ++ '}' :: rest) :=
      itemsAfter_silent (by decide) (by simp [step, Scan.idle, atOpening, st])
    obtain ⟨p, hbody⟩ := he.passes s hst (i + 1 + 1) (some '{') ('}' :: rest)
    have hclose : itemsAfter s (i + 1 + 1 + e.length) p st ('}' :: rest) =
        itemsAfter s (i + 1 + 1 + e.length + 1) (some '}')
          (.idle line init safe loose start) rest :=
      itemsAfter_silent (by decide) (by simp [step, Scan.idle, atClosing, st])
    have hpos : i + 1 + 1 + e.length + 1 = i + (interpolation e).length := by
      simp only [interpolation, length_cons, length_append, length_nil]
      omega
    refine ⟨safe, some '}', ?_, fun _ => by decide⟩
    rw [← hpos, ← hclose, ← hbody, ← hopen, ← hsharp]
    simp [interpolation]

theorem Outline.Even.glides (h : Outline.Even t) : Glides t := by
  cases h.smooth with
  | plain ht => exact (quiet_of_isEven ht).glides
  | ending ht he =>
    exact (quiet_of_isEven ht).glides.append (glides_interpolation (quiet_of_isEven he))

theorem passes_write (ho : o.AllEven) :
    ∀ {lead : Text}, Quiet lead → Passes (o.write gapOf lead) := by
  induction o with
  | nil => exact fun _ => Quiet.passes (by simp [Quiet, Outline.write])
  | line t rest ih =>
    intro lead hlead
    have hline := (hlead.passes.append ho.1.glides.passes).append
      (passes_semicolon.append (ih ho.2 quiet_blank))
    simpa [Outline.write] using hline
  | block h body rest ihb ihr =>
    intro lead hlead
    have hhead : Passes (lead ++ (h ++ gapOf h)) :=
      hlead.passes.append (ho.1.glides.passes.append (quiet_gapOf h).passes)
    have hbody : Passes (body.write gapOf [' '] ++ [' ']) :=
      (ihb ho.2.1 quiet_blank).append quiet_blank.passes
    have hblock := hhead.append (hbody.braces.append (ihr ho.2.2 quiet_blank))
    simpa [Outline.write] using hblock

/-! ## Reading lines and heads -/

theorem slice_append (a b c : Text) :
    slice (a ++ (b ++ c)) a.length (a.length + b.length) = b := by
  simp [slice]

theorem dropTags_of_notMem (h : '\n' ∉ x) : dropTags x = x := by
  simp [dropTags, splitOn_of_notMem h, joinWith]

theorem readHead_of_unmarked (line : Int) (hmark : mark ∉ x) (hbreak : '\n' ∉ x) :
    readHead line x = .ok (line, trim x) := by
  simp [readHead, cut?_eq_none_of_notMem hmark, dropTags_of_notMem hbreak]

/-- Behind `lead`, a line or a head is read as it is, and so is the line number. -/
def Leads (line : Int) (lead : Text) (line' : Int) : Prop :=
  ∀ t b : Text, Outline.Even t → b = [] ∨ b = [' '] →
    readHead line (lead ++ (t ++ b)) = .ok (line', t)

theorem gapOf_cases (h : Text) : gapOf h = [] ∨ gapOf h = [' '] := by
  unfold gapOf
  split
  · exact Or.inl rfl
  · exact Or.inr rfl

theorem leads_of_blanks (line : Int) (hlead : lead = [] ∨ lead = [' ']) : Leads line lead line := by
  intro t b ht hb
  have hspaces : ∀ x : Text, x = [] ∨ x = [' '] → ∀ c ∈ x, c = ' ' := by
    rintro x (rfl | rfl) c hc
    · simp at hc
    · simpa using hc
  have hnot : ∀ d : Char, isEven d = false → d ∉ ['#', '{', '}'] →
      d ∉ lead ++ (t ++ b) := by
    intro d hd hsign hmem
    have hne : d ≠ ' ' := by
      rintro rfl
      exact absurd hd (by decide)
    simp only [mem_append] at hmem
    rcases hmem with h | h | h
    · exact hne (hspaces lead hlead d h)
    · exact ht.notMem hd hsign h
    · exact hne (hspaces b hb d h)
  rw [readHead_of_unmarked line (hnot mark (by decide) (by decide))
      (hnot '\n' (by decide) (by decide)),
    trim_pad (fun c hc => ?_) (fun c hc => ?_) ht.tight]
  · rw [hspaces lead hlead c hc]; decide
  · rw [hspaces b hb c hc]; decide

theorem looseItems_append {qs : List Text} {line' : Int}
    (h : looseItems line ps = (found, .ok line')) :
    looseItems line (ps ++ qs) =
      (found ++ (looseItems line' qs).1, (looseItems line' qs).2) := by
  induction ps generalizing line found with
  | nil =>
    simp only [looseItems, Prod.mk.injEq, Except.ok.injEq] at h
    obtain ⟨rfl, rfl⟩ := h
    simp
  | cons p ps ih =>
    simp only [cons_append, looseItems] at h ⊢
    cases hread : readHead line p with
    | error f => simp [hread] at h
    | ok r =>
      obtain ⟨line₁, head⟩ := r
      simp only [hread] at h ⊢
      cases hrest : looseItems line₁ ps with
      | mk items result =>
        simp only [hrest, Prod.mk.injEq] at h
        obtain ⟨hfound, rfl⟩ := h
        rw [ih hrest, ← hfound]
        by_cases hempty : head.isEmpty <;> simp [hempty]

theorem looseItems_snoc (h : looseItems line ps = (found, .ok line₁))
    (hlead : Leads line₁ lead line₂) (ht : Outline.Even t) :
    looseItems line (ps ++ [lead ++ t]) = (found ++ [⟨line₂, t, none⟩], .ok line₂) := by
  have hread : readHead line₁ (lead ++ t) = .ok (line₂, t) := by
    simpa using hlead t [] ht (Or.inl rfl)
  have hne : t.isEmpty = false := by simpa using ht.ne_nil
  simp [looseItems_append h, looseItems, hread, hne]

theorem looseItems_blank (h : looseItems line ps = (found, .ok line₁))
    (hx : readHead line₁ x = .ok (line₂, [])) :
    looseItems line (ps ++ [x]) = (found, .ok line₂) := by
  simp [looseItems_append h, looseItems, hx]

/-- The lines that have not been given out, each with its semicolon. -/
def pending (ps : List Text) : Text := ps.flatMap (· ++ [';'])

/-- Where the search stands idle, with lines waiting behind `before`. -/
def standing (before : Text) (ps : List Text) : Nat := before.length + (pending ps).length

theorem pending_snoc (ps : List Text) (x : Text) :
    pending (ps ++ [x]) = pending ps ++ (x ++ [';']) := by
  simp [pending]

theorem splitOn_pending (hps : ∀ p ∈ ps, ';' ∉ p) (hx : ';' ∉ x) :
    Text.splitOn ';' (pending ps ++ x) = ps ++ [x] := by
  induction ps with
  | nil => simpa [pending] using splitOn_of_notMem hx
  | cons p ps ih =>
    have hp : ';' ∉ p := hps p (by simp)
    have hrest := ih fun q hq => hps q (by simp [hq])
    have hsplit : pending (p :: ps) ++ x = p ++ ';' :: (pending ps ++ x) := by
      simp [pending]
    rw [hsplit, splitOn_append _ hp, hrest]
    rfl

/-! ## Lines and blocks -/

/-- A text behind the last line or block in which there is nothing. -/
structure Closing (s tail : Text) : Prop where
  semicolon : ';' ∉ tail
  reads : ∀ line, ∃ line', readHead line tail = .ok (line', [])
  passes : ∀ (line : Int) (loose start : Nat) (previous : Option Char), ∃ st : Scan,
    itemsFrom s (s.length - tail.length) previous
        (.idle line (s.length - tail.length) (s.length - tail.length) loose start) tail =
      ([], .ok st) ∧ st.depth = 0 ∧ st.line = line ∧ st.loose = loose

theorem closing_nil (s : Text) : Closing s [] where
  semicolon := by simp
  reads := fun line => ⟨line, readHead_of_unmarked line (by simp) (by simp)⟩
  passes := fun line loose start previous => ⟨_, rfl, rfl, rfl, rfl⟩

/-- At the end of the text the lines since the last block are given out. -/
theorem itemsAfter_closing (before : Text) {tail : Text}
    (hclose : Closing (before ++ (pending ps ++ tail)) tail) (hps : ∀ p ∈ ps, ';' ∉ p)
    (hloose : looseItems line ps = (found, .ok line₁)) (start : Nat) (previous : Option Char) :
    itemsAfter (before ++ (pending ps ++ tail)) (standing before ps) previous
        (.idle line (standing before ps) (standing before ps) before.length start) tail =
      ⟨found, none⟩ := by
  have hpos : (before ++ (pending ps ++ tail)).length - tail.length = standing before ps := by
    simp only [length_append, standing]
    omega
  obtain ⟨st, hrun, hdepth, hline, hst⟩ := hclose.passes line before.length start previous
  rw [hpos] at hrun
  obtain ⟨line', hread⟩ := hclose.reads line₁
  have hlast : looseItems line (Text.splitOn ';' (pending ps ++ tail)) = (found, .ok line') := by
    rw [splitOn_pending hps hclose.semicolon]
    exact looseItems_blank hloose hread
  simp [itemsAfter, hrun, hdepth, lastItems, hline, hst, hlast, Items.prepend]

theorem itemsAfter_semicolon (line : Int) (init safe loose start i : Nat)
    (previous : Option Char) :
    itemsAfter s i previous (.idle line init safe loose start) (';' :: r) =
      itemsAfter s (i + 1) (some ';') (.idle line (i + 1) (i + 1) loose start) r :=
  itemsAfter_silent (by decide) (by simp [step, Scan.idle])

/-- The search right behind the brace that opens a block. -/
def Scan.opened (line : Int) (init safe start : Nat) : Scan :=
  { line, init, safe, loose := init, start, depth := 1 }

theorem itemsAfter_open (before rest r : Text) (hps : ∀ p ∈ ps, ';' ∉ p)
    (hloose : looseItems line ps = (found, .ok line₁)) (safe start i : Nat)
    (hprev : previous ≠ some '#') :
    itemsAfter (before ++ (pending ps ++ rest)) i previous
        (.idle line (standing before ps) safe before.length start) ('{' :: r) =
      (itemsAfter (before ++ (pending ps ++ rest)) (i + 1) (some '{')
        (.opened line₁ (standing before ps) safe i) r).prepend found := by
  refine itemsAfter_step (by decide) ?_
  have hread : readHead line₁ [] = .ok (line₁, []) :=
    readHead_of_unmarked line₁ (by simp) (by simp)
  have hall : looseItems line (Text.splitOn ';' (pending ps)) = (found, .ok line₁) := by
    have hsplit := splitOn_pending (x := []) hps (by simp)
    rw [append_nil] at hsplit
    rw [hsplit]
    exact looseItems_blank hloose hread
  have hslice : slice (before ++ (pending ps ++ rest)) before.length (standing before ps) =
      pending ps := slice_append _ _ _
  by_cases hnone : pending ps = []
  · -- No line waits, so that nothing is read and the number of the line stays.
    have hnil : ps = [] := by
      cases ps with
      | nil => rfl
      | cons p ps => simp [pending] at hnone
    subst hnil
    simp only [looseItems, Prod.mk.injEq, Except.ok.injEq] at hloose
    obtain ⟨rfl, rfl⟩ := hloose
    simp [step, Scan.idle, atOpening, hprev, settledInit, Scan.opened, standing, hnone]
  · have hlt : before.length < standing before ps := by
      simpa [standing] using length_pos_of_ne_nil hnone
    simp [step, Scan.idle, atOpening, hprev, settledInit, Scan.opened, hslice, hall, hlt]

theorem itemsAfter_close (before body rest r : Text) (safe : Nat) (hlead : Leads line₁ lead line₂)
    (hh : Outline.Even h) (previous : Option Char) :
    let raw := lead ++ (h ++ gapOf h)
    let start := before.length + raw.length
    itemsAfter (before ++ (raw ++ '{' :: (body ++ '}' :: rest))) (start + 1 + body.length) previous
        (.opened line₁ before.length safe start) ('}' :: r) =
      (itemsAfter (before ++ (raw ++ '{' :: (body ++ '}' :: rest))) (start + 1 + body.length + 1)
        (some '}') (.idle line₂ (start + 1 + body.length + 1) (start + 1 + body.length + 1)
          (start + 1 + body.length + 1) start) r).prepend
        [⟨line₂, h, some (trim body)⟩] := by
  intro raw start
  refine itemsAfter_step (by decide) ?_
  have hread : readHead line₁ raw = .ok (line₂, h) := hlead h _ hh (gapOf_cases h)
  have hhead : slice (before ++ (raw ++ '{' :: (body ++ '}' :: rest))) before.length start = raw :=
    slice_append _ _ _
  have hbody : slice (before ++ (raw ++ '{' :: (body ++ '}' :: rest))) (start + 1)
      (start + 1 + body.length) = body := by
    have hassoc : before ++ (raw ++ '{' :: (body ++ '}' :: rest)) =
        (before ++ (raw ++ ['{'])) ++ (body ++ '}' :: rest) := by simp
    have hlen : (before ++ (raw ++ ['{'])).length = start + 1 := by
      simp only [length_append, length_cons, length_nil, start]
      omega
    rw [hassoc, ← hlen]
    exact slice_append _ _ _
  have hne : h.isEmpty = false := by simpa using hh.ne_nil
  simp [step, Scan.opened, atClosing, hhead, hread, hbody, hne, Scan.idle]

/-- A line takes the search to the point behind its semicolon, where the line waits. -/
theorem itemsAfter_line {after : Text} (before : Text) (ps : List Text) (line : Int)
    (start : Nat) (previous : Option Char) {raw : Text} (hraw : Glides raw) :
    itemsAfter s (standing before ps) previous
        (.idle line (standing before ps) (standing before ps) before.length start)
        (raw ++ ';' :: after) =
      itemsAfter s (standing before (ps ++ [raw])) (some ';')
        (.idle line (standing before (ps ++ [raw])) (standing before (ps ++ [raw])) before.length
          start) after := by
  obtain ⟨safe, p₁, h₁, _⟩ := hraw.idles s line (standing before ps) before.length start
    (';' :: after) (standing before ps) (standing before ps) previous
  have hpos : standing before ps + raw.length + 1 = standing before (ps ++ [raw]) := by
    simp only [standing, pending_snoc, length_append, length_cons, length_nil]
    omega
  rw [h₁, itemsAfter_semicolon, hpos]

/-- A block takes the search to the point behind its closing brace, where nothing waits. -/
theorem itemsAfter_block {inner : Text} (before after : Text) (ps : List Text)
    (hps : ∀ p ∈ ps, ';' ∉ p) (hloose : looseItems line ps = (found, .ok line₁))
    (hlead : Leads line₁ lead line₂) (hquiet : Quiet lead) (hh : Outline.Even h)
    (hinner : Passes inner) (start : Nat) (previous : Option Char) :
    let raw := lead ++ (h ++ gapOf h)
    let passed := before ++ (pending ps ++ (raw ++ '{' :: (inner ++ ['}'])))
    s = before ++ (pending ps ++ (raw ++ '{' :: (inner ++ '}' :: after))) →
    ∃ start', itemsAfter s (standing before ps) previous
        (.idle line (standing before ps) (standing before ps) before.length start)
        (raw ++ '{' :: (inner ++ '}' :: after)) =
      (itemsAfter s (standing passed []) (some '}')
        (.idle line₂ (standing passed []) (standing passed []) passed.length start')
        after).prepend (found ++ [⟨line₂, h, some (trim inner)⟩]) := by
  intro raw passed hs
  have hraw : Glides raw := hquiet.glides.append (hh.glides.append (quiet_gapOf h).glides)
  have hne : raw ≠ [] := by simp [raw, hh.ne_nil]
  have hassoc : s = (before ++ pending ps) ++ (raw ++ '{' :: (inner ++ '}' :: after)) :=
    hs.trans (append_assoc _ _ _).symm
  obtain ⟨opening, hopening⟩ : ∃ n, standing before ps + raw.length = n := ⟨_, rfl⟩
  have hinit : (before ++ pending ps).length = standing before ps := by simp [standing]
  have hpos : standing passed [] = opening + 1 + inner.length + 1 := by
    simp only [← hopening, standing, passed, pending, flatMap_nil, length_append,
      length_cons, length_nil]
    omega
  have hpassed : passed.length = standing passed [] := by simp [standing, pending]
  -- The head, the brace, the body, and the brace that closes it.
  obtain ⟨safe, p₁, h₁, hp₁⟩ := hraw.idles s line (standing before ps) before.length start
    ('{' :: (inner ++ '}' :: after)) (standing before ps) (standing before ps) previous
  rw [hopening] at h₁
  have h₂ := itemsAfter_open before (raw ++ '{' :: (inner ++ '}' :: after))
    (inner ++ '}' :: after) hps hloose safe start opening (hp₁ hne)
  rw [← hs] at h₂
  have hinside : (Scan.opened line₁ (standing before ps) safe opening).Inside :=
    ⟨rfl, rfl, by simp [Scan.opened]⟩
  obtain ⟨p₃, h₃⟩ := hinner s hinside (opening + 1) (some '{') ('}' :: after)
  have h₄ := itemsAfter_close (before ++ pending ps) inner after after safe hlead hh p₃
  simp only [hinit] at h₄
  rw [hopening, ← hassoc] at h₄
  refine ⟨opening, ?_⟩
  rw [h₁, h₂, h₃, h₄, hpassed, hpos]
  simp [Items.prepend]

/-- From a point between lines and blocks on, the search gives the lines that wait and the items
of what is still to come. -/
theorem itemsAfter_write {tail : Text} (hclose : Closing s tail)
    (ho : o.AllEven) :
    ∀ (before : Text) (ps : List Text) {lead : Text} {line line₁ line₂ : Int}
      {found : List Item} (start : Nat) (previous : Option Char),
      s = before ++ (pending ps ++ (o.write gapOf lead ++ tail)) →
      (∀ p ∈ ps, ';' ∉ p) → looseItems line ps = (found, .ok line₁) →
      Leads line₁ lead line₂ → Quiet lead →
      itemsAfter s (standing before ps) previous
          (.idle line (standing before ps) (standing before ps) before.length start)
          (o.write gapOf lead ++ tail) =
        ⟨found ++ o.items line₂, none⟩ := by
  induction o with
  | nil =>
    intro before ps lead line line₁ line₂ found start previous hs hps hloose _ _
    subst hs
    simpa [Outline.items, Outline.write] using
      itemsAfter_closing before hclose hps hloose start previous
  | line t rest ih =>
    intro before ps lead line line₁ line₂ found start previous hs hps hloose hlead hquiet
    have hraw : Glides (lead ++ t) := hquiet.glides.append ho.1.glides
    have htext : Outline.write gapOf lead (.line t rest) ++ tail =
        (lead ++ t) ++ ';' :: (rest.write gapOf [' '] ++ tail) := by
      simp [Outline.write]
    have hs' : s = before ++
        (pending (ps ++ [lead ++ t]) ++ (rest.write gapOf [' '] ++ tail)) := by
      rw [hs, htext, pending_snoc]
      simp
    have hps' : ∀ p ∈ ps ++ [lead ++ t], ';' ∉ p := by
      intro p hp
      rcases mem_append.mp hp with h | h
      · exact hps p h
      · rw [mem_singleton.mp h]
        exact hraw.semicolon
    rw [htext, itemsAfter_line before ps line start previous hraw,
      ih ho.2 _ _ start (some ';') hs' hps' (looseItems_snoc hloose hlead ho.1)
        (leads_of_blanks line₂ (Or.inr rfl)) quiet_blank]
    simp [Outline.items]
  | block h body rest _ ih =>
    intro before ps lead line line₁ line₂ found start previous hs hps hloose hlead hquiet
    have htext : Outline.write gapOf lead (.block h body rest) ++ tail =
        (lead ++ (h ++ gapOf h)) ++ '{' :: ((body.write gapOf [' '] ++ [' ']) ++
          '}' :: (rest.write gapOf [' '] ++ tail)) := by
      simp [Outline.write]
    rw [htext] at hs
    have hbody : Passes (body.write gapOf [' '] ++ [' ']) :=
      (passes_write ho.2.1 quiet_blank).append quiet_blank.passes
    obtain ⟨start', hblock⟩ :=
      itemsAfter_block before _ ps hps hloose hlead hquiet ho.1 hbody start previous hs
    rw [Outline.trim_body ho.2.1] at hblock
    rw [htext, hblock, ih ho.2.2 _ [] start' (some '}') (by rw [hs]; simp [pending]) (by simp)
      (rfl : looseItems line₂ [] = ([], .ok line₂)) (leads_of_blanks line₂ (Or.inr rfl))
      quiet_blank]
    simp [Items.prepend, Outline.items]

/-- The items of a written outline behind `lead` are those of the outline. -/
theorem items_write (ho : o.AllEven) {tail : Text}
    (hclose : Closing (o.write gapOf lead ++ tail) tail) (hlead : Leads 0 lead line)
    (hquiet : Quiet lead) : items (o.write gapOf lead ++ tail) = ⟨o.items line, none⟩ := by
  rw [items_eq]
  exact itemsAfter_write hclose ho [] [] 0 none (by simp [pending])
    (by simp) rfl hlead hquiet

theorem items_block {inner : Text} (hh : Outline.Even h) (hinner : Passes inner) :
    items (h ++ (gapOf h ++ '{' :: (inner ++ ['}']))) =
      ⟨[⟨0, h, some (trim inner)⟩], none⟩ := by
  have hnone : looseItems 0 [] = ([], .ok 0) := rfl
  obtain ⟨start, hblock⟩ := itemsAfter_block [] [] [] (by simp) hnone
    (leads_of_blanks 0 (Or.inl rfl)) (by simp [Quiet]) hh hinner 0 none rfl
  have hlast := itemsAfter_closing (h ++ (gapOf h ++ '{' :: (inner ++ ['}'])))
    (closing_nil _) (by simp) hnone start (some '}')
  simp only [append_nil, nil_append, pending, flatMap_nil,
    append_assoc] at hblock hlast
  rw [hlast] at hblock
  rw [items_eq]
  simpa [standing, pending, Items.prepend, Scan.idle] using hblock

theorem items_code (ho : o.AllEven) : items o.code = ⟨o.items 0, none⟩ := by
  have h := items_write ho (closing_nil _) (leads_of_blanks 0 (Or.inl rfl)) (by simp [Quiet])
  rwa [append_nil] at h

end SheetPress.Source
