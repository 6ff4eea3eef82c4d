import SheetPress.Proofs.Source.Parts

/-!
# The search for items

The search for items remembers only positions.  `Scan.Placed` says how they lie and what is open
between them, `Scan.Started` that each of them is the start of the source or stands behind one of
the characters that `isBorder` names, and `GivesOut` ties the items that were given out to the
parts of the source that has been passed.  One character keeps all three, unless something that
starts at a border cannot be read (`step_reaches`), and so does a whole run
(`itemsFrom_reaches`).
-/

set_option autoImplicit false

namespace SheetPress.Source

open List

/-! ## Where the search stands -/

/-- What is open where the search stands. -/
def Scan.brackets (st : Scan) : Brackets := ⟨st.quote, st.parentheses, st.depth⟩

/-- The search is in a block: its head and its brace have been passed, and since then nothing
has closed it. -/
structure Scan.InBlock (s : Text) (i : Nat) (st : Scan) : Prop where
  loose : st.loose = st.init
  init_le : st.init ≤ st.start
  start_lt : st.start < i
  brace : s[st.start]? = some '{'
  inner : Brackets.after (slice s (st.start + 1) i) = { st.brackets with depth := st.depth - 1 }
  own : ∀ y z : Text, slice s (st.start + 1) i = y ++ '}' :: z → Brackets.after y ≠ {}

/-- The positions that the search remembers at `i` are in order. -/
structure Scan.Placed (s : Text) (i : Nat) (st : Scan) : Prop where
  brackets : st.brackets = Brackets.after (s.take i)
  loose_le : st.loose ≤ st.init
  init_le : st.init ≤ i
  thin : ∀ t ∈ st.thin, st.init ≤ t ∧ t ≤ i
  block : st.depth ≠ 0 → st.interpolating = false → st.InBlock s i

/-- The items come from the parts of the source between two positions. -/
def GivesOut (s : Text) (a b : Nat) (found : List Item) : Prop :=
  ∃ parts, parts.flatMap Part.text = slice s a b ∧ Gives parts found

/-! ## Borders -/

/-- The characters behind which a head, a property or a line may start. -/
def isBorder (c : Char) : Bool := c == ';' || c == '}' || c == ',' || c == '(' || c == '\n'

/-- The text ends inside a block: a brace that is not an interpolation's was opened, and has not
been closed since. -/
def EndsInBlock (x : Text) : Prop :=
  ∃ y z, x = y ++ '{' :: z ∧ Brackets.after y = {} ∧ y.getLast? ≠ some '#' ∧
    ∀ w, w <+: z → (Brackets.after (y ++ '{' :: w)).depth ≠ 0

/-- The text `x` stands in the source behind `u`, outside of blocks.  It starts with the source or
behind a border, and no semicolon in its first line ends it: whatever semicolon stands there is
inside quotes, parentheses or braces. -/
structure Begins (s u x : Text) : Prop where
  inside : u ++ x <+: s
  outside : ¬ EndsInBlock u
  border : ∀ c ∈ u.getLast?, isBorder c = true
  lasts : ∀ y z, x = y ++ ';' :: z → '\n' ∉ y → Brackets.after (u ++ y) ≠ {}

/-- Something in the source is read and cannot be read. -/
def Stumbles (s : Text) (f : Fault) : Prop :=
  ∃ u x, Begins s u x ∧ ∃ line, readHead line x = .error f

/-- Something starts at `a`, and up to `i` no semicolon ends it. -/
structure Opens (s : Text) (i a : Nat) : Prop where
  le : a ≤ i
  border : ∀ b, a = b + 1 → ∃ c, s[b]? = some c ∧ isBorder c = true
  lasts : ∀ j, a ≤ j → j < i → s[j]? = some ';' → Brackets.after (s.take j) ≠ {}

/-- From one position to another the source is outside of blocks. -/
def Outside (s : Text) (a b : Nat) : Prop := ∀ j, a ≤ j → j ≤ b → ¬ EndsInBlock (s.take j)

/-- All positions that the search remembers at `i` are places where something starts, outside of
the block in which the search may be. -/
structure Scan.Started (s : Text) (i : Nat) (st : Scan) : Prop where
  init : Opens s i st.init
  safe : Opens s i st.safe
  thin : ∀ t ∈ st.thin, 0 < t ∧ Opens s i t
  loose : Opens s st.loose st.loose
  outside : st.depth = 0 ∨ st.interpolating = true → st.loose ≤ st.safe ∧ Outside s st.loose i
  head : st.depth ≠ 0 → st.interpolating = false → Outside s st.loose st.start
  interpolation : st.interpolating = true → st.depth ≠ 0

/-- The codes of the items stand in the source. -/
def CodesIn (s : Text) (found : List Item) : Prop := ∀ i ∈ found, ∀ t ∈ i.code, t <:+: s

section Search

variable {a b : Nat} {x : Text} {f : Fault}

variable {s : Text} {i : Nat} {c : Char} {previous : Option Char} {st st' : Scan}

theorem slice_self (s : Text) (a : Nat) : slice s a a = [] := by simp [slice]

theorem slice_succ (hc : s[i]? = some c) (ha : a ≤ i) :
    slice s a (i + 1) = slice s a i ++ [c] := by
  have hlen : i + 1 - a = (i - a) + 1 := by omega
  have hget : (s.drop a)[i - a]? = some c := by
    rw [getElem?_drop, show a + (i - a) = i by omega, hc]
  rw [slice, slice, hlen, take_add_one, hget]
  rfl

theorem slice_split {d : Nat} (hab : a ≤ b) (hbd : b ≤ d) :
    slice s a d = slice s a b ++ slice s b d := by
  have hlen : d - a = (b - a) + (d - b) := by omega
  rw [slice, slice, slice, hlen, take_add, drop_drop, show a + (b - a) = b by omega]

theorem givesOut_nil (s : Text) (a : Nat) : GivesOut s a a [] :=
  ⟨[], by simp [slice_self], .nil⟩

theorem GivesOut.append {d : Nat} {found more : List Item} (h : GivesOut s a b found)
    (h' : GivesOut s b d more) (hab : a ≤ b) (hbd : b ≤ d) : GivesOut s a d (found ++ more) := by
  obtain ⟨ps, hps, hfound⟩ := h
  obtain ⟨qs, hqs, hmore⟩ := h'
  exact ⟨ps ++ qs, by rw [flatMap_append, hps, hqs, slice_split hab hbd], hfound.append hmore⟩

theorem after_take_succ (hc : s[i]? = some c) :
    Brackets.after (s.take (i + 1)) = (Brackets.after (s.take i)).pass c := by
  rw [take_add_one, hc]
  exact Brackets.after_snoc _ _

theorem Scan.InBlock.next (h : st.InBlock s i) (hc : s[i]? = some c) (hdepth : st.depth ≠ 0)
    (hpass : st'.brackets = st.brackets.pass c) (hdepth' : st'.depth ≠ 0)
    (hloose : st'.loose = st.loose) (hinit : st'.init = st.init) (hstart : st'.start = st.start) :
    st'.InBlock s (i + 1) := by
  have hstill : (st.brackets.pass c).depth ≠ 0 := by
    rw [← hpass]
    exact hdepth'
  have hslice := slice_succ hc (Nat.succ_le_of_lt h.start_lt)
  have hshallower := Brackets.pass_shallower (b := st.brackets) hdepth hstill
  constructor
  · rw [hloose, hinit, h.loose]
  · rw [hinit, hstart]
    exact h.init_le
  · rw [hstart]
    exact Nat.lt_succ_of_lt h.start_lt
  · rw [hstart, h.brace]
  · rw [hstart, hslice, Brackets.after_snoc, h.inner, ← hpass] at *
    exact hshallower
  · intro y z hyz
    rw [hstart, hslice] at hyz
    rcases eq_nil_or_concat z with rfl | ⟨z, d, rfl⟩
    · -- The brace is the character that was passed; were nothing open before it, it would have
      -- closed the block.
      obtain ⟨rfl, hbrace⟩ := append_inj' hyz rfl
      obtain rfl := singleton_inj.mp hbrace
      intro hnone
      rw [h.inner] at hnone
      obtain ⟨hquote, hparentheses, hlast⟩ := Brackets.mk.inj hnone
      refine hstill ?_
      rw [show st.brackets = ⟨none, 0, st.depth⟩ by rw [← hquote, ← hparentheses]; rfl]
      exact hlast
    · rw [concat_eq_append, ← cons_append, ← append_assoc] at hyz
      exact h.own y z (append_inj' hyz rfl).1

theorem EndsInBlock.depth_ne (h : EndsInBlock x) : (Brackets.after x).depth ≠ 0 := by
  obtain ⟨y, z, rfl, -, -, hdepth⟩ := h
  exact hdepth z prefix_rfl

/-- A block starts only with a brace. -/
theorem EndsInBlock.of_snoc (h : EndsInBlock (x ++ [c])) :
    EndsInBlock x ∨ c = '{' ∧ Brackets.after x = {} ∧ x.getLast? ≠ some '#' := by
  obtain ⟨y, z, hx, hnone, hsharp, hdepth⟩ := h
  rcases eq_nil_or_concat z with rfl | ⟨z, d, rfl⟩
  · obtain ⟨rfl, hbrace⟩ := append_inj' hx rfl
    exact .inr ⟨singleton_inj.mp hbrace, hnone, hsharp⟩
  · rw [concat_eq_append, ← cons_append, ← append_assoc] at hx
    obtain ⟨rfl, -⟩ := append_inj' hx rfl
    refine .inl ⟨y, z, rfl, hnone, hsharp, fun w hw => hdepth w ?_⟩
    exact hw.trans (concat_eq_append ▸ prefix_append z [d])

theorem Outside.mono {a' b' : Nat} (h : Outside s a b) (ha : a ≤ a') (hb : b' ≤ b) :
    Outside s a' b' :=
  fun j hj hle => h j (ha.trans hj) (hle.trans hb)

theorem Outside.next (h : Outside s a i) (hc : s[i]? = some c) (ha : a ≤ i)
    (hbrace : c = '{' → Brackets.after (s.take i) = {} → (s.take i).getLast? = some '#') :
    Outside s a (i + 1) := by
  intro j hj hle hends
  rcases Nat.lt_or_eq_of_le hle with hlt | rfl
  · exact h j hj (Nat.le_of_lt_succ hlt) hends
  · rw [take_add_one, hc] at hends
    rcases EndsInBlock.of_snoc hends with hends | ⟨rfl, hnone, hsharp⟩
    · exact h i ha le_rfl hends
    · exact hsharp (hbrace rfl hnone)

theorem codesIn_nil (s : Text) : CodesIn s [] := by simp [CodesIn]

theorem CodesIn.append {found more : List Item} (h : CodesIn s found) (h' : CodesIn s more) :
    CodesIn s (found ++ more) := by
  intro i hi
  rcases mem_append.mp hi with hi | hi
  · exact h i hi
  · exact h' i hi

theorem codesIn_of_none {found : List Item} (h : ∀ i ∈ found, i.code = none) : CodesIn s found := by
  intro i hi t ht
  rw [h i hi] at ht
  cases ht

theorem isInfix_trim (x : Text) : Text.trim x <:+: x := by
  obtain ⟨a, b, -, -, hx⟩ := Text.exists_trim x
  exact ⟨a, b, by rw [append_assoc, ← hx]⟩

theorem isInfix_slice (s : Text) (a b : Nat) : slice s a b <:+: s :=
  (List.take_prefix _ _).isInfix.trans (drop_suffix _ _).isInfix

theorem Opens.self (h : Opens s i a) : Opens s a a :=
  ⟨le_rfl, h.border, fun _ hj hlt => absurd hlt (Nat.not_lt.mpr hj)⟩

theorem Opens.next (h : Opens s i a)
    (hopen : s[i]? = some ';' → Brackets.after (s.take i) ≠ {}) : Opens s (i + 1) a := by
  refine ⟨Nat.le_succ_of_le h.le, h.border, fun j hj hlt => ?_⟩
  rcases Nat.lt_succ_iff_lt_or_eq.mp hlt with hlt | rfl
  · exact h.lasts j hj hlt
  · exact hopen

theorem opens_behind (hc : s[i]? = some c) (hborder : isBorder c = true) :
    Opens s (i + 1) (i + 1) := by
  refine ⟨le_rfl, ?_, fun _ hj hlt => absurd hlt (Nat.not_lt.mpr hj)⟩
  intro b hb
  obtain rfl : i = b := Nat.succ.inj hb
  exact ⟨c, hc, hborder⟩

theorem Opens.getLast? (h : Opens s i a) :
    ∀ c ∈ (s.take a).getLast?, isBorder c = true := by
  intro c hc
  cases a with
  | zero => simp at hc
  | succ b =>
    obtain ⟨d, hd, hborder⟩ := h.border b rfl
    rw [take_add_one, hd] at hc
    obtain rfl : d = c := by simpa using hc
    exact hborder

theorem take_append_slice (s : Text) (a b : Nat) :
    s.take a ++ slice s a b = s.take (a + (b - a)) := by
  rw [slice, take_add]

theorem Opens.begins (h : Opens s i a) (hout : ¬ EndsInBlock (s.take a)) (hb : b ≤ i) :
    Begins s (s.take a) (slice s a b) := by
  refine ⟨?_, hout, h.getLast?, ?_⟩
  · rw [take_append_slice]
    exact take_prefix _ _
  · intro y z hyz _
    have hlength : y.length < b - a := by
      have := congrArg length hyz
      simp only [slice, length_take, length_append, length_cons] at this
      omega
    have hget : s[a + y.length]? = some ';' := by
      have := congrArg (·[y.length]?) hyz
      simpa [slice, getElem?_take, hlength] using this
    have htake : s.take (a + y.length) = s.take a ++ y := by
      have := congrArg (take y.length) hyz
      rw [slice, take_take, Nat.min_eq_left hlength.le, take_left' rfl] at this
      rw [take_add, this]
    rw [← htake]
    exact h.lasts _ (Nat.le_add_right _ _) (by omega) hget

/-- What is read up to the last character but one.  At the first position that is nearly the
whole source, whose first line is then empty. -/
theorem Opens.begins_short (h : Opens s i a) (hout : ¬ EndsInBlock (s.take a))
    (hi : i = 0 → s[i]? = some '\n') : Begins s (s.take a) (sliceShort s a i) := by
  cases i with
  | succ k => exact h.begins hout (Nat.le_succ k)
  | zero =>
    obtain rfl : a = 0 := Nat.le_zero.mp h.le
    have hprefix : slice s 0 (s.length - 1) <+: s := by
      rw [slice, drop_zero]
      exact take_prefix _ _
    refine ⟨by simpa [sliceShort] using hprefix, hout, by simp, ?_⟩
    intro y z hyz hbreak
    rw [sliceShort] at hyz
    rw [hyz] at hprefix
    have hs := hi rfl
    cases y with
    | nil =>
      obtain ⟨v, rfl⟩ := hprefix
      simp at hs
    | cons d y =>
      obtain ⟨v, rfl⟩ := hprefix
      simp only [append_assoc, cons_append, getElem?_cons_zero,
        Option.some.injEq] at hs
      simp [hs] at hbreak

/-- The pieces between semicolons start with the text or behind a semicolon. -/
theorem exists_of_mem_splitOn {p : Text} (hp : p ∈ Text.splitOn ';' x) :
    ∃ u v, x = u ++ (p ++ v) ∧ ∀ c ∈ u.getLast?, c = ';' := by
  obtain ⟨first, rest, hsplit⟩ := append_of_mem hp
  have htext := text_behindSemicolons x
  obtain ⟨v, hv⟩ : ∃ v, v = (behindSemicolons rest).flatMap Part.text := ⟨_, rfl⟩
  have htail : (behindSemicolons (p :: rest)).flatMap Part.text = ';' :: (p ++ v) := by
    simp [hv, behindSemicolons, Part.text]
  rw [hsplit, show behindSemicolons (first ++ p :: rest) =
    behindSemicolons first ++ behindSemicolons (p :: rest) from flatMap_append,
    flatMap_append, htail] at htext
  cases first with
  | nil => exact ⟨[], v, (cons.inj htext).2.symm, by simp⟩
  | cons q first =>
    refine ⟨q ++ (behindSemicolons first).flatMap Part.text ++ [';'], v, ?_, by simp⟩
    have htext : ';' :: (q ++ (behindSemicolons first).flatMap Part.text ++ ';' :: (p ++ v)) =
        ';' :: x := by
      simpa [behindSemicolons, Part.text] using htext
    simpa using (cons.inj htext).2.symm

theorem Opens.begins_piece (h : Opens s i a) (hab : a ≤ b) (hout : Outside s a b)
    {p : Text} (hp : p ∈ Text.splitOn ';' (slice s a b)) : ∃ u, Begins s u p := by
  have hsemicolon := Text.notMem_of_mem_splitOn hp
  obtain ⟨u, v, huv, hu⟩ := exists_of_mem_splitOn hp
  have htake : s.take a ++ u = s.take (a + u.length) := by
    have hlength := congrArg length huv
    have hfirst := congrArg (take u.length) huv
    simp only [slice, length_take, length_append] at hlength
    rw [slice, take_take, Nat.min_eq_left (by omega), take_left' rfl] at hfirst
    rw [take_add, hfirst]
  refine ⟨s.take a ++ u, ?_, ?_, ?_, ?_⟩
  · have hprefix : s.take a ++ slice s a b <+: s := by
      rw [take_append_slice]
      exact take_prefix _ _
    rw [huv, ← append_assoc, ← append_assoc] at hprefix
    exact (prefix_append _ _).trans hprefix
  · have hlength := congrArg length huv
    simp only [slice, length_take, length_append] at hlength
    rw [htake]
    exact hout _ (Nat.le_add_right _ _) (by omega)
  · intro c hc
    rw [getLast?_append] at hc
    rcases Option.or_eq_some_iff.mp hc with hc | ⟨-, hc⟩
    · rw [hu c hc]
      decide
    · exact h.getLast? c hc
  · intro y z hyz
    exact absurd (by simp [hyz]) hsemicolon

/-! ## One step -/

/-- The step gives nothing out and stays in the block, or outside of blocks. -/
structure Scan.Silent (c : Char) (i : Nat) (st st' : Scan) : Prop where
  brackets : st'.brackets = st.brackets.pass c
  loose : st'.loose = st.loose
  start : st'.start = st.start
  init : st'.init = st.init ∨ st.thin = some st'.init ∨ st'.init = i + 1
  thin : st'.thin = none ∨ st'.thin = some (i + 1) ∨ st'.thin = st.thin ∧ st'.init = st.init
  block : st'.depth ≠ 0 → st'.interpolating = false →
    st.depth ≠ 0 ∧ st.interpolating = false ∧ st'.init = st.init

theorem Scan.Placed.silent (h : st.Placed s i) (hc : s[i]? = some c) (hs : st.Silent c i st') :
    st'.Placed s (i + 1) := by
  have hinit : st.init ≤ st'.init ∧ st'.init ≤ i + 1 := by
    have hi := h.init_le
    rcases hs.init with heq | hthin | heq
    · omega
    · have := h.thin _ hthin
      omega
    · omega
  have hloose := h.loose_le
  constructor
  · rw [hs.brackets, h.brackets, after_take_succ hc]
  · rw [hs.loose]
    omega
  · exact hinit.2
  · intro t ht
    rcases hs.thin with hnone | hnew | ⟨hold, heq⟩
    · rw [hnone] at ht
      cases ht
    · rw [hnew] at ht
      obtain rfl := Option.some.inj ht
      exact ⟨hinit.2, le_rfl⟩
    · rw [hold] at ht
      have := h.thin t ht
      omega
  · intro hdepth hplain
    obtain ⟨hdepth₀, hplain₀, hinit₀⟩ := hs.block hdepth hplain
    exact (h.block hdepth₀ hplain₀).next hc hdepth₀ hs.brackets hdepth hs.loose hinit₀ hs.start

theorem settledInit_eq_ok {init : Nat} (h : settledInit s i st = .ok init) :
    init = st.init ∨ st.thin = some init := by
  unfold settledInit at h
  split at h
  next => exact .inl (Except.ok.inj h).symm
  next t hthin =>
    cases hfilled : isFilled (sliceShort s t i) with
    | error f => simp [hfilled, Except.map] at h
    | ok filled =>
      simp only [hfilled, Except.map, Except.ok.injEq] at h
      cases filled with
      | true => exact .inr (by rw [hthin, ← h, if_pos rfl])
      | false => exact .inl h.symm

theorem Scan.Placed.after_ne (h : st.Placed s i)
    (hopen : st.quote ≠ none ∨ st.parentheses ≠ 0 ∨ st.depth ≠ 0) :
    Brackets.after (s.take i) ≠ {} := by
  rw [← h.brackets]
  intro hnone
  obtain ⟨hquote, hparentheses, hdepth⟩ := Brackets.mk.inj hnone
  simp_all

/-- The search passes a character and changes none of its positions. -/
theorem Scan.Started.next (h : st.Started s i) (hp : st.Placed s i) (hc : s[i]? = some c)
    (hsemicolon : c = ';' → Brackets.after (s.take i) ≠ {})
    (hbrace : c = '{' → Brackets.after (s.take i) = {} → (s.take i).getLast? = some '#') :
    st.Started s (i + 1) := by
  have hlasts : s[i]? = some ';' → Brackets.after (s.take i) ≠ {} := by
    rw [hc]
    exact fun heq => hsemicolon (Option.some.inj heq)
  refine ⟨h.init.next hlasts, h.safe.next hlasts,
    fun t ht => ⟨(h.thin t ht).1, (h.thin t ht).2.next hlasts⟩, h.loose, fun hout => ?_, h.head,
    h.interpolation⟩
  obtain ⟨hle, hout⟩ := h.outside hout
  exact ⟨hle, hout.next hc (hp.loose_le.trans hp.init_le) hbrace⟩

theorem Scan.Started.pass (h : st.Started s i) (hp : st.Placed s i) (hc : s[i]? = some c)
    (hsemicolon : c ≠ ';') (hbrace : c ≠ '{') : st.Started s (i + 1) :=
  h.next hp hc (fun heq => absurd heq hsemicolon) fun heq => absurd heq hbrace

theorem Scan.Started.stay (h : st.Started s i) (hp : st.Placed s i) (hc : s[i]? = some c)
    (hopen : Brackets.after (s.take i) ≠ {}) : st.Started s (i + 1) :=
  h.next hp hc (fun _ => hopen) fun _ hnone => absurd hnone hopen

theorem Scan.Started.settled (h : st.Started s i) {init : Nat}
    (hinit : settledInit s i st = .ok init) : Opens s i init := by
  rcases settledInit_eq_ok hinit with rfl | hthin
  · exact h.init
  · exact (h.thin _ hthin).2

theorem Scan.Started.thin_begins (h : st.Started s i) (hp : st.Placed s i) (hdepth : st.depth = 0)
    {t : Nat} (ht : t ∈ st.thin) : Begins s (s.take t) (sliceShort s t i) := by
  obtain ⟨hpos, hopens⟩ := h.thin t ht
  have hle := hp.loose_le.trans (hp.thin t ht).1
  exact hopens.begins_short ((h.outside (.inl hdepth)).2 t hle hopens.le)
    fun hi => absurd hopens.le (by omega)

theorem readHead_of_isFilled (h : isFilled x = .error f) :
    readHead 0 x = .error f := by
  unfold isFilled at h
  cases hread : readHead 0 x with
  | error f' =>
    rw [hread] at h
    exact congrArg _ (Except.error.inj h)
  | ok r =>
    rw [hread] at h
    cases h

theorem Scan.Started.stumbles (h : st.Started s i) (hp : st.Placed s i) (hdepth : st.depth = 0)
    (hinit : settledInit s i st = .error f) : Stumbles s f := by
  unfold settledInit at hinit
  split at hinit
  next => cases hinit
  next t hthin =>
    cases hfilled : isFilled (sliceShort s t i) with
    | error f' =>
      rw [hfilled] at hinit
      rw [← Except.error.inj hinit]
      exact ⟨_, _, h.thin_begins hp hdepth hthin, 0, readHead_of_isFilled hfilled⟩
    | ok filled =>
      rw [hfilled] at hinit
      cases hinit

/-- What a part of the search may come to: it stands at `j` and has given out the parts that it
left behind, or it has broken off at a head that could not be read. -/
def Reaches (s : Text) (st : Scan) (j : Nat) : List Item × Except Fault Scan → Prop
  | (found, .ok st') => (st'.Placed s j ∧ st'.Started s j) ∧ st.loose ≤ st'.loose ∧
      GivesOut s st.loose st'.loose found
  | (found, .error f) => Stumbles s f ∧ CodesIn s found ∧ ∃ parts, Gives parts found

theorem Scan.Placed.reaches (h : st.Placed s i) (hc : s[i]? = some c) (hs : st.Silent c i st')
    (hstarted : st'.Started s (i + 1)) : Reaches s st (i + 1) ([], .ok st') := by
  refine ⟨⟨h.silent hc hs, hstarted⟩, ?_, ?_⟩
  · rw [hs.loose]
  · rw [hs.loose]
    exact givesOut_nil s _

theorem Stumbles.reaches (h : Stumbles s f) (j : Nat) : Reaches s st j ([], .error f) :=
  ⟨h, codesIn_nil s, [], .nil⟩

theorem atComma_reaches (hp : st.Placed s i) (h : st.Started s i) (hc : s[i]? = some ',')
    (hdepth : st.depth = 0) : Reaches s st (i + 1) ([], atComma s i st) := by
  unfold atComma
  cases hinit : settledInit s i st with
  | error f => exact (h.stumbles hp hdepth hinit).reaches _
  | ok init =>
    have hnext := h.pass hp hc (by decide) (by decide)
    refine hp.reaches hc ⟨(Brackets.pass_of_not_bracket (by decide) _).symm, rfl, rfl,
      (settledInit_eq_ok hinit).imp_right .inl, .inl rfl, fun hne => absurd hdepth hne⟩ ?_
    exact
      { hnext with
        init := (h.settled hinit).next (by simp [hc])
        safe := opens_behind hc (by decide)
        thin := by simp
        outside := fun hout => ⟨(hnext.outside hout).1.trans hnext.safe.le,
          (hnext.outside hout).2⟩ }

theorem atBreak_reaches (hp : st.Placed s i) (h : st.Started s i) (hc : s[i]? = some '\n')
    (hdepth : st.depth = 0) : Reaches s st (i + 1) ([], atBreak s i st) := by
  have hnext := h.pass hp hc (by decide) (by decide)
  have hhere := opens_behind hc (by decide)
  obtain ⟨hsafe, hout⟩ := h.outside (.inl hdepth)
  have hpass : st.brackets = st.brackets.pass '\n' :=
    (Brackets.pass_of_not_bracket (by decide) _).symm
  have hsame : st.Silent '\n' i st :=
    ⟨hpass, rfl, rfl, .inl rfl, .inr (.inr ⟨rfl, rfl⟩), fun hne => absurd hdepth hne⟩
  unfold atBreak
  split
  next hthin =>
    cases hfilled : isFilled (sliceShort s st.safe i) with
    | error f =>
      have hbegins := h.safe.begins_short (hout _ hsafe h.safe.le) fun _ => hc
      exact Stumbles.reaches ⟨_, _, hbegins, 0, readHead_of_isFilled hfilled⟩ _
    | ok filled =>
      cases filled with
      | false => exact hp.reaches hc hsame hnext
      | true =>
        refine hp.reaches hc ⟨hpass, rfl, rfl, .inl rfl, .inr (.inl rfl),
          fun hne => absurd hdepth hne⟩ { hnext with thin := ?_ }
        intro t ht
        obtain rfl := Option.some.inj ht
        exact ⟨Nat.succ_pos i, hhere⟩
  next t hthin =>
    cases hfilled : isFilled (sliceShort s t i) with
    | error f =>
      have hbegins := h.thin_begins hp hdepth hthin
      exact Stumbles.reaches ⟨_, _, hbegins, 0, readHead_of_isFilled hfilled⟩ _
    | ok filled =>
      cases filled with
      | false => exact hp.reaches hc hsame hnext
      | true =>
        exact hp.reaches hc ⟨hpass, rfl, rfl, .inr (.inr rfl), .inl rfl,
          fun hne => absurd hdepth hne⟩ { hnext with init := hhere, thin := by simp }

theorem Scan.Placed.loose_le_settled {init : Nat} (hp : st.Placed s i)
    (hinit : settledInit s i st = .ok init) : st.loose ≤ init := by
  rcases settledInit_eq_ok hinit with rfl | hthin
  · exact hp.loose_le
  · exact hp.loose_le.trans (hp.thin _ hthin).1

/-- Right behind the brace that opens a block nothing of it has been passed. -/
theorem Scan.Placed.opened {init : Nat} (hp : st.Placed s i) (hc : s[i]? = some '{')
    (hquote : st.quote = none) (hparentheses : st.parentheses = 0) (hdepth : st.depth = 0)
    (hinit : init ≤ i) (line : Int) : Scan.Placed s (i + 1)
      { st with start := i, init, thin := none, depth := 1, line, loose := init } := by
  refine ⟨?_, le_rfl, by dsimp only; omega, by simp, fun _ _ => ?_⟩
  · rw [after_take_succ hc, ← hp.brackets]
    simp [Brackets.pass, Scan.brackets, isBracket, hquote, hparentheses, hdepth]
  · refine ⟨rfl, hinit, Nat.lt_succ_self i, hc, ?_, ?_⟩
    · simp [slice_self, Brackets.after, Scan.brackets, hquote, hparentheses]
    · intro y z hyz
      simp [slice_self] at hyz

/-- The head of the block starts where the search settled for it. -/
theorem Scan.Started.opened {init : Nat} (h : st.Started s i) (hc : s[i]? = some '{')
    (hdepth : st.depth = 0) (hle : st.loose ≤ init)
    (hinit : settledInit s i st = .ok init) (line : Int) : Scan.Started s (i + 1)
      { st with start := i, init, thin := none, depth := 1, line, loose := init } := by
  have hopens := h.settled hinit
  have hlasts : s[i]? = some ';' → Brackets.after (s.take i) ≠ {} := by simp [hc]
  have hplain : st.interpolating = false := by
    cases hinterpolating : st.interpolating with
    | true => exact absurd hdepth (h.interpolation hinterpolating)
    | false => rfl
  exact ⟨hopens.next hlasts, h.safe.next hlasts, by simp, hopens.self, by simp [hplain],
    fun _ _ => (h.outside (.inl hdepth)).2.mono hle le_rfl, fun _ => Nat.one_ne_zero⟩

/-- An opening brace gives out the stretches before the head of its block. -/
theorem atOpening_reaches (hp : st.Placed s i) (h : st.Started s i) (hc : s[i]? = some '{')
    (hquote : st.quote = none) (hparentheses : st.parentheses = 0)
    (hprevious : previous = (s.take i).getLast?) :
    Reaches s st (i + 1) (atOpening s i previous st) := by
  have hpass : ∀ depth, depth = st.depth + 1 →
      (⟨st.quote, st.parentheses, depth⟩ : Brackets) = st.brackets.pass '{' := by
    rintro _ rfl
    simp [Brackets.pass, Scan.brackets, isBracket, hquote, hparentheses]
  unfold atOpening
  split_ifs with hdepth hinterpolation
  · have hopen : st.depth ≠ 0 := by simpa using hdepth
    have hnext := h.stay hp hc (hp.after_ne (.inr (.inr hopen)))
    exact hp.reaches hc ⟨hpass _ rfl, rfl, rfl, .inl rfl, .inr (.inr ⟨rfl, rfl⟩),
        fun _ hplain => ⟨hopen, hplain, rfl⟩⟩
      { hnext with
        outside := fun hout => hnext.outside (.inr (hout.resolve_left (Nat.succ_ne_zero _)))
        head := fun _ => hnext.head hopen
        interpolation := fun _ => Nat.succ_ne_zero _ }
  · have hzero : st.depth = 0 := by simpa using hdepth
    have hnext := h.next hp hc (fun heq => absurd heq (by decide)) fun _ _ => by
      rw [← hprevious]
      simpa using hinterpolation
    exact hp.reaches hc ⟨hpass _ (by rw [hzero]), rfl, rfl, .inl rfl,
        .inr (.inr ⟨rfl, rfl⟩), by simp⟩
      { hnext with
        outside := fun _ => hnext.outside (.inl hzero)
        head := by simp
        interpolation := fun _ => Nat.one_ne_zero }
  · have hzero : st.depth = 0 := by simpa using hdepth
    cases hinit : settledInit s i st with
    | error f => exact (h.stumbles hp hzero hinit).reaches _
    | ok init =>
      have hopens := h.settled hinit
      have hle := hp.loose_le_settled hinit
      have hreached : ∀ line, Scan.Placed s (i + 1)
            { st with start := i, init, thin := none, depth := 1, line, loose := init } ∧
          Scan.Started s (i + 1)
            { st with start := i, init, thin := none, depth := 1, line, loose := init } :=
        fun line => ⟨hp.opened hc hquote hparentheses hzero hopens.le line,
          h.opened hc hzero hle hinit line⟩
      dsimp only
      split_ifs with hlt
      · cases hitems : looseItems st.line (Text.splitOn ';' (slice s st.loose init)) with
        | mk found result =>
          cases result with
          | error f =>
            obtain ⟨⟨hparts, hnone⟩, hfault, -⟩ :=
              looseItems_gives (fun p hp => Text.notMem_of_mem_splitOn hp) hitems
            obtain ⟨p, hp, hread⟩ := hfault f rfl
            obtain ⟨-, hout⟩ := h.outside (.inl hzero)
            obtain ⟨u, hbegins⟩ := h.loose.begins_piece hle (hout.mono le_rfl hopens.le) hp
            exact ⟨⟨u, p, hbegins, hread⟩, codesIn_of_none hnone, hparts⟩
          | ok line =>
            exact ⟨hreached line, hle, stretches _, text_stretches _, stretches_give hitems⟩
      · obtain rfl : st.loose = init := by omega
        exact ⟨hreached st.line, le_rfl, givesOut_nil s _⟩

section Closing

variable (hc : s[i]? = some '}') (hquote : st.quote = none) (hparentheses : st.parentheses = 0)

include hc

/-- A block that is closed is all that has been passed since parts were given out. -/
theorem Scan.InBlock.text (h : st.InBlock s i) :
    (Part.block (slice s st.init st.start) (slice s (st.start + 1) i)).text =
      slice s st.loose (i + 1) := by
  have hinit := h.init_le
  have hstart := h.start_lt
  calc
    _ = (slice s st.init st.start ++ ['{']) ++ (slice s (st.start + 1) i ++ ['}']) := by
      simp [Part.text]
    _ = slice s st.init (st.start + 1) ++ slice s (st.start + 1) (i + 1) := by
      rw [slice_succ h.brace hinit, slice_succ hc (Nat.succ_le_of_lt hstart)]
    _ = slice s st.loose (i + 1) := by
      rw [h.loose, ← slice_split (by omega) (by omega)]

include hquote hparentheses

/-- The brace that closes an outermost block gives it out. -/
theorem Scan.InBlock.reaches (h : st.InBlock s i) (hp : st.Placed s i) (hdepth : st.depth = 1)
    (hplain : st.interpolating = false) {line : Int} {head : Text}
    (hread : readHead st.line (slice s st.init st.start) = .ok (line, head)) :
    Reaches s st (i + 1)
      (if head.isEmpty then []
        else [⟨line, head, some (Text.trim (slice s (st.start + 1) i))⟩],
        .ok { st with
          line, depth := 0, init := i + 1, safe := i + 1, loose := i + 1, thin := none }) := by
  have hhere := opens_behind hc (by decide)
  have hbody : Balanced (slice s (st.start + 1) i) := by
    refine ⟨?_, h.own⟩
    rw [h.inner]
    simp [Scan.brackets, hquote, hparentheses, hdepth]
  have hbrackets : Brackets.after (s.take (i + 1)) = ⟨st.quote, st.parentheses, 0⟩ := by
    rw [after_take_succ hc, ← hp.brackets]
    simp [Brackets.pass, Scan.brackets, isBracket, hquote, hparentheses, hdepth]
  refine ⟨⟨⟨hbrackets.symm, le_rfl, le_rfl, by simp, fun hne => absurd rfl hne⟩, hhere,
    hhere, by simp, hhere, fun _ => ⟨le_rfl, ?_⟩, fun hopen => absurd rfl hopen,
    by simp [hplain]⟩, ?_, _, (flatMap_singleton _ _).trans (h.text hc), ?_, ?_⟩
  · intro j hj hle hends
    obtain rfl : j = i + 1 := Nat.le_antisymm hle hj
    exact hends.depth_ne (by rw [hbrackets])
  · have hloose := h.loose
    have hinit := h.init_le
    have hstart := h.start_lt
    dsimp only
    omega
  · obtain rfl := readHead_eq_ok hread
    by_cases hempty : plainText (slice s st.init st.start) = [] <;> simp [Part.given, hempty]
  · intro p hp
    rw [mem_singleton.mp hp]
    exact hbody

/-- A closing brace gives out the block that it closes, if that is not inside another one. -/
theorem atClosing_reaches (hp : st.Placed s i) (h : st.Started s i) :
    Reaches s st (i + 1) (atClosing s i st) := by
  have hnext := h.pass hp hc (by decide) (by decide)
  have hpass : ∀ depth, depth = st.depth - 1 →
      (⟨st.quote, st.parentheses, depth⟩ : Brackets) = st.brackets.pass '}' := by
    rintro _ rfl
    simp [Brackets.pass, Scan.brackets, isBracket, hquote, hparentheses]
  unfold atClosing
  split
  next hdepth =>
    exact hp.reaches hc ⟨hpass _ (by rw [hdepth]), rfl, rfl, .inl rfl,
      .inr (.inr ⟨rfl, rfl⟩), fun hne => absurd hdepth hne⟩ hnext
  next depth hdepth =>
    split_ifs with hlast hinterpolating
    · have hopen : depth ≠ 0 := by simpa using hlast
      exact hp.reaches hc ⟨hpass _ (by rw [hdepth]; rfl), rfl, rfl, .inl rfl,
          .inr (.inr ⟨rfl, rfl⟩), fun _ hplain => ⟨by omega, hplain, rfl⟩⟩
        { hnext with
          outside := fun hout => hnext.outside (.inr (hout.resolve_left hopen))
          head := fun _ => hnext.head (by omega)
          interpolation := fun _ => hopen }
    · have hzero : depth = 0 := by simpa using hlast
      exact hp.reaches hc ⟨hpass _ (by rw [hdepth]; rfl), rfl, rfl, .inl rfl,
          .inr (.inr ⟨rfl, rfl⟩), fun hne => absurd hzero hne⟩
        { hnext with
          outside := fun _ => hnext.outside (.inr hinterpolating)
          head := fun hopen => absurd hzero hopen
          interpolation := by simp }
    · obtain rfl : depth = 0 := by simpa using hlast
      have hplain : st.interpolating = false := by simpa using hinterpolating
      have hblock := hp.block (by omega) hplain
      cases hread : readHead st.line (slice s st.init st.start) with
      | error f =>
        have hout := h.head (by omega) hplain st.init hp.loose_le hblock.init_le
        exact Stumbles.reaches ⟨_, _, h.init.begins hout hblock.start_lt.le, _, hread⟩ _
      | ok r => exact hblock.reaches hc hquote hparentheses hp hdepth hplain hread

end Closing

/-- A step that only opens or closes a quote or a parenthesis, or passes over a character. -/
theorem Scan.Placed.reaches_of_pass (h : st.Placed s i) (hc : s[i]? = some c)
    {quote : Option Char} {parentheses : Int} {thin : Option Nat} {safe : Nat}
    (hpass : (⟨quote, parentheses, st.depth⟩ : Brackets) = st.brackets.pass c)
    (hthin : thin = none ∨ thin = st.thin)
    (hstarted : Scan.Started s (i + 1) { st with quote, parentheses, thin, safe }) :
    Reaches s st (i + 1) ([], .ok { st with quote, parentheses, thin, safe }) :=
  h.reaches hc ⟨hpass, rfl, rfl, .inl rfl, hthin.imp_right fun heq => .inr ⟨heq, rfl⟩,
    fun hdepth hplain => ⟨hdepth, hplain, rfl⟩⟩ hstarted

/-- What a character does, by what it is and where the search stands. -/
inductive Stepped (s : Text) (i : Nat) (previous : Option Char) (st : Scan) :
    Char → List Item × Except Fault Scan → Prop where
  | unquote {c : Char} : st.quote = some c →
      Stepped s i previous st c ([], .ok { st with quote := none })
  | quoted {c q : Char} : st.quote = some q → c ≠ q → Stepped s i previous st c ([], .ok st)
  | quote {c : Char} : st.quote = none → c = '"' ∨ c = '\'' →
      Stepped s i previous st c ([], .ok { st with quote := some c })
  | opening : st.quote = none → Stepped s i previous st '('
      ([], .ok { st with parentheses := st.parentheses + 1, thin := none, safe := i + 1 })
  | closing : st.quote = none → Stepped s i previous st ')'
      ([], .ok { st with parentheses := st.parentheses - 1 })
  | enclosed {c : Char} : st.quote = none → st.parentheses ≠ 0 → c ∉ ['"', '\'', '(', ')'] →
      Stepped s i previous st c ([], .ok st)
  | block : st.quote = none → st.parentheses = 0 →
      Stepped s i previous st '{' (atOpening s i previous st)
  | endBlock : st.quote = none → st.parentheses = 0 →
      Stepped s i previous st '}' (atClosing s i st)
  | inside {c : Char} : st.depth ≠ 0 → isBracket c = false →
      Stepped s i previous st c ([], .ok st)
  | semicolon : st.depth = 0 → Stepped s i previous st ';'
      ([], .ok { st with init := i + 1, safe := i + 1, thin := none })
  | comma : st.depth = 0 → Stepped s i previous st ',' ([], atComma s i st)
  | lineBreak : st.depth = 0 → Stepped s i previous st '\n' ([], atBreak s i st)
  | plain {c : Char} : isBracket c = false → c ≠ ';' → Stepped s i previous st c ([], .ok st)

theorem step_stepped (s : Text) (i : Nat) (previous : Option Char) (c : Char) (st : Scan) :
    Stepped s i previous st c (step s i previous c st) := by
  unfold step
  split
  next q hquote =>
    by_cases hq : c = q
    · subst hq
      simpa using Stepped.unquote hquote
    · simpa [hq] using Stepped.quoted hquote hq
  next hquote =>
    simp only [Bool.or_eq_true, beq_iff_eq, bne_iff_ne]
    split_ifs with hmark hopen hclose hinner hbrace hend hdepth hsemicolon hcomma hbreak
    · exact .quote hquote hmark
    · exact hopen ▸ .opening hquote
    · exact hclose ▸ .closing hquote
    · exact .enclosed hquote hinner (by simp_all)
    · exact hbrace ▸ .block hquote (not_not.mp hinner)
    · exact hend ▸ .endBlock hquote (not_not.mp hinner)
    · exact .inside hdepth (by simp_all [isBracket])
    · exact hsemicolon ▸ .semicolon (not_not.mp hdepth)
    · exact hcomma ▸ .comma (not_not.mp hdepth)
    · exact hbreak ▸ .lineBreak (not_not.mp hdepth)
    · exact .plain (by simp_all [isBracket]) hsemicolon

/-- Behind a semicolon a new head may start. -/
theorem reaches_semicolon (hp : st.Placed s i) (h : st.Started s i) (hc : s[i]? = some ';')
    (hdepth : st.depth = 0) :
    Reaches s st (i + 1) ([], .ok { st with init := i + 1, safe := i + 1, thin := none }) := by
  have hhere := opens_behind hc (by decide)
  obtain ⟨hsafe, hout⟩ := h.outside (.inl hdepth)
  refine hp.reaches hc ⟨(Brackets.pass_of_not_bracket (by decide) _).symm, rfl, rfl,
    .inr (.inr rfl), .inl rfl, fun hne => absurd hdepth hne⟩ ⟨hhere, hhere, by simp, h.loose,
    fun _ => ⟨?_, ?_⟩, fun hne => absurd hdepth hne, h.interpolation⟩
  · exact (hsafe.trans h.safe.le).trans (Nat.le_succ i)
  · exact hout.next hc (hp.loose_le.trans hp.init_le) (fun heq => absurd heq (by decide))

/-- One character: the search stands behind it, or something could not be read. -/
theorem step_reaches (hp : st.Placed s i) (h : st.Started s i) (hc : s[i]? = some c)
    (hprevious : previous = (s.take i).getLast?) :
    Reaches s st (i + 1) (step s i previous c st) := by
  have hstepped := step_stepped s i previous c st
  generalize step s i previous c st = next at hstepped ⊢
  have hplain : isBracket c = false → st.brackets = st.brackets.pass c := fun hbracket =>
    (Brackets.pass_of_not_bracket hbracket _).symm
  cases hstepped with
  | unquote hquote =>
    have hbracket : isBracket c = true := by
      have hafter := Brackets.quote_after (s.take i)
      rw [← hp.brackets] at hafter
      rcases hafter c hquote with rfl | rfl <;> decide
    have hnext := h.stay hp hc (hp.after_ne (.inl (by simp [hquote])))
    exact hp.reaches_of_pass hc (by simp [Brackets.pass, Scan.brackets, hbracket, hquote])
      (.inr rfl) { hnext with }
  | quoted hquote hq =>
    refine hp.reaches_of_pass hc ?_ (.inr rfl)
      (h.stay hp hc (hp.after_ne (.inl (by simp [hquote]))))
    cases hbracket : isBracket c <;> simp [Brackets.pass, Scan.brackets, hbracket, hquote, hq]
  | quote hquote hmark =>
    have hnext := h.pass hp hc (by rintro rfl; simp at hmark) (by rintro rfl; simp at hmark)
    refine hp.reaches_of_pass hc ?_ (.inr rfl) { hnext with }
    rcases hmark with rfl | rfl <;> simp [Brackets.pass, Scan.brackets, isBracket, hquote]
  | opening hquote =>
    have hnext := h.pass hp hc (by decide) (by decide)
    refine hp.reaches_of_pass hc (by simp [Brackets.pass, Scan.brackets, isBracket, hquote])
      (.inl rfl)
      { hnext with safe := opens_behind hc (by decide), thin := by simp, outside := ?_ }
    exact fun hout => ⟨(hnext.outside hout).1.trans hnext.safe.le, (hnext.outside hout).2⟩
  | closing hquote =>
    have hnext := h.pass hp hc (by decide) (by decide)
    exact hp.reaches_of_pass hc (by simp [Brackets.pass, Scan.brackets, isBracket, hquote])
      (.inr rfl) { hnext with }
  | enclosed hquote hinner hne =>
    refine hp.reaches_of_pass hc ?_ (.inr rfl)
      (h.stay hp hc (hp.after_ne (.inr (.inl hinner))))
    simp only [mem_cons, not_mem_nil, or_false, not_or] at hne
    cases hbracket : isBracket c <;>
      simp [Brackets.pass, Scan.brackets, hbracket, hquote, hne, hinner]
  | block hquote hzero => exact atOpening_reaches hp h hc hquote hzero hprevious
  | endBlock hquote hzero => exact atClosing_reaches hc hquote hzero hp h
  | inside hdepth hbracket =>
    exact hp.reaches_of_pass hc (hplain hbracket) (.inr rfl)
      (h.stay hp hc (hp.after_ne (.inr (.inr hdepth))))
  | semicolon hzero => exact reaches_semicolon hp h hc hzero
  | comma hzero => exact atComma_reaches hp h hc hzero
  | lineBreak hzero => exact atBreak_reaches hp h hc hzero
  | plain hbracket hsemicolon =>
    refine hp.reaches_of_pass hc (hplain hbracket) (.inr rfl) (h.pass hp hc hsemicolon ?_)
    rintro rfl
    exact absurd hbracket (by decide)

/-- The items that were given out have their codes from the source. -/
theorem GivesOut.codesIn {found : List Item} (h : GivesOut s a b found) :
    CodesIn s found := by
  obtain ⟨parts, htext, hgives⟩ := h
  intro k hk t ht
  obtain ⟨head, body, hblock, rfl⟩ := hgives.block hk ht
  calc
    Text.trim body <:+: body := isInfix_trim body
    _ <:+: (Part.block head body).text := ⟨head ++ ['{'], ['}'], by simp [Part.text]⟩
    _ <:+: parts.flatMap Part.text := infix_of_mem_flatten (mem_map_of_mem hblock)
    _ <:+: s := htext ▸ isInfix_slice s a b

theorem itemsFrom_reaches {rest : Text} (hi : i ≤ s.length) (hrest : s.drop i = rest)
    (hp : st.Placed s i) (h : st.Started s i) (hprevious : previous = (s.take i).getLast?) :
    Reaches s st s.length (itemsFrom s i previous st rest) := by
  induction rest generalizing i previous st with
  | nil =>
    obtain rfl : i = s.length := hi.antisymm (drop_eq_nil_iff.mp hrest)
    exact ⟨⟨hp, h⟩, le_rfl, givesOut_nil s _⟩
  | cons c rest ih =>
    have hc : s[i]? = some c := by
      rw [← head?_drop, hrest]
      rfl
    have hdrop : s.drop (i + 1) = rest := by
      rw [← tail_drop, hrest]
      rfl
    have hi : i + 1 ≤ s.length := (List.getElem?_eq_some_iff.mp hc).1
    have hlast : some c = (s.take (i + 1)).getLast? := by
      rw [take_add_one, hc]
      simp
    unfold itemsFrom
    split_ifs with hstructural
    · have hstep := step_reaches hp h hc hprevious
      cases hresult : step s i previous c st with
      | mk found result =>
        rw [hresult] at hstep
        cases result with
        | error f => exact hstep
        | ok st' =>
          obtain ⟨⟨hplaced, hstarted⟩, hle, hgives⟩ := hstep
          have hrun := ih hi hdrop hplaced hstarted hlast
          dsimp only
          cases hmore : itemsFrom s (i + 1) (some c) st' rest with
          | mk more result =>
            rw [hmore] at hrun
            cases result with
            | error f =>
              obtain ⟨hf, hcodes, parts, hparts⟩ := hrun
              have hfound := hgives.codesIn
              obtain ⟨first, -, hfirst⟩ := hgives
              exact ⟨hf, hfound.append hcodes, _, hfirst.append hparts⟩
            | ok st'' =>
              obtain ⟨hplaced', hle', hgives'⟩ := hrun
              exact ⟨hplaced', hle.trans hle', hgives.append hgives' hle hle'⟩
    · have hplain : isStructural c = false := by simpa using hstructural
      have hpass :=
        Brackets.pass_of_not_bracket (Brackets.not_bracket_of_plain hplain) st.brackets
      have hsilent : st.Silent c i st := ⟨hpass.symm, rfl, rfl, .inl rfl,
        .inr (.inr ⟨rfl, rfl⟩), fun hdepth hplain => ⟨hdepth, hplain, rfl⟩⟩
      refine ih hi hdrop (hp.silent hc hsilent) (h.pass hp hc ?_ ?_) hlast
      · rintro rfl
        exact absurd hplain (by decide)
      · rintro rfl
        exact absurd hplain (by decide)

theorem run_reaches (s : Text) : Reaches s {} s.length (itemsFrom s 0 none {} s) := by
  have hzero : Opens s 0 0 := ⟨le_rfl, by simp, by simp⟩
  refine itemsFrom_reaches (Nat.zero_le _) drop_zero ?_ ?_ (by simp)
  · exact ⟨by simp [Scan.brackets, Brackets.after], le_rfl, le_rfl, by simp, fun h => absurd rfl h⟩
  · refine ⟨hzero, hzero, by simp, hzero, fun _ => ⟨le_rfl, ?_⟩, fun hne => absurd rfl hne, by simp⟩
    intro j _ hle hends
    obtain rfl := Nat.le_zero.mp hle
    exact hends.depth_ne (by simp [Brackets.after])

end Search

end SheetPress.Source
