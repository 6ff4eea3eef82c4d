import SheetPress.Proofs.Compile.Run
import SheetPress.Proofs.Text.Pieces

/-!
# Compact stylesheets

Without blanks between the parts, the text of a stylesheet is the texts of its rules one after the
other, and the text of a rule depends on this rule alone (`print_compact`), although the printer
leaves a block open until the next rule tells what to close.  So where no rule brings a brace of
its own, the braces match.
-/

set_option autoImplicit false

namespace SheetPress

open List Text

/-- A replacement brings the characters of the new text and no others. -/
theorem Text.mem_replace {old new s : Text} {c : Char} (h : c ∈ replace old new s) :
    c ∈ new ∨ c ∈ s := by
  have hscan : ∀ (before : Text) (skip : Nat) (s : Text), ∀ piece ∈ scanFrom (fun _ rest =>
      if startsWith rest old then some (old.length, new) else none) before skip s,
      (∀ d, piece = .plain d → d ∈ s) ∧ ∀ t, piece = .found t → t = new := by
    intro before skip s
    fun_induction scanFrom (fun _ rest =>
      if startsWith rest old then some (old.length, new) else none) before skip s with
    | case1 => simp
    | case2 before skip d r ih =>
      intro piece hpiece
      exact (ih piece hpiece).imp_left fun h e he => mem_cons_of_mem d (h e he)
    | case3 before d r n t hfind ih =>
      intro piece hpiece
      rcases mem_cons.mp hpiece with rfl | hpiece
      · refine ⟨nofun, fun t' ht' => ?_⟩
        cases ht'
        simp only [Option.ite_none_right_eq_some, Option.some.injEq, Prod.mk.injEq] at hfind
        exact hfind.2.2.symm
      · exact (ih piece hpiece).imp_left fun h e he => mem_cons_of_mem d (h e he)
    | case4 before d r hfind ih =>
      intro piece hpiece
      rcases mem_cons.mp hpiece with rfl | hpiece
      · refine ⟨fun e he => ?_, nofun⟩
        cases he
        exact mem_cons_self
      · exact (ih piece hpiece).imp_left fun h e he => mem_cons_of_mem d (h e he)
  obtain ⟨piece, hpiece, hc⟩ := mem_flatMap.mp h
  obtain ⟨hplain, hfound⟩ := hscan [] 0 s piece hpiece
  cases piece with
  | plain d =>
    rw [mem_singleton] at hc
    exact Or.inr (hc ▸ hplain d rfl)
  | found t => exact Or.inl (hfound t rfl ▸ hc)

namespace Sheet

namespace Layout

@[simp] theorem space_compact : compact.space = [] := rfl

@[simp] theorem tab_compact : compact.tab = [] := rfl

@[simp] theorem newline_compact : compact.newline = [] := rfl

@[simp] theorem lastSemicolon_compact : compact.lastSemicolon = false := rfl

end Layout

/-! ## One rule alone -/

/-- The properties of a rule, each with a semicolon. -/
def Block.lines (b : Block) : Text := printProperties .compact [] b.properties

/-- What stands inside the media of a rule: its properties without the last semicolon, in braces
behind its selectors, if it has any. -/
def Block.inner (b : Block) : Text :=
  if b.selectors = [] then b.lines.dropLast
  else b.selectors ++ '{' :: b.lines.dropLast ++ ['}']

/-- What opens a media block: each of the names once, in the order of sets. -/
def mediaLine (sets : SetOrder) (names : List Text) : Text :=
  "@media ".toList ++ joinWith " and ".toList (sets.list names.eraseDups) ++ ['{']

/-- The text of a rule, whatever stands around it. -/
def Block.compactText (sets : SetOrder) (b : Block) : Text :=
  match b.media with
  | some (m :: ms) => mediaLine sets (m :: ms) ++ b.inner ++ ['}']
  | _ => if b.selectors = [] then b.lines else b.inner

/-- The rule has properties, and nothing is printed before them. -/
structure Block.Bare (b : Block) : Prop where
  properties : b.properties ≠ []
  remarks : b.remarks = []
  debugLine : b.debugLine = none

theorem propertiesFrom_eq_snoc (indent : Text) (seen : List Text) (last : Option Text)
    (ps : List Property) (h : propertiesFrom .compact indent seen last ps ≠ []) :
    ∃ t, propertiesFrom .compact indent seen last ps = t ++ [';'] := by
  fun_induction propertiesFrom .compact indent seen last ps with
  | case1 => exact absurd rfl h
  | case2 seen last p rest text isDefault text' hskip ih => exact ih h
  | case3 seen last p rest text isDefault text' hskip ih =>
    by_cases hrest : propertiesFrom .compact indent (p.name :: seen) (some text') rest = []
    · exact ⟨indent ++ text', by simp [hrest]⟩
    · obtain ⟨t, ht⟩ := ih hrest
      exact ⟨indent ++ text' ++ ';' :: t, by simp [ht]⟩

/-- The first property is always printed, so that there is a last semicolon. -/
theorem Block.lines_eq_snoc {b : Block} (h : b.properties ≠ []) : ∃ t, b.lines = t ++ [';'] := by
  obtain ⟨p, rest, hps⟩ := exists_cons_of_ne_nil h
  refine propertiesFrom_eq_snoc [] [] none _ ?_
  rw [hps, propertiesFrom]
  simp

/-! ## The printer -/

namespace Page

variable {p : Page} {b : Block} {sets : SetOrder}

/-- The text of a page once everything has been closed. -/
def closed (p : Page) : Text := ((p.closeSelectors .compact []).closeMedia .compact).text

/-- A media block is open exactly if the last rule had media. -/
def Sound (p : Page) : Prop := p.openMedia = true ↔ ∃ m ms, p.media = some (m :: ms)

theorem sound_start : Sound {} := by simp [Sound]

theorem mediaIndent_compact (media : Option (List Text)) : mediaIndent .compact media = [] := by
  unfold mediaIndent
  split <;> rfl

/-- A brace is closed for all that is open, and the last semicolon is left out before it. -/
theorem closed_snoc (t : Text) (openSelectors openMedia : Bool) (media : Option (List Text)) :
    closed ⟨t ++ [';'], openSelectors, openMedia, media⟩ =
      match openSelectors, openMedia with
      | true, true => t ++ ['}'] ++ ['}']
      | false, false => t ++ [';']
      | _, _ => t ++ ['}'] := by
  cases openSelectors <;> cases openMedia <;> simp [closed, closeSelectors, closeMedia, blockEnd]

theorem selectorLine_compact (selectors : Text) :
    selectorLine .compact selectors = selectors ++ ['{'] := by
  simp [selectorLine, joinWith_splitOn]

theorem closeMedia_closeSelectors (p : Page) :
    (p.closeSelectors .compact []).closeMedia .compact = ⟨p.closed, false, false, p.media⟩ := by
  unfold closed closeMedia closeSelectors
  obtain ⟨text, openSelectors, openMedia, media⟩ := p
  cases openSelectors <;> cases openMedia <;> rfl

/-- What opens the media of a rule, if it has any. -/
def mediaHead (sets : SetOrder) : Option (List Text) → Text
  | some (m :: ms) => mediaLine sets (m :: ms)
  | _ => []

theorem openMediaBlock_closed (t : Text) (old media : Option (List Text)) :
    openMediaBlock sets .compact media ⟨t, false, false, old⟩ =
      ⟨t ++ mediaHead sets media, false, media.any (!·.isEmpty), media⟩ := by
  rcases media with _ | _ | ⟨m, ms⟩
  · change (⟨t, false, false, none⟩ : Page) = _
    simp [mediaHead]
  · change (⟨t, false, false, some []⟩ : Page) = _
    simp [mediaHead]
  · have hline : ∀ names : Text,
        t ++ "@media ".toList ++ names ++ [] ++ ['{'] =
          t ++ ("@media ".toList ++ names ++ ['{']) := by
      intro names
      simp only [append_assoc, append_nil]
    exact congrArg (fun x => (⟨x, false, true, some (m :: ms)⟩ : Page)) (hline _)

/-- The next rule closes what was open and opens its media. -/
theorem openMedia_next (hp : p.Sound) (media : Option (List Text)) :
    (if p.media != media || media.isSome then
        openMediaBlock sets .compact media ((p.closeSelectors .compact []).closeMedia .compact)
      else p).closeSelectors .compact [] =
      ⟨p.closed ++ mediaHead sets media, false, media.any (!·.isEmpty), media⟩ := by
  rw [closeMedia_closeSelectors, openMediaBlock_closed]
  split
  next => rfl
  next hsame =>
    -- Neither the rule before nor this one has media, so that no media block is open.
    obtain ⟨hmedia, hnone⟩ : p.media = media ∧ media = none := by simpa using hsame
    have hopen : p.openMedia = false := by
      unfold Sound at hp
      simpa [hmedia, hnone] using hp
    obtain ⟨text, openSelectors, openMedia, old⟩ := p
    cases hopen
    cases hmedia
    cases hnone
    cases openSelectors <;> simp [closed, closeSelectors, closeMedia, mediaHead]

/-- Printing a rule closes what was open, and opens the media and the selectors of the rule. -/
theorem addBlock_compact (hp : p.Sound) (hb : b.Bare) :
    p.addBlock sets .compact b =
      { text := p.closed ++ mediaHead sets b.media ++
          (if b.selectors = [] then [] else b.selectors ++ ['{']) ++ b.lines
        openSelectors := !b.selectors.isEmpty
        openMedia := b.media.any (!·.isEmpty)
        media := b.media } := by
  unfold addBlock
  simp only [mediaIndent_compact, openMedia_next hp, hb.remarks, hb.debugLine]
  by_cases hselectors : b.selectors = []
  · simp [hselectors, Block.lines]
  · simp [hselectors, Block.lines, selectorLine_compact]

theorem sound_addBlock (hp : p.Sound) (hb : b.Bare) :
    (p.addBlock sets .compact b).Sound := by
  rw [addBlock_compact hp hb]
  rcases hmedia : b.media with _ | _ | ⟨m, ms⟩ <;> simp [Sound]

theorem closed_addBlock (hp : p.Sound) (hb : b.Bare) :
    (p.addBlock sets .compact b).closed = p.closed ++ b.compactText sets := by
  obtain ⟨t, ht⟩ := Block.lines_eq_snoc hb.properties
  rw [addBlock_compact hp hb, ht, ← append_assoc, closed_snoc, Block.compactText, Block.inner,
    ht, dropLast_concat]
  by_cases hselectors : b.selectors = []
  · rcases hmedia : b.media with _ | _ | ⟨m, ms⟩ <;> simp [hselectors, mediaHead]
  · have hopen : (!b.selectors.isEmpty) = true := by simpa using hselectors
    rw [hopen]
    rcases hmedia : b.media with _ | _ | ⟨m, ms⟩ <;> simp [hselectors, mediaHead]

end Page

/-- The printed rules one after the other, each as if it stood alone. -/
theorem print_compact (sets : SetOrder) {blocks : List Block} (h : ∀ b ∈ blocks, b.Bare) :
    print sets .compact blocks = blocks.flatMap (Block.compactText sets) ++ ['\n'] := by
  have hrun : ∀ (blocks : List Block) {p : Page}, (∀ b ∈ blocks, b.Bare) → p.Sound →
      (blocks.foldl (Page.addBlock sets .compact) p).closed =
        p.closed ++ blocks.flatMap (Block.compactText sets) := by
    intro blocks
    induction blocks with
    | nil => simp
    | cons b blocks ih =>
      intro p hbs hp
      have hb : b.Bare := hbs b (by simp)
      rw [foldl_cons, ih (fun c hc => hbs c (by simp [hc])) (Page.sound_addBlock hp hb),
        Page.closed_addBlock hp hb, flatMap_cons, append_assoc]
  have hindent : ∀ p : Page, p.finish .compact = p.closed ++ ['\n'] := by
    intro p
    simp [Page.finish, Page.closed]
  rw [print, hindent, hrun blocks h Page.sound_start]
  rfl

/-! ## Braces -/

/-- Every brace is closed, and none is closed that was not opened. -/
structure BracesMatch (t : Text) : Prop where
  never_below : ∀ x, x <+: t → x.count '}' ≤ x.count '{'
  closed : t.count '}' = t.count '{'

/-- The text holds no braces. -/
def Braceless (t : Text) : Prop := '{' ∉ t ∧ '}' ∉ t

instance : DecidablePred Braceless := fun _ => inferInstanceAs (Decidable (_ ∧ _))

namespace BracesMatch

variable {a b : Text}

/-- A prefix of two texts ends in the first or in the second one. -/
theorem prefix_append_cases {x : Text} (h : x <+: a ++ b) :
    x <+: a ∨ ∃ y, y <+: b ∧ x = a ++ y := by
  rcases prefix_or_prefix_of_prefix h (prefix_append a b) with hx | ⟨y, rfl⟩
  · exact Or.inl hx
  · exact Or.inr ⟨y, (prefix_append_right_inj a).mp h, rfl⟩

theorem of_braceless (h : Braceless a) : BracesMatch a where
  never_below := by
    intro x hx
    rw [count_eq_zero_of_not_mem fun hmem => h.2 (hx.subset hmem)]
    exact Nat.zero_le _
  closed := by
    rw [count_eq_zero_of_not_mem h.1, count_eq_zero_of_not_mem h.2]

theorem append (ha : BracesMatch a) (hb : BracesMatch b) : BracesMatch (a ++ b) where
  never_below := by
    intro x hx
    rcases prefix_append_cases hx with hx | ⟨y, hy, rfl⟩
    · exact ha.never_below x hx
    · rw [count_append, count_append, ha.closed]
      exact Nat.add_le_add_left (hb.never_below y hy) _
  closed := by
    rw [count_append, count_append, ha.closed, hb.closed]

theorem braced (h : BracesMatch a) : BracesMatch ('{' :: a ++ ['}']) where
  never_below := by
    intro x hx
    rw [cons_append, prefix_cons_iff] at hx
    rcases hx with rfl | ⟨y, rfl, hy⟩
    · simp
    · have hcount : y.count '}' ≤ y.count '{' + 1 := by
        rcases prefix_append_cases hy with hy | ⟨z, hz, rfl⟩
        · exact Nat.le_succ_of_le (h.never_below y hy)
        · have hlast : z.count '}' ≤ 1 := hz.sublist.count_le '}'
          rw [count_append, count_append, h.closed]
          omega
      simpa using hcount
  closed := by
    simp [h.closed]

theorem flatMap {α : Type} {f : α → Text} {xs : List α} (h : ∀ x ∈ xs, BracesMatch (f x)) :
    BracesMatch (xs.flatMap f) := by
  induction xs with
  | nil => exact of_braceless ⟨by simp, by simp⟩
  | cons x xs ih =>
    rw [flatMap_cons]
    exact (h x (by simp)).append (ih fun y hy => h y (by simp [hy]))

end BracesMatch

/-! ## Texts without braces -/

namespace Braceless

variable {a b : Text}

theorem append (ha : Braceless a) (hb : Braceless b) : Braceless (a ++ b) := by
  simp [Braceless, ha.1, ha.2, hb.1, hb.2]

theorem of_subset (ha : Braceless a) (h : ∀ c ∈ b, c ∈ a) : Braceless b :=
  ⟨fun hmem => ha.1 (h _ hmem), fun hmem => ha.2 (h _ hmem)⟩

theorem joinWith {sep : Text} (hsep : Braceless sep) {ts : List Text}
    (h : ∀ t ∈ ts, Braceless t) : Braceless (joinWith sep ts) := by
  constructor
  · intro hmem
    rcases mem_joinWith hmem with hc | ⟨t, ht, hc⟩
    · exact hsep.1 hc
    · exact (h t ht).1 hc
  · intro hmem
    rcases mem_joinWith hmem with hc | ⟨t, ht, hc⟩
    · exact hsep.2 hc
    · exact (h t ht).2 hc

theorem replace (ha : Braceless a) {old new : Text} (hnew : Braceless new) :
    Braceless (Text.replace old new a) :=
  ⟨fun hmem => (mem_replace hmem).elim hnew.1 ha.1,
    fun hmem => (mem_replace hmem).elim hnew.2 ha.2⟩

/-- Taking the mark of a default away brings no braces. -/
theorem dropDefault (ha : Braceless a) : Braceless (dropDefault a) := by
  have hunmarked : Braceless (Text.replace defaultMark [] a) := ha.replace (by decide)
  exact (hunmarked.replace (by decide)).of_subset fun _ => mem_of_mem_trim

end Braceless

/-- Neither the name nor the value of a property holds a brace. -/
def Property.Braceless (p : Property) : Prop :=
  Sheet.Braceless p.name ∧ ∀ v ∈ p.value, Sheet.Braceless v

instance : DecidablePred Property.Braceless := fun _ => inferInstanceAs (Decidable (_ ∧ _))

/-- A rule brings no braces of its own. -/
structure Block.Braceless (b : Block) : Prop where
  selectors : Sheet.Braceless b.selectors
  media : ∀ names ∈ b.media, ∀ name ∈ names, Sheet.Braceless name
  properties : ∀ p ∈ b.properties, p.Braceless

theorem Property.Braceless.text {p : Property} (h : p.Braceless) :
    Sheet.Braceless (propertyText .compact [] p) := by
  unfold propertyText
  split
  next => exact h.1
  next v hv =>
    have hcolon : Sheet.Braceless [':'] := by simp [Sheet.Braceless]
    simpa using h.1.append (hcolon.append (h.2 v hv))

theorem braceless_propertiesFrom (seen : List Text) (last : Option Text) {ps : List Property}
    (h : ∀ p ∈ ps, p.Braceless) : Braceless (propertiesFrom .compact [] seen last ps) := by
  fun_induction propertiesFrom .compact [] seen last ps with
  | case1 => simp [Braceless]
  | case2 seen last p rest text isDefault text' hskip ih => exact ih fun q hq => h q (by simp [hq])
  | case3 seen last p rest text isDefault text' hskip ih =>
    have htext : Braceless text := (h p (by simp)).text
    have htext' : Braceless text' := by
      unfold text'
      split
      · exact htext.dropDefault
      · exact htext
    have hsemicolon : Braceless [';'] := by simp [Braceless]
    have hrest := hsemicolon.append (ih fun q hq => h q (by simp [hq]))
    simpa using htext'.append hrest

theorem mediaLine_eq_snoc (sets : SetOrder) {names : List Text}
    (h : ∀ name ∈ names, Braceless name) :
    ∃ t, Braceless t ∧ mediaLine sets names = t ++ ['{'] := by
  refine ⟨_, Braceless.append (by decide) (Braceless.joinWith (by decide) fun t ht => ?_), rfl⟩
  exact h t (mem_eraseDups.mp ((sets.perm _).mem_iff.mp ht))

/-- The braces that a rule brings are those of its blocks. -/
theorem Block.Braceless.bracesMatch {b : Block} (h : b.Braceless) (sets : SetOrder) :
    BracesMatch (b.compactText sets) := by
  have hlines : Sheet.Braceless b.lines := braceless_propertiesFrom [] none h.properties
  have hbody : Sheet.Braceless b.lines.dropLast :=
    hlines.of_subset fun _ => mem_of_mem_dropLast
  have hinner : BracesMatch b.inner := by
    unfold Block.inner
    split
    · exact .of_braceless hbody
    · have hbraced := (BracesMatch.of_braceless hbody).braced
      simpa using (BracesMatch.of_braceless h.selectors).append hbraced
  unfold Block.compactText
  split
  next m ms hmedia =>
    obtain ⟨head, hhead, hline⟩ := mediaLine_eq_snoc sets (h.media _ hmedia)
    have hall := (BracesMatch.of_braceless hhead).append hinner.braced
    rw [hline]
    simpa using hall
  next =>
    split
    · exact .of_braceless hlines
    · exact hinner

end Sheet

namespace Compile

variable {s : Session} {r : Nat}

open Sheet (Block)

/-! ## The rules of a session -/

/-- A rule of the session as it is printed without remarks. -/
def ruleBlock (s : Session) (r : Nat) : Block where
  selectors := (s.rules.getD r {}).selectors
  media := (s.rules.getD r {}).media
  properties :=
    match (s.rules.getD r {}).sink with
    | none => []
    | some i => (s.sinks.getD i []).reverse

/-- The rules that are printed for a file, or for all files. -/
def printedRules (s : Session) (file : Option Text) : List Nat :=
  match file with
  | none | some [] => s.order.filter (isPrinted s)
  | some _ => s.filled.filter fun r => (s.rules.getD r {}).file == file

/-- No remarks are asked for. -/
def Quiet (s : Session) (r : Nat) : Prop :=
  ∀ v ∈ (s.settings.getD (s.rules.getD r {}).settings []).get? "verbosity".toList,
    v.exceeds 1 = false

theorem run_propertiesOf (s : Session) (r : Nat) :
    (Run.propertiesOf r).run s = (.ok (ruleBlock s r).properties, s) := by
  unfold Run.propertiesOf ruleBlock
  rw [Run.run_get_bind]
  cases (s.rules.getD r {}).sink <;> rfl

theorem run_blockOf (h : Quiet s r) :
    (blockOf .compact false r).run s = (.ok (ruleBlock s r), s) := by
  have hremarks : (remarksOf .compact r).run s = (.ok [], s) := by
    unfold remarksOf
    rw [Run.run_settingsOf_bind]
    split
    next => rfl
    next v hv =>
      rw [h v hv]
      rfl
  unfold blockOf
  rw [Run.run_rule_bind]
  simp only [Bool.false_and, Bool.false_eq_true, if_false]
  rw [pure_bind, Run.bind_ok hremarks, Run.bind_ok (run_propertiesOf s r)]
  rfl

theorem run_blocks {rs : List Nat} (h : ∀ r ∈ rs, Quiet s r) :
    (rs.mapM (blockOf .compact false)).run s = (.ok (rs.map (ruleBlock s)), s) := by
  induction rs with
  | nil => rfl
  | cons r rs ih =>
    rw [mapM_cons, Run.bind_ok (run_blockOf (h r (by simp))),
      Run.bind_ok (ih fun x hx => h x (by simp [hx]))]
    rfl

theorem bare_ruleBlock (h : isPrinted s r = true) : (ruleBlock s r).Bare where
  properties := by
    unfold isPrinted at h
    unfold ruleBlock
    split <;> simp_all
  remarks := rfl
  debugLine := rfl

theorem isPrinted_of_mem {file : Option Text}
    (hfilled : ∀ r ∈ s.filled, isPrinted s r = true) (hr : r ∈ printedRules s file) :
    isPrinted s r = true := by
  unfold printedRules at hr
  split at hr
  · exact (mem_filter.mp hr).2
  · exact (mem_filter.mp hr).2
  · exact hfilled r (mem_filter.mp hr).1

/-- The text of a sheet, put together from the texts of its rules. -/
def sheetText (s : Session) (file : Option Text) : Text :=
  ((printedRules s file).flatMap fun r => (ruleBlock s r).compactText s.sets) ++ ['\n']

/-- A compact sheet is printed rule by rule.  The text of a rule depends on its selectors, media and
properties alone, its properties end with the one semicolon that is left out before a brace, and the
braces of the sheet match if no rule brings one of its own. -/
theorem sheet_printed_by_rules {s : Session} (file : Option Text)
    (hcompact : (isOn "compress" true).run s = (.ok true, s))
    (hfilled : ∀ r ∈ s.filled, isPrinted s r = true)
    (hquiet : ∀ r ∈ printedRules s file, Quiet s r) :
    (printFile file).run s = (.ok (sheetText s file), s) ∧
      (∀ r ∈ printedRules s file, ∃ t, (ruleBlock s r).lines = t ++ [';']) ∧
      ((∀ r ∈ printedRules s file, (ruleBlock s r).Braceless) →
        Sheet.BracesMatch (sheetText s file)) := by
  have hbare : ∀ r ∈ printedRules s file, (ruleBlock s r).Bare := fun r hr =>
    bare_ruleBlock (isPrinted_of_mem hfilled hr)
  refine ⟨?_, fun r hr => Block.lines_eq_snoc (hbare r hr).properties, fun hbraceless => ?_⟩
  · have hprint : Sheet.print s.sets .compact ((printedRules s file).map (ruleBlock s)) =
        sheetText s file := by
      rw [Sheet.print_compact s.sets (by simpa using hbare), List.flatMap_map]
      rfl
    unfold printFile
    rw [Run.run_get_bind, Run.bind_ok hcompact]
    simp only [if_true]
    rw [pure_bind, ← hprint]
    exact Run.bind_ok (run_blocks hquiet)
  · refine Sheet.BracesMatch.append (.flatMap fun r hr => (hbraceless r hr).bracesMatch s.sets) ?_
    exact .of_braceless (by decide)

/-- A sheet with rules of all kinds, one of them without properties. -/
def variedSheet : Session where
  settings := #[[("verbosity".toList, .whole 1)]]
  sinks := #[[⟨0, "b".toList, some "c".toList⟩, ⟨0, "a".toList, some "b".toList⟩], []]
  rules := #[
    { position := some 0, sink := some 0 },
    { position := some 1, sink := some 0, selectors := "p,q".toList },
    { position := some 2, sink := some 1, selectors := "r".toList },
    { position := some 3, sink := some 0, media := some ["m".toList, "n".toList, "m".toList] },
    { position := some 4, sink := some 0, selectors := "p".toList, media := some ["m".toList] },
    { position := some 5, sink := some 0, selectors := "p".toList, media := some [] }]
  order := [0, 1, 2, 3, 4, 5]

/-- Its text. -/
def variedText : Text :=
  "a:b;b:c;p,q\x7ba:b;b:c\x7d".toList ++ "@media m and n\x7ba:b;b:c\x7d".toList ++
    "@media m\x7bp\x7ba:b;b:c\x7d\x7dp\x7ba:b;b:c\x7d\n".toList

theorem sheet_printed_by_rules_varied :
    (printFile none).run variedSheet = (.ok variedText, variedSheet) ∧
      Sheet.BracesMatch variedText := by
  have hprinted : printedRules variedSheet none = [0, 1, 3, 4, 5] := by decide
  have hquiet : ∀ r ∈ printedRules variedSheet none, Quiet variedSheet r := by
    have hall : ∀ r ∈ [0, 1, 3, 4, 5], (variedSheet.settings.getD
        (variedSheet.rules.getD r {}).settings []).get? "verbosity".toList = some (.whole 1) := by
      intro r hr
      fin_cases hr <;> rfl
    intro r hr v hv
    rw [hall r (hprinted ▸ hr), Option.mem_some_iff] at hv
    rw [← hv]
    rfl
  have hbraceless : ∀ r ∈ printedRules variedSheet none, (ruleBlock variedSheet r).Braceless := by
    rw [hprinted]
    intro r hr
    fin_cases hr <;> exact ⟨by decide, by decide, by decide⟩
  obtain ⟨hprint, -, hbraces⟩ :=
    sheet_printed_by_rules (s := variedSheet) none rfl (by decide) hquiet
  rw [show sheetText variedSheet none = variedText by decide +kernel] at hprint hbraces
  exact ⟨hprint, hbraces hbraceless⟩

end Compile

end SheetPress
