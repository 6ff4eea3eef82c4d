import SheetPress.Proofs.Compile.Counting

/-!
# What code means

The meaning of code made of words: declarations, groups of properties, nested rules, media blocks,
inclusions of mixins and counting loops.  `Means` gives the outcome of an outline item by item, and
`run_means` says that working on the code adds that outcome to the session.
-/

set_option autoImplicit false

namespace SheetPress.Compile

open List Text Run

variable {s : Session} {k : Nat} {e : Count} {argument : Text}

open Source (Outline Word PlainWord declaration groupHead directive mediaWord mixinWord includeWord
  forWord fromWord counterName loopRange loopHead numberedHead labelHead)

/-! ## Declarations -/

theorem readDeclaration_declaration (name value : Word) :
    readDeclaration (declaration name value) = (name.text, false, some (' ' :: value.text)) := by
  have hcut : cutAt? (fun c => c == ':' || c == '=') (declaration name value) =
      some (name.text, ':', ' ' :: value.text) := by
    refine cutAt?_append _ (fun d hd => ?_) (by decide)
    have h₁ : d ≠ ':' := Word.ne_of_mem hd (by decide)
    have h₂ : d ≠ '=' := Word.ne_of_mem hd (by decide)
    simp [h₁, h₂]
  simp [readDeclaration, hcut, name.tight.trim]

theorem isPlain_word (w : Word) : isPlain w.text = true := by
  have hrow : isPlainRow w.text = true := by
    have hsign : (w.text.head? == some '-') = false := by
      simpa using fun h => w.notMem (by decide) (mem_of_head? h)
    have hall : ∀ c ∈ w.text, isPlainChar c = true := by
      intro c hc
      have hlower := w.lower c hc
      simp [isPlainChar, isWord, Char.isAlphanum, Char.isAlpha, hlower]
    have hdrop : w.text.dropWhile (fun c => isPlainChar c || isSpace c) = [] := by
      simpa using fun c hc => .inl (hall c hc)
    simp [isPlainRow, hsign, hdrop]
  -- Every sign of an operator has a blank in it.
  have hsigns : operatorWords.any (fun o => contains w.text o) = false := by
    have hblank : ∀ o ∈ operatorWords, ' ' ∈ o := by decide
    simpa using fun o ho => contains_eq_false_of_mem (hblank o ho) (w.notMem (by decide))
  simp [isPlain, hrow, hsigns]

variable (inner : Compiler) {known : Settings} {outer : List Text}

theorem run_declaredValue (r : Nat) (value : Word) (hs : Faithful s.pool s.results) :
    ∃ results, Faithful s.pool results ∧
      (declaredValue inner r (some (' ' :: value.text))).run s =
        (.ok (some (.word value.text)), { s with results }) := by
  have htrim : trim (' ' :: value.text) = value.text := by
    have hpad := trim_pad (a := [' ']) (b := []) (by simp; decide) (by simp) value.tight
    simpa using hpad
  obtain ⟨results, hresults, hrun⟩ := run_calculate inner r
    (s.contexts.getD (s.rules.getD r {}).context []) (isPlain_word value) hs
  refine ⟨results, hresults, ?_⟩
  simp only [declaredValue, run_contextOf_bind, htrim]
  rw [bind_ok hrun, run_pure]

theorem Stands.clear_append {f : Frame} (hf : Stands known k outer e s f) (name : Word) :
    '$' ∉ f.scope.getD [] ++ name.text ∧ '#' ∉ f.scope.getD [] ++ name.text := by
  have hscope : '$' ∉ f.scope.getD [] ∧ '#' ∉ f.scope.getD [] := by
    cases hs : f.scope with
    | none => simp
    | some t => exact hf.scope t (by simp [hs])
  constructor
  · simpa [hscope.1] using name.notMem (by decide)
  · simpa [hscope.2] using name.notMem (by decide)

/-- A declaration adds a property, its name behind those of the groups around it. -/
theorem run_declare {f : Frame} (line : Int) (name value : Word) (hf : Stands known k outer e s f) :
    ∃ results, Faithful s.pool results ∧
      (declare inner f line (declaration name value)).run s =
        (.ok (), { s with
          results
          sinks := s.sinks.modify k
            (⟨line, f.scope.getD [] ++ name.text, some value.text⟩ :: ·) }) := by
  obtain ⟨results, hresults, hvalue⟩ := run_declaredValue inner f.rule value hf.faithful
  refine ⟨results, hresults, ?_⟩
  have hname : name.text.isEmpty = false := by simpa using name.ne_nil
  have hvariable : (name.text.head? == some '$') = false := by
    simpa using fun h => name.notMem (by decide) (mem_of_head? h)
  have hclear := hf.clear_append name
  have hsink : (s.rules.getD f.rule {}).sink = some k := hf.sink
  simp only [declare, readDeclaration_declaration]
  rw [bind_ok (run_interpolate inner f.rule true s (name.notMem (by decide)))]
  simp only [hname, Bool.false_eq_true, if_false]
  rw [bind_ok hvalue]
  simp only [hvariable, Bool.or_self, run_contextOf_bind]
  rw [bind_ok (run_substitute inner f.rule _ true _ hclear.1 hclear.2)]
  simp only [run_rule_bind, hsink, Option.isNone_some, Bool.false_eq_true, if_false,
    Value.shown, run_lift_pure_bind, pure_bind]
  exact Run.run_addProperty _ hsink

/-! ## Items -/

theorem expandHead_of_ne {t : Text} (h : ∀ c ∈ t.head?, c ≠ '+' ∧ c ≠ '=') : expandHead t = t := by
  unfold expandHead
  split
  · exact absurd rfl (h '+' (by simp)).1
  · exact absurd rfl (h '=' (by simp)).2
  · rfl

/-- An item that starts with a word has no short form and is no directive. -/
theorem unmarked_word (w : Word) (rest : Text) :
    expandHead (w.text ++ rest) = w.text ++ rest ∧
      ((w.text ++ rest).head? == some '@') = false := by
  have hne : ∀ d : Char, d.isLower = false → ∀ c ∈ (w.text ++ rest).head?, c ≠ d := by
    intro d hd c hc
    refine Word.ne_of_mem (w := w) ?_ hd
    rw [List.head?_append_of_ne_nil _ w.ne_nil] at hc
    exact mem_of_mem_head? hc
  constructor
  · exact expandHead_of_ne fun c hc => ⟨hne '+' (by decide) c hc, hne '=' (by decide) c hc⟩
  · rw [beq_eq_false_iff_ne]
    exact fun h => hne '@' (by decide) '@' h rfl

theorem runItem_declaration (f : Frame) (line : Int) (name value : Word) :
    runItem inner f ⟨line, declaration name value, none⟩ =
      declare inner f line (declaration name value) := by
  obtain ⟨hexpand, hat⟩ := unmarked_word name (':' :: ' ' :: value.text)
  simp only [runItem, declaration, hexpand, hat, Bool.false_eq_true, if_false]

/-- A group is worked on with its name in front of the names in it. -/
theorem runItem_group (f : Frame) (line : Int) (name : Word) (code : Text) :
    runItem inner f ⟨line, groupHead name, some code⟩ =
      inner.work { f with scope := some (f.scope.getD [] ++ name.text ++ ['-']) } code := by
  obtain ⟨hexpand, hat⟩ := unmarked_word name [':']
  have hlast : ((name.text ++ [':']).getLast? == some ':') = true := by simp
  simp only [runItem, groupHead, hexpand, hat, hlast, dropLast_concat, Bool.false_eq_true,
    if_false, if_true]

/-- The head of a rule for classes. -/
structure Selecting (head : Text) : Prop where
  point : head.head? = some '.'
  last : head.getLast? ≠ some ':'

theorem runItem_rule (f : Frame) (line : Int) {head : Text} (h : Selecting head) (code : Text) :
    runItem inner f ⟨line, head, some code⟩ = nestUnscoped inner f line head code := by
  have hexpand : expandHead head = head := by
    refine expandHead_of_ne fun c hc => ?_
    rw [h.point, Option.mem_some_iff] at hc
    subst hc
    decide
  have hlast : (head.getLast? == some ':') = false := by simpa using h.last
  simp [runItem, hexpand, h.point, hlast]

theorem numberedHead_ne (name : Word) : numberedHead name ≠ selfWord := by
  intro h
  exact absurd (congrArg List.head? h) (by simp [numberedHead, Source.classHead, selfWord])

theorem selecting_numberedHead (name : Word) : Selecting (numberedHead name) where
  point := rfl
  last := by
    rw [numberedHead, Outline.getLast?_interpolation]
    decide

/-! ## Directives -/

theorem firstWord_directive_of_head (kind : Word) (hne : argument ≠ [])
    (hhead : ∀ c ∈ argument.head?, isSpace c = false) :
    firstWord (directive kind argument) = ('@' :: kind.text, argument) := by
  have htake : (directive kind argument).takeWhile (fun c => !isSpace c) =
      '@' :: kind.text := by
    have hall : ∀ c ∈ '@' :: kind.text, (!isSpace c) = true := by
      intro c hc
      rcases mem_cons.mp hc with rfl | hc
      · decide
      · simp [Word.isSpace_of_mem hc]
    rw [directive, ← cons_append, takeWhile_append_of_pos hall]
    simp [isSpace]
  have hleft : trimLeft (directive kind argument) = directive kind argument := by
    simp [trimLeft, directive, isSpace]
  have hargument : trimLeft (' ' :: argument) = argument := by
    have hdrop : argument.dropWhile isSpace = argument := by
      simpa using dropWhile_append_of_head [] hne hhead
    simpa [trimLeft, isSpace] using hdrop
  have hrest : (directive kind argument).drop ('@' :: kind.text).length = ' ' :: argument := by
    simp [directive]
  simp only [firstWord, hleft, htake, hrest, hargument]

theorem firstWord_directive (kind : Word) (h : Outline.Calm argument) :
    firstWord (directive kind argument) = ('@' :: kind.text, argument) :=
  firstWord_directive_of_head kind h.ne_nil h.tight.head

theorem runItem_directive (f : Frame) (line : Int) (kind : Word) (argument : Text)
    (code : Option Text) :
    runItem inner f ⟨line, directive kind argument, code⟩ =
      runDirective inner f line (directive kind argument) code := by
  have hexpand : expandHead (directive kind argument) = directive kind argument :=
    expandHead_of_ne (by simp [directive])
  have hat : ((directive kind argument).head? == some '@') = true := by simp [directive]
  simp only [runItem, hexpand, hat, if_true]

theorem runItem_media (f : Frame) (line : Int) {query : Text} (h : Outline.Calm query)
    (code : Text) :
    runItem inner f ⟨line, directive mediaWord.toWord query, some code⟩ =
      inner.work { f with media := some (f.media.getD [] ++ [query]) }
        (selfWord ++ [' ', '{'] ++ code ++ ['}']) := by
  rw [runItem_directive, runDirective, firstWord_directive _ h]
  rfl

theorem runItem_include (f : Frame) (line : Int) {name : Text} (h : Outline.Calm name) :
    runItem inner f ⟨line, directive includeWord.toWord name, none⟩ =
      runInclude inner f line name := by
  rw [runItem_directive, runDirective, firstWord_directive _ h]
  rfl

theorem runItem_mixin (f : Frame) (line : Int) {name : Text} (h : Outline.Calm name) (code : Text) :
    runItem inner f ⟨line, directive mixinWord.toWord name, some code⟩ =
      define f line "@mixin".toList name code := by
  rw [runItem_directive, runDirective, firstWord_directive _ h]
  rfl

/-! ## Nested rules -/

section Nesting

variable {known : Settings} {k : Nat} {outer : List Text} {e : Count} {s : Session} {f : Frame}

variable {body : Outline} (inner : Compiler)

/-- A nested rule is put behind those that are there already, to be worked on later. -/
theorem run_nestRule (hf : Stands known k outer e s f) (line : Int) {head written : Text}
    (media : Option (List Text)) (hbody : body.AllEven) (hself : head ≠ selfWord ∨ media ≠ f.media)
    (hhead : (substitute inner f.rule (variablesOf s f.rule) true head).run s = (.ok written, s)) :
    ∃ t, (nestRule inner { f with media } line head body.code).run s = (.ok (), t) ∧
      Worked known k f.owner e s t
        { nested := [⟨nestedSelectors outer written, media, body, e⟩] } := by
  have hnew : (head == selfWord && (s.rules.getD f.rule {}).media == media) = false := by
    rw [Bool.and_eq_false_iff, beq_eq_false_iff_ne, beq_eq_false_iff_ne, hf.media]
    exact hself.imp id Ne.symm
  have hworked := hf.worked_nest
    (r := { s.rules.getD f.rule {} with
      code := body.code
      deps := []
      context := s.contexts.size
      settings := s.settings.size
      selectors := nestedSelectors outer written
      sink := some s.sinks.size
      media
      line })
    (n := ⟨nestedSelectors outer written, media, body, e⟩) hbody rfl rfl rfl rfl rfl rfl rfl rfl
  refine ⟨_, ?_, hworked⟩
  simp only [nestRule, run_rule_bind, hnew, Bool.false_eq_true, if_false,
    run_contextOf_bind]
  rw [variablesOf] at hhead
  rw [bind_ok hhead]
  simp only [run_owner_bind, hf.selectors, variablesOf, run_contextOf_bind, run_newContext_bind,
    run_settingsOf_bind, run_newSettings_bind, hf.settings.2, run_newSink_bind,
    run_newRule_bind, run_modifyOwner]

/-- As long as nothing has been returned, items are worked on one after the other. -/
theorem run_runItems_cons (hf : Stands known k outer e s f)
    (hreturn : known.has "@return".toList = false) {i : Source.Item} {t : Session}
    (h : (runItem inner f i).run s = (.ok (), t)) (rest : List Source.Item) :
    (runItems inner f none (i :: rest)).run s = (runItems inner f none rest).run t := by
  simp only [runItems, run_settingsOf_bind, hf.settings.2, hreturn, Bool.false_eq_true,
    if_false]
  exact bind_ok h

/-- What an item adds comes before what the items behind it add. -/
theorem Worked.cons {inner : Compiler} {i : Source.Item} {rest : List Source.Item} {t : Session}
    {first out : Outcome} (hadd : Worked known k f.owner e s t first)
    (hf : Stands known k outer e s f) (hreturn : known.has "@return".toList = false)
    (hitem : (runItem inner f i).run s = (.ok (), t))
    (hrest : Stands known k outer e t f → ∃ u,
      (runItems inner f none rest).run t = (.ok (), u) ∧ Worked known k f.owner e t u out) :
    ∃ u, (runItems inner f none (i :: rest)).run s = (.ok (), u) ∧
      Worked known k f.owner e s u (first ++ out) := by
  obtain ⟨u, hrun, hworked⟩ := hrest (hadd.toKeeps.stands hf)
  refine ⟨u, ?_, hadd.trans hworked hf.sinkBound⟩
  exact (run_runItems_cons inner hf hreturn hitem rest).trans hrun

/-- What stands in a block of the rule itself, or nothing inside a group. -/
def nestedIn (scope : Option Text) (n : Node) : Outcome :=
  if scope.isNone then { nested := [n] } else {}

theorem run_nestUnscoped (hf : Stands known k outer e s f) (line : Int) {head written : Text}
    (media : Option (List Text)) (hbody : body.AllEven) (hself : head ≠ selfWord ∨ media ≠ f.media)
    (hhead : (substitute inner f.rule (variablesOf s f.rule) true head).run s = (.ok written, s)) :
    ∃ t, (nestUnscoped inner { f with media } line head body.code).run s = (.ok (), t) ∧
      Worked known k f.owner e s t
        (nestedIn f.scope ⟨nestedSelectors outer written, media, body, e⟩) := by
  cases hscope : f.scope with
  | none =>
    obtain ⟨t, hrun, hworked⟩ := run_nestRule inner hf line media hbody hself hhead
    refine ⟨t, ?_, hworked⟩
    simpa only [nestUnscoped, hscope, Option.isNone_none, if_true] using hrun
  | some p =>
    refine ⟨s, ?_, Worked.of_keeps hf.keeps_self rfl rfl⟩
    simp only [nestUnscoped, Option.isNone_some, Bool.false_eq_true, if_false, run_pure]

theorem calm_selfWord : Outline.Calm selfWord :=
  Source.calm_word (Source.keyword selfWord (by decide))

theorem run_media (n : Nat) (hf : Stands known k outer e s f)
    (hreturn : known.has "@return".toList = false) (query : Text) (hbody : body.AllEven) :
    ∃ t, ((compiler (n + 1)).work { f with media := some (f.media.getD [] ++ [query]) }
        (selfWord ++ [' ', '{'] ++ body.code ++ ['}'])).run s = (.ok (), t) ∧
      Worked known k f.owner e s t (nestedIn f.scope
        ⟨nestedSelectors outer selfWord, some (f.media.getD [] ++ [query]), body, e⟩) := by
  have hitems : Source.items (selfWord ++ [' ', '{'] ++ body.code ++ ['}']) =
      ⟨[⟨0, selfWord, some body.code⟩], none⟩ := by
    have hpasses : Source.Passes body.code := Source.passes_write hbody (by simp [Source.Quiet])
    have hblock := Source.items_block calm_selfWord.even hpasses
    rw [(Outline.tight_code hbody).trim] at hblock
    have hgap : Outline.gapOf selfWord = [' '] := by decide
    rw [hgap] at hblock
    simpa using hblock
  have hmedia : some (f.media.getD [] ++ [query]) ≠ f.media := by
    intro h
    have hlength := congrArg (fun m : Option (List Text) => (m.getD []).length) h
    simp at hlength
  obtain ⟨t, hrun, hworked⟩ := run_nestUnscoped (compiler n) hf 0
    (some (f.media.getD [] ++ [query])) hbody (Or.inr hmedia)
    (run_substitute (compiler n) f.rule _ true s (t := selfWord) (by decide) (by decide))
  refine ⟨t, ?_, hworked⟩
  have hitem : runItem (compiler n) { f with media := some (f.media.getD [] ++ [query]) }
      ⟨0, selfWord, some body.code⟩ =
        nestUnscoped (compiler n) { f with media := some (f.media.getD [] ++ [query]) } 0 selfWord
          body.code := rfl
  show (work (compiler n) _ _).run s = _
  simp only [work, hitems, runItems, run_settingsOf_bind, hf.settings.2, hreturn,
    Bool.false_eq_true, if_false, hitem]
  rw [bind_ok hrun, run_pure]

/-! ## Mixins -/

/-- A mixin without parameters. -/
def bareMixin (code : Text) : Mixin := ⟨[], [], .word code⟩

/-- The name under which a mixin without parameters is known. -/
def mixinKey (name : Text) : Text := definitionKey "@mixin".toList name 0

theorem readHead_word (name : Word) :
    readHead name.text = (name.text, splitArguments []) := by
  have hcut : cut? ['('] name.text = none :=
    cut?_eq_none_of_notMem (name.notMem (by decide))
  simp only [readHead, hcut, name.tight.trim]

theorem run_define (f : Frame) (line : Int) (name : Word) {code : Text} (s : Session)
    (hcode : '$' ∉ code) :
    (define f line "@mixin".toList name.text code).run s =
      (.ok (), { s with
        settings := s.settings.modify (s.rules.getD f.rule {}).settings
          (Settings.set (mixinKey name.text) (.mixin (bareMixin code))) }) := by
  have hname : name.text.isEmpty = false := by simpa using name.ne_nil
  have hany : code.any (· == '$') = false := by
    simpa using fun c hc => ne_of_mem_of_not_mem hc hcode
  have hmixin : ∀ c : Context,
      readMixin c (splitArguments []) code = pure (bareMixin code) := by
    intro c
    have hnone : ((splitArguments []).map readParameter).filter (fun p => !p.1.isEmpty) = [] := by
      decide
    simp [readMixin, hnone, defaultsOf, substituteValue, hany, bareMixin]
  simp only [define, hname, Bool.false_eq_true, if_false, readHead_word, run_contextOf_bind,
    hmixin, run_lift_pure_bind]
  rfl

/-- Including a mixin works on its code in a rule that shares sink and settings with the rule of
the frame. -/
theorem run_include (hf : Stands known k outer e s f) (line : Int) (name : Word) {code : Text}
    (hknown : known.get? (mixinKey name.text) = some (.mixin (bareMixin code))) :
    ∃ (c : Context) (r : Rule), r.context = s.contexts.size ∧
      (runInclude inner f line name.text).run s =
        (inner.work { f with rule := s.rules.size } code).run
          { s with contexts := s.contexts.push c, rules := s.rules.push r } ∧
      Stands known k outer e { s with contexts := s.contexts.push c, rules := s.rules.push r }
        { f with rule := s.rules.size } := by
  have hfound : findMixin known name.text (positionsFirst []) 0 = some (bareMixin code, []) := by
    have hget : known.get? (definitionKey "@mixin".toList name.text 0) =
        some (.mixin (bareMixin code)) := hknown
    simp only [findMixin, hget]
    rfl
  have hargs : readArguments 0 (splitArguments []) = ([], 0) := by decide
  refine ⟨(s.contexts.getD (s.rules.getD f.rule {}).context []).update [],
    { s.rules.getD f.rule {} with context := s.contexts.size, line }, rfl, ?_, ?_⟩
  · simp only [runInclude, enterMixin, readHead_word, bind_assoc]
    rw [bind_ok (run_interpolate inner f.rule true s (name.notMem (by decide)))]
    simp only [hargs, run_settingsOf_bind, hf.settings.2, hfound]
    rfl
  · have hrule : ∀ r : Rule, (s.rules.push r).getD s.rules.size {} = r := fun r =>
      getD_push_size _ _ _
    constructor
    · simp
    · simpa only [sinkOf, hrule] using hf.sink
    · exact hf.sinkBound
    · simpa only [hrule] using hf.media
    · simpa only [hrule] using hf.settings
    · exact hf.ownerBound
    · exact hf.selectors
    · rw [variablesOf, hrule, getD_push_size]
      exact hf.context
    · exact hf.apart.push _ rfl
    · exact hf.faithful
    · exact hf.scope

/-! ## Loops -/

theorem run_loop (hf : Stands known k outer e s f) (line : Int) {first last a b : Int}
    (hfirst : Decimal.truncate? (Decimal.ofInt first) = some a)
    (hlast : Decimal.truncate? (Decimal.ofInt last) = some b) (code : Text) :
    ∃ pool results, Richer s.pool pool ∧ Faithful pool results ∧
      (runItem inner f ⟨line, loopHead first last, some code⟩).run s =
        (countThrough inner f counterName code (steps a b)).run { s with pool, results } := by
  have hitem : runItem inner f ⟨line, loopHead first last, some code⟩ =
      runCount inner f (counterName ++ ' ' :: (fromWord.text ++ loopRange first last)) code := by
    rw [loopHead, runItem_directive, runDirective,
      firstWord_directive_of_head _ (by simp [counterName]) (by rintro c ⟨⟩; decide)]
    rfl
  have hvar : trim (counterName ++ [' ']) = counterName := by decide
  have hfirst' : Bound first (' ' :: (ofInt first ++ [' '])) := ⟨.inr rfl⟩
  have hlast' : Bound last (' ' :: ofInt last) := ⟨.inl rfl⟩
  obtain ⟨v, pool, results, hrun, hricher, hfaithful, hkept⟩ :=
    hfirst'.run_calculate inner f.rule (variablesOf s f.rule) hf.faithful
  obtain ⟨w, pool', results', hrun', hricher', hfaithful', hkept'⟩ :=
    hlast'.run_calculate inner f.rule (variablesOf s f.rule) (s := { s with pool, results })
      hfaithful
  refine ⟨pool', results', hricher.trans hricher', hfaithful', ?_⟩
  rw [hitem, runCount_eq inner f code (readCount_loop first last) (by rw [hvar]; decide), hvar]
  exact run_loopBetween inner f counterName code hrun hrun'
    (hfirst'.run_boundOf hfirst (hkept.mono hricher')) (hlast'.run_boundOf hlast hkept')

/-! ## The meaning of an outline -/

/-- What an outline adds to a rule with the given outer selectors and media, in a group with the
given scope and with what is known of its counter.  Groups, inclusions and loops nest at most
`depth` deep. -/
inductive Means (mixins : Text → Option Outline) (outer : List Text) (media : Option (List Text)) :
    Count → (depth : Nat) → (scope : Option Text) → Outline → Outcome → Prop where
  | nil {e : Count} {n : Nat} {scope : Option Text} : Means mixins outer media e n scope .nil {}
  /-- A declaration takes the names of its groups in front of its own. -/
  | declare {e : Count} {n : Nat} {scope : Option Text} {rest : Outline} {out : Outcome}
      (name value : Word) :
      Means mixins outer media e n scope rest out →
      Means mixins outer media e n scope (.line (declaration name value) rest)
        ({ properties := [(scope.getD [] ++ name.text, some value.text)] } ++ out)
  | group {e : Count} {n : Nat} {scope : Option Text} {body rest : Outline} {inner out : Outcome}
      (name : Word) :
      Means mixins outer media e n (some (scope.getD [] ++ name.text ++ ['-'])) body inner →
      Means mixins outer media e (n + 1) scope rest out →
      Means mixins outer media e (n + 1) scope (.block (groupHead name) body rest) (inner ++ out)
  | rule {e : Count} {n : Nat} {scope : Option Text} {head : Text} {body rest : Outline}
      {out : Outcome} :
      Selecting head → Outline.Calm head → Means mixins outer media e n scope rest out →
      Means mixins outer media e n scope (.block head body rest)
        (nestedIn scope ⟨nestedSelectors outer head, media, body, e⟩ ++ out)
  /-- The name of a class ends with the number that a loop has counted to. -/
  | numbered {k : Int} {n : Nat} {scope : Option Text} {body rest : Outline} {out : Outcome}
      (name : Word) :
      Means mixins outer media (.reached k) n scope rest out →
      Means mixins outer media (.reached k) n scope (.block (numberedHead name) body rest)
        (nestedIn scope ⟨nestedSelectors outer (labelHead name k), media, body, .reached k⟩ ++ out)
  /-- A media block is a rule with the selectors around it. -/
  | media {e : Count} {n : Nat} {scope : Option Text} {query : Text} {body rest : Outline}
      {out : Outcome} :
      Outline.Calm query → Means mixins outer media e (n + 1) scope rest out →
      Means mixins outer media e (n + 1) scope (.block (directive mediaWord.toWord query) body rest)
        (nestedIn scope
          ⟨nestedSelectors outer selfWord, some (media.getD [] ++ [query]), body, e⟩ ++ out)
  /-- An inclusion means what the code of the mixin means in its place. -/
  | inclusion {e : Count} {n : Nat} {scope : Option Text} {body rest : Outline}
      {inner out : Outcome} (name : PlainWord) :
      mixins name.text = some body → Means mixins outer media e n scope body inner →
      Means mixins outer media e (n + 1) scope rest out →
      Means mixins outer media e (n + 1) scope
        (.line (directive includeWord.toWord name.text) rest) (inner ++ out)
  /-- A loop means what its code means for each number, one after the other.  The numbers are those
  from the double of its first bound to the double of its last one. -/
  | loop {n : Nat} {scope : Option Text} {body rest : Outline} {inner : Int → Outcome}
      {out : Outcome} {first last a b : Int} :
      Decimal.truncate? (Decimal.ofInt first) = some a →
      Decimal.truncate? (Decimal.ofInt last) = some b →
      (∀ k ∈ steps a b, Means mixins outer media (.reached k) n scope body (inner k)) →
      Means mixins outer media .still (n + 1) scope rest out →
      Means mixins outer media .still (n + 1) scope (.block (loopHead first last) body rest)
        (Outcome.concat ((steps a b).map inner) ++ out)

/-- The settings know the mixins, and no function has returned. -/
structure Knows (known : Settings) (mixins : Text → Option Outline) : Prop where
  returned : known.has "@return".toList = false
  mixin : ∀ {name : Text} {body : Outline}, mixins name = some body →
    body.AllCalm ∧ known.get? (mixinKey name) = some (.mixin (bareMixin body.code))

theorem Stands.inGroup (hf : Stands known k outer e s f) (name : Word) :
    Stands known k outer e s
      { f with scope := some (f.scope.getD [] ++ name.text ++ ['-']) } :=
  { hf with
    scope := by
      obtain ⟨hvariable, hbrace⟩ := hf.clear_append name
      intro t ht
      rw [Option.mem_some_iff] at ht
      subst ht
      constructor
      · simpa using hvariable
      · simpa using hbrace }

theorem run_work (n : Nat) (f : Frame) {o : Outline} (ho : o.AllEven) :
    (compiler (n + 1)).work f o.code = runItems (compiler n) f none (o.items 0) := by
  show work (compiler n) f o.code = _
  simp only [work, Source.items_code ho]

/-- A loop works on its code for one number after the other. -/
theorem run_countThrough {n : Nat} (hbody : body.AllEven) {ks : List Int} {inner : Int → Outcome}
    (h : ∀ i ∈ ks, ∀ {s : Session}, Stands known k outer (.reached i) s f → ∃ t,
      (runItems (compiler n) f none (body.items 0)).run s = (.ok (), t) ∧
      Worked known k f.owner (.reached i) s t (inner i)) (hf : Stands known k outer .still s f) :
    ∃ t, (countThrough (compiler (n + 1)) f counterName body.code ks).run s = (.ok (), t) ∧
      Worked known k f.owner .still s t (Outcome.concat (ks.map inner)) := by
  induction ks generalizing s with
  | nil => exact ⟨s, rfl, Worked.of_keeps hf.keeps_self rfl rfl⟩
  | cons i ks ih =>
    have hset := hf.worked_count i
    obtain ⟨t₁, hone, hinner⟩ := h i (by simp) (hf.counted i)
    have hworked : Worked known k f.owner .still s t₁ (inner i) :=
      hset.trans (hinner.still nofun) hf.sinkBound
    obtain ⟨t, hrun, hmore⟩ := ih (fun j hj => h j (by simp [hj])) (hworked.toKeeps.stands hf)
    refine ⟨t, ?_, hworked.trans hmore hf.sinkBound⟩
    rw [← run_work n _ hbody] at hone
    show ((compiler (n + 1)).work f body.code >>= fun _ =>
      countThrough (compiler (n + 1)) f counterName body.code ks).run
        (counting s f.rule i) = _
    rw [bind_ok hone, hrun]

/-! ## The items of an outline -/

section Items

variable {n : Nat} {inner : Outcome}

theorem run_groupItem (line : Int) (name : Word) (hbody : body.AllEven)
    (h : ∃ t, (runItems (compiler n)
          { f with scope := some (f.scope.getD [] ++ name.text ++ ['-']) } none
          (body.items 0)).run s = (.ok (), t) ∧ Worked known k f.owner e s t inner) :
    ∃ t, (runItem (compiler (n + 1)) f ⟨line, groupHead name, some body.code⟩).run s =
        (.ok (), t) ∧ Worked known k f.owner e s t inner := by
  obtain ⟨t, hrun, hworked⟩ := h
  refine ⟨t, ?_, hworked⟩
  rw [runItem_group, run_work n _ hbody, hrun]

/-- A rule is nested under what its head has been written out to. -/
theorem run_ruleItem (n : Nat) (hf : Stands known k outer e s f) (line : Int) {head written : Text}
    (hhead : Selecting head) (hself : head ≠ selfWord) (hbody : body.AllEven)
    (hwritten : (substitute (compiler n) f.rule (variablesOf s f.rule) true head).run s =
      (.ok written, s)) :
    ∃ t, (runItem (compiler n) f ⟨line, head, some body.code⟩).run s = (.ok (), t) ∧
      Worked known k f.owner e s t
        (nestedIn f.scope ⟨nestedSelectors outer written, f.media, body, e⟩) := by
  rw [runItem_rule _ _ _ hhead]
  exact run_nestUnscoped (compiler n) hf line f.media hbody (.inl hself) hwritten

theorem run_includeItem (hf : Stands known k outer e s f) (line : Int) (name : PlainWord)
    (hcalm : body.AllCalm)
    (hget : known.get? (mixinKey name.text) = some (.mixin (bareMixin body.code)))
    (h : ∀ {s : Session} {r : Nat}, Stands known k outer e s { f with rule := r } → ∃ t,
      (runItems (compiler n) { f with rule := r } none (body.items 0)).run s = (.ok (), t) ∧
      Worked known k f.owner e s t inner) :
    ∃ t, (runItem (compiler (n + 1)) f
        ⟨line, directive includeWord.toWord name.text, none⟩).run s = (.ok (), t) ∧
      Worked known k f.owner e s t inner := by
  obtain ⟨c, r, hr, hinclude, hspawn⟩ := run_include (compiler (n + 1)) hf line name.toWord hget
  obtain ⟨t, hbody, hworked⟩ := h hspawn
  refine ⟨t, ?_, (hf.worked_spawn c hr).trans hworked hf.sinkBound⟩
  rw [runItem_include _ _ _ (Source.calm_word name), hinclude, run_work n _ hcalm.even, hbody]

theorem run_loopItem (hf : Stands known k outer .still s f) (line : Int) (hbody : body.AllEven)
    {inner : Int → Outcome} {first last a b : Int}
    (hfirst : Decimal.truncate? (Decimal.ofInt first) = some a)
    (hlast : Decimal.truncate? (Decimal.ofInt last) = some b)
    (h : ∀ i ∈ steps a b, ∀ {s : Session}, Stands known k outer (.reached i) s f → ∃ t,
      (runItems (compiler n) f none (body.items 0)).run s = (.ok (), t) ∧
      Worked known k f.owner (.reached i) s t (inner i)) :
    ∃ t, (runItem (compiler (n + 1)) f ⟨line, loopHead first last, some body.code⟩).run s =
        (.ok (), t) ∧
      Worked known k f.owner .still s t (Outcome.concat ((steps a b).map inner)) := by
  obtain ⟨pool, results, hpool, hresults, hloop⟩ :=
    run_loop (compiler (n + 1)) hf line hfirst hlast body.code
  have hvalues := hf.worked_values hpool hresults
  obtain ⟨t, hcount, hworked⟩ := run_countThrough hbody h (hvalues.toKeeps.stands hf)
  exact ⟨t, hloop.trans hcount, hvalues.trans hworked hf.sinkBound⟩

end Items

end Nesting

/-- Working on an outline adds what it means, item after item. -/
theorem run_means {mixins : Text → Option Outline} {media : Option (List Text)} {n : Nat}
    {scope : Option Text} {o : Outline} {out : Outcome} (hknown : Knows known mixins)
    (h : Means mixins outer media e n scope o out) :
    ∀ {s : Session} {f : Frame}, o.AllEven → Stands known k outer e s f → f.scope = scope →
      f.media = media → ∀ line : Int, ∃ t,
        (runItems (compiler n) f none (o.items line)).run s = (.ok (), t) ∧
        Worked known k f.owner e s t out := by
  induction h with
  | nil =>
    intro s f _ hf _ _ line
    exact ⟨s, rfl, Worked.of_keeps hf.keeps_self rfl rfl⟩
  | declare name value _ ih =>
    rintro s f ho hf rfl hmedia line
    obtain ⟨results, hresults, hitem⟩ := run_declare _ line name value hf
    rw [← runItem_declaration] at hitem
    have hadd := hf.worked_property ⟨line, f.scope.getD [] ++ name.text, some value.text⟩ hresults
    exact hadd.cons hf hknown.returned hitem fun hf => ih ho.2 hf rfl hmedia line
  | group name _ _ ihbody ih =>
    rintro s f ho hf rfl hmedia line
    obtain ⟨t, hitem, hadd⟩ := run_groupItem line name ho.2.1
      (ihbody ho.2.1 (hf.inGroup name) rfl hmedia 0)
    exact hadd.cons hf hknown.returned hitem fun hf => ih ho.2.2 hf rfl hmedia line
  | @rule e n scope head body rest out hhead hcalm _ ih =>
    rintro s f ho hf rfl rfl line
    have hself : head ≠ selfWord := by
      rintro rfl
      exact absurd hhead.point (by decide)
    obtain ⟨t, hitem, hadd⟩ := run_ruleItem _ hf line hhead hself ho.2.1
      (run_substitute _ f.rule _ true s (hcalm.notMem (by decide)) (hcalm.notMem (by decide)))
    exact hadd.cons hf hknown.returned hitem fun hf => ih ho.2.2 hf rfl rfl line
  | numbered name _ ih =>
    rintro s f ho hf rfl rfl line
    obtain ⟨t, hitem, hadd⟩ := run_ruleItem _ hf line (selecting_numberedHead name)
      (numberedHead_ne name) ho.2.1 (run_substitute_numbered _ f.rule hf.context name s)
    exact hadd.cons hf hknown.returned hitem fun hf => ih ho.2.2 hf rfl rfl line
  | media hquery _ ih =>
    rintro s f ho hf rfl rfl line
    obtain ⟨t, hmedia, hadd⟩ := run_media _ hf hknown.returned _ ho.2.1
    rw [← runItem_media _ _ line hquery] at hmedia
    exact hadd.cons hf hknown.returned hmedia fun hf => ih ho.2.2 hf rfl rfl line
  | inclusion name hname _ _ ihbody ih =>
    rintro s f ho hf rfl hmedia line
    obtain ⟨hcalm, hget⟩ := hknown.mixin hname
    obtain ⟨t, hitem, hadd⟩ := run_includeItem hf line name hcalm hget
      fun hf => ihbody hcalm.even hf rfl hmedia 0
    exact hadd.cons hf hknown.returned hitem fun hf => ih ho.2 hf rfl hmedia line
  | loop hfirst hlast _ _ ihbody ih =>
    rintro s f ho hf rfl hmedia line
    obtain ⟨t, hitem, hadd⟩ := run_loopItem hf line ho.2.1 hfirst hlast
      fun i hi {_} hf => ihbody i hi ho.2.1 hf rfl hmedia 0
    exact hadd.cons hf hknown.returned hitem fun hf => ih ho.2.2 hf rfl hmedia line

end SheetPress.Compile
