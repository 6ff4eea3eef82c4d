import SheetPress.Bundle.Workspace
import SheetPress.Proofs.Compile.Descent
import SheetPress.Proofs.Extend.Reports

/-!
# Stylesheets one after the other

Stylesheets that are prepared one after the other share a session: later ones know the variables,
mixins and rules of earlier ones and may extend their rules.  But the text of each is printed as
soon as its own rules are linked, and it holds the rules of its own file only
(`sheets_print_own_rules`).  So a rule of an earlier stylesheet is never printed again, and a later
one that extends it is not seen beside its properties (`later_extension_is_lost`).
-/

set_option autoImplicit false

namespace SheetPress

open List

namespace Compile

open Run Linking

/-! ## Printing -/

/-- Only values and the journal have changed. -/
def SameButPool (s t : Session) : Prop := t = { s with pool := t.pool }

instance : Std.Refl SameButPool := ⟨fun _ => rfl⟩

instance : IsTrans Session SameButPool := ⟨fun _ _ _ h h' => by
  unfold SameButPool at *
  rw [h', h]⟩

theorem within_isOn (name : String) (usual : Bool) : Within SameButPool (isOn name usual) := by
  have hlift : ∀ x : Calc Bool, Within SameButPool (monadLift x : Run Bool) := fun _ _ => rfl
  unfold isOn
  refine within_bind within_get fun s => ?_
  split
  · exact hlift _
  · exact within_pure _

/-- The text holds the blocks of some rules, with or without remarks. -/
def ShowsRules (s : Session) (rules : List Nat) (text : Text) : Prop :=
  ∃ (layout : Sheet.Layout) (blocks : List Sheet.Block), text = Sheet.print s.sets layout blocks ∧
    blocks.map (fun b => { b with remarks := [], debugLine := none }) = rules.map (ruleBlock s)

theorem of_printFile {file : Option Text} {s t : Session} {text : Text}
    (h : (printFile file).run s = (.ok text, t)) :
    SameButPool s t ∧ ShowsRules s (printedRules s file) text := by
  have hblocks : ∀ (layout : Sheet.Layout) (debug : Bool) {u : Session}, SameButPool s u →
      (do return Sheet.print s.sets layout (← (printedRules s file).mapM (blockOf layout debug)) :
        Run Text).run u = (.ok text, t) →
      SameButPool s t ∧ ShowsRules s (printedRules s file) text := by
    intro layout debug u hu h
    obtain ⟨blocks, v, hblocks, h⟩ := of_bind_ok h
    obtain rfl : u = v := (within_mapM (within_blockOf layout debug) _).of_run hblocks
    cases h
    refine ⟨hu, layout, blocks, rfl, ?_⟩
    rw [bare_blocks hblocks, hu]
    rfl
  unfold printFile at h
  rw [run_get_bind] at h
  obtain ⟨compact, u, hcompact, h⟩ := of_bind_ok h
  have hu : SameButPool s u := (within_isOn _ _).of_run hcompact
  dsimp only at h
  split at h
  · exact hblocks _ false hu h
  · obtain ⟨debug, v, hdebug, h⟩ := of_bind_ok h
    exact hblocks _ debug (trans_of SameButPool hu ((within_isOn _ _).of_run hdebug)) h

theorem of_compress {s t : Session} {text short : Text}
    (h : (compress text).run s = (.ok short, t)) :
    SameButPool s t ∧ ∃ c, short = Sheet.compress c text := by
  unfold compress at h
  obtain ⟨compact, u, hcompact, h⟩ := of_bind_ok h
  obtain ⟨shortColours, v, hshort, h⟩ := of_bind_ok h
  obtain ⟨colourNames, w, hnames, h⟩ := of_bind_ok h
  cases h
  have huv := trans_of SameButPool ((within_isOn _ _).of_run hcompact)
    ((within_isOn _ _).of_run hshort)
  exact ⟨trans_of SameButPool huv ((within_isOn _ _).of_run hnames), _, rfl⟩

end Compile

namespace Bundle

variable {s : Session} {v w : Workspace}

open Compile Run Linking

/-! ## One stylesheet -/

/-- The text is the stylesheet of a file. -/
def IsSheet (s : Session) (file text : Text) : Prop :=
  ∃ c sheet, text = Text.trim (Sheet.compress c sheet) ∧
    ShowsRules s (printedRules s (some file)) sheet

/-- The rules of a file have been added to a session, with places for their properties. -/
def AddsFile (file : Text) (s t : Session) : Prop :=
  ∀ r, fileOf t r = some file →
    s.rules.size ≤ r ∧ ∀ i, sinkOf t r = some i → s.sinks.size ≤ i

/-- The session in which a stylesheet waits to be worked on. -/
def begun (file source : Text) (s : Session) : Session :=
  let loaded := Source.load s.places.size (some file) (Text.trim source)
  { s with
    places := s.places ++ loaded.places.toArray
    sinks := s.sinks.push []
    rules := s.rules.push
      { file := some file, code := loaded.code, context := s.context, settings := s.options
        sink := some s.sinks.size, indexed := true }
    queue := s.queue ++ [s.rules.size] }

/-- Print and compress the stylesheet of a file. -/
def sheetOf (file : Text) : Run Text := do
  return Text.trim (← Compile.compress (← printFile (some file)))

theorem run_compiled (file source : Text) (s : Session) :
    (Preparation.compiled (some file) source).run s =
      (finishRules >>= fun _ => sheetOf file).run (begun file source s) := rfl

theorem fileOf_begun (file source : Text) (s : Session) (r : Nat) :
    fileOf (begun file source s) r = if r = s.rules.size then some file else fileOf s r := by
  unfold fileOf begun
  simp only [Array.getD_eq_getD_getElem?, Array.getElem?_push]
  split <;> rfl

theorem sinkOf_begun (file source : Text) (s : Session) :
    sinkOf (begun file source s) s.rules.size = some s.sinks.size := by
  simp only [sinkOf, begun, getD_push_size]

variable {source text path : Text} {texts : List Text}

/-- All rules of a new file are added while its stylesheet is compiled, and no other file gets its
first rule then. -/
theorem of_compiled {file : Text} {t : Session} (hfresh : ∀ r, fileOf s r ≠ some file)
    (h : (Preparation.compiled (some file) source).run s = (.ok text, t)) :
    IsSheet t file text ∧ AddsFile file s t ∧
      ∀ r q, fileOf t r = some q → q = file ∨ ∃ r', fileOf s r' = some q := by
  rw [run_compiled] at h
  obtain ⟨_, u, hfinish, h⟩ := of_bind_ok h
  obtain ⟨sheet, v, hprint, h⟩ := of_bind_ok h
  obtain ⟨short, w, hcompress, h⟩ := of_bind_ok h
  cases h
  obtain ⟨huv, hshows⟩ := of_printFile hprint
  obtain ⟨hvw, c, rfl⟩ := of_compress hcompress
  obtain ⟨pool, rfl⟩ : ∃ pool, t = { u with pool } := ⟨_, trans_of SameButPool huv hvw⟩
  have hdescends : Descends (begun file source s) u := descends_finishRules.of_run hfinish
  -- The rule that the stylesheet starts with is the first of its file.
  have horigin : ∀ q, fileOf (begun file source s) q = some file → q = s.rules.size := by
    intro q hq
    by_contra hne
    rw [fileOf_begun, if_neg hne] at hq
    exact hfresh q hq
  refine ⟨⟨c, sheet, rfl, hshows⟩, fun r hr => ⟨?_, fun i hi => ?_⟩, fun r q hr => ?_⟩
  · by_contra hlt
    have hsize : r < (begun file source s).rules.size := by simp [begun]; omega
    have hold := horigin r ((hdescends.kept r hsize).symm.trans hr)
    omega
  · obtain ⟨q, hfile, hsink⟩ := hdescends.origin r
    obtain rfl := horigin q (hfile.symm.trans hr)
    rcases hsink i hi with hsink | hsink
    · rw [sinkOf_begun, Option.some.injEq] at hsink
      exact hsink.le
    · simp only [begun, Array.size_push] at hsink
      omega
  · obtain ⟨q', hfile, -⟩ := hdescends.origin r
    rw [fileOf_begun] at hfile
    have hq := hfile.symm.trans hr
    split at hq
    · exact .inl (Option.some.inj hq).symm
    · exact .inr ⟨q', hq⟩

/-! ## All of them -/

/-- Stylesheets prepared one after the other, each with its path. -/
def Preparation.prepareSheets (p : Preparation) : List (Text × Text) → Work (List Text)
  | [] => return []
  | (path, source) :: rest => do
    let t ← p.prepare .scss (some path) source
    return t :: (← p.prepareSheets rest)

variable {p : Preparation}

theorem run_prepareSheets_cons {rest : List (Text × Text)} {u : Workspace}
    (h : (p.prepare .scss (some path) source).run w = (.ok text, u))
    (hrest : (p.prepareSheets rest).run u = (.ok texts, v)) :
    (p.prepareSheets ((path, source) :: rest)).run w = (.ok (text :: texts), v) := by
  rw [Preparation.prepareSheets, bind_ok h, bind_ok hrest]
  rfl

theorem of_prepareSheets_cons {rest : List (Text × Text)}
    (h : (p.prepareSheets ((path, source) :: rest)).run w = (.ok texts, v)) :
    ∃ text others u, texts = text :: others ∧
      (p.prepare .scss (some path) source).run w = (.ok text, u) ∧
      (p.prepareSheets rest).run u = (.ok others, v) := by
  obtain ⟨text, u, htext, h⟩ := of_bind_ok h
  obtain ⟨others, v', hrest, h⟩ := of_bind_ok h
  cases h
  exact ⟨text, others, u, rfl, htext, hrest⟩

/-- The session of a workspace, which sees its files. -/
def Workspace.opened (w : Workspace) : Session :=
  { w.session with pool :=
      { w.session.pool with assets := { w.session.pool.assets with files := w.files } } }

theorem run_prepare (p : Preparation) (path source : Text) (w : Workspace) :
    (p.prepare .scss (some path) source).run w =
      let result := (Preparation.compiled (some path) (p.sheet w.files.home (some path) source)).run
        w.opened
      (result.1, { w with session := result.2 }) := rfl

theorem of_prepare (hfresh : ∀ r, fileOf w.session r ≠ some path)
    (h : (p.prepare .scss (some path) source).run w = (.ok text, v)) :
    IsSheet v.session path text ∧ AddsFile path w.session v.session ∧
      ∀ r q, fileOf v.session r = some q → q = path ∨ ∃ r', fileOf w.session r' = some q := by
  rw [run_prepare] at h
  obtain ⟨hresult, rfl⟩ := Prod.mk.inj h
  exact of_compiled (s := w.opened) hfresh (Prod.ext hresult rfl)

/-- The rules of a session belong to some files only. -/
def BelongTo (paths : List Text) (s : Session) : Prop := ∀ r q, fileOf s r = some q → q ∈ paths

theorem belongTo_of_prepareSheets {sources : List (Text × Text)} {paths : List Text}
    (hw : BelongTo paths w.session) (hdistinct : (paths ++ sources.map Prod.fst).Nodup)
    (h : (p.prepareSheets sources).run w = (.ok texts, v)) :
    BelongTo (paths ++ sources.map Prod.fst) v.session := by
  induction sources generalizing paths texts w with
  | nil =>
    cases h
    simpa using hw
  | cons source sources ih =>
    obtain ⟨path, source⟩ := source
    obtain ⟨text, rest, u, rfl, htext, hrest⟩ := of_prepareSheets_cons h
    rw [map_cons, append_cons] at hdistinct ⊢
    refine ih (fun r q hr => ?_) hdistinct hrest
    have hpath : path ∉ paths := fun hmem =>
      disjoint_of_nodup_append hdistinct.of_append_left hmem (mem_singleton_self path)
    obtain ⟨-, -, hfiles⟩ := of_prepare (fun r hr => hpath (hw r path hr)) htext
    rcases hfiles r q hr with rfl | ⟨r', hr'⟩
    · exact mem_append_right _ (mem_singleton_self q)
    · exact mem_append_left _ (hw r' q hr')

theorem of_prepareSheets_append {before after : List (Text × Text)}
    (h : (p.prepareSheets (before ++ after)).run w = (.ok texts, v)) :
    ∃ u, (p.prepareSheets before).run w = (.ok (texts.take before.length), u) ∧
      (p.prepareSheets after).run u = (.ok (texts.drop before.length), v) := by
  induction before generalizing texts w with
  | nil => exact ⟨w, rfl, h⟩
  | cons source before ih =>
    obtain ⟨text, rest, u, rfl, htext, hrest⟩ := of_prepareSheets_cons h
    obtain ⟨u', hbefore, hafter⟩ := ih hrest
    exact ⟨u', run_prepareSheets_cons htext hbefore, hafter⟩

theorem fileOf_of_printed {r : Nat} (hpath : path ≠ []) (hr : r ∈ printedRules s (some path)) :
    fileOf s r = some path := by
  unfold printedRules at hr
  split at hr
  next h => cases h
  next h => exact absurd (Option.some.inj h) hpath
  next => exact eq_of_beq (mem_filter.mp hr).2

/-- Each text is the stylesheet of its own file, as it is when that file has been linked.  All rules
in it were added for that file, and their properties stand in places that were not there before. -/
theorem sheets_print_own_rules (p : Preparation) (before after : List (Text × Text))
    {path source : Text} {texts : List Text} {w v : Workspace} (hstart : w.session.rules = #[])
    (hdistinct : ((before ++ (path, source) :: after).map Prod.fst).Nodup) (hpath : path ≠ [])
    (hrun : (p.prepareSheets (before ++ (path, source) :: after)).run w = (.ok texts, v)) :
    ∃ u u' text, (p.prepareSheets before).run w = (.ok (texts.take before.length), u) ∧
      (p.prepare .scss (some path) source).run u = (.ok text, u') ∧
      texts[before.length]? = some text ∧
      IsSheet u'.session path text ∧
      ∀ r ∈ printedRules u'.session (some path), u.session.rules.size ≤ r ∧
        ∀ i, sinkOf u'.session r = some i → u.session.sinks.size ≤ i := by
  obtain ⟨u, hbefore, h⟩ := of_prepareSheets_append hrun
  obtain ⟨text, others, u', htexts, htext, -⟩ := of_prepareSheets_cons h
  rw [List.map_append, List.map_cons] at hdistinct
  have hnone : BelongTo [] w.session := by
    intro r q hr
    simp [fileOf, hstart] at hr
  have hfiles := belongTo_of_prepareSheets hnone hdistinct.of_append_left hbefore
  have hfresh : ∀ r, fileOf u.session r ≠ some path := fun r hr =>
    List.disjoint_of_nodup_append hdistinct (hfiles r path hr) List.mem_cons_self
  obtain ⟨hsheet, hadds, -⟩ := of_prepare hfresh htext
  refine ⟨u, u', text, hbefore, htext, ?_, hsheet, fun r hr =>
    hadds r (fileOf_of_printed hpath hr)⟩
  have hhead := congrArg List.head? htexts
  rwa [List.head?_cons, List.head?_drop] at hhead

/-! ## A run -/

/-- The session in which the rules of a stylesheet have been worked on. -/
def worked (file source : Text) (s : Session) : Session := (runRules.run (begun file source s)).2

/-- The session that is left of a stylesheet whose rules are in order. -/
def leftBy (file source : Text) (s : Session) : Session :=
  ((sheetOf file).run (finished (worked file source s))).2

/-- The rules of a stylesheet are in order once they are linked, and the text is printed. -/
def Prints (file source : Text) (s : Session) (text : Text) : Prop :=
  (runRules.run (begun file source s)).1.isOk = true ∧
    (extendAll.run (worked file source s)).1.isOk = true ∧
    InOrder (extendAll.run (worked file source s)).2 ∧
    ((sheetOf file).run (finished (worked file source s))).1.toOption = some text

instance (file source : Text) (s : Session) (text : Text) : Decidable (Prints file source s text) :=
  inferInstanceAs (Decidable (_ ∧ _))

theorem Prints.run_compiled {file : Text} (h : Prints file source s text) :
    (Preparation.compiled (some file) source).run s = (.ok text, leftBy file source s) := by
  obtain ⟨hrules, hlinked, hsorted, htext⟩ := h
  have hworked : runRules.run (begun file source s) = (.ok (), worked file source s) :=
    eq_of_isOk hrules
  have hfinish : finishRules.run (begun file source s) =
      (.ok (), finished (worked file source s)) := by
    unfold finishRules
    rw [bind_ok hworked, bind_ok (eq_of_isOk hlinked),
      bind_ok hsorted.run_orderRules]
    rfl
  rw [Bundle.run_compiled, bind_ok hfinish, leftBy]
  exact eq_of_toOption htext

theorem Prints.run_prepare
    (h : Prints path (p.sheet w.files.home (some path) source) w.opened text) :
    (p.prepare .scss (some path) source).run w =
      (.ok text, { w with
        session := leftBy path (p.sheet w.files.home (some path) source) w.opened }) := by
  rw [Bundle.run_prepare, h.run_compiled]

/-- A new workspace. -/
def bench : Workspace where
  files := { home := "/base".toList, entries := [] }
  library := "/lib".toList
  session := ({} : Session).restart [] [("compress".toList, .flag false)]

/-- The usual preparation. -/
def spacious : Preparation := { base := "/base".toList, compress := false }

def firstPath : Text := "/x/1.scss".toList

/-- A rule with a property. -/
def firstSource : Text := ".a\x7bb:c\x7d".toList

def firstText : Text := ".a \x7b\n  b: c;\n\x7d".toList

/-- The workspace after the first stylesheet. -/
def afterFirst : Workspace :=
  { bench with
    session := leftBy firstPath (spacious.sheet bench.files.home (some firstPath) firstSource)
      bench.opened }

def secondPath : Text := "/x/2.scss".toList

/-- A rule that extends it. -/
def secondSource : Text := ".d extends .a \x7be:f\x7d".toList

def secondText : Text := ".d \x7b\n  e: f;\n\x7d".toList

/-- The workspace after both stylesheets. -/
def afterSecond : Workspace :=
  { afterFirst with
    session := leftBy secondPath
      (spacious.sheet afterFirst.files.home (some secondPath) secondSource) afterFirst.opened }

/-- Both stylesheets are printed; the rule of the first one is extended, and no rule is missed. -/
theorem extension_evaluated :
    Prints firstPath (spacious.sheet bench.files.home (some firstPath) firstSource) bench.opened
      firstText ∧
    Prints secondPath (spacious.sheet afterFirst.files.home (some secondPath) secondSource)
      afterFirst.opened secondText ∧
    selectorsOf afterSecond.session 1 = ".a,.d".toList ∧
    afterSecond.session.pool.journal.isEmpty = true := by
  decide +kernel

theorem run_extension :
    (spacious.prepareSheets [(firstPath, firstSource), (secondPath, secondSource)]).run bench =
      (.ok [firstText, secondText], afterSecond) :=
  run_prepareSheets_cons extension_evaluated.1.run_prepare
    (run_prepareSheets_cons extension_evaluated.2.1.run_prepare rfl)

/-- The second text shows rules of the second stylesheet alone. -/
theorem sheets_print_own_rules_second :
    ∃ u u', (spacious.prepareSheets [(firstPath, firstSource)]).run bench = (.ok [firstText], u) ∧
      (spacious.prepare .scss (some secondPath) secondSource).run u = (.ok secondText, u') ∧
      IsSheet u'.session secondPath secondText ∧
      ∀ r ∈ printedRules u'.session (some secondPath), u.session.rules.size ≤ r ∧
        ∀ i, sinkOf u'.session r = some i → u.session.sinks.size ≤ i := by
  obtain ⟨u, u', text, hfirst, hsecond, htext, hsheet, hown⟩ :=
    sheets_print_own_rules spacious [(firstPath, firstSource)] [] rfl (by decide) (by decide)
      run_extension
  cases htext
  exact ⟨u, u', hfirst, hsecond, hsheet, hown⟩

/-- The rule of the first stylesheet is linked with the one that extends it, and nothing is
reported.  Still its property is printed for `.a` alone. -/
theorem later_extension_is_lost :
    ∃ v, (spacious.prepareSheets [(firstPath, firstSource), (secondPath, secondSource)]).run bench =
        (.ok [".a \x7b\n  b: c;\n\x7d".toList, ".d \x7b\n  e: f;\n\x7d".toList], v) ∧
      selectorsOf v.session 1 = ".a,.d".toList ∧ v.session.pool.journal.isEmpty = true :=
  ⟨afterSecond, run_extension, extension_evaluated.2.2⟩

end Bundle

end SheetPress
