import SheetPress.Proofs.Compile.Order
import SheetPress.Proofs.Compile.Queue

/-!
# From a source to its rules in order

A source is loaded as one rule without selectors, the queue is worked on, and the rules are
linked and brought into order.  Where no rule extends another one, the last two steps change
nothing of what a rule is: `arranged` and `arranged_of_mixin` say that the rules then are those
that `Drains` describes.
-/

set_option autoImplicit false

namespace SheetPress.Compile

open List Text
open Source (Outline PlainWord directive mixinWord)

/-- Load a source, work on its rules, link them and bring them into order. -/
def arrange (file : Option Text) (source : Text) : Run Unit := do
  enqueue (← topRule file (← Run.load file source))
  runRules
  extendAll
  orderRules

/-- A rule of the session as it is. -/
def ruleOf (s : Session) (r : Nat) : Finished where
  selectors := (s.rules.getD r {}).selectors
  media := (s.rules.getD r {}).media
  properties :=
    match (s.rules.getD r {}).sink with
    | none => []
    | some i => (s.sinks.getD i []).reverse.map fun p => (p.name, p.value)

/-- The rules that have properties, in their order. -/
def styledRules (s : Session) : List Finished :=
  (s.order.map (ruleOf s)).filter fun d => !d.properties.isEmpty

variable {s : Session}

theorem Done.ruleOf_eq {r : Nat} {d : Finished} (h : Done s r d) : ruleOf s r = d := by
  obtain ⟨i, _, hsink, hproperties⟩ := h.sink
  have hsink' : (s.rules.getD r {}).sink = some i := hsink
  simp only [ruleOf, h.selectors, h.media, hsink', hproperties]

/-! ## Rules that extend nothing -/

theorem holds_partsOf (rules : List Nat) (done : List Finished) :
    Parts.Holds (partsOf rules done) (fun k => ∃ z ∈ rules.zip done, k = z.2.selectors)
      fun k r => ∃ z ∈ rules.zip done, k = z.2.selectors ∧ r = z.1 := by
  have hfold : ∀ (zs : List (Nat × Finished)) {ps : Parts} {key : Text → Prop}
      {rule : Text → Nat → Prop}, Parts.Holds ps key rule →
      Parts.Holds (zs.foldl (fun ps z => ps.add z.2.selectors [z.1]) ps)
        (fun k => key k ∨ ∃ z ∈ zs, k = z.2.selectors)
        fun k r => rule k r ∨ ∃ z ∈ zs, k = z.2.selectors ∧ r = z.1 := by
    intro zs
    induction zs with
    | nil => exact fun h => h.congr (by simp) (by simp)
    | cons z zs ih =>
      intro ps key rule h
      refine (ih (h.add z.2.selectors [z.1])).congr (fun k => ?_) fun k r => ?_
      · simp only [exists_mem_cons_iff, or_left_comm, or_assoc]
      · simp only [exists_mem_cons_iff, mem_singleton, or_assoc]
  exact (hfold _ .empty).congr (by simp) (by simp)

/-- Rounds end when no node extends a selector any more. -/
theorem run_extendRounds_of_none (e : Enumeration) (n : Nat)
    (h : ∀ key ∈ s.parts.map Prod.fst, isExtending key = false) :
    (extendRounds e n).run s = (.ok (), s) := by
  cases n with
  | zero => rfl
  | succ n =>
    have hnone : (e.order (n + 1) 0 (s.parts.map Prod.fst)).filter isExtending = [] := by
      rw [filter_eq_nil_iff]
      intro key hkey
      simp [h key ((e.perm (n + 1) 0 _).mem_iff.mp hkey)]
    simp only [extendRounds, Run.run_get_bind, hnone, isEmpty_nil, if_true, Run.run_pure]

theorem run_extendAll (h : ∀ key ∈ s.parts.map Prod.fst, cut? Selector.extendsMark key = none) :
    extendAll.run s = (.ok (), s) := by
  have hsplit : splitNodes (Enumeration.inserted.order 0 0) s.parts = s.parts := by
    have hfold : ∀ (keys : List Text), (∀ key ∈ keys, cut? Selector.extendsMark key = none) →
        keys.foldl splitNode s.parts = s.parts := by
      intro keys hkeys
      induction keys with
      | nil => rfl
      | cons key keys ih =>
        have hkey : splitNode s.parts key = s.parts := by
          simp only [splitNode, hkeys key (by simp)]
        rw [foldl_cons, hkey, ih fun k hk => hkeys k (by simp [hk])]
    exact hfold _ h
  simp only [extendAll, extendAllIn, Run.run_modify_bind, hsplit]
  refine run_extendRounds_of_none _ _ fun key hkey => ?_
  simp [isExtending, Selector.cutExtends, cut, h key hkey]

/-! ## The order of the rules -/

theorem place_eq {rule : Rule} {p : Nat} (hposition : rule.position = some p)
    (hdeps : rule.deps = []) :
    place rule = { rule with deps := [p + 1], position := some (p + 1) } := by
  simp [place, hposition, hdeps, least]

section Ordering

variable {known : Settings} {pool : Pool} {s : Session} {done : List Finished}
  {pending : List Node}

theorem Progress.nodup (hp : Progress known pool s done pending) : s.order.Nodup := by
  have hsinks := hp.sinks
  rw [map_append] at hsinks
  exact hsinks.of_append_left.of_map _

/-- A finished rule keeps all but its position when it is placed. -/
theorem Progress.placed (hp : Progress known pool s done pending) {r : Nat} (hr : r ∈ s.order) :
    ∃ p, (s.rules.getD r {}).position = some p ∧ (modifyAll s.order place s.rules).getD r {} =
      { s.rules.getD r {} with deps := [p + 1], position := some (p + 1) } := by
  have hall : ∀ r ∈ s.order, r < s.rules.size ∧ (s.rules.getD r {}).deps = [] :=
    forall_mem_of_forall₂ hp.order fun _ _ hd => ⟨hd.bound, hd.deps⟩
  obtain ⟨hbound, hdeps⟩ := hall r hr
  have hposition : (s.rules.getD r {}).position ∈ (range done.length).map some := by
    rw [← hp.positions]
    exact mem_map_of_mem hr
  obtain ⟨p, _, hp'⟩ := mem_map.mp hposition
  refine ⟨p, hp'.symm, ?_⟩
  rw [getD_modifyAll hr hp.nodup place s.rules hbound, place_eq hp'.symm hdeps]

theorem Progress.run_orderRules (hp : Progress known pool s done pending) :
    orderRules.run s = (.ok (), { s with rules := modifyAll s.order place s.rules }) := by
  have hplaced : ∀ r ∈ s.order, ((modifyAll s.order place s.rules).getD r {}).position =
      (s.rules.getD r {}).position.map (· + 1) := by
    intro r hr
    obtain ⟨p, hposition, hrule⟩ := hp.placed hr
    rw [hrule, hposition]
    rfl
  have hpositions : s.order.map (fun r => ((modifyAll s.order place s.rules).getD r {}).position) =
      (range done.length).map fun i => some (i + 1) := by
    rw [map_congr_left hplaced, ← Function.comp_def, ← map_map, hp.positions]
    simp
  have hsorted : InOrder s := by
    have hall : (s.order.map fun r =>
        ((modifyAll s.order place s.rules).getD r {}).position).Pairwise
          fun a b => comesBefore a b = true := by
      rw [hpositions, pairwise_map]
      refine pairwise_lt_range.imp fun hlt => ?_
      simpa [comesBefore] using Nat.le_of_lt hlt
    exact pairwise_map.mp hall
  exact hsorted.run_orderRules

/-- Linking and ordering leave rules that extend nothing as they are. -/
theorem Progress.run_link (hp : Progress known pool s done pending)
    (hsingle : ∀ d ∈ done, cut? Selector.extendsMark d.selectors = none) :
    ∃ t, (extendAll >>= fun _ => orderRules).run s = (.ok (), t) ∧
      t.order.map (ruleOf t) = done := by
  have hparts : ∀ key ∈ s.parts.map Prod.fst, cut? Selector.extendsMark key = none := by
    intro key hkey
    rw [hp.parts] at hkey
    obtain ⟨z, hz, rfl⟩ := ((holds_partsOf _ _).keys key).mp hkey
    exact hsingle z.2 (of_mem_zip hz).2
  refine ⟨{ s with rules := modifyAll s.order place s.rules }, ?_, ?_⟩
  · rw [Run.bind_ok (run_extendAll hparts), hp.run_orderRules]
  · have hsame : ∀ r ∈ s.order,
        ruleOf { s with rules := modifyAll s.order place s.rules } r = ruleOf s r := by
      intro r hr
      obtain ⟨p, _, hrule⟩ := hp.placed hr
      simp only [ruleOf, hrule]
    rw [map_congr_left hsame]
    have hrules : List.Forall₂ (fun r d => ruleOf s r = d) s.order done :=
      hp.order.imp fun _ _ hd => hd.ruleOf_eq
    exact forall₂_eq_eq_eq ▸ forall₂_map_left_iff.mpr hrules

end Ordering

/-! ## The first rule -/

/-- The session in which a source has been loaded. -/
def opened (s : Session) (vars : Context) (file : Option Text) (source : Text) : Session :=
  { s.restart vars [] with
    places := #["<unknown>:0".toList] ++ (Source.load 1 file source).places.toArray
    sinks := #[[]]
    rules := #[{ file, code := (Source.load 1 file source).code, sink := some 0, indexed := true }]
    queue := [0] }

variable (s : Session) (vars : Context) (file : Option Text) {e : Count} {o body : Outline}
  {finished : List Finished} {known : Settings} {level : Nat}

theorem run_opening (source : Text) :
    (do enqueue (← topRule file (← Run.load file source)) : Run Unit).run (s.restart vars []) =
      (.ok (), opened s vars file source) := rfl

theorem progress_opened (ho : o.AllEven) (he : e.Fits (Session.usualVariables.update vars)) :
    Progress Session.usualSettings s.pool (opened s vars file o.source) [] [⟨[], none, o, e⟩] where
  queue := by
    refine .cons ?_ .nil
    obtain ⟨before, behind, hwraps, hcode⟩ := Source.load_source 1 file ho
    obtain ⟨line, hitems⟩ := Source.items_wrapped hwraps ho
    rw [← hcode] at hitems
    exact
      { bound := by simp [opened]
        even := ho
        items := ⟨line, hitems⟩
        selectors := rfl
        media := rfl
        deps := rfl
        sink := ⟨0, by simp [opened], rfl, rfl⟩
        settings := ⟨by simp [opened, Session.restart], rfl⟩
        context := he }
  order := .nil
  positions := rfl
  sinks := by simp [opened, Session.restart]
  parts := rfl
  apart := by
    have hone : ∀ r < (opened s vars file o.source).rules.size, r = 0 := by simp [opened]
    refine ⟨fun r hr => ?_, fun r hr q hq _ => (hone r hr).trans (hone q hq).symm⟩
    rw [hone r hr]
    exact Nat.zero_lt_one
  faithful := by simp [Faithful, opened, Session.restart]
  pool := .refl _

theorem size_le_load (ho : o.AllEven) : o.size ≤ (Source.load 1 file o.source).code.length := by
  obtain ⟨before, behind, _, hcode⟩ := Source.load_source 1 file ho
  have hsize := Outline.size_le_length Outline.gapOf o []
  rw [hcode]
  simp only [length_append, Outline.code]
  omega

theorem run_runRules_opened (source : Text) :
    runRules.run (opened s vars file source) =
      (do
        let _ ← repeatFrom (runFirst (999 + (Source.load 1 file source).code.length + 1)
          (ruleLimit (Source.load 1 file source).code.length)) 1 0
        return : Run Unit).run (opened s vars file source) := by
  have hlength : ((opened s vars file source).queue.flatMap fun r =>
      ((opened s vars file source).rules.getD r {}).code).length =
        (Source.load 1 file source).code.length := by
    simp [opened]
  have hdepth : depthFor (Source.load 1 file source).code.length =
      999 + (Source.load 1 file source).code.length + 1 := by
    simp only [depthFor, depthLimit]
    omega
  simp only [runRules, Run.run_get_bind, hlength, hdepth]
  rfl

/-- Once the queue has been worked on, the rules that extend nothing are arranged. -/
theorem run_arrange {pool : Pool} {s t : Session} {vars : Context} {file : Option Text}
    {source : Text} (hrun : runRules.run (opened s vars file source) = (.ok (), t))
    (hp : Progress known pool t finished [])
    (hsingle : ∀ d ∈ finished, cut? Selector.extendsMark d.selectors = none) :
    ∃ u, (arrange file source).run (s.restart vars []) = (.ok (), u) ∧
      u.order.map (ruleOf u) = finished := by
  obtain ⟨u, hlink, hrules⟩ := hp.run_link hsingle
  refine ⟨u, ?_, hrules⟩
  have hopen := run_opening s vars file source
  have hall : arrange file source = (do
      (do enqueue (← topRule file (← Run.load file source)))
      runRules
      extendAll
      orderRules) := by
    simp only [arrange, bind_assoc]
  rw [hall, Run.bind_ok hopen, Run.bind_ok hrun, hlink]

/-- There is time enough for the queue of a source to be worked on. -/
theorem run_runRules_of_queue (ho : o.AllEven) (hqueue : ∀ depth m, o.size ≤ depth → level ≤ m →
      ∃ t, (repeatFrom (runFirst (depth + 1) m) 1 0).run (opened s vars file o.source) =
          (.ok finished.length, t) ∧
        Progress known s.pool t finished []) (hlevel : level ≤ (o.size + 2) * (o.size + 2)) :
    ∃ t, runRules.run (opened s vars file o.source) = (.ok (), t) ∧
      Progress known s.pool t finished [] := by
  have hsize := size_le_load file ho
  obtain ⟨length, hlength⟩ : ∃ n, (Source.load 1 file o.source).code.length = n := ⟨_, rfl⟩
  rw [hlength] at hsize
  have hlimit : level ≤ ruleLimit length :=
    hlevel.trans (Nat.mul_self_le_mul_self (by omega))
  obtain ⟨t, hrun, hp⟩ := hqueue (999 + length) (ruleLimit length) (by omega) hlimit
  refine ⟨t, ?_, hp⟩
  rw [run_runRules_opened, hlength, Run.bind_ok hrun, Run.run_pure]

theorem arranged_of_queue (ho : o.AllEven) (known : Settings)
    (hqueue : ∀ depth m, o.size ≤ depth → level ≤ m →
      ∃ t, (repeatFrom (runFirst (depth + 1) m) 1 0).run (opened s vars file o.source) =
          (.ok finished.length, t) ∧
        Progress known s.pool t finished []) (hlevel : level ≤ (o.size + 2) * (o.size + 2))
    (hsingle : ∀ d ∈ finished, cut? Selector.extendsMark d.selectors = none) :
    ∃ t, (arrange file o.source).run (s.restart vars []) = (.ok (), t) ∧
      t.order.map (ruleOf t) = finished := by
  obtain ⟨t, hrun, hp⟩ := run_runRules_of_queue s vars file ho hqueue hlevel
  exact run_arrange hrun hp hsingle

theorem run_opened (ho : o.AllEven) (he : e.Fits (Session.usualVariables.update vars)) {depth : Nat}
    (hdrains : Drains (fun _ => none) depth level [⟨[], none, o, e⟩] finished) :
    ∃ t, (repeatFrom (runFirst (depth + 1) level) 1 0).run (opened s vars file o.source) =
        (.ok finished.length, t) ∧
      Progress Session.usualSettings s.pool t finished [] :=
  run_queue ⟨by decide, by simp⟩ hdrains (progress_opened s vars file ho he)

theorem arranged (ho : o.AllEven) (he : e.Fits (Session.usualVariables.update vars))
    (hdrains : ∀ depth, o.size ≤ depth →
      Drains (fun _ => none) depth level [⟨[], none, o, e⟩] finished)
    (hlevel : level ≤ (o.size + 2) * (o.size + 2))
    (hsingle : ∀ d ∈ finished, cut? Selector.extendsMark d.selectors = none) :
    ∃ t, (arrange file o.source).run (s.restart vars []) = (.ok (), t) ∧
      t.order.map (ruleOf t) = finished :=
  arranged_of_queue s vars file ho Session.usualSettings
    (fun depth _ hdepth hm => run_opened s vars file ho he ((hdrains depth hdepth).mono hm))
    hlevel hsingle

/-! ## A mixin at the start -/

/-- A single mixin. -/
def oneMixin (name : Text) (body : Outline) (n : Text) : Option Outline :=
  if n = name then some body else none

/-- The settings once a mixin has been defined. -/
def defining (name : Text) (body : Outline) (known : Settings) : Settings :=
  known.set (mixinKey name) (.mixin (bareMixin body.code))

theorem knows_defining (hreturn : known.has "@return".toList = false) (name : Text)
    (hbody : body.AllCalm) :
    Knows (defining name body known) (oneMixin name body) where
  returned := by
    have hne : "@return".toList ≠ mixinKey name := by
      intro h
      simp [mixinKey, definitionKey] at h
    rw [Settings.has, defining, get?_set_of_ne known _ hne]
    exact hreturn
  mixin := by
    intro n b h
    simp only [oneMixin, Option.ite_none_right_eq_some, Option.some.injEq] at h
    obtain ⟨rfl, rfl⟩ := h
    exact ⟨hbody, get?_set_self _ _ _⟩

/-- The head of a definition. -/
def mixinHead (name : PlainWord) : Text := directive mixinWord.toWord name.text

/-- The session in which a rule knows a mixin. -/
def knowing (s : Session) (r : Nat) (name code : Text) : Session :=
  { s with
    settings := s.settings.modify (s.rules.getD r {}).settings
      (Settings.set (mixinKey name) (.mixin (bareMixin code))) }

theorem Progress.knowing {known : Settings} {pool : Pool} {s : Session} {r : Nat} {n : Node}
    (hp : Progress known pool s [] [n]) (hqueue : s.queue = [r]) (name : Text) (body : Outline) :
    Progress (defining name body known) pool (knowing s r name body.code) [] [n] := by
  have hqueued := hp.queue
  rw [hqueue, forall₂_cons] at hqueued
  have hw := hqueued.1
  refine { hp with queue := ?_, order := ?_ }
  · show List.Forall₂ _ s.queue _
    rw [hqueue]
    refine .cons { hw with settings := ⟨by simpa [Compile.knowing] using hw.settings.1, ?_⟩ } .nil
    refine (getD_modify_self _ hw.settings.1 _).trans ?_
    rw [hw.settings.2]
    rfl
  · have horder : s.order = [] := forall₂_nil_right_iff.mp hp.order
    show List.Forall₂ _ s.order _
    rw [horder]
    exact .nil

/-- The first rule defines a mixin, and everything else in it knows the mixin. -/
theorem Progress.step_mixin {pool : Pool} {depth r : Nat} {s : Session} {selectors : Text}
    {media : Option (List Text)} {name : PlainWord} {out : Outcome}
    (hp : Progress known pool s [] [⟨selectors, media, .block (mixinHead name) body o, e⟩])
    (hqueue : s.queue = [r]) (hreturn : known.has "@return".toList = false) (hbody : body.AllCalm)
    (hplain : Node.Plain ⟨selectors, media, o, e⟩)
    (hmeans : Means (oneMixin name.text body) (Node.outer ⟨selectors, media, o, e⟩) media e depth
      none o out) :
    ∃ t, (runRule (depth + 1) 0 r).run { s with queue := [] } = (.ok (), t) ∧
      Progress (defining name.text body known) pool t
        [Node.finish ⟨selectors, media, o, e⟩ out] out.nested := by
  have hp' := hp.knowing hqueue name.text body
  have hqueued := hp.queue
  rw [hqueue, forall₂_cons] at hqueued
  have hqueued' := hp'.queue
  rw [show (Compile.knowing s r name.text body.code).queue = [r] from hqueue,
    forall₂_cons] at hqueued'
  have hw := hqueued.1
  obtain ⟨k, hk, hsink, _⟩ := hw.sink
  obtain ⟨line, hitems⟩ := hw.items
  have hstands := stands_begin hw hp.apart hp.faithful hk hsink []
  have hstands' := stands_begin hqueued'.1 hp'.apart hp'.faithful hk hsink []
  obtain ⟨t, hrun, hworked⟩ := run_means (knows_defining hreturn name.text hbody) hmeans
    hw.even.2.2 hstands' rfl rfl line
  obtain ⟨nested, howner, hnested, hfresh⟩ := hworked.nested
  have hwork : ((compiler (depth + 1)).work ⟨r, s.owners.size, none, media⟩
      (s.rules.getD r {}).code).run
        (begin s ⟨selectors, media, .block (mixinHead name) body o, e⟩ []) = (.ok (), t) := by
    show (work (compiler depth) _ _).run _ = _
    simp only [work, hitems]
    have hdefine := run_define ⟨r, s.owners.size, none, media⟩ line name.toWord
      (begin s ⟨selectors, media, .block (mixinHead name) body o, e⟩ [])
      (Outline.notMem_write (by decide) (by decide) hbody [] (by simp))
    rw [← runItem_mixin (compiler depth) _ _ (Source.calm_word name)] at hdefine
    exact (run_runItems_cons _ hstands hreturn hdefine _).trans hrun
  have hturn : Turn (defining name.text body known) pool
      (Compile.knowing s r name.text body.code) []
      ⟨selectors, media, .block (mixinHead name) body o, e⟩ [] r [] k t out nested :=
    ⟨hp', hqueue, hk, hsink, hworked, hnested, hfresh⟩
  have hdone := hturn.progress_conclude
  rw [append_nil] at hdone
  refine ⟨_, run_runRule hw hplain hwork ?_ 0, hdone⟩
  refine howner.trans ?_
  simp [begin, Compile.knowing]

theorem arranged_of_mixin {name : PlainWord} (ho : (Outline.block (mixinHead name) body o).AllCalm)
    (hdrains : ∀ depth, body.size + o.size < depth →
      Drains (oneMixin name.text body) depth level [⟨[], none, o, .unknown⟩] finished)
    (hlevel : level ≤ (body.size + o.size + 3) * (body.size + o.size + 3))
    (hsingle : ∀ d ∈ finished, cut? Selector.extendsMark d.selectors = none) :
    ∃ t, (arrange file (Outline.block (mixinHead name) body o).source).run (s.restart vars []) =
        (.ok (), t) ∧
      t.order.map (ruleOf t) = finished := by
  have hreturn : Session.usualSettings.has "@return".toList = false := by decide
  have hp := progress_opened s vars file ho.even (e := .unknown) trivial
  refine arranged_of_queue s vars file ho.even (defining name.text body Session.usualSettings)
    (fun depth m hdepth hm => ?_) hlevel hsingle
  cases (hdrains depth hdepth).mono hm with
  | @cons m _ out _ inner done hplain hmeans hinner hrest =>
    cases hrest
    obtain ⟨t₁, hstep, hp₁⟩ := hp.step_mixin (r := 0) rfl hreturn ho.2.1 hplain hmeans
    rw [← append_nil out.nested] at hp₁
    obtain ⟨t, hrun, hp'⟩ := run_queue (knows_defining hreturn name.text ho.2.1) hinner hp₁
    refine ⟨t, ?_, by simpa using hp'⟩
    have hfirst : (runFirst (depth + 1) (m + 1) 0).run
        (opened s vars file (Outline.block (mixinHead name) body o).source) = _ :=
      run_runFirst rfl hstep (by rw [hp₁.queue.length_eq, append_nil]; exact hrun)
    rw [repeatFrom, Run.bind_ok hfirst]
    simp [repeatFrom]

end SheetPress.Compile
