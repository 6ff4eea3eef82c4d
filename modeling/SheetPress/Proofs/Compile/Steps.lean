import SheetPress.Proofs.Compile.Walk

/-!
# Work on code, step by step

Whatever code is worked on, the session changes by steps of a few kinds: something is added to
one of its tables, or an entry that rules share is changed.  `Step` lists them, and
`steps_work` says that all work on code is made of them.  What every step keeps, all work
keeps.

A rule is only ever added as the copy of a rule that was there before.  It keeps its file, and its
properties go where those of the other rule go, or else to a new place.
-/

set_option autoImplicit false

namespace SheetPress.Compile

variable {s t : Session}

open Run

/-- The rule is one of the session's, or an empty one. -/
def Known (s : Session) (b : Rule) : Prop := ∃ r, s.rules.getD r {} = b

/-- What work on code can do to a session. -/
inductive Step : Session → Session → Prop where
  /-- Values, variables, results, the places of lines and debugging may change. -/
  | aside (s : Session) (pool : Pool) (debug : Bool) (contexts : Array Context)
      (places : Array Text) (results : List (Text × Value)) :
      Step s { s with pool, debug, contexts, places, results }
  | newSettings (s : Session) (t : Settings) : Step s { s with settings := s.settings.push t }
  | setting (s : Session) (i : Nat) {g : Settings → Settings} (hg : KeepsNames g) :
      Step s { s with settings := s.settings.modify i g }
  | property (s : Session) (i : Nat) (p : Sheet.Property) :
      Step s { s with sinks := s.sinks.modify i (p :: ·) }
  | owner (s : Session) (o : Nat) {g : Owner → Owner} (hg : ∀ x, (g x).children = x.children) :
      Step s { s with owners := s.owners.modify o g }
  /-- A copy of a rule, with the same place for properties or with none. -/
  | copy (s : Session) {b r : Rule} (hb : Known s b) (hfile : r.file = b.file)
      (hsink : r.sink = b.sink ∨ r.sink = none) : Step s { s with rules := s.rules.push r }
  /-- A copy of a rule with a new place for properties. -/
  | fresh (s : Session) {b r : Rule} (hb : Known s b) (hfile : r.file = b.file)
      (hsink : r.sink = some s.sinks.size) :
      Step s { s with sinks := s.sinks.push [], rules := s.rules.push r }
  /-- Such a copy that is nested in the code of an owner. -/
  | nested (s : Session) (o : Nat) {b r : Rule} (hb : Known s b) (hfile : r.file = b.file)
      (hsink : r.sink = some s.sinks.size) :
      Step s { s with
        sinks := s.sinks.push []
        rules := s.rules.push r
        owners := s.owners.modify o fun x =>
          { x with children := x.children ++ [s.rules.size] } }

/-- Any number of steps. -/
abbrev Steps : Session → Session → Prop := Relation.ReflTransGen Step

theorem Step.rules (h : Step s t) : s.rules.toList <+: t.rules.toList := by
  cases h with
  | copy | fresh | nested => exact prefix_push _ _
  | _ => exact List.prefix_rfl

theorem Steps.rules (h : Steps s t) : s.rules.toList <+: t.rules.toList := by
  induction h with
  | refl => exact List.prefix_rfl
  | tail _ hstep ih => exact ih.trans hstep.rules

theorem Steps.rule (h : Steps s t) {r : Nat} (hr : r < s.rules.size) :
    t.rules.getD r {} = s.rules.getD r {} :=
  getD_of_isPrefix h.rules hr _

theorem Steps.known (h : Steps s t) {b : Rule} (hb : Known s b) : Known t b := by
  obtain ⟨r, rfl⟩ := hb
  by_cases hr : r < s.rules.size
  · exact ⟨r, h.rule hr⟩
  · exact ⟨t.rules.size, by simp [Array.getD, hr]⟩

/-! ## Work goes by steps -/

theorem steps_newContext (c : Context) : Within Steps (newContext c) := fun s =>
  .single (.aside s s.pool s.debug _ s.places s.results)

theorem steps_newSettings (t : Settings) : Within Steps (newSettings t) := fun s =>
  .single (.newSettings s t)

/-- Evaluating and working both go by steps. -/
def stepLimits : Limits where
  evaluating := Steps
  working _ := Steps
  refl _ := .refl
  trans := .trans
  of_evaluating _ _ _ h := h
  then_working := .trans
  aside s pool debug places results := .single (.aside s pool debug s.contexts places results)
  setVariables _ s _ := .single (.aside s s.pool s.debug _ s.places s.results)
  setSettings _ s _ hg := .single (.setting s _ hg)
  property _ s i p := .single (.property s i p)
  owner _ s o _ hg := .single (.owner s o hg)
  call r s c d _ _ hfile hsink _ _ h :=
    have hnew : Steps s { s with contexts := s.contexts.push c, settings := s.settings.push d } :=
      (steps_newContext c s).tail (.newSettings _ d)
    (hnew.tail (.fresh _ ⟨r, rfl⟩ hfile hsink)).trans h
  copy r s _ _ hfile hsink _ _ h := .head (.copy s ⟨r, rfl⟩ hfile hsink) h
  branch r s c _ _ hfile hsink _ _ h :=
    ((steps_newContext c s).tail (.copy _ ⟨r, rfl⟩ hfile (.inl hsink))).trans h
  nest r s t c d o _ h hfile hsink :=
    have hnew : Steps s { t with contexts := t.contexts.push c, settings := t.settings.push d } :=
      (h.trans (steps_newContext c t)).tail (.newSettings _ d)
    hnew.tail (.nested _ o (hnew.known ⟨r, rfl⟩) hfile hsink)

theorem steps_logLine (level : Level) (t : Text) : Within Steps (logLine level t) :=
  within_logLine (L := stepLimits) level t

theorem steps_setSetting (r : Nat) (name : Text) (v : Setting) :
    Within Steps (setSetting r name v) :=
  within_setSetting (L := stepLimits) r name v

theorem steps_work (n : Nat) (f : Frame) (code : Text) :
    Within Steps ((compiler n).work f code) :=
  (stepLimits.allow_compiler n).work f code

theorem steps_runItem (n : Nat) (f : Frame) (i : Source.Item) :
    Within Steps (runItem (compiler n) f i) :=
  within_runItem (stepLimits.allow_compiler n) f i

theorem steps_importFile (n : Nat) (f : Frame) (line : Int) (name : Text) :
    Within Steps (importFile (compiler n) f line name) :=
  within_importFile (stepLimits.allow_compiler n) f line name

end SheetPress.Compile
