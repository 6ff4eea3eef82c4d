import SheetPress.Proofs.Compile.Steps

/-!
# Imports

The scope of a rule is the table of its settings, which the files that it imports share.  That a
name has been imported in a scope is a setting too, the mark of the name.  It is set behind the work
on the file, and it is never lost: once a file has been imported to its end, its name is not
imported again in that scope.
-/

set_option autoImplicit false

namespace SheetPress.Compile

open Run

/-! ## Scopes and marks -/

/-- The scope of a rule. -/
def scopeOf (s : Session) (r : Nat) : Nat := (s.rules.getD r {}).settings

/-- A setting is there in a scope. -/
def Has (s : Session) (scope : Nat) (key : Text) : Prop :=
  (s.settings.getD scope []).has key = true

variable {s t : Session} {scope : Nat} {content : Text}

theorem Has.lt_size {key : Text} (h : Has s scope key) : scope < s.settings.size := by
  by_contra hge
  simp [Has, Array.getD, hge, Settings.has, Settings.get?] at h

/-- The setting that says that a name has been imported. -/
def importKey (name : Text) : Text := "@import ".toList ++ name

/-- The setting that a function leaves once it has returned. -/
def returnKey : Text := "@return".toList

theorem importKey_injective {x y : Text} (h : importKey x = importKey y) : x = y :=
  List.append_cancel_left h

theorem importKey_ne {name key : Text} (h : ¬ "@import ".toList <+: key) : importKey name ≠ key :=
  fun hkey => h ⟨name, hkey⟩

/-- A name has been imported in a scope. -/
def Marked (s : Session) (scope : Nat) (name : Text) : Prop := Has s scope (importKey name)

/-- Only the setting that conditions leave is ever lost. -/
theorem Step.has (h : Step s t) {key : Text} (hkey : key ≠ conditionKey) (hs : Has s scope key) :
    Has t scope key := by
  have hscope := hs.lt_size
  cases h with
  | newSettings u =>
    unfold Has at hs ⊢
    rwa [getD_of_isPrefix (prefix_push s.settings u) hscope]
  | setting i hg =>
    unfold Has at hs ⊢
    by_cases hi : scope = i
    · subst hi
      rw [getD_modify_self _ hscope]
      exact hg _ _ hkey hs
    · rwa [getD_modify_of_ne _ hi]
  | _ => exact hs

theorem Steps.marked (h : Steps s t) {name : Text} (hs : Marked s scope name) :
    Marked t scope name := by
  induction h with
  | refl => exact hs
  | tail _ hstep ih => exact hstep.has (importKey_ne (by decide)) ih

theorem Steps.size_settings (h : Steps s t) : s.settings.size ≤ t.settings.size := by
  induction h with
  | refl => exact le_rfl
  | tail _ hstep ih =>
    refine ih.trans ?_
    cases hstep <;> simp

theorem Steps.loadPaths (h : Steps s t) : t.loadPaths = s.loadPaths := by
  induction h with
  | refl => rfl
  | tail _ hstep ih => cases hstep <;> exact ih

theorem Steps.scopeOf_eq (h : Steps s t) {r : Nat} (hr : r < s.rules.size) :
    scopeOf t r = scopeOf s r := by
  rw [scopeOf, h.rule hr, scopeOf]

theorem has_setSetting {r : Nat} (hscope : scopeOf s r < s.settings.size) (name : Text)
    (v : Setting) (key : Text) :
    Has ((setSetting r name v).run s).2 (scopeOf s r) key ↔
      key = name ∨ Has s (scopeOf s r) key := by
  rw [Has, setSetting, run_modifySettings]
  change Settings.has (Array.getD (Array.modify s.settings (scopeOf s r) _) _ _) _ = true ↔ _
  rw [getD_modify_self _ hscope, Has, Settings.has, Settings.has]
  by_cases h : key = name
  · rw [h, get?_set_self]
    simp
  · rw [get?_set_of_ne _ v h]
    simp [h]

/-! ## One import -/

/-- The file that a rule finds under a name, with its content. -/
def foundBy (s : Session) (r : Nat) (name : Text) : Option (Text × Text) :=
  findImport s.pool.assets.files
    (importDirectories s.pool.assets.files.home s.loadPaths (s.rules.getD r {}).path name)
    (Path.base name)

/-- The code of an imported file, its lines numbered from `first`. -/
def importedCode (first : Nat) (path content : Text) : Text :=
  if content.isEmpty then [] else (Source.load first (some path) content).code

/-- The session in which an imported file is worked on. -/
def entered (s : Session) (r : Nat) (line : Int) (path content : Text) : Session :=
  { s with
    places :=
      if content.isEmpty then s.places
      else s.places ++ (Source.load s.places.size (some path) content).places.toArray
    rules := s.rules.push { s.rules.getD r {} with path, line } }

theorem steps_entered (s : Session) (r : Nat) (line : Int) (path content : Text) :
    Steps s (entered s r line path content) := by
  have hplaces : Steps s { s with places := (entered s r line path content).places } :=
    .single (.aside s s.pool s.debug s.contexts _ s.results)
  exact hplaces.tail (.copy (b := s.rules.getD r {}) (r := { s.rules.getD r {} with path, line }) _
    ⟨r, rfl⟩ rfl (.inl rfl))

variable {inner : Compiler} {f : Frame} {line : Int} {name : Text} {s t : Session}

/-- The rule of the imported file shares the scope of the one that imports it. -/
theorem scopeOf_entered (path content : Text) :
    scopeOf (entered s f.rule line path content) s.rules.size = scopeOf s f.rule := by
  simp [scopeOf, entered, Array.getD]

/-- It still does so later. -/
theorem scopeOf_imported {path : Text} (hrule : f.rule < s.rules.size)
    (h : Steps (entered s f.rule line path content) t) :
    scopeOf t s.rules.size = scopeOf t f.rule := by
  have hsteps : Steps s t := (steps_entered s f.rule line path content).trans h
  rw [h.scopeOf_eq (by simp [entered]), scopeOf_entered, hsteps.scopeOf_eq hrule]

theorem run_importFile_of_marked (hmarked : Marked s (scopeOf s f.rule) name) :
    (importFile inner f line name).run s = (.ok (), s) := by
  have hhas : (s.settings.getD (s.rules.getD f.rule {}).settings []).has
      ("@import ".toList ++ name) = true := hmarked
  unfold importFile
  rw [run_settingsOf_bind]
  dsimp only
  rw [if_pos hhas, run_pure]

/-- The code of a file that is found is worked on, and then its name is marked. -/
theorem run_importFile_of_found {path : Text} (hmarked : ¬ Marked s (scopeOf s f.rule) name)
    (hfound : foundBy s f.rule name = some (path, content)) :
    (importFile inner f line name).run s =
      (do
        inner.work { f with rule := s.rules.size } (importedCode s.places.size path content)
        Run.setSetting f.rule (importKey name) (.flag true) : Run Unit).run
          (entered s f.rule line path content) := by
  have hhas : ¬ (s.settings.getD (s.rules.getD f.rule {}).settings []).has
      ("@import ".toList ++ name) = true := hmarked
  have hassets : ∀ {β : Type} (g : Assets → Run β),
      ((liftM Calc.assets : Run Assets) >>= g).run s = (g s.pool.assets).run s := fun _ => rfl
  unfold foundBy at hfound
  unfold importFile
  rw [run_settingsOf_bind]
  dsimp only
  rw [if_neg hhas, hassets, run_get_bind, run_rule_bind, hfound]
  unfold importedCode entered
  cases hempty : content.isEmpty <;> simp only [hempty] <;> rfl

/-- An import that comes to its end: the name was marked before, or it is now, behind the work on
the file. -/
theorem importFile_cases {path : Text} (hfound : foundBy s f.rule name = some (path, content))
    (hrun : (importFile inner f line name).run s = (.ok (), t)) :
    (Marked s (scopeOf s f.rule) name ∧ t = s) ∨
    ∃ u, (inner.work { f with rule := s.rules.size } (importedCode s.places.size path content)).run
        (entered s f.rule line path content) = (.ok (), u) ∧
      t = ((Run.setSetting f.rule (importKey name) (.flag true)).run u).2 := by
  by_cases hmarked : Marked s (scopeOf s f.rule) name
  · rw [run_importFile_of_marked hmarked] at hrun
    exact .inl ⟨hmarked, (congrArg Prod.snd hrun).symm⟩
  · rw [run_importFile_of_found hmarked hfound] at hrun
    obtain ⟨_, u, hwork, hset⟩ := of_bind_ok hrun
    exact .inr ⟨u, hwork, (congrArg Prod.snd hset).symm⟩

theorem marked_of_importFile {n : Nat} (hrule : f.rule < s.rules.size)
    (hscope : scopeOf s f.rule < s.settings.size) (hfound : (foundBy s f.rule name).isSome)
    (hrun : (importFile (compiler n) f line name).run s = (.ok (), t)) :
    Marked t (scopeOf s f.rule) name := by
  obtain ⟨⟨path, content⟩, hfound⟩ := Option.isSome_iff_exists.mp hfound
  rcases importFile_cases hfound hrun with ⟨hmarked, rfl⟩ | ⟨u, hwork, rfl⟩
  · exact hmarked
  · have hsteps : Steps s u := (steps_entered s f.rule line path content).trans
      ((steps_work n _ _).of_run hwork)
    have hsame : scopeOf u f.rule = scopeOf s f.rule := hsteps.scopeOf_eq hrule
    rw [← hsame, Marked, has_setSetting (hsame ▸ hscope.trans_le hsteps.size_settings)]
    exact .inl rfl

/-- From then on the name is not imported in that scope again, whatever is worked on. -/
theorem run_importFile_again {n m : Nat} {g : Frame} {line' : Int} {u : Session}
    (hrule : f.rule < s.rules.size) (hscope : scopeOf s f.rule < s.settings.size)
    (hfound : (foundBy s f.rule name).isSome)
    (hrun : (importFile (compiler n) f line name).run s = (.ok (), t)) (hsteps : Steps t u)
    (hsame : scopeOf u g.rule = scopeOf s f.rule) :
    (importFile (compiler m) g line' name).run u = (.ok (), u) := by
  refine run_importFile_of_marked ?_
  rw [hsame]
  exact hsteps.marked (marked_of_importFile hrule hscope hfound hrun)

end SheetPress.Compile
