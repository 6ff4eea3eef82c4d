import SheetPress.Proofs.Compile.Importing
import SheetPress.Proofs.Compile.Meaning
import SheetPress.Proofs.Source.Quoted

/-!
# Circles of imports

A folder is a set of files that ask for one another under their names.  Beside that they may hold
whatever needs no import.  Work on a source that asks for files of a folder comes to its end at some
depth exactly if no file that it leads to is part of a circle (`imports_end_iff_no_circle`): the
name of a file is marked behind the work on the file, so that a file in a circle is entered again
and again.  Without a circle, the depth that is needed grows with the number of the files only, and
each file is entered once in its scope.
-/

set_option autoImplicit false

namespace SheetPress.Compile

open Run
open Source (Item Outline Word PlainWord quoted quotedLine directive importWord mediaWord mixinWord)

variable {s t u : Session} {f : Frame} {line : Int}

/-! ## What code asks for -/

/-- The item asks for files under some names. -/
def Asks (i : Item) (names : List Text) : Prop :=
  ∀ inner f, runItem inner f i = names.forM (importFile inner f i.line)

/-- No files have been changed, and no name has been marked. -/
structure Beside (s t : Session) : Prop where
  assets : t.pool.assets = s.pool.assets
  marked : ∀ {scope : Nat} {name : Text}, scope < s.settings.size → Marked t scope name →
    Marked s scope name
  returned : ∀ {scope : Nat}, scope < s.settings.size → Has t scope returnKey →
    Has s scope returnKey

/-- The item needs no import: it works at some depth in any session, and it imports nothing. -/
structure Harmless (depth : Nat) (i : Item) : Prop where
  ends : ∀ n, depth ≤ n → ∀ f s, ∃ t, (runItem (compiler n) f i).run s = (.ok (), t)
  beside : ∀ n f s t, (runItem (compiler n) f i).run s = (.ok (), t) → Beside s t

/-- Items that ask for files, and others between them. -/
inductive Asking (depth : Nat) : List Item → List Text → Prop where
  | nil : Asking depth [] []
  | asks {i : Item} {items : List Item} {xs names : List Text} (hi : Asks i xs)
      (hrest : Asking depth items names) : Asking depth (i :: items) (xs ++ names)
  | other {i : Item} {items : List Item} {names : List Text} (hi : Harmless depth i)
      (hrest : Asking depth items names) : Asking depth (i :: items) names

/-- Code that asks for files. -/
structure AsksFor (depth : Nat) (code : Text) (names : List Text) : Prop where
  fault : (Source.items code).fault = none
  asking : Asking depth (Source.items code).items names

theorem beside_push (s : Session) (settings : Settings) {t : Session}
    (hassets : t.pool.assets = s.pool.assets) (hsettings : t.settings = s.settings.push settings) :
    Beside s t := by
  have hscope : ∀ {scope key}, scope < s.settings.size → Has t scope key → Has s scope key := by
    intro scope key hscope h
    rwa [Has, hsettings, getD_of_isPrefix (prefix_push s.settings settings) hscope] at h
  exact ⟨hassets, hscope, hscope⟩

theorem harmless_rule (line : Int) {head : Text} (h : Selecting head)
    (hhead : '$' ∉ head ∧ '#' ∉ head) (hself : head ≠ selfWord) (code : Text) :
    Harmless 0 ⟨line, head, some code⟩ := by
  have hrun : ∀ n f s, ∃ t, (runItem (compiler n) f ⟨line, head, some code⟩).run s = (.ok (), t) ∧
      Beside s t := by
    intro n f s
    rw [runItem_rule _ f line h code, nestUnscoped]
    split
    next =>
      have hnew : (head == selfWord && (s.rules.getD f.rule {}).media == f.media) = false := by
        rw [Bool.and_eq_false_iff, beq_eq_false_iff_ne]
        exact .inl hself
      simp only [nestRule, run_rule_bind, hnew, Bool.false_eq_true, if_false, run_contextOf_bind]
      rw [bind_ok (run_substitute (compiler n) f.rule _ true s hhead.1 hhead.2)]
      simp only [run_owner_bind, run_contextOf_bind, run_newContext_bind, run_settingsOf_bind,
        run_newSettings_bind, run_newSink_bind, run_newRule_bind, run_modifyOwner]
      exact ⟨_, rfl, beside_push s _ rfl rfl⟩
    next => exact ⟨s, rfl, rfl, fun _ h => h, fun _ h => h⟩
  constructor
  · intro n _ f s
    obtain ⟨t, ht, -⟩ := hrun n f s
    exact ⟨t, ht⟩
  · intro n f s t ht
    obtain ⟨t', ht', hbeside⟩ := hrun n f s
    rw [ht'] at ht
    cases ht
    exact hbeside

/-- The line with the name in quotes is left as it is, and it asks for the file under that name. -/
structure Imported (w : PlainWord) : Prop where
  kept : Source.treat (quotedLine importWord.toWord w.toWord) =
    quotedLine importWord.toWord w.toWord
  closed : ¬ ['/', '*'] <:+: Source.hideStrings (quotedLine importWord.toWord w.toWord)
  asks : ∀ line, Asks ⟨line, directive importWord.toWord (quoted w.toWord), none⟩ [w.text]

theorem Imported.asksFor {w : PlainWord} (h : Imported w) (depth first : Nat)
    (file : Option Text) :
    AsksFor depth (Source.load first file (quotedLine importWord.toWord w.toWord)).code
      [w.text] := by
  obtain ⟨line, hitems⟩ := Source.items_load_quotedLine first file importWord w h.kept h.closed
  constructor
  · rw [hitems]
  · rw [hitems]
    exact .asks (h.asks line) .nil

theorem importedCode_quoted (first : Nat) (path : Text) (kind w : Word) :
    importedCode first path (quotedLine kind w) =
      (Source.load first (some path) (quotedLine kind w)).code := by
  rw [importedCode, if_neg]
  simp [quotedLine]

/-! ## Folders -/

/-- Files that ask for one another under some names. -/
structure Folder where
  names : List Text
  path : Text → Text
  content : Text → Text
  /-- The names that a file asks for. -/
  imports : Text → List Text
  assets : Assets
  loadPaths : List Text
  /-- How deep work goes on what is in the files beside imports. -/
  depth : Nat
  found : ∀ x ∈ names, ∀ y ∈ names, findImport assets.files
    (importDirectories assets.files.home loadPaths (path x) y) (Path.base y) =
      some (path y, content y)
  asks : ∀ x ∈ names, ∀ first, AsksFor depth (importedCode first (path x) (content x)) (imports x)
  closed : ∀ x ∈ names, ∀ y ∈ imports x, y ∈ names

namespace Folder

variable {x y : Text} {xs : List Text} {n : Nat}

variable {folder : Folder}

/-- A file asks for another one. -/
def Leads (folder : Folder) (x y : Text) : Prop := y ∈ folder.imports x

/-- No file that a file leads to leads back to itself. -/
def NoCircle (folder : Folder) (x : Text) : Prop :=
  ∀ y, Relation.ReflTransGen folder.Leads x y → ¬ Relation.TransGen folder.Leads y y

/-- The files of the folder can be imported by a rule. -/
structure Sees (folder : Folder) (s : Session) (f : Frame) : Prop where
  assets : s.pool.assets = folder.assets
  loadPaths : s.loadPaths = folder.loadPaths
  rule : f.rule < s.rules.size
  scope : scopeOf s f.rule < s.settings.size
  running : ¬ Has s (scopeOf s f.rule) returnKey
  found : ∀ x ∈ folder.names, foundBy s f.rule x = some (folder.path x, folder.content x)

/-- Beside that, what has been imported is complete and has no circle in it. -/
structure Settled (folder : Folder) (s : Session) (f : Frame) : Prop extends folder.Sees s f where
  complete : ∀ x ∈ folder.names, Marked s (scopeOf s f.rule) x →
    ∀ y ∈ folder.imports x, Marked s (scopeOf s f.rule) y
  acc : ∀ x ∈ folder.names, Marked s (scopeOf s f.rule) x → Acc (fun y x => folder.Leads x y) x

theorem Sees.later (h : folder.Sees s f) (hsteps : Steps s t)
    (hassets : t.pool.assets = s.pool.assets)
    (hrunning : ¬ Has t (scopeOf s f.rule) returnKey) : folder.Sees t f where
  assets := hassets.trans h.assets
  loadPaths := hsteps.loadPaths.trans h.loadPaths
  rule := h.rule.trans_le (by simpa using hsteps.rules.length_le)
  scope := by
    rw [hsteps.scopeOf_eq h.rule]
    exact h.scope.trans_le hsteps.size_settings
  running := by rwa [hsteps.scopeOf_eq h.rule]
  found := fun x hx => by
    rw [foundBy, hassets, hsteps.loadPaths, hsteps.rule h.rule]
    exact h.found x hx

theorem Sees.entered (h : folder.Sees s f) (hx : x ∈ folder.names) (line : Int) :
    folder.Sees (entered s f.rule line (folder.path x) (folder.content x))
      { f with rule := s.rules.size } where
  assets := h.assets
  loadPaths := h.loadPaths
  rule := by simp [Compile.entered]
  scope := by
    rw [scopeOf_entered]
    exact h.scope
  running := by
    rw [scopeOf_entered]
    exact h.running
  found := fun y hy => by
    have hrule : ((Compile.entered s f.rule line (folder.path x) (folder.content x)).rules.getD
        s.rules.size {}).path = folder.path x := by
      simp [Compile.entered, Array.getD]
    rw [foundBy, hrule]
    change findImport s.pool.assets.files
      (importDirectories s.pool.assets.files.home s.loadPaths _ y) _ = _
    rw [h.assets, h.loadPaths]
    exact folder.found x hx y hy

theorem Sees.settled (h : folder.Sees s f)
    (hnew : ∀ x ∈ folder.names, ¬ Marked s (scopeOf s f.rule) x) : folder.Settled s f where
  toSees := h
  complete := fun x hx hmarked => absurd hmarked (hnew x hx)
  acc := fun x hx hmarked => absurd hmarked (hnew x hx)

theorem Settled.entered (h : folder.Settled s f) (hx : x ∈ folder.names) (line : Int) :
    folder.Settled (entered s f.rule line (folder.path x) (folder.content x))
      { f with rule := s.rules.size } where
  toSees := h.toSees.entered hx line
  complete := by
    rw [scopeOf_entered]
    exact h.complete
  acc := by
    rw [scopeOf_entered]
    exact h.acc

theorem Settled.beside (h : folder.Settled s f) (hsteps : Steps s t) (hbeside : Beside s t) :
    folder.Settled t f where
  toSees := h.toSees.later hsteps hbeside.assets fun ht => h.running (hbeside.returned h.scope ht)
  complete := by
    rw [hsteps.scopeOf_eq h.rule]
    exact fun x hx hmarked y hy =>
      hsteps.marked (h.complete x hx (hbeside.marked h.scope hmarked) y hy)
  acc := by
    rw [hsteps.scopeOf_eq h.rule]
    exact fun x hx hmarked => h.acc x hx (hbeside.marked h.scope hmarked)

/-- A file may be marked once all that it asks for has been imported. -/
theorem Settled.mark (h : folder.Settled u f) (hx : x ∈ folder.names)
    (himports : ∀ y ∈ folder.imports x, Marked u (scopeOf u f.rule) y) :
    folder.Settled ((setSetting f.rule (importKey x) (.flag true)).run u).2 f := by
  have hsteps : Steps u ((setSetting f.rule (importKey x) (.flag true)).run u).2 :=
    steps_setSetting f.rule (importKey x) (.flag true) u
  have hmarked : ∀ {y}, Marked ((setSetting f.rule (importKey x) (.flag true)).run u).2
      (scopeOf u f.rule) y → y = x ∨ Marked u (scopeOf u f.rule) y := by
    intro y hy
    rw [Marked, has_setSetting h.scope] at hy
    exact hy.imp_left importKey_injective
  constructor
  · refine h.toSees.later hsteps rfl ?_
    rw [has_setSetting h.scope]
    rintro (hkey | hreturned)
    · exact importKey_ne (by decide) hkey.symm
    · exact h.running hreturned
  · rw [hsteps.scopeOf_eq h.rule]
    intro y hy hmark z hz
    refine hsteps.marked ?_
    rcases hmarked hmark with rfl | hold
    · exact himports z hz
    · exact h.complete y hy hold z hz
  · rw [hsteps.scopeOf_eq h.rule]
    intro y hy hmark
    rcases hmarked hmark with rfl | hold
    · exact Acc.intro y fun z hz => h.acc z (folder.closed y hy z hz) (himports z hz)
    · exact h.acc y hy hold

/-! ## What is imported has no circle -/

/-- Some names are imported from one session to the next, and all is settled then. -/
structure Gets (folder : Folder) (f : Frame) (s t : Session) (xs : List Text) : Prop where
  steps : Steps s t
  settled : folder.Settled t f
  marked : ∀ x ∈ xs, Marked t (scopeOf t f.rule) x

theorem Gets.trans {ys : List Text} (h : folder.Gets f s u xs) (h' : folder.Gets f u t ys) :
    folder.Gets f s t (xs ++ ys) where
  steps := h.steps.trans h'.steps
  settled := h'.settled
  marked := fun x hx => by
    rcases List.mem_append.mp hx with hx | hx
    · rw [h'.steps.scopeOf_eq h.settled.rule]
      exact h'.steps.marked (h.marked x hx)
    · exact h'.marked x hx

/-- Imports of the files at some depth leave all settled if they come to their end. -/
def Settles (folder : Folder) (n : Nat) : Prop :=
  ∀ ⦃f : Frame⦄ ⦃line : Int⦄ ⦃s t : Session⦄ ⦃x : Text⦄, x ∈ folder.names → folder.Settled s f →
    (importFile (compiler n) f line x).run s = (.ok (), t) → folder.Gets f s t [x]

theorem Settles.forM (hn : folder.Settles n)
    (hxs : ∀ x ∈ xs, x ∈ folder.names) (h : folder.Settled s f)
    (hrun : (xs.forM (importFile (compiler n) f line)).run s = (.ok (), t)) :
    folder.Gets f s t xs := by
  induction xs generalizing s with
  | nil =>
    cases hrun
    exact ⟨.refl, h, by simp⟩
  | cons x xs ih =>
    obtain ⟨_, u, hfirst, hrest⟩ := of_bind_ok hrun
    have hu := hn (hxs x (by simp)) h hfirst
    exact hu.trans (ih (fun y hy => hxs y (by simp [hy])) hu.settled hrest)

/-- As long as nothing has been returned, items are worked on one after the other. -/
theorem Sees.run_runItems_cons (h : folder.Sees s f) (inner : Compiler) (i : Item)
    (rest : List Item) : (runItems inner f none (i :: rest)).run s =
      (runItem inner f i >>= fun _ => runItems inner f none rest).run s := by
  have hreturn : ¬ (s.settings.getD (s.rules.getD f.rule {}).settings []).has
      "@return".toList = true := h.running
  rw [runItems, run_settingsOf_bind, if_neg hreturn]

theorem Settled.gets_harmless (h : folder.Settled s f) {i : Item}
    (hi : Harmless folder.depth i)
    (hrun : (runItem (compiler n) f i).run s = (.ok (), t)) : folder.Gets f s t [] := by
  have hsteps : Steps s t := (steps_runItem n f i).of_run hrun
  exact ⟨hsteps, h.beside hsteps (hi.beside n f s t hrun), by simp⟩

theorem Settles.items (hn : folder.Settles n) {items : List Item}
    (hitems : Asking folder.depth items xs) (hxs : ∀ x ∈ xs, x ∈ folder.names)
    (h : folder.Settled s f) (hrun : (runItems (compiler n) f none items).run s = (.ok (), t)) :
    folder.Gets f s t xs := by
  induction hitems generalizing s with
  | nil =>
    cases hrun
    exact ⟨.refl, h, by simp⟩
  | @asks i items xs names hi hrest ih =>
    rw [h.run_runItems_cons, hi] at hrun
    obtain ⟨_, u, hfirst, hlast⟩ := of_bind_ok hrun
    have hu := hn.forM (fun x hx => hxs x (by simp [hx])) h hfirst
    exact hu.trans (ih (fun x hx => hxs x (by simp [hx])) hu.settled hlast)
  | @other i items names hi hrest ih =>
    rw [h.run_runItems_cons] at hrun
    obtain ⟨_, u, hfirst, hlast⟩ := of_bind_ok hrun
    have hu := h.gets_harmless hi hfirst
    exact hu.trans (ih hxs hu.settled hlast)

/-- Work on code that has come to its end was work on its items. -/
theorem work_cases {code : Text} (hfault : (Source.items code).fault = none)
    (hrun : ((compiler n).work f code).run s = (.ok (), t)) :
    ∃ m, n = m + 1 ∧
      (runItems (compiler m) f none (Source.items code).items).run s = (.ok (), t) := by
  cases n with
  | zero => cases hrun
  | succ m =>
    refine ⟨m, rfl, ?_⟩
    rw [← hfault]
    exact hrun

/-- What holds for the rule of the imported file holds for the rule that imports it. -/
theorem Settled.leave (h : folder.Settled s f) {path content : Text}
    (hsteps : Steps (Compile.entered s f.rule line path content) u)
    (hu : folder.Settled u { f with rule := s.rules.size }) : folder.Settled u f := by
  have hsteps' : Steps s u := (steps_entered s f.rule line path content).trans hsteps
  have hsame : scopeOf u f.rule = scopeOf u s.rules.size := (scopeOf_imported h.rule hsteps).symm
  constructor
  · refine h.toSees.later hsteps' (hu.assets.trans h.assets.symm) ?_
    rw [← hsteps'.scopeOf_eq h.rule, hsame]
    exact hu.running
  · rw [hsame]
    exact hu.complete
  · rw [hsame]
    exact hu.acc

-- The induction is on the depth: a file is worked on one level below its import.
theorem settles (folder : Folder) (n : Nat) : folder.Settles n := by
  induction n with
  | zero =>
    intro f line s t x hx h hrun
    rcases importFile_cases (h.found x hx) hrun with ⟨hmarked, rfl⟩ | ⟨u, hwork, -⟩
    · exact ⟨.refl, h, by simpa using hmarked⟩
    · cases hwork
  | succ n ih =>
    intro f line s t x hx h hrun
    have hsteps : Steps s t := (steps_importFile _ f line x).of_run hrun
    have hmarked := marked_of_importFile h.rule h.scope (by simp [h.found x hx]) hrun
    rw [← hsteps.scopeOf_eq h.rule] at hmarked
    refine ⟨hsteps, ?_, by simpa using hmarked⟩
    rcases importFile_cases (h.found x hx) hrun with ⟨-, rfl⟩ | ⟨u, hwork, rfl⟩
    · exact h
    · obtain ⟨hfault, hasking⟩ := folder.asks x hx s.places.size
      obtain ⟨m, hm, hitems⟩ := work_cases hfault hwork
      cases hm
      have hu := ih.items hasking (folder.closed x hx) (h.entered hx line) hitems
      have hback : folder.Settled u f := h.leave hu.steps hu.settled
      refine hback.mark hx ?_
      rw [← scopeOf_imported h.rule hu.steps]
      exact hu.marked

/-- Work on code that asks for files imports them, if it comes to its end. -/
theorem Settled.gets_work (h : folder.Settled s f) {code : Text}
    (hasks : AsksFor folder.depth code xs) (hxs : ∀ x ∈ xs, x ∈ folder.names)
    (hrun : ((compiler n).work f code).run s = (.ok (), t)) : folder.Gets f s t xs := by
  obtain ⟨m, -, hitems⟩ := work_cases hasks.fault hrun
  exact (folder.settles m).items hasks.asking hxs h hitems

theorem noCircle_of_acc (h : Acc (fun y x => folder.Leads x y) x) :
    folder.NoCircle x := by
  intro y hleads
  have hy : Acc (fun y x => folder.Leads x y) y := by
    induction hleads with
    | refl => exact h
    | tail _ hstep ih => exact ih.inv hstep
  clear hleads h
  induction hy with
  | intro y _ ih =>
    intro hcircle
    obtain ⟨z, hstep, hback⟩ := Relation.TransGen.head'_iff.mp hcircle
    exact ih z hstep (Relation.TransGen.tail' hback hstep)

/-- What work on code imports leads to no circle. -/
theorem Gets.noCircle (h : folder.Gets f s t xs)
    (hxs : ∀ x ∈ xs, x ∈ folder.names) : ∀ x ∈ xs, folder.NoCircle x :=
  fun x hx => noCircle_of_acc (h.settled.acc x (hxs x hx) (h.marked x hx))

/-- With a file, all that it leads to has been imported. -/
theorem Gets.marked_of_leads (h : folder.Gets f s t xs)
    (hxs : ∀ x ∈ xs, x ∈ folder.names) (hx : x ∈ xs)
    (hleads : Relation.ReflTransGen folder.Leads x y) : Marked t (scopeOf t f.rule) y := by
  have hboth : y ∈ folder.names ∧ Marked t (scopeOf t f.rule) y := by
    induction hleads with
    | refl => exact ⟨hxs x hx, h.marked x hx⟩
    | @tail y z _ hstep ih =>
      exact ⟨folder.closed y ih.1 z hstep, h.settled.complete y ih.1 ih.2 z hstep⟩
  exact hboth.2

/-! ## Imports without a circle come to their end -/

open Classical in
/-- The files that a file leads to, itself among them. -/
noncomputable def reach (folder : Folder) (x : Text) : Finset Text :=
  folder.names.toFinset.filter (Relation.ReflTransGen folder.Leads x)

theorem card_reach_le (folder : Folder) (x : Text) :
    (folder.reach x).card ≤ folder.names.length := by
  classical
  exact (Finset.card_filter_le _ _).trans folder.names.toFinset_card_le

theorem card_reach_pos (hx : x ∈ folder.names) : 0 < (folder.reach x).card := by
  classical
  exact Finset.card_pos.mpr ⟨x, by simp [reach, hx, Relation.ReflTransGen.refl]⟩

/-- Without a circle, what a file asks for leads to fewer files than the file itself. -/
theorem card_reach_lt (hx : x ∈ folder.names) (h : folder.NoCircle x)
    (hy : y ∈ folder.imports x) : (folder.reach y).card < (folder.reach x).card := by
  classical
  refine Finset.card_lt_card ⟨fun z hz => ?_, fun hback => ?_⟩
  · simp only [reach, Finset.mem_filter] at hz ⊢
    exact ⟨hz.1, hz.2.head hy⟩
  · have hself : x ∈ folder.reach y := hback (by simp [reach, hx, Relation.ReflTransGen.refl])
    exact h x .refl (Relation.TransGen.head' hy (Finset.mem_filter.mp hself).2)

theorem NoCircle.of_leads (h : folder.NoCircle x) (hy : y ∈ folder.imports x) :
    folder.NoCircle y := fun z hz => h z (hz.head hy)

/-- A file that leads to no circle, and to few files. -/
structure Shallow (folder : Folder) (n : Nat) (x : Text) : Prop where
  mem : x ∈ folder.names
  noCircle : folder.NoCircle x
  depth : (folder.reach x).card + folder.depth ≤ n

/-- Imports of shallow files come to their end. -/
def Ends (folder : Folder) (n : Nat) : Prop :=
  ∀ ⦃x : Text⦄, folder.Shallow n x → ∀ ⦃f : Frame⦄ (line : Int) ⦃s : Session⦄, folder.Settled s f →
    ∃ t, (importFile (compiler n) f line x).run s = (.ok (), t)

theorem Ends.forM (hn : folder.Ends n)
    (hxs : ∀ x ∈ xs, folder.Shallow n x) (h : folder.Settled s f) (line : Int) :
    ∃ t, (xs.forM (importFile (compiler n) f line)).run s = (.ok (), t) := by
  induction xs generalizing s with
  | nil => exact ⟨s, rfl⟩
  | cons x xs ih =>
    have hx := hxs x (by simp)
    obtain ⟨u, hfirst⟩ := hn hx line h
    have hu := (folder.settles n hx.mem h hfirst).settled
    obtain ⟨t, hrest⟩ := ih (fun y hy => hxs y (by simp [hy])) hu
    exact ⟨t, (bind_ok hfirst).trans hrest⟩

theorem Ends.items (hn : folder.Ends n) (hdepth : folder.depth ≤ n)
    {items : List Item} (hitems : Asking folder.depth items xs)
    (hxs : ∀ x ∈ xs, folder.Shallow n x) (h : folder.Settled s f) :
    ∃ t, (runItems (compiler n) f none items).run s = (.ok (), t) := by
  induction hitems generalizing s with
  | nil => exact ⟨s, rfl⟩
  | @asks i items xs names hi hrest ih =>
    have hfirst : ∀ x ∈ xs, folder.Shallow n x := fun x hx => hxs x (by simp [hx])
    obtain ⟨u, hu⟩ := hn.forM hfirst h i.line
    have hsettled := (folder.settles n).forM (fun x hx => (hfirst x hx).mem) h hu
    obtain ⟨t, ht⟩ := ih (fun x hx => hxs x (by simp [hx])) hsettled.settled
    refine ⟨t, ?_⟩
    rw [h.run_runItems_cons, hi, bind_ok hu, ht]
  | @other i items names hi hrest ih =>
    obtain ⟨u, hu⟩ := hi.ends n hdepth f s
    obtain ⟨t, ht⟩ := ih hxs (h.gets_harmless hi hu).settled
    refine ⟨t, ?_⟩
    rw [h.run_runItems_cons, bind_ok hu, ht]

theorem Ends.work (hn : folder.Ends n) (hdepth : folder.depth ≤ n) {code : Text}
    (hasks : AsksFor folder.depth code xs) (hxs : ∀ x ∈ xs, folder.Shallow n x)
    (h : folder.Settled s f) : ∃ t, ((compiler (n + 1)).work f code).run s = (.ok (), t) := by
  obtain ⟨t, ht⟩ := hn.items hdepth hasks.asking hxs h
  refine ⟨t, ?_⟩
  rw [← hasks.fault] at ht
  exact ht

theorem ends (folder : Folder) (n : Nat) : folder.Ends n := by
  induction n with
  | zero =>
    intro x hx
    have hpos := card_reach_pos hx.mem
    have hdepth := hx.depth
    omega
  | succ n ih =>
    intro x ⟨hx, hcircle, hdepth⟩ f line s h
    by_cases hmarked : Marked s (scopeOf s f.rule) x
    · exact ⟨s, run_importFile_of_marked hmarked⟩
    have hpos := card_reach_pos hx
    have hshallow : ∀ y ∈ folder.imports x, folder.Shallow n y := by
      intro y hy
      have hlt := card_reach_lt hx hcircle hy
      exact ⟨folder.closed x hx y hy, hcircle.of_leads hy, by omega⟩
    obtain ⟨u, hu⟩ := ih.work (by omega) (folder.asks x hx s.places.size) hshallow
      (h.entered hx line)
    refine ⟨((setSetting f.rule (importKey x) (.flag true)).run u).2, ?_⟩
    rw [run_importFile_of_found hmarked (h.found x hx), bind_ok hu, setSetting,
      run_modifySettings]

end Folder

open Folder

/-! ## The depth of imports -/

/-- Work on a source that asks for files of a folder comes to its end at some depth if and only if
it leads to no circle, and then the number of the files bounds the depth.  All that it leads to has
been imported then.  A name that has been imported to its end is not imported again in its scope,
whatever is worked on. -/
theorem imports_end_iff_no_circle (folder : Folder) {s : Session} {f : Frame} {code : Text}
    {xs : List Text} (hsees : folder.Sees s f)
    (hnew : ∀ x ∈ folder.names, ¬ Marked s (scopeOf s f.rule) x)
    (hasks : AsksFor folder.depth code xs) (hxs : ∀ x ∈ xs, x ∈ folder.names) :
    ((∃ n t, ((compiler n).work f code).run s = (.ok (), t)) ↔ ∀ x ∈ xs, folder.NoCircle x) ∧
    ((∀ x ∈ xs, folder.NoCircle x) → ∀ n, folder.names.length + folder.depth < n →
      ∃ t, ((compiler n).work f code).run s = (.ok (), t)) ∧
    (∀ n t, ((compiler n).work f code).run s = (.ok (), t) → ∀ x ∈ xs, ∀ y,
      Relation.ReflTransGen folder.Leads x y → Marked t (scopeOf s f.rule) y) ∧
    ∀ n g line name s₀ s₁, g.rule < s₀.rules.size → scopeOf s₀ g.rule < s₀.settings.size →
      (foundBy s₀ g.rule name).isSome →
      (importFile (compiler n) g line name).run s₀ = (.ok (), s₁) →
      ∀ s₂, Steps s₁ s₂ → ∀ m g' line', scopeOf s₂ g'.rule = scopeOf s₀ g.rule →
        (importFile (compiler m) g' line' name).run s₂ = (.ok (), s₂) := by
  have hsettled : folder.Settled s f := hsees.settled hnew
  have hbound : (∀ x ∈ xs, folder.NoCircle x) → ∀ n, folder.names.length + folder.depth < n →
      ∃ t, ((compiler n).work f code).run s = (.ok (), t) := by
    intro hcircle n hn
    obtain ⟨m, rfl⟩ := Nat.exists_eq_succ_of_ne_zero (Nat.ne_zero_of_lt hn)
    refine (folder.ends m).work (by omega) hasks (fun x hx => ⟨hxs x hx, hcircle x hx, ?_⟩) hsettled
    have hcard := folder.card_reach_le x
    omega
  refine ⟨⟨?_, fun hcircle => ⟨_, hbound hcircle _ (Nat.lt_succ_self _)⟩⟩, hbound, ?_, ?_⟩
  · rintro ⟨n, t, hrun⟩
    exact (hsettled.gets_work hasks hxs hrun).noCircle hxs
  · intro n t hrun x hx y hleads
    have hgets := hsettled.gets_work hasks hxs hrun
    rw [← hgets.steps.scopeOf_eq hsees.rule]
    exact hgets.marked_of_leads hxs hx hleads
  · intro n g line name s₀ s₁ hrule hscope hfound hrun s₂ hsteps m g' line' hsame
    exact run_importFile_again hrule hscope hfound hrun hsteps hsame

/-! ## A pair and a loner -/

/-- The path of a file at home. -/
def placed (x : Text) : Text := "/w/".toList ++ x ++ sheetEnding

/-- A session with some files at home and one rule. -/
def holding (names : List Text) (content : Text → Text) : Session where
  pool := { assets := { files := ⟨"/w".toList, names.map fun x => (placed x, content x)⟩ } }
  settings := #[[]]
  rules := #[{}]

/-- The frame of that rule. -/
def outermost : Frame := ⟨0, 0, none, none⟩

theorem foundBy_holding (names : List Text) (content : Text → Text) (x : Text) :
    foundBy (holding names content) outermost.rule x =
      findImport (holding names content).pool.assets.files
        (importDirectories "/w".toList [] ['.', '/'] x) (Path.base x) := rfl

def mediaFile : Text := mediaWord.text

def mixinFile : Text := mixinWord.text

theorem imported_media : Imported mediaWord :=
  ⟨by decide +kernel, by decide +kernel, fun _ _ _ => rfl⟩

theorem imported_mixin : Imported mixinWord :=
  ⟨by decide +kernel, by decide +kernel, fun _ _ _ => rfl⟩

/-- A rule without properties. -/
def emptyRule : Outline := .block (Source.classHead mixinWord.toWord) .nil .nil

/-- The first file asks for the second one, in which there is a rule. -/
def pairContent (x : Text) : Text :=
  if x = mediaFile then quotedLine importWord.toWord mixinWord.toWord else emptyRule.source

theorem asksFor_emptyRule (first : Nat) (path : Text) :
    AsksFor 0 (importedCode first path emptyRule.source) [] := by
  have heven : emptyRule.AllEven := ⟨(Source.calm_classHead _).even, trivial, trivial⟩
  have hcode : importedCode first path emptyRule.source =
      (Source.load first (some path) emptyRule.source).code := by
    rw [importedCode, if_neg (by decide)]
  obtain ⟨before, behind, hw, hload⟩ := Source.load_source first (some path) heven
  obtain ⟨line, hitems⟩ := Source.items_wrapped hw heven
  rw [hcode, hload]
  constructor
  · rw [hitems]
  · rw [hitems]
    exact .other (harmless_rule line ⟨by decide, by decide⟩ (by decide) (by decide) _) .nil

theorem pair_found : ∀ x ∈ [mediaFile, mixinFile], ∀ y ∈ [mediaFile, mixinFile],
    ∀ importer ∈ [placed x, ['.', '/']],
      findImport (holding [mediaFile, mixinFile] pairContent).pool.assets.files
        (importDirectories "/w".toList [] importer y) (Path.base y) =
          some (placed y, pairContent y) := by
  decide +kernel

/-- A file that asks for another one. -/
def pair : Folder where
  names := [mediaFile, mixinFile]
  path := placed
  content := pairContent
  imports := fun x => if x = mediaFile then [mixinFile] else []
  assets := (holding [mediaFile, mixinFile] pairContent).pool.assets
  loadPaths := []
  depth := 0
  found := fun x hx y hy => pair_found x hx y hy _ (by simp)
  asks := fun x hx first => by
    by_cases h : x = mediaFile
    · rw [pairContent, if_pos h, if_pos h, importedCode_quoted]
      exact imported_mixin.asksFor 0 first _
    · rw [pairContent, if_neg h, if_neg h]
      exact asksFor_emptyRule first _
  closed := by decide

/-- A source that asks for the first file imports the second one, too. -/
theorem imports_end_iff_no_circle_pair :
    ∃ t, ((compiler 3).work outermost (Source.load 0 none "@import \"media\";".toList).code).run
        (holding [mediaFile, mixinFile] pairContent) = (.ok (), t) ∧ Marked t 0 mixinFile := by
  have hsource : "@import \"media\";".toList = quotedLine importWord.toWord mediaWord.toWord := by
    decide
  have hsees : pair.Sees (holding [mediaFile, mixinFile] pairContent) outermost :=
    ⟨rfl, rfl, by decide, by decide, by unfold Has; decide,
      fun x hx => (foundBy_holding _ _ x).trans (pair_found mediaFile (by simp) x hx _ (by simp))⟩
  have hcircle : ∀ x ∈ [mediaFile], pair.NoCircle x := by
    -- All that is asked for is the second file, and only the first one asks for something.
    have hleads : ∀ {x y}, pair.Leads x y → x = mediaFile ∧ y = mixinFile := by
      intro x y h
      by_cases hx : x = mediaFile
      · simpa [Folder.Leads, pair, hx] using h
      · simp [Folder.Leads, pair, hx] at h
    intro x _ y _ hback
    obtain ⟨z, hfirst, -⟩ := Relation.TransGen.head'_iff.mp hback
    obtain ⟨z, -, hlast⟩ := Relation.TransGen.tail'_iff.mp hback
    exact absurd ((hleads hfirst).1.symm.trans (hleads hlast).2) (by decide)
  obtain ⟨-, hends, hmarked, -⟩ := imports_end_iff_no_circle pair hsees
    (by unfold Marked Has; decide) (imported_media.asksFor 0 0 none) (by decide)
  obtain ⟨t, hrun⟩ := hends hcircle 3 (by decide)
  rw [hsource]
  exact ⟨t, hrun, hmarked 3 t hrun mediaFile (List.mem_singleton.mpr rfl) mixinFile
    (.single (List.mem_singleton.mpr rfl))⟩

/-- The name of a file that asks for itself. -/
def selfName : PlainWord := Source.keyword selfWord (by decide)

theorem imported_self : Imported selfName :=
  ⟨by decide +kernel, by decide +kernel, fun _ _ _ => rfl⟩

def selfContent (_ : Text) : Text := quotedLine importWord.toWord selfName.toWord

theorem self_found : ∀ importer ∈ [placed selfWord, ['.', '/']],
    findImport (holding [selfWord] selfContent).pool.assets.files
      (importDirectories "/w".toList [] importer selfWord) (Path.base selfWord) =
        some (placed selfWord, selfContent selfWord) := by
  decide +kernel

/-- A file that asks for itself. -/
def loner : Folder where
  names := [selfWord]
  path := placed
  content := selfContent
  imports := fun _ => [selfWord]
  assets := (holding [selfWord] selfContent).pool.assets
  loadPaths := []
  depth := 0
  found := by
    simp only [List.mem_singleton, forall_eq]
    exact self_found _ (by simp)
  asks := fun x _ first => by
    rw [selfContent, importedCode_quoted]
    exact imported_self.asksFor 0 first _
  closed := by simp

/-- A file that imports itself is never imported to its end, however deep the work may go. -/
theorem self_import_never_ends :
    ¬ ∃ n t, ((compiler n).work outermost
      (Source.load 0 none "@import \"self\";".toList).code).run
        (holding ["self".toList] fun _ => "@import \"self\";".toList) = (.ok (), t) := by
  have hsource : "@import \"self\";".toList = quotedLine importWord.toWord selfName.toWord := by
    decide
  have hsees : loner.Sees (holding [selfWord] selfContent) outermost := by
    refine ⟨rfl, rfl, by decide, by decide, by unfold Has; decide, ?_⟩
    simp only [loner, List.mem_singleton, forall_eq]
    exact (foundBy_holding _ _ _).trans (self_found _ (by simp))
  have hsettled : loner.Settled (holding [selfWord] selfContent) outermost :=
    hsees.settled (by unfold Marked Has; decide)
  rw [hsource]
  rintro ⟨n, t, hrun⟩
  have hgets := hsettled.gets_work (imported_self.asksFor 0 0 none) (by decide) hrun
  have hself : loner.Leads selfWord selfWord := List.mem_singleton.mpr rfl
  exact hgets.noCircle (by decide) selfWord (List.mem_singleton.mpr rfl) selfWord .refl
    (.single hself)

end SheetPress.Compile
