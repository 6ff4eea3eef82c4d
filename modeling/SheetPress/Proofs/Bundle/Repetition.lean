import SheetPress.Bundle.Pack
import SheetPress.Proofs.Compile.Run
import SheetPress.Proofs.Path.Names

/-!
# Packing a directory again

Packing writes one file for each source, beside it.  The sources of a directory are told from the
packed files by the usual mark at the start of their names, whatever the prefix of packed files is.
So a second run finds the same sources if the prefix starts with the mark, and the packed files
as well if it does not (`sources_found_again`).
-/

set_option autoImplicit false

namespace SheetPress

open List Text

namespace Bundle

open SheetPress.Path

theorem ofPath?_join {p q n : Text} (hn : Proper n) (hq : '/' ∉ q)
    (h : (Language.ofPath? (join p n)).isSome = true) :
    (Language.ofPath? (join p (q ++ n))).isSome = true := by
  rcases cutExtension_cases (join p n) with hcut | ⟨x, e, hbase, hdotted⟩
  · simp [Language.ofPath?, extensionOf, hcut, lower, Language.all] at h
  · rw [base_join p n, base_of_notMem hn.whole] at hbase
    have hdotted' : Dotted (q ++ x) e := ⟨hdotted.pointless, by simp [hdotted.named]⟩
    have hcut := cutExtension_dotted (t := join p n) (y := slashed p)
      ((base_join p n).trans ((base_of_notMem hn.whole).trans hbase))
      (by rw [join_eq_slashed p hn.isAbsolute, hbase]) hdotted
    have hqn : Proper (q ++ n) := hn.append hq
    have hcut' := cutExtension_dotted (t := join p (q ++ n)) (y := slashed p)
      (by rw [base_join, base_of_notMem hqn.whole, hbase, append_assoc])
      (by rw [join_eq_slashed p hqn.isAbsolute, hbase, append_assoc]) hdotted'
    rw [Language.ofPath?, extensionOf, hcut] at h
    rw [Language.ofPath?, extensionOf, hcut']
    exact h

/-! ## Sources of a directory -/

theorem startsWith_usualMark (t : Text) :
    startsWith t usualMark = true ↔ t.head? = some '_' := by
  cases t with
  | nil => simp [startsWith, after?, usualMark]
  | cons c t => by_cases hc : c = '_' <;> simp [startsWith, after?, usualMark, hc, eq_comm]

section Sources

variable {fs : Files} (hhome : isAbsolute fs.home = true) (hfs : fs.WellFormed) {p : Text}

include hhome hfs

/-- The names in a directory are those that paths of files have behind the directory. -/
theorem mem_names (hp : fs.isDirectory p = true) {n : Text} :
    n ∈ fs.names p ↔ ∃ rest, (∀ part ∈ n :: rest, Proper part) ∧
      fs.Has (Files.pathOf (place fs.home p ++ n :: rest)) := by
  have hresolve : fs.resolve p = some (Files.pathOf (place fs.home p)) := by
    obtain ⟨hne, hfollow, -⟩ := Files.of_isDirectory hhome hp
    rw [Files.resolve, if_neg (by simpa using hne), hfollow]
    rfl
  simp only [Files.names, hresolve, Files.parts_pathOf_place hhome, mem_sortedSet,
    mem_filterMap, Option.ite_none_right_eq_some, Files.isBelow_iff]
  constructor
  · rintro ⟨e, he, ⟨⟨rest, hbelow⟩, -⟩, hhead⟩
    obtain ⟨ps, hproper, hpath⟩ := hfs e.1 ⟨e, he, rfl⟩
    have hparts : Path.parts e.1 = ps := by rw [hpath]; exact parts_slash hproper
    rw [hparts] at hbelow hhead
    rw [← hbelow, drop_left] at hhead
    obtain ⟨rest, rfl⟩ : ∃ r, rest = n :: r := List.head?_eq_some_iff.mp hhead
    subst hbelow
    exact ⟨rest, fun part hpart => hproper part (mem_append_right _ hpart), e, he, hpath⟩
  · rintro ⟨rest, hproper, e, he, hpath⟩
    have hparts : Path.parts e.1 = place fs.home p ++ n :: rest := by
      rw [hpath]
      refine parts_slash fun part hpart => ?_
      rcases mem_append.mp hpart with hpart | hpart
      · exact proper_place hhome p part hpart
      · exact hproper part hpart
    refine ⟨e, he, ?_⟩
    rw [hparts]
    exact ⟨⟨prefix_append _ _, by simp⟩, by simp⟩

/-- The sources of a directory are the files in it that have no mark and a known extension. -/
theorem mem_sourcesAt (hp : fs.isDirectory p = true) {x : Text} :
    x ∈ sourcesAt fs p ↔ ∃ n, Proper n ∧ fs.Has (Files.pathOf (place fs.home p ++ [n])) ∧
      n.head? ≠ some '_' ∧ (Language.ofPath? (join p n)).isSome = true ∧
      x = absolute fs.home (join p n) := by
  have hsource : ∀ n, Proper n → (isSource fs usualMark (join p n) = true ↔
      fs.Has (Files.pathOf (place fs.home p ++ [n])) ∧ n.head? ≠ some '_' ∧
        (Language.ofPath? (join p n)).isSome = true) := by
    intro n hn
    simp only [isSource, base_join, base_of_notMem hn.whole, Bool.and_eq_true, Files.isFile_iff,
      Files.resolve_join hhome hp hn, Bool.not_eq_true', ← Bool.not_eq_true, startsWith_usualMark,
      head?_cutExtension hn, Option.some.injEq, exists_eq_left', and_assoc]
  rw [sourcesAt, if_pos hp, mem_map]
  simp only [mem_filter, mem_map]
  constructor
  · rintro ⟨_, ⟨⟨n, hname, rfl⟩, hsrc⟩, rfl⟩
    obtain ⟨rest, hproper, -⟩ := (mem_names hhome hfs hp).mp hname
    have hn := hproper n mem_cons_self
    obtain ⟨hhas, hmark, hlang⟩ := (hsource n hn).mp hsrc
    exact ⟨n, hn, hhas, hmark, hlang, rfl⟩
  · rintro ⟨n, hn, hhas, hmark, hlang, rfl⟩
    have hname : n ∈ fs.names p :=
      (mem_names hhome hfs hp).mpr ⟨[], by simpa using hn, hhas⟩
    exact ⟨_, ⟨⟨n, hname, rfl⟩, (hsource n hn).mpr ⟨hhas, hmark, hlang⟩⟩, rfl⟩

end Sources

/-! ## What packing writes -/

/-- The path of the file that a source is packed into. -/
def packedPath (home mark path : Text) : Text :=
  join (absolute home (parent path)) (mark ++ base path)

/-- The computation leaves the files as they are. -/
def Leaves {α : Type} (x : Work α) : Prop := ∀ w, (x.run w).2.files = w.files

/-- The computation fails and leaves the files as they are, or it writes to the path. -/
def Writes (fs : Files) (target : Text) (x : Work Unit) : Prop :=
  ∀ w, w.files = fs → ((x.run w).1.isOk = false ∧ (x.run w).2.files = fs) ∨
    ∃ q content, fs.resolve target = some q ∧ (x.run w).2.files = fs.write q content

section Effects

variable {α β : Type}

theorem leaves_pure (a : α) : Leaves (pure a : Work α) := fun _ => rfl

theorem leaves_say (m : Message) : Leaves (Work.say m) := fun _ => rfl

theorem leaves_bind {x : Work α} {f : α → Work β} (hx : Leaves x) (hf : ∀ a, Leaves (f a)) :
    Leaves (x >>= f) := by
  intro w
  rw [Run.run_bind]
  have h := hx w
  rcases hrun : x.run w with ⟨_ | a, v⟩ <;> rw [hrun] at h
  · exact h
  · exact (hf a v).trans h

theorem leaves_prepare (pr : Preparation) (l : Language) (path : Option Text) (source : Text) :
    Leaves (pr.prepare l path source) := by
  intro w
  cases l <;> rfl

theorem leaves_merge (j : Job) (es : List Entry) : Leaves (j.merge es) := by
  induction es with
  | nil => exact leaves_pure _
  | cons e es ih =>
    rw [Job.merge]
    exact leaves_bind (leaves_prepare _ _ _ _) fun t => leaves_bind ih fun _ => leaves_pure _

theorem leaves_sayAll (ms : List Message) :
    Leaves (forIn ms PUnit.unit fun m _ => do Work.say m; pure (.yield PUnit.unit)) := by
  induction ms with
  | nil => exact leaves_pure _
  | cons m ms ih =>
    rw [forIn_cons]
    exact leaves_bind (leaves_bind (leaves_say m) fun _ => leaves_pure _) fun r => by
      cases r with
      | done b => exact leaves_pure _
      | yield b => exact ih

variable {fs : Files} {target : Text}

theorem writes_bind {x : Work α} {f : α → Work Unit} (hx : Leaves x)
    (hf : ∀ w a, w.files = fs → (x.run w).1 = .ok a → Writes fs target (f a)) :
    Writes fs target (x >>= f) := by
  intro w hw
  rw [Run.run_bind]
  have h := hx w
  rcases hrun : x.run w with ⟨_ | a, v⟩ <;> rw [hrun] at h
  · exact .inl ⟨rfl, h.trans hw⟩
  · exact hf w a hw (by rw [hrun]) v (h.trans hw)

theorem writes_throw (f : Fault) : Writes fs target (throw f) := fun _ hw => .inl ⟨rfl, hw⟩

theorem run_get_bind (f : Workspace → Work α) (w : Workspace) :
    ((get : Work Workspace) >>= f).run w = (f w).run w := rfl

theorem run_write (p content : Text) (f : Fault) (w : Workspace) :
    (Work.write p content f).run w =
      match w.files.resolve p with
      | none => (.error f, w)
      | some r =>
        if w.files.isDirectory r then (.error f, w)
        else (.ok (), { w with files := w.files.write r content }) := by
  rw [Work.write, run_get_bind]
  cases w.files.resolve p with
  | none => rfl
  | some r =>
    dsimp only
    cases w.files.isDirectory r <;> rfl

theorem writes_write (t content : Text) (f : Fault) :
    Writes fs target (do Work.write target content f; tell t) := by
  rintro w rfl
  rw [Run.run_bind, run_write]
  cases w.files.resolve target with
  | none => exact .inl ⟨rfl, rfl⟩
  | some r =>
    dsimp only
    cases w.files.isDirectory r with
    | true => exact .inl ⟨rfl, rfl⟩
    | false => exact .inr ⟨r, content, rfl, rfl⟩

theorem writes_packFile {a : Arguments} {path q : Text} (hq : a.value "prefix" = .text q)
    (hout : (a.value "output").isTrue = false) (hpath : dropEndWhile (· == '/') path = path) :
    Writes fs (packedPath fs.home q path) (packFile a path) := by
  rw [packFile]
  refine writes_bind (fun _ => rfl) fun w j hw hj => ?_
  cases hj
  refine writes_bind (fun _ => rfl) fun _ _ _ _ => ?_
  rw [hq]
  refine writes_bind (leaves_pure _) fun _ _ _ h => ?_
  cases h
  simp only [hout, hpath, hw]
  refine writes_bind (leaves_pure _) fun _ _ _ h => ?_
  cases h
  refine writes_bind (leaves_say _) fun _ _ _ _ => ?_
  refine writes_bind (leaves_say _) fun _ _ _ _ => ?_
  split
  · exact writes_bind (fun _ => rfl) fun _ _ _ h => nomatch h
  refine writes_bind (fun _ => rfl) fun _ _ _ _ => ?_
  refine writes_bind (leaves_sayAll _) fun _ _ _ _ => ?_
  split
  · exact writes_throw _
  · exact writes_bind (leaves_merge _ _) fun _ _ _ _ => writes_write _ _ _

end Effects

section Runs

variable {a : Arguments} {q : Text}

theorem proper_base_packedPath (home : Text) {path : Text} (h : Proper (base path)) :
    Proper (base (packedPath home q path)) := by
  rw [packedPath, base_join, base_append _ (notMem_base path)]
  exact h.append (notMem_base q)

theorem dropEndWhile_of_proper {path : Text} (h : Proper (base path)) :
    dropEndWhile (· == '/') path = path := by
  obtain ⟨x, hx, -⟩ := eq_append_base path
  obtain ⟨n, c, hn⟩ := (eq_nil_or_concat (base path)).resolve_left h.ne_nil
  have hc : c ≠ '/' := by
    rintro rfl
    exact h.whole (by rw [hn]; simp)
  rw [hx, hn]
  simp [dropEndWhile, hc]

variable (hq : a.value "prefix" = .text q) (hout : (a.value "output").isTrue = false)

include hq hout

theorem grows_packFile {T : List Text → Prop} {s : Text} {w : Workspace}
    (hhome : isAbsolute w.files.home = true) (hs : Proper (base s))
    (hT : T (place w.files.home (packedPath w.files.home q s))) :
    Files.Grows T w.files ((packFile a s).run w).2.files ∧ (((packFile a s).run w).1.isOk = true →
      ((packFile a s).run w).2.files.Has
        (Files.pathOf (place w.files.home (packedPath w.files.home q s)))) := by
  rcases writes_packFile hq hout (dropEndWhile_of_proper hs) w rfl with
    ⟨hfails, hsame⟩ | ⟨r, content, hresolve, hfiles⟩
  · rw [hfails, hsame]
    exact ⟨Files.Grows.refl _, nofun⟩
  · have htarget := proper_base_packedPath (q := q) w.files.home hs
    have hproper := proper_place hhome (packedPath w.files.home q s)
    obtain ⟨d, hd, hplace, rfl⟩ := Files.resolve_name hhome htarget hresolve
    rw [hplace] at hT hproper ⊢
    rw [hfiles]
    exact ⟨Files.Grows.write hd hproper hT, fun _ => (Files.has_write _ _ _).mpr (.inr rfl)⟩

/-- Packing adds the packed files of some sources, and of all of them if it does not fail. -/
theorem grows_packFiles {T : List Text → Prop} {home : Text} (hhome : isAbsolute home = true)
    {paths : List Text} (hpaths : ∀ s ∈ paths, Proper (base s))
    (hT : ∀ s ∈ paths, T (place home (packedPath home q s))) {w : Workspace}
    (hw : w.files.home = home) :
    Files.Grows T w.files ((packFiles a paths).run w).2.files ∧
      (((packFiles a paths).run w).1.isOk = true → ∀ s ∈ paths,
        ((packFiles a paths).run w).2.files.Has
          (Files.pathOf (place home (packedPath home q s)))) := by
  induction paths generalizing w with
  | nil => exact ⟨Files.Grows.refl _, by simp⟩
  | cons s paths ih =>
    subst hw
    obtain ⟨hgrows, hhas⟩ := grows_packFile hq hout hhome (hpaths s mem_cons_self)
      (hT s mem_cons_self)
    rw [packFiles, Run.run_bind]
    rcases hrun : (packFile a s).run w with ⟨_ | u, w'⟩ <;> rw [hrun] at hgrows hhas
    · exact ⟨hgrows, nofun⟩
    · obtain ⟨hrest, hall⟩ := ih (fun s hs => hpaths s (mem_cons_of_mem _ hs))
        (fun s hs => hT s (mem_cons_of_mem _ hs)) hgrows.home
      refine ⟨hgrows.trans hrest, fun hok t ht => ?_⟩
      rcases mem_cons.mp ht with rfl | ht
      · exact hrest.has _ (hhas rfl)
      · exact hall hok t ht

end Runs

/-! ## Arguments -/

theorem value_setDefault {a : Arguments} {m : String} (n : Text) (v : Argument)
    (h : a.value m ≠ .nothing) : (a.setDefault n v).value m = a.value m := by
  induction a with
  | nil => exact absurd rfl h
  | cons e a ih =>
    obtain ⟨name, u⟩ := e
    have hcons : ∀ (b : Arguments) (t : Argument), Arguments.value ((name, t) :: b) m =
        if m.toList == name then t else b.value m := by
      intro b t
      rw [Arguments.value, lookup_cons]
      cases m.toList == name <;> rfl
    rw [hcons] at h
    rw [Arguments.setDefault, hcons]
    split
    next hname =>
      rw [hcons]
      cases hm : m.toList == name with
      | false => rfl
      | true =>
        rw [hm, if_pos rfl] at h
        rw [if_pos rfl, if_pos rfl, if_neg h]
    next hname =>
      rw [hcons]
      cases hm : m.toList == name with
      | false =>
        rw [hm, if_neg Bool.false_ne_true] at h
        rw [if_neg Bool.false_ne_true, if_neg Bool.false_ne_true, ih h]
      | true => rfl

theorem run_configure (a : Arguments) (w : Workspace) : ∃ r, a.configure.run w = (r, w) ∧
    ∀ b, r = .ok b → ∃ es : Config.Entries,
      b = es.foldl (fun a e => a.setDefault e.1 (.text (joinWith ['\n'] e.2))) a := by
  rw [Arguments.configure, run_get_bind]
  dsimp only
  split
  next f _ => exact ⟨.error f, rfl, nofun⟩
  next es _ => exact ⟨.ok _, rfl, fun b hb => ⟨es, (Except.ok.inj hb).symm⟩⟩

/-- What is given is not taken from a configuration. -/
theorem value_configure {a b : Arguments} {w : Workspace} {m : String}
    (hb : (a.configure.run w).1 = .ok b) (h : a.value m ≠ .nothing) : b.value m = a.value m := by
  obtain ⟨r, hrun, hvalue⟩ := run_configure a w
  rw [hrun] at hb
  obtain ⟨es, rfl⟩ := hvalue b hb
  clear hb hvalue hrun
  induction es generalizing a with
  | nil => rfl
  | cons e es ih =>
    have hstep := value_setDefault e.1 (.text (joinWith ['\n'] e.2)) h
    rw [foldl_cons, ih (hstep ▸ h), hstep]

/-! ## Two runs -/

section Twice

variable {a : Arguments} {w : Workspace} {p q : Text}
  (hhome : isAbsolute w.files.home = true) (hfs : w.files.WellFormed)
  (hp : w.files.isDirectory p = true)

include hhome hfs hp

theorem source_cases {s : Text} (hs : s ∈ sourcesAt w.files p) : Proper (base s) ∧
    s = absolute w.files.home (join p (base s)) ∧
    place w.files.home s = place w.files.home p ++ [base s] ∧
    isAbsolute s = true := by
  obtain ⟨n, hn, -, -, -, rfl⟩ := (mem_sourcesAt hhome hfs hp).mp hs
  have hplace := place_join_name hhome p hn
  have hbase := base_absolute hhome hplace
  rw [hbase]
  exact ⟨hn, rfl, (place_absolute hhome _).trans hplace, isAbsolute_absolute hhome _⟩

/-- The packed file of a source has its name behind the last part of the prefix. -/
theorem place_packedPath {s : Text} (hs : s ∈ sourcesAt w.files p) (q : Text) :
    ∃ ds, place w.files.home (packedPath w.files.home q s) = ds ++ [base q ++ base s] := by
  have hproper := (source_cases hhome hfs hp hs).1
  have htarget := place_parent hhome
    (isAbsolute_join (isAbsolute_absolute hhome (parent s)) (q ++ base s))
    (proper_base_packedPath w.files.home hproper)
  rw [base_join, base_append _ (notMem_base s)] at htarget
  exact ⟨_, htarget⟩

/-- With a prefix that is no path, the packed file stands in the directory. -/
theorem place_packedPath_beside {s : Text} (hs : s ∈ sourcesAt w.files p) (hq : '/' ∉ q) :
    place w.files.home (packedPath w.files.home q s) = place w.files.home p ++ [q ++ base s] := by
  obtain ⟨hproper, -, hplace, habsolute⟩ := source_cases hhome hfs hp hs
  have hparent := place_parent hhome habsolute hproper
  rw [packedPath, place_join_name hhome _ (hproper.append hq), place_absolute hhome,
    (append_inj' (hparent.symm.trans hplace) rfl).1]

variable (hsource : a.value "source" = .text p) (hq : a.value "prefix" = .text q)
  (hout : ∀ b, (a.configure.run w).1 = .ok b → (b.value "output").isTrue = false)

include hsource hq hout

theorem grows_pack :
    Files.Grows (fun ps => ∃ s ∈ sourcesAt w.files p,
        ps = place w.files.home (packedPath w.files.home q s)) w.files ((pack a).run w).2.files ∧
      (((pack a).run w).1.isOk = true → ∀ s ∈ sourcesAt w.files p, ((pack a).run w).2.files.Has
        (Files.pathOf (place w.files.home (packedPath w.files.home q s)))) := by
  obtain ⟨r, hrun, -⟩ := run_configure a w
  rw [pack, Run.run_bind, hrun]
  cases r with
  | error f => exact ⟨Files.Grows.refl _, nofun⟩
  | ok b =>
    have hb : (a.configure.run w).1 = .ok b := by rw [hrun]
    have hsource' : b.value "source" = .text p :=
      (value_configure hb (by rw [hsource]; nofun)).trans hsource
    have hq' : b.value "prefix" = .text q := (value_configure hb (by rw [hq]; nofun)).trans hq
    dsimp only
    rw [hsource']
    exact grows_packFiles hq' (hout b hb) hhome
      (fun s hs => (source_cases hhome hfs hp hs).1) (fun s hs => ⟨s, hs, rfl⟩) rfl

theorem mem_sourcesAt_pack {x : Text} : x ∈ sourcesAt ((pack a).run w).2.files p ↔ ∃ n, Proper n ∧
    ((pack a).run w).2.files.Has (Files.pathOf (place w.files.home p ++ [n])) ∧
      n.head? ≠ some '_' ∧ (Language.ofPath? (join p n)).isSome = true ∧
      x = absolute w.files.home (join p n) := by
  have hgrows := (grows_pack hhome hfs hp hsource hq hout).1
  rw [mem_sourcesAt (hgrows.home ▸ hhome) (hgrows.wellFormed hfs)
    ((hgrows.isDirectory p).trans hp), hgrows.home]

/-- What a second run finds and the first one did not is a packed file. -/
theorem new_source {x : Text} (hx : x ∈ sourcesAt ((pack a).run w).2.files p)
    (hnew : x ∉ sourcesAt w.files p) : ∃ n, n.head? ≠ some '_' ∧
      x = absolute w.files.home (join p n) ∧ place w.files.home x = place w.files.home p ++ [n] ∧
      ∃ s ∈ sourcesAt w.files p,
        place w.files.home p ++ [n] = place w.files.home (packedPath w.files.home q s) := by
  obtain ⟨n, hn, hhas, hmark, hlang, rfl⟩ :=
    (mem_sourcesAt_pack hhome hfs hp hsource hq hout).mp hx
  have hplace := place_join_name hhome p hn
  refine ⟨n, hmark, rfl, (place_absolute hhome _).trans hplace, ?_⟩
  rcases (grows_pack hhome hfs hp hsource hq hout).1.new _ hhas with
    hold | ⟨ps, hproper, ⟨s, hs, rfl⟩, hpath⟩
  · exact absurd ((mem_sourcesAt hhome hfs hp).mpr ⟨n, hn, hold, hmark, hlang, rfl⟩) hnew
  · have hparts := congrArg parts hpath
    rw [← hplace, Files.parts_pathOf_place hhome, Files.parts_pathOf_place hhome, hplace] at hparts
    exact ⟨s, hs, hparts⟩

end Twice

/-- If the prefix of packed files starts with the usual mark, or its last part is empty, a second
run finds the sources that the first one found.  If not, it also finds packed files: only those,
and all of them if the prefix names no other directory and the first run did not fail. -/
theorem sources_found_again {a : Arguments} {w : Workspace} {p q : Text}
    (hhome : isAbsolute w.files.home = true) (hfs : w.files.WellFormed)
    (hp : w.files.isDirectory p = true) (hsource : a.value "source" = .text p)
    (hq : a.value "prefix" = .text q)
    (hout : ∀ b, (a.configure.run w).1 = .ok b → (b.value "output").isTrue = false) :
    ((∀ c ∈ (base q).head?, c = '_') →
      ∀ x, x ∈ sourcesAt ((pack a).run w).2.files p ↔ x ∈ sourcesAt w.files p) ∧
    (∀ x ∈ sourcesAt w.files p, x ∈ sourcesAt ((pack a).run w).2.files p) ∧
    (∀ x ∈ sourcesAt ((pack a).run w).2.files p, x ∉ sourcesAt w.files p →
      ∃ s ∈ sourcesAt w.files p,
        place w.files.home x = place w.files.home (packedPath w.files.home q s)) ∧
    ('/' ∉ q → q.head? ≠ some '_' → ((pack a).run w).1.isOk = true →
      ∀ s ∈ sourcesAt w.files p,
        absolute w.files.home (join p (q ++ base s)) ∈ sourcesAt ((pack a).run w).2.files p) := by
  obtain ⟨hgrows, hall⟩ := grows_pack hhome hfs hp hsource hq hout
  have hkept : ∀ x ∈ sourcesAt w.files p, x ∈ sourcesAt ((pack a).run w).2.files p := by
    intro x hx
    obtain ⟨n, hn, hhas, hmark, hlang, rfl⟩ := (mem_sourcesAt hhome hfs hp).mp hx
    exact (mem_sourcesAt_pack hhome hfs hp hsource hq hout).mpr
      ⟨n, hn, hgrows.has _ hhas, hmark, hlang, rfl⟩
  refine ⟨fun hmark x => ⟨fun hx => ?_, hkept x⟩, hkept, fun x hx hnew => ?_,
    fun hname hmark hok s hs => ?_⟩
  · by_contra hnew
    obtain ⟨n, hn, rfl, -, s, hs, hplace⟩ := new_source hhome hfs hp hsource hq hout hx hnew
    obtain ⟨ds, hpacked⟩ := place_packedPath hhome hfs hp hs q
    obtain rfl : n = base q ++ base s :=
      List.singleton_inj.mp (List.append_inj' (hplace.trans hpacked) rfl).2
    cases hbase : base q with
    | nil =>
      -- The packed file would be the source itself.
      rw [hbase, List.nil_append, ← (source_cases hhome hfs hp hs).2.1] at hnew
      exact hnew hs
    | cons c r =>
      rw [hbase] at hn hmark
      exact hn (congrArg some (hmark c rfl))
  · obtain ⟨n, -, -, hx', s, hs, hplace⟩ := new_source hhome hfs hp hsource hq hout hx hnew
    exact ⟨s, hs, hx'.trans hplace⟩
  · obtain ⟨n, hn, -, hmarked, hlang, rfl⟩ := (mem_sourcesAt hhome hfs hp).mp hs
    have hbase := base_absolute hhome (place_join_name hhome p hn)
    have hhas := hall hok _ hs
    rw [place_packedPath_beside hhome hfs hp hs hname, hbase] at hhas
    have hhead : (q ++ n).head? ≠ some '_' := by
      cases q with
      | nil => exact hmarked
      | cons c r => exact hmark
    rw [hbase]
    exact (mem_sourcesAt_pack hhome hfs hp hsource hq hout).mpr
      ⟨q ++ n, hn.append hname, hhas, hhead, ofPath?_join hn hname hlang, rfl⟩

/-- A directory with one stylesheet. -/
def oneSheet : Workspace where
  files := ⟨"/w".toList, [("/w/a.css".toList, "b".toList)]⟩
  library := "/l".toList

/-- Arguments that ask for packing the directory with a prefix. -/
def packWith (mark : Text) : Arguments :=
  [("source".toList, .text "/w".toList), ("prefix".toList, .text mark)]

theorem sources_found_again_underscore :
    oneSheet.files.WellFormed ∧ ∀ x, x ∈ sourcesAt ((pack (packWith ['_'])).run oneSheet).2.files
      "/w".toList ↔ x ∈ sourcesAt oneSheet.files "/w".toList := by
  have hfs : oneSheet.files.WellFormed := by
    rintro _ ⟨e, he, rfl⟩
    obtain rfl := List.mem_singleton.mp he
    exact ⟨["w".toList, "a.css".toList], by decide, by decide⟩
  have hout : ∀ b, ((packWith ['_']).configure.run oneSheet).1 = .ok b →
      (b.value "output").isTrue = false := by
    rintro b hb
    obtain rfl : packWith ['_'] = b := Except.ok.inj hb
    decide
  exact ⟨hfs, (sources_found_again (q := ['_']) (by decide) hfs (by decide) rfl rfl hout).1
    fun _ hc => (Option.some.inj hc).symm⟩

/-- With another prefix, the second run takes what the first one wrote for a source. -/
theorem packed_file_taken_for_source :
    sourcesAt oneSheet.files "/w".toList = ["/w/a.css".toList] ∧
      sourcesAt ((pack (packWith "p-".toList)).run oneSheet).2.files "/w".toList =
        ["/w/a.css".toList, "/w/p-a.css".toList] := by
  decide +kernel

end Bundle

end SheetPress
