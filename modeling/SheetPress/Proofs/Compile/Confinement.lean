import SheetPress.Compile.Import
import SheetPress.Proofs.Path.Below

/-!
# Where imports are looked for

A line with two points in a row is never imported.  Taking off the quotes of a name brings no two
points together, so no name that is looked for leads upwards, and a relative name stays below the
directories in which the search starts: the home directory, the load paths and the directory of the
importing file.  An absolute name is another matter: joined to a directory it stands alone, so it is
looked for in its own directory, wherever that is (`imports_stay_below`).
-/

set_option autoImplicit false

namespace SheetPress

open List Text

/-! ## Names without two points in a row -/

namespace Text

open SheetPress.Path (up)

/-- What stands first after backslashes have been taken away stood first before, or is a quote. -/
theorem head?_unescape {s : Text} (h : (unescape s).head? = some '.') : s.head? = some '.' := by
  match s with
  | [] => simp [unescape] at h
  | [c] => simpa [unescape] using h
  | b :: c :: r =>
    rw [unescape] at h
    split at h
    next hquote =>
      obtain rfl : c = '.' := by simpa using h
      exact absurd hquote.2 (by decide)
    · simpa using h

theorem infix_of_unescape {s : Text} (h : up <:+: unescape s) : up <:+: s := by
  match s with
  | [] => simpa [unescape] using h
  | [c] => simpa [unescape] using h
  | b :: c :: r =>
    rw [unescape] at h
    split at h
    next hquote =>
      rcases infix_cons_iff.mp h with h | h
      · have hc : c = '.' := (cons_prefix_cons.mp h).1.symm
        exact absurd hquote.2 (by rw [hc]; decide)
      · exact (infix_of_unescape h).trans ⟨[b, c], [], by simp⟩
    · rcases infix_cons_iff.mp h with h | h
      · -- The first point is `b`, so the second one is what now stands behind it.
        obtain ⟨rfl, htail⟩ := cons_prefix_cons.mp h
        have hsecond : (unescape (c :: r)).head? = some '.' := by
          obtain ⟨u, hu⟩ := htail
          rw [← hu]
          rfl
        obtain rfl : c = '.' := by simpa using head?_unescape hsecond
        exact ⟨[], r, rfl⟩
      · exact (infix_of_unescape h).trans (suffix_cons b _).isInfix
termination_by s.length

theorem infix_of_dequote {s : Text} (h : up <:+: dequote s) : up <:+: s := by
  cases s with
  | nil => simpa [dequote] using h
  | cons q r =>
    simp only [dequote] at h
    split at h
    · exact ((infix_of_unescape h).trans (List.dropLast_prefix r).isInfix).trans
        (suffix_cons q r).isInfix
    · exact h

end Text

namespace Compile

open SheetPress.Path (LiesBelow Downward isAbsolute)

/-- A name of an import line, as it is looked for. -/
def importedName (t : Text) : Text := dequote (trim t)

/-- The guard of import lines keeps names that lead upwards away. -/
theorem not_up_infix_importedName {names t : Text} (hguard : isPlainImport names = false)
    (ht : t ∈ Text.splitOn ',' names) : ¬ Path.up <:+: importedName t := by
  intro h
  have hline : Path.up <:+: names :=
    ((infix_of_dequote h).trans (infix_trim t)).trans (infix_of_mem_splitOn ht)
  have hcontains : contains names Path.up = true := contains_iff.mpr hline
  have hfree : contains names Path.up = false := by
    simp only [isPlainImport, map_cons, any_cons, Bool.or_eq_false_iff] at hguard
    exact hguard.1
  rw [hcontains] at hfree
  exact Bool.noConfusion hfree

/-! ## The paths that are tried -/

/-- The path of a rule that imports: a text that was given directly counts as a file of the home
directory, and every other rule has the path of the file that was found. -/
def IsImporter (path : Text) : Prop := path = "./".toList ∨ isAbsolute path = true

instance (path : Text) : Decidable (IsImporter path) := inferInstanceAs (Decidable (_ ∨ _))

/-- The paths under which a name is looked for. -/
def triedPaths (home : Text) (loadPaths : List Text) (importer name : Text) : List Text :=
  importPaths (importDirectories home loadPaths importer name) (Path.base name)

/-- The path lies below the home directory, a load path or the directory of the importing file. -/
def Allowed (home : Text) (loadPaths : List Text) (importer p : Text) : Prop :=
  LiesBelow home home p ∨ (∃ d ∈ loadPaths, LiesBelow home d p) ∨
    LiesBelow home (Path.parent importer) p

instance (home : Text) (loadPaths : List Text) (importer p : Text) :
    Decidable (Allowed home loadPaths importer p) := inferInstanceAs (Decidable (_ ∨ _ ∨ _))

/-- Where the search for a file starts. -/
def importStarts (loadPaths : List Text) (importer : Text) : List Text :=
  ("./".toList :: loadPaths).flatMap fun p =>
    [Path.join p "./".toList, Path.join p (Path.parent importer)]

theorem importDirectories_eq (home : Text) (loadPaths : List Text) (importer name : Text) :
    importDirectories home loadPaths importer name =
      ((importStarts loadPaths importer).map fun s =>
        Files.pathOf (Path.place home (Path.join s (Path.parent name)))).eraseDups := rfl

section Home

variable {home : Text} {loadPaths : List Text} {importer name : Text}
  (hhome : isAbsolute home = true)

include hhome

theorem place_point : Path.place home "./".toList = Path.place home home := by
  have hpoint : isAbsolute "./".toList = false := by decide
  have hself : Path.join home home = home := by simp [Path.join, hhome]
  rw [Path.place_eq hhome, Path.place_eq hhome, hself, Path.walk_join [] home hpoint]
  rfl

theorem allowed_start (himporter : IsImporter importer) {s : Text}
    (hs : s ∈ importStarts loadPaths importer) : Allowed home loadPaths importer s := by
  obtain ⟨p, hp, hs⟩ := mem_flatMap.mp hs
  -- What lies below the load path `p` is allowed.
  have hbelow : LiesBelow home p s → Allowed home loadPaths importer s := by
    intro h
    rcases mem_cons.mp hp with rfl | hp
    · rw [LiesBelow, place_point hhome] at h
      exact .inl h
    · exact .inr (.inl ⟨p, hp, h⟩)
  simp only [mem_cons, not_mem_nil, or_false] at hs
  rcases hs with rfl | rfl
  · exact hbelow (Path.liesBelow_join hhome p (by decide) (by decide))
  · rcases himporter with rfl | habsolute
    · exact hbelow (Path.liesBelow_join hhome p (by decide) (by decide))
    · have hjoin : Path.join p (Path.parent importer) = Path.parent importer := by
        simp [Path.join, Path.isAbsolute_parent, habsolute]
      rw [hjoin]
      exact .inr (.inr prefix_rfl)

omit hhome in
theorem Allowed.below {p q : Text} (h : Allowed home loadPaths importer p)
    (hq : LiesBelow home p q) : Allowed home loadPaths importer q := by
  rcases h with h | ⟨d, hd, h⟩ | h
  · exact .inl (h.trans hq)
  · exact .inr (.inl ⟨d, hd, h.trans hq⟩)
  · exact .inr (.inr (h.trans hq))

omit hhome in
/-- The names under which a file may be found have one part that does not lead upwards. -/
theorem importNames_downward {base file : Text} (hslash : '/' ∉ base) (hup : base ≠ Path.up)
    (hfile : file ∈ importNames base) : isAbsolute file = false ∧ Downward file := by
  have hfile' : '/' ∉ file ∧ file ≠ Path.up := by
    have hending : ∀ t : Text, t ++ sheetEnding ≠ Path.up := by
      intro t h
      have hlast := congrArg getLast? h
      rw [getLast?_append_of_ne_nil t (by decide)] at hlast
      exact absurd hlast (by decide)
    have hmark : '/' ∉ sheetEnding := by decide
    simp only [importNames, mem_cons, not_mem_nil, or_false] at hfile
    rcases hfile with rfl | rfl | rfl | rfl
    · exact ⟨by simp [hslash, hmark], by simp [Path.up]⟩
    · exact ⟨by simp [hslash, hmark], hending base⟩
    · exact ⟨by simpa using hslash, by simp [Path.up]⟩
    · exact ⟨hslash, hup⟩
  constructor
  · cases file with
    | nil => rfl
    | cons c r => simpa [isAbsolute] using fun h : c = '/' => hfile'.1 (by simp [h])
  · rw [Downward, splitOn_of_notMem hfile'.1, mem_singleton]
    exact Ne.symm hfile'.2

/-- A relative name that does not lead upwards is looked for below the starts. -/
theorem allowed_of_mem_triedPaths (himporter : IsImporter importer)
    (hup : ¬ Path.up <:+: name) (hrelative : isAbsolute name = false) {p : Text}
    (hp : p ∈ triedPaths home loadPaths importer name) : Allowed home loadPaths importer p := by
  obtain ⟨d, hd, hp⟩ := mem_flatMap.mp hp
  obtain ⟨file, hfile, rfl⟩ := mem_map.mp hp
  rw [importDirectories_eq, mem_eraseDups] at hd
  obtain ⟨s, hs, rfl⟩ := mem_map.mp hd
  have hparent : isAbsolute (Path.parent name) = false := by rwa [Path.isAbsolute_parent]
  have hdirectory : LiesBelow home s
      (Files.pathOf (Path.place home (Path.join s (Path.parent name)))) := by
    rw [LiesBelow, Path.place_pathOf hhome (Path.proper_place hhome _)]
    exact Path.liesBelow_join hhome s hparent
      (Path.downward_of_infix hup (Path.parent_prefix name).isInfix)
  have hbase : Path.base name ≠ Path.up := fun h => hup (h ▸ (Path.base_suffix name).isInfix)
  obtain ⟨hfile, hdown⟩ := importNames_downward (Path.notMem_base name) hbase hfile
  exact ((allowed_start hhome himporter hs).below hdirectory).below
    (Path.liesBelow_join hhome _ hfile hdown)

omit hhome in
theorem eraseDups_of_all {x : Text} {l : List Text} (hne : l ≠ []) (h : ∀ y ∈ l, y = x) :
    l.eraseDups = [x] := by
  obtain ⟨y, l, rfl⟩ := exists_cons_of_ne_nil hne
  obtain rfl := h y (by simp)
  have hrest : l.filter (fun z => !z == y) = [] := by
    rw [filter_eq_nil_iff]
    intro z hz
    simp [h z (by simp [hz])]
  rw [eraseDups_cons, hrest, eraseDups_nil]

omit hhome in
theorem importDirectories_of_absolute (habsolute : isAbsolute name = true) :
    importDirectories home loadPaths importer name =
      [Files.pathOf (Path.place home (Path.parent name))] := by
  rw [importDirectories_eq]
  refine eraseDups_of_all (by simp [importStarts]) fun d hd => ?_
  obtain ⟨s, -, rfl⟩ := mem_map.mp hd
  have hjoin : Path.join s (Path.parent name) = Path.parent name := by
    simp [Path.join, Path.isAbsolute_parent, habsolute]
  rw [hjoin]

omit hhome in
theorem isAbsolute_of_mem_triedPaths {p : Text}
    (hp : p ∈ triedPaths home loadPaths importer name) : isAbsolute p = true := by
  obtain ⟨d, hd, hp⟩ := mem_flatMap.mp hp
  obtain ⟨file, _, rfl⟩ := mem_map.mp hp
  rw [importDirectories_eq, mem_eraseDups] at hd
  obtain ⟨s, _, rfl⟩ := mem_map.mp hd
  exact Path.isAbsolute_join rfl file

end Home

/-- Every name of a line that is imported at all is looked for under absolute paths.  If the name is
relative, they lie below the home directory, a load path or the directory of the importing file; if
it is absolute, they lie in its own directory. -/
theorem imports_stay_below {home : Text} {loadPaths : List Text} {importer names t : Text}
    (hhome : isAbsolute home = true) (himporter : IsImporter importer)
    (hguard : isPlainImport names = false) (ht : t ∈ Text.splitOn ',' names) :
    (∀ p ∈ triedPaths home loadPaths importer (importedName t), IsImporter p) ∧
    (isAbsolute (importedName t) = false →
      ∀ p ∈ triedPaths home loadPaths importer (importedName t),
        Allowed home loadPaths importer p) ∧
    (isAbsolute (importedName t) = true →
      importDirectories home loadPaths importer (importedName t) =
        [Files.pathOf (Path.place home (Path.parent (importedName t)))]) := by
  have hup := not_up_infix_importedName hguard ht
  refine ⟨fun p hp => .inr (isAbsolute_of_mem_triedPaths hp), fun hrelative p hp => ?_,
    importDirectories_of_absolute⟩
  exact allowed_of_mem_triedPaths hhome himporter hup hrelative hp

/-- A line with a plain name and a nested one, in a file in a directory of its own. -/
theorem imports_stay_below_nested :
    " 'parts/menu'".toList ∈ Text.splitOn ',' "base, 'parts/menu'".toList ∧
    ∀ p ∈ triedPaths "/w".toList ["lib".toList, "/usr/sheets".toList] "/w/site/main.scss".toList
        (importedName " 'parts/menu'".toList),
      Allowed "/w".toList ["lib".toList, "/usr/sheets".toList] "/w/site/main.scss".toList p := by
  have hmem : " 'parts/menu'".toList ∈ Text.splitOn ',' "base, 'parts/menu'".toList := by decide
  exact ⟨hmem, (imports_stay_below (by decide) (by decide) (by decide) hmem).2.1 (by decide)⟩

/-- An absolute name passes the guard, and is looked for outside of all that is allowed. -/
theorem absolute_import_escapes :
    isPlainImport "\"/nowhere/x\"".toList = false ∧
      importedName "\"/nowhere/x\"".toList = "/nowhere/x".toList ∧
      "/nowhere/x".toList ∈
        triedPaths "/w".toList ["/w/lib".toList] "./".toList "/nowhere/x".toList ∧
      ¬ Allowed "/w".toList ["/w/lib".toList] "./".toList "/nowhere/x".toList := by
  decide

end Compile

end SheetPress
