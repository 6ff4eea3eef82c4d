import SheetPress.Proofs.Bundle.Gathering
import SheetPress.Proofs.Path.Normal

/-!
# Gathering files

Among files, a source needs only normal paths, and there is one normal path for each file.  So no
way through the sources is longer than there are files, but for the path that gathering starts
from and the one that cannot be read at the end.  That is the limit that `gatherFrom` sets:
gathering always comes to its end, with every file that is needed
(`needed_files_gathered_first`).  A file may be gathered twice, though
(`gathered_once_if_apart`).
-/

set_option autoImplicit false

namespace SheetPress.Bundle

open Gathering

/-! ## Files as sources -/

variable {fs : Files} {places : Places} {p q : Text}

theorem look_eq_foreign : look fs places q = .foreign ↔ Language.ofPath? q = none := by
  unfold look
  cases Language.ofPath? q with
  | none => simp
  | some l => cases fs.read? q <;> simp

theorem hasSource_iff (h : (Language.ofPath? q).isSome) :
    HasSource (look fs places) q ↔ fs.isFile q = true := by
  obtain ⟨l, hl⟩ := Option.isSome_iff_exists.mp h
  unfold HasSource look Files.isFile
  rw [hl]
  cases fs.read? q <;> simp [Found.isSource]

theorem isFile_of_hasSource (h : HasSource (look fs places) q) : fs.isFile q = true := by
  have hlanguage : (Language.ofPath? q).isSome := by
    rw [Option.isSome_iff_ne_none]
    intro hnone
    rw [HasSource, look_eq_foreign.mpr hnone] at h
    cases h
  exact (hasSource_iff hlanguage).mp h

/-- A needed path is the normal path of some way from the home directory. -/
theorem exists_of_needs (h : Needs (look fs places) p q) :
    ∃ r, Path.isAbsolute r = false ∧ q = Path.absolute places.here r := by
  unfold Needs look at h
  cases hl : Language.ofPath? p with
  | none => simp [hl, Found.needed] at h
  | some l =>
    cases hread : fs.read? p with
    | none => simp [hl, hread, Found.needed] at h
    | some content =>
      simp only [hl, hread, Found.needed, Places.needed, List.mem_map] at h
      obtain ⟨name, -, rfl⟩ := h
      exact ⟨_, Path.isAbsolute_relative _ _ _, rfl⟩

/-- The paths at which there can be a source: the start and the normal paths of the files. -/
def sourcePaths (fs : Files) (places : Places) (root : Text) : List Text :=
  root :: fs.entries.map fun e => Path.leading places.here ++ e.1.tail

theorem mem_sourcePaths {root : Text} (hhere : Path.isAbsolute places.here = true)
    (hq : Leads (look fs places) root q) (hsource : HasSource (look fs places) q) :
    q ∈ sourcePaths fs places root := by
  cases hq with
  | refl => simp [sourcePaths]
  | tail _ hstep =>
    obtain ⟨r, hr, rfl⟩ := exists_of_needs hstep
    obtain ⟨content, hread⟩ := Option.isSome_iff_exists.mp (isFile_of_hasSource hsource)
    obtain ⟨e, he, heq⟩ := Files.exists_entry_of_read hhere hr hread
    rw [sourcePaths, heq]
    exact List.mem_cons_of_mem _ (List.mem_map.mpr ⟨e, he, rfl⟩)

/-! ## All needed files, in their order -/

/-- Gathering ends, whatever the limit, if it is as high as `gatherFrom` sets it; it gathers
exactly the files that the start leads to, each with what was found there; and each file stands
behind the files that it needs, unless they lead back to it. -/
theorem needed_files_gathered_first (fs : Files) (places : Places) (root : Text)
    (hhere : Path.isAbsolute places.here = true)
    (hlanguage : ∀ q, Leads (look fs places) root q → (Language.ofPath? q).isSome) :
    (gatherFrom fs places root).fault = none ∧
    (∀ n, fs.entries.length + 2 ≤ n →
      gather (look fs places) n none {} root = gatherFrom fs places root) ∧
    (∀ q, q ∈ (gatherFrom fs places root).paths ↔
      Leads (look fs places) root q ∧ fs.isFile q = true) ∧
    (∀ e ∈ (gatherFrom fs places root).entries, e.IsFound (look fs places)) ∧
    ∀ f ∈ (gatherFrom fs places root).paths, ∀ g, Needs (look fs places) f g →
      fs.isFile g = true → ¬ Leads (look fs places) g f →
      (gatherFrom fs places root).paths.idxOf g < (gatherFrom fs places root).paths.idxOf f := by
  have hforeign : ∀ q, Leads (look fs places) root q → look fs places q ≠ .foreign := by
    intro q hq hforeign
    have hsome := hlanguage q hq
    rw [look_eq_foreign.mp hforeign] at hsome
    cases hsome
  obtain ⟨g, hfault, heq⟩ : ∃ g : Gathering, g.fault = none ∧
      ∀ n, others (sourcePaths fs places root) [] < n →
        gather (look fs places) n none {} root = g :=
    exists_gather_eq (fun q => mem_sourcePaths hhere) hforeign none .refl (by simp) (by simp) rfl
  have hothers : others (sourcePaths fs places root) [] = fs.entries.length + 1 := by
    simp [others, sourcePaths]
  have hlimit : ∀ n, fs.entries.length + 2 ≤ n → gather (look fs places) n none {} root = g :=
    fun n hn => heq n (by omega)
  have hfrom : gatherFrom fs places root = g := hlimit _ le_rfl
  have hstart : Settled (look fs places) [] {} := settled_start
  obtain ⟨hsettled, hroot⟩ := hstart.gather (fs.entries.length + 2) none (by simp)
    (by rw [hlimit _ le_rfl]; exact hfault)
  have hgrown : Grown (look fs places) [root] {}
      (gather (look fs places) (fs.entries.length + 2) none {} root) :=
    grown_gather _ _ none {} root
  obtain ⟨new, hnew, hfound⟩ := hgrown.entries
  rw [hlimit _ le_rfl] at hsettled hroot hnew
  rw [List.nil_append] at hnew
  rw [hfrom]
  refine ⟨hfault, hlimit, fun q => ⟨fun hq => ?_, fun hq => ?_⟩, fun e he => ?_, ?_⟩
  · obtain ⟨e, he, rfl⟩ := List.mem_map.mp hq
    obtain ⟨-, hlook, x, hx, hleads⟩ := hfound e (hnew ▸ he)
    obtain rfl : x = root := by simpa using hx
    exact ⟨hleads.leads, isFile_of_hasSource hlook.hasSource⟩
  · obtain ⟨hq, hfile⟩ := hq
    have hsource : HasSource (look fs places) q := (hasSource_iff (hlanguage q hq)).mpr hfile
    simpa using hsettled.done q (hsettled.mem_visited hroot hq) hsource
  · exact (hfound e (hnew ▸ he)).2.1
  · intro f hf x hneeds hfile hback
    have hleads : Leads (look fs places) root f := by
      obtain ⟨e, he, rfl⟩ := List.mem_map.mp hf
      obtain ⟨-, -, y, hy, hleads⟩ := hfound e (hnew ▸ he)
      obtain rfl : y = root := by simpa using hy
      exact hleads.leads
    have hsource : HasSource (look fs places) x :=
      (hasSource_iff (hlanguage x (hleads.tail hneeds))).mpr hfile
    exact hsettled.ordered f hf x hneeds hsource hback

/-- Places without a directory of the user's own. -/
def homePlaces : Places := ⟨"/w".toList, "/lib".toList, none⟩

/-- The path of a file at home. -/
def atHome (name : String) : Text := "/w/".toList ++ name.toList

/-- Two files that need each other, and a third one that both need; one needs itself, too. -/
def ring : Files where
  home := "/w".toList
  entries :=
    [ (atHome "a.css", "@import url(a.css);\n@import url(b.css);\n@import url(c.js);\n".toList),
      (atHome "b.css", "@import url(a.css);\n@import url(c.js);\n".toList),
      (atHome "c.js", "c;".toList) ]

/-- In the ring the file that the others need comes first. -/
theorem needed_files_gathered_first_ring :
    (gatherFrom ring homePlaces (atHome "a.css")).fault = none ∧
    atHome "b.css" ∈ (gatherFrom ring homePlaces (atHome "a.css")).paths ∧
    (gatherFrom ring homePlaces (atHome "a.css")).paths.idxOf (atHome "c.js") <
      (gatherFrom ring homePlaces (atHome "a.css")).paths.idxOf (atHome "b.css") := by
  have hring : (look ring homePlaces (atHome "a.css")).needed =
        [atHome "a.css", atHome "b.css", atHome "c.js"] ∧
      (look ring homePlaces (atHome "b.css")).needed = [atHome "a.css", atHome "c.js"] ∧
      (look ring homePlaces (atHome "c.js")).needed = [] ∧
      ring.isFile (atHome "b.css") = true ∧ ring.isFile (atHome "c.js") = true ∧
      ∀ q ∈ [atHome "a.css", atHome "b.css", atHome "c.js"], (Language.ofPath? q).isSome := by
    decide +kernel
  obtain ⟨ha, hb, hc, hfile, hfile', hlanguage⟩ := hring
  obtain ⟨hfault, -, hpaths, -, hordered⟩ := needed_files_gathered_first ring homePlaces
    (atHome "a.css") (by decide) fun q hq => hlanguage q (hq.mem (by simp [ha, hb, hc]) (by simp))
  have hneeds : Needs (look ring homePlaces) (atHome "a.css") (atHome "b.css") := by
    simp [Needs, ha]
  have hgathered := (hpaths (atHome "b.css")).mpr ⟨.single hneeds, hfile⟩
  refine ⟨hfault, hgathered, hordered _ hgathered _ (by simp [Needs, hb]) hfile' fun hback => ?_⟩
  have hmem : atHome "b.css" ∈ [atHome "c.js"] := hback.mem (by simp [hc]) (by simp)
  exact absurd hmem (by decide)

/-! ## A file twice -/

/-- No path is gathered twice if what each source needs is apart.  If what the start itself needs
is not apart, then one is. -/
theorem gathered_once_if_apart (fs : Files) (places : Places) (root : Text) :
    ((∀ p, Leads (Bundle.look fs places) root p → Apart (Bundle.look fs places) p) →
      (gatherFrom fs places root).paths.Nodup) ∧
    ((gatherFrom fs places root).fault = none → ¬ Apart (Bundle.look fs places) root →
      ¬ (gatherFrom fs places root).paths.Nodup) := by
  refine ⟨fun hapart => ?_, fun hfault hapart => not_nodup_of_not_apart _ hfault hapart⟩
  exact nodup_gather hapart _ none .refl (by simp [paths]) (by simp [paths]) (by simp [paths])

/-- A file that needs two others. -/
def fork : Files where
  home := "/w".toList
  entries :=
    [ (atHome "a.css", "@import url(b.css);\n@import url(c.css);\n".toList),
      (atHome "b.css", "b {}".toList),
      (atHome "c.css", "c {}".toList) ]

/-- A file that needs two others, the first of which needs the second. -/
def diamond : Files where
  home := "/w".toList
  entries :=
    [ (atHome "a.css", "@import url(b.css);\n@import url(c.css);\n".toList),
      (atHome "b.css", "@import url(c.css);\n".toList),
      (atHome "c.css", "c {}".toList) ]

/-- In the fork no file is gathered twice; in the diamond one is. -/
theorem gathered_once_if_apart_fork :
    (gatherFrom fork homePlaces (atHome "a.css")).paths.Nodup ∧
      ¬ (gatherFrom diamond homePlaces (atHome "a.css")).paths.Nodup := by
  have hfork : (look fork homePlaces (atHome "a.css")).needed = [atHome "b.css", atHome "c.css"] ∧
      (look fork homePlaces (atHome "b.css")).needed = [] ∧
      (look fork homePlaces (atHome "c.css")).needed = [] := by
    decide +kernel
  obtain ⟨ha, hb, hc⟩ := hfork
  have hdiamond : (look diamond homePlaces (atHome "a.css")).needed =
        [atHome "b.css", atHome "c.css"] ∧
      Needs (look diamond homePlaces) (atHome "b.css") (atHome "c.css") ∧
      HasSource (look diamond homePlaces) (atHome "c.css") ∧
      (gatherFrom diamond homePlaces (atHome "a.css")).fault = none := by
    decide +kernel
  obtain ⟨ha', hneeds, hsource, hfault⟩ := hdiamond
  have hrow : [atHome "b.css", atHome "c.css"].filter (· ≠ atHome "a.css") =
      [atHome "b.css", atHome "c.css"] := by
    decide
  refine ⟨(gathered_once_if_apart fork homePlaces (atHome "a.css")).1 fun q hq => ?_,
    (gathered_once_if_apart diamond homePlaces (atHome "a.css")).2 hfault fun hapart => ?_⟩
  · have hmem : q ∈ [atHome "a.css", atHome "b.css", atHome "c.css"] :=
      hq.mem (by simp [ha, hb, hc]) (by simp)
    simp only [List.mem_cons, List.not_mem_nil, or_false] at hmem
    rcases hmem with rfl | rfl | rfl
    · rw [Apart, ha, hrow, List.pairwise_pair]
      intro _ hleads
      have hmem : atHome "c.css" ∈ [atHome "b.css"] := hleads.leads.mem (by simp [hb]) (by simp)
      exact absurd hmem (by decide)
    · simp [Apart, hb]
    · simp [Apart, hc]
  · rw [Apart, ha', hrow, List.pairwise_pair] at hapart
    exact hapart hsource (.single ⟨hneeds, by decide⟩)

/-- The file that both others need is gathered twice. -/
theorem diamond_gathers_twice :
    (gatherFrom diamond homePlaces (atHome "a.css")).paths =
      [atHome "c.css", atHome "b.css", atHome "c.css", atHome "a.css"] := by
  decide +kernel

end SheetPress.Bundle
