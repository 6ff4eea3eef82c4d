import SheetPress.Proofs.Bundle.Links
import SheetPress.Proofs.Bundle.Sources
import SheetPress.Proofs.Path.Names

/-!
# Imports of addresses

A source that is read by an address is fetched from the web.  Gathering never reads one so: the
address of an import is taken for a path that starts in the directory of the source, and all paths
that gathering looks at are absolute.  In the place of the address a file is looked for, and where
there is none this is reported (`addresses_sought_among_files`).
-/

set_option autoImplicit false

namespace SheetPress.Bundle

open List Gathering
open SheetPress.Path (isAbsolute place parent join)

/-! ## Reports -/

/-- There is a source at the path, or among the messages a report that it cannot be read. -/
def Answered (look : Text → Found) (messages : List Message) (q : Text) : Prop :=
  HasSource look q ∨ ∃ reason, look q = .unreadable reason ∧ ⟨true, reason⟩ ∈ messages

/-- Unless gathering has stopped, all paths that were looked at are answered. -/
def Reported (look : Text → Found) (g : Gathering) : Prop :=
  g.fault = none → ∀ q ∈ g.visited, Answered look g.messages q

section Reports

variable {look : Text → Found} {g g' : Gathering}

@[simp] theorem messages_visit (p : Text) : (g.visit p).messages = g.messages := by
  unfold visit
  split <;> rfl

theorem Reported.grow (h : Reported look g) (hfault : g'.fault = none → g.fault = none)
    (hmessages : ∀ m ∈ g.messages, m ∈ g'.messages)
    (hvisited : ∀ q ∈ g'.visited, q ∈ g.visited ∨ Answered look g'.messages q) :
    Reported look g' := by
  intro hnone q hq
  rcases hvisited q hq with hq | hq
  · refine (h (hfault hnone) q hq).imp_right ?_
    rintro ⟨reason, hlook, hmem⟩
    exact ⟨reason, hlook, hmessages _ hmem⟩
  · exact hq

theorem Reported.gatherAll {one : Gathering → Text → Gathering}
    (hone : ∀ g p, Reported look g → Reported look (one g p)) (h : Reported look g)
    (ps : List Text) : Reported look (gatherAll one g ps) := by
  induction ps generalizing g with
  | nil => exact h
  | cons p ps ih =>
    unfold Bundle.gatherAll
    split
    · exact h
    · exact ih (hone g p h)

theorem Reported.gather (h : Reported look g) (n : Nat) (parent : Option Text) (p : Text) :
    Reported look (gather look n parent g p) := by
  induction n generalizing parent g p with
  | zero => exact fun hfault => nomatch hfault
  | succ n ih =>
    cases hlook : look p with
    | foreign =>
      rw [gather_foreign hlook]
      exact fun hfault => nomatch hfault
    | unreadable reason =>
      rw [gather_unreadable hlook]
      refine h.grow (by simp [finish, say]) (by simp +contextual [finish, say]) fun q hq => ?_
      rcases mem_visit.mp hq with rfl | hq
      · exact .inr (.inr ⟨reason, hlook, by simp [finish, say]⟩)
      · exact .inl hq
    | source l text needed =>
      rw [gather_source hlook]
      have hvisit : Reported look (g.visit p) := by
        refine h.grow (by simp) (by simp) fun q hq => ?_
        rcases mem_visit.mp hq with rfl | hq
        · exact .inr (.inl (hasSource_of_eq hlook))
        · exact .inl hq
      have hall := hvisit.gatherAll (fun g q hg => ih hg (some p) q) ((g.visit p).unseen needed)
      refine hall.grow (by simp) (fun m hm => ?_) (by simp +contextual)
      unfold close
      split
      · exact hm
      · simp [finish, say, add, hm]

end Reports

/-! ## Addresses -/

variable {fs : Files} {places : Places} {root : Text}

theorem isAbsolute_of_leads (hhere : isAbsolute places.here = true)
    (hroot : isAbsolute root = true) {q : Text} (hq : Leads (look fs places) root q) :
    isAbsolute q = true := by
  cases hq with
  | refl => exact hroot
  | tail _ hneeds =>
    obtain ⟨r, -, rfl⟩ := exists_of_needs hneeds
    exact Path.isAbsolute_absolute hhere r

/-- An absolute path is read from the files, whatever there is on the web. -/
theorem read_of_isAbsolute {q : Text} (hq : isAbsolute q = true) (w : Workspace)
    (store : Text) :
    (Work.read q store).run w = ((w.files.read? q).elim (.error .unreadable) .ok, w) := by
  obtain ⟨r, rfl⟩ := Path.exists_eq_of_isAbsolute hq
  have hlocal : Text.startsWith ('/' :: r) "http://".toList = false := rfl
  have hget : ∀ f : Workspace → Work Text, (get >>= f).run w = (f w).run w := fun _ => rfl
  unfold Work.read
  rw [hget, hlocal]
  simp only [Bool.false_eq_true, if_false, beq_self_eq_true, Bool.true_or, if_true]
  cases w.files.read? ('/' :: r) <;> rfl

/-- An address that a source imports is sought behind the directory of the source. -/
theorem exists_needs {p u content : Text} {l : Language}
    (hhere : isAbsolute places.here = true) (hp : isAbsolute p = true)
    (hl : Language.ofPath? p = some l) (hread : fs.read? p = some content)
    (hu : u ∈ (l.splitImports content).2) (hremote : Text.startsWith u "http://".toList = true) :
    ∃ q, Needs (look fs places) p q ∧
      place places.here q = place places.here (join (parent p) u) := by
  obtain ⟨t, ht⟩ : ∃ t, t = join (parent p) u := ⟨_, rfl⟩
  have htarget : isAbsolute t = true := by
    rw [ht, Path.isAbsolute_join (by rw [Path.isAbsolute_parent, hp])]
  have hresolve : places.resolve fs (parent p) u = u := by rw [Places.resolve, if_pos hremote]
  refine ⟨Path.absolute places.here (Path.relative places.here t places.here), ?_, ?_⟩
  · simp only [Needs, look, hl, hread, Found.needed, Places.needed, mem_map]
    exact ⟨u, hu, by rw [hresolve, ht]⟩
  · rw [← ht, Path.place_absolute hhere, Path.place_eq hhere, Path.place_eq hhere,
      Path.walk_join [] _ (Path.isAbsolute_relative _ _ _), Path.walk_relative htarget hhere,
      join, if_pos htarget]

/-- Whatever gathering looks at is read from the files, and so is what it gathers.  An address that
a source imports is sought among the files, behind the directory of the source; if there is none,
nothing is gathered for it, and this is reported. -/
theorem addresses_sought_among_files (fs : Files) (places : Places) (root : Text)
    {p u content : Text} {l : Language} (hhere : isAbsolute places.here = true)
    (hroot : isAbsolute root = true) (hp : Leads (look fs places) root p)
    (hl : Language.ofPath? p = some l) (hread : fs.read? p = some content)
    (hu : u ∈ (l.splitImports content).2)
    (hremote : Text.startsWith u "http://".toList = true) :
    (∀ q, Leads (look fs places) root q → ∀ (w : Workspace) (store : Text), w.files = fs →
      (Work.read q store).run w = ((fs.read? q).elim (.error .unreadable) .ok, w)) ∧
    (∀ e ∈ (gatherFrom fs places root).entries,
      Leads (look fs places) root e.path ∧ e.IsFound (look fs places)) ∧
    ∃ q, Needs (look fs places) p q ∧
      place places.here q = place places.here (join (parent p) u) ∧
      ((gatherFrom fs places root).fault = none → fs.isFile q = false →
        q ∉ (gatherFrom fs places root).paths ∧
        ⟨true, unreadableReason fs q⟩ ∈ (gatherFrom fs places root).messages) := by
  have hgrown : Grown (look fs places) [root] {} (gatherFrom fs places root) :=
    grown_gather _ _ none {} root
  obtain ⟨new, hnew, hfound⟩ := hgrown.entries
  have hentries : ∀ e ∈ (gatherFrom fs places root).entries,
      Leads (look fs places) root e.path ∧ e.IsFound (look fs places) := by
    intro e he
    obtain ⟨-, hlook, x, hx, hleads⟩ := hfound e (by simpa [hnew] using he)
    exact ⟨mem_singleton.mp hx ▸ hleads.leads, hlook⟩
  obtain ⟨q, hneeds, hplace⟩ :=
    exists_needs hhere (isAbsolute_of_leads hhere hroot hp) hl hread hu hremote
  refine ⟨fun q hq w store hw => ?_, hentries, q, hneeds, hplace,
    fun hfault hfile => ⟨fun hq => ?_, ?_⟩⟩
  · rw [read_of_isAbsolute (isAbsolute_of_leads hhere hroot hq), hw]
  · obtain ⟨e, he, rfl⟩ := mem_map.mp hq
    simp [isFile_of_hasSource (hentries e he).2.hasSource] at hfile
  · obtain ⟨hsettled, hvisited⟩ := settled_start.gather _ none (by simp) hfault
    have hreported : Reported (look fs places) (gatherFrom fs places root) :=
      Reported.gather (by simp [Reported]) _ none root
    rcases hreported hfault q (hsettled.mem_visited hvisited (hp.tail hneeds)) with hq | hq
    · simp [isFile_of_hasSource hq] at hfile
    · obtain ⟨reason, hlook, hmem⟩ := hq
      have hreason : unreadableReason fs q = reason := by
        unfold look at hlook
        split at hlook
        · cases hlook
        · split at hlook
          · exact Found.unreadable.inj hlook
          · cases hlook
      rwa [hreason]

/-- A file that imports an address. -/
def importer : Files where
  home := "/w".toList
  entries := [(atHome "a.css", "@import url(http://h/b.css);\n".toList)]

/-- The report names the path behind the directory. -/
theorem addresses_sought_among_files_importer :
    ⟨true, unreadableReason importer (atHome "http:/h/b.css")⟩ ∈
      (gatherFrom importer homePlaces (atHome "a.css")).messages := by
  have hlook : importer.read? (atHome "a.css") = some "@import url(http://h/b.css);\n".toList ∧
      (look importer homePlaces (atHome "a.css")).needed = [atHome "http:/h/b.css"] ∧
      importer.isFile (atHome "http:/h/b.css") = false ∧
      (gatherFrom importer homePlaces (atHome "a.css")).fault = none ∧
      "http://h/b.css".toList ∈
        (Language.css.splitImports "@import url(http://h/b.css);\n".toList).2 := by
    decide +kernel
  obtain ⟨hread, hneeded, hfile, hfault, hu⟩ := hlook
  obtain ⟨-, -, q, hneeds, -, hreport⟩ := addresses_sought_among_files importer homePlaces
    (atHome "a.css") (by decide) (by decide) .refl (by decide +kernel) hread hu (by decide)
  obtain rfl : q = atHome "http:/h/b.css" := by simpa [Needs, hneeded] using hneeds
  exact (hreport hfault hfile).2

/-- The web serves the address, but nothing that is gathered comes from there. -/
theorem address_not_fetched :
    ((Work.read "http://h/b.css".toList "/w".toList).run
      { files := importer, web := [("http://h/b.css".toList, "b {}".toList)],
        library := "/lib".toList }).1.toOption = some "b {}".toList ∧
    ∀ e ∈ (gatherFrom importer homePlaces (atHome "a.css")).entries, e.source ≠ "b {}".toList := by
  decide +kernel

end SheetPress.Bundle
