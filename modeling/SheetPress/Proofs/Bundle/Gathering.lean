import Mathlib
import SheetPress.Bundle.Gather

/-!
# What gathering does

Gathering goes through the sources depth first.  Which needed paths are followed is settled when
a source is looked at, so a path may be entered again that was entered in the meantime.  Still,
each path on the way from the start to the present one is entered for the first time since the
paths above it, and that is enough: no way is longer than there are sources
(`exists_gather_eq`), all that is needed is found, and in its order (`Settled.gather`).  What may
happen is that a path is gathered twice; `nodup_gather` says when it does not.
-/

set_option autoImplicit false

namespace SheetPress.Bundle

open List

variable {l : Language} {a ps : List Text} {g g' : Gathering} {root : Text}

/-! ## Ways through the sources -/

namespace Found

/-- A source was found. -/
def isSource : Found → Bool
  | .source _ _ _ => true
  | _ => false

/-- The paths that what was found needs. -/
def needed : Found → List Text
  | .source _ _ needed => needed
  | _ => []

end Found

section Ways

variable (look : Text → Found)

/-- There is a source at the path. -/
def HasSource (p : Text) : Prop := (look p).isSource = true

/-- The source at `p` needs `q`. -/
def Needs (p q : Text) : Prop := q ∈ (look p).needed

/-- `p` needs `q`, directly or through other sources, or is the same path. -/
def Leads : Text → Text → Prop := Relation.ReflTransGen (Needs look)

/-- The same, on a way that does not come to any of the paths `avoided`. -/
def LeadsPast (avoided : List Text) : Text → Text → Prop :=
  Relation.ReflTransGen fun p q => Needs look p q ∧ q ∉ avoided

/-- What the source at a path needs can be gathered path by path: none of it is needed by what
comes before it, unless through the source itself. -/
def Apart (p : Text) : Prop :=
  ((look p).needed.filter (· ≠ p)).Pairwise fun x y => HasSource look y → ¬ LeadsPast look [p] x y

instance (p : Text) : Decidable (HasSource look p) :=
  inferInstanceAs (Decidable ((look p).isSource = true))

instance (p q : Text) : Decidable (Needs look p q) :=
  inferInstanceAs (Decidable (q ∈ (look p).needed))

end Ways

variable {look : Text → Found} {p q : Text}

variable {needed known : List Text} {one : Gathering → Text → Gathering}

theorem hasSource_of_eq {text : Text} (h : look p = .source l text needed) : HasSource look p := by
  rw [HasSource, h, Found.isSource]

theorem HasSource.exists_eq (h : HasSource look p) :
    ∃ l text needed, look p = .source l text needed := by
  unfold HasSource at h
  cases hlook : look p with
  | foreign => simp [hlook, Found.isSource] at h
  | unreadable reason => simp [hlook, Found.isSource] at h
  | source l text needed => exact ⟨l, text, needed, rfl⟩

theorem needs_iff {text : Text} (h : look p = .source l text needed) :
    Needs look p q ↔ q ∈ needed := by
  rw [Needs, h, Found.needed]

theorem Needs.hasSource (h : Needs look p q) : HasSource look p := by
  unfold Needs at h
  cases hlook : look p with
  | foreign => simp [hlook, Found.needed] at h
  | unreadable reason => simp [hlook, Found.needed] at h
  | source l text needed => exact hasSource_of_eq hlook

/-- What starts in a set of paths that need only paths of the set stays in it. -/
theorem Leads.mem (hknown : ∀ x ∈ known, ∀ y ∈ (look x).needed, y ∈ known) (hp : p ∈ known)
    (h : Leads look p q) : q ∈ known := by
  induction h with
  | refl => exact hp
  | tail _ hstep ih => exact hknown _ ih _ hstep

theorem LeadsPast.mono {b : List Text} (hab : ∀ x ∈ b, x ∈ a) (h : LeadsPast look a p q) :
    LeadsPast look b p q :=
  Relation.ReflTransGen.mono (fun _ _ hstep => ⟨hstep.1, fun hx => hstep.2 (hab _ hx)⟩) p q h

theorem LeadsPast.leads (h : LeadsPast look a p q) : Leads look p q :=
  Relation.ReflTransGen.mono (fun _ _ hstep => hstep.1) p q h

theorem LeadsPast.notMem (h : LeadsPast look a p q) (hp : p ∉ a) : q ∉ a := by
  induction h with
  | refl => exact hp
  | tail _ hstep _ => exact hstep.2

/-! ## Gathering, case by case -/

namespace Gathering

/-- The paths that were gathered. -/
def paths (g : Gathering) : List Text := g.entries.map Entry.path

/-- The needed paths that were not looked at. -/
def unseen (g : Gathering) (needed : List Text) : List Text :=
  needed.filter fun q => !g.visited.contains q

/-- Add a source behind what it needs, unless gathering has stopped. -/
def close (g : Gathering) (e : Entry) : Gathering :=
  match g.fault with
  | some _ => g
  | none => (g.add e).finish e.path

variable {g : Gathering} {e : Entry}

theorem mem_unseen : q ∈ g.unseen needed ↔ q ∈ needed ∧ q ∉ g.visited := by
  simp [unseen]

@[simp] theorem mem_visit : q ∈ (g.visit p).visited ↔ q = p ∨ q ∈ g.visited := by
  unfold visit
  split
  next h =>
    have hp : p ∈ g.visited := by simpa using h
    exact ⟨.inr, fun hq => hq.elim (fun heq => heq ▸ hp) id⟩
  next => simp

@[simp] theorem entries_visit : (g.visit p).entries = g.entries := by
  unfold visit
  split <;> rfl

@[simp] theorem fault_visit : (g.visit p).fault = g.fault := by
  unfold visit
  split <;> rfl

@[simp] theorem paths_visit : (g.visit p).paths = g.paths := by
  rw [paths, entries_visit, paths]

@[simp] theorem paths_close_of_none (h : g.fault = none) :
    (g.close e).paths = g.paths ++ [e.path] := by
  simp [close, h, finish, add, say, paths]

theorem close_of_some {f : Fault} (h : g.fault = some f) : g.close e = g := by
  simp [close, h]

@[simp] theorem visited_close : (g.close e).visited = g.visited := by
  unfold close
  cases g.fault <;> rfl

@[simp] theorem fault_close : (g.close e).fault = g.fault := by
  unfold close
  cases h : g.fault <;> exact h

theorem gatherAll_of_some {f : Fault} (hfault : g.fault = some f) (ps : List Text) :
    gatherAll one g ps = g := by
  cases ps <;> simp [gatherAll, hfault]

theorem fault_of_gatherAll (h : (gatherAll one g ps).fault = none) : g.fault = none := by
  cases hfault : g.fault with
  | none => rfl
  | some f => exact absurd (hfault.symm.trans (gatherAll_of_some hfault ps ▸ h)) (by simp)

theorem gatherAll_cons (hfault : g.fault = none) (rest : List Text) :
    gatherAll one g (p :: rest) = gatherAll one (one g p) rest := by
  simp [gatherAll, hfault]

end Gathering

open Gathering

theorem gather_foreign (h : look p = .foreign) (n : Nat) (parent : Option Text) (g : Gathering) :
    gather look (n + 1) parent g p = { g.visit p with fault := some .missingPart } := by
  simp only [gather, h]

theorem gather_unreadable {reason : Text} (h : look p = .unreadable reason) (n : Nat)
    (parent : Option Text) (g : Gathering) :
    gather look (n + 1) parent g p = ((g.visit p).say true reason).finish p := by
  simp only [gather, h]

theorem gather_source {text : Text} (h : look p = .source l text needed) (n : Nat)
    (parent : Option Text) (g : Gathering) :
    gather look (n + 1) parent g p =
      (gatherAll (gather look n (some p)) (g.visit p) ((g.visit p).unseen needed)).close
        ⟨p, parent, l, text⟩ := by
  simp only [gather, h]
  rfl

/-! ## What a step adds -/

/-- The entry holds what is found at its path. -/
def Entry.IsFound (look : Text → Found) (e : Entry) : Prop :=
  ∃ needed, look e.path = .source e.language e.source needed

theorem Entry.IsFound.hasSource {e : Entry} (h : e.IsFound look) : HasSource look e.path := by
  obtain ⟨needed, hlook⟩ := h
  exact hasSource_of_eq hlook

/-- What gathering from the paths `ps` has added: paths that were looked at, and behind the old
entries new ones, each found on a way from `ps` that comes only to paths not looked at before. -/
structure Grown (look : Text → Found) (ps : List Text) (g g' : Gathering) : Prop where
  visited : ∀ q ∈ g.visited, q ∈ g'.visited
  entries : ∃ new, g'.entries = g.entries ++ new ∧ ∀ e ∈ new,
    e.path ∈ g'.visited ∧ e.IsFound look ∧ ∃ p ∈ ps, LeadsPast look g.visited p e.path

namespace Grown

variable {g g₁ g₂ : Gathering}

theorem same (hvisited : ∀ q ∈ g.visited, q ∈ g₁.visited) (hentries : g₁.entries = g.entries) :
    Grown look ps g g₁ :=
  ⟨hvisited, [], by simpa using hentries, by simp⟩

theorem cons {rest : List Text} (h : Grown look [p] g g₁) (h' : Grown look rest g₁ g₂) :
    Grown look (p :: rest) g g₂ := by
  obtain ⟨new, hnew, hfound⟩ := h.entries
  obtain ⟨more, hmore, hfound'⟩ := h'.entries
  refine ⟨fun q hq => h'.visited q (h.visited q hq), new ++ more, ?_, fun e he => ?_⟩
  · rw [hmore, hnew, append_assoc]
  · rcases mem_append.mp he with he | he
    · obtain ⟨hvisited, hlook, x, hx, hleads⟩ := hfound e he
      obtain rfl : x = p := by simpa using hx
      exact ⟨h'.visited _ hvisited, hlook, x, by simp, hleads⟩
    · obtain ⟨hvisited, hlook, x, hx, hleads⟩ := hfound' e he
      exact ⟨hvisited, hlook, x, by simp [hx], hleads.mono h.visited⟩

theorem all (hone : ∀ g p, Grown look [p] g (one g p)) (g : Gathering) (ps : List Text) :
    Grown look ps g (gatherAll one g ps) := by
  induction ps generalizing g with
  | nil => exact same (fun _ hq => hq) rfl
  | cons p rest ih =>
    cases hfault : g.fault with
    | none =>
      rw [gatherAll_cons hfault]
      exact (hone g p).cons (ih _)
    | some f =>
      rw [gatherAll_of_some hfault]
      exact same (fun _ hq => hq) rfl

theorem close {text : Text} (hlook : look p = .source l text needed) (parent : Option Text)
    (h : Grown look ((g.visit p).unseen needed) (g.visit p) g₁) :
    Grown look [p] g (g₁.close ⟨p, parent, l, text⟩) := by
  obtain ⟨new, hnew, hfound⟩ := h.entries
  have hold : ∀ q ∈ g.visited, q ∈ (g.visit p).visited := fun q hq => by simp [hq]
  -- What was found on the way from a needed path was found on the way from `p`.
  have hway : ∀ e ∈ new, e.path ∈ g₁.visited ∧ e.IsFound look ∧
      ∃ x ∈ [p], LeadsPast look g.visited x e.path := by
    intro e he
    obtain ⟨hvisited, hlook', x, hx, hleads⟩ := hfound e he
    obtain ⟨hneeded, hunseen⟩ := mem_unseen.mp hx
    have hstep : Needs look p x ∧ x ∉ g.visited :=
      ⟨(needs_iff hlook).mpr hneeded, fun hmem => hunseen (hold x hmem)⟩
    exact ⟨hvisited, hlook', p, by simp, (hleads.mono hold).head hstep⟩
  refine ⟨fun q hq => by simpa using h.visited q (hold q hq), ?_⟩
  cases hfault : g₁.fault with
  | some f =>
    rw [close_of_some hfault]
    exact ⟨new, by simpa using hnew, hway⟩
  | none =>
    refine ⟨new ++ [⟨p, parent, l, text⟩], ?_, fun e he => ?_⟩
    · simp [Gathering.close, hfault, finish, add, say, hnew]
    · rw [visited_close]
      rcases mem_append.mp he with he | he
      · exact hway e he
      · obtain rfl := mem_singleton.mp he
        exact ⟨h.visited p (by simp), ⟨needed, hlook⟩, p, by simp, .refl⟩

end Grown

theorem grown_gather (look : Text → Found) (n : Nat) (parent : Option Text) (g : Gathering)
    (p : Text) :
    Grown look [p] g (gather look n parent g p) := by
  induction n generalizing parent g p with
  | zero => exact .same (fun _ hq => hq) rfl
  | succ n ih =>
    cases hlook : look p with
    | foreign =>
      rw [gather_foreign hlook]
      exact .same (fun q hq => by simp [hq]) (by simp)
    | unreadable reason =>
      rw [gather_unreadable hlook]
      exact .same (fun q hq => by simp [finish, say, hq]) (by simp [finish, say])
    | source l text needed =>
      rw [gather_source hlook]
      exact .close hlook parent (.all (fun g x => ih (some p) g x) _ _)

/-- A path that was gathered was gathered before, or is a new one that was found. -/
theorem Grown.mem_paths (h : Grown look ps g g') (hq : q ∈ g'.paths) :
    q ∈ g.paths ∨ (q ∈ g'.visited ∧ HasSource look q ∧ ∃ p ∈ ps, LeadsPast look g.visited p q) := by
  obtain ⟨new, hnew, hfound⟩ := h.entries
  rw [paths, hnew, map_append] at hq
  refine (mem_append.mp hq).imp_right fun hq => ?_
  obtain ⟨e, he, rfl⟩ := mem_map.mp hq
  exact (hfound e he).imp_right (And.imp_left Entry.IsFound.hasSource)

theorem Grown.looked (h : Grown look ps g g')
    (hg : ∀ q ∈ g.paths, q ∈ g.visited) : ∀ q ∈ g'.paths, q ∈ g'.visited := fun q hq =>
  (h.mem_paths hq).elim (fun hq => h.visited q (hg q hq)) And.left

/-! ## Each path once -/

/-- The paths can be gathered one after the other: none of them was gathered, and what comes
before a source does not lead to it past `p`. -/
structure Ready (look : Text → Found) (p : Text) (g : Gathering) (ps : List Text) : Prop where
  nodup : g.paths.Nodup
  looked : ∀ q ∈ g.paths, q ∈ g.visited
  entered : p ∈ g.visited
  fresh : ∀ x ∈ ps, x ∉ g.paths
  apart : ps.Pairwise fun x y => HasSource look y → ¬ LeadsPast look [p] x y

theorem Ready.next {x : Text} {rest : List Text}
    (h : Ready look p g (x :: rest)) (hgrown : Grown look [x] g g') (hnodup : g'.paths.Nodup) :
    Ready look p g' rest where
  nodup := hnodup
  looked := hgrown.looked h.looked
  entered := hgrown.visited p h.entered
  fresh := by
    intro y hy hmem
    rcases hgrown.mem_paths hmem with hmem | ⟨-, hsource, z, hz, hleads⟩
    · exact h.fresh y (by simp [hy]) hmem
    · obtain rfl : z = x := by simpa using hz
      refine (pairwise_cons.mp h.apart).1 y hy hsource (hleads.mono ?_)
      intro q hq
      rw [mem_singleton.mp hq]
      exact h.entered
  apart := (pairwise_cons.mp h.apart).2

theorem Ready.nodup_all (hgrown : ∀ g x, Grown look [x] g (one g x))
    (hone : ∀ x ∈ ps, ∀ g : Gathering, g.paths.Nodup → (∀ q ∈ g.paths, q ∈ g.visited) →
      x ∉ g.paths → (one g x).paths.Nodup) (h : Ready look p g ps) :
    (gatherAll one g ps).paths.Nodup := by
  induction ps generalizing g with
  | nil => exact h.nodup
  | cons x rest ih =>
    cases hfault : g.fault with
    | none =>
      rw [gatherAll_cons hfault]
      have hx := hone x (by simp) g h.nodup h.looked (h.fresh x (by simp))
      exact ih (fun y hy => hone y (by simp [hy])) (h.next (hgrown g x) hx)
    | some f =>
      rw [gatherAll_of_some hfault]
      exact h.nodup

/-- If the needed paths of all sources are apart, no path is gathered twice. -/
theorem nodup_gather (hapart : ∀ q, Leads look root q → Apart look q) (n : Nat)
    (parent : Option Text) (hp : Leads look root p) (hnodup : g.paths.Nodup)
    (hlooked : ∀ q ∈ g.paths, q ∈ g.visited) (hfresh : p ∉ g.paths) :
    (gather look n parent g p).paths.Nodup := by
  induction n generalizing parent g p with
  | zero => exact hnodup
  | succ n ih =>
    cases hlook : look p with
    | foreign =>
      rw [gather_foreign hlook]
      simpa [paths] using hnodup
    | unreadable reason =>
      rw [gather_unreadable hlook]
      simpa [paths, finish, say] using hnodup
    | source l text needed =>
      rw [gather_source hlook]
      have hunseen : ∀ x ∈ (g.visit p).unseen needed, x ∈ needed ∧ x ≠ p ∧ x ∉ g.paths := by
        intro x hx
        obtain ⟨hneeded, hunseen⟩ := mem_unseen.mp hx
        rw [mem_visit, not_or] at hunseen
        exact ⟨hneeded, hunseen.1, fun hmem => hunseen.2 (hlooked x hmem)⟩
      have hready : Ready look p (g.visit p) ((g.visit p).unseen needed) := by
        refine ⟨by simpa using hnodup, fun q hq => ?_, by simp, fun x hx => ?_, ?_⟩
        · rw [paths_visit] at hq
          simp [hlooked q hq]
        · simpa using (hunseen x hx).2.2
        · have hpairs := hapart p hp
          rw [Apart, hlook, Found.needed] at hpairs
          refine hpairs.sublist ?_
          have hsame : (g.visit p).unseen needed =
              ((needed.filter (· ≠ p)).filter fun q => !(g.visit p).visited.contains q) := by
            rw [filter_filter, unseen]
            refine filter_congr fun q _ => ?_
            by_cases hq : q = p <;> simp [hq]
          rw [hsame]
          exact filter_sublist
      have hall := hready.nodup_all (grown_gather look n (some p)) fun x hx g hg hlooked hfresh =>
        ih (some p) (hp.tail ((needs_iff hlook).mpr (hunseen x hx).1)) hg hlooked hfresh
      cases hfault : (gatherAll (gather look n (some p)) (g.visit p)
          ((g.visit p).unseen needed)).fault with
      | some f =>
        rw [close_of_some hfault]
        exact hall
      | none =>
        rw [paths_close_of_none hfault]
        refine nodup_append.mpr ⟨hall, by simp, ?_⟩
        -- The source itself is not found among what it needs, as it was looked at.
        rintro q hq _ hmem rfl
        obtain rfl : p = q := (mem_singleton.mp hmem).symm
        have hgrown :=
          Grown.all (grown_gather look n (some p)) (g.visit p) ((g.visit p).unseen needed)
        rcases hgrown.mem_paths hq with hq | ⟨-, -, x, hx, hleads⟩
        · exact hfresh (paths_visit ▸ hq)
        · exact hleads.notMem (mem_unseen.mp hx).2 (by simp)

/-! ## All that is needed, in its order -/

/-- What holds of a gathering while the paths `above` are still open: a source that was looked at
is open or gathered, what a gathered source needs was looked at, and stands before it unless it
leads back to it. -/
structure Settled (look : Text → Found) (above : List Text) (g : Gathering) : Prop where
  done : ∀ q ∈ g.visited, HasSource look q → q ∈ above ∨ q ∈ g.paths
  closed : ∀ q ∈ g.paths, ∀ x, Needs look q x → x ∈ g.visited
  ordered : ∀ q ∈ g.paths, ∀ x, Needs look q x → HasSource look x → ¬ Leads look x q →
    g.paths.idxOf x < g.paths.idxOf q

namespace Settled

variable {above : List Text} {g : Gathering}

theorem visit (h : Settled look above g) (p : Text) : Settled look (p :: above) (g.visit p) where
  done := by
    intro q hq hsource
    rcases mem_visit.mp hq with rfl | hq
    · simp
    · rcases h.done q hq hsource with hq | hq
      · simp [hq]
      · simp [hq]
  closed := by
    intro q hq x hx
    rw [paths_visit] at hq
    simp [h.closed q hq x hx]
  ordered := by simpa using h.ordered

theorem visit_of_not_hasSource (h : Settled look above g) (hp : ¬ HasSource look p) :
    Settled look above (g.visit p) where
  done := by
    intro q hq hsource
    rcases mem_visit.mp hq with rfl | hq
    · exact absurd hsource hp
    · simpa using h.done q hq hsource
  closed := (h.visit p).closed
  ordered := (h.visit p).ordered

theorem close {text : Text} {parent : Option Text} (hlook : look p = .source l text needed)
    (habove : ∀ a ∈ above, Leads look a p) (h : Settled look (p :: above) g)
    (hfault : g.fault = none) (hneeded : ∀ x ∈ needed, x ∈ g.visited) :
    Settled look above (g.close ⟨p, parent, l, text⟩) := by
  have hpaths : (g.close ⟨p, parent, l, text⟩).paths = g.paths ++ [p] := paths_close_of_none hfault
  refine ⟨fun q hq hsource => ?_, fun q hq x hx => ?_, fun q hq x hx hsource hback => ?_⟩
  · rw [visited_close] at hq
    rw [hpaths]
    rcases h.done q hq hsource with hq | hq
    · rcases mem_cons.mp hq with rfl | hq
      · simp
      · exact .inl hq
    · simp [hq]
  · rw [visited_close]
    rw [hpaths] at hq
    rcases mem_append.mp hq with hq | hq
    · exact h.closed q hq x hx
    · obtain rfl := mem_singleton.mp hq
      exact hneeded x ((needs_iff hlook).mp hx)
  · rw [hpaths] at hq ⊢
    by_cases hold : q ∈ g.paths
    · have hlt := h.ordered q hold x hx hsource hback
      have hxold : x ∈ g.paths :=
        idxOf_lt_length_iff.mp (hlt.trans (idxOf_lt_length_iff.mpr hold))
      rwa [idxOf_append_of_mem hold, idxOf_append_of_mem hxold]
    · obtain rfl : q = p := by simpa [hold] using hq
      have hvisited := hneeded x ((needs_iff hlook).mp hx)
      -- A needed source that is still open leads to this one.
      have hxold : x ∈ g.paths := by
        rcases h.done x hvisited hsource with hopen | hxold
        · rcases mem_cons.mp hopen with rfl | hopen
          · exact absurd .refl hback
          · exact absurd (habove x hopen) hback
        · exact hxold
      rw [idxOf_append_of_mem hxold, idxOf_append_of_notMem hold]
      exact Nat.lt_add_right _ (idxOf_lt_length_iff.mpr hxold)

theorem all (hgrown : ∀ g x, Grown look [x] g (one g x))
    (hone : ∀ x ∈ ps, ∀ g, Settled look above g → (one g x).fault = none →
      Settled look above (one g x) ∧ x ∈ (one g x).visited) (h : Settled look above g)
    (hfault : (gatherAll one g ps).fault = none) :
    Settled look above (gatherAll one g ps) ∧ ∀ x ∈ ps, x ∈ (gatherAll one g ps).visited := by
  induction ps generalizing g with
  | nil => exact ⟨h, by simp⟩
  | cons x rest ih =>
    have hnone := fault_of_gatherAll hfault
    rw [gatherAll_cons hnone] at hfault ⊢
    obtain ⟨hsettled, hvisited⟩ := hone x (by simp) g h (fault_of_gatherAll hfault)
    obtain ⟨hrest, hmore⟩ := ih (fun y hy => hone y (by simp [hy])) hsettled hfault
    refine ⟨hrest, fun y hy => ?_⟩
    rcases mem_cons.mp hy with rfl | hy
    · exact (Grown.all hgrown _ rest).visited y hvisited
    · exact hmore y hy

theorem gather (n : Nat) (parent : Option Text) (habove : ∀ a ∈ above, Leads look a p)
    (h : Settled look above g) (hfault : (gather look n parent g p).fault = none) :
    Settled look above (gather look n parent g p) ∧ p ∈ (gather look n parent g p).visited := by
  induction n generalizing parent above g p with
  | zero => cases hfault
  | succ n ih =>
    cases hlook : look p with
    | foreign =>
      rw [gather_foreign hlook] at hfault
      cases hfault
    | unreadable reason =>
      rw [gather_unreadable hlook]
      have hnone : ¬ HasSource look p := by simp [HasSource, hlook, Found.isSource]
      obtain ⟨hdone, hclosed, hordered⟩ := h.visit_of_not_hasSource hnone
      exact ⟨⟨hdone, hclosed, hordered⟩, by simp [finish, say]⟩
    | source l text needed =>
      rw [gather_source hlook] at hfault ⊢
      rw [fault_close] at hfault
      have hbelow : ∀ x ∈ (g.visit p).unseen needed, ∀ a ∈ p :: above, Leads look a x := by
        intro x hx a ha
        have hstep : Needs look p x := (needs_iff hlook).mpr (mem_unseen.mp hx).1
        rcases mem_cons.mp ha with rfl | ha
        · exact .single hstep
        · exact (habove a ha).tail hstep
      obtain ⟨hsettled, hvisited⟩ := (h.visit p).all (grown_gather look n (some p))
        (fun x hx g hg hfault => ih (some p) (hbelow x hx) hg hfault) hfault
      have hgrown :=
        Grown.all (grown_gather look n (some p)) (g.visit p) ((g.visit p).unseen needed)
      refine ⟨hsettled.close hlook habove hfault fun x hx => ?_, ?_⟩
      · by_cases hseen : x ∈ (g.visit p).visited
        · exact hgrown.visited x hseen
        · exact hvisited x (mem_unseen.mpr ⟨hx, hseen⟩)
      · rw [visited_close]
        exact hgrown.visited p (by simp)

/-- Behind an open source all that its needed paths lead to past it is gathered. -/
theorem mem_paths {x y : Text} (h : Settled look [p] g) (hx : x ∈ g.visited) (hne : x ≠ p)
    (hleads : LeadsPast look [p] x y) (hy : HasSource look y) : y ∈ g.paths := by
  have hgathered : ∀ z, z ∈ g.visited → z ≠ p → HasSource look z → z ∈ g.paths := by
    intro z hz hzp hsource
    simpa [hzp] using h.done z hz hsource
  induction hleads using Relation.ReflTransGen.head_induction_on with
  | refl => exact hgathered y hx hne hy
  | head hstep _ ih =>
    have hmem := hgathered _ hx hne hstep.1.hasSource
    exact ih (h.closed _ hmem _ hstep.1) (by simpa using hstep.2)

end Settled

theorem settled_start : Settled look [] {} := ⟨by simp, by simp [paths], by simp [paths]⟩

theorem Settled.mem_visited (h : Settled look [] g)
    (hroot : root ∈ g.visited) (hq : Leads look root q) : q ∈ g.visited := by
  induction hq with
  | refl => exact hroot
  | @tail b _ _ hstep ih =>
    have hmem : b ∈ g.paths := by simpa using h.done b ih hstep.hasSource
    exact h.closed b hmem _ hstep

/-! ## A path twice -/

theorem Grown.paths_eq (h : Grown look ps g g') :
    ∃ new, g'.paths = g.paths ++ new := by
  obtain ⟨new, hnew, -⟩ := h.entries
  exact ⟨new.map Entry.path, by rw [paths, hnew, map_append, paths]⟩

/-- A source that is entered is gathered, whether it was gathered before or not. -/
theorem mem_new_of_gather (n : Nat) (parent : Option Text) (g : Gathering)
    (hp : HasSource look p) (hfault : (gather look n parent g p).fault = none) :
    ∃ new, (gather look n parent g p).paths = g.paths ++ new ∧ p ∈ new := by
  obtain ⟨l, text, needed, hlook⟩ := hp.exists_eq
  cases n with
  | zero => cases hfault
  | succ n =>
    rw [gather_source hlook] at hfault ⊢
    rw [fault_close] at hfault
    obtain ⟨new, hnew⟩ :=
      (Grown.all (grown_gather look n (some p)) (g.visit p) ((g.visit p).unseen needed)).paths_eq
    exact ⟨new ++ [p], by rw [paths_close_of_none hfault, hnew, paths_visit, append_assoc],
      by simp⟩

theorem mem_new_of_gatherAll (hgrown : ∀ g x, Grown look [x] g (one g x)) {y : Text} (hy : y ∈ ps)
    (hone : ∀ g, (one g y).fault = none → ∃ new, (one g y).paths = g.paths ++ new ∧ y ∈ new)
    (hfault : (gatherAll one g ps).fault = none) :
    ∃ new, (gatherAll one g ps).paths = g.paths ++ new ∧ y ∈ new := by
  induction ps generalizing g with
  | nil => simp at hy
  | cons x rest ih =>
    have hnone := fault_of_gatherAll hfault
    rw [gatherAll_cons hnone] at hfault ⊢
    obtain ⟨first, hfirst⟩ := (hgrown g x).paths_eq
    rcases mem_cons.mp hy with rfl | hy
    · obtain ⟨new, hnew, hmem⟩ := hone g (fault_of_gatherAll hfault)
      obtain ⟨more, hmore⟩ := (Grown.all hgrown (one g y) rest).paths_eq
      exact ⟨new ++ more, by rw [hmore, hnew, append_assoc], by simp [hmem]⟩
    · obtain ⟨new, hnew, hmem⟩ := ih hy hfault
      exact ⟨first ++ new, by rw [hnew, hfirst, append_assoc], by simp [hmem]⟩

theorem gatherAll_append {qs : List Text} (hfault : (gatherAll one g (ps ++ qs)).fault = none) :
    gatherAll one g (ps ++ qs) = gatherAll one (gatherAll one g ps) qs := by
  induction ps generalizing g with
  | nil => rfl
  | cons p rest ih =>
    have hnone := fault_of_gatherAll hfault
    rw [cons_append, gatherAll_cons hnone] at hfault ⊢
    rw [ih hfault, gatherAll_cons hnone]

/-- If the needed paths of the start are not apart, one of them is gathered twice. -/
theorem not_nodup_of_not_apart (n : Nat)
    (hfault : (gather look n none {} root).fault = none) (hapart : ¬ Apart look root) :
    ¬ (gather look n none {} root).paths.Nodup := by
  rw [Apart, pairwise_iff_forall_sublist] at hapart
  simp only [not_forall, not_not] at hapart
  obtain ⟨x, y, hsub, hy, hleads⟩ := hapart
  have hroot : HasSource look root := by
    have hx := (mem_filter.mp (hsub.subset mem_cons_self)).1
    exact Needs.hasSource hx
  obtain ⟨l, text, needed, hlook⟩ := hroot.exists_eq
  rw [hlook, Found.needed] at hsub
  cases n with
  | zero => cases hfault
  | succ n =>
    have hgrown := grown_gather look n (some root)
    obtain ⟨start, hstart⟩ : ∃ g, g = visit {} root := ⟨_, rfl⟩
    have hunseen : start.unseen needed = needed.filter (· ≠ root) := by
      refine filter_congr fun q _ => ?_
      by_cases hq : q = root <;> simp [hstart, visit, hq]
    rw [gather_source hlook, ← hstart] at hfault ⊢
    rw [fault_close] at hfault
    rw [paths_close_of_none hfault]
    rw [hunseen] at hfault ⊢
    obtain ⟨ps, qs, hpsqs, hx, hqs⟩ := cons_sublist_iff.mp hsub
    have hy' : y ∈ qs := singleton_sublist.mp hqs
    have hmem : ∀ z ∈ ps, z ∈ needed ∧ z ≠ root := fun z hz => by
      have hz' := hpsqs ▸ mem_append_left qs hz
      simpa using hz'
    rw [hpsqs] at hfault ⊢
    have happend := gatherAll_append hfault
    rw [happend] at hfault ⊢
    -- When the turn of `y` comes, it has been gathered on the way from `x`.
    have hbelow : ∀ z ∈ ps, ∀ a ∈ [root], Leads look a z := by
      intro z hz a ha
      rw [mem_singleton.mp ha]
      exact .single ((needs_iff hlook).mpr (hmem z hz).1)
    have hsettled : Settled look [root] start := hstart ▸ settled_start.visit root
    obtain ⟨hhalf, hvisited⟩ := hsettled.all hgrown
      (fun z hz g hg hfault => hg.gather n (some root) (hbelow z hz) hfault)
      (fault_of_gatherAll hfault)
    have hfirst := hhalf.mem_paths (hvisited x hx) (hmem x hx).2 hleads hy
    obtain ⟨new, hnew, hsecond⟩ := mem_new_of_gatherAll hgrown hy'
      (fun g hfault => mem_new_of_gather n (some root) g hy hfault) hfault
    rw [hnew]
    intro hnodup
    have hdisjoint := (nodup_append.mp (nodup_append.mp hnodup).1).2.2
    exact hdisjoint y hfirst y hsecond rfl

/-! ## How deep gathering goes -/

/-- The sources among the known ones that are not open. -/
def others (known above : List Text) : Nat := (known.filter (!above.contains ·)).length

theorem others_cons {above : List Text} (hp : p ∈ known) (hnew : p ∉ above) :
    others known (p :: above) < others known above := by
  have hsame : known.filter (!(p :: above).contains ·) =
      (known.filter (!above.contains ·)).filter (· ≠ p) := by
    rw [filter_filter]
    refine filter_congr fun q _ => ?_
    by_cases hq : q = p <;> simp [hq]
  rw [others, others, hsame]
  refine length_filter_lt_length_iff_exists.mpr ⟨p, ?_, by simp⟩
  simp [hp, hnew]

/-- Every path that is entered is none of the open ones, so there is always one source less.  With
a limit above their number the limit does not matter, and gathering does not stop. -/
theorem exists_gather_eq (hknown : ∀ q, Leads look root q → HasSource look q → q ∈ known)
    (hforeign : ∀ q, Leads look root q → look q ≠ .foreign) {above : List Text}
    (parent : Option Text) (hp : Leads look root p) (hnew : p ∉ above)
    (habove : ∀ a ∈ above, a ∈ g.visited) (hfault : g.fault = none) :
    ∃ g', g'.fault = none ∧ ∀ n, others known above < n → gather look n parent g p = g' := by
  induction hk : others known above using Nat.strong_induction_on
    generalizing above parent g p with
  | h k ih =>
    cases hlook : look p with
    | foreign => exact absurd hlook (hforeign p hp)
    | unreadable reason =>
      refine ⟨((g.visit p).say true reason).finish p, by simpa [finish, say] using hfault, ?_⟩
      intro n hn
      obtain ⟨m, rfl⟩ := Nat.exists_eq_add_one_of_ne_zero (Nat.ne_of_gt (Nat.zero_lt_of_lt hn))
      exact gather_unreadable hlook m parent g
    | source l text needed =>
      have hless := others_cons (hknown p hp (hasSource_of_eq hlook)) hnew
      rw [hk] at hless
      -- The needed paths one after the other, from any state in which `p` is open.
      have hloop : ∀ (ps : List Text) (h : Gathering), (∀ x ∈ ps, x ∈ needed ∧ x ∉ p :: above) →
          (∀ a ∈ p :: above, a ∈ h.visited) → h.fault = none →
          ∃ h', h'.fault = none ∧ ∀ n, others known (p :: above) < n →
            gatherAll (gather look n (some p)) h ps = h' := by
        intro ps
        induction ps with
        | nil => exact fun h _ _ hnone => ⟨h, hnone, fun _ _ => rfl⟩
        | cons x rest ihps =>
          intro h hps hopen hnone
          obtain ⟨hneeded, hx⟩ := hps x (by simp)
          obtain ⟨h₁, hnone₁, heq₁⟩ := ih _ hless (some p)
            (hp.tail ((needs_iff hlook).mpr hneeded)) hx hopen hnone rfl
          have hgrown := grown_gather look (others known (p :: above) + 1) (some p) h x
          rw [heq₁ _ (Nat.lt_succ_self _)] at hgrown
          obtain ⟨h₂, hnone₂, heq₂⟩ := ihps h₁ (fun y hy => hps y (by simp [hy]))
            (fun a ha => hgrown.visited a (hopen a ha)) hnone₁
          refine ⟨h₂, hnone₂, fun n hn => ?_⟩
          rw [gatherAll_cons hnone, heq₁ n hn, heq₂ n hn]
      have hopen : ∀ a ∈ p :: above, a ∈ (g.visit p).visited := by
        intro a ha
        rcases mem_cons.mp ha with rfl | ha
        · simp
        · simp [habove a ha]
      obtain ⟨h', hnone, heq⟩ := hloop ((g.visit p).unseen needed) (g.visit p)
        (fun x hx => ⟨(mem_unseen.mp hx).1, fun hmem => (mem_unseen.mp hx).2 (hopen x hmem)⟩)
        hopen (by simpa using hfault)
      refine ⟨h'.close ⟨p, parent, l, text⟩, by simpa using hnone, fun n hn => ?_⟩
      obtain ⟨m, rfl⟩ := Nat.exists_eq_add_one_of_ne_zero (Nat.ne_of_gt (Nat.zero_lt_of_lt hn))
      rw [gather_source hlook, heq m (by omega)]

end SheetPress.Bundle
