import SheetPress.Proofs.Compile.Parts
import SheetPress.Proofs.Extend.Extensions

/-!
# Classes and their nodes

Classes that extend each other are linked one link after the other.  At any time, a class has the
selectors of all classes that reach it through the links made so far (`Hierarchy.under`), and its
nodes in the table carry them: one node for every link that is still to be made, and one without a
link.  `Table` says this of a table, for any naming of the nodes, so that nodes can be renamed one
by one.
-/

set_option autoImplicit false

namespace SheetPress.Extending

open List Text
open Relation (ReflTransGen)

/-- Classes, the rule of each, and which class extends which. -/
structure Hierarchy where
  classes : List Text
  links : Text → Text → Prop
  rule : Text → Nat
  isClass : ∀ c ∈ classes, IsClass c
  /-- No class starts with the name of another one. -/
  apart : ∀ c ∈ classes, ∀ d ∈ classes, c <+: d → c = d
  child_mem : ∀ {c p : Text}, links c p → c ∈ classes
  parent_mem : ∀ {c p : Text}, links c p → p ∈ classes
  acyclic : ∀ {c p : Text}, links c p → ¬ ReflTransGen links p c
  rule_injective : ∀ {c d : Text}, c ∈ classes → d ∈ classes → rule c = rule d → c = d

/-- One link more. -/
def linked (D : Text → Text → Prop) (c a : Text) : Text → Text → Prop :=
  fun x y => D x y ∨ x = c ∧ y = a

/-- A way over one link more goes over it once, if at all. -/
theorem reach_linked {D : Text → Text → Prop} {c a x q : Text} :
    ReflTransGen (linked D c a) x q ↔
      ReflTransGen D x q ∨ ReflTransGen D x c ∧ ReflTransGen D a q := by
  have hmono : ∀ {u v}, ReflTransGen D u v → ReflTransGen (linked D c a) u v := fun h =>
    ReflTransGen.mono (fun _ _ => Or.inl) _ _ h
  constructor
  · intro h
    induction h with
    | refl => exact Or.inl .refl
    | tail _ hstep ih =>
      rcases hstep with hstep | ⟨rfl, rfl⟩
      · exact ih.imp (fun h => h.tail hstep) fun h => ⟨h.1, h.2.tail hstep⟩
      · rcases ih with h | h
        · exact Or.inr ⟨h, .refl⟩
        · exact Or.inr ⟨h.1, .refl⟩
  · rintro (h | ⟨hx, hq⟩)
    · exact hmono h
    · exact ((hmono hx).tail (Or.inr ⟨rfl, rfl⟩)).trans (hmono hq)

namespace Hierarchy

variable (H : Hierarchy) {D D' : Text → Text → Prop} {a c p q : Text}

theorem eq_of_reach (h : ReflTransGen H.links p q) (h' : ReflTransGen H.links q p) : p = q := by
  rcases ReflTransGen.cases_head_iff.mp h with heq | ⟨x, hx, hxq⟩
  · exact heq
  · exact absurd (hxq.trans h') (H.acyclic hx)

open Classical in
/-- The classes that reach a class over some links, in order. -/
noncomputable def under (D : Text → Text → Prop) (p : Text) : List Text :=
  sortedSet (H.classes.filter fun c => ReflTransGen D c p)

theorem mem_under : c ∈ H.under D p ↔ c ∈ H.classes ∧ ReflTransGen D c p := by
  simp [under, mem_sortedSet]

theorem self_mem_under (hp : p ∈ H.classes) : p ∈ H.under D p := H.mem_under.mpr ⟨hp, .refl⟩

theorem isClass_of_mem_under (h : c ∈ H.under D p) : IsClass c :=
  H.isClass c (H.mem_under.mp h).1

theorem increasing_under : Text.Increasing (H.under D p) := increasing_sortedSet _

theorem under_congr (h : ∀ c, ReflTransGen D c p ↔ ReflTransGen D' c q) :
    H.under D p = H.under D' q :=
  H.increasing_under.ext H.increasing_under fun c => by rw [mem_under, mem_under, h]

/-- A new link below a class brings in all that is under its child. -/
theorem under_linked_of_mem (ha : a ∈ H.under D q) :
    H.under (linked D c a) q = sortedSet (H.under D q ++ H.under D c) := by
  refine H.increasing_under.ext (increasing_sortedSet _) fun x => ?_
  rw [mem_under, mem_sortedSet, mem_append, mem_under, mem_under, reach_linked]
  have hreach := (H.mem_under.mp ha).2
  tauto

/-- A new link elsewhere changes nothing. -/
theorem under_linked_of_notMem (hmem : a ∈ H.classes) (ha : a ∉ H.under D q) :
    H.under (linked D c a) q = H.under D q := by
  refine H.increasing_under.ext H.increasing_under fun x => ?_
  rw [mem_under, mem_under, reach_linked]
  have hreach : ¬ ReflTransGen D a q := fun h => ha (H.mem_under.mpr ⟨hmem, h⟩)
  tauto

/-- The label of a node of a class. -/
noncomputable def nodeLabel (D : Text → Text → Prop) (p : Text) (b : Option Text) : Text :=
  Selector.label (H.under D p) b

/-- The node of a class without a link, and the nodes for the links that are still to be made. -/
def Live (D : Text → Text → Prop) (p : Text) : Option Text → Prop
  | none => True
  | some a => H.links p a ∧ ¬ D p a

theorem live_none : H.Live D p none := trivial

theorem Live.isClass {b : Option Text} (h : H.Live D p b) : ∀ a ∈ b, IsClass a := by
  intro a ha
  rw [Option.mem_def] at ha
  subst ha
  exact H.isClass a (H.parent_mem h.1)

theorem live_linked {b : Option Text} :
    H.Live (linked D c a) p b ↔ H.Live D p b ∧ ¬ (p = c ∧ b = some a) := by
  cases b with
  | none => simp [Live]
  | some x => simp [Live, linked, and_assoc]

variable {H}

/-- Nodes are told apart by their labels, whatever links have been made. -/
theorem nodeLabel_injective (hD : D ≤ H.links) (hD' : D' ≤ H.links) (hp : p ∈ H.classes)
    (hq : q ∈ H.classes) {b b' : Option Text} (hb : ∀ a ∈ b, IsClass a)
    (hb' : ∀ a ∈ b', IsClass a) (h : H.nodeLabel D p b = H.nodeLabel D' q b') :
    p = q ∧ b = b' := by
  have hcompact : ∀ {D p}, ∀ c ∈ H.under D p, Selector.Compact c := fun c hc =>
    (H.isClass_of_mem_under hc).compact
  have hne : ∀ {D p}, p ∈ H.classes → H.under D p ≠ [] := fun hp =>
    ne_nil_of_mem (H.self_mem_under hp)
  obtain ⟨hunder, hparent⟩ := Selector.label_injective hcompact hcompact (hne hp) (hne hq)
    (fun a ha => (hb a ha).ne_nil) (fun a ha => (hb' a ha).ne_nil) h
  refine ⟨H.eq_of_reach ?_ ?_, hparent⟩
  · have hmem := H.self_mem_under (D := D) hp
    rw [hunder] at hmem
    exact ReflTransGen.mono hD' _ _ (H.mem_under.mp hmem).2
  · have hmem := H.self_mem_under (D := D') hq
    rw [← hunder] at hmem
    exact ReflTransGen.mono hD _ _ (H.mem_under.mp hmem).2

theorem nodeLabel_ne_nil (hp : p ∈ H.classes) (b : Option Text) : H.nodeLabel D p b ≠ [] := by
  have hmem := H.self_mem_under (D := D) hp
  have hjoin : joinWith [','] (H.under D p) ≠ [] := by
    intro hnil
    have hsplit := Selector.splitOn_joinWith_compact (ne_nil_of_mem hmem)
      fun c hc => (H.isClass_of_mem_under hc).compact
    rw [hnil] at hsplit
    rw [← hsplit] at hmem
    exact (H.isClass p hp).ne_nil (mem_singleton.mp hmem)
  cases b with
  | none => exact hjoin
  | some a => simp [nodeLabel, Selector.label, hjoin]

end Hierarchy

/-! ## Tables -/

/-- Live nodes have different names. -/
structure Naming (H : Hierarchy) (D : Text → Text → Prop) (name : Text → Option Text → Text) :
    Prop where
  injective : ∀ {p q : Text} {b b' : Option Text}, p ∈ H.classes → q ∈ H.classes →
    H.Live D p b → H.Live D q b' → name p b = name q b' → p = q ∧ b = b'
  ne_nil : ∀ {p : Text} {b : Option Text}, p ∈ H.classes → name p b ≠ []

/-- One node gets another name. -/
structure Renaming (H : Hierarchy) (D : Text → Text → Prop)
    (name name' : Text → Option Text → Text) (q : Text) (b : Option Text) : Prop where
  before : Naming H D name
  after : Naming H D name'
  mem : q ∈ H.classes
  live : H.Live D q b
  same : ∀ {p : Text} {x : Option Text}, p ∈ H.classes → H.Live D p x → ¬ (p = q ∧ x = b) →
    name' p x = name p x

/-- The other nodes have neither of the two names. -/
theorem Renaming.apart {H : Hierarchy} {D : Text → Text → Prop}
    {name name' : Text → Option Text → Text} {p q : Text} {x b : Option Text}
    (hr : Renaming H D name name' q b) (hp : p ∈ H.classes) (hx : H.Live D p x)
    (hpx : ¬ (p = q ∧ x = b)) : name' p x ≠ name' q b ∧ name' p x ≠ name q b := by
  refine ⟨fun heq => hpx (hr.after.injective hp hr.mem hx hr.live heq), fun heq => ?_⟩
  rw [hr.same hp hx hpx] at heq
  exact hpx (hr.before.injective hp hr.mem hx hr.live heq)

/-- A table of nodes under the given names, when some links have been made. -/
structure Table (H : Hierarchy) (D : Text → Text → Prop) (name : Text → Option Text → Text)
    (ps : Parts) : Prop where
  nodup : (ps.map Prod.fst).Nodup
  keys : ∀ k ∈ ps.map Prod.fst,
    k = [] ∨ ∃ p ∈ H.classes, ∃ b, H.Live D p b ∧ k = name p b
  /-- There is a node for every link that is still to be made. -/
  waiting : ∀ {c a : Text}, H.links c a → ¬ D c a → name c (some a) ∈ ps.map Prod.fst
  complete : ∀ {p : Text}, p ∈ H.classes → (∀ a, H.links p a → D p a) →
    name p none ∈ ps.map Prod.fst
  /-- The nodes of a class hold no rule but that of the class, and one of them holds it. -/
  own : ∀ {p : Text} {b : Option Text}, p ∈ H.classes → H.Live D p b →
    ∀ r ∈ ps.rulesOf (name p b), r = H.rule p
  home : ∀ {p : Text}, p ∈ H.classes → ∃ b, H.Live D p b ∧ H.rule p ∈ ps.rulesOf (name p b)
  once : ∀ {p : Text} {b b' : Option Text}, p ∈ H.classes → H.Live D p b → H.Live D p b' →
    H.rule p ∈ ps.rulesOf (name p b) → H.rule p ∈ ps.rulesOf (name p b') → b = b'

namespace Table

variable {H : Hierarchy} {D : Text → Text → Prop} {name name' : Text → Option Text → Text}
  {ps : Parts}

theorem exists_node (h : Table H D name ps) {p : Text} (hp : p ∈ H.classes) :
    ∃ b, H.Live D p b ∧ name p b ∈ ps.map Prod.fst := by
  by_cases hall : ∀ a, H.links p a → D p a
  · exact ⟨none, H.live_none, h.complete hp hall⟩
  · push Not at hall
    obtain ⟨a, hlink, hopen⟩ := hall
    exact ⟨some a, ⟨hlink, hopen⟩, h.waiting hlink hopen⟩

/-- What a table says carries over to another one that has the same rules under the names of live
nodes. -/
theorem transfer (h : Table H D name ps) {qs : Parts} (hnodup : (qs.map Prod.fst).Nodup)
    (hkeys : ∀ k ∈ qs.map Prod.fst,
      k = [] ∨ ∃ p ∈ H.classes, ∃ b, H.Live D p b ∧ k = name' p b)
    (hmem : ∀ {p b}, p ∈ H.classes → H.Live D p b → name p b ∈ ps.map Prod.fst →
      name' p b ∈ qs.map Prod.fst)
    (hrules : ∀ {p b}, p ∈ H.classes → H.Live D p b →
      qs.rulesOf (name' p b) = ps.rulesOf (name p b)) :
    Table H D name' qs where
  nodup := hnodup
  keys := hkeys
  waiting := fun hlink hopen =>
    hmem (H.child_mem hlink) ⟨hlink, hopen⟩ (h.waiting hlink hopen)
  complete := fun hp hall => hmem hp H.live_none (h.complete hp hall)
  own := fun hp hb => by
    rw [hrules hp hb]
    exact h.own hp hb
  home := fun hp => by
    obtain ⟨b, hb, hr⟩ := h.home hp
    exact ⟨b, hb, by rwa [hrules hp hb]⟩
  once := fun hp hb hb' => by
    rw [hrules hp hb, hrules hp hb']
    exact h.once hp hb hb'

/-- Names of nodes that the table does not have may be changed. -/
theorem congr (h : Table H D name ps)
    (hsame : ∀ {p b}, p ∈ H.classes → H.Live D p b →
      name p b ∈ ps.map Prod.fst ∨ name' p b ∈ ps.map Prod.fst → name' p b = name p b) :
    Table H D name' ps := by
  refine h.transfer h.nodup ?_ ?_ ?_
  · intro k hk
    refine (h.keys k hk).imp_right ?_
    rintro ⟨p, hp, b, hb, rfl⟩
    exact ⟨p, hp, b, hb, (hsame hp hb (Or.inl hk)).symm⟩
  · intro p b hp hb hk
    rwa [hsame hp hb (Or.inl hk)]
  · intro p b hp hb
    by_cases hk : name p b ∈ ps.map Prod.fst ∨ name' p b ∈ ps.map Prod.fst
    · rw [hsame hp hb hk]
    · rw [not_or] at hk
      rw [Parts.rulesOf_eq_nil _ _ hk.1, Parts.rulesOf_eq_nil _ _ hk.2]

section Rename

variable {q : Text} {b : Option Text}

theorem rulesOf_rename (h : Table H D name ps) (hr : Renaming H D name name' q b)
    (hne : name' q b ≠ name q b) {p : Text} {x : Option Text} (hp : p ∈ H.classes)
    (hx : H.Live D p x) :
    (ps.move (name q b) (name' q b)).rulesOf (name' p x) = ps.rulesOf (name p x) := by
  rw [Parts.rulesOf_move _ _ hne]
  by_cases hpx : p = q ∧ x = b
  · have hfresh : name' q b ∉ ps.map Prod.fst := by
      intro hmem
      rcases h.keys _ hmem with hnil | ⟨p, hp, x, hx, heq⟩
      · exact hr.after.ne_nil hr.mem hnil
      · by_cases hpx : p = q ∧ x = b
        · obtain ⟨rfl, rfl⟩ := hpx
          exact hne heq
        · exact (hr.apart hp hx hpx).1 ((hr.same hp hx hpx).trans heq.symm)
    obtain ⟨rfl, rfl⟩ := hpx
    rw [if_pos rfl, Parts.rulesOf_eq_nil _ _ hfresh, nil_append]
  · have hapart := hr.apart hp hx hpx
    rw [if_neg hapart.1, if_neg hapart.2, hr.same hp hx hpx]

theorem rename (h : Table H D name ps) (hr : Renaming H D name name' q b)
    (hne : name' q b ≠ name q b) : Table H D name' (ps.move (name q b) (name' q b)) := by
  refine h.transfer (Parts.nodup_keys_move _ h.nodup) ?_ ?_ (h.rulesOf_rename hr hne)
  · intro k hk
    rcases (Parts.mem_keys_move _ _).mp hk with rfl | ⟨hold, hk⟩
    · exact Or.inr ⟨q, hr.mem, b, hr.live, rfl⟩
    · refine (h.keys k hk).imp_right ?_
      rintro ⟨p, hp, x, hx, rfl⟩
      refine ⟨p, hp, x, hx, (hr.same hp hx ?_).symm⟩
      rintro ⟨rfl, rfl⟩
      exact hold rfl
  · intro p x hp hx hmem
    rw [Parts.mem_keys_move]
    by_cases hpx : p = q ∧ x = b
    · obtain ⟨rfl, rfl⟩ := hpx
      exact Or.inl rfl
    · refine Or.inr ⟨(hr.apart hp hx hpx).2, ?_⟩
      rwa [hr.same hp hx hpx]

end Rename

section Advance

variable {c a p : Text} {x : Option Text} (hlink : H.links c a) (hopen : ¬ D c a)

include hlink hopen

/-- The node of a link that has been made goes to the node without a link. -/
theorem rulesOf_advance (hn : Naming H D name) (hp : p ∈ H.classes)
    (hx : H.Live (linked D c a) p x) :
    (ps.move (name c (some a)) (name c none)).rulesOf (name p x) =
      if p = c ∧ x = none then ps.rulesOf (name c none) ++ ps.rulesOf (name c (some a))
      else ps.rulesOf (name p x) := by
  have hc := H.child_mem hlink
  obtain ⟨hx, hother⟩ := H.live_linked.mp hx
  have hmade : H.Live D c (some a) := ⟨hlink, hopen⟩
  have hne : name c none ≠ name c (some a) := fun heq => by
    simpa using (hn.injective hc hc H.live_none hmade heq).2
  rw [Parts.rulesOf_move _ _ hne]
  by_cases hpx : p = c ∧ x = none
  · rw [if_pos hpx, if_pos (by rw [hpx.1, hpx.2])]
  · have hplain : name p x ≠ name c none := fun heq => hpx (hn.injective hp hc hx H.live_none heq)
    have hgone : name p x ≠ name c (some a) := fun heq =>
      hother (hn.injective hp hc hx hmade heq)
    rw [if_neg hpx, if_neg hplain, if_neg hgone]

/-- A rule of a live node was at one node of the class before, which is the node of the link that
has been made or the same one. -/
theorem mem_rulesOf_advance (hn : Naming H D name) (hp : p ∈ H.classes)
    (hx : H.Live (linked D c a) p x) {r : Nat} :
    r ∈ (ps.move (name c (some a)) (name c none)).rulesOf (name p x) ↔
      ∃ y, H.Live D p y ∧ r ∈ ps.rulesOf (name p y) ∧
        x = if p = c ∧ y = some a then none else y := by
  obtain ⟨hold, hother⟩ := H.live_linked.mp hx
  rw [rulesOf_advance hlink hopen hn hp hx]
  by_cases hplain : p = c ∧ x = none
  · obtain ⟨rfl, rfl⟩ := hplain
    rw [if_pos ⟨rfl, rfl⟩, mem_append]
    constructor
    · rintro (hr | hr)
      · exact ⟨none, H.live_none, hr, by simp⟩
      · exact ⟨some a, ⟨hlink, hopen⟩, hr, by simp⟩
    · rintro ⟨y, -, hr, hy⟩
      split at hy
      next hmade => exact Or.inr (hmade.2 ▸ hr)
      next => exact Or.inl (hy ▸ hr)
  · rw [if_neg hplain]
    constructor
    · intro hr
      exact ⟨x, hold, hr, by rw [if_neg hother]⟩
    · rintro ⟨y, -, hr, hy⟩
      split at hy
      next hmade => exact absurd ⟨hmade.1, hy⟩ hplain
      next => exact hy ▸ hr

theorem keys_advance (h : Table H D name ps) :
    ∀ k ∈ (ps.move (name c (some a)) (name c none)).map Prod.fst,
      k = [] ∨ ∃ p ∈ H.classes, ∃ b, H.Live (linked D c a) p b ∧ k = name p b := by
  intro k hk
  rcases (Parts.mem_keys_move _ _).mp hk with rfl | ⟨hold, hk⟩
  · exact Or.inr ⟨c, H.child_mem hlink, none, H.live_none, rfl⟩
  · refine (h.keys k hk).imp_right ?_
    rintro ⟨p, hp, b, hb, rfl⟩
    refine ⟨p, hp, b, H.live_linked.mpr ⟨hb, ?_⟩, rfl⟩
    rintro ⟨rfl, rfl⟩
    exact hold rfl

theorem advance (h : Table H D name ps) (hn : Naming H D name) :
    Table H (linked D c a) name (ps.move (name c (some a)) (name c none)) where
  nodup := Parts.nodup_keys_move _ h.nodup
  keys := keys_advance hlink hopen h
  waiting := by
    intro c' a' hlink' hopen'
    obtain ⟨hlive, hother⟩ := H.live_linked.mp (show H.Live (linked D c a) c' (some a') from
      ⟨hlink', hopen'⟩)
    rw [Parts.mem_keys_move]
    refine Or.inr ⟨fun heq => hother ?_, h.waiting hlink' hlive.2⟩
    exact hn.injective (H.child_mem hlink') (H.child_mem hlink) hlive ⟨hlink, hopen⟩ heq
  complete := by
    intro p hp hall
    rw [Parts.mem_keys_move]
    by_cases hpc : p = c
    · exact Or.inl (by rw [hpc])
    · refine Or.inr ⟨fun heq => hpc ?_, h.complete hp fun x hx => ?_⟩
      · have hmade : H.Live D c (some a) := ⟨hlink, hopen⟩
        exact (hn.injective hp (H.child_mem hlink) H.live_none hmade heq).1
      · exact (hall x hx).resolve_right fun heq => hpc heq.1
  own := by
    intro p b hp hb r hr
    obtain ⟨y, hy, hr, -⟩ := (mem_rulesOf_advance hlink hopen hn hp hb).mp hr
    exact h.own hp hy r hr
  home := by
    intro p hp
    obtain ⟨b, hb, hr⟩ := h.home hp
    have hlive : H.Live (linked D c a) p (if p = c ∧ b = some a then none else b) := by
      split
      next => exact H.live_none
      next hother => exact H.live_linked.mpr ⟨hb, hother⟩
    exact ⟨_, hlive, (mem_rulesOf_advance hlink hopen hn hp hlive).mpr ⟨b, hb, hr, rfl⟩⟩
  once := by
    intro p b b' hp hb hb' hr hr'
    obtain ⟨x, hx, hrx, rfl⟩ := (mem_rulesOf_advance hlink hopen hn hp hb).mp hr
    obtain ⟨x', hx', hrx', rfl⟩ := (mem_rulesOf_advance hlink hopen hn hp hb').mp hr'
    rw [h.once hp hx hx' hrx hrx']

end Advance

end Table

end SheetPress.Extending
