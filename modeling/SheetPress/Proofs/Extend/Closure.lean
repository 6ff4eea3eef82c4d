import SheetPress.Proofs.Compile.Filing
import SheetPress.Proofs.Extend.Split

/-!
# Extending is transitive

A class that extends another one stands wherever that one stands, and so do all classes that extend
it in turn.  The main statement, `extension_closes`, is that this closure is computed for all rules
of classes that working on the code of a sheet leaves behind, as long as no chain of extensions is
longer than ten links, in whatever order the nodes are gone through.
-/

set_option autoImplicit false

namespace SheetPress.Extending

open List
open Relation (ReflTransGen)
open Compile (selectorsOf extendAllIn runRules opened Ready Filed)
open Selector (extending)
open Source (Word classHead)

/-- The rule of a class, and the classes that it extends, in whatever order they are written. -/
structure Entry where
  name : Word
  extended : List Text

namespace Entry

/-- The selector of the class. -/
def selector (e : Entry) : Text := classHead e.name

/-- What the rule is filed under before it is linked. -/
def head (e : Entry) : Text := extending e.selector e.extended

end Entry

/-- The finished rules that have selectors. -/
def classRules (s : Session) : List Nat := s.order.filter fun r => !(selectorsOf s r).isEmpty

/-- A class of the sheet extends another one. -/
def Extends (es : List Entry) (c p : Text) : Prop := ∃ e ∈ es, e.selector = c ∧ p ∈ e.extended

/-- One rule for each class, no class name at the start of another one, and no chain of more than
ten links.  A class that extended itself through others would be in chains of any length. -/
structure Orderly (es : List Entry) : Prop where
  single : (es.map Entry.selector).Nodup
  apart : ∀ d ∈ es, ∀ e ∈ es, d.selector <+: e.selector → d.selector = e.selector
  known : ∀ e ∈ es, ∀ p ∈ e.extended, p ∈ es.map Entry.selector
  short : ∀ path : List Text, path.IsChain (Extends es) → path.length ≤ 11

/-- A class and all classes that extend it, directly or through others, in byte order. -/
structure IsClosure (es : List Entry) (p : Text) (classes : List Text) : Prop where
  increasing : Text.Increasing classes
  mem_iff : ∀ c, c ∈ classes ↔ ReflTransGen (Extends es) c p

/-! ## The hierarchy of a sheet -/

theorem exists_map_eq {α : Type} [Inhabited α] {keys : List Text} (hkeys : keys.Nodup)
    (values : List α) (hlength : values.length = keys.length) :
    ∃ f : Text → α, keys.map f = values := by
  induction keys generalizing values with
  | nil => exact ⟨fun _ => default, (eq_nil_of_length_eq_zero hlength).symm⟩
  | cons k keys ih =>
    obtain ⟨hk, hkeys⟩ := nodup_cons.mp hkeys
    obtain ⟨v, values, rfl⟩ := exists_cons_of_length_eq_add_one hlength
    obtain ⟨f, rfl⟩ := ih hkeys values (by simpa using hlength)
    refine ⟨Function.update f k v, ?_⟩
    have hrest : keys.map (Function.update f k v) = keys.map f :=
      map_congr_left fun x hx => Function.update_of_ne (ne_of_mem_of_not_mem hx hk) v f
    rw [map_cons, Function.update_self, hrest]

/-- Links one after the other make a chain. -/
theorem Climbs.exists_chain {R : Text → Text → Prop} {n : Nat} {c : Text} (h : Climbs R n c) :
    ∃ path : List Text, (path ++ [c]).IsChain R ∧ path.length = n := by
  induction n generalizing c with
  | zero => exact ⟨[], by simp, rfl⟩
  | succ n ih =>
    obtain ⟨x, hx, hclimbs⟩ := h
    obtain ⟨path, hpath, rfl⟩ := ih hclimbs
    refine ⟨path ++ [x], isChain_append.mpr ⟨hpath, by simp, ?_⟩, by simp⟩
    simpa using hx

section Sheet

variable {es : List Entry}

namespace Orderly

theorem not_climbs (h : Orderly es) {c p : Text} (hlink : Extends es c p) :
    ¬ Climbs (Extends es) 10 c := by
  intro hclimbs
  obtain ⟨path, hpath, hlength⟩ := Climbs.exists_chain (show Climbs (Extends es) 11 p from
    ⟨c, hlink, hclimbs⟩)
  have hshort := h.short _ hpath
  simp [hlength] at hshort

/-- A class that extends itself would be reached over chains of any length. -/
theorem acyclic (h : Orderly es) {c p : Text} (hlink : Extends es c p) :
    ¬ ReflTransGen (Extends es) p c := by
  intro hreach
  have hclimbs : ∀ n, Climbs (Extends es) n c := by
    intro n
    induction n with
    | zero => trivial
    | succ n ih => exact Climbs.reach ⟨c, hlink, ih⟩ hreach
  exact h.not_climbs hlink (hclimbs 10)

end Orderly

/-- The classes of a sheet and their rules. -/
def hierarchy (h : Orderly es) (rule : Text → Nat)
    (hrule : ((es.map Entry.selector).map rule).Nodup) : Hierarchy where
  classes := es.map Entry.selector
  links := Extends es
  rule := rule
  isClass := by
    intro c hc
    obtain ⟨e, -, rfl⟩ := mem_map.mp hc
    exact ⟨e.name, rfl⟩
  apart := by
    intro c hc d hd hprefix
    obtain ⟨x, hx, rfl⟩ := mem_map.mp hc
    obtain ⟨y, hy, rfl⟩ := mem_map.mp hd
    exact h.apart x hx y hy hprefix
  child_mem := by
    rintro c p ⟨e, he, rfl, -⟩
    exact mem_map_of_mem he
  parent_mem := by
    rintro c p ⟨e, he, -, hp⟩
    exact h.known e he p hp
  acyclic := h.acyclic
  rule_injective := fun hc hd heq => inj_on_of_nodup_map hrule hc hd heq

/-- The rules of a sheet of classes, as they stand in its table before any link is made. -/
theorem exists_start (h : Orderly es) {rule : Text → Nat}
    (hrule : ((es.map Entry.selector).map rule).Nodup) {s : Session} (hs : Filed s)
    (hrules : classRules s = es.map fun e => rule e.selector)
    (hnamed : ∀ e ∈ es, selectorsOf s (rule e.selector) = e.head) :
    ∃ parents, Start (hierarchy h rule hrule) parents s := by
  obtain ⟨parents, hparents⟩ := exists_map_eq h.single (es.map Entry.extended) (by simp)
  rw [map_map, map_inj_left] at hparents
  have hparents : ∀ e ∈ es, parents e.selector = e.extended := hparents
  have hname : ∀ e ∈ es, e.head = extending e.selector (parents e.selector) :=
    fun e he => congrArg (extending e.selector) (hparents e he).symm
  have horder : ∀ e ∈ es, rule e.selector ∈ s.order := fun e he => by
    have hmem : rule e.selector ∈ classRules s := hrules ▸ mem_map_of_mem he
    exact (mem_filter.mp hmem).1
  have hfiled : ∀ e ∈ es, rule e.selector ∈ Parts.rulesOf s.parts e.head := fun e he =>
    hnamed e he ▸ hs.mem_rulesOf (horder e he)
  -- A rule that is filed under selectors is that of a class.
  have hclass : ∀ k ≠ [], ∀ r ∈ Parts.rulesOf s.parts k, ∃ e ∈ es,
      k = e.head ∧ r = rule e.selector := by
    intro k hk r hr
    have hselectors := hs.named k r hr
    have hmem : r ∈ classRules s :=
      mem_filter.mpr ⟨hs.mem_order hr, by simpa [hselectors] using hk⟩
    rw [hrules] at hmem
    obtain ⟨e, he, rfl⟩ := mem_map.mp hmem
    exact ⟨e, he, hselectors.symm.trans (hnamed e he), rfl⟩
  refine ⟨parents, ?_, hs.keys, fun k hk => ⟨fun hkey => ?_, ?_⟩, fun k r hk => ⟨fun hr => ?_, ?_⟩,
    ?_, ?_⟩
  · intro c a
    constructor
    · rintro ⟨e, he, rfl, ha⟩
      exact ⟨mem_map_of_mem he, by rwa [hparents e he]⟩
    · rintro ⟨hc, ha⟩
      obtain ⟨e, he, rfl⟩ := mem_map.mp hc
      exact ⟨e, he, rfl, by rwa [hparents e he] at ha⟩
  · obtain ⟨r, hr⟩ := exists_mem_of_ne_nil _ (hs.filled k hkey)
    obtain ⟨e, he, rfl, -⟩ := hclass k hk r hr
    exact ⟨e.selector, mem_map_of_mem he, hname e he⟩
  · rintro ⟨c, hc, rfl⟩
    obtain ⟨e, he, rfl⟩ := mem_map.mp hc
    exact hname e he ▸ Parts.mem_keys_of_mem_rulesOf _ _ (hfiled e he)
  · obtain ⟨e, he, rfl, rfl⟩ := hclass k hk r hr
    exact ⟨e.selector, mem_map_of_mem he, hname e he, rfl⟩
  · rintro ⟨c, hc, rfl, rfl⟩
    obtain ⟨e, he, rfl⟩ := mem_map.mp hc
    exact hname e he ▸ hfiled e he
  · intro c hc
    obtain ⟨e, he, rfl⟩ := mem_map.mp hc
    exact hs.bound _ (mem_append_right _ (horder e he))
  · intro c hc
    obtain ⟨e, he, rfl⟩ := mem_map.mp hc
    exact (hnamed e he).trans (hname e he)

theorem isClosure_under (h : Orderly es) {rule : Text → Nat}
    (hrule : ((es.map Entry.selector).map rule).Nodup) {p : Text} (hp : p ∈ es.map Entry.selector) :
    IsClosure es p ((hierarchy h rule hrule).under (Extends es) p) where
  increasing := Hierarchy.increasing_under _
  mem_iff := by
    intro c
    rw [Hierarchy.mem_under, and_iff_right_iff_imp]
    intro hreach
    rcases ReflTransGen.cases_head_iff.mp hreach with rfl | ⟨x, ⟨e, he, rfl, -⟩, -⟩
    · exact hp
    · exact mem_map_of_mem he

end Sheet

/-- Extending computes the closure, for whatever rules the code of a sheet has left, if each of them
has no selectors or is the one rule of a class.  The rule of a class has, next to its own selector,
those of all classes that extend it directly or through others, in byte order; and every class is
found, so that nothing is logged. -/
theorem extension_closes {s t : Session} (hs : Ready s) (hrun : runRules.run s = (.ok (), t))
    {es : List Entry} (h : Orderly es)
    (hrules : (classRules t).map (selectorsOf t) = es.map Entry.head) (e : Enumeration) :
    ∃ u, (extendAllIn e).run t = (.ok (), u) ∧ u.pool.journal = t.pool.journal ∧
      u.order = t.order ∧
      List.Forall₂ (fun r c => ∃ classes, IsClosure es c.selector classes ∧
        selectorsOf u r = Text.joinWith [','] classes) (classRules t) es := by
  have hfiled : Filed t := (hs.run_runRules hrun).1
  have hlength : (classRules t).length = (es.map Entry.selector).length := by
    simpa using congrArg List.length hrules
  obtain ⟨rule, hrule⟩ := exists_map_eq h.single (classRules t) hlength
  have hnodup : ((es.map Entry.selector).map rule).Nodup := by
    rw [hrule]
    exact hfiled.nodup.of_append_right.filter _
  rw [List.map_map] at hrule
  have hnamed : ∀ c ∈ es, selectorsOf t (rule c.selector) = c.head := by
    rw [← hrule, List.map_map, List.map_inj_left] at hrules
    exact hrules
  obtain ⟨parents, hstart⟩ := exists_start h hnodup hfiled hrule.symm hnamed
  obtain ⟨u, hlink, hlinked⟩ := hstart.run_extendAllIn e fun c a hlink => h.not_climbs hlink
  refine ⟨u, hlink, by rw [hlinked.stage.pool], hlinked.stage.order, ?_⟩
  rw [← hrule, List.forall₂_map_left_iff, List.forall₂_same]
  intro c hc
  have hmem : c.selector ∈ es.map Entry.selector := List.mem_map_of_mem hc
  exact ⟨_, isClosure_under h hnodup hmem, hlinked.selectorsOf_rule hmem⟩

/-! ## A sheet with the longest chain -/

/-- Where every class is on a lower level than those that it extends, chains are no longer than
there are levels. -/
theorem length_le_of_level {es : List Entry} (level : Text → Nat) {n : Nat}
    (h : ∀ e ∈ es, ∀ p ∈ e.extended, level e.selector < level p ∧ level p ≤ n) {path : List Text}
    (hpath : path.IsChain (Extends es)) : path.length ≤ n + 1 := by
  have hfrom : ∀ (path : List Text) (c : Text), (c :: path).IsChain (Extends es) → path ≠ [] →
      path.length + level c ≤ n := by
    intro path
    induction path with
    | nil => intro c _ hne; exact absurd rfl hne
    | cons p path ih =>
      intro c hchain _
      obtain ⟨⟨e, he, rfl, hp⟩, hrest⟩ := isChain_cons_cons.mp hchain
      have hlevel := h e he p hp
      rw [length_cons]
      by_cases hnil : path = []
      · subst hnil
        simp only [length_nil]
        omega
      · have hbound := ih p hrest hnil
        omega
  cases path with
  | nil => simp
  | cons c path =>
    by_cases hnil : path = []
    · simp [hnil]
    · have hbound := hfrom path c hpath hnil
      rw [length_cons]
      omega

/-- A class with a name in lower case, and the classes that it extends. -/
def classEntry (name : Text) (h : name ≠ [] ∧ name.all Char.isLower = true)
    (extended : List String) : Entry where
  name := ⟨name, h.1, all_eq_true.mp h.2⟩
  extended := extended.map String.toList

/-- Three classes, one of which extends the other two. -/
def steps : List Entry :=
  [classEntry ['d'] (by decide) [".b", ".c"], classEntry ['c'] (by decide) [".b"],
    classEntry ['b'] (by decide) []]

theorem orderly_steps : Orderly steps where
  single := by decide +kernel
  apart := by decide +kernel
  known := by decide +kernel
  short := fun _ hpath => (length_le_of_level (n := 2) (fun t => 100 - (t.getD 1 'a').toNat)
    (by decide +kernel) hpath).trans (by decide)

/-- The nodes are gone through backwards. -/
def backwards : Enumeration := ⟨fun _ _ nodes => nodes.reverse, fun _ _ nodes => nodes.reverse_perm⟩

/-- A sheet of the three classes, on several lines. -/
def stepped : Session :=
  opened {} [] (some "<string>".toList)
    (".d extends .b \x7b\n  width: 10px;\n  @extend .c;\n\x7d\n.c extends .b \x7b\n\x7d\n" ++
      ".b \x7b\n  a: b;\n\x7d").toList

theorem extension_closes_steps :
    Orderly steps ∧ ∃ t u, runRules.run stepped = (.ok (), t) ∧
      (extendAllIn backwards).run t = (.ok (), u) ∧ u.pool.journal = t.pool.journal ∧
      u.order = t.order ∧
      List.Forall₂ (fun r c => ∃ classes, IsClosure steps c.selector classes ∧
        selectorsOf u r = Text.joinWith [','] classes) (classRules t) steps := by
  obtain ⟨t, ht⟩ : ∃ t, t = (runRules.run stepped).2 := ⟨_, rfl⟩
  obtain ⟨hok, hrules⟩ : (runRules.run stepped).1.isOk = true ∧
      (classRules t).map (selectorsOf t) = steps.map Entry.head := by
    rw [ht]
    decide +kernel
  have hrun : runRules.run stepped = (.ok (), t) := ht ▸ Run.eq_of_isOk hok
  obtain ⟨u, hu⟩ := extension_closes ⟨rfl, rfl, by decide, by decide⟩ hrun orderly_steps hrules
    backwards
  exact ⟨orderly_steps, t, u, hrun, hu⟩

/-- Two classes, the first with a line break before its closing brace, which is read as the number
of a line. -/
def broken : Session :=
  opened {} [] (some "<string>".toList) ".a \x7bb:c\n\x7d\n.d extends .a \x7be:f\x7d".toList

/-- Not all sheets of classes get as far as to be linked. -/
theorem broken_line_stops_rules :
    Ready broken ∧ (runRules.run broken).1 = .error .wrongValue := by
  exact ⟨⟨rfl, rfl, by decide, by decide⟩, by decide +kernel⟩

end SheetPress.Extending
