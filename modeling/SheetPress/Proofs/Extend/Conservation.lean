import SheetPress.Proofs.Compile.Filing
import SheetPress.Proofs.Extend.Turns

/-!
# What linking conserves

However the nodes are gone through, every rule is filed once before and after, and it keeps the
selectors that it had (`linking_conserves`).  The latter needs that linking forms no selector with
the word ` extends ` in it, which would be taken for the start of what is extended: a selector
`extends b` that takes the place of `x` in `p x` gives `p extends b`, and the rule is then one of
`p` that extends `b` (`wordy`).
-/

set_option autoImplicit false

namespace SheetPress.Linking

open Compile Parts
open Selector (own parentOf ownSelectors normalize neat Bare)

/-! ## Rules -/

/-- The rules are filed as before, each of them once, and have their places. -/
structure Kept (s₀ s : Session) : Prop where
  keys : (s.parts.map Prod.fst).Nodup
  filed : (Parts.filed s.parts).Perm (Parts.filed s₀.parts)
  order : s.order = s₀.order
  size : s.rules.size = s₀.rules.size
  positions : ∀ r, positionOf s r = positionOf s₀ r

namespace Kept

variable {s₀ s t : Session} {x : Extender} {node : Text} {new : List Text}

theorem table (h : Kept s₀ s) {ps : Parts} (hkeys : (ps.map Prod.fst).Nodup)
    (hfiled : ps.filed.Perm (Parts.filed s.parts)) : Kept s₀ { s with parts := ps } :=
  ⟨hkeys, hfiled.trans h.filed, h.order, h.size, h.positions⟩

theorem move (h : Kept s₀ s) (k k' : Text) : Kept s₀ { s with parts := move s.parts k k' } :=
  h.table (nodup_keys_move _ h.keys) (filed_move _ h.keys)

theorem links (h : Kept s₀ s) (ht : Links x node new s t) : Kept s₀ t :=
  ⟨ht.nodup_keys h.keys, (ht.filed h.keys).trans h.filed, ht.order.trans h.order,
    ht.size.trans h.size, fun r => (ht.defers.positions r).trans (h.positions r)⟩

theorem same (h : Kept s₀ s) (ht : Same s t) : Kept s₀ t :=
  ⟨ht.parts ▸ h.keys, ht.parts ▸ h.filed, ht.order.trans h.order, ht.size.trans h.size,
    fun r => (ht.defers.positions r).trans (h.positions r)⟩

theorem missing (h : Kept s₀ s) (parent : Text) : Kept s₀ (missing s parent) :=
  ⟨h.keys, h.filed, h.order, h.size, h.positions⟩

theorem split (hkeys : (s.parts.map Prod.fst).Nodup) {arrange : List Text → List Text}
    (harrange : ∀ ks, (arrange ks).Perm ks) :
    Kept s { s with parts := splitNodes arrange s.parts } := by
  have hsplits := splits_splitNodes harrange hkeys
  exact table ⟨hkeys, .refl _, rfl, rfl, fun _ => rfl⟩ hsplits.keys hsplits.filed

theorem nodup (h : Kept s₀ s) (hfiled : (Parts.filed s₀.parts).Nodup) :
    (Parts.filed s.parts).Nodup :=
  h.filed.nodup_iff.mpr hfiled

theorem mem_filed (h : Kept s₀ s) {k : Text} {r : Nat} (hr : r ∈ rulesOf s.parts k) :
    r ∈ Parts.filed s₀.parts :=
  h.filed.mem_iff.mp (mem_filed_of_mem_rulesOf _ _ hr)

theorem lt_size (h : Kept s₀ s) (hbound : ∀ r ∈ Parts.filed s₀.parts, r < s₀.rules.size) {k : Text}
    {r : Nat} (hr : r ∈ rulesOf s.parts k) : r < s.rules.size := by
  rw [h.size]
  exact hbound r (h.mem_filed hr)

theorem run_orderRules (h : Kept s₀ s) (hs₀ : Filed s₀) :
    ∃ v, orderRules.run s = (.ok (), v) ∧ Ordered s v := by
  refine Compile.run_orderRules (h.order ▸ hs₀.nodup.of_append_right) fun r hr => ?_
  rw [h.size]
  exact hs₀.bound r (List.mem_append_right _ (h.order ▸ hr))

end Kept

/-! ## Names -/

/-- The names of nodes that splitting, turns and links can form. -/
inductive Forms (ps : Parts) : Text → Prop
  | node {k n : Text} : k ∈ ps.map Prod.fst → n ∈ splitNames k → Forms ps n
  | turn {k : Text} : Forms ps k → Forms ps (own k)
  | link {k n : Text} {new : List Text} : Forms ps k → Forms ps n →
      extensions (parentOf k) (ownSelectors k) (ownSelectors n) = .ok new → new ≠ [] →
      Forms ps (normalize n new [])

/-- A selector of one name that can be formed is to be put, in a selector of another one, in the
place of what the first name extends, and the latter is no pattern that can be read or the former
nothing that can stand in its place. -/
def Unreadable (ps : Parts) (f : Fault) : Prop :=
  ∃ k n, Forms ps k ∧ Forms ps n ∧ isExtending k = true ∧
    ∃ selector ∈ ownSelectors n, Text.contains selector (parentOf k) = true ∧
      ∃ child ∈ ownSelectors k, extended? (parentOf k) child selector = .error f

/-- No selector of a name has the word ` extends ` in it, nor has one that a link adds. -/
structure Tidy (ps : Parts) : Prop where
  own : ∀ k, Forms ps k → ∀ x ∈ ownSelectors k, Bare x
  added : ∀ k n new, Forms ps k → Forms ps n →
    extensions (parentOf k) (ownSelectors k) (ownSelectors n) = .ok new → ∀ x ∈ new, Bare x

/-- The name has all selectors of the text, up to blanks. -/
def Carries (name text : Text) : Prop :=
  ∀ x ∈ ownSelectors text, neat x ≠ [] → ∃ y ∈ ownSelectors name, neat y = neat x

instance (name text : Text) : Decidable (Carries name text) :=
  inferInstanceAs (Decidable (∀ x ∈ _, _ → ∃ y ∈ _, _))

section Names

variable {ps : Parts} {k n name text : Text} {new : List Text}

/-- Names among which all are that can be formed, if no selector of them has the word ` extends ` in
it and none that a link adds. -/
structure Closed (ps : Parts) (names : List Text) : Prop where
  node : ∀ k ∈ ps.map Prod.fst, ∀ n ∈ splitNames k, n ∈ names
  own : ∀ k ∈ names, own k ∈ names ∧ ∀ x ∈ ownSelectors k, Bare x
  link : ∀ k ∈ names, ∀ n ∈ names,
    ∀ new ∈ (extensions (parentOf k) (ownSelectors k) (ownSelectors n)).toOption,
      (new ≠ [] → normalize n new [] ∈ names) ∧ ∀ x ∈ new, Bare x

theorem Closed.mem {names : List Text} (h : Closed ps names) (hk : Forms ps k) : k ∈ names := by
  induction hk with
  | node hk hn => exact h.node _ hk _ hn
  | turn _ ih => exact (h.own _ ih).1
  | link _ _ hnew hne ihk ihn => exact (h.link _ ihk _ ihn _ (by rw [hnew]; rfl)).1 hne

theorem Closed.tidy {names : List Text} (h : Closed ps names) : Tidy ps := by
  refine ⟨fun k hk => (h.own k (h.mem hk)).2, fun k n new hk hn hnew => ?_⟩
  exact (h.link k (h.mem hk) n (h.mem hn) new (by rw [hnew]; rfl)).2

/-- Such names are also enough to look at for selectors that cannot be read. -/
theorem Closed.not_unreadable {names : List Text} (h : Closed ps names)
    (hreads : ∀ k ∈ names, ∀ n ∈ names, ∀ selector ∈ ownSelectors n, ∀ child ∈ ownSelectors k,
      (extended? (parentOf k) child selector).isOk = true) (f : Fault) : ¬ Unreadable ps f := by
  rintro ⟨k, n, hk, hn, -, selector, hselector, -, child, hchild, herror⟩
  have hok := hreads k (h.mem hk) n (h.mem hn) selector hselector child hchild
  rw [herror] at hok
  cases hok

theorem own_own (k : Text) : own (own k) = own k := by
  rcases Selector.name_cases k with ⟨hown, -⟩ | ⟨-, hcut⟩
  · rw [hown, hown]
  · have hmark := Text.not_infix_of_cut? Selector.extendsMark_ne_nil hcut
    rw [own, Selector.cutExtends, Selector.cut_of_markless hmark]

theorem Carries.refl (text : Text) : Carries text text := fun x hx _ => ⟨x, hx, rfl⟩

theorem Carries.of_own_eq (h : Carries name text) (hown : own k = own name) : Carries k text := by
  intro x hx hne
  obtain ⟨y, hy, hneat⟩ := h x hx hne
  exact ⟨y, by rwa [ownSelectors, hown], hneat⟩

theorem Carries.link (htidy : Tidy ps) (hk : Forms ps k) (hn : Forms ps n)
    (hnew : extensions (parentOf k) (ownSelectors k) (ownSelectors n) = .ok new)
    (h : Carries n text) : Carries (normalize n new []) text := by
  intro x hx hne
  obtain ⟨y, hy, hneat⟩ := h x hx hne
  refine ⟨neat y, ?_, by rw [Selector.neat_neat, hneat]⟩
  exact Selector.neat_mem_normalize hy (htidy.own n hn y hy) (hneat ▸ hne)
    (htidy.added k n new hk hn hnew)

end Names

/-! ## Nodes -/

/-- All nodes are among the names that can be formed. -/
structure Formed (s₀ s : Session) : Prop extends Kept s₀ s where
  forms : ∀ k ∈ s.parts.map Prod.fst, Forms s₀.parts k

/-- So are the node on its turn and those that are still to be linked with it. -/
structure FormedTurn (s₀ : Session) (x : Extender) (todo : List Text) (s : Session) : Prop
    extends Formed s₀ s where
  extender : ∃ k, Forms s₀.parts k ∧ isExtending k = true ∧ x.parent = parentOf k ∧
    x.selectors = own k
  todo : ∀ n ∈ todo, Forms s₀.parts n

namespace FormedTurn

variable {s₀ s t : Session} {x : Extender} {node : Text} {todo new : List Text} {f : Fault}

theorem exists_extender (h : FormedTurn s₀ x (node :: todo) s) {result : Except Fault (List Text)}
    (hadds : x.adds node = result) :
    ∃ k, Forms s₀.parts k ∧ isExtending k = true ∧ Forms s₀.parts node ∧
      extensions (parentOf k) (ownSelectors k) (ownSelectors node) = result := by
  obtain ⟨k, hk, hextending, hparent, hselectors⟩ := h.extender
  refine ⟨k, hk, hextending, h.todo node (by simp), ?_⟩
  rw [← hadds, Extender.adds, hparent, hselectors, ownSelectors]

theorem skip (h : FormedTurn s₀ x (node :: todo) s) : FormedTurn s₀ x todo s :=
  { h with todo := fun n hn => h.todo n (by simp [hn]) }

theorem link (h : FormedTurn s₀ x (node :: todo) s) (hadds : x.adds node = .ok new)
    (hne : new ≠ []) (ht : Links x node new s t) : FormedTurn s₀ x todo t := by
  obtain ⟨k₀, hk₀, -, hnode, hnew⟩ := h.exists_extender hadds
  refine ⟨⟨h.links ht, fun k hk => ?_⟩, h.extender, h.skip.todo⟩
  rcases ht.mem_keys hk with rfl | hk
  · exact hk₀.link hnode hnew hne
  · exact h.forms k hk

/-- Where the turn breaks off, there is something that cannot be read. -/
theorem unreadable (h : FormedTurn s₀ x (node :: todo) s) (hadds : x.adds node = .error f) :
    Unreadable s₀.parts f := by
  obtain ⟨k, hk, hextending, hnode, herror⟩ := h.exists_extender hadds
  exact ⟨k, node, hk, hnode, hextending, error_of_extensions herror⟩

end FormedTurn

/-- Turns keep the rules, whatever the nodes are, and form no other names. -/
theorem formed_invariant (s₀ : Session) :
    Invariant (Formed s₀) fun x _ todo s => FormedTurn s₀ x todo s where
  start := by
    intro s node todo hs hnode hextending htodo
    have hform := hs.forms node hnode
    have hkeys : ∀ k ∈ (move s.parts node (own node)).map Prod.fst, Forms s₀.parts k := by
      intro k hk
      rcases (mem_keys_move _ _).mp hk with rfl | ⟨-, hk⟩
      · exact hform.turn
      · exact hs.forms k hk
    exact ⟨⟨hs.move _ _, hkeys⟩, ⟨node, hform, hextending, rfl, rfl⟩,
      fun n hn => hkeys n (htodo.mem_iff.mp hn)⟩
  skip := fun hs _ => hs.skip
  link := fun hs hadds hne ht => hs.link hadds hne ht
  finish := fun hs ht _ => ⟨hs.same ht, ht.parts ▸ hs.forms⟩
  miss := fun hs => ⟨hs.missing _, hs.forms⟩

/-! ## Selectors -/

/-- Every rule and the node that it is filed under have the selectors that the rule had. -/
structure Carried (s₀ s : Session) : Prop extends Formed s₀ s where
  node : ∀ k, ∀ r ∈ rulesOf s.parts k, Carries k (selectorsOf s₀ r)
  rule : ∀ k, ∀ r ∈ rulesOf s.parts k, Carries (selectorsOf s r) (selectorsOf s₀ r)

/-- The node on its turn has the selectors of its rules. -/
structure CarriedTurn (s₀ : Session) (x : Extender) (todo : List Text) (s : Session) : Prop
    extends FormedTurn s₀ x todo s, Carried s₀ s where
  children : ∀ r ∈ x.rules, Carries x.selectors (selectorsOf s₀ r)

section Turns

variable {s₀ s t : Session} {x : Extender} {node : Text} {todo new : List Text}

theorem CarriedTurn.skip (hs : CarriedTurn s₀ x (node :: todo) s) : CarriedTurn s₀ x todo s :=
  { hs with todo := hs.toFormedTurn.skip.todo }

theorem CarriedTurn.link (htidy : Tidy s₀.parts)
    (hbound : ∀ r ∈ Parts.filed s₀.parts, r < s₀.rules.size)
    (hs : CarriedTurn s₀ x (node :: todo) s) (hadds : x.adds node = .ok new) (hne : new ≠ [])
    (ht : Links x node new s t) : CarriedTurn s₀ x todo t := by
  obtain ⟨k₀, hk₀, -, hnode, hnew⟩ := hs.exists_extender hadds
  have hcarries : ∀ r ∈ rulesOf s.parts node,
      Carries (normalize node new []) (selectorsOf s₀ r) := fun r hr =>
    (hs.node node r hr).link htidy hk₀ hnode hnew
  refine ⟨hs.toFormedTurn.link hadds hne ht, ?_, ?_, hs.children⟩
  · intro k r hr
    rcases ht.mem_rulesOf.mp hr with ⟨rfl, hmem⟩ | ⟨-, hmem⟩
    · exact hcarries r hmem
    · exact hs.node k r hmem
  · intro k r hr
    rw [ht.selectors r (ht.size ▸ (hs.links ht).lt_size hbound hr), relabel]
    split
    next hmem => exact hcarries r hmem
    next hmem =>
      split
      next hchild => exact hs.children r hchild
      next =>
        rcases ht.mem_rulesOf.mp hr with ⟨-, hr⟩ | ⟨-, hr⟩
        · exact absurd hr hmem
        · exact hs.rule k r hr

end Turns

theorem carried_invariant {s₀ : Session} (htidy : Tidy s₀.parts)
    (hbound : ∀ r ∈ Parts.filed s₀.parts, r < s₀.rules.size) :
    Invariant (Carried s₀) fun x _ todo s => CarriedTurn s₀ x todo s where
  start := by
    intro s node todo hs hnode hextending htodo
    have hturn := (formed_invariant s₀).start hs.toFormed hnode hextending htodo
    have hchildren : ∀ r ∈ rulesOf s.parts node, Carries (own node) (selectorsOf s₀ r) :=
      fun r hr => (hs.node node r hr).of_own_eq (own_own node)
    have hrules : ∀ {k r}, r ∈ rulesOf (move s.parts node (own node)) k →
        k = own node ∧ r ∈ rulesOf s.parts node ∨ r ∈ rulesOf s.parts k := fun hr =>
      ((mem_rulesOf_move _ _).mp hr).imp_right And.right
    refine ⟨hturn, ?_, ?_, hchildren⟩
    · intro k r hr
      rcases hrules hr with ⟨rfl, hmem⟩ | hmem
      · exact hchildren r hmem
      · exact hs.node k r hmem
    · intro k r hr
      rcases hrules hr with ⟨-, hr⟩ | hr
      · exact hs.rule _ r hr
      · exact hs.rule _ r hr
  skip := fun hs _ => hs.skip
  link := fun hs hadds hne ht => hs.link htidy hbound hadds hne ht
  finish := by
    intro x s t hs ht hpool
    have hformed := (formed_invariant s₀).finish hs.toFormedTurn ht hpool
    refine ⟨hformed, ht.parts ▸ hs.node, fun k r hr => ?_⟩
    rw [ht.parts] at hr
    rw [ht.selectors r (hs.lt_size hbound hr)]
    exact hs.rule k r hr
  miss := fun hs => ⟨(formed_invariant s₀).miss hs.toFormedTurn, hs.node, hs.rule⟩

theorem formed_split {s : Session} (hkeys : (s.parts.map Prod.fst).Nodup)
    {arrange : List Text → List Text} (harrange : ∀ ks, (arrange ks).Perm ks) :
    Formed s { s with parts := splitNodes arrange s.parts } := by
  refine ⟨.split hkeys harrange, fun k hk => ?_⟩
  obtain ⟨node, hnode, hk⟩ := mem_keys_splitNodes harrange hkeys hk
  exact .node hnode hk

/-- Before linking, rules are filed under their selectors. -/
theorem carried_split {s : Session} (hs : Filed s) {arrange : List Text → List Text}
    (harrange : ∀ ks, (arrange ks).Perm ks) :
    Carried s { s with parts := splitNodes arrange s.parts } := by
  have hnode : ∀ {k r}, r ∈ (splitNodes arrange s.parts).rulesOf k →
      own k = own (selectorsOf s r) := by
    intro k r hr
    obtain ⟨node, rfl, hmem⟩ := (mem_rulesOf_splitNodes harrange hs.keys hs.nodup_filed).mp hr
    rw [own_firstName, hs.named node r hmem]
  refine ⟨formed_split hs.keys harrange, fun k r hr => ?_, fun k r _ => .refl _⟩
  exact Carries.of_own_eq (.refl _) (hnode hr)

/-! ## All turns -/

/-- Linking ends, whatever the order of the nodes, and fails only if selectors that are to be linked
cannot be read.  In both cases every rule is filed as often as before; and if no selector with the
word ` extends ` in it is formed, every rule has all selectors that it had, up to blanks. -/
theorem linking_conserves {s t : Session} (hs : Ready s) (ht : runRules.run s = (.ok (), t))
    (e : Enumeration) :
    ∃ result u, (extendAllIn e).run t = (result, u) ∧
      (result = .ok () ∨ ∃ f, result = .error f ∧ Unreadable t.parts f) ∧
      (Parts.filed u.parts).Perm (Parts.filed t.parts) ∧
      (Tidy t.parts → ∀ r ∈ t.order, Carries (selectorsOf u r) (selectorsOf t r)) := by
  have hfiled := (hs.run_runRules ht).1
  obtain ⟨result, u, hrun⟩ : ∃ result u, (extendAllIn e).run t = (result, u) := ⟨_, _, rfl⟩
  have hformed := (formed_invariant t).run_extendAllIn e (formed_split hfiled.keys (e.perm 0 0))
  rw [hrun] at hformed
  refine ⟨result, u, hrun, ?_, ?_, fun htidy r hr => ?_⟩
  · cases hformed with
    | ok _ => exact Or.inl rfl
    | error hf hu => exact Or.inr ⟨_, rfl, hu.unreadable hf⟩
  · cases hformed with
    | ok hu => exact hu.filed
    | error _ hu => exact hu.filed
  · have hends := (carried_invariant htidy fun _ => hfiled.bound_filed).run_extendAllIn e
      (carried_split hfiled (e.perm 0 0))
    have hcarried : Carried t u := by
      rw [hrun] at hends
      cases hends with
      | ok hu => exact hu
      | error _ hu => exact hu.toCarried
    have hmem := hcarried.filed.mem_iff.mpr (hfiled.rules.mem_iff.mpr hr)
    obtain ⟨k, hk⟩ := (mem_filed _ hcarried.keys).mp hmem
    exact hcarried.rule k r hk

/-- Two rules that extend each other. -/
def circle : Session :=
  { rules := #[{ selectors := ".a extends .b".toList }, { selectors := ".b extends .a".toList }]
    queue := [0, 1] }

/-- The names that linking the two rules can form. -/
def circleNames : List Text :=
  ["", ".a", ".b", ".a,.b", ".a extends .b", ".b extends .a", ".a,.b extends .a",
    ".a,.b extends .b"].map String.toList

theorem closed_circle : Closed (runRules.run circle).2.parts circleNames :=
  ⟨by decide +kernel, by decide +kernel, by decide +kernel⟩

/-- The two rules are linked, and none of their selectors gets lost. -/
theorem linking_conserves_circle :
    ∃ t u, runRules.run circle = (.ok (), t) ∧ t.order = [0, 1] ∧
      (extendAllIn .inserted).run t = (.ok (), u) ∧
      (Parts.filed u.parts).Perm (Parts.filed t.parts) ∧
      ∀ r ∈ t.order, Carries (selectorsOf u r) (selectorsOf t r) := by
  have hrun : runRules.run circle = (.ok (), (runRules.run circle).2) :=
    Run.eq_of_isOk (by decide +kernel)
  obtain ⟨result, u, hlinked, hresult, hfiled, hcarries⟩ :=
    linking_conserves ⟨rfl, rfl, by decide, by decide⟩ hrun .inserted
  obtain rfl : result = .ok () := hresult.resolve_right fun ⟨f, _, hf⟩ =>
    closed_circle.not_unreadable (by decide +kernel) f hf
  exact ⟨_, u, hrun, by decide +kernel, hlinked, hfiled, hcarries closed_circle.tidy⟩

/-- A source in which the selector that extends `x` starts with the word ` extends `. -/
def wordy : Session :=
  opened {} [] none "extends b extends x \x7b\x7d p x \x7by:z\x7d".toList

-- The rule `p x` is left with `p` alone: what was formed with the word counts as something that it
-- extends, and its own selector with it.
example : ¬ Carries (selectorsOf (extendAll.run (runRules.run wordy).2).2 2)
    (selectorsOf (runRules.run wordy).2 2) := by
  decide +kernel

/-- A source in which the selector that extends another one has a backslash in it. -/
def escaping : Session :=
  opened {} [] none ".x\\1 extends .p \x7ba:b\x7d .p \x7bc:d\x7d".toList

/-- The selector is read as what the groups of a pattern are put into, and the pattern for `.p` has
no group. -/
theorem escape_fails_linking :
    ∃ t, Ready escaping ∧ runRules.run escaping = (.ok (), t) ∧
      selectorsOf t 1 = ".x\\1 extends .p".toList ∧ selectorsOf t 2 = ".p".toList ∧
      (extendAll.run t).1 = .error .badPattern := by
  obtain ⟨t, ht⟩ : ∃ t, t = (runRules.run escaping).2 := ⟨_, rfl⟩
  obtain ⟨hrules, hchild, hparent, hfails⟩ :
      (runRules.run escaping).1.isOk = true ∧ selectorsOf t 1 = ".x\\1 extends .p".toList ∧
      selectorsOf t 2 = ".p".toList ∧ (extendAll.run t).1 = .error .badPattern := by
    rw [ht]
    decide +kernel
  exact ⟨t, ⟨rfl, rfl, by decide, by decide⟩, ht ▸ Run.eq_of_isOk hrules, hchild, hparent, hfails⟩

end SheetPress.Linking
