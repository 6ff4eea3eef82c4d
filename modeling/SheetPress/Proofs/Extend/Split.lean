import SheetPress.Proofs.Compile.Arrange
import SheetPress.Proofs.Extend.Rounds

/-!
# Nodes that extend several classes

Before links are made, a node that extends several classes is split into one node for each of
them, and the first one keeps the rules.  Whatever the order in which this is done, the table then
has the nodes of all classes without any link made (`Start.linked`).
-/

set_option autoImplicit false

namespace SheetPress

open List Text

namespace Compile

open Parts (Holds)

/-! ## One node -/

/-- The nodes that a node is split into. -/
def splitNames (node : Text) : List Text :=
  match cut? Selector.extendsMark node with
  | none => [node]
  | some (selectors, parents) =>
    (Text.splitOn '&' parents).map fun p => selectors ++ Selector.extendsMark ++ p

/-- The node that keeps the rules. -/
def firstName (node : Text) : Text := (splitNames node).headD []

theorem firstName_mem (node : Text) : firstName node ∈ splitNames node := by
  rcases hcut : cut? Selector.extendsMark node with _ | ⟨selectors, parents⟩
  · simp [firstName, splitNames, hcut]
  · obtain ⟨p, more, hparents⟩ := exists_cons_of_ne_nil (Text.splitOn_ne_nil '&' parents)
    simp [firstName, splitNames, hcut, hparents]

variable {node : Text} {todo : List Text}

theorem holds_splitNode {ps : Parts} {key : Text → Prop} {rule : Text → Nat → Prop}
    (h : Holds ps key rule) (hnode : key node) :
    Holds (splitNode ps node) (fun k => k ∈ splitNames node ∨ k ≠ node ∧ key k)
      fun k r => k = firstName node ∧ rule node r ∨ k ≠ node ∧ rule k r := by
  rcases hcut : cut? Selector.extendsMark node with _ | ⟨selectors, parents⟩
  · have hnames : splitNames node = [node] := by simp only [splitNames, hcut]
    have hsplit : splitNode ps node = ps := by simp only [splitNode, hcut]
    rw [hsplit, firstName, hnames]
    refine h.congr (fun k => ?_) fun k r => ?_
    · by_cases hk : k = node <;> simp [hk, hnode]
    · by_cases hk : k = node <;> simp [hk]
  · obtain ⟨p, more, hparents⟩ := exists_cons_of_ne_nil (Text.splitOn_ne_nil '&' parents)
    simp only [splitNode, firstName, splitNames, hcut, hparents, map_cons]
    refine (((h.without node).add _ _).addAll _).congr (fun k => ?_) fun k r => ?_
    · simp only [mem_cons, or_assoc, or_left_comm]
    · simp only [h.rules, headD_cons, or_comm]

/-! ## All nodes -/

/-- The nodes that a node is now, while some nodes are still to be split. -/
def currentNames (todo : List Text) (node : Text) : List Text :=
  if todo.contains node then [node] else splitNames node

/-- The node that has the rules of a node now. -/
def currentName (todo : List Text) (node : Text) : Text :=
  if todo.contains node then node else firstName node

theorem currentName_mem (todo : List Text) (node : Text) :
    currentName todo node ∈ currentNames todo node := by
  unfold currentName currentNames
  split
  · exact mem_singleton_self node
  · exact firstName_mem node

theorem currentNames_of_mem (h : node ∈ todo) : currentNames todo node = [node] := by
  simp [currentNames, h]

theorem currentName_of_mem (h : node ∈ todo) : currentName todo node = node := by
  simp [currentName, h]

theorem currentNames_of_notMem (h : node ∉ todo) : currentNames todo node = splitNames node := by
  simp [currentNames, h]

theorem currentName_of_notMem (h : node ∉ todo) : currentName todo node = firstName node := by
  simp [currentName, h]

theorem currentNames_cons_self (node : Text) (todo : List Text) :
    currentNames (node :: todo) node = [node] :=
  currentNames_of_mem mem_cons_self

theorem currentName_cons_self (node : Text) (todo : List Text) :
    currentName (node :: todo) node = node :=
  currentName_of_mem mem_cons_self

theorem currentNames_cons_of_ne {n : Text} (h : n ≠ node) (todo : List Text) :
    currentNames (node :: todo) n = currentNames todo n := by
  simp [currentNames, h]

theorem currentName_cons_of_ne {n : Text} (h : n ≠ node) (todo : List Text) :
    currentName (node :: todo) n = currentName todo n := by
  simp [currentName, h]

section Splitting

variable {key : Text → Prop} {rule : Text → Nat → Prop}

/-- No other node has the name of a node, be it an old name or a new one. -/
theorem notMem_currentNames (hapart : ∀ k k', key k → key k' → k' ∈ splitNames k → k' = k)
    {n node : Text} (hn : key n) (hnode : key node) (hne : n ≠ node) (todo : List Text) :
    node ∉ currentNames todo n := by
  intro hmem
  unfold currentNames at hmem
  split at hmem
  · exact hne (mem_singleton.mp hmem).symm
  · exact hne (hapart n node hn hnode hmem).symm

theorem holds_splitNode_next (hrule : ∀ k r, rule k r → key k)
    (hapart : ∀ k k', key k → key k' → k' ∈ splitNames k → k' = k) {node : Text}
    (hnode : key node) {todo : List Text} (hnext : node ∉ todo) {ps : Parts}
    (h : Holds ps (fun k => ∃ n, key n ∧ k ∈ currentNames (node :: todo) n)
      fun k r => ∃ n, rule n r ∧ k = currentName (node :: todo) n) :
    Holds (splitNode ps node) (fun k => ∃ n, key n ∧ k ∈ currentNames todo n)
      fun k r => ∃ n, rule n r ∧ k = currentName todo n := by
  have hnames := currentNames_of_notMem hnext
  have hname := currentName_of_notMem hnext
  have hself : ∃ n, key n ∧ node ∈ currentNames (node :: todo) n :=
    ⟨node, hnode, by simp [currentNames_cons_self]⟩
  refine (holds_splitNode h hself).congr (fun k => ?_) fun k r => ?_
  · constructor
    · rintro ⟨n, hn, hk⟩
      by_cases hne : n = node
      · rw [hne, hnames] at hk
        exact .inl hk
      · refine .inr ⟨?_, n, hn, by rwa [currentNames_cons_of_ne hne]⟩
        rintro rfl
        exact notMem_currentNames hapart hn hnode hne todo hk
    · rintro (hk | ⟨hk, n, hn, hmem⟩)
      · exact ⟨node, hnode, by rwa [hnames]⟩
      · have hne : n ≠ node := by
          rintro rfl
          exact hk (by simpa [currentNames_cons_self] using hmem)
        exact ⟨n, hn, by rwa [currentNames_cons_of_ne hne] at hmem⟩
  · constructor
    · rintro ⟨n, hn, rfl⟩
      by_cases hne : n = node
      · subst hne
        exact .inl ⟨hname, n, hn, (currentName_cons_self n todo).symm⟩
      · refine .inr ⟨fun hk => ?_, n, hn, (currentName_cons_of_ne hne todo).symm⟩
        exact notMem_currentNames hapart (hrule n r hn) hnode hne todo (hk ▸ currentName_mem todo n)
    · rintro (⟨rfl, n, hn, hmem⟩ | ⟨hk, n, hn, rfl⟩)
      · have hne : n = node := by
          by_contra hne
          rw [currentName_cons_of_ne hne] at hmem
          exact notMem_currentNames hapart (hrule n r hn) hnode hne todo
            (hmem ▸ currentName_mem todo n)
        exact ⟨node, hne ▸ hn, hname.symm⟩
      · have hne : n ≠ node := by
          rintro rfl
          exact hk (currentName_cons_self n todo)
        exact ⟨n, hn, currentName_cons_of_ne hne todo⟩

theorem holds_splitNodes {ps : Parts} (h : Holds ps key rule)
    {arrange : List Text → List Text} (harrange : ∀ ks, (arrange ks).Perm ks)
    (hapart : ∀ k k', key k → key k' → k' ∈ splitNames k → k' = k) :
    Holds (splitNodes arrange ps) (fun k => ∃ node, key node ∧ k ∈ splitNames node)
      fun k r => ∃ node, rule node r ∧ k = firstName node := by
  have hrule : ∀ k r, rule k r → key k := fun _ _ => h.key_of_rule
  have hfold : ∀ (todo : List Text) {ps : Parts}, todo.Nodup → (∀ k ∈ todo, key k) →
      Holds ps (fun k => ∃ n, key n ∧ k ∈ currentNames todo n)
        (fun k r => ∃ n, rule n r ∧ k = currentName todo n) →
      Holds (todo.foldl splitNode ps) (fun k => ∃ node, key node ∧ k ∈ splitNames node)
        fun k r => ∃ node, rule node r ∧ k = firstName node := by
    intro todo
    induction todo with
    | nil =>
      intro ps _ _ h
      exact h.congr (by simp [currentNames]) (by simp [currentName])
    | cons node todo ih =>
      intro ps hnodup htodo h
      rw [nodup_cons] at hnodup
      exact ih hnodup.2 (fun k hk => htodo k (by simp [hk]))
        (holds_splitNode_next hrule hapart (htodo node (by simp)) hnodup.1 h)
  have hmem : ∀ k, k ∈ arrange (ps.map Prod.fst) ↔ key k := fun k =>
    (harrange _).mem_iff.trans (h.keys k)
  refine hfold _ ((harrange _).nodup_iff.mpr h.nodup) (fun k => (hmem k).mp)
    (h.congr (fun k => ?_) fun k r => ?_)
  · constructor
    · rintro ⟨n, hn, hk⟩
      rw [currentNames_of_mem ((hmem n).mpr hn), mem_singleton] at hk
      exact hk ▸ hn
    · exact fun hk => ⟨k, hk, by simp [currentNames_of_mem ((hmem k).mpr hk)]⟩
  · constructor
    · rintro ⟨n, hn, hk⟩
      rw [currentName_of_mem ((hmem n).mpr (hrule n r hn))] at hk
      exact hk ▸ hn
    · exact fun hr => ⟨k, hr, (currentName_of_mem ((hmem k).mpr (hrule k r hr))).symm⟩

end Splitting

end Compile

namespace Extending

variable {ps : List Text}

open Compile (splitNames firstName selectorsOf)
open Relation (ReflTransGen)
open Selector (Compact extending label)

/-! ## The nodes of a class -/

/-- One node for every parent, or one without a parent. -/
def branches (parents : List Text) : List (Option Text) :=
  if parents = [] then [none] else parents.map some

theorem none_mem_branches : none ∈ branches ps ↔ ps = [] := by
  unfold branches
  split <;> simp [*]

theorem some_mem_branches {p : Text} : some p ∈ branches ps ↔ p ∈ ps := by
  unfold branches
  split <;> simp [*]

theorem head?_mem_branches (ps : List Text) : ps.head? ∈ branches ps := by
  cases ps with
  | nil => simp [branches]
  | cons p ps => simp [branches]

theorem splitNames_nil : splitNames [] = [[]] := by decide

theorem splitNames_extending {c : Text} (hc : Compact c)
    (hps : ∀ p ∈ ps, Compact p) :
    splitNames (extending c ps) = (branches ps).map (label [c]) := by
  have hjoin : joinWith [','] [c] = c := by simp [joinWith]
  rw [splitNames, Selector.cut?_extending hc]
  by_cases hnil : ps = []
  · simp [hnil, extending, branches, label, hjoin]
  · have hsplit := splitOn_joinWith hnil fun p hp => (hps p hp).notMem.2.2
    simp [hnil, hsplit, branches, label, hjoin]

theorem firstName_extending {c : Text} (hc : Compact c)
    (hps : ∀ p ∈ ps, Compact p) : firstName (extending c ps) = label [c] ps.head? := by
  rw [firstName, splitNames_extending hc hps]
  cases ps <;> simp [branches]

section Start

variable {H : Hierarchy} {parents : Text → List Text} {s : Session}

/-- Before any link is made, every class has one node, with all that it extends. -/
structure Start (H : Hierarchy) (parents : Text → List Text) (s : Session) : Prop where
  links : ∀ c a, H.links c a ↔ c ∈ H.classes ∧ a ∈ parents c
  nodup : (s.parts.map Prod.fst).Nodup
  keys : ∀ k ≠ [], k ∈ s.parts.map Prod.fst ↔ ∃ c ∈ H.classes, k = extending c (parents c)
  rules : ∀ k r, k ≠ [] → (r ∈ Parts.rulesOf s.parts k ↔
    ∃ c ∈ H.classes, k = extending c (parents c) ∧ r = H.rule c)
  bound : ∀ c ∈ H.classes, H.rule c < s.rules.size
  named : ∀ c ∈ H.classes, selectorsOf s (H.rule c) = extending c (parents c)

theorem under_bot {c : Text} (hc : c ∈ H.classes) : H.under ⊥ c = [c] := by
  refine H.increasing_under.ext (pairwise_singleton _ _) fun x => ?_
  rw [H.mem_under, mem_singleton]
  constructor
  · rintro ⟨-, hreach⟩
    cases hreach with
    | refl => rfl
    | tail _ hstep => exact hstep.elim
  · rintro rfl
    exact ⟨hc, .refl⟩

theorem nodeLabel_bot {c : Text} (hc : c ∈ H.classes) (b : Option Text) :
    H.nodeLabel ⊥ c b = label [c] b := by
  rw [Hierarchy.nodeLabel, under_bot hc]

namespace Start

theorem compact (h : Start H parents s) {c : Text} (hc : c ∈ H.classes) :
    ∀ p ∈ parents c, Compact p := fun p hp =>
  (H.isClass p (H.parent_mem ((h.links c p).mpr ⟨hc, hp⟩))).compact

theorem live (h : Start H parents s) {c : Text} (hc : c ∈ H.classes) {b : Option Text}
    (hb : b ∈ branches (parents c)) : H.Live ⊥ c b := by
  cases b with
  | none => trivial
  | some a => exact ⟨(h.links c a).mpr ⟨hc, some_mem_branches.mp hb⟩, fun hnone => hnone⟩

theorem apart (h : Start H parents s) {k k' : Text} (hk : k ∈ s.parts.map Prod.fst)
    (hk' : k' ∈ s.parts.map Prod.fst) (hmem : k' ∈ splitNames k) : k' = k := by
  by_cases hnil : k = []
  · rwa [hnil, splitNames_nil, mem_singleton, ← hnil] at hmem
  · obtain ⟨c, hc, rfl⟩ := (h.keys k hnil).mp hk
    have hcompact := (H.isClass c hc).compact
    rw [splitNames_extending hcompact (h.compact hc)] at hmem
    obtain ⟨b, -, rfl⟩ := mem_map.mp hmem
    have hcut : (Selector.cutExtends (label [c] b)).1 = c := by
      rw [Selector.cutExtends_label (by simpa using hcompact)]
      simp [joinWith]
    by_cases hnil' : label [c] b = []
    · rw [hnil'] at hcut
      exact absurd hcut.symm hcompact.ne_nil
    · obtain ⟨c', hc', heq⟩ := (h.keys _ hnil').mp hk'
      rw [heq, Selector.cutExtends_extending (H.isClass c' hc').compact] at hcut
      rw [heq, show c' = c from hcut]

/-- After splitting, every class has one node for each of its parents, and its rule is at the first
one. -/
theorem holds_split (h : Start H parents s) {arrange : List Text → List Text}
    (harrange : ∀ ks, (arrange ks).Perm ks) :
    Parts.Holds (Compile.splitNodes arrange s.parts)
      (fun k => k = [] ∧ [] ∈ s.parts.map Prod.fst ∨
        ∃ c ∈ H.classes, ∃ b ∈ branches (parents c), k = H.nodeLabel ⊥ c b)
      fun k r => k = [] ∧ r ∈ Parts.rulesOf s.parts [] ∨
        ∃ c ∈ H.classes, k = H.nodeLabel ⊥ c (parents c).head? ∧ r = H.rule c := by
  have hstart : Parts.Holds s.parts (· ∈ s.parts.map Prod.fst) fun k r =>
      r ∈ Parts.rulesOf s.parts k := ⟨h.nodup, fun _ => Iff.rfl, fun _ _ => Iff.rfl⟩
  have hnames : ∀ {c}, c ∈ H.classes → splitNames (extending c (parents c)) =
      (branches (parents c)).map (H.nodeLabel ⊥ c) := fun hc => by
    rw [splitNames_extending (H.isClass _ hc).compact (h.compact hc)]
    exact map_congr_left fun b _ => (nodeLabel_bot hc b).symm
  have hfirst : ∀ {c}, c ∈ H.classes → firstName (extending c (parents c)) =
      H.nodeLabel ⊥ c (parents c).head? := fun hc => by
    rw [firstName_extending (H.isClass _ hc).compact (h.compact hc), nodeLabel_bot hc]
  refine (Compile.holds_splitNodes hstart harrange fun k k' => h.apart).congr (fun k => ?_)
    fun k r => ?_
  · constructor
    · rintro (⟨rfl, hroot⟩ | ⟨c, hc, b, hb, rfl⟩)
      · exact ⟨[], hroot, by simp [splitNames_nil]⟩
      · have hne := Selector.extending_ne_nil (H.isClass c hc).ne_nil (parents c)
        refine ⟨_, (h.keys _ hne).mpr ⟨c, hc, rfl⟩, ?_⟩
        rw [hnames hc]
        exact mem_map_of_mem hb
    · rintro ⟨node, hnode, hk⟩
      by_cases hnil : node = []
      · subst hnil
        exact Or.inl ⟨by simpa [splitNames_nil] using hk, hnode⟩
      · obtain ⟨c, hc, rfl⟩ := (h.keys node hnil).mp hnode
        rw [hnames hc] at hk
        obtain ⟨b, hb, rfl⟩ := mem_map.mp hk
        exact Or.inr ⟨c, hc, b, hb, rfl⟩
  · constructor
    · rintro (⟨rfl, hr⟩ | ⟨c, hc, rfl, rfl⟩)
      · exact ⟨[], hr, by simp [firstName, splitNames_nil]⟩
      · have hne := Selector.extending_ne_nil (H.isClass c hc).ne_nil (parents c)
        exact ⟨_, (h.rules _ _ hne).mpr ⟨c, hc, rfl, rfl⟩, (hfirst hc).symm⟩
    · rintro ⟨node, hr, rfl⟩
      by_cases hnil : node = []
      · subst hnil
        exact Or.inl ⟨by simp [firstName, splitNames_nil], hr⟩
      · obtain ⟨c, hc, rfl, rfl⟩ := (h.rules node r hnil).mp hr
        exact Or.inr ⟨c, hc, hfirst hc, rfl⟩

/-- Splitting leaves a table of the classes, without any link made. -/
theorem linked (h : Start H parents s) {arrange : List Text → List Text}
    (harrange : ∀ ks, (arrange ks).Perm ks) :
    Linked H ⊥ s { s with parts := Compile.splitNodes arrange s.parts } := by
  have hsplit := h.holds_split harrange
  -- A class has its rule at its first node only.
  have hrule : ∀ {p b r}, p ∈ H.classes → H.Live ⊥ p b →
      (r ∈ Parts.rulesOf (Compile.splitNodes arrange s.parts) (H.nodeLabel ⊥ p b) ↔
        b = (parents p).head? ∧ r = H.rule p) := by
    intro p b r hp hb
    rw [hsplit.rules]
    constructor
    · rintro (⟨hnil, -⟩ | ⟨c, hc, heq, rfl⟩)
      · exact absurd hnil (Hierarchy.nodeLabel_ne_nil hp b)
      · obtain ⟨rfl, rfl⟩ := Hierarchy.nodeLabel_injective bot_le bot_le hp hc hb.isClass
          (h.live hc (head?_mem_branches _)).isClass heq
        exact ⟨rfl, rfl⟩
    · rintro ⟨rfl, rfl⟩
      exact .inr ⟨p, hp, rfl, rfl⟩
  have hfirst : ∀ {p}, p ∈ H.classes → H.Live ⊥ p (parents p).head? := fun hp =>
    h.live hp (head?_mem_branches _)
  refine ⟨bot_le, ⟨⟨hsplit.nodup, ?_, ?_, ?_, ?_, ?_, ?_⟩, ?_, h.bound _, rfl, rfl⟩⟩
  · intro k hk
    refine ((hsplit.keys k).mp hk).imp And.left ?_
    rintro ⟨c, hc, b, hb, rfl⟩
    exact ⟨c, hc, b, h.live hc hb, rfl⟩
  · intro c a hlink _
    obtain ⟨hc, ha⟩ := (h.links c a).mp hlink
    exact (hsplit.keys _).mpr (.inr ⟨c, hc, some a, some_mem_branches.mpr ha, rfl⟩)
  · intro p hp hall
    have hnone : parents p = [] :=
      eq_nil_iff_forall_not_mem.mpr fun a ha => hall a ((h.links p a).mpr ⟨hp, ha⟩)
    exact (hsplit.keys _).mpr (.inr ⟨p, hp, none, none_mem_branches.mpr hnone, rfl⟩)
  · intro p b hp hb r hr
    exact ((hrule hp hb).mp hr).2
  · intro p hp
    exact ⟨_, hfirst hp, (hrule hp (hfirst hp)).mpr ⟨rfl, rfl⟩⟩
  · intro p b b' hp hb hb' hr hr'
    rw [((hrule hp hb).mp hr).1, ((hrule hp hb').mp hr').1]
  · intro p hp hr _
    have hnone : parents p = [] := by
      have hhead := ((hrule hp H.live_none).mp hr).1
      simpa using hhead.symm
    rw [nodeLabel_bot hp]
    refine (h.named p hp).trans ?_
    simp [hnone, extending, label, joinWith]

/-- All links are made in ten rounds, if no chain is longer. -/
theorem run_extendAllIn (h : Start H parents s) (e : Enumeration)
    (hchains : ∀ c a, H.links c a → ¬ Climbs H.links 10 c) :
    ∃ t, (Compile.extendAllIn e).run s = (.ok (), t) ∧ Linked H H.links s t := by
  have hnone : Settled H ⊥ 0 := fun c a _ hclimbs => absurd trivial hclimbs
  obtain ⟨t, hrun, ht⟩ := run_extendRounds e (m := 10) (h.linked (e.perm 0 0)) hnone
    (by simpa using hchains)
  exact ⟨t, hrun, ht⟩

end Start

end Start

/-- Once all links have been made, the rule of a class has all that reaches it as its selectors. -/
theorem Linked.selectorsOf_rule {H : Hierarchy} {s₀ s : Session} (h : Linked H H.links s₀ s)
    {p : Text} (hp : p ∈ H.classes) :
    selectorsOf s (H.rule p) = joinWith [','] (H.under H.links p) := by
  obtain ⟨b, hb, hr⟩ := h.stage.table.home hp
  cases b with
  | none => exact h.stage.named hp hr (by simp)
  | some a => exact absurd hb.1 hb.2

end Extending

end SheetPress
