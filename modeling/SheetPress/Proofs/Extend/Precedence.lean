import SheetPress.Proofs.Extend.Conservation

/-!
# Which rule comes first

A rule that extends a selector of another one notes its own position there when it is linked, so
that the other rule goes before it (`extended_rule_comes_first`).  This holds of the first selector
that a rule extends, as the rule is linked with no other one, and if the rule does not have to move
up itself: the position that it has noted is where it stood, not where it goes
(`moved_rule_overtakes`).
-/

set_option autoImplicit false

namespace SheetPress.Linking

open List Compile Parts
open Selector (own parentOf ownSelectors normalize neat Bare Single)

/-! ## Substitutions -/

/-- A selector that takes the place of another one in a third. -/
structure Substitution where
  parent : Text
  child : Text
  selector : Text
  single : Single parent
  child_neat : neat child = child
  selector_neat : neat selector = selector
  found : Text.contains selector parent = true
  new : Text
  extended : extended? parent child selector = .ok (some new)

namespace Substitution

variable (x : Substitution)

/-- A node waits to have its selector put in the place of the parent. -/
def WaitsAt (k : Text) : Prop := parentOf k = x.parent ∧ x.child ∈ ownSelectors k

/-- The selectors are those of a rule that makes the substitution: they extend the parent first. -/
def By (selectors : Text) : Prop :=
  (Text.splitOn '&' (parentOf selectors)).head? = some x.parent ∧ x.child ∈ ownSelectors selectors

/-- The substitution can be made in the selectors. -/
def In (selectors : Text) : Prop := x.selector ∈ ownSelectors selectors

theorem child_ne_nil : x.child ≠ [] := by
  intro hnil
  have hnone : extended? x.parent x.child x.selector = .ok none := by
    rw [hnil]
    simp [extended?, cutCommon]
  have hsome := hnone.symm.trans x.extended
  cases hsome

theorem selector_ne_nil : x.selector ≠ [] := by
  intro hnil
  have hparent := Text.contains_iff.mp x.found
  rw [hnil, infix_nil] at hparent
  exact x.single.ne_nil hparent

end Substitution

theorem parentOf_firstName (node : Text) :
    parentOf (firstName node) = (Text.splitOn '&' (parentOf node)).headD [] := by
  rcases Selector.name_cases node with ⟨-, hparent, hmark⟩ | ⟨-, hcut⟩
  · have hname : firstName node = node := by
      rw [firstName, splitNames, Text.cut?_eq_none_iff.mpr hmark]
      rfl
    rw [hname, hparent]
    rfl
  · obtain ⟨p, ps, hps⟩ := exists_cons_of_ne_nil (Text.splitOn_ne_nil '&' (parentOf node))
    have hname : firstName node = own node ++ (Selector.extendsMark ++ p) := by
      rw [firstName, splitNames, hcut]
      simp only [hps, map_cons, headD_cons, append_assoc]
    rw [hname, hps, headD_cons, parentOf, Selector.cutExtends, Text.cut,
      Text.cut?_of_cut? hcut p]
    rfl

/-! ## Links -/

section Links

variable {ps : Parts} {k n z : Text} {new : List Text}

theorem Tidy.mem_normalize (htidy : Tidy ps) (hk : Forms ps k) (hn : Forms ps n)
    (hnew : extensions (parentOf k) (ownSelectors k) (ownSelectors n) = .ok new)
    (hz : z ∈ ownSelectors n) (hneat : neat z = z) (hne : z ≠ []) :
    z ∈ ownSelectors (normalize n new []) := by
  rw [← hneat]
  exact Selector.neat_mem_normalize hz (htidy.own n hn z hz) (hneat.symm ▸ hne)
    (htidy.added k n new hk hn hnew)

/-- A node that waits still waits when it has been linked with others. -/
theorem Substitution.WaitsAt.normalize {x : Substitution} (h : x.WaitsAt n) (htidy : Tidy ps)
    (hk : Forms ps k) (hn : Forms ps n)
    (hnew : extensions (parentOf k) (ownSelectors k) (ownSelectors n) = .ok new) :
    x.WaitsAt (normalize n new []) := by
  refine ⟨?_, htidy.mem_normalize hk hn hnew h.2 x.child_neat x.child_ne_nil⟩
  rw [← h.1]
  exact Selector.parentOf_normalize (h.1 ▸ x.single) (htidy.own n hn)
    (htidy.added k n new hk hn hnew) h.2 (x.child_neat.symm ▸ x.child_ne_nil)

end Links

/-! ## Positions that are noted -/

/-- The rule `c` waits to make the substitution in the rule `p`, or its position `n` has been noted
there. -/
structure Traced (x : Substitution) (c p n : Nat) (s₀ s : Session) : Prop extends Carried s₀ s where
  parent : ∃ k, p ∈ rulesOf s.parts k ∧ x.In k
  child : n ∈ depsOf s p ∨ ∃ k, c ∈ rulesOf s.parts k ∧ x.WaitsAt k

/-- It may also be on its turn, with `p` still to come. -/
structure TracedTurn (x : Substitution) (c p n : Nat) (s₀ : Session) (y : Extender)
    (nodes : List Text) (s : Session) : Prop extends CarriedTurn s₀ y nodes s where
  parent : ∃ k, p ∈ rulesOf s.parts k ∧ x.In k
  child : n ∈ depsOf s p ∨ (∃ k, c ∈ rulesOf s.parts k ∧ x.WaitsAt k) ∨
    c ∈ y.rules ∧ y.parent = x.parent ∧ x.child ∈ Text.splitOn ',' y.selectors ∧
      ∃ k ∈ nodes, p ∈ rulesOf s.parts k

section Turns

variable {x : Substitution} {c p n : Nat} {s₀ s t : Session} {y : Extender} {node : Text}
variable {todo new : List Text}

theorem TracedTurn.bound (h : TracedTurn x c p n s₀ y todo s)
    (hbound : ∀ r ∈ filed s₀.parts, r < s₀.rules.size) : p < s.rules.size := by
  obtain ⟨k, hp, -⟩ := h.parent
  exact h.lt_size hbound hp

/-- At the end of a turn no rule is on its turn any more. -/
theorem TracedTurn.child_nil (h : TracedTurn x c p n s₀ y [] s) :
    n ∈ depsOf s p ∨ ∃ k, c ∈ rulesOf s.parts k ∧ x.WaitsAt k := by
  rcases h.child with hdeps | hwaits | ⟨-, -, -, k, hk, -⟩
  · exact .inl hdeps
  · exact .inr hwaits
  · exact absurd hk not_mem_nil

/-- The rule `c` comes to its turn with its node, or it goes on waiting. -/
theorem Traced.start (hs : Traced x c p n s₀ s)
    (hturn : CarriedTurn s₀ (.of s.parts node) todo
      { s with parts := move s.parts node (own node) })
    (htodo : todo.Perm ((move s.parts node (own node)).map Prod.fst)) :
    TracedTurn x c p n s₀ (.of s.parts node) todo
      { s with parts := move s.parts node (own node) } := by
  have hmoved : ∀ {k r}, r ∈ rulesOf s.parts k →
      r ∈ rulesOf (move s.parts node (own node)) (if k = node then own node else k) := by
    intro k r hr
    refine (mem_rulesOf_move _ _).mpr ?_
    by_cases hk : k = node
    · exact .inl ⟨if_pos hk, hk ▸ hr⟩
    · rw [if_neg hk]
      exact .inr ⟨hk, hr⟩
  obtain ⟨k, hp, hk⟩ := hs.parent
  refine ⟨hturn, ⟨_, hmoved hp, ?_⟩, ?_⟩
  · split
    next heq => rwa [Substitution.In, ownSelectors, own_own, ← heq]
    next => exact hk
  · rcases hs.child with hdeps | ⟨k', hc, hk'⟩
    · exact .inl hdeps
    · by_cases heq : k' = node
      · subst heq
        refine .inr (.inr ⟨hc, hk'.1, hk'.2, _, ?_, hmoved hp⟩)
        exact htodo.mem_iff.mpr (mem_keys_of_mem_rulesOf _ _ (hmoved hp))
      · have hc' := hmoved hc
        rw [if_neg heq] at hc'
        exact .inr (.inl ⟨k', hc', hk'⟩)

/-- A node to which nothing is added is not that of `p`, where the parent would be found. -/
theorem TracedTurn.skip (hs : TracedTurn x c p n s₀ y (node :: todo) s)
    (hfiled : (filed s₀.parts).Nodup) (hadds : y.adds node = .ok []) :
    TracedTurn x c p n s₀ y todo s := by
  refine ⟨hs.toCarriedTurn.skip, hs.parent, ?_⟩
  rcases hs.child with hdeps | hwaits | ⟨hc, hparent, hchild, k, hk, hp⟩
  · exact .inl hdeps
  · exact .inr (.inl hwaits)
  · rcases mem_cons.mp hk with rfl | hk
    · obtain ⟨k', hp', hk'⟩ := hs.parent
      obtain rfl := key_unique _ (hs.nodup hfiled) hp' hp
      have hmem := mem_of_extensions hadds hk' (hparent ▸ x.found) hchild (hparent ▸ x.extended)
      exact absurd hmem not_mem_nil
    · exact .inr (.inr ⟨hc, hparent, hchild, k, hk, hp⟩)

/-- When the node of `p` is linked, the position of `c` is noted there. -/
theorem TracedTurn.link (hs : TracedTurn x c p n s₀ y (node :: todo) s) (htidy : Tidy s₀.parts)
    (hbound : ∀ r ∈ filed s₀.parts, r < s₀.rules.size) (hn : positionOf s₀ c = some n)
    (hadds : y.adds node = .ok new) (hne : new ≠ []) (ht : Links y node new s t) :
    TracedTurn x c p n s₀ y todo t := by
  obtain ⟨k₀, hk₀, -, hnode, hnew⟩ := hs.exists_extender hadds
  have hdeps' := ht.defers.deps p (hs.bound hbound) n
  have hstays : ∀ {k r}, r ∈ rulesOf s.parts k → k ≠ node → r ∈ rulesOf t.parts k :=
    fun hr hk => ht.mem_rulesOf.mpr (.inr ⟨hk, hr⟩)
  have hgoes : ∀ {r}, r ∈ rulesOf s.parts node → r ∈ rulesOf t.parts (normalize node new []) :=
    fun hr => ht.mem_rulesOf.mpr (.inl ⟨rfl, hr⟩)
  refine ⟨hs.toCarriedTurn.link htidy hbound hadds hne ht, ?_, ?_⟩
  · obtain ⟨k, hp, hk⟩ := hs.parent
    by_cases heq : k = node
    · subst heq
      exact ⟨_, hgoes hp,
        htidy.mem_normalize hk₀ hnode hnew hk x.selector_neat x.selector_ne_nil⟩
    · exact ⟨k, hstays hp heq, hk⟩
  · rcases hs.child with hdeps | ⟨k, hc, hk⟩ | ⟨hc, hparent, hchild, k, hk, hp⟩
    · exact .inl (hdeps'.mpr (.inl hdeps))
    · by_cases heq : k = node
      · subst heq
        exact .inr (.inl ⟨_, hgoes hc, hk.normalize htidy hk₀ hnode hnew⟩)
      · exact .inr (.inl ⟨k, hstays hc heq, hk⟩)
    · by_cases heq : k = node
      · subst heq
        have hposition : positionOf s c = some n := (hs.positions c).trans hn
        exact .inl (hdeps'.mpr (.inr ⟨hp, c, hc, hposition⟩))
      · have hk := (mem_cons.mp hk).resolve_left heq
        exact .inr (.inr ⟨hc, hparent, hchild, k, hk, hstays hp heq⟩)

end Turns

theorem traced_invariant {x : Substitution} {c p n : Nat} {s₀ : Session} (htidy : Tidy s₀.parts)
    (hfiled : (filed s₀.parts).Nodup)
    (hbound : ∀ r ∈ filed s₀.parts, r < s₀.rules.size) (hn : positionOf s₀ c = some n) :
    Invariant (Traced x c p n s₀) fun y _ todo s => TracedTurn x c p n s₀ y todo s where
  start := fun hs hnode hextending htodo =>
    hs.start ((carried_invariant htidy hbound).start hs.toCarried hnode hextending htodo) htodo
  skip := fun hs hadds => hs.skip hfiled hadds
  link := fun hs hadds hne ht => hs.link htidy hbound hn hadds hne ht
  finish := by
    intro y s t hs ht hpool
    have hcarried := (carried_invariant htidy hbound).finish hs.toCarriedTurn ht hpool
    refine ⟨hcarried, ht.parts ▸ hs.parent, ?_⟩
    rw [ht.parts]
    exact hs.child_nil.imp_left fun hdeps =>
      (ht.defers.deps p (hs.bound hbound) n).mpr (.inl hdeps)
  miss := fun hs =>
    ⟨(carried_invariant htidy hbound).miss hs.toCarriedTurn, hs.parent, hs.child_nil⟩

theorem traced_split {x : Substitution} {c p : Nat} {s : Session} (hs : Filed s) (hc : c ∈ s.order)
    (hp : p ∈ s.order) (hby : x.By (selectorsOf s c)) (hin : x.In (selectorsOf s p))
    {arrange : List Text → List Text} (harrange : ∀ ks, (arrange ks).Perm ks) (n : Nat) :
    Traced x c p n s { s with parts := splitNodes arrange s.parts } := by
  have hmem : ∀ {r}, r ∈ s.order →
      r ∈ (splitNodes arrange s.parts).rulesOf (firstName (selectorsOf s r)) := fun hr =>
    (mem_rulesOf_splitNodes harrange hs.keys hs.nodup_filed).mpr ⟨_, rfl, hs.mem_rulesOf hr⟩
  refine ⟨carried_split hs harrange, ⟨_, hmem hp, ?_⟩, .inr ⟨_, hmem hc, ?_, ?_⟩⟩
  · rwa [Substitution.In, ownSelectors, own_firstName]
  · rw [parentOf_firstName, headD_eq_head?_getD, hby.1]
    rfl
  · rw [ownSelectors, own_firstName]
    exact hby.2

/-! ## All turns -/

/-- A rule extends first a selector that is found in another rule, and is linked.  Then its position
is one that the other rule has to come before; and the other rule does come before it, unless the
rule itself moves up. -/
theorem extended_rule_comes_first {s t u v : Session} (hs : Ready s)
    (ht : runRules.run s = (.ok (), t)) (e : Enumeration) (hu : (extendAllIn e).run t = (.ok (), u))
    (hv : orderRules.run u = (.ok (), v)) (htidy : Tidy t.parts) {c p : Nat} (hc : c ∈ t.order)
    (hp : p ∈ t.order) (x : Substitution) (hby : x.By (selectorsOf t c))
    (hin : x.In (selectorsOf t p))
    (hlinked : ∀ k, c ∈ rulesOf u.parts k → isExtending k = false) :
    ∃ n, positionOf u c = some n ∧ n ∈ depsOf u p ∧
      ((∀ d ∈ depsOf u c, n < d) → [p, c].Sublist v.order) := by
  have hfiled := (hs.run_runRules ht).1
  obtain ⟨n, hn⟩ := hfiled.exists_position hc
  obtain ⟨m, hm⟩ := hfiled.exists_position hp
  have htraced : Traced x c p n t u :=
    (traced_invariant htidy hfiled.nodup_filed (fun _ => hfiled.bound_filed) hn).run_extendAllIn e
      (traced_split hfiled hc hp hby hin (e.perm 0 0) n) |>.of_ok hu
  have hdeps : n ∈ depsOf u p := by
    rcases htraced.child with hdeps | ⟨k, hk, hwaits⟩
    · exact hdeps
    · have hnone : parentOf k = [] := by simpa [isExtending, parentOf] using hlinked k hk
      exact absurd (hwaits.1.symm.trans hnone) x.single.ne_nil
  have hposition := (htraced.positions c).trans hn
  refine ⟨n, hposition, hdeps, fun hstays => ?_⟩
  obtain ⟨v', hv', hordered⟩ := htraced.run_orderRules hfiled
  obtain rfl : v' = v := congrArg Prod.snd (hv'.symm.trans hv)
  obtain ⟨i, hi, hle⟩ := rankOf_le ((htraced.positions p).trans hm) (Or.inr hdeps)
  obtain ⟨j, hj, hlt⟩ := lt_rankOf hposition (Nat.le_refl _) hstays
  exact hordered.sublist (htraced.order ▸ hp) (htraced.order ▸ hc) hi hj
    (Nat.lt_of_le_of_lt hle hlt)

/-- A rule that extends two others that come behind it. -/
def ahead : Session :=
  { rules := #[{ selectors := ".c extends .a&.b".toList }, { selectors := ".b".toList },
      { selectors := "p .a".toList }]
    queue := [0, 1, 2] }

/-- The names that linking the rule can form. -/
def aheadNames : List Text :=
  [".b", "p .a", ".c", ".c extends .a", ".c extends .b", "p .a,p .c", ".b,.c"].map String.toList

/-- The first of the two links. -/
def aheadLink : Substitution where
  parent := ".a".toList
  child := ".c".toList
  selector := "p .a".toList
  single := ⟨by decide, by decide, by decide, by decide⟩
  child_neat := by decide
  selector_neat := by decide
  found := by decide
  new := "p .c".toList
  extended := by decide +kernel

theorem closed_ahead : Closed (runRules.run ahead).2.parts aheadNames :=
  ⟨by decide +kernel, by decide +kernel, by decide +kernel⟩

/-- The rule of the selector that is extended first comes first.  The other rule stays behind. -/
theorem extended_rule_comes_first_ahead :
    ∃ t u v, runRules.run ahead = (.ok (), t) ∧ (extendAllIn .inserted).run t = (.ok (), u) ∧
      orderRules.run u = (.ok (), v) ∧ t.order = [0, 1, 2] ∧ [2, 0].Sublist v.order ∧
      [0, 1].Sublist v.order := by
  obtain ⟨t, ht⟩ : ∃ t, t = (runRules.run ahead).2 := ⟨_, rfl⟩
  obtain ⟨u, hu⟩ : ∃ u, u = ((extendAllIn .inserted).run t).2 := ⟨_, rfl⟩
  obtain ⟨hrules, hlinks, horder, hchild, hparent, horder', hbound, hlinked, hdeps, hrank, hrank'⟩ :
      (runRules.run ahead).1.isOk = true ∧ ((extendAllIn .inserted).run t).1.isOk = true ∧
      t.order = [0, 1, 2] ∧ selectorsOf t 0 = ".c extends .a&.b".toList ∧
      selectorsOf t 2 = "p .a".toList ∧ u.order = [0, 1, 2] ∧ u.rules.size = 3 ∧
      (∀ k ∈ u.parts.map Prod.fst, isExtending k = false) ∧ depsOf u 0 = [] ∧
      rankOf u 0 = some 1 ∧ rankOf u 1 = some 2 := by
    rw [hu, ht]
    decide +kernel
  have hrun : runRules.run ahead = (.ok (), t) := ht ▸ Run.eq_of_isOk hrules
  have hrun' : (extendAllIn .inserted).run t = (.ok (), u) := hu ▸ Run.eq_of_isOk hlinks
  obtain ⟨v, hv, hordered⟩ := run_orderRules (s := u) (by rw [horder']; decide)
    (by rw [horder', hbound]; decide)
  have hby : aheadLink.By (selectorsOf t 0) := by
    rw [hchild]
    exact ⟨by decide, by decide⟩
  have hin : aheadLink.In (selectorsOf t 2) := by
    rw [hparent]
    unfold Substitution.In
    decide
  obtain ⟨n, -, -, hbefore⟩ := extended_rule_comes_first ⟨rfl, rfl, by decide, by decide⟩
    hrun .inserted hrun' hv (ht ▸ closed_ahead.tidy) (by simp [horder]) (by simp [horder]) aheadLink
    hby hin fun k hk => hlinked k (mem_keys_of_mem_rulesOf _ _ hk)
  refine ⟨t, u, v, hrun, hrun', hv, horder, hbefore (by simp [hdeps]), ?_⟩
  exact hordered.sublist (by simp [horder']) (by simp [horder']) hrank hrank' (by decide)

/-- Three rules that extend one another, each behind the one that extends it. -/
def chain : Session :=
  opened {} [] none ".d extends .c \x7b\x7d .c extends .a \x7bp:q\x7d .a\x7br:s\x7d".toList

/-- The rule of `.c` goes to the place of that of `.d`, and the rule of `.a` only to the place that
the rule of `.c` has left. -/
theorem moved_rule_overtakes :
    ∃ t u v, Ready chain ∧ runRules.run chain = (.ok (), t) ∧ extendAll.run t = (.ok (), u) ∧
      orderRules.run u = (.ok (), v) ∧ selectorsOf t 2 = ".c extends .a".toList ∧
      selectorsOf t 3 = ".a".toList ∧ selectorsOf u 3 = ".a,.c,.d".toList ∧
      [2, 3].Sublist v.order ∧ ¬ [3, 2].Sublist v.order := by
  obtain ⟨t, ht⟩ : ∃ t, t = (runRules.run chain).2 := ⟨_, rfl⟩
  obtain ⟨u, hu⟩ : ∃ u, u = (extendAll.run t).2 := ⟨_, rfl⟩
  obtain ⟨hrules, hlinks, hchild, hparent, hlinked, horder, hbound, hrank, hrank'⟩ :
      (runRules.run chain).1.isOk = true ∧ (extendAll.run t).1.isOk = true ∧
      selectorsOf t 2 = ".c extends .a".toList ∧ selectorsOf t 3 = ".a".toList ∧
      selectorsOf u 3 = ".a,.c,.d".toList ∧ u.order = [0, 1, 2, 3] ∧ u.rules.size = 4 ∧
      rankOf u 2 = some 1 ∧ rankOf u 3 = some 2 := by
    rw [hu, ht]
    decide +kernel
  obtain ⟨v, hv, hordered⟩ := run_orderRules (s := u) (by rw [horder]; decide)
    (by rw [horder, hbound]; decide)
  refine ⟨t, u, v, ⟨rfl, rfl, by decide, by decide⟩, ht ▸ Run.eq_of_isOk hrules,
    hu ▸ Run.eq_of_isOk hlinks, hv, hchild, hparent, hlinked, ?_, fun hsublist => ?_⟩
  · exact hordered.sublist (by simp [horder]) (by simp [horder]) hrank hrank' (by decide)
  · have hbefore := List.pairwise_iff_forall_sublist.mp hordered.sorted hsublist
    rw [hrank, hrank'] at hbefore
    exact absurd hbefore (by decide)

end SheetPress.Linking
