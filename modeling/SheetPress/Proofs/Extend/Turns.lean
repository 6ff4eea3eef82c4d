import SheetPress.Proofs.Extend.Split

/-!
# Turns

The nodes that extend a selector have their turns one after the other.  A node on its turn goes to
its own selectors, with its rules, and is then linked with every node in which the selector that it
extends is found.  What holds between the turns and what holds during one is an `Invariant` if
each of these steps keeps it.  It then holds to the end, in whatever order the nodes are gone
through, and also where a selector that is no pattern ends the run (`Invariant.run_extendAllIn`).
-/

set_option autoImplicit false

namespace SheetPress.Linking

open List Text Compile Parts
open Selector (own parentOf ownSelectors normalize)

/-! ## Splitting nodes -/

section Splitting

variable {node k : Text} {ps qs : Parts} {todo : List Text} {r : Nat}

/-- A node is split into itself, or into one node for each selector that it extends. -/
theorem splitNames_cases (hk : k ∈ splitNames node) :
    (k = node ∧ cut? Selector.extendsMark k = none) ∨
      ∃ p ∈ Text.splitOn '&' (parentOf node), k = own node ++ Selector.extendsMark ++ p ∧
        cut? Selector.extendsMark k = some (own node, p) := by
  rcases Selector.name_cases node with ⟨-, -, hmark⟩ | ⟨-, hcut⟩
  · have hnone := cut?_eq_none_iff.mpr hmark
    rw [splitNames, hnone, mem_singleton] at hk
    exact .inl ⟨hk, hk ▸ hnone⟩
  · rw [splitNames, hcut] at hk
    obtain ⟨p, hp, rfl⟩ := mem_map.mp hk
    refine .inr ⟨p, hp, rfl, ?_⟩
    rw [append_assoc]
    exact cut?_of_cut? hcut p

/-- The nodes that a node is split into have its selectors. -/
theorem own_of_mem_splitNames (hk : k ∈ splitNames node) : own k = own node := by
  rcases splitNames_cases hk with ⟨rfl, -⟩ | ⟨p, -, -, hcut⟩
  · rfl
  · rw [own, Selector.cutExtends, cut, hcut]
    rfl

theorem own_firstName (node : Text) : own (firstName node) = own node :=
  own_of_mem_splitNames (firstName_mem node)

theorem firstName_firstName (node : Text) : firstName (firstName node) = firstName node := by
  rcases splitNames_cases (firstName_mem node) with ⟨-, hcut⟩ | ⟨p, hp, hname, hcut⟩
  · rw [firstName, splitNames, hcut]
    rfl
  · rw [firstName, splitNames, hcut]
    simp only [splitOn_of_notMem (notMem_of_mem_splitOn hp), map_singleton,
      headD_cons]
    exact hname.symm

theorem filed_addNames (names : List Text) (ps : Parts) :
    (filed (names.foldl (fun ps n => Parts.add n [] ps) ps)).Perm ps.filed := by
  induction names generalizing ps with
  | nil => exact .refl _
  | cons n names ih => exact (ih _).trans (by simpa using filed_add (k := n) ps [])

theorem filed_splitNode (hkeys : (ps.map Prod.fst).Nodup) (node : Text) :
    (filed (splitNode ps node)).Perm ps.filed := by
  unfold splitNode
  split
  · exact .refl _
  · dsimp only
    split
    next hnil => simp [splitOn_ne_nil] at hnil
    next => exact (filed_addNames _ _).trans (filed_move ps hkeys)

/-- The table after some nodes have been split: every rule is at the first node of its node. -/
structure Splits (todo : List Text) (ps qs : Parts) : Prop where
  keys : (qs.map Prod.fst).Nodup
  filed : qs.filed.Perm ps.filed
  names : ∀ k ∈ qs.map Prod.fst,
    (k ∈ ps.map Prod.fst ∧ k ∉ todo) ∨ ∃ node ∈ todo, k ∈ splitNames node
  stays : ∀ node r, r ∈ ps.rulesOf (firstName node) → r ∈ qs.rulesOf (firstName node)
  moved : ∀ node ∈ todo, ∀ r ∈ ps.rulesOf node, r ∈ qs.rulesOf (firstName node)

theorem splits_foldl (hkeys : (ps.map Prod.fst).Nodup) (htodo : todo.Nodup)
    (hmem : ∀ node ∈ todo, node ∈ ps.map Prod.fst) : Splits todo ps (todo.foldl splitNode ps) := by
  induction todo generalizing ps with
  | nil => exact ⟨hkeys, .refl _, fun _ hk => .inl ⟨hk, by simp⟩, fun _ _ => id, by simp⟩
  | cons node todo ih =>
    rw [nodup_cons] at htodo
    have hnode := hmem node (by simp)
    have hself : Parts.Holds ps (· ∈ ps.map Prod.fst) fun k r => r ∈ ps.rulesOf k :=
      ⟨hkeys, fun _ => Iff.rfl, fun _ _ => Iff.rfl⟩
    have hholds := holds_splitNode hself hnode
    have hnext : ∀ k ∈ todo, k ∈ (splitNode ps node).map Prod.fst := fun k hk =>
      (hholds.keys k).mpr (.inr ⟨fun heq => htodo.1 (heq ▸ hk), hmem k (by simp [hk])⟩)
    have hrest := ih hholds.nodup htodo.2 hnext
    refine ⟨hrest.keys, hrest.filed.trans (filed_splitNode hkeys node), ?_, ?_, ?_⟩
    · intro k hk
      rcases hrest.names k hk with ⟨hk, htodo'⟩ | ⟨n, hn, hk⟩
      · rcases (hholds.keys k).mp hk with hk | ⟨hne, hk⟩
        · exact .inr ⟨node, by simp, hk⟩
        · exact .inl ⟨hk, by simp [hne, htodo']⟩
      · exact .inr ⟨n, by simp [hn], hk⟩
    · intro n r hr
      refine hrest.stays n r ((hholds.rules _ r).mpr ?_)
      by_cases heq : firstName n = node
      · exact .inl ⟨by rw [← heq, firstName_firstName], heq ▸ hr⟩
      · exact .inr ⟨heq, hr⟩
    · intro n hn r hr
      by_cases heq : n = node
      · subst heq
        exact hrest.stays n r ((hholds.rules _ r).mpr (.inl ⟨rfl, hr⟩))
      · refine hrest.moved n ((mem_cons.mp hn).resolve_left heq) r ?_
        exact (hholds.rules n r).mpr (.inr ⟨heq, hr⟩)

variable {arrange : List Text → List Text}

theorem splits_splitNodes (harrange : ∀ ks, (arrange ks).Perm ks)
    (hkeys : (ps.map Prod.fst).Nodup) :
    Splits (arrange (ps.map Prod.fst)) ps (splitNodes arrange ps) :=
  splits_foldl hkeys ((harrange _).nodup_iff.mpr hkeys) fun _ => (harrange _).mem_iff.mp

theorem mem_keys_splitNodes (harrange : ∀ ks, (arrange ks).Perm ks)
    (hkeys : (ps.map Prod.fst).Nodup) (hk : k ∈ (splitNodes arrange ps).map Prod.fst) :
    ∃ node ∈ ps.map Prod.fst, k ∈ splitNames node := by
  rcases (splits_splitNodes harrange hkeys).names k hk with ⟨hk, htodo⟩ | ⟨node, hnode, hk⟩
  · exact absurd ((harrange _).mem_iff.mpr hk) htodo
  · exact ⟨node, (harrange _).mem_iff.mp hnode, hk⟩

/-- A rule is at the first of the nodes that its node has been split into, and nowhere else. -/
theorem mem_rulesOf_splitNodes (harrange : ∀ ks, (arrange ks).Perm ks)
    (hkeys : (ps.map Prod.fst).Nodup) (hfiled : ps.filed.Nodup) :
    r ∈ (splitNodes arrange ps).rulesOf k ↔ ∃ node, k = firstName node ∧ r ∈ ps.rulesOf node := by
  have hsplits := splits_splitNodes harrange hkeys
  have hmoved : ∀ {node}, r ∈ ps.rulesOf node →
      r ∈ (splitNodes arrange ps).rulesOf (firstName node) := by
    intro node hr
    exact hsplits.moved node ((harrange _).mem_iff.mpr (mem_keys_of_mem_rulesOf _ _ hr)) r hr
  constructor
  · intro hr
    have hmem := hsplits.filed.mem_iff.mp (mem_filed_of_mem_rulesOf _ _ hr)
    obtain ⟨node, hnode⟩ := (mem_filed ps hkeys).mp hmem
    exact ⟨node, key_unique _ (hsplits.filed.nodup_iff.mpr hfiled) hr (hmoved hnode), hnode⟩
  · rintro ⟨node, rfl, hr⟩
    exact hmoved hr

end Splitting

/-! ## One node on its turn -/

/-- A node on its turn: the selector that it extends, its own selectors and its rules. -/
structure Extender where
  parent : Text
  selectors : Text
  rules : List Nat

namespace Extender

/-- A node of a table as it comes to its turn. -/
def of (ps : Parts) (node : Text) : Extender := ⟨parentOf node, own node, ps.rulesOf node⟩

/-- The selectors that another node gets. -/
def adds (x : Extender) (node : Text) : Except Fault (List Text) :=
  extensions x.parent (Text.splitOn ',' x.selectors) (ownSelectors node)

end Extender

section Extensions

variable {α β : Type} {f : Fault}

variable {g : α → Except Fault β}

theorem bind_eq_ok {x : Except Fault α} {b : β} :
    x >>= g = .ok b ↔ ∃ a, x = .ok a ∧ g a = .ok b := by
  cases x <;> simp [bind, Except.bind]

theorem bind_eq_error {x : Except Fault α} :
    x >>= g = .error f ↔ x = .error f ∨ ∃ a, x = .ok a ∧ g a = .error f := by
  cases x <;> simp [bind, Except.bind]

theorem mem_of_mapM {xs : List α} {ys : List β} (h : xs.mapM g = .ok ys) {x : α} (hx : x ∈ xs)
    {y : β} (hy : g x = .ok y) : y ∈ ys := by
  induction xs generalizing ys with
  | nil => simp at hx
  | cons z xs ih =>
    rw [mapM_cons] at h
    obtain ⟨a, ha, h⟩ := bind_eq_ok.mp h
    obtain ⟨as, has, h⟩ := bind_eq_ok.mp h
    obtain rfl : a :: as = ys := Except.ok.inj h
    rcases mem_cons.mp hx with rfl | hx
    · rw [hy] at ha
      simp [Except.ok.inj ha]
    · exact mem_cons_of_mem a (ih has hx)

theorem error_of_mapM {xs : List α} (h : xs.mapM g = .error f) : ∃ x ∈ xs, g x = .error f := by
  induction xs with
  | nil => cases h
  | cons x xs ih =>
    rw [mapM_cons] at h
    rcases bind_eq_error.mp h with h | ⟨a, -, h⟩
    · exact ⟨x, mem_cons_self, h⟩
    · rcases bind_eq_error.mp h with h | ⟨as, -, h⟩
      · obtain ⟨y, hy, h⟩ := ih h
        exact ⟨y, mem_cons_of_mem x hy, h⟩
      · cases h

variable {parent : Text} {children selectors new : List Text}

theorem extensions_cons_pos {s : Text} (h : Text.contains s parent = true) :
    extensions parent children (s :: selectors) =
      (children.mapM fun c => extended? parent c s) >>= fun found =>
        extensions parent children selectors >>= fun more => pure (found.filterMap id ++ more) := by
  rw [extensions, if_pos h]
  simp only [pure_bind]

theorem extensions_cons_neg {s : Text} (h : ¬ Text.contains s parent = true) :
    extensions parent children (s :: selectors) =
      extensions parent children selectors >>= fun more => pure more := by
  rw [extensions, if_neg h, pure_bind]
  rfl

/-- The replacement in which the parent cannot be read as a pattern, or a child as what is put in
its place. -/
theorem error_of_extensions (h : extensions parent children selectors = .error f) :
    ∃ s ∈ selectors, Text.contains s parent = true ∧
      ∃ c ∈ children, extended? parent c s = .error f := by
  induction selectors with
  | nil => cases h
  | cons s selectors ih =>
    have hlater : extensions parent children selectors = .error f →
        ∃ s' ∈ s :: selectors, Text.contains s' parent = true ∧
          ∃ c ∈ children, extended? parent c s' = .error f := fun h =>
      (ih h).imp fun _ => And.imp_left (mem_cons_of_mem s)
    by_cases hs : contains s parent = true
    · rw [extensions_cons_pos hs] at h
      rcases bind_eq_error.mp h with h | ⟨found, -, h⟩
      · exact ⟨s, mem_cons_self, hs, error_of_mapM h⟩
      · rcases bind_eq_error.mp h with h | ⟨more, -, h⟩
        · exact hlater h
        · cases h
    · rw [extensions_cons_neg hs, bind_pure] at h
      exact hlater h

theorem mem_of_extensions (h : extensions parent children selectors = .ok new) {s c y : Text}
    (hs : s ∈ selectors) (hparent : Text.contains s parent = true) (hc : c ∈ children)
    (hy : extended? parent c s = .ok (some y)) : y ∈ new := by
  induction selectors generalizing new with
  | nil => simp at hs
  | cons z selectors ih =>
    by_cases hz : contains z parent = true
    · rw [extensions_cons_pos hz] at h
      obtain ⟨found, hfound, h⟩ := bind_eq_ok.mp h
      obtain ⟨more, hmore, h⟩ := bind_eq_ok.mp h
      obtain rfl : found.filterMap id ++ more = new := Except.ok.inj h
      rcases mem_cons.mp hs with rfl | hs
      · refine mem_append_left _ (mem_filterMap.mpr ⟨some y, ?_, rfl⟩)
        exact mem_of_mapM hfound hc hy
      · exact mem_append_right _ (ih hmore hs)
    · rw [extensions_cons_neg hz, bind_pure] at h
      rcases mem_cons.mp hs with rfl | hs
      · exact absurd hparent hz
      · exact ih h hs

end Extensions

/-- A node has been linked: it has its new selectors, and its rules have to come before those of
the extender. -/
structure Links (x : Extender) (node : Text) (new : List Text) (s t : Session) : Prop where
  parts : t.parts = if normalize node new [] = node then s.parts
    else move s.parts node (normalize node new [])
  pool : t.pool = s.pool
  order : t.order = s.order
  size : t.rules.size = s.rules.size
  selectors : ∀ r < s.rules.size, selectorsOf t r =
    relabel x.selectors (normalize node new []) x.rules (rulesOf s.parts node) r
      (selectorsOf s r)
  defers : Defers (fun r n => r ∈ rulesOf s.parts node ∧
    ∃ c ∈ x.rules, positionOf s c = some n) s t

namespace Links

variable {x : Extender} {node k : Text} {new : List Text} {s t : Session} {r : Nat}

theorem mem_rulesOf (h : Links x node new s t) :
    r ∈ rulesOf t.parts k ↔ k = normalize node new [] ∧ r ∈ rulesOf s.parts node ∨
      k ≠ node ∧ r ∈ rulesOf s.parts k := by
  rw [h.parts]
  split
  next heq =>
    rw [heq]
    by_cases hk : k = node <;> simp [hk]
  next => exact mem_rulesOf_move _ _

theorem mem_keys (h : Links x node new s t) (hk : k ∈ t.parts.map Prod.fst) :
    k = normalize node new [] ∨ k ∈ s.parts.map Prod.fst := by
  rw [h.parts] at hk
  split at hk
  · exact .inr hk
  · exact ((mem_keys_move _ _).mp hk).imp_right And.right

theorem nodup_keys (h : Links x node new s t) (hkeys : (s.parts.map Prod.fst).Nodup) :
    (t.parts.map Prod.fst).Nodup := by
  rw [h.parts]
  split
  · exact hkeys
  · exact nodup_keys_move _ hkeys

theorem filed (h : Links x node new s t) (hkeys : (s.parts.map Prod.fst).Nodup) :
    (filed t.parts).Perm (filed s.parts) := by
  rw [h.parts]
  split
  · exact .refl _
  · exact filed_move _ hkeys

end Links

/-- Linking a node fails, does nothing to it, or links it. -/
theorem run_linkNode (x : Extender) (node : Text) (s : Session) :
    (∃ f, x.adds node = .error f ∧
        (linkNode x.parent x.selectors x.rules node).run s = (.error f, s)) ∨
      (x.adds node = .ok [] ∧
        (linkNode x.parent x.selectors x.rules node).run s = (.ok none, s)) ∨
      ∃ new t, x.adds node = .ok new ∧ new ≠ [] ∧ Links x node new s t ∧
        (linkNode x.parent x.selectors x.rules node).run s =
          (.ok (some (rulesOf s.parts node)), t) := by
  cases hadds : x.adds node with
  | error f =>
    refine .inl ⟨f, rfl, ?_⟩
    unfold linkNode
    rw [Run.run_get_bind]
    have hadds' : extensions x.parent (Text.splitOn ',' x.selectors)
        (Text.splitOn ',' (Selector.cutExtends node).1) = .error f := hadds
    simp only [hadds']
    rfl
  | ok new =>
    by_cases hne : new = []
    · subst hne
      exact .inr (.inl ⟨rfl, run_linkNode_of_nil hadds⟩)
    · obtain ⟨t, hrun, ht, ht'⟩ := run_linkNode_of_ne hadds hne
      exact .inr (.inr ⟨new, t, rfl, hne,
        ⟨ht.parts, ht.pool, ht.order, ht.size, ht.selectors, ht'⟩, hrun⟩)

/-! ## What turns keep -/

/-- Nothing has changed of what linking looks at. -/
structure Same (s t : Session) : Prop where
  parts : t.parts = s.parts
  order : t.order = s.order
  size : t.rules.size = s.rules.size
  selectors : ∀ r < s.rules.size, selectorsOf t r = selectorsOf s r
  defers : Defers.Nothing s t

/-- The line that says that a selector was not found. -/
def notFound (parent : Text) : Note :=
  .line .warning ("Parent rule not found: ".toList ++ parent)

/-- The session in which this has been noted. -/
def missing (s : Session) (parent : Text) : Session :=
  { s with pool := { s.pool with journal := notFound parent :: s.pool.journal } }

/-- Something holds between the turns, and something else during a turn, when the nodes of `todo`
are still to be linked and the parent has been `found` or not. -/
structure Invariant (between : Session → Prop)
    (during : (x : Extender) → (found : Bool) → (todo : List Text) → Session → Prop) : Prop where
  start : ∀ {s node todo}, between s → node ∈ s.parts.map Prod.fst → isExtending node = true →
    todo.Perm ((move s.parts node (own node)).map Prod.fst) →
    during (.of s.parts node) false todo { s with parts := move s.parts node (own node) }
  skip : ∀ {x found node todo s}, during x found (node :: todo) s → x.adds node = .ok [] →
    during x found todo s
  link : ∀ {x found node todo s new t}, during x found (node :: todo) s → x.adds node = .ok new →
    new ≠ [] → Links x node new s t → during x true todo t
  finish : ∀ {x s t}, during x true [] s → Same s t → t.pool = s.pool → between t
  miss : ∀ {x s}, during x false [] s → between (missing s x.parent)

/-- How a run may end: between two turns, or in the middle of one with a node for which the
selectors to be added cannot be found. -/
inductive Ends (between : Session → Prop)
    (during : Extender → Bool → List Text → Session → Prop) : Except Fault Unit × Session → Prop
  | ok {t : Session} : between t → Ends between during (.ok (), t)
  | error {f : Fault} {x : Extender} {found : Bool} {node : Text} {todo : List Text} {t : Session} :
      x.adds node = .error f → during x found (node :: todo) t → Ends between during (.error f, t)

theorem Ends.of_ok {between : Session → Prop}
    {during : Extender → Bool → List Text → Session → Prop} {x : Run Unit} {s t : Session}
    (h : Ends between during (x.run s)) (hrun : x.run s = (.ok (), t)) : between t := by
  rw [hrun] at h
  cases h with
  | ok ht => exact ht

namespace Invariant

variable {s : Session}

variable {between : Session → Prop} {during : Extender → Bool → List Text → Session → Prop}

theorem run_linkNodes (h : Invariant between during) (x : Extender) (found : Option (List Nat))
    {todo : List Text} (hs : during x found.isSome todo s) :
    (∃ found' t, (linkNodes x.parent x.selectors x.rules found todo).run s = (.ok found', t) ∧
        during x found'.isSome [] t) ∨
      ∃ f found' node todo' t,
        (linkNodes x.parent x.selectors x.rules found todo).run s = (.error f, t) ∧
        x.adds node = .error f ∧ during x found' (node :: todo') t := by
  induction todo generalizing found s with
  | nil => exact .inl ⟨found, s, rfl, hs⟩
  | cons node todo ih =>
    unfold linkNodes
    rcases run_linkNode x node s with
      ⟨f, hf, hrun⟩ | ⟨hadds, hrun⟩ | ⟨new, t, hadds, hne, ht, hrun⟩
    · refine .inr ⟨f, _, node, todo, s, ?_, hf, hs⟩
      rw [Run.run_bind, hrun]
    · rw [Run.bind_ok hrun]
      exact ih found (h.skip hs hadds)
    · rw [Run.bind_ok hrun]
      exact ih (some _) (h.link hs hadds hne ht)

theorem run_extendNode (h : Invariant between during) {arrange : List Text → List Text}
    (harrange : ∀ ks, (arrange ks).Perm ks) {node : Text} (hnode : isExtending node = true)
    (hs : between s) : Ends between during ((extendNode arrange node).run s) := by
  by_cases hmem : node ∈ s.parts.map Prod.fst
  · have hany : s.parts.any (·.1 == node) = true := by
      obtain ⟨p, hp, hkey⟩ := mem_map.mp hmem
      exact any_eq_true.mpr ⟨p, hp, by simp [hkey]⟩
    have hcut : Selector.cutExtends node = (own node, parentOf node) := rfl
    have hstart := h.start hs hmem hnode (harrange _)
    unfold extendNode
    rw [hcut, Run.run_get_bind]
    simp only [hany, Bool.not_true, Bool.false_eq_true, if_false, Run.run_modify_bind]
    rw [← move]
    rcases h.run_linkNodes (.of s.parts node) none hstart with
      ⟨found, t, hrun, ht⟩ | ⟨f, found, n, todo, t, hrun, hf, ht⟩
    · simp only [Extender.of] at hrun
      rw [Run.bind_ok hrun]
      cases found with
      | none => exact .ok (h.miss ht)
      | some parents =>
        obtain ⟨⟨context, settings⟩, hheritage⟩ := run_heritage parents [] [] t
        obtain ⟨u, hinherit, hu, hu'⟩ := run_inheritAll context settings
          (rulesOf s.parts node) t
        rw [Run.bind_ok hheritage, Run.bind_ok hinherit]
        exact .ok (h.finish ht ⟨hu.parts, hu.order, hu.size, hu.selectors, hu'⟩ hu.pool)
    · simp only [Extender.of] at hrun
      rw [Run.run_bind, hrun]
      exact .error hf ht
  · rw [Extending.Stage.run_extendNode_of_notMem hmem]
    exact .ok hs

theorem run_extendNodes (h : Invariant between during) (e : Enumeration) (round turn : Nat)
    {nodes : List Text} (hnodes : ∀ node ∈ nodes, isExtending node = true)
    (hs : between s) : Ends between during ((extendNodes e round turn nodes).run s) := by
  induction nodes generalizing turn s with
  | nil => exact .ok hs
  | cons node nodes ih =>
    unfold extendNodes
    rw [Run.run_bind]
    rcases hend : (extendNode (e.order round turn) node).run s with ⟨result, t⟩
    cases hend ▸ h.run_extendNode (e.perm round turn) (hnodes node (by simp)) hs with
    | ok ht => exact ih (turn + 1) (fun k hk => hnodes k (by simp [hk])) ht
    | error hf ht => exact .error hf ht

theorem run_extendRounds (h : Invariant between during) (e : Enumeration) (n : Nat)
    (hs : between s) : Ends between during ((extendRounds e n).run s) := by
  induction n generalizing s with
  | zero => exact .ok hs
  | succ n ih =>
    unfold extendRounds
    rw [Run.run_get_bind]
    dsimp only
    split
    · exact .ok hs
    · rw [Run.run_bind]
      have hnodes : ∀ node ∈ (e.order (n + 1) 0 (s.parts.map Prod.fst)).filter isExtending,
          isExtending node = true := fun node hnode => (mem_filter.mp hnode).2
      have hround := h.run_extendNodes e (n + 1) 1 hnodes hs
      rcases hend : (extendNodes e (n + 1) 1 _).run s with ⟨result, t⟩
      cases hend ▸ hround with
      | ok ht => exact ih ht
      | error hf ht => exact .error hf ht

theorem run_extendAllIn (h : Invariant between during) (e : Enumeration)
    (hs : between { s with parts := splitNodes (e.order 0 0) s.parts }) :
    Ends between during ((extendAllIn e).run s) :=
  h.run_extendRounds e 10 hs

end Invariant

end SheetPress.Linking
