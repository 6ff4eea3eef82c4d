import SheetPress.Proofs.Extend.Conservation
import SheetPress.Proofs.Sheet.Compact

/-!
# Words that are left

A rule loses the word ` extends ` and what stands behind it when its node is linked, and only then.
So the word is printed where the selector that a rule extends is nowhere found
(`missing_parent_is_printed`), and also where the node is not linked in any of the rounds.  There is
no other way: a printed selector with the word in it is still the name of a node, or it has been
noted that what it extends was not found (`printed_word_is_reported`).
-/

set_option autoImplicit false

namespace SheetPress.Linking

open List Compile Run
open Selector (own parentOf normalize extendsMark)

/-! ## Accounts -/

/-- The selectors name a node: the one that is called so, or the first that it was split into. -/
def Names (x k : Text) : Prop := k = x ∨ k = firstName x

/-- It has been noted that a selector was not found. -/
def Noted (old new : List Note) (parent : Text) : Prop :=
  ∃ lines, new = lines ++ old ∧ notFound parent ∈ lines

/-- How the selectors of a rule that is filed under a node may stand to the word ` extends `. -/
inductive Accounted (old new : List Note) (k x : Text) : Prop
  | clean : ¬ extendsMark <:+: x → Accounted old new k x
  | waiting : Names x k → Accounted old new k x
  | noted {n : Text} : Names x n → Noted old new (parentOf n) → Accounted old new k x

theorem markless_own (node : Text) : ¬ extendsMark <:+: own node := by
  rcases Selector.name_cases node with ⟨hown, -, hmark⟩ | ⟨-, hcut⟩
  · rwa [hown]
  · exact Text.not_infix_of_cut? Selector.extendsMark_ne_nil hcut

theorem Noted.cons {old new : List Note} {parent : Text} (h : Noted old new parent) (line : Note) :
    Noted old (line :: new) parent := by
  obtain ⟨lines, rfl, hmem⟩ := h
  exact ⟨line :: lines, rfl, mem_cons_of_mem line hmem⟩

theorem Accounted.cons {old new : List Note} {k x : Text} (h : Accounted old new k x)
    (line : Note) : Accounted old (line :: new) k x := by
  cases h with
  | clean hx => exact .clean hx
  | waiting hk => exact .waiting hk
  | noted hn hnoted => exact .noted hn (hnoted.cons line)

/-- The selectors of every rule are accounted for. -/
structure Reported (s₀ s : Session) : Prop extends Kept s₀ s where
  journal : s₀.pool.journal <:+ s.pool.journal
  rules : ∀ k, ∀ r ∈ Parts.rulesOf s.parts k,
    Accounted s₀.pool.journal s.pool.journal k (selectorsOf s r)

/-- So they are during a turn, but for the rules whose turn it is, until the parent is found. -/
structure ReportedTurn (s₀ : Session) (x : Extender) (found : Bool) (s : Session) : Prop
    extends Kept s₀ s where
  journal : s₀.pool.journal <:+ s.pool.journal
  clean : ¬ extendsMark <:+: x.selectors
  rules : ∀ k, ∀ r ∈ Parts.rulesOf s.parts k,
    Accounted s₀.pool.journal s.pool.journal k (selectorsOf s r) ∨
      found = false ∧ r ∈ x.rules ∧ ∃ n, Names (selectorsOf s r) n ∧ x.parent = parentOf n

theorem reported_invariant {s₀ : Session} (hfiled : (Parts.filed s₀.parts).Nodup)
    (hbound : ∀ r ∈ Parts.filed s₀.parts, r < s₀.rules.size) :
    Invariant (Reported s₀) fun x found _ s => ReportedTurn s₀ x found s where
  start := by
    intro s node _ hs _ _ _
    refine ⟨hs.move _ _, hs.journal, markless_own node, fun k r hr => ?_⟩
    rcases (Parts.mem_rulesOf_move _ _).mp hr with ⟨-, hmem⟩ | ⟨-, hmem⟩
    · cases hs.rules node r hmem with
      | clean hx => exact .inl (.clean hx)
      | waiting hk => exact .inr ⟨rfl, hmem, node, hk, rfl⟩
      | noted hn hnoted => exact .inl (.noted hn hnoted)
    · exact .inl (hs.rules k r hmem)
  skip := fun hs _ => hs
  link := by
    intro x found node _ s new t hs _ _ ht
    refine ⟨hs.links ht, ht.pool ▸ hs.journal, hs.clean, fun k r hr => .inl ?_⟩
    rw [ht.pool, ht.selectors r (ht.size ▸ (hs.links ht).lt_size hbound hr), relabel]
    split
    next hmem =>
      -- A rule of the linked node is called as the node is from now on.
      rcases ht.mem_rulesOf.mp hr with ⟨rfl, -⟩ | ⟨hne, hmem'⟩
      · exact .waiting (.inl rfl)
      · exact absurd (Parts.key_unique _ (hs.nodup hfiled) hmem' hmem) hne
    next hmem =>
      split
      next => exact .clean hs.clean
      next hchild =>
        rcases ht.mem_rulesOf.mp hr with ⟨-, hmem'⟩ | ⟨-, hmem'⟩
        · exact absurd hmem' hmem
        · rcases hs.rules k r hmem' with hk | ⟨-, hchild', -⟩
          · exact hk
          · exact absurd hchild' hchild
  finish := by
    intro x s t hs ht hpool
    refine ⟨hs.same ht, hpool ▸ hs.journal, fun k r hr => ?_⟩
    rw [ht.parts] at hr
    rw [hpool, ht.selectors r (hs.lt_size hbound hr)]
    exact (hs.rules k r hr).resolve_right fun h => Bool.noConfusion h.1
  miss := by
    intro x s hs
    refine ⟨hs.missing _, hs.journal.trans (suffix_cons _ _), fun k r hr => ?_⟩
    rcases hs.rules k r hr with hk | ⟨-, -, n, hn, hparent⟩
    · exact hk.cons _
    · obtain ⟨lines, hlines⟩ := hs.journal
      refine .noted hn ⟨notFound x.parent :: lines, ?_, ?_⟩
      · rw [cons_append, hlines]
        rfl
      · rw [hparent]
        exact mem_cons_self

theorem reported_split {s : Session} (hs : Filed s) {arrange : List Text → List Text}
    (harrange : ∀ ks, (arrange ks).Perm ks) :
    Reported s { s with parts := splitNodes arrange s.parts } := by
  refine ⟨.split hs.keys harrange, suffix_rfl, fun k r hr => .waiting ?_⟩
  obtain ⟨node, rfl, hmem⟩ := (mem_rulesOf_splitNodes harrange hs.keys hs.nodup_filed).mp hr
  rw [← hs.named node r hmem]
  exact .inr rfl

/-! ## Printing -/

section Printing

variable {R : Session → Session → Prop} [Std.Refl R] [IsTrans Session R]
variable {layout : Sheet.Layout} {debug : Bool} {r : Nat} {s t : Session}

theorem within_variableLines (indent : Text) (c : Context) :
    Within R (variableLines indent c) := by
  induction c with
  | nil => exact within_pure _
  | cons p c ih =>
    unfold variableLines
    split
    · exact within_pure _
    next heq =>
      obtain ⟨-, rfl⟩ := cons.inj heq
      exact within_bind ih fun _ => within_pure _
    · exact within_throw _

theorem within_remarksOf (layout : Sheet.Layout) (r : Nat) : Within R (remarksOf layout r) := by
  unfold remarksOf
  refine within_bind (within_settingsOf r) fun settings => ?_
  split
  · exact within_pure _
  · split
    · exact within_pure _
    · refine within_bind (within_rule r) fun rule => ?_
      split
      · exact within_throw _
      · refine within_bind (Run.within_contextOf r) fun c => ?_
        exact within_bind (within_variableLines _ c) fun _ => within_pure _

theorem blockOf_eq (layout : Sheet.Layout) (debug : Bool) (r : Nat) :
    blockOf layout debug r = Run.rule r >>= fun rule =>
      (if debug && !rule.selectors.isEmpty then
          placeOf r >>= fun place => pure (some (debugLine place))
        else pure none) >>= fun debugLine =>
      remarksOf layout r >>= fun remarks => propertiesOf r >>= fun properties =>
        pure { selectors := rule.selectors, media := rule.media,
               properties, remarks, debugLine } := by
  unfold blockOf
  refine bind_congr fun rule => ?_
  dsimp only
  split <;> simp only [bind_assoc, pure_bind]

theorem within_debugLine (c : Bool) (r : Nat) :
    Within R (if c then placeOf r >>= fun place => pure (some (debugLine place))
      else pure none) := by
  split
  · exact within_bind (within_placeOf r) fun _ => within_pure _
  · exact within_pure _

theorem within_blockOf (layout : Sheet.Layout) (debug : Bool) (r : Nat) :
    Within Eq (blockOf layout debug r) := by
  have hproperties : Within Eq (propertiesOf r) := fun s => by rw [run_propertiesOf]
  rw [blockOf_eq]
  refine within_bind (within_rule r) fun rule => ?_
  refine within_bind (within_debugLine _ r) fun debugLine => ?_
  refine within_bind (within_remarksOf layout r) fun remarks => ?_
  exact within_bind hproperties fun properties => within_pure _

/-- A rule is printed with its selectors, media and properties. -/
theorem bare_blockOf {b : Sheet.Block} (h : (blockOf layout debug r).run s = (.ok b, t)) :
    { b with remarks := [], debugLine := none } = ruleBlock s r := by
  rw [blockOf_eq, Run.run_rule_bind] at h
  obtain ⟨debugLine, u, hdebug, h⟩ := of_bind_ok h
  obtain ⟨remarks, v, hremarks, h⟩ := of_bind_ok h
  have hu : s = u := (within_debugLine _ r).of_run hdebug
  have hv : u = v := (within_remarksOf layout r).of_run hremarks
  rw [bind_ok (run_propertiesOf v r)] at h
  cases h
  rw [hu, hv]
  rfl

theorem bare_blocks {rs : List Nat} {blocks : List Sheet.Block}
    (h : (rs.mapM (blockOf layout debug)).run s = (.ok blocks, t)) :
    blocks.map (fun b => { b with remarks := [], debugLine := none }) = rs.map (ruleBlock s) := by
  induction rs generalizing blocks t with
  | nil =>
    cases h
    rfl
  | cons r rs ih =>
    rw [mapM_cons] at h
    obtain ⟨b, s', hb, hrest⟩ := of_bind_ok h
    obtain rfl : s = s' := (within_blockOf layout debug r).of_run hb
    obtain ⟨bs, t', hbs, hpure⟩ := of_bind_ok hrest
    cases hpure
    rw [map_cons, map_cons, bare_blockOf hb, ih hbs]

theorem selectors_blocks {rs : List Nat} {blocks : List Sheet.Block}
    (h : (rs.mapM (blockOf layout debug)).run s = (.ok blocks, t)) :
    blocks.map Sheet.Block.selectors = rs.map (selectorsOf s) := by
  have hbare := congrArg (map Sheet.Block.selectors) (bare_blocks h)
  rwa [map_map, map_map] at hbare

theorem mem_order_of_printed {file : Option Text} (h : collectRules.run s = (.ok (), t))
    (hr : r ∈ printedRules t file) : r ∈ s.order := by
  obtain rfl : _ = t := congrArg Prod.snd h
  unfold printedRules at hr
  split at hr
  · exact (mem_filter.mp hr).1
  · exact (mem_filter.mp hr).1
  · exact (mem_filter.mp (mem_filter.mp hr).1).1

end Printing

/-! ## All turns -/

/-- A printed selector with the word ` extends ` in it is the name of a node that has not been
linked, or it has been noted that the selector that it extends was not found. -/
theorem printed_word_is_reported {s t v w : Session} (hs : Ready s)
    (ht : runRules.run s = (.ok (), t)) (e : Enumeration)
    (hv : (do extendAllIn e; orderRules; collectRules : Run Unit).run t = (.ok (), v))
    {file : Option Text} {layout : Sheet.Layout} {debug : Bool} {blocks : List Sheet.Block}
    (hblocks : ((printedRules v file).mapM (blockOf layout debug)).run v = (.ok blocks, w)) :
    ∃ lines, v.pool.journal = lines ++ t.pool.journal ∧
      ∀ b ∈ blocks, extendsMark <:+: b.selectors →
        ∃ n, Names b.selectors n ∧ (n ∈ v.parts.map Prod.fst ∨ notFound (parentOf n) ∈ lines) := by
  have hfiled := (hs.run_runRules ht).1
  obtain ⟨_, u, hlinked, hrest⟩ := of_bind_ok hv
  have hu : Reported t u :=
    (reported_invariant hfiled.nodup_filed fun _ => hfiled.bound_filed).run_extendAllIn e
      (reported_split hfiled (e.perm 0 0)) |>.of_ok hlinked
  obtain ⟨u', horder, hu'⟩ := hu.run_orderRules hfiled
  rw [bind_ok horder] at hrest
  have hprinted : ∀ r ∈ printedRules v file, r ∈ u.order := fun r hr =>
    hu'.perm.mem_iff.mp (mem_order_of_printed hrest hr)
  obtain rfl : _ = v := congrArg Prod.snd hrest
  obtain ⟨lines, hlines⟩ := hu.journal
  refine ⟨lines, hlines ▸ congrArg Pool.journal hu'.pool, fun b hb hmark => ?_⟩
  have hselectors : b.selectors ∈ (printedRules _ file).map (selectorsOf _) :=
    selectors_blocks hblocks ▸ List.mem_map_of_mem hb
  obtain ⟨r, hr, heq⟩ := List.mem_map.mp hselectors
  have hfiled' := hu.filed.mem_iff.mpr (hfiled.rules.mem_iff.mpr (hu.order ▸ hprinted r hr))
  obtain ⟨k, hk⟩ := (Parts.mem_filed _ hu.keys).mp hfiled'
  have hx : selectorsOf u r = b.selectors := (hu'.selectors r).symm.trans heq
  cases hx ▸ hu.rules k r hk with
  | clean hx => exact absurd hmark hx
  | waiting hn => exact ⟨k, hn, Or.inl (hu'.parts.symm ▸ Parts.mem_keys_of_mem_rulesOf _ _ hk)⟩
  | noted hn hnoted =>
    obtain ⟨lines', hlines', hmem⟩ := hnoted
    exact ⟨_, hn, Or.inr (List.append_cancel_right (hlines.trans hlines') ▸ hmem)⟩

/-- What becomes of finished rules that are in order when they have been linked. -/
def finished (t : Session) : Session :=
  (collectRules.run { (extendAll.run t).2 with
    rules := modifyAll (extendAll.run t).2.order place (extendAll.run t).2.rules }).2

theorem exists_blocks (s : Session) (selectors : List Text) {t : Session}
    (ht : t = (runRules.run s).2)
    (h : (runRules.run s).1.isOk = true ∧ (extendAll.run t).1.isOk = true ∧
      InOrder (extendAll.run t).2 ∧
      (((printedRules (finished t) none).mapM (blockOf .compact false)).run
        (finished t)).1.isOk = true ∧
      (printedRules (finished t) none).map (selectorsOf (finished t)) = selectors) :
    ∃ w blocks, runRules.run s = (.ok (), t) ∧
      (do extendAll; orderRules; collectRules : Run Unit).run t = (.ok (), finished t) ∧
      ((printedRules (finished t) none).mapM (blockOf .compact false)).run (finished t) =
        (.ok blocks, w) ∧
      blocks.map Sheet.Block.selectors = selectors := by
  obtain ⟨hrules, hlinked, hsorted, hblocks, hselectors⟩ := h
  obtain ⟨blocks, hblocks⟩ := Run.exists_of_isOk hblocks
  refine ⟨_, blocks, ht ▸ eq_of_isOk hrules, ?_, hblocks,
    (selectors_blocks hblocks).trans hselectors⟩
  rw [bind_ok (eq_of_isOk hlinked), bind_ok hsorted.run_orderRules]
  rfl

/-- A sheet in which one rule extends another and one extends nothing that is there. -/
def halfLinked : Session where
  sinks := #[[⟨0, "x".toList, some "y".toList⟩]]
  rules := #[
    { selectors := ".a".toList, sink := some 0 },
    { selectors := ".c extends .a".toList, sink := some 0 },
    { selectors := ".d extends .zz".toList, sink := some 0 }]
  queue := [0, 1, 2]

theorem printed_word_is_reported_half :
    ∃ t v w blocks lines, runRules.run halfLinked = (.ok (), t) ∧
      (do extendAllIn .inserted; orderRules; collectRules : Run Unit).run t = (.ok (), v) ∧
      ((printedRules v none).mapM (blockOf .compact false)).run v = (.ok blocks, w) ∧
      blocks.map Sheet.Block.selectors = [".a,.c", ".c", ".d extends .zz"].map String.toList ∧
      v.pool.journal = lines ++ t.pool.journal ∧
      ∀ b ∈ blocks, extendsMark <:+: b.selectors →
        ∃ n, Names b.selectors n ∧
          (n ∈ v.parts.map Prod.fst ∨ notFound (parentOf n) ∈ lines) := by
  obtain ⟨w, blocks, ht, hv, hblocks, hselectors⟩ :=
    exists_blocks halfLinked ([".a,.c", ".c", ".d extends .zz"].map String.toList) rfl
      (by decide +kernel)
  obtain ⟨lines, hlines, hreported⟩ := printed_word_is_reported
    ⟨rfl, rfl, by decide, by decide⟩ ht .inserted hv hblocks
  exact ⟨_, _, w, blocks, lines, ht, hv, hblocks, hselectors, hlines, hreported⟩

/-- A source in which a rule extends nothing that is there. -/
def orphan : Session := opened {} [] none ".c extends .zz \x7bx:y\x7d".toList

/-- The word is printed. -/
theorem missing_parent_is_printed :
    ∃ t v w blocks, Ready orphan ∧ runRules.run orphan = (.ok (), t) ∧
      (do extendAll; orderRules; collectRules : Run Unit).run t = (.ok (), v) ∧
      ((printedRules v none).mapM (blockOf .compact false)).run v = (.ok blocks, w) ∧
      blocks.map Sheet.Block.selectors = [".c extends .zz".toList] ∧
      extendsMark <:+: ".c extends .zz".toList := by
  obtain ⟨w, blocks, ht, hv, hblocks, hselectors⟩ :=
    exists_blocks orphan [".c extends .zz".toList] rfl (by decide +kernel)
  exact ⟨_, _, w, blocks, ⟨rfl, rfl, by decide, by decide⟩, ht, hv, hblocks, hselectors,
    by decide +kernel⟩

end SheetPress.Linking
