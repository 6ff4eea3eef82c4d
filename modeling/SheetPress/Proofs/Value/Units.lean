import SheetPress.Proofs.Value.Drift

/-!
# Units are kept by arithmetic

The unit of a number is not stored: it is the heaviest of the units that took part in computing it.
Merging the units of two operands forgets none and invents none.  A bare number next to a percentage
becomes a percentage, and a percentage next to another unit becomes a share of it; both leave the
units of the operands, taken together, as they are or drop the percentage for the other unit.

So a computed number shows a unit that took part in one of the numbers it was computed from, and
none only if none of them carries one (`arithmetic_keeps_units`).  It need not be one that any of
them shows (`sum_shows_third_unit`).  The numbers may be shared: one that turns into a percentage on
the way does so because another one is a percentage.
-/

set_option autoImplicit false

namespace SheetPress

open List

/-! ## The names in a table of units -/

namespace Units

/-- The units in a table, the lead included; the empty text is no unit. -/
def names (u : Units) : List Text :=
  (u.weights.map Prod.fst ++ u.lead.toList).filter fun t => !t.isEmpty

/-- The lead is one of the units with a weight. -/
def Formed (u : Units) : Prop := ∀ l ∈ u.lead, l = [] ∨ l ∈ u.weights.map Prod.fst

variable {u v : Units} {n : Text}

theorem formed_none : Units.none.Formed := by
  intro l hl
  cases hl

theorem formed_only (t : Text) : (Units.only t).Formed := by
  intro l hl
  obtain rfl : t = l := by simpa [only] using hl
  exact .inr (by simp [only])

theorem names_none : Units.none.names = [] := rfl

theorem mem_names_only {t : Text} : n ∈ (Units.only t).names ↔ n ≠ [] ∧ n = t := by
  simp [names, only, and_comm]

/-- The units of a table in good form are those with a weight. -/
theorem Formed.mem_names (h : u.Formed) : n ∈ u.names ↔ n ≠ [] ∧ n ∈ u.weights.map Prod.fst := by
  have hlead : n ≠ [] → n ∈ u.lead → n ∈ u.weights.map Prod.fst := fun hn hl =>
    (h n hl).resolve_left hn
  simp only [names, mem_filter, mem_append, Option.mem_toList, Bool.not_eq_true',
    isEmpty_eq_false_iff]
  tauto

theorem mem_bump {t : Text} {w : Nat} {ws : List (Text × Nat)} :
    n ∈ (bump t w ws).map Prod.fst ↔ n = t ∨ n ∈ ws.map Prod.fst := by
  induction ws with
  | nil => simp [bump]
  | cons p ws ih =>
    obtain ⟨v, k⟩ := p
    rw [bump]
    split
    next hv => simp [hv]
    · rw [map_cons, mem_cons, ih, map_cons, mem_cons]
      tauto

theorem mem_foldl_bump {ws vs : List (Text × Nat)} :
    n ∈ (vs.foldl (fun ws p => bump p.1 p.2 ws) ws).map Prod.fst ↔
      n ∈ ws.map Prod.fst ∨ n ∈ vs.map Prod.fst := by
  induction vs generalizing ws with
  | nil => simp
  | cons p vs ih =>
    rw [foldl_cons, ih, mem_bump, map_cons, mem_cons]
    tauto

/-! ## The unit shown -/

/-- Of ranked units one is found as soon as there is one with a name. -/
theorem foldl_heavier {ws : List (Text × Nat)} {best : Option (Text × Nat)}
    (hbest : ∀ b ∈ best, b.1 ≠ []) :
    (∀ b ∈ ws.foldl heavier best, b.1 ≠ [] ∧ (b ∈ best ∨ b ∈ ws)) ∧
      (ws.foldl heavier best = .none → best = .none ∧ ∀ p ∈ ws, p.1 = []) := by
  induction ws generalizing best with
  | nil => exact ⟨fun b hb => ⟨hbest b hb, .inl hb⟩, fun h => ⟨h, by simp⟩⟩
  | cons p ws ih =>
    have hnext : ∀ b ∈ heavier best p, b.1 ≠ [] ∧ (b ∈ best ∨ b = p) := by
      unfold heavier
      grind
    have hnone : heavier best p = .none → best = .none ∧ p.1 = [] := by
      unfold heavier
      grind
    obtain ⟨hsome, hempty⟩ := ih fun b hb => (hnext b hb).1
    rw [foldl_cons]
    refine ⟨fun b hb => ?_, fun h => ?_⟩
    · obtain ⟨hname, hold | hnew⟩ := hsome b hb
      · rcases (hnext b hold).2 with hbest | rfl
        · exact ⟨hname, .inl hbest⟩
        · exact ⟨hname, .inr mem_cons_self⟩
      · exact ⟨hname, .inr (mem_cons_of_mem p hnew)⟩
    · obtain ⟨hhead, htail⟩ := hempty h
      obtain ⟨hbest, hp⟩ := hnone hhead
      exact ⟨hbest, forall_mem_cons.mpr ⟨hp, htail⟩⟩

theorem mem_ranked : n ∈ u.ranked.map Prod.fst ↔ n ∈ u.lead ∨ n ∈ u.weights.map Prod.fst := by
  unfold ranked
  cases u.lead with
  | none => simp
  | some l => simp [mem_bump, eq_comm]

theorem shown_cases (u : Units) :
    (u.shown = [] ∧ u.names = []) ∨ (u.shown ≠ [] ∧ u.shown ∈ u.names) := by
  obtain ⟨hsome, hempty⟩ := @foldl_heavier u.ranked .none (by simp)
  unfold shown
  cases hbest : u.ranked.foldl heavier .none with
  | none =>
    refine .inl ⟨rfl, ?_⟩
    have hall := (hempty hbest).2
    rw [names, filter_eq_nil_iff]
    intro t ht
    have hmem : t ∈ u.ranked.map Prod.fst := by
      rw [mem_ranked]
      simpa [or_comm] using ht
    obtain ⟨p, hp, rfl⟩ := mem_map.mp hmem
    simp [hall p hp]
  | some b =>
    obtain ⟨t, w⟩ := b
    obtain ⟨hne, hmem⟩ := hsome (t, w) hbest
    refine .inr ⟨hne, ?_⟩
    have hranked : t ∈ u.ranked.map Prod.fst :=
      mem_map.mpr ⟨(t, w), hmem.resolve_left (by simp), rfl⟩
    rw [mem_ranked] at hranked
    rw [names, mem_filter]
    refine ⟨by simpa [or_comm] using hranked, by simpa using hne⟩

/-- Nothing is shown only where there is no unit. -/
theorem shown_eq_nil : u.shown = [] ↔ u.names = [] := by
  rcases shown_cases u with ⟨hshown, hnames⟩ | ⟨hshown, hmem⟩
  · exact iff_of_true hshown hnames
  · exact iff_of_false hshown (ne_nil_of_mem hmem)

theorem shown_mem_names (h : u.shown ≠ []) : u.shown ∈ u.names :=
  (shown_cases u).elim (fun hnone => absurd hnone.1 h) And.right

/-! ## Merging -/

theorem Formed.merge (hu : u.Formed) (hv : v.Formed) : (u.merge v).Formed := by
  intro l hl
  simp only [Units.merge] at hl ⊢
  rw [mem_foldl_bump]
  split at hl
  · obtain rfl : v.shown = l := by simpa using hl
    rcases shown_cases v with ⟨hshown, -⟩ | ⟨-, hmem⟩
    · exact .inl hshown
    · exact .inr (.inr (hv.mem_names.mp hmem).2)
  · exact (hu l hl).imp id .inl

/-- Merging forgets no unit and invents none. -/
theorem mem_names_merge (hu : u.Formed) (hv : v.Formed) :
    n ∈ (u.merge v).names ↔ n ∈ u.names ∨ n ∈ v.names := by
  rw [(hu.merge hv).mem_names, hu.mem_names, hv.mem_names]
  simp only [Units.merge, mem_foldl_bump]
  tauto

end Units

/-! ## Operations -/

namespace Quantity

variable {op : Operation} {a b q : Quantity} {n : Text}

/-- The units of the quantity. -/
def names (q : Quantity) : List Text := q.units.names

theorem unit_eq_nil : q.unit = [] ↔ q.names = [] := Units.shown_eq_nil

theorem unit_mem_names (h : q.unit ≠ []) : q.unit ∈ q.names := Units.shown_mem_names h

theorem mem_names_asPercent : n ∈ q.asPercent.names ↔ n = ['%'] := by
  rw [names, asPercent, percent, Units.mem_names_only]
  exact ⟨And.right, fun h => ⟨by simp [h], h⟩⟩

theorem combine_names (ha : a.units.Formed) (hb : b.units.Formed) (h : combine op a b = .ok q) :
    q.units.Formed ∧ ∀ n, n ∈ q.names ↔ n ∈ a.names ∨ n ∈ b.names := by
  unfold combine at h
  cases hsize : a.size.operate op b.size with
  | error f =>
    rw [hsize] at h
    cases h
  | ok s =>
    rw [hsize] at h
    cases h
    have hfirst := Units.formed_none.merge ha
    refine ⟨hfirst.merge hb, fun n => ?_⟩
    simp only [names]
    rw [Units.mem_names_merge hfirst hb, Units.mem_names_merge Units.formed_none ha,
      Units.names_none]
    simp

theorem share_names {part : Scalar} {r : Quantity} (hq : q.units.Formed)
    (h : q.share part = .ok r) : r.units.Formed ∧ ∀ n, n ∈ r.names ↔ n ∈ q.names := by
  obtain ⟨hformed, hnames⟩ := combine_names hq Units.formed_none h
  refine ⟨hformed, fun n => ?_⟩
  rw [hnames n]
  exact or_iff_left (not_mem_nil (a := n))

/-- What an operation gives carries only units of the operands, and one if an operand does. -/
theorem operate_names {o : Outcome} (ha : a.units.Formed) (hb : b.units.Formed)
    (h : operate op a b = .ok o) :
    o.result.units.Formed ∧ (∀ n ∈ o.result.names, n ∈ a.names ∨ n ∈ b.names) ∧
      (o.result.names = [] → a.names = [] ∧ b.names = []) := by
  have hpercent : ∀ q : Quantity, q.asPercent.units.Formed := fun _ => Units.formed_only _
  have hmem : ∀ {q : Quantity}, q.unit = ['%'] → ['%'] ∈ q.names := fun hunit =>
    hunit ▸ unit_mem_names (by simp [hunit])
  cases operated h with
  | plain hq =>
    obtain ⟨hformed, hnames⟩ := combine_names ha hb hq
    refine ⟨hformed, fun n => (hnames n).mp, fun hnil => ?_⟩
    simp only [eq_nil_iff_forall_not_mem, hnames] at hnil ⊢
    exact ⟨fun n hn => hnil n (.inl hn), fun n hn => hnil n (.inr hn)⟩
  | right hunit _ hq =>
    obtain ⟨hformed, hnames⟩ := combine_names ha (hpercent b) hq
    refine ⟨hformed, fun n hn => .inl ?_, fun hnil => ?_⟩
    · rcases (hnames n).mp hn with hn | hn
      · exact hn
      · exact mem_names_asPercent.mp hn ▸ hmem hunit
    · exact absurd ((hnames _).mpr (.inl (hmem hunit))) (by simp [hnil])
  | left hunit _ hq =>
    obtain ⟨hformed, hnames⟩ := combine_names (hpercent a) hb hq
    refine ⟨hformed, fun n hn => .inr ?_, fun hnil => ?_⟩
    · rcases (hnames n).mp hn with hn | hn
      · exact mem_names_asPercent.mp hn ▸ hmem hunit
      · exact hn
    · exact absurd ((hnames _).mpr (.inr (hmem hunit))) (by simp [hnil])
  | ofRight hunit hshare hcombine =>
    obtain ⟨hq, hshared⟩ := share_names hb hshare
    obtain ⟨hformed, hnames⟩ := combine_names hq hb hcombine
    refine ⟨hformed, fun n hn => .inr (((hnames n).mp hn).elim (hshared n).mp id), fun hnil => ?_⟩
    exact absurd ((hnames _).mpr (.inr (unit_mem_names hunit))) (by simp [hnil])
  | ofLeft hunit hshare hcombine =>
    obtain ⟨hq, hshared⟩ := share_names ha hshare
    obtain ⟨hformed, hnames⟩ := combine_names ha hq hcombine
    refine ⟨hformed, fun n hn => .inl (((hnames n).mp hn).elim id (hshared n).mp), fun hnil => ?_⟩
    exact absurd ((hnames _).mpr (.inl (unit_mem_names hunit))) (by simp [hnil])

end Quantity

/-! ## Computations on numbers -/

/-- A tree of operations on numbers: numbers of its own, and numbers that others hold as well. -/
inductive Reckoning where
  | number (q : Quantity)
  | held (slot : Nat)
  | operation (op : Operation) (a b : Reckoning)

namespace Reckoning

/-- The value of the tree, computed from left to right. -/
def value : Reckoning → Calc Value
  | .number q => Calc.newNumber q
  | .held slot => return .number slot
  | .operation op a b => do
    let v ← a.value
    let w ← b.value
    Value.operate op v w

/-- The numbers at the leaves; none where nothing is held. -/
def leaves (p : Pool) : Reckoning → List Quantity
  | .number q => [q]
  | .held slot => p.quantities[slot]?.toList
  | .operation _ a b => a.leaves p ++ b.leaves p

/-- What the leaves hold is there. -/
def Held (p : Pool) : Reckoning → Prop
  | .number _ => True
  | .held slot => slot < p.quantities.size
  | .operation _ a b => a.Held p ∧ b.Held p

/-- The units of the leaves. -/
def units (p : Pool) (t : Reckoning) : List Text := (t.leaves p).flatMap Quantity.names

end Reckoning

/-! ## Shared numbers -/

/-- Numbers keep their units from one pool to the other, but a bare one may have become a percentage
where there is one. -/
def Pool.Turns (percent : Prop) (p p' : Pool) : Prop :=
  ∀ (i : Nat) (q : Quantity), p.quantities[i]? = some q →
    ∃ q', p'.quantities[i]? = some q' ∧
      (q'.units = q.units ∨ percent ∧ q.names = [] ∧ q'.units = .only ['%'])

namespace Pool.Turns

variable {percent : Prop} {p p' p'' : Pool}

theorem refl (percent : Prop) (p : Pool) : p.Turns percent p := fun _ q hq => ⟨q, hq, .inl rfl⟩

theorem mono {percent' : Prop} (h : p.Turns percent p') (hp : percent → percent') :
    p.Turns percent' p' := by
  intro i q hq
  obtain ⟨q', hq', hunits⟩ := h i q hq
  exact ⟨q', hq', hunits.imp id fun ⟨hpercent, hrest⟩ => ⟨hp hpercent, hrest⟩⟩

theorem trans (h : p.Turns percent p') (h' : p'.Turns percent p'') : p.Turns percent p'' := by
  intro i q hq
  obtain ⟨q', hq', hunits⟩ := h i q hq
  obtain ⟨q'', hq'', hunits'⟩ := h' i q' hq'
  refine ⟨q'', hq'', ?_⟩
  rcases hunits with hsame | ⟨hpercent, hbare, hturned⟩
  · rw [Quantity.names, hsame] at hunits'
    exact hunits'
  · rcases hunits' with hsame' | ⟨-, -, hturned'⟩
    · exact .inr ⟨hpercent, hbare, hsame'.trans hturned⟩
    · exact .inr ⟨hpercent, hbare, hturned'⟩

theorem push (percent : Prop) (p : Pool) (q : Quantity) :
    p.Turns percent { p with quantities := p.quantities.push q } := by
  intro i q' hq'
  have hlt := (Array.getElem?_eq_some_iff.mp hq').1
  exact ⟨q', by rw [Array.getElem?_push_lt hlt, ← hq', Array.getElem?_eq_getElem hlt], .inl rfl⟩

theorem set {slot : Nat} {old new : Quantity} (hold : p.quantities[slot]? = some old)
    (hunits : new.units = old.units ∨ percent ∧ old.names = [] ∧ new.units = .only ['%']) :
    p.Turns percent { p with quantities := p.quantities.setIfInBounds slot new } := by
  intro i q hq
  by_cases hi : slot = i
  · subst hi
    have hlt := (Array.getElem?_eq_some_iff.mp hq).1
    obtain rfl : old = q := Option.some.inj (hold.symm.trans hq)
    exact ⟨new, by simp [hlt], hunits⟩
  · exact ⟨q, by simp [hi, hq], .inl rfl⟩

end Pool.Turns

namespace Reckoning

variable {p p' : Pool} {percent : Prop}

/-- The number carries only some units. -/
structure Shows (units : List Text) (q : Quantity) : Prop where
  formed : q.units.Formed
  names : ∀ n ∈ q.names, n ∈ units

theorem Held.turns (h : p.Turns percent p') (t : Reckoning) (ht : t.Held p) : t.Held p' := by
  induction t with
  | number => trivial
  | held slot =>
    obtain ⟨q', hq', -⟩ := h slot _ (Array.getElem?_eq_getElem ht)
    exact (Array.getElem?_eq_some_iff.mp hq').1
  | operation _ a b iha ihb => exact ⟨iha ht.1, ihb ht.2⟩

/-- Where numbers turn into percentages, the leaves show nothing new but percentages. -/
theorem units_turns (h : p.Turns percent p') (t : Reckoning) (ht : t.Held p) :
    (∀ n ∈ t.units p', n ∈ t.units p ∨ percent ∧ n = ['%']) ∧
      (t.units p' = [] → t.units p = []) := by
  induction t with
  | number q => exact ⟨fun n hn => .inl hn, id⟩
  | held slot =>
    obtain ⟨q', hq', hunits⟩ := h slot _ (Array.getElem?_eq_getElem ht)
    simp only [units, leaves, Array.getElem?_eq_getElem ht, hq', Option.toList_some,
      flatMap_singleton]
    rcases hunits with hsame | ⟨hpercent, hbare, hturned⟩
    · simp only [Quantity.names, hsame]
      exact ⟨fun n hn => .inl hn, id⟩
    · refine ⟨fun n hn => .inr ⟨hpercent, ?_⟩, fun _ => hbare⟩
      rw [Quantity.names, hturned, Units.mem_names_only] at hn
      exact hn.2
  | operation _ a b iha ihb =>
    obtain ⟨ha, ha'⟩ := iha ht.1
    obtain ⟨hb, hb'⟩ := ihb ht.2
    simp only [units, leaves, flatMap_append, mem_append, append_eq_nil_iff]
      at ha ha' hb hb' ⊢
    refine ⟨fun n hn => ?_, fun hnil => ⟨ha' hnil.1, hb' hnil.2⟩⟩
    rcases hn with hn | hn
    · exact (ha n hn).imp .inl id
    · exact (hb n hn).imp .inr id

theorem formed_turns (h : p.Turns percent p') (t : Reckoning) (ht : t.Held p)
    (hformed : ∀ q ∈ t.leaves p, q.units.Formed) : ∀ q ∈ t.leaves p', q.units.Formed := by
  induction t with
  | number q => exact hformed
  | held slot =>
    obtain ⟨q', hq', hunits⟩ := h slot _ (Array.getElem?_eq_getElem ht)
    simp only [leaves, Array.getElem?_eq_getElem ht, hq', Option.toList_some,
      forall_mem_singleton] at hformed ⊢
    rcases hunits with hsame | ⟨-, -, hturned⟩
    · rwa [hsame]
    · rw [hturned]
      exact Units.formed_only _
  | operation _ a b iha ihb =>
    simp only [leaves, forall_mem_append] at hformed ⊢
    exact ⟨iha ht.1 hformed.1, ihb ht.2 hformed.2⟩

theorem Shows.mono {units units' : List Text} {q : Quantity} (h : Shows units q)
    (hunits : ∀ n ∈ units, n ∈ units') : Shows units' q :=
  ⟨h.formed, fun n hn => hunits n (h.names n hn)⟩

theorem Shows.turns {units : List Text} {q q' : Quantity} (h : Shows units q)
    (hunits : q'.units = q.units ∨ percent ∧ q.names = [] ∧ q'.units = .only ['%'])
    (hpercent : percent → ['%'] ∈ units) :
    Shows units q' ∧ (q'.names = [] → q.names = []) := by
  rcases hunits with hsame | ⟨hp, hbare, hturned⟩
  · have hnames : q'.names = q.names := congrArg Units.names hsame
    exact ⟨⟨hsame ▸ h.formed, hnames ▸ h.names⟩, fun hnil => hnames ▸ hnil⟩
  · refine ⟨⟨hturned ▸ Units.formed_only _, fun n hn => ?_⟩, fun _ => hbare⟩
    rw [Quantity.names, hturned, Units.mem_names_only] at hn
    exact hn.2 ▸ hpercent hp

end Reckoning

/-- An operation on two numbers makes a new one and leaves the operands as the operation does. -/
theorem Value.operate_numbers {op : Operation} {l r : Nat} {p p' : Pool} {v : Value}
    (h : (Value.operate op (.number l) (.number r)).run p = (.ok v, p')) :
    ∃ o, Quantity.operate op (p.quantities.getD l (.bare 0.0))
        (p.quantities.getD r (.bare 0.0)) = .ok o ∧
      v = .number p.quantities.size ∧
      p' = { p with quantities :=
        ((p.quantities.setIfInBounds l o.left).setIfInBounds r o.right).push o.result } := by
  have hrun : (Value.operate op (.number l) (.number r)).run p = (do
      let outcome ← Calc.ofExcept (Quantity.operate op (p.quantities.getD l (.bare 0.0))
        (p.quantities.getD r (.bare 0.0)))
      Calc.setQuantity l outcome.left
      Calc.setQuantity r outcome.right
      Calc.newNumber outcome.result : Calc Value).run p := by
    cases op <;> rfl
  rw [hrun] at h
  cases hop : Quantity.operate op (p.quantities.getD l (.bare 0.0))
      (p.quantities.getD r (.bare 0.0)) with
  | error f =>
    rw [hop] at h
    cases h
  | ok o =>
    rw [hop] at h
    obtain ⟨hv, hp⟩ := Prod.mk.inj h
    refine ⟨o, rfl, ?_, hp.symm⟩
    rw [← Except.ok.inj hv]
    simp

namespace Reckoning

variable {p p' : Pool}

/-- One operation: the result carries units of the operands, and one if an operand does. -/
theorem shows_operate {op : Operation} {l r : Nat} {a b : Quantity} {v : Value} {us : List Text}
    (hl : p.quantities[l]? = some a) (hr : p.quantities[r]? = some b) (ha : Shows us a)
    (hb : Shows us b) (h : (Value.operate op (.number l) (.number r)).run p = (.ok v, p')) :
    ∃ slot q, v = .number slot ∧ p'.quantities[slot]? = some q ∧ Shows us q ∧
      (q.names = [] → a.names = [] ∧ b.names = []) ∧ p.Turns (['%'] ∈ us) p' := by
  obtain ⟨o, hop, rfl, rfl⟩ := Value.operate_numbers h
  rw [Array.getD_eq_getD_getElem?, Array.getD_eq_getD_getElem?, hl, hr, Option.getD_some,
    Option.getD_some] at hop
  obtain ⟨hformed, hnames, hbare⟩ := Quantity.operate_names ha.formed hb.formed hop
  have hpercent : ∀ {q : Quantity}, Shows us q → q.unit = ['%'] → ['%'] ∈ us := fun hq hunit =>
    hq.names _ (hunit ▸ Quantity.unit_mem_names (by simp [hunit]))
  have hsize : p.quantities.size =
      ((p.quantities.setIfInBounds l o.left).setIfInBounds r o.right).size := by simp
  refine ⟨_, o.result, rfl, ?_, ⟨hformed, fun n hn => ?_⟩, hbare, ?_⟩
  · rw [hsize, Array.getElem?_push_size]
  · exact (hnames n hn).elim (ha.names n) (hb.names n)
  · -- An operand that changes is bare and stands next to a percentage.
    have hleft : o.left.units = a.units ∨
        ['%'] ∈ us ∧ a.names = [] ∧ o.left.units = .only ['%'] := by
      rcases Quantity.operate_cases hop with ⟨h, -⟩ | ⟨-, -, h, -⟩ | ⟨hunit, hnone, h, -⟩
      · exact .inl (h ▸ rfl)
      · exact .inl (h ▸ rfl)
      · exact .inr ⟨hpercent hb hunit, Quantity.unit_eq_nil.mp hnone, h ▸ rfl⟩
    have hright : o.right.units = b.units ∨
        ['%'] ∈ us ∧ b.names = [] ∧ o.right.units = .only ['%'] := by
      rcases Quantity.operate_cases hop with ⟨-, h⟩ | ⟨hunit, hnone, -, h⟩ | ⟨-, -, -, h⟩
      · exact .inl (h ▸ rfl)
      · exact .inr ⟨hpercent ha hunit, Quantity.unit_eq_nil.mp hnone, h ▸ rfl⟩
      · exact .inl (h ▸ rfl)
    have hl' := Pool.Turns.set hl hleft
    obtain ⟨hlt, -⟩ := Array.getElem?_eq_some_iff.mp hl
    have hr' : Pool.Turns (['%'] ∈ us)
        { p with quantities := p.quantities.setIfInBounds l o.left }
        { p with quantities := (p.quantities.setIfInBounds l o.left).setIfInBounds r o.right } := by
      by_cases hlr : l = r
      · subst hlr
        obtain rfl : a = b := Option.some.inj (hl.symm.trans hr)
        have hsame : o.right.units = o.left.units := by
          rcases Quantity.operate_cases hop with ⟨h, h'⟩ | ⟨hunit, hnone, -⟩ | ⟨hunit, hnone, -⟩
          · rw [h, h']
          · simp [hunit] at hnone
          · simp [hunit] at hnone
        exact Pool.Turns.set (p := { p with quantities := _ }) (by simp [hlt]) (.inl hsame)
      · exact Pool.Turns.set (p := { p with quantities := _ }) (by simpa [hlr] using hr) hright
    exact (hl'.trans hr').trans (Pool.Turns.push _ _ _)

/-- A computation: the result carries units of the leaves, and one if a leaf does. -/
theorem shows_value (t : Reckoning) {v : Value} (hheld : t.Held p)
    (hformed : ∀ q ∈ t.leaves p, q.units.Formed) (h : t.value.run p = (.ok v, p')) :
    ∃ slot q, v = .number slot ∧ p'.quantities[slot]? = some q ∧ Shows (t.units p) q ∧
      (q.names = [] → t.units p = []) ∧ p.Turns (['%'] ∈ t.units p) p' := by
  induction t generalizing p p' v with
  | number q =>
    obtain ⟨hv, rfl⟩ := Prod.mk.inj h
    refine ⟨p.quantities.size, q, (Except.ok.inj hv).symm, by simp, ?_⟩
    simp only [units, leaves, flatMap_singleton]
    exact ⟨⟨hformed q (mem_singleton.mpr rfl), fun n hn => hn⟩, id, .push _ _ _⟩
  | held slot =>
    obtain ⟨hv, rfl⟩ := Prod.mk.inj h
    have hslot : p.quantities[slot]? = some p.quantities[slot] := Array.getElem?_eq_getElem hheld
    refine ⟨slot, _, (Except.ok.inj hv).symm, hslot, ?_⟩
    simp only [units, leaves, hslot, Option.toList_some, flatMap_singleton,
      forall_mem_singleton] at hformed ⊢
    exact ⟨⟨hformed, fun n hn => hn⟩, id, .refl _ _⟩
  | operation op a b iha ihb =>
    simp only [leaves, forall_mem_append] at hformed
    rw [value, Calc.run_bind] at h
    rcases ha : a.value.run p with ⟨f | va, p₁⟩
    · rw [ha] at h
      cases h
    rw [ha] at h
    dsimp only at h
    rw [Calc.run_bind] at h
    rcases hb : b.value.run p₁ with ⟨f | vb, p₂⟩
    · rw [hb] at h
      cases h
    rw [hb] at h
    dsimp only at h
    obtain ⟨l, x, rfl, hl, hx, hxnone, hturns⟩ := iha hheld.1 hformed.1 ha
    -- The second operand is computed where the first one may have turned numbers.
    obtain ⟨hunits, hnone⟩ := units_turns hturns b hheld.2
    obtain ⟨r, y, rfl, hr, hy, hynone, hturns'⟩ := ihb (Held.turns hturns b hheld.2)
      (formed_turns hturns b hheld.2 hformed.2) hb
    have hsplit : (operation op a b).units p = a.units p ++ b.units p := by
      simp [units, leaves]
    have hsub : ∀ n ∈ b.units p₁, n ∈ a.units p ++ b.units p := by
      intro n hn
      rcases hunits n hn with hn | ⟨hpercent, rfl⟩
      · exact mem_append_right _ hn
      · exact mem_append_left _ hpercent
    obtain ⟨x', hl', hx'⟩ := hturns' l x hl
    obtain ⟨hshows, hback⟩ := (hx.mono fun n hn => mem_append_left (b.units p) hn).turns hx'
      (hsub _)
    obtain ⟨slot, q, hv, hslot, hq, hqnone, hturns''⟩ :=
      shows_operate hl' hr hshows (hy.mono hsub) h
    rw [hsplit]
    refine ⟨slot, q, hv, hslot, hq, fun hnil => ?_, ?_⟩
    · obtain ⟨hxnil, hynil⟩ := hqnone hnil
      rw [hxnone (hback hxnil), hnone (hynone hynil)]
      rfl
    · exact ((hturns.mono fun h => mem_append_left _ h).trans
        (hturns'.mono (hsub _))).trans hturns''

end Reckoning

/-- However numbers are added, subtracted, multiplied and divided, the result shows one of the units
from which they were computed, and none only if none of them carries one.  So it shows the one unit
that the numbers with a unit share. -/
theorem arithmetic_keeps_units (t : Reckoning) {p p' : Pool} {v : Value} (hheld : t.Held p)
    (hformed : ∀ q ∈ t.leaves p, q.units.Formed) (h : t.value.run p = (.ok v, p')) :
    ∃ slot q, v = .number slot ∧ p'.quantities[slot]? = some q ∧
      (∀ u, (∀ n ∈ t.units p, n = u) → q.unit = if u ∈ t.units p then u else []) ∧
      (q.unit = [] ∨ q.unit ∈ t.units p) ∧ (q.unit = [] ↔ t.units p = []) := by
  obtain ⟨slot, q, hv, hslot, hq, hnone, -⟩ := t.shows_value hheld hformed h
  have hnil : q.unit = [] ↔ t.units p = [] := by
    rw [Quantity.unit_eq_nil]
    refine ⟨hnone, fun hunits => List.eq_nil_iff_forall_not_mem.mpr fun n hn => ?_⟩
    have hmem := hq.names n hn
    rw [hunits] at hmem
    cases hmem
  have hmem : q.unit = [] ∨ q.unit ∈ t.units p := by
    by_cases hunit : q.unit = []
    · exact .inl hunit
    · exact .inr (hq.names _ (Quantity.unit_mem_names hunit))
  refine ⟨slot, q, hv, hslot, fun u hu => ?_, hmem, hnil⟩
  split
  next hcarried =>
    have hsome : q.unit ≠ [] := fun hunit => by
      rw [hnil.mp hunit] at hcarried
      cases hcarried
    exact hu _ (hmem.resolve_left hsome)
  next hcarried =>
    rw [hnil, List.eq_nil_iff_forall_not_mem]
    intro n hn
    exact hcarried (hu n hn ▸ hn)

/-- Half as a percentage, and a bare number. -/
def halfAndTwo : Pool := { quantities := #[.percent (.real 0.5), .bare 2.0] }

/-- `(50% + $a) * $a`, in which the bare number becomes a percentage before it is used again. -/
def halfPlusTwice : Reckoning := .operation .mul (.operation .add (.held 0) (.held 1)) (.held 1)

theorem arithmetic_keeps_units_turned :
    halfPlusTwice.Held halfAndTwo ∧ (∀ q ∈ halfPlusTwice.leaves halfAndTwo, q.units.Formed) ∧
      (∀ n ∈ halfPlusTwice.units halfAndTwo, n = ['%']) ∧
      ∃ v p', halfPlusTwice.value.run halfAndTwo = (.ok v, p') ∧
        ∃ slot q, v = .number slot ∧ p'.quantities[slot]? = some q ∧ q.unit = ['%'] := by
  have hheld : halfPlusTwice.Held halfAndTwo := by
    simp [halfPlusTwice, Reckoning.Held, halfAndTwo]
  have hformed : ∀ q ∈ halfPlusTwice.leaves halfAndTwo, q.units.Formed := by
    intro q hq
    have hq : q = .percent (.real 0.5) ∨ q = .bare 2.0 := by
      simpa [halfPlusTwice, Reckoning.leaves, halfAndTwo, or_assoc] using hq
    rcases hq with rfl | rfl
    · exact Units.formed_only _
    · exact Units.formed_none
  have hunits : halfPlusTwice.units halfAndTwo = [['%'], ['%']] := rfl
  have hall : ∀ n ∈ halfPlusTwice.units halfAndTwo, n = ['%'] := by
    rw [hunits]
    simp
  obtain ⟨v, p', h⟩ : ∃ v p', halfPlusTwice.value.run halfAndTwo = (.ok v, p') := ⟨_, _, rfl⟩
  obtain ⟨slot, q, hv, hslot, hunit, -⟩ :=
    arithmetic_keeps_units halfPlusTwice hheld hformed h
  refine ⟨hheld, hformed, hall, v, p', h, slot, q, hv, hslot, ?_⟩
  rw [hunit ['%'] hall, hunits]
  rfl

/-- The units of `1cm + 1cm + 1u + 1u`. -/
def unitsWith (u : Text) : Units :=
  ["cm".toList, u, u].foldl (fun t n => (Units.none.merge t).merge (.only n)) (.only "cm".toList)

/-- Two numbers that were computed from centimetres and another unit each, and show the latter. -/
def twoLengths : Pool :=
  { quantities := #[⟨.real 22.0, unitsWith "px".toList⟩, ⟨.real 70.8, unitsWith "in".toList⟩] }

/-- Their sum shows neither of the two units, but the one in which both were computed. -/
theorem sum_shows_third_unit :
    ∃ q, twoLengths.quantities.toList.map Quantity.unit = ["px".toList, "in".toList] ∧
      (Reckoning.operation .add (.held 0) (.held 1)).value.run twoLengths =
        (.ok (.number 2), { twoLengths with quantities := twoLengths.quantities.push q }) ∧
      q.unit = "cm".toList :=
  ⟨_, by decide, rfl, by decide⟩

end SheetPress
