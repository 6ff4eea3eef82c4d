import Mathlib
import SheetPress.Library.Routine

/-!
# What operations do to shared parts

Values share quantities and mixed colours, and an operation may change an operand for all who
hold it.  It cannot do anything it likes: a bare number may become a percentage, any number may
lose its fraction, and a mixed colour keeps its opacity.  A computation is *tame* if nothing else
happens to the parts that were there before it.  Tame computations compose, and the readings,
comparisons and operations of values are tame.
-/

set_option autoImplicit false

namespace SheetPress

/-! ## Quantities -/

/-- What an operation may make of an operand. -/
inductive Quantity.Turns : Quantity → Quantity → Prop where
  /-- A bare number next to a percentage becomes one. -/
  | percent {q : Quantity} : q.unit = [] → Turns q q.asPercent
  /-- A number that repeats a string loses its fraction. -/
  | whole {q : Quantity} {n : Int} : q.size.truncate = .ok n → Turns q { q with size := .whole n }

/-- What operations one after the other may make of an operand. -/
def Quantity.Drifts : Quantity → Quantity → Prop := Relation.ReflTransGen Quantity.Turns

theorem Quantity.unit_asPercent (q : Quantity) : q.asPercent.unit = ['%'] := by
  simp only [asPercent, percent, unit]
  decide

/-- A number with a unit keeps it, and a bare number can only become a percentage. -/
theorem Quantity.Drifts.unit {q q' : Quantity} (h : q.Drifts q') :
    q'.unit = q.unit ∨ q.unit = [] ∧ q'.unit = ['%'] := by
  induction h with
  | refl => exact Or.inl rfl
  | tail _ hturn ih =>
    cases hturn with
    | percent hbare =>
      rcases ih with heq | ⟨-, hpercent⟩
      · exact Or.inr ⟨heq ▸ hbare, unit_asPercent _⟩
      · rw [hbare] at hpercent
        cases hpercent
    | whole => exact ih

/-- What an operation combines, and what becomes of its operands: it combines them, or one of them
and the other as a percentage, or one of them and a share of it. -/
inductive Quantity.Operated (op : Operation) (a b : Quantity) : Outcome → Prop where
  | plain {q : Quantity} : combine op a b = .ok q → Operated op a b ⟨q, a, b⟩
  | right {q : Quantity} : a.unit = ['%'] → b.unit = [] → combine op a b.asPercent = .ok q →
      Operated op a b ⟨q, a, b.asPercent⟩
  | left {q : Quantity} : b.unit = ['%'] → a.unit = [] → combine op a.asPercent b = .ok q →
      Operated op a b ⟨q, a.asPercent, b⟩
  | ofRight {q a' : Quantity} : b.unit ≠ [] → b.share a.size = .ok a' → combine op a' b = .ok q →
      Operated op a b ⟨q, a, b⟩
  | ofLeft {q b' : Quantity} : a.unit ≠ [] → a.share b.size = .ok b' → combine op a b' = .ok q →
      Operated op a b ⟨q, a, b⟩

theorem Quantity.operated {op : Operation} {a b : Quantity} {o : Outcome}
    (h : operate op a b = .ok o) : Operated op a b o := by
  have hmap : ∀ {x : Except Fault Quantity} {l r : Quantity},
      (x.map fun s => (⟨s, l, r⟩ : Outcome)) = .ok o → ∃ q, x = .ok q ∧ ⟨q, l, r⟩ = o := by
    intro x l r hx
    cases x with
    | error f => cases hx
    | ok s => exact ⟨s, rfl, Except.ok.inj hx⟩
  unfold operate at h
  dsimp only at h
  split_ifs at h with h₁ h₂ h₃ h₄
  · simp only [Bool.and_eq_true, beq_iff_eq, List.isEmpty_iff] at h₁
    obtain ⟨q, hq, rfl⟩ := hmap h
    exact .right h₁.1.2 h₁.2 hq
  · cases hshare : b.share a.size with
    | error f => simp [hshare, Except.bind] at h
    | ok a' =>
      rw [hshare] at h
      obtain ⟨q, hq, rfl⟩ := hmap h
      refine .ofRight (fun hb => h₁ ?_) hshare hq
      simp only [Bool.and_eq_true] at h₂ ⊢
      exact ⟨h₂.1, by simp [hb]⟩
  · simp only [Bool.and_eq_true, beq_iff_eq, List.isEmpty_iff] at h₃
    obtain ⟨q, hq, rfl⟩ := hmap h
    exact .left h₃.1.2 h₃.2 hq
  · cases hshare : a.share b.size with
    | error f => simp [hshare, Except.bind] at h
    | ok b' =>
      rw [hshare] at h
      obtain ⟨q, hq, rfl⟩ := hmap h
      refine .ofLeft (fun ha => h₃ ?_) hshare hq
      simp only [Bool.and_eq_true] at h₄ ⊢
      exact ⟨h₄.1, by simp [ha]⟩
  · obtain ⟨q, hq, rfl⟩ := hmap h
    exact .plain hq

/-- An operation changes an operand only if one is a percentage and the other bare. -/
theorem Quantity.operate_cases {op : Operation} {a b : Quantity} {o : Outcome}
    (h : operate op a b = .ok o) :
    (o.left = a ∧ o.right = b) ∨
      (a.unit = ['%'] ∧ b.unit = [] ∧ o.left = a ∧ o.right = b.asPercent) ∨
      (b.unit = ['%'] ∧ a.unit = [] ∧ o.left = a.asPercent ∧ o.right = b) := by
  cases operated h with
  | plain | ofRight | ofLeft => exact .inl ⟨rfl, rfl⟩
  | right ha hb => exact .inr (.inl ⟨ha, hb, rfl, rfl⟩)
  | left hb ha => exact .inr (.inr ⟨hb, ha, rfl, rfl⟩)

/-! ## Pools -/

/-- The parts of a pool are still there, and have only changed as operations change them. -/
structure Pool.Drifts (p p' : Pool) : Prop where
  quantities : ∀ (i : Nat) (q : Quantity), p.quantities[i]? = some q →
    ∃ q', p'.quantities[i]? = some q' ∧ q.Drifts q'
  mixtures : ∀ (i : Nat) (c : Channels), p.mixtures[i]? = some c →
    ∃ c', p'.mixtures[i]? = some c' ∧ c'.alpha = c.alpha

namespace Pool.Drifts

theorem refl (p : Pool) : p.Drifts p where
  quantities := fun _ q hq => ⟨q, hq, .refl⟩
  mixtures := fun _ c hc => ⟨c, hc, rfl⟩

variable {p : Pool}

theorem trans {p' p'' : Pool} (h : p.Drifts p') (h' : p'.Drifts p'') : p.Drifts p'' where
  quantities := by
    intro i q hq
    obtain ⟨q', hq', hdrift⟩ := h.quantities i q hq
    obtain ⟨q'', hq'', hdrift'⟩ := h'.quantities i q' hq'
    exact ⟨q'', hq'', Relation.ReflTransGen.trans hdrift hdrift'⟩
  mixtures := by
    intro i c hc
    obtain ⟨c', hc', halpha⟩ := h.mixtures i c hc
    obtain ⟨c'', hc'', halpha'⟩ := h'.mixtures i c' hc'
    exact ⟨c'', hc'', halpha'.trans halpha⟩

theorem of_extends {p' : Pool}
    (hq : ∀ (i : Nat) (q : Quantity), p.quantities[i]? = some q → p'.quantities[i]? = some q)
    (hc : ∀ (i : Nat) (c : Channels), p.mixtures[i]? = some c → p'.mixtures[i]? = some c) :
    p.Drifts p' where
  quantities := fun i q h => ⟨q, hq i q h, .refl⟩
  mixtures := fun i c h => ⟨c, hc i c h, rfl⟩

theorem setQuantity {slot : Nat} {new : Quantity}
    (h : ∀ q, p.quantities[slot]? = some q → q.Drifts new) :
    p.Drifts { p with quantities := p.quantities.setIfInBounds slot new } where
  quantities := by
    intro i q hq
    by_cases hi : slot = i
    · subst hi
      have hlt : slot < p.quantities.size := (Array.getElem?_eq_some_iff.mp hq).1
      exact ⟨new, by simp [hlt], h q hq⟩
    · exact ⟨q, by simp [hi, hq], .refl⟩
  mixtures := fun _ c hc => ⟨c, hc, rfl⟩

theorem setMixture {slot : Nat} {new : Channels}
    (h : ∀ c, p.mixtures[slot]? = some c → new.alpha = c.alpha) :
    p.Drifts { p with mixtures := p.mixtures.setIfInBounds slot new } where
  quantities := fun _ q hq => ⟨q, hq, .refl⟩
  mixtures := by
    intro i c hc
    by_cases hi : slot = i
    · subst hi
      have hlt : slot < p.mixtures.size := (Array.getElem?_eq_some_iff.mp hc).1
      exact ⟨new, by simp [hlt], h c hc⟩
    · exact ⟨c, by simp [hi, hc], rfl⟩

end Pool.Drifts

/-! ## Tame computations -/

namespace Calc

/-- Whatever the computation comes to, it only lets the pool drift. -/
def Tame {α : Type} (x : Calc α) : Prop := ∀ p : Pool, p.Drifts (x.run p).2

variable {α β : Type}

@[grind ←]
theorem tame_pure (a : α) : Tame (pure a) := fun p => .refl p

@[grind ←]
theorem tame_throw (f : Fault) : Tame (throw f : Calc α) := fun p => .refl p

/-- A run of two computations is a run of the first, and of the second unless the first has
failed. -/
theorem run_bind (x : Calc α) (f : α → Calc β) (p : Pool) :
    (x >>= f).run p =
      match x.run p with
      | (.ok a, p') => (f a).run p'
      | (.error e, p') => (.error e, p') := by
  change ExceptT.bindCont f (x.run p).1 (x.run p).2 = _
  cases x.run p with
  | mk r p' => cases r <;> rfl

@[grind ←]
theorem tame_bind {x : Calc α} {f : α → Calc β} (hx : Tame x) (hf : ∀ a, Tame (f a)) :
    Tame (x >>= f) := by
  intro p
  have hfirst := hx p
  rw [run_bind]
  cases hrun : x.run p with
  | mk r p' =>
    rw [hrun] at hfirst
    cases r with
    | ok a => exact hfirst.trans (hf a p')
    | error e => exact hfirst

@[grind ←]
theorem tame_get : Tame (get : Calc Pool) := fun p => .refl p

@[grind ←]
theorem tame_ofExcept (x : Except Fault α) : Tame (ofExcept x) := by
  unfold ofExcept
  grind

@[grind ←]
theorem tame_attempt {x : Calc α} (hx : Tame x) : Tame (attempt x) := hx

@[grind ←]
theorem tame_note (n : Note) : Tame (note n) := fun _ => .of_extends (fun _ _ h => h) fun _ _ h => h

@[grind ←]
theorem tame_logLine (level : Level) (t : Text) : Tame (logLine level t) := tame_note _

@[grind ←]
theorem tame_assets : Tame assets := tame_bind tame_get fun _ => tame_pure _

@[grind ←]
theorem tame_newNumber (q : Quantity) : Tame (newNumber q) := by
  intro p
  refine .of_extends (fun i q' h => ?_) fun _ _ h => h
  exact (Array.getElem?_push_lt (Array.getElem?_eq_some_iff.mp h).1).trans
    (Array.getElem?_eq_getElem _ ▸ h)

@[grind ←]
theorem tame_quantity (slot : Nat) : Tame (quantity slot) := tame_bind tame_get fun _ => tame_pure _

@[grind ←]
theorem tame_newList (separator : Option Text) (items : List (Key × Value)) :
    Tame (newList separator items) := fun _ => .of_extends (fun _ _ h => h) fun _ _ h => h

@[grind ←]
theorem tame_separator (slot : Nat) : Tame (separator slot) :=
  tame_bind tame_get fun _ => tame_pure _

@[grind ←]
theorem tame_setSeparator (slot : Nat) (s : Option Text) : Tame (setSeparator slot s) :=
  fun _ => .of_extends (fun _ _ h => h) fun _ _ h => h

@[grind ←]
theorem tame_newMixture (c : Channels) : Tame (newMixture c) := by
  intro p
  refine .of_extends (fun _ _ h => h) fun i c' h => ?_
  exact (Array.getElem?_push_lt (Array.getElem?_eq_some_iff.mp h).1).trans
    (Array.getElem?_eq_getElem _ ▸ h)

@[grind ←]
theorem tame_channels (source : ChannelSource) : Tame (channels source) := by
  unfold channels
  grind

end Calc

open Calc

namespace Value

/-! ## Readings -/

mutual

@[grind ←]
theorem tame_shown : (v : Value) → Tame v.shown
  | .list _ items | .table _ items => by
      have := tame_shownItems items
      unfold shown
      grind
  | .nothing | .scalar _ | .word _ | .boolean _ | .number _ | .colour _ | .string _
  | .gradient _ _ _ _ | .quoted _ => by
      unfold shown
      grind

theorem tame_shownItems : (items : List (Key × Value)) → Tame (shownItems items)
  | [] => by
      unfold shownItems
      grind
  | (_, v) :: rest => by
      have := tame_shown v
      have := tame_shownItems rest
      unfold shownItems
      grind

end

mutual

@[grind ←]
theorem tame_inspect : (v : Value) → Tame v.inspect
  | .list _ items | .table _ items => by
      have := tame_inspectItems items
      unfold inspect
      grind
  | .nothing | .scalar _ | .word _ | .boolean _ | .number _ | .colour _ | .string _
  | .gradient _ _ _ _ | .quoted _ => by
      unfold inspect
      grind

theorem tame_inspectItems : (items : List (Key × Value)) → Tame (inspectItems items)
  | [] => by
      unfold inspectItems
      grind
  | (_, v) :: rest => by
      have := tame_inspect v
      have := tame_inspectItems rest
      unfold inspectItems
      grind

end

variable (v : Value) (op : Operation)

@[grind ←]
theorem tame_spelled : Tame v.spelled := by
  unfold spelled
  grind

@[grind ←]
theorem tame_text : Tame v.text := by
  unfold text
  grind

@[grind ←]
theorem tame_quantity : Tame v.quantity := by
  unfold quantity listIsNoNumber
  grind

@[grind ←]
theorem tame_quantityIn (unit : Text) (v : Value) : Tame (v.quantityIn unit) := by
  unfold quantityIn
  grind

@[grind ←]
theorem tame_size : Tame v.size := by
  unfold size
  grind

@[grind ←]
theorem tame_asColour : Tame v.asColour := by
  unfold asColour
  grind

@[grind ←]
theorem tame_channels : Tame v.channels := by
  unfold channels
  grind

@[grind ←]
theorem tame_isTrue : Tame v.isTrue := by
  unfold isTrue
  grind

@[grind ←]
theorem tame_asBoolean : Tame v.asBoolean := by
  unfold asBoolean
  grind

@[grind ←]
theorem tame_listing : Tame v.listing := by
  unfold listing
  grind

@[grind ←]
theorem tame_toValue (l : Listing) : Tame l.toValue := tame_newList _ _

@[grind ←]
theorem tame_copied : Tame v.copied := by
  unfold copied
  grind

@[grind ←]
theorem tame_plainNumber : Tame v.plainNumber := by
  unfold plainNumber
  grind

@[grind ←]
theorem tame_like (model v : Value) : Tame (model.like v) := by
  unfold like
  grind

/-! ## Comparisons -/

section Contents

variable {compareValues : Comparison → Value → Value → Calc Bool}
  (h : ∀ c a b, Tame (compareValues c a b))
include h

theorem tame_firstDifference (others items : List (Key × Value)) :
    Tame (Content.firstDifference compareValues others items) := by
  induction items with
  | nil | cons =>
    unfold Content.firstDifference
    grind

theorem tame_orderTables (a b : List (Key × Value)) :
    Tame (Content.orderTables compareValues a b) := by
  have hvalues : ∀ a b, Tame (Content.orderValues compareValues a b) := by
    intro a b
    unfold Content.orderValues
    grind
  unfold Content.orderTables
  split
  · refine tame_bind (tame_firstDifference h _ _) fun _ =>
      tame_bind (tame_firstDifference h _ _) fun _ => ?_
    split
    · split
      · exact hvalues _ _
      · exact tame_pure _
    · exact tame_pure _
  · exact tame_pure _

theorem tame_equalItems (others items : List (Key × Value)) :
    Tame (Content.equalItems compareValues others items) := by
  induction items with
  | nil | cons =>
    unfold Content.equalItems
    grind

/-- Comparisons of contents are tame if comparisons of the values in them are. -/
theorem tame_content (c : Comparison) (a b : Content) :
    Tame (Content.compare compareValues c a b) := by
  have htables := tame_orderTables h
  have hitems := tame_equalItems h
  unfold Content.compare Content.equal Content.order
  grind

theorem tame_compareStep (c : Comparison) (a b : Value) :
    Tame (compareStep compareValues c a b) := by
  have hcontent := tame_content h
  have hof : ∀ v, Tame (Content.ofValue v) := by
    intro v
    unfold Content.ofValue
    grind
  have hcomparer : ∀ v f, comparer compareValues v = some f → ∀ c a b, Tame (f c a b) := by
    intro v f hf c a b
    unfold comparer at hf
    split at hf
    all_goals cases hf
    · unfold compareBoolean
      grind
    · unfold compareNumber
      grind
    · unfold compareColour
      refine tame_bind (tame_attempt (tame_asColour _)) fun _ => ?_
      split
      · refine tame_bind (tame_attempt (tame_asColour _)) fun _ => ?_
        grind
      · grind
    · unfold compareList
      grind
    all_goals
      unfold compareText
      grind
  unfold compareStep
  cases ha : comparer compareValues a with
  | some f => exact hcomparer a f ha c a b
  | none =>
    cases hb : comparer compareValues b with
    | some f => exact hcomparer b f hb c.flip b a
    | none => grind

end Contents

@[grind ←]
theorem tame_compare (c : Comparison) (a b : Value) : Tame (Value.compare c a b) := by
  have hwithin : ∀ n c a b, Tame (compareWithin n c a b) := by
    intro n
    induction n with
    | zero => exact fun _ _ _ => tame_throw _
    | succ n ih => exact fun c a b => tame_compareStep ih c a b
  exact hwithin _ c a b

@[grind ←]
theorem tame_isWord (t : Text) (v : Value) : Tame (v.isWord t) := tame_compare _ _ _

/-- A fold of tame steps. -/
@[grind ←]
theorem tame_foldlM {α β : Type} {f : β → α → Calc β} (h : ∀ b a, Tame (f b a)) (xs : List α)
    (b : β) : Tame (xs.foldlM f b) := by
  induction xs generalizing b with
  | nil => exact tame_pure b
  | cons x xs ih =>
    rw [List.foldlM_cons]
    exact tame_bind (h b x) ih

@[grind ←]
theorem tame_greatest (vs : List Value) : Tame (greatest vs) := by
  unfold greatest
  grind

/-! ## Operations -/

theorem getD_eq {p : Pool} {slot : Nat} {q : Quantity} (h : p.quantities[slot]? = some q) :
    p.quantities.getD slot (.bare 0.0) = q := by
  rw [Array.getD_eq_getD_getElem?, h]
  rfl

theorem tame_repeatBy (slot : Nat) (t : Text) : Tame (repeatBy slot t) := by
  intro p
  change p.Drifts
    ((Calc.ofExcept (p.quantities.getD slot (.bare 0.0)).size.truncate >>= fun n => _).run p).2
  cases hn : (p.quantities.getD slot (.bare 0.0)).size.truncate with
  | error f => exact .refl p
  | ok n =>
    refine Pool.Drifts.setQuantity fun q hq => ?_
    rw [getD_eq hq] at hn ⊢
    exact .single (.whole hn)

/-- An operation of two quantities changes its operands only as it may.  If both are in one slot,
it does not change them. -/
theorem tame_operateQuantities (l r : Nat) :
    Tame (do
      let outcome ← Calc.ofExcept (Quantity.operate op (← Calc.quantity l) (← Calc.quantity r))
      setQuantity l outcome.left
      setQuantity r outcome.right
      newNumber outcome.result) := by
  intro p
  change p.Drifts ((Calc.ofExcept (Quantity.operate op (p.quantities.getD l (.bare 0.0))
    (p.quantities.getD r (.bare 0.0))) >>= fun outcome => _).run p).2
  cases ho : Quantity.operate op (p.quantities.getD l (.bare 0.0))
    (p.quantities.getD r (.bare 0.0)) with
  | error f => exact .refl p
  | ok o =>
    have hcases := Quantity.operate_cases ho
    have hleft : p.Drifts { p with quantities := p.quantities.setIfInBounds l o.left } := by
      refine .setQuantity fun q hq => ?_
      rw [getD_eq hq] at hcases
      rcases hcases with ⟨hl, -⟩ | ⟨-, -, hl, -⟩ | ⟨-, hbare, hl, -⟩ <;> rw [hl]
      case inr.inr => exact .single (.percent hbare)
      all_goals exact .refl
    refine (hleft.trans (.setQuantity fun q hq => ?_)).trans (tame_newNumber o.result _)
    by_cases hlr : l = r
    · subst hlr
      obtain ⟨hlt, rfl⟩ : l < p.quantities.size ∧ o.left = q := by
        simpa [Array.getElem?_setIfInBounds] using hq
      rw [getD_eq (Array.getElem?_eq_getElem hlt)] at hcases
      rcases hcases with ⟨hl, hr⟩ | ⟨hpercent, hbare, -⟩ | ⟨hpercent, hbare, -⟩
      · exact hl.trans hr.symm ▸ .refl
      all_goals
        rw [hbare] at hpercent
        cases hpercent
    · have hq : p.quantities[r]? = some q := by simpa [hlr] using hq
      rw [getD_eq hq] at hcases
      rcases hcases with ⟨-, hr⟩ | ⟨-, hbare, -, hr⟩ | ⟨-, -, -, hr⟩
      · exact hr ▸ .refl
      · exact hr ▸ .single (.percent hbare)
      · exact hr ▸ .refl

theorem tame_operateColour (a b : Value) : Tame (operateColour op a b) := by
  unfold operateColour
  repeat refine tame_bind (by grind) fun _ => ?_
  exact tame_pure _

theorem tame_operateQuoted (a b : Value) : Tame (operateQuoted op a b) := by
  unfold operateQuoted
  grind

theorem tame_operateString (a b : Value) : Tame (operateString op a b) := by
  have := tame_operateQuoted
  unfold operateString joinStrings
  grind

theorem tame_operateOther (a b : Value) : Tame (operateOther op a b) := by
  have := tame_operateColour
  have := tame_operateQuoted
  have := tame_operateString
  unfold operateOther operateBoolean operatePlain
  grind

theorem tame_operateNumber (a b : Value) : Tame (operateNumber op a b) := by
  have hoperand : ∀ v : Value, Tame v.operand := by
    intro v
    unfold operand
    grind
  have hdifference : ∀ v : Value, Tame (asDifference op v) := by
    intro v
    unfold asDifference
    grind
  have hwithout : ∀ v : Value, Tame v.withoutUnits := by
    intro v
    unfold withoutUnits
    grind
  have hrepeat := tame_repeatBy
  unfold operateNumber
  refine tame_bind (hoperand a) fun _ => tame_bind (hdifference _) fun x =>
    tame_bind (hoperand b) fun _ => tame_bind (hdifference _) fun y => ?_
  split
  case h_7 => exact tame_operateQuantities op _ _
  case h_8 =>
    exact tame_bind (hwithout x) fun _ => tame_bind (hwithout y) fun _ => tame_operateOther op _ _
  all_goals grind

theorem tame_mapItems {f : Key → Value → Calc Value} (h : ∀ k v, Tame (f k v))
    (items : List (Key × Value)) : Tame (mapItems f items) := by
  induction items with
  | nil => exact tame_pure []
  | cons p rest ih =>
    unfold mapItems
    grind

@[grind ←]
theorem tame_operate (a b : Value) : Tame (operate op a b) := by
  have hsingle : ∀ a b, Tame (operateSingle op a b) := by
    intro a b
    have := tame_operateNumber
    have := tame_operateOther
    unfold operateSingle
    grind
  have hwithin : ∀ n a b, Tame (operateWithin n op a b) := by
    intro n
    induction n with
    | zero => exact fun _ _ => tame_throw _
    | succ n ih =>
      intro a b
      unfold operateWithin
      split
      · refine tame_bind (tame_mapItems (fun k v => ?_) _) fun _ => ?_
        · grind
        · grind
      · exact tame_bind (tame_mapItems (fun _ v => ih v _) _) fun _ => by grind
      · exact tame_bind (tame_mapItems (fun _ v => ih _ v) _) fun _ => by grind
      · exact hsingle a b
  exact hwithin _ a b

end Value

end SheetPress
