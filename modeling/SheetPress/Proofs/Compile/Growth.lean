import SheetPress.Proofs.Compile.Steps

/-!
# What work on code leaves alone

Whatever code is worked on, the rules that were there stay as they are, and so do the queue, the
order and the table of the finished rules.  New rules are numbered behind the old ones, and each of
them is nested in one rule at most.  The session only *grows* (`Steps.grows`).
-/

set_option autoImplicit false

namespace SheetPress.Compile

open List

/-- The rules that are nested in the code of an owner. -/
def childrenOf (s : Session) (o : Nat) : List Nat := (s.owners.getD o ⟨[], [], []⟩).children

/-- The session has only grown. -/
structure Grows (s t : Session) : Prop where
  parts : t.parts = s.parts
  order : t.order = s.order
  queue : t.queue = s.queue
  owners : t.owners.size = s.owners.size
  rules : s.rules.toList <+: t.rules.toList
  nested : ∀ o, ∃ new, childrenOf t o = childrenOf s o ++ new ∧ new.Pairwise (· < ·) ∧
    ∀ r ∈ new, s.rules.size ≤ r ∧ r < t.rules.size

namespace Grows

variable {s t u : Session}

theorem same (hparts : t.parts = s.parts) (horder : t.order = s.order) (hqueue : t.queue = s.queue)
    (howners : t.owners = s.owners) (hrules : s.rules.toList <+: t.rules.toList) : Grows s t where
  parts := hparts
  order := horder
  queue := hqueue
  owners := by rw [howners]
  rules := hrules
  nested := fun o => ⟨[], by simp [childrenOf, howners], by simp, by simp⟩

theorem refl (s : Session) : Grows s s := same rfl rfl rfl rfl prefix_rfl

theorem trans (h : Grows s t) (h' : Grows t u) : Grows s u where
  parts := h'.parts.trans h.parts
  order := h'.order.trans h.order
  queue := h'.queue.trans h.queue
  owners := h'.owners.trans h.owners
  rules := h.rules.trans h'.rules
  nested := fun o => by
    obtain ⟨new, hnew, hsorted, hbound⟩ := h.nested o
    obtain ⟨more, hmore, hsorted', hbound'⟩ := h'.nested o
    have hst := size_le_of_isPrefix h.rules
    have htu := size_le_of_isPrefix h'.rules
    refine ⟨new ++ more, by rw [hmore, hnew, append_assoc], ?_, fun r hr => ?_⟩
    · refine pairwise_append.mpr ⟨hsorted, hsorted', fun a ha b hb => ?_⟩
      exact Nat.lt_of_lt_of_le (hbound a ha).2 (hbound' b hb).1
    · rcases mem_append.mp hr with hr | hr
      · exact ⟨(hbound r hr).1, Nat.lt_of_lt_of_le (hbound r hr).2 htu⟩
      · exact ⟨Nat.le_trans hst (hbound' r hr).1, (hbound' r hr).2⟩

theorem rule (h : Grows s t) {r : Nat} (hr : r < s.rules.size) :
    t.rules.getD r {} = s.rules.getD r {} :=
  getD_of_isPrefix h.rules hr _

end Grows

theorem childrenOf_modify (s : Session) (o : Nat) (g : Owner → Owner) (x : Nat) :
    childrenOf { s with owners := s.owners.modify o g } x =
      if x = o ∧ o < s.owners.size then (g (s.owners.getD o ⟨[], [], []⟩)).children
      else childrenOf s x := by
  unfold childrenOf
  by_cases hx : x = o
  · subst hx
    by_cases hbound : x < s.owners.size
    · rw [if_pos ⟨rfl, hbound⟩]
      exact congrArg Owner.children (getD_modify_self g hbound _)
    · simp [Array.getD, hbound]
  · rw [if_neg fun h => hx h.1]
    exact congrArg Owner.children (getD_modify_of_ne g hx _)

theorem Grows.nest (s : Session) (o : Nat) (r : Rule) (sinks : Array (List Sheet.Property)) :
    Grows s { s with
      sinks
      rules := s.rules.push r
      owners := s.owners.modify o fun x =>
        { x with children := x.children ++ [s.rules.size] } } where
  parts := rfl
  order := rfl
  queue := rfl
  owners := by simp
  rules := prefix_push _ _
  nested := fun x => by
    have hchildren := childrenOf_modify s o
      (fun x => { x with children := x.children ++ [s.rules.size] }) x
    split at hchildren
    next hx =>
      refine ⟨[s.rules.size], hchildren.trans ?_, by simp, by simp⟩
      rw [hx.1, childrenOf]
    next => exact ⟨[], hchildren.trans (by simp), by simp, by simp⟩

theorem Step.grows {s t : Session} (h : Step s t) : Grows s t := by
  cases h with
  | owner o hg =>
    refine ⟨rfl, rfl, rfl, by simp, prefix_rfl, fun x => ⟨[], ?_, by simp, by simp⟩⟩
    rw [childrenOf_modify, hg, append_nil]
    split
    next hx => rw [hx.1, childrenOf]
    next => rfl
  | nested o => exact .nest s o _ _
  | copy | fresh => exact .same rfl rfl rfl rfl (prefix_push _ _)
  | _ => exact .same rfl rfl rfl rfl prefix_rfl

theorem Steps.grows {s t : Session} (h : Steps s t) : Grows s t := by
  induction h with
  | refl => exact .refl s
  | tail _ hstep ih => exact ih.trans hstep.grows

end SheetPress.Compile
