import SheetPress.Proofs.Pattern.Whole
import SheetPress.Proofs.Selector.Labels

/-!
# What extending a class adds

Two classes have nothing in common that could be cut from them, and a class is found in another
one only if it is that class.  So a class that is extended is replaced by the extending ones, and
all other classes add nothing: `extensions_class`.
-/

set_option autoImplicit false

namespace SheetPress

open Text
open Source (Word classHead)

/-- The selector of a class. -/
def IsClass (t : Text) : Prop := ∃ name : Word, t = classHead name

theorem IsClass.compact {t : Text} (h : IsClass t) : Selector.Compact t := by
  obtain ⟨name, rfl⟩ := h
  exact Selector.compact_classHead name

theorem IsClass.ne_nil {t : Text} (h : IsClass t) : t ≠ [] := h.compact.ne_nil

namespace Selector

theorem commonFrom_name {w : Text} (hw : ∀ c ∈ w, isName c = true) (v : Text)
    (atPart passed common : Nat) : commonFrom atPart passed common w v = common := by
  induction w generalizing v passed with
  | nil => simp [commonFrom]
  | cons c w ih =>
    cases v with
    | nil => simp [commonFrom]
    | cons d v =>
      have hne : ∀ e : Char, isName e = false → c ≠ e := fun e he =>
        Pattern.ne_of_isName (hw c (by simp)) he
      have hpart : startsPart c = false := by
        simp [startsPart, hne '#' (by decide), hne ':' (by decide), hne '.' (by decide)]
      have hblank : (c == ' ') = false := by simp [hne ' ' (by decide)]
      simp only [commonFrom, hblank, hpart, Bool.false_eq_true, if_false]
      split
      · exact ih (fun e he => hw e (by simp [he])) v (passed + 1)
      · rfl

/-- Different names that end with a point differ before it. -/
theorem commonFrom_reverse {w v : Text} (hw : ∀ c ∈ w, isName c = true)
    (hv : ∀ c ∈ v, isName c = true) (hne : w ≠ v) (atPart passed : Nat) :
    commonFrom atPart passed 0 (w ++ ['.']) (v ++ ['.']) = 0 := by
  induction w generalizing v passed with
  | nil =>
    cases v with
    | nil => exact absurd rfl hne
    | cons d v =>
      have hd : '.' ≠ d := (Pattern.ne_of_isName (hv d (by simp)) (by decide)).symm
      simp [commonFrom, hd]
  | cons c w ih =>
    have hc : ∀ e : Char, isName e = false → c ≠ e := fun e he =>
      Pattern.ne_of_isName (hw c (by simp)) he
    cases v with
    | nil => simp [commonFrom, hc '.' (by decide)]
    | cons d v =>
      have hpart : startsPart c = false := by
        simp [startsPart, hc '#' (by decide), hc ':' (by decide), hc '.' (by decide)]
      have hblank : (c == ' ') = false := by simp [hc ' ' (by decide)]
      simp only [List.cons_append, commonFrom, hblank, hpart, Bool.false_eq_true, if_false]
      split
      case isTrue hcd =>
        subst hcd
        have hrest : w ≠ v := fun h => hne (by rw [h])
        exact ih (fun e he => hw e (by simp [he])) (fun e he => hv e (by simp [he])) hrest _
      case isFalse => rfl

end Selector

namespace Compile

theorem cutCommon_class {child parent : Text} (hchild : ∀ c ∈ child, isName c = true)
    (hparent : ∀ c ∈ parent, isName c = true) (hne : child ≠ parent) :
    cutCommon ('.' :: child) ('.' :: parent) = ('.' :: child, '.' :: parent) := by
  have hhead : Selector.commonHead ('.' :: child) ('.' :: parent) = 0 := by
    have hpart : Selector.startsPart '.' = true := by decide
    simp only [Selector.commonHead, Selector.commonFrom, hpart, if_true]
    exact Selector.commonFrom_name hchild _ _ _ _
  have htail : Selector.commonTail ('.' :: child) ('.' :: parent) = 0 := by
    simp only [Selector.commonTail, List.reverse_cons]
    refine Selector.commonFrom_reverse ?_ ?_ (by simpa using hne) 1 0
    · intro c hc
      exact hchild c (by simpa using hc)
    · intro c hc
      exact hparent c (by simpa using hc)
  simp [cutCommon, hhead, htail]

theorem extended?_class {child parent : Text} (hchild : IsClass child) (hparent : IsClass parent)
    (hne : child ≠ parent) : extended? parent child parent = .ok (some child) := by
  obtain ⟨c, rfl⟩ := hchild
  obtain ⟨p, rfl⟩ := hparent
  have htexts : c.text ≠ p.text := fun h => hne (by rw [classHead, h, classHead])
  have hother : (classHead c == classHead p) = false := by simpa using hne
  unfold extended?
  rw [classHead, classHead,
    cutCommon_class (fun _ => Word.isName_of_mem) (fun _ => Word.isName_of_mem) htexts]
  show (Pattern.replaceAll (wholePattern (classHead p)) (classHead c) (classHead p) >>=
    fun new => pure (if new == classHead p then none else some new)) = _
  rw [Pattern.replaceAll_class]
  show Except.ok (if classHead c == classHead p then none else some (classHead c)) = _
  rw [hother]
  rfl

/-- A class is found in another one only at its start. -/
theorem isPrefix_of_contains {s parent : Text} (hs : IsClass s) (hparent : IsClass parent)
    (h : Text.contains s parent = true) : parent <+: s := by
  obtain ⟨name, rfl⟩ := hs
  obtain ⟨p, rfl⟩ := hparent
  unfold Text.contains at h
  cases hcut : cut? (classHead p) (classHead name) with
  | none => simp [hcut] at h
  | some ab =>
    obtain ⟨a, b⟩ := ab
    have heq := eq_append_of_cut? hcut
    cases a with
    | nil => exact ⟨b, heq.symm⟩
    | cons x a =>
      -- A second point would be a letter of the class.
      have hpoint : '.' ∈ name.text := by
        rw [classHead, List.cons_append, List.cons.injEq] at heq
        rw [heq.2]
        simp [classHead]
      exact absurd hpoint (name.notMem (by decide))

theorem contains_self {t : Text} (h : t ≠ []) : Text.contains t t = true := by
  cases t with
  | nil => exact absurd rfl h
  | cons c t =>
    have hafter := after?_append (c :: t) []
    rw [List.append_nil] at hafter
    simp [Text.contains, cut?, hafter]

/-- Only the extended class is found, and every extending class takes its place. -/
theorem extensions_class {parent : Text} {children selectors : List Text}
    (hparent : IsClass parent) (hchildren : ∀ c ∈ children, IsClass c ∧ c ≠ parent)
    (hselectors : ∀ s ∈ selectors, IsClass s)
    (hapart : ∀ s ∈ selectors, parent <+: s → parent = s) :
    extensions parent children selectors =
      .ok (selectors.flatMap fun s => if s = parent then children else []) := by
  have hfound : (children.mapM fun c => extended? parent c parent) = .ok (children.map some) := by
    induction children with
    | nil => rfl
    | cons c children ih =>
      have hc := hchildren c (by simp)
      rw [List.mapM_cons, extended?_class hc.1 hparent hc.2,
        ih fun d hd => hchildren d (by simp [hd])]
      rfl
  have hchosen : (children.map some).filterMap id = children := by simp
  induction selectors with
  | nil => rfl
  | cons s selectors ih =>
    have hrest := ih (fun t ht => hselectors t (by simp [ht])) fun t ht => hapart t (by simp [ht])
    unfold extensions
    by_cases hs : s = parent
    · subst hs
      rw [if_pos (contains_self hparent.ne_nil), hfound, hrest]
      show Except.ok ((children.map some).filterMap id ++ _) = _
      rw [hchosen]
      simp
    · have hnone : Text.contains s parent = false := by
        cases hcontains : Text.contains s parent with
        | false => rfl
        | true =>
          have hprefix := isPrefix_of_contains (hselectors s (by simp)) hparent hcontains
          exact absurd (hapart s (by simp) hprefix).symm hs
      rw [hnone, hrest]
      show Except.ok ([] ++ _) = _
      simp [hs]

end Compile

end SheetPress
