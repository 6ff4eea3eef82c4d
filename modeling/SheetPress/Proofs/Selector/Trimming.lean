import SheetPress.Compile.Extend

/-!
# What two selectors share at their ends

Before a selector takes the place of another one, both lose what they share at their ends.  The
search for it goes on as long as the characters are the same and remembers the last place where a
part starts; it is the longest common start, and of what is left the longest common end, that may
be cut off at all (`trimming_exact`).
-/

set_option autoImplicit false

namespace SheetPress

open List

namespace Selector

variable {atPart k passed common : Nat} {s t : Text}

/-- A common start that may be cut off: nothing, one that ends with a space, or one behind which
both texts go on with the same start of a part. -/
def SharedHead (s t q : Text) : Prop :=
  q <+: s ∧ q <+: t ∧
    (q = [] ∨ q.getLast? = some ' ' ∨
      ∃ x, (x = '#' ∨ x = ':' ∨ x = '.') ∧ q ++ [x] <+: s ∧ q ++ [x] <+: t)

/-- A common end that may be cut off: nothing, or one that starts with a space or as a part does. -/
def SharedTail (s t q : Text) : Prop :=
  q <:+ s ∧ q <:+ t ∧ (q = [] ∨ ∃ x ∈ q.head?, x = ' ' ∨ x = '#' ∨ x = ':' ∨ x = '.')

theorem startsPart_iff (x : Char) : startsPart x = true ↔ x = '#' ∨ x = ':' ∨ x = '.' := by
  simp [startsPart, or_assoc]

/-- How far behind the start of a character the search sets its mark. -/
def markAt (atPart : Nat) (x : Char) : Nat := if x == ' ' then 1 else atPart

/-- A place that the search remembers: the one at a common character that is a space or starts a
part. -/
inductive Remembered (atPart : Nat) (s t : Text) : Nat → Prop
  | mk (q : Text) (x : Char) : x = ' ' ∨ startsPart x = true → q ++ [x] <+: s → q ++ [x] <+: t →
      Remembered atPart s t (q.length + markAt atPart x)

/-! ## The search -/

theorem Remembered.cons (a : Char) (h : Remembered atPart s t k) :
    Remembered atPart (a :: s) (a :: t) (k + 1) := by
  obtain ⟨q, x, hx, hs, ht⟩ := h
  rw [Nat.add_right_comm]
  exact .mk (a :: q) x hx ((prefix_cons_inj a).mpr hs) ((prefix_cons_inj a).mpr ht)

/-- What is remembered of two texts: they start alike, and it belongs to the first character or to
the texts behind it. -/
theorem Remembered.uncons {a b : Char} (h : Remembered atPart (a :: s) (b :: t) k) :
    a = b ∧ (((a = ' ' ∨ startsPart a = true) ∧ k = markAt atPart a) ∨
      ∃ j, k = j + 1 ∧ Remembered atPart s t j) := by
  obtain ⟨q, x, hx, hs, ht⟩ := h
  cases q with
  | nil =>
    obtain ⟨rfl, -⟩ := cons_prefix_cons.mp hs
    exact ⟨(cons_prefix_cons.mp ht).1, .inl ⟨hx, Nat.zero_add _⟩⟩
  | cons c q =>
    obtain ⟨rfl, hs'⟩ := cons_prefix_cons.mp hs
    obtain ⟨rfl, ht'⟩ := cons_prefix_cons.mp ht
    exact ⟨rfl, .inr ⟨_, Nat.add_right_comm .., .mk q x hx hs' ht'⟩⟩

theorem Remembered.ne_nil (h : Remembered atPart s t k) : s ≠ [] ∧ t ≠ [] := by
  obtain ⟨q, x, hx, hs, ht⟩ := h
  exact ⟨hs.ne_nil (by simp), ht.ne_nil (by simp)⟩

/-- The answer of the search is the place it starts with or one that it remembers on its way. -/
theorem commonFrom_remembered (atPart passed common : Nat) (s t : Text) :
    commonFrom atPart passed common s t = common ∨
      ∃ k, Remembered atPart s t k ∧ commonFrom atPart passed common s t = passed + k := by
  fun_induction commonFrom atPart passed common s t with
  | case1 passed common s a t common' ih =>
    rcases ih with ih | ⟨k, hk, ih⟩
    · rw [ih]
      by_cases hmark : a = ' ' ∨ startsPart a = true
      · refine .inr ⟨markAt atPart a, ?_, by grind [markAt]⟩
        simpa using Remembered.mk [] a hmark ⟨s, rfl⟩ ⟨t, rfl⟩
      · exact .inl (by grind)
    · exact .inr ⟨k + 1, hk.cons a, by rw [ih]; omega⟩
  | case2 => exact .inl rfl
  | case3 => exact .inl rfl

/-- No place that is remembered lies behind the answer. -/
theorem le_commonFrom (hat : atPart ≤ 1) (hle : common ≤ passed) :
    common ≤ commonFrom atPart passed common s t ∧
      ∀ k, Remembered atPart s t k → passed + k ≤ commonFrom atPart passed common s t := by
  fun_induction commonFrom atPart passed common s t with
  | case1 passed common s a t common' ih =>
    have hcommon : common ≤ common' ∧ common' ≤ passed + 1 := by grind
    obtain ⟨hstart, hplaces⟩ := ih hcommon.2
    refine ⟨Nat.le_trans hcommon.1 hstart, fun k hk => ?_⟩
    obtain ⟨-, ⟨hmark, rfl⟩ | ⟨j, rfl, hj⟩⟩ := hk.uncons
    · have hnew : common' = passed + markAt atPart a := by grind [markAt]
      exact hnew ▸ hstart
    · have hj := hplaces j hj
      omega
  | case2 passed common a s b t hne => exact ⟨Nat.le_refl _, fun k hk => absurd hk.uncons.1 hne⟩
  | case3 s t common passed hnil =>
    refine ⟨Nat.le_refl _, fun k hk => ?_⟩
    obtain ⟨⟨a, s', hs⟩, ⟨b, t', ht⟩⟩ := hk.ne_nil.imp exists_cons_of_ne_nil exists_cons_of_ne_nil
    exact absurd ht (hnil a s' b t' hs)

theorem commonFrom_comm (atPart passed common : Nat) (s t : Text) :
    commonFrom atPart passed common s t = commonFrom atPart passed common t s := by
  fun_induction commonFrom atPart passed common s t with
  | case1 passed common s a t common' ih => rw [ih, commonFrom, if_pos rfl]
  | case2 passed common a s b t hne => rw [commonFrom, if_neg (Ne.symm hne)]
  | case3 s t common passed hnil => cases s <;> cases t <;> simp_all [commonFrom]

/-! ## Common starts and ends -/

/-- The search from the start finds the longest common start that may be cut off. -/
theorem commonHead_longest (s t : Text) :
    ∃ q, q.length = commonHead s t ∧ SharedHead s t q ∧ ∀ r, SharedHead s t r → r <+: q := by
  have hfound : ∃ q, q.length = commonHead s t ∧ SharedHead s t q := by
    obtain h | ⟨_, ⟨q, x, hx, hs, ht⟩, h⟩ := commonFrom_remembered 0 0 0 s t
    · exact ⟨[], h.symm, nil_prefix, nil_prefix, .inl rfl⟩
    rcases hx with rfl | hx
    · exact ⟨q ++ [' '], by simp [commonHead, h, markAt], hs, ht, .inr (.inl (by simp))⟩
    · have hq := prefix_append q [x]
      have hspace : x ≠ ' ' := fun he => absurd (he ▸ hx) (by decide)
      exact ⟨q, by simp [commonHead, h, markAt, hspace], hq.trans hs, hq.trans ht,
        .inr (.inr ⟨x, (startsPart_iff x).mp hx, hs, ht⟩)⟩
  obtain ⟨q, hlen, hq⟩ := hfound
  have hmax : ∀ k, Remembered 0 s t k → k ≤ q.length := by
    simpa [hlen, commonHead] using (le_commonFrom (Nat.zero_le 1) (Nat.le_refl 0)).2
  refine ⟨q, hlen, hq, fun r hr => prefix_of_prefix_length_le hr.1 hq.1 ?_⟩
  obtain ⟨hs, ht, rfl | hspace | ⟨x, hx, hsx, htx⟩⟩ := hr
  · exact Nat.zero_le _
  · obtain ⟨u, rfl⟩ := getLast?_eq_some_iff.mp hspace
    simpa [markAt] using hmax _ (.mk u _ (.inl rfl) hs ht)
  · exact Nat.le_of_add_right_le (hmax _ (.mk r x (.inr ((startsPart_iff x).mpr hx)) hsx htx))

/-- The search from the end finds the longest common end that may be cut off. -/
theorem commonTail_longest (s t : Text) :
    ∃ q, q.length = commonTail s t ∧ SharedTail s t q ∧ ∀ r, SharedTail s t r → r <:+ q := by
  have hend : ∀ {v q : Text} {x : Char}, q ++ [x] <+: v.reverse ↔ x :: q.reverse <:+ v := by
    intro v q x
    rw [← reverse_prefix, reverse_cons, reverse_reverse]
  have hfound : ∃ q, q.length = commonTail s t ∧ SharedTail s t q := by
    obtain h | ⟨_, ⟨q, x, hx, hs, ht⟩, h⟩ := commonFrom_remembered 1 0 0 s.reverse t.reverse
    · exact ⟨[], h.symm, nil_suffix, nil_suffix, .inl rfl⟩
    exact ⟨x :: q.reverse, by simp [commonTail, h, markAt], hend.mp hs, hend.mp ht,
      .inr ⟨x, rfl, hx.imp_right (startsPart_iff x).mp⟩⟩
  obtain ⟨q, hlen, hq⟩ := hfound
  have hmax : ∀ k, Remembered 1 s.reverse t.reverse k → k ≤ q.length := by
    simpa [hlen, commonTail] using (le_commonFrom (Nat.le_refl 1) (Nat.le_refl 0)).2
  refine ⟨q, hlen, hq, fun r hr => suffix_of_suffix_length_le hr.1 hq.1 ?_⟩
  obtain ⟨hs, ht, rfl | ⟨x, hx, hstart⟩⟩ := hr
  · exact Nat.zero_le _
  obtain ⟨u, rfl⟩ := head?_eq_some_iff.mp hx
  have hs := hend (q := u.reverse) |>.mpr (by simpa using hs)
  have ht := hend (q := u.reverse) |>.mpr (by simpa using ht)
  simpa [markAt] using hmax _ (.mk _ x (hstart.imp_right (startsPart_iff x).mpr) hs ht)

end Selector

namespace Compile

open Selector

/-- Two selectors are taken apart exactly: what is cut off is the longest common start and, of what
is left, the longest common end that may be cut off; the order of the two does not matter. -/
theorem trimming_exact (c p : Text) :
    ∃ pre suf,
      c = pre ++ (cutCommon c p).1 ++ suf ∧ p = pre ++ (cutCommon c p).2 ++ suf ∧
      SharedHead c p pre ∧ (∀ q, SharedHead c p q → q <+: pre) ∧
      SharedTail (c.drop pre.length) (p.drop pre.length) suf ∧
      (∀ q, SharedTail (c.drop pre.length) (p.drop pre.length) q → q <:+ suf) ∧
      commonHead c p = pre.length ∧ commonHead p c = pre.length ∧
      commonTail (c.drop pre.length) (p.drop pre.length) = suf.length ∧
      commonTail (p.drop pre.length) (c.drop pre.length) = suf.length := by
  obtain ⟨pre, hpre, hhead, hheads⟩ := commonHead_longest c p
  obtain ⟨suf, hsuf, htail, htails⟩ :=
    commonTail_longest (c.drop pre.length) (p.drop pre.length)
  have hswapHead : commonHead p c = pre.length := by
    rw [hpre]
    exact commonFrom_comm ..
  have hswapTail : commonTail (p.drop pre.length) (c.drop pre.length) = suf.length := by
    rw [hsuf]
    exact commonFrom_comm ..
  have hcut : ∀ {v : Text}, pre <+: v → suf <:+ v.drop pre.length →
      v = pre ++ (v.drop pre.length).take ((v.drop pre.length).length - suf.length) ++ suf := by
    intro v hv hs
    rw [append_assoc, suffix_iff_eq_append.mp hs, prefix_iff_eq_append.mp hv]
  refine ⟨pre, suf, ?_, ?_, hhead, hheads, htail, htails, hpre.symm, hswapHead, hsuf.symm,
    hswapTail⟩
  · simpa [cutCommon, ← hpre, ← hsuf] using hcut hhead.1 htail.1
  · simpa [cutCommon, ← hpre, ← hsuf] using hcut hhead.2.1 htail.2.1

end Compile
end SheetPress
