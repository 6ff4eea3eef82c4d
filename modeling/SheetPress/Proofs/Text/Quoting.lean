import SheetPress.Proofs.Text.Pieces
import SheetPress.Value.Shown

/-!
# Quotes and commas, read back

A backslash is put before every quote and before nothing else.  A backslash of the text itself is
then never followed by a quote, so the added ones are told apart (`quoting_round_trips`).

An argument list is cut at a comma as soon as the parentheses before it balance.  No cut into
balanced pieces is finer (`cuts_at_balanced_commas`).
-/

set_option autoImplicit false

namespace SheetPress.Text

open List

/-! ## Quotes -/

theorem escape_quote {c : Char} (hc : isQuote c = true) (r : Text) :
    escape (c :: r) = '\\' :: c :: escape r := by
  simp [escape, hc]

theorem escape_plain {c : Char} (hc : ¬ isQuote c = true) (r : Text) :
    escape (c :: r) = c :: escape r := by
  simp [escape, hc]

/-- No quote stands first: a backslash is before it. -/
theorem not_isQuote_of_escape {c : Char} {r s : Text} (h : escape s = c :: r) :
    ¬ isQuote c = true := by
  cases s with
  | nil => cases h
  | cons d s =>
    by_cases hd : isQuote d = true
    · rw [escape_quote hd] at h
      obtain ⟨rfl, -⟩ := List.cons.inj h
      decide
    · rw [escape_plain hd] at h
      obtain ⟨rfl, -⟩ := List.cons.inj h
      exact hd

theorem unescape_escape (s : Text) : unescape (escape s) = s := by
  induction s with
  | nil => rfl
  | cons c r ih =>
    by_cases hc : isQuote c = true
    · rw [escape_quote hc, unescape, if_pos ⟨rfl, hc⟩, ih]
    · rw [escape_plain hc]
      cases hr : escape r with
      | nil => rw [← ih, hr, unescape, unescape]
      | cons d e => rw [unescape, if_neg fun h => not_isQuote_of_escape hr h.2, ← hr, ih]

/-- What is escaped is read back, and a quoted value is read back from the text that is shown for
it. -/
theorem quoting_round_trips (s : Text) (pool : Pool) :
    unescape (escape s) = s ∧
    ∃ t, (Value.quoted s).shown.run pool = (.ok t, pool) ∧ dequote t = s := by
  refine ⟨unescape_escape s, '"' :: (escape s ++ ['"']), by rw [Value.shown]; rfl, ?_⟩
  have hlast : ('"' :: (escape s ++ ['"'])).getLast? = some '"' := by
    rw [← cons_append, getLast?_concat]
  rw [dequote, if_pos ⟨rfl, hlast⟩, dropLast_concat, unescape_escape]

/-! ## Commas -/

/-- Two cuts of a text at commas are the same, or the first part of one is cut by the other. -/
theorem append_comma_cases {x y x' y' : Text} (h : x ++ ',' :: y = x' ++ ',' :: y') :
    (x = x' ∧ y = y') ∨ (∃ z, x = x' ++ ',' :: z ∧ y' = z ++ ',' :: y) ∨
      ∃ z, x' = x ++ ',' :: z ∧ y = z ++ ',' :: y' := by
  rcases append_eq_append_iff.mp h with ⟨z, rfl, hz⟩ | ⟨z, rfl, hz⟩ <;>
    cases z <;> simp_all [eq_comm]

theorem joinWith_comma {ps : List Text} (h : ps ≠ []) (p : Text) :
    joinWith [','] (p :: ps) = p ++ ',' :: joinWith [','] ps := by
  obtain ⟨q, ps, rfl⟩ := exists_cons_of_ne_nil h
  exact joinWith_cons_cons [','] p q ps

theorem joinWith_single (p : Text) : joinWith [','] [p] = p := by
  simp [joinWith]

theorem balanced_append {x : Text} (hx : balanced x = true) (y : Text) :
    balanced (x ++ ',' :: y) = balanced y := by
  simp only [balanced, countOf, countP_append, beq_iff_eq] at hx ⊢
  simp [hx]

/-- Nothing before a comma of the piece balances. -/
def Minimal (p : Text) : Prop := ∀ x y, p = x ++ ',' :: y → balanced x = false

theorem minimal_of_notMem {p : Text} (h : ',' ∉ p) : Minimal p := by
  rintro x y rfl
  simp at h

/-- Minimal pieces, all but the last of which balance. -/
inductive Finest : List Text → Prop where
  | last {p : Text} : Minimal p → Finest [p]
  | cons {p : Text} {ps : List Text} : Minimal p → balanced p = true → Finest ps → Finest (p :: ps)

namespace Finest

variable {ps : List Text}

theorem ne_nil (h : Finest ps) : ps ≠ [] := by
  cases h <;> simp

theorem minimal (h : Finest ps) : ∀ p ∈ ps, Minimal p := by
  induction h with
  | last hp => simpa using hp
  | cons hp _ _ ih => exact forall_mem_cons.mpr ⟨hp, ih⟩

theorem balanced_dropLast (h : Finest ps) : ∀ p ∈ ps.dropLast, balanced p = true := by
  induction h with
  | last => simp
  | cons _ hp hps ih =>
    rw [dropLast_cons_of_ne_nil hps.ne_nil]
    exact forall_mem_cons.mpr ⟨hp, ih⟩

/-- Other pieces of the same text, all but the last of which balance, are put together of these. -/
theorem exists_groups (h : Finest ps) {qs : List Text} (hne : qs ≠ [])
    (hbalanced : ∀ q ∈ qs.dropLast, balanced q = true)
    (hjoin : joinWith [','] qs = joinWith [','] ps) :
    ∃ groups : List (List Text), (∀ g ∈ groups, g ≠ []) ∧ groups.flatten = ps ∧
      qs = groups.map (joinWith [',']) := by
  induction h generalizing qs with
  | @last p hp =>
    obtain ⟨q, qs, rfl⟩ := exists_cons_of_ne_nil hne
    rw [joinWith_single] at hjoin
    cases qs with
    | nil => exact ⟨[[p]], by simp, rfl, by simpa [joinWith_single] using hjoin⟩
    | cons q' qs =>
      rw [joinWith_comma (by simp)] at hjoin
      have hq := hp q _ hjoin.symm
      simp [hbalanced q (by simp)] at hq
  | @cons p ps hp hpb hps ih =>
    obtain ⟨q, qs, rfl⟩ := exists_cons_of_ne_nil hne
    by_cases hqs : qs = []
    · exact ⟨[p :: ps], by simp, by simp, by simpa [hqs, joinWith_single] using hjoin⟩
    rw [dropLast_cons_of_ne_nil hqs, forall_mem_cons] at hbalanced
    rw [joinWith_comma hqs, joinWith_comma hps.ne_nil] at hjoin
    rcases append_comma_cases hjoin with ⟨rfl, hrest⟩ | ⟨z, rfl, hrest⟩ | ⟨z, hz, -⟩
    · obtain ⟨groups, hgroups, rfl, rfl⟩ := ih hqs hbalanced.2 hrest
      exact ⟨[q] :: groups, by simpa using hgroups, rfl, by simp [joinWith_single]⟩
    · rw [balanced_append hpb] at hbalanced
      have hcut : joinWith [','] (z :: qs) = joinWith [','] ps := by
        rw [joinWith_comma hqs, hrest]
      obtain ⟨groups, hgroups, rfl, hmap⟩ := ih (by simp)
        (by simpa [dropLast_cons_of_ne_nil hqs] using hbalanced) hcut
      obtain ⟨g, groups, rfl⟩ := exists_cons_of_ne_nil (l := groups) (by rintro rfl; simp at hmap)
      obtain ⟨rfl, rfl⟩ := List.cons.inj hmap
      rw [forall_mem_cons] at hgroups
      exact ⟨(p :: g) :: groups, by simpa using hgroups.2, rfl, by simp [joinWith_comma hgroups.1]⟩
    · have hq := hp q z hz
      simp [hbalanced.1] at hq

end Finest

theorem finest_gatherBalanced {current : Text} {pieces : List Text} (hcurrent : Minimal current)
    (hpieces : ∀ p ∈ pieces, ',' ∉ p) :
    Finest (gatherBalanced current pieces) ∧
      joinWith [','] (gatherBalanced current pieces) = joinWith [','] (current :: pieces) := by
  induction pieces generalizing current with
  | nil => exact ⟨.last hcurrent, rfl⟩
  | cons p pieces ih =>
    rw [forall_mem_cons] at hpieces
    rw [gatherBalanced, joinWith_comma (by simp)]
    split
    next hbalanced =>
      obtain ⟨hfinest, hjoin⟩ := ih (minimal_of_notMem hpieces.1) hpieces.2
      exact ⟨.cons hcurrent hbalanced hfinest, by rw [joinWith_comma hfinest.ne_nil, hjoin]⟩
    next hbalanced =>
      have hminimal : Minimal (current ++ ',' :: p) := by
        intro x y h
        rcases append_comma_cases h with ⟨rfl, -⟩ | ⟨z, hz, -⟩ | ⟨z, -, rfl⟩
        · simpa using hbalanced
        · exact hcurrent x z hz
        · simp at hpieces
      obtain ⟨hfinest, hjoin⟩ := ih hminimal hpieces.2
      refine ⟨hfinest, hjoin.trans ?_⟩
      cases pieces with
      | nil => simp [joinWith_single]
      | cons q pieces => simp [joinWith_comma]

/-- Joined again, the pieces give the text; all but the last balance; nothing before a comma inside
of a piece does.  Any other pieces of the text that balance, but for the last, are put together of
these. -/
theorem cuts_at_balanced_commas (s : Text) :
    joinWith [','] (splitArguments s) = s ∧
    (∀ p ∈ (splitArguments s).dropLast, balanced p = true) ∧
    (∀ p ∈ splitArguments s, ∀ x y, p = x ++ ',' :: y → balanced x = false) ∧
    ∀ qs ≠ [], joinWith [','] qs = s → (∀ q ∈ qs.dropLast, balanced q = true) →
      ∃ groups : List (List Text), (∀ g ∈ groups, g ≠ []) ∧ groups.flatten = splitArguments s ∧
        qs = groups.map (joinWith [',']) := by
  obtain ⟨first, pieces, hsplit⟩ := exists_cons_of_ne_nil (splitOn_ne_nil ',' s)
  have hpieces : ∀ p ∈ first :: pieces, ',' ∉ p := fun p hp =>
    notMem_of_mem_splitOn (hsplit ▸ hp)
  rw [forall_mem_cons] at hpieces
  obtain ⟨hfinest, hjoin⟩ := finest_gatherBalanced (minimal_of_notMem hpieces.1) hpieces.2
  have heq : splitArguments s = gatherBalanced first pieces := by rw [splitArguments, hsplit]
  rw [← hsplit, joinWith_splitOn, ← heq] at hjoin
  rw [← heq] at hfinest
  exact ⟨hjoin, hfinest.balanced_dropLast, hfinest.minimal,
    fun qs hne hqs hbalanced => hfinest.exists_groups hne hbalanced (hqs.trans hjoin.symm)⟩

end SheetPress.Text
