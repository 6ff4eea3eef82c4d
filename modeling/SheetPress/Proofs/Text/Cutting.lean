import Mathlib
import SheetPress.Text.Basic

/-!
# Cutting and replacing texts

How trimming, cutting and splitting act on a text that is put together from parts, and what a
substitution does to such a text part by part.  A substitution leaves a part alone if it finds
nothing at any of its characters, and replaces a part that it finds as a whole.
-/

set_option autoImplicit false

namespace SheetPress.Text

open List

variable {p : Char → Bool} {a b s t x : Text} {c m sep : Char}

/-! ## Blanks around a text -/

/-- The text neither starts nor ends with a blank. -/
structure Tight (t : Text) : Prop where
  head : ∀ c ∈ t.head?, isSpace c = false
  last : ∀ c ∈ t.getLast?, isSpace c = false

theorem tight_nil : Tight [] := ⟨by simp, by simp⟩

theorem dropWhile_append_of_head (b : Text) (hne : t ≠ [])
    (h : ∀ c ∈ t.head?, p c = false) : (t ++ b).dropWhile p = t ++ b := by
  cases t with
  | nil => exact absurd rfl hne
  | cons c t =>
    have hc : p c = false := h c (by simp)
    simp [hc]

/-- Trimming takes away exactly the blanks around a tight text. -/
theorem trim_pad (ha : ∀ c ∈ a, isSpace c = true)
    (hb : ∀ c ∈ b, isSpace c = true) (ht : Tight t) : trim (a ++ (t ++ b)) = t := by
  have hbr : ∀ c ∈ b.reverse, isSpace c = true := fun c hc => hb c (mem_reverse.mp hc)
  unfold trim trimRight trimLeft dropEndWhile
  rw [dropWhile_append_of_pos ha]
  by_cases hne : t = []
  · subst hne
    simp [dropWhile_eq_nil_iff.mpr hb]
  · have hhead : ∀ c ∈ t.reverse.head?, isSpace c = false := by
      intro c hc
      exact ht.last c (by simpa using hc)
    rw [dropWhile_append_of_head b hne ht.head, reverse_append, dropWhile_append_of_pos hbr]
    have hrev := dropWhile_append_of_head (p := isSpace) [] (by simpa using hne) hhead
    rw [append_nil] at hrev
    rw [hrev, reverse_reverse]

theorem Tight.trim (ht : Tight t) : trim t = t := by
  simpa using trim_pad (a := []) (b := []) (by simp) (by simp) ht

theorem exists_trim (x : Text) : ∃ a b : Text, (∀ c ∈ a, isSpace c = true) ∧
    (∀ c ∈ b, isSpace c = true) ∧ x = a ++ (trim x ++ b) := by
  refine ⟨x.takeWhile isSpace, ((trimLeft x).reverse.takeWhile isSpace).reverse, ?_, ?_, ?_⟩
  · exact fun c hc => mem_takeWhile_imp hc
  · exact fun c hc => mem_takeWhile_imp (mem_reverse.mp hc)
  · have hright : trim x ++ ((trimLeft x).reverse.takeWhile isSpace).reverse = trimLeft x := by
      rw [trim, trimRight, dropEndWhile, ← reverse_append, takeWhile_append_dropWhile,
        reverse_reverse]
    rw [hright, trimLeft, takeWhile_append_dropWhile]

theorem mem_of_mem_trim (h : c ∈ trim x) : c ∈ x := by
  obtain ⟨a, b, -, -, hx⟩ := exists_trim x
  rw [hx]
  simp [h]

theorem tight_of_all (h : ∀ c ∈ t, isSpace c = false) : Tight t :=
  ⟨fun c hc => h c (mem_of_mem_head? hc), fun c hc => h c (mem_of_mem_getLast? hc)⟩

theorem Tight.append (mid : Text) (ha : Tight a) (hb : Tight b) (hane : a ≠ [])
    (hbne : b ≠ []) : Tight (a ++ (mid ++ b)) := by
  constructor
  · intro c hc
    rw [List.head?_append_of_ne_nil _ hane] at hc
    exact ha.head c hc
  · intro c hc
    rw [← append_assoc, List.getLast?_append_of_ne_nil _ hbne] at hc
    exact hb.last c hc

/-! ## Cutting -/

theorem after?_append (a b : Text) : after? a (a ++ b) = some b := by
  induction a with
  | nil => rfl
  | cons c a ih => simpa [after?] using ih

variable {mark before : Text} {find : (before rest : Text) → Option (Nat × Text)}

theorem after?_of_head_ne (h : ∀ c ∈ s.head?, c ≠ m) : after? (m :: mark) s = none := by
  cases s with
  | nil => rfl
  | cons c s =>
    have hc : m ≠ c := fun e => h c (by simp) e.symm
    simp [after?, hc]

theorem startsWith_of_head_ne (h : ∀ c ∈ s.head?, c ≠ m) : startsWith s (m :: mark) = false := by
  simp [startsWith, after?_of_head_ne h]

theorem cut?_eq_none_of_notMem (h : m ∉ s) : cut? (m :: mark) s = none := by
  induction s with
  | nil => rfl
  | cons c s ih =>
    simp only [mem_cons, not_or] at h
    have hhead : after? (m :: mark) (c :: s) = none :=
      after?_of_head_ne (by simpa using Ne.symm h.1)
    simp [cut?, hhead, ih h.2]

theorem cut?_append_of_notMem (h : m ∉ a) :
    cut? (m :: mark) (a ++ (m :: mark ++ b)) = some (a, b) := by
  induction a with
  | nil =>
    have hafter := after?_append (m :: mark) b
    simp only [cons_append] at hafter
    simp [cut?, hafter]
  | cons c a ih =>
    simp only [mem_cons, not_or] at h
    have hhead : after? (m :: mark) (c :: (a ++ (m :: mark ++ b))) = none :=
      after?_of_head_ne (by simpa using Ne.symm h.1)
    simp only [cons_append] at hhead ih ⊢
    simp [cut?, hhead, ih h.2]

theorem contains_eq_false_of_notMem (h : m ∉ s) : contains s (m :: mark) = false := by
  simp [contains, cut?_eq_none_of_notMem h]

theorem eq_append_of_after? {start rest : Text} (h : after? start s = some rest) :
    s = start ++ rest := by
  induction start generalizing s with
  | nil => simpa [after?] using h
  | cons a start ih =>
    cases s with
    | nil => simp [after?] at h
    | cons c s =>
      simp only [after?, Option.ite_none_right_eq_some] at h
      rw [h.1, cons_append, ih h.2]

theorem eq_append_of_cut? (h : cut? mark s = some (a, b)) : s = a ++ (mark ++ b) := by
  induction s generalizing a with
  | nil =>
    simp only [cut?, Option.ite_none_right_eq_some, Option.some.injEq, Prod.mk.injEq] at h
    obtain ⟨rfl, rfl, rfl⟩ := h
    rfl
  | cons c s ih =>
    simp only [cut?] at h
    cases hafter : after? mark (c :: s) with
    | some rest =>
      simp only [hafter, Option.some.injEq, Prod.mk.injEq] at h
      obtain ⟨rfl, rfl⟩ := h
      simpa using eq_append_of_after? hafter
    | none =>
      simp only [hafter, Option.map_eq_some_iff, Prod.mk.injEq] at h
      obtain ⟨⟨a', b'⟩, hrest, rfl, rfl⟩ := h
      rw [ih hrest, cons_append]

theorem contains_cons (c : Char) (h : contains s mark = true) : contains (c :: s) mark = true := by
  unfold contains cut?
  cases after? mark (c :: s) with
  | some rest => rfl
  | none =>
    rw [Option.isSome_map]
    exact h

/-- A text that lacks one of the characters of another does not contain it. -/
theorem contains_eq_false_of_mem (hm : m ∈ mark) (h : m ∉ s) : contains s mark = false := by
  cases hcut : cut? mark s with
  | none => simp [contains, hcut]
  | some p =>
    obtain ⟨a, b⟩ := p
    exact absurd (eq_append_of_cut? hcut ▸ (by simp [hm] : m ∈ a ++ (mark ++ b))) h

theorem cutAt?_append (b : Text)
    (ha : ∀ d ∈ a, p d = false) (hc : p c = true) :
    cutAt? p (a ++ c :: b) = some (a, c, b) := by
  induction a with
  | nil => simp [cutAt?, hc]
  | cons d a ih =>
    have hd : p d = false := ha d (by simp)
    simp [cutAt?, hd, ih fun e he => ha e (by simp [he])]

theorem eq_append_of_cutAt?
    (h : cutAt? p s = some (a, c, b)) : s = a ++ c :: b := by
  induction s generalizing a with
  | nil => simp [cutAt?] at h
  | cons d s ih =>
    rw [cutAt?] at h
    split at h
    · obtain ⟨rfl, rfl, rfl⟩ := by simpa using h
      rfl
    · obtain ⟨⟨a', c', b'⟩, hrest, hcut⟩ := Option.map_eq_some_iff.mp h
      obtain ⟨rfl, rfl, rfl⟩ := by simpa using hcut
      rw [ih hrest, cons_append]

theorem splitOn_of_notMem (h : sep ∉ s) : splitOn sep s = [s] := by
  induction s with
  | nil => rfl
  | cons c s ih =>
    simp only [mem_cons, not_or] at h
    simp [splitOn, Ne.symm h.1, ih h.2]

theorem splitOn_append (b : Text) (h : sep ∉ a) :
    splitOn sep (a ++ sep :: b) = a :: splitOn sep b := by
  induction a with
  | nil => simp [splitOn]
  | cons c a ih =>
    simp only [mem_cons, not_or] at h
    simp [splitOn, Ne.symm h.1, ih h.2]

theorem notMem_of_mem_splitOn {p : Text} (h : p ∈ splitOn sep s) : sep ∉ p := by
  induction s generalizing p with
  | nil => simp_all [splitOn]
  | cons c s ih =>
    rw [splitOn] at h
    split at h
    next =>
      rcases mem_cons.mp h with rfl | h
      · simp
      · exact ih h
    next hc =>
      cases hsplit : splitOn sep s with
      | nil =>
        rw [hsplit] at h
        simpa [mem_singleton.mp h] using Ne.symm hc
      | cons first rest =>
        rw [hsplit] at h ih
        rcases mem_cons.mp h with rfl | h
        · simpa [Ne.symm hc] using ih (p := first) (by simp)
        · exact ih (by simp [h])

theorem mem_of_mem_splitOn (sep : Char) {p : Text} (h : p ∈ splitOn sep s)
    (hc : c ∈ p) : c ∈ s := by
  induction s generalizing p with
  | nil => simp_all [splitOn]
  | cons d s ih =>
    rw [splitOn] at h
    split at h
    next =>
      rcases mem_cons.mp h with rfl | h
      · simp at hc
      · exact mem_cons_of_mem d (ih h hc)
    next =>
      cases hsplit : splitOn sep s with
      | nil =>
        rw [hsplit] at h
        rw [mem_singleton.mp h] at hc
        simp [mem_singleton.mp hc]
      | cons first rest =>
        rw [hsplit] at h ih
        rcases mem_cons.mp h with rfl | h
        · rcases mem_cons.mp hc with rfl | hc
          · simp
          · exact mem_cons_of_mem d (ih (by simp) hc)
        · exact mem_cons_of_mem d (ih (by simp [h]) hc)

/-! ## Substitution -/

/-- The text after a substitution, from a point where `before` has been passed. -/
def substituteFrom (find : (before rest : Text) → Option (Nat × Text)) (before s : Text) : Text :=
  (scanFrom find before 0 s).flatMap fun
    | .plain c => [c]
    | .found t => t

theorem substitute_eq (find : (before rest : Text) → Option (Nat × Text)) (s : Text) :
    substitute find s = substituteFrom find [] s := rfl

theorem substituteFrom_nil (find : (before rest : Text) → Option (Nat × Text)) (before : Text) :
    substituteFrom find before [] = [] := by
  simp [substituteFrom, scanFrom]

theorem substituteFrom_cons {r : Text} (h : find before (c :: r) = none) :
    substituteFrom find before (c :: r) = c :: substituteFrom find (c :: before) r := by
  simp [substituteFrom, scanFrom, h]

theorem mem_finds {α : Type} {find : (before rest : Text) → Option (Nat × α)} {a : α} :
    a ∈ finds find s ↔ .found a ∈ scan find s := by
  unfold finds
  rw [mem_filterMap]
  constructor
  · rintro ⟨piece, hpiece, heq⟩
    cases piece with
    | plain c => cases heq
    | found b =>
      cases heq
      exact hpiece
  · exact fun h => ⟨_, h, rfl⟩

theorem scanFrom_skip {α : Type} (find : (before rest : Text) → Option (Nat × α))
    (before x rest : Text) :
    scanFrom find before x.length (x ++ rest) = scanFrom find (x.reverse ++ before) 0 rest := by
  induction x generalizing before with
  | nil => rfl
  | cons c x ih => simpa [scanFrom] using ih (c :: before)

theorem substituteFrom_found {rest : Text} (hne : x ≠ [])
    (h : find before (x ++ rest) = some (x.length, t)) :
    substituteFrom find before (x ++ rest) =
      t ++ substituteFrom find (x.reverse ++ before) rest := by
  cases x with
  | nil => exact absurd rfl hne
  | cons c x =>
    have hskip := scanFrom_skip find (c :: before) x rest
    simp only [cons_append] at h ⊢
    simp [substituteFrom, scanFrom, h, hskip]

/-- A part at whose characters nothing is found stays as it is. -/
theorem substituteFrom_append {rest : Text}
    (h : ∀ a b, x = a ++ b → b ≠ [] → find (a.reverse ++ before) (b ++ rest) = none) :
    substituteFrom find before (x ++ rest) =
      x ++ substituteFrom find (x.reverse ++ before) rest := by
  induction x generalizing before with
  | nil => rfl
  | cons c x ih =>
    have hhead : find before (c :: (x ++ rest)) = none := by
      simpa using h [] (c :: x) rfl (by simp)
    rw [cons_append, substituteFrom_cons hhead, ih]
    · simp
    · intro a b hab hb
      have := h (c :: a) b (by simp [hab]) hb
      simpa using this

/-- Wherever `x` stands in a text, the substitution gives `y` for it. -/
def Turns (find : (before rest : Text) → Option (Nat × Text)) (x y : Text) : Prop :=
  ∀ before rest, ∃ before',
    substituteFrom find before (x ++ rest) = y ++ substituteFrom find before' rest

section Turns

variable {find : (before rest : Text) → Option (Nat × Text)} {x x' y y' : Text}

theorem turns_nil : Turns find [] [] := fun before _ => ⟨before, rfl⟩

theorem Turns.append (h : Turns find x y) (h' : Turns find x' y') :
    Turns find (x ++ x') (y ++ y') := by
  intro before rest
  obtain ⟨b, hb⟩ := h before (x' ++ rest)
  obtain ⟨b', hb'⟩ := h' b rest
  exact ⟨b', by rw [append_assoc, hb, hb', append_assoc]⟩

theorem Turns.substitute (h : Turns find x y) : substitute find x = y := by
  obtain ⟨before, hx⟩ := h [] []
  rwa [substituteFrom_nil, append_nil, append_nil] at hx

theorem turns_found (hne : x ≠ [])
    (h : ∀ before rest, find before (x ++ rest) = some (x.length, y)) : Turns find x y :=
  fun before rest => ⟨_, substituteFrom_found hne (h before rest)⟩

theorem turns_self (h : ∀ before rest a b, x = a ++ b → b ≠ [] →
    find (a.reverse ++ before) (b ++ rest) = none) : Turns find x x :=
  fun before rest => ⟨_, substituteFrom_append (h before rest)⟩

/-- A substitution that looks for texts with certain first characters leaves a text without
such characters alone. -/
theorem turns_of_heads (h : ∀ c ∈ x, ∀ before r, find before (c :: r) = none) :
    Turns find x x := by
  refine turns_self fun before rest a b hab hb => ?_
  cases b with
  | nil => exact absurd rfl hb
  | cons c b => exact h c (by simp [hab]) _ _

end Turns

end SheetPress.Text
