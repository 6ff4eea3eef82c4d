import SheetPress.Proofs.Text.Cutting

/-!
# Borders of a search

A search does not look across every text.  Where it neither finds anything in a text nor reaches
over it from either side, that text is a border: a substitution works on both sides of a border by
themselves.
-/

set_option autoImplicit false

namespace SheetPress.Text

open List

variable {find : (before rest : Text) → Option (Nat × Text)} {before border s x : Text}

/-- What is found is a part of the text, and not empty. -/
def Fits (find : (before rest : Text) → Option (Nat × Text)) : Prop :=
  ∀ {before rest t : Text} {n : Nat}, find before rest = some (n, t) → 0 < n ∧ n ≤ rest.length

/-- The search starts behind the border, as if it were the start of the text. -/
structure Opening (find : (before rest : Text) → Option (Nat × Text)) (border : Text) : Prop where
  inert : ∀ before rest a b, border = a ++ b → b ≠ [] →
    find (a.reverse ++ before) (b ++ rest) = none
  before : ∀ a b s, find (a ++ (border.reverse ++ b)) s = find a s

/-- The search also ends before the border, as if it were the end of the text. -/
structure Border (find : (before rest : Text) → Option (Nat × Text)) (border : Text) : Prop
    extends Opening find border where
  fits : Fits find
  behind : ∀ before s rest, s ≠ [] → find before (s ++ (border ++ rest)) = find before s

theorem scanFrom_append (hfits : Fits find) {w : Text}
    (hw : ∀ before s, s ≠ [] → find before (s ++ w) = find before s) (before : Text) (skip : Nat)
    (hskip : skip ≤ x.length) : scanFrom find before skip (x ++ w) =
      scanFrom find before skip x ++ scanFrom find (x.reverse ++ before) 0 w := by
  induction x generalizing before skip with
  | nil => simp [scanFrom, Nat.le_zero.mp hskip]
  | cons c x ih =>
    cases skip with
    | succ skip => simpa [scanFrom] using ih (c :: before) skip (by simpa using hskip)
    | zero =>
      rw [cons_append, scanFrom, scanFrom, ← cons_append, hw before (c :: x) (by simp)]
      cases hfound : find before (c :: x) with
      | none => simpa using ih (c :: before) 0 (Nat.zero_le _)
      | some found =>
        have hn := (hfits hfound).2
        rw [length_cons] at hn
        simpa using ih (c :: before) (found.1 - 1) (by omega)

theorem scanFrom_forget {b : Text} (hb : ∀ a s, find (a ++ b) s = find a s) (a : Text)
    (skip : Nat) : scanFrom find (a ++ b) skip s = scanFrom find a skip s := by
  induction s generalizing a skip with
  | nil => simp [scanFrom]
  | cons c s ih =>
    have hnext := ih (c :: a)
    rw [cons_append] at hnext
    cases skip <;> simp [scanFrom, hnext, hb]

theorem substituteFrom_forget {b : Text} (hb : ∀ a s, find (a ++ b) s = find a s) (s : Text) :
    substituteFrom find b s = substitute find s := by
  have hscan := scanFrom_forget (s := s) hb [] 0
  rw [substituteFrom, ← nil_append b, hscan]
  rfl

/-- Where a search does not look back, what a part turns into stands before the rest. -/
theorem Turns.substitute_append {y : Text} (h : Turns find x y)
    (hforget : ∀ a b s, find (a ++ b) s = find a s) (r : Text) :
    Text.substitute find (x ++ r) = y ++ Text.substitute find r := by
  obtain ⟨before, hx⟩ := h [] r
  rw [substitute_eq, hx, substituteFrom_forget fun a s => hforget a before s]

theorem Opening.substituteFrom (h : Opening find border) (before y : Text) :
    substituteFrom find before (border ++ y) = border ++ substitute find y := by
  rw [substituteFrom_append (h.inert before y),
    substituteFrom_forget fun a s => h.before a before s]

/-- On both sides of a border the substitution works by itself. -/
theorem Border.substitute (h : Border find border) (x y : Text) :
    Text.substitute find (x ++ (border ++ y)) =
      Text.substitute find x ++ (border ++ Text.substitute find y) := by
  have hsplit :=
    scanFrom_append h.fits (fun before s => h.behind before s y) [] 0 (Nat.zero_le x.length)
  rw [← h.substituteFrom (x.reverse ++ []) y, substitute_eq, substituteFrom, hsplit,
    flatMap_append]
  rfl

theorem substitute_border (find : (before rest : Text) → Option (Nat × Text)) {d : Char}
    (fits : Fits find) (inert : ∀ before r, find before (d :: r) = none)
    (before : ∀ a b s, find (a ++ d :: b) s = find a s)
    (behind : ∀ before s r, s ≠ [] → find before (s ++ d :: r) = find before s) (x y : Text) :
    Text.substitute find (x ++ d :: y) = Text.substitute find x ++ d :: Text.substitute find y := by
  have hinert : ∀ before rest a b, [d] = a ++ b → b ≠ [] →
      find (a.reverse ++ before) (b ++ rest) = none := by
    intro before rest a b hab hb
    obtain ⟨rfl, rfl⟩ | ⟨-, rfl⟩ := append_eq_singleton_iff.mp hab.symm
    · exact inert _ _
    · exact absurd rfl hb
  exact Border.substitute { inert := hinert, before, fits, behind } x y

theorem substituteFrom_self (h : ∀ a b, s = a ++ b → b ≠ [] → find (a.reverse ++ before) b = none) :
    substituteFrom find before s = s := by
  have hself : substituteFrom find before (s ++ []) =
      s ++ substituteFrom find (s.reverse ++ before) [] :=
    substituteFrom_append fun a b hab hb => by simpa using h a b hab hb
  rwa [append_nil, substituteFrom_nil, append_nil] at hself

theorem substitute_self (h : ∀ a b, s = a ++ b → b ≠ [] → find a.reverse b = none) :
    Text.substitute find s = s :=
  substituteFrom_self fun a b hab hb => by simpa using h a b hab hb

theorem findSome?_congr {α β : Type} {l : List α} {f g : α → Option β} (h : ∀ a ∈ l, f a = g a) :
    l.findSome? f = l.findSome? g := by
  induction l with
  | nil => rfl
  | cons a l ih => grind

end SheetPress.Text
