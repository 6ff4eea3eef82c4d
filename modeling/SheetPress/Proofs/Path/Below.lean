import SheetPress.Proofs.Path.Normal
import SheetPress.Proofs.Text.Pieces

/-!
# Paths below a directory

The place of a path is the list of parts that it has once it is absolute and normal.  A path lies
below a directory if the place of the directory begins its own.  Going on along a path that does
not lead upwards never leaves the directory where it started (`liesBelow_join`).
-/

set_option autoImplicit false

namespace SheetPress.Path

open List Text

/-! ## Going along a path -/

/-- The parts that are kept, in reverse, after going along a path from the top. -/
def walk (kept : List Text) (p : Text) : List Text :=
  (Text.splitOn '/' p).foldl (stepPart true) kept

/-- No part of the path leads upwards. -/
def Downward (p : Text) : Prop := ['.', '.'] ∉ Text.splitOn '/' p

instance (p : Text) : Decidable (Downward p) := inferInstanceAs (Decidable (¬ _))

variable (kept : List Text) (p : Text)

theorem stepPart_nil : stepPart true kept [] = kept := by
  simp [stepPart]

/-- A path that goes on behind a slash is gone along in two parts. -/
theorem walk_slash (a b : Text) : walk kept (a ++ '/' :: b) = walk (walk kept a) b := by
  rw [walk, splitOn_append_cons, foldl_append, walk, walk]

theorem walk_join (a : Text) {b : Text} (hb : isAbsolute b = false) :
    walk kept (join a b) = walk (walk kept a) b := by
  by_cases hnil : a = []
  · subst hnil
    simp [join, hb, walk, Text.splitOn, stepPart_nil]
  · by_cases hlast : a.getLast? = some '/'
    · -- The slash at the end of `a` leaves an empty part, which is passed over.
      obtain ⟨x, rfl⟩ := getLast?_eq_some_iff.mp hlast
      have hslash : walk kept (x ++ ['/']) = walk kept x := by
        rw [walk_slash]
        simp [walk, Text.splitOn, stepPart_nil]
      have hjoin : join (x ++ ['/']) b = x ++ '/' :: b := by simp [join, hb]
      rw [hjoin, walk_slash, hslash]
    · have hjoin : join a b = a ++ '/' :: b := by simp [join, hb, hnil, hlast]
      rw [hjoin, walk_slash]

theorem suffix_foldl_stepPart {parts : List Text} (h : ['.', '.'] ∉ parts) (kept : List Text) :
    kept <:+ parts.foldl (stepPart true) kept := by
  induction parts generalizing kept with
  | nil => exact suffix_rfl
  | cons part parts ih =>
    simp only [mem_cons, not_or] at h
    have hstep : kept <:+ stepPart true kept part := by
      have hup : (part == ['.', '.']) = false := by simpa using Ne.symm h.1
      simp only [stepPart, hup, Bool.false_eq_true, if_false]
      split
      · exact suffix_rfl
      · exact suffix_cons part kept
    exact hstep.trans (ih h.2 _)

/-! ## Places -/

/-- The parts of a path, seen from the directory `here`. -/
def place (here p : Text) : List Text := parts (absolute here p)

/-- The path lies below the directory, or is the directory itself. -/
def LiesBelow (here directory p : Text) : Prop := place here directory <+: place here p

instance (here directory p : Text) : Decidable (LiesBelow here directory p) :=
  inferInstanceAs (Decidable (_ <+: _))

theorem proper_walk : ∀ part ∈ walk [] p, Proper part :=
  proper_foldl (fun _ => notMem_of_mem_splitOn) (by simp)

theorem parts_slash {ps : List Text} (h : ∀ part ∈ ps, Proper part) :
    parts ('/' :: joinWith ['/'] ps) = ps := by
  have hsplit : Text.splitOn '/' ('/' :: joinWith ['/'] ps) =
      [] :: Text.splitOn '/' (joinWith ['/'] ps) := by
    simp [Text.splitOn]
  rw [parts, hsplit]
  by_cases hnil : ps = []
  · subst hnil
    rfl
  · rw [splitOn_joinWith hnil fun t ht => (h t ht).whole, filter_cons_of_neg (by simp),
      filter_eq_self]
    intro part hpart
    simpa using (h part hpart).ne_nil

theorem normal_eq_walk {p : Text} (h : isAbsolute p = true) :
    normal p = leading p ++ joinWith ['/'] (walk [] p).reverse := by
  have hne : p ≠ [] := by
    rintro rfl
    simp [isAbsolute] at h
  have hleading : leading p ≠ [] := by
    rcases isStart_leading h with hp | hp <;> simp [hp]
  simp [normal, hne, h, hleading, walk]

theorem parts_normal {p : Text} (h : isAbsolute p = true) :
    parts (normal p) = (walk [] p).reverse := by
  have hproper : ∀ part ∈ (walk [] p).reverse, Proper part := fun part hpart =>
    proper_walk p part (mem_reverse.mp hpart)
  rw [normal_eq_walk h]
  rcases isStart_leading h with hp | hp
  · rw [hp]
    exact parts_slash hproper
  · -- A second slash at the start leaves one more empty part.
    rw [hp]
    have htwo : parts ('/' :: '/' :: joinWith ['/'] (walk [] p).reverse) =
        parts ('/' :: joinWith ['/'] (walk [] p).reverse) := by
      simp [parts, Text.splitOn]
    exact htwo.trans (parts_slash hproper)

theorem foldl_proper {ps : List Text} (h : ∀ part ∈ ps, Proper part) (kept : List Text) :
    ps.foldl (stepPart true) kept = ps.reverse ++ kept := by
  induction ps generalizing kept with
  | nil => rfl
  | cons p ps ih =>
    have hp := h p (by simp)
    have hstep : stepPart true kept p = p :: kept := by
      simp [stepPart, hp.ne_nil, hp.ne_here, hp.ne_up]
    rw [foldl_cons, hstep, ih fun part hpart => h part (by simp [hpart])]
    simp

section Here

variable {here : Text} (hhere : isAbsolute here = true)

include hhere

theorem isAbsolute_join (p : Text) : isAbsolute (join here p) = true := by
  by_cases hp : isAbsolute p = true
  · simp [join, hp]
  · obtain ⟨r, rfl⟩ := exists_eq_of_isAbsolute hhere
    simp only [join, hp, Bool.false_eq_true, if_false]
    split <;> rfl

theorem place_eq (p : Text) : place here p = (walk [] (join here p)).reverse := by
  rw [place, absolute, parts_normal (isAbsolute_join hhere p)]

theorem place_join (a : Text) {b : Text} (hb : isAbsolute b = false) :
    place here (join a b) = (walk (place here a).reverse b).reverse := by
  rw [place_eq hhere, place_eq hhere, reverse_reverse]
  by_cases ha : isAbsolute a = true
  · have hab : isAbsolute (join a b) = true := isAbsolute_join ha b
    have hjoin : ∀ p : Text, isAbsolute p = true → join here p = p := fun p hp => by simp [join, hp]
    rw [hjoin _ hab, hjoin _ ha, walk_join [] a hb]
  · have hab : isAbsolute (join a b) = false := by
      cases a with
      | nil => simp [join, hb]
      | cons c r =>
        have hc : isAbsolute (c :: r) = isAbsolute [c] := rfl
        simp only [join, hb, Bool.false_eq_true, if_false]
        split <;> simpa [isAbsolute] using ha
    rw [walk_join [] here hab, walk_join _ a hb, walk_join [] here (by simpa using ha)]

theorem place_pathOf {ps : List Text} (h : ∀ part ∈ ps, Proper part) :
    place here (Files.pathOf ps) = ps := by
  have habsolute : isAbsolute (Files.pathOf ps) = true := rfl
  have hjoin : join here (Files.pathOf ps) = Files.pathOf ps := by simp [join, habsolute]
  rw [place_eq hhere, hjoin, walk, Files.pathOf]
  have hsplit : Text.splitOn '/' ('/' :: joinWith ['/'] ps) =
      [] :: Text.splitOn '/' (joinWith ['/'] ps) := by
    simp [Text.splitOn]
  rw [hsplit, foldl_cons, stepPart_nil]
  by_cases hnil : ps = []
  · subst hnil
    rfl
  · rw [splitOn_joinWith hnil fun t ht => (h t ht).whole, foldl_proper h]
    simp

theorem proper_place (p : Text) : ∀ part ∈ place here p, Proper part := by
  intro part hpart
  rw [place_eq hhere, mem_reverse] at hpart
  exact proper_walk _ part hpart

/-- A path that does not lead upwards stays below the directory it starts from. -/
theorem liesBelow_join (a : Text) {b : Text} (hb : isAbsolute b = false) (hdown : Downward b) :
    LiesBelow here a (join a b) := by
  rw [LiesBelow, place_join hhere a hb, ← reverse_suffix, reverse_reverse]
  exact suffix_foldl_stepPart hdown _

end Here

/-! ## Parents -/

theorem parent_prefix : parent p <+: p := by
  have hhead : p.take (p.length - (base p).length) <+: p := take_prefix _ _
  simp only [parent]
  split
  · exact hhead
  · refine List.IsPrefix.trans ?_ hhead
    rw [dropEndWhile, ← reverse_suffix, reverse_reverse]
    exact dropWhile_suffix _

theorem isAbsolute_parent : isAbsolute (parent p) = isAbsolute p := by
  have hprefix := parent_prefix p
  cases p with
  | nil => rfl
  | cons c r =>
    by_cases hnil : parent (c :: r) = []
    · -- Only a path of one part has no parent at all.
      have hc : c ≠ '/' := by
        rintro rfl
        have hbase : (base ('/' :: r)).length ≤ r.length := by
          have hstop : (r.reverse ++ ['/']).takeWhile (· != '/') =
              r.reverse.takeWhile (· != '/') := by
            rw [takeWhile_append]
            split
            next hall => simpa using ((List.takeWhile_prefix _).eq_of_length hall).symm
            · rfl
          rw [base, reverse_cons, hstop, length_reverse]
          simpa using (List.takeWhile_prefix (· != '/') (l := r.reverse)).length_le
        obtain ⟨n, hn⟩ : ∃ n, ('/' :: r).length - (base ('/' :: r)).length = n + 1 :=
          ⟨r.length - (base ('/' :: r)).length, by simp only [length_cons]; omega⟩
        simp only [parent, hn, take_succ_cons] at hnil
        split at hnil
        · simp at hnil
        next hempty => exact hempty (by simp [hnil])
      rw [hnil]
      simpa [isAbsolute] using hc
    · obtain ⟨d, u, hd⟩ := exists_cons_of_ne_nil hnil
      rw [hd] at hprefix ⊢
      obtain rfl : d = c := (cons_prefix_cons.mp hprefix).1
      rfl

/-- The two points that lead upwards. -/
def up : Text := ['.', '.']

theorem downward_of_infix {p q : Text} (h : ¬ up <:+: p) (hq : q <:+: p) : Downward q :=
  fun hmem => h ((infix_of_mem_splitOn hmem).trans hq)

theorem base_suffix : base p <:+ p := by
  rw [base, ← reverse_prefix, reverse_reverse]
  exact takeWhile_prefix _

theorem notMem_base : '/' ∉ base p := by
  intro h
  have := mem_takeWhile_imp (mem_reverse.mp h)
  simp at this

end SheetPress.Path
