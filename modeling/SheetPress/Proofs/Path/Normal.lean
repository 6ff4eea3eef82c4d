import SheetPress.Files
import SheetPress.Proofs.Text.Sorting

/-!
# Normal paths

A normal absolute path has one or two slashes at its start, and then proper parts with slashes
between them: names of files and directories, no `.` and no `..`.  Such a path can lead only to
the place that its parts name, so among normal paths with the same start there is one for each
file (`exists_entry_of_read`).
-/

set_option autoImplicit false

namespace SheetPress

open List Text

namespace Path

/-! ## Proper parts -/

/-- The part is the name of a file or a directory. -/
structure Proper (part : Text) : Prop where
  ne_nil : part ≠ []
  ne_here : part ≠ ['.']
  ne_up : part ≠ ['.', '.']
  whole : '/' ∉ part

theorem proper_stepPart {kept : List Text} {part : Text} (hkept : ∀ k ∈ kept, Proper k)
    (hpart : '/' ∉ part) : ∀ k ∈ stepPart true kept part, Proper k := by
  intro k hk
  by_cases hskip : (part.isEmpty || part == ['.']) = true
  · rw [stepPart.eq_def, if_pos hskip] at hk
    exact hkept k hk
  · by_cases hup : (part == ['.', '.']) = true
    · rw [stepPart.eq_def, if_neg hskip, if_pos hup] at hk
      cases kept with
      | nil => simp at hk
      | cons top rest =>
        have htop : top ≠ ['.', '.'] := (hkept top (by simp)).ne_up
        exact hkept k (mem_cons_of_mem _ (by simpa [htop] using hk))
    · rw [stepPart.eq_def, if_neg hskip, if_neg hup] at hk
      simp only [Bool.or_eq_true, List.isEmpty_iff, beq_iff_eq, not_or] at hskip hup
      rcases mem_cons.mp hk with rfl | hk
      · exact ⟨hskip.1, hskip.2, hup, hpart⟩
      · exact hkept k hk

theorem proper_foldl {parts kept : List Text} (hparts : ∀ part ∈ parts, '/' ∉ part)
    (hkept : ∀ k ∈ kept, Proper k) : ∀ k ∈ parts.foldl (stepPart true) kept, Proper k := by
  induction parts generalizing kept with
  | nil => exact hkept
  | cons part parts ih =>
    exact ih (fun p hp => hparts p (by simp [hp]))
      (proper_stepPart hkept (hparts part (by simp)))

/-! ## The start of a path -/

/-- One or two slashes. -/
def IsStart (start : Text) : Prop := start = ['/'] ∨ start = ['/', '/']

theorem exists_eq_of_isAbsolute {p : Text} (h : isAbsolute p = true) : ∃ r, p = '/' :: r := by
  cases p with
  | nil => simp [isAbsolute] at h
  | cons c r =>
    obtain rfl : c = '/' := by simpa [isAbsolute] using h
    exact ⟨r, rfl⟩

theorem isStart_leading {p : Text} (h : isAbsolute p = true) : IsStart (leading p) := by
  obtain ⟨r, rfl⟩ := exists_eq_of_isAbsolute h
  unfold leading IsStart
  split <;> simp_all

theorem normal_eq {p : Text} (h : isAbsolute p = true) :
    ∃ parts, (∀ part ∈ parts, Proper part) ∧
      normal p = leading p ++ joinWith ['/'] parts := by
  have hstart : leading p ≠ [] := by
    rcases isStart_leading h with hp | hp <;> simp [hp]
  have hne : p ≠ [] := by
    obtain ⟨r, rfl⟩ := exists_eq_of_isAbsolute h
    simp
  refine ⟨((Text.splitOn '/' p).foldl (stepPart true) []).reverse, fun part hpart => ?_, ?_⟩
  · exact proper_foldl (fun _ => notMem_of_mem_splitOn) (by simp) part
      (mem_reverse.mp hpart)
  · simp [normal, hne, h, hstart]

/-- A path that is no absolute one leaves the start of the directory before it. -/
theorem leading_join {here r : Text} (hhere : isAbsolute here = true) (hr : isAbsolute r = false) :
    isAbsolute (join here r) = true ∧ leading (join here r) = leading here := by
  obtain ⟨t, rfl⟩ := exists_eq_of_isAbsolute hhere
  have hhead : ∀ u, r ≠ '/' :: u := by
    rintro u rfl
    simp [isAbsolute] at hr
  have hjoin : ∃ w, join ('/' :: t) r = '/' :: (t ++ w) ∧
      (('/' :: t).getLast? = some '/' → w = r) := by
    by_cases hlast : ('/' :: t).getLast? = some '/'
    · exact ⟨r, by simp [join, hr, hlast], fun _ => rfl⟩
    · exact ⟨'/' :: r, by simp [join, hr, hlast], fun h => absurd h hlast⟩
  obtain ⟨w, hw, hlast⟩ := hjoin
  refine ⟨by simp [hw, isAbsolute], ?_⟩
  rw [hw]
  rcases t with _ | ⟨c, t⟩
  · obtain rfl := hlast rfl
    rcases w with _ | ⟨d, w⟩
    · rfl
    · have hd : d ≠ '/' := fun h => hhead w (by rw [h])
      simp [leading, hd]
  · by_cases hc : c = '/'
    · subst hc
      rcases t with _ | ⟨d, t⟩
      · obtain rfl := hlast rfl
        rcases w with _ | ⟨d, w⟩
        · rfl
        · have hd : d ≠ '/' := fun h => hhead w (by rw [h])
          simp [leading]
      · by_cases hd : d = '/' <;> simp [leading, hd]
    · simp [leading, hc]

theorem isAbsolute_relative (here p start : Text) : isAbsolute (relative here p start) = false := by
  have hparts : ∀ q : Text, ∀ part ∈ parts q, part ≠ [] ∧ '/' ∉ part := by
    intro q part hpart
    obtain ⟨hmem, hne⟩ := mem_filter.mp hpart
    exact ⟨by simpa using hne, notMem_of_mem_splitOn hmem⟩
  have hhead : ∀ way : List Text, (∀ part ∈ way, part ≠ [] ∧ '/' ∉ part) → way ≠ [] →
      isAbsolute (joinWith ['/'] way) = false := by
    intro way hway hne
    obtain ⟨part, rest, rfl⟩ := exists_cons_of_ne_nil hne
    obtain ⟨hpart, hslash⟩ := hway part (by simp)
    obtain ⟨c, u, rfl⟩ := exists_cons_of_ne_nil hpart
    simp only [mem_cons, not_or] at hslash
    cases rest with
    | nil => simpa [joinWith, isAbsolute] using Ne.symm hslash.1
    | cons next rest =>
      rw [joinWith_cons_cons]
      simpa [isAbsolute] using Ne.symm hslash.1
  simp only [relative]
  split
  · rfl
  next hne =>
    refine hhead _ (fun part hpart => ?_) (by simpa using hne)
    rcases mem_append.mp hpart with hpart | hpart
    · rw [eq_of_mem_replicate hpart]
      decide
    · exact hparts _ part (mem_of_mem_drop hpart)

/-- An absolute path starts as the directory does that it is seen from. -/
theorem absolute_eq {here r : Text} (hhere : isAbsolute here = true) (hr : isAbsolute r = false) :
    ∃ parts, (∀ part ∈ parts, Proper part) ∧
      absolute here r = leading here ++ joinWith ['/'] parts := by
  obtain ⟨hjoin, hstart⟩ := leading_join hhere hr
  obtain ⟨parts, hproper, heq⟩ := normal_eq hjoin
  exact ⟨parts, hproper, by rw [absolute, heq, hstart]⟩

end Path

/-! ## Where normal paths lead -/

namespace Files

open SheetPress.Path

variable {fs : Files}

theorem follow_proper {done ps r : List Text} (hps : ∀ part ∈ ps, Proper part)
    (h : fs.follow done ps = some r) : r = done ++ ps := by
  induction ps generalizing done with
  | nil => simpa [follow] using h.symm
  | cons part ps ih =>
    have hpart := hps part (by simp)
    have hskip : ¬ (part.isEmpty || part == ['.']) = true := by
      simp [hpart.ne_nil, hpart.ne_here]
    have hup : ¬ (part == ['.', '.']) = true := by simpa using hpart.ne_up
    rw [follow, if_neg hskip] at h
    split at h
    · cases h
    · rw [ih (fun p hp => hps p (by simp [hp])) h, append_assoc, singleton_append]

theorem follow_empty {done rest r : List Text} (h : fs.follow done ([] :: rest) = some r) :
    fs.follow done rest = some r := by
  rw [follow, if_pos (by rfl)] at h
  split at h
  · exact h
  · cases h

theorem resolve_normal {start r : Text} {ps : List Text} (hstart : IsStart start)
    (hps : ∀ part ∈ ps, Proper part)
    (h : fs.resolve (start ++ joinWith ['/'] ps) = some r) : r = pathOf ps := by
  -- Behind the start there are the parts, or one empty part if there are none.
  have hparts : ∀ r', fs.follow [] (Text.splitOn '/' (joinWith ['/'] ps)) = some r' →
      r' = ps := by
    intro r' hr'
    by_cases hnil : ps = []
    · rw [hnil] at hr' ⊢
      exact follow_proper (by simp) (follow_empty hr')
    · rw [splitOn_joinWith hnil fun t ht => (hps t ht).whole] at hr'
      simpa using follow_proper hps hr'
  have hjoin : ∀ t, join fs.home ('/' :: t) = '/' :: t := fun t => by simp [join, isAbsolute]
  rcases hstart with rfl | rfl
  · rw [resolve, singleton_append, hjoin] at h
    obtain ⟨r', hr', rfl⟩ := Option.map_eq_some_iff.mp (by simpa [Text.splitOn] using h)
    rw [hparts r' hr']
  · rw [resolve, cons_append, singleton_append, hjoin] at h
    obtain ⟨r', hr', rfl⟩ := Option.map_eq_some_iff.mp (by simpa [Text.splitOn] using h)
    rw [hparts r' (follow_empty hr')]

/-- A normal path that can be read is the path of a file, but for its start. -/
theorem exists_entry_of_read {here r content : Text} (hhere : isAbsolute here = true)
    (hr : isAbsolute r = false) (h : fs.read? (absolute here r) = some content) :
    ∃ e ∈ fs.entries, absolute here r = leading here ++ e.1.tail := by
  obtain ⟨ps, hps, heq⟩ := absolute_eq hhere hr
  rw [heq] at h ⊢
  rw [read?] at h
  cases hresolve : fs.resolve (leading here ++ joinWith ['/'] ps) with
  | none => simp [hresolve] at h
  | some q =>
    rw [hresolve] at h
    obtain rfl := resolve_normal (isStart_leading hhere) hps hresolve
    obtain ⟨before, behind, hentries, -⟩ := lookup_eq_some_iff.mp h
    exact ⟨(pathOf ps, content), by simp [hentries], rfl⟩

end Files

end SheetPress
