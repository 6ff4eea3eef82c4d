import SheetPress.Proofs.Path.Below

/-!
# Writing files

A path leads to the place of its parts, if all directories on the way exist (`resolve_eq_pathOf`),
and the name of a file behind the path of a directory leads into that directory (`resolve_join`).
Writing a file into a directory adds the file and leaves all directories as they are, so that every
other path leads where it did (`Grows.write`).
-/

set_option autoImplicit false

namespace SheetPress

open List

namespace Path

/-- The path with a slash at its end. -/
def slashed (p : Text) : Text := if p.isEmpty || p.getLast? == some '/' then p else p ++ ['/']

theorem join_eq_slashed (a : Text) {b : Text} (hb : isAbsolute b = false) :
    join a b = slashed a ++ b := by
  rw [join, if_neg (by simp [hb]), slashed]
  split <;> simp

theorem slashed_append (a b : Text) : slashed (slashed a ++ b) = slashed a ++ slashed b := by
  by_cases hb : b = []
  · subst hb
    unfold slashed
    split
    next h =>
      rw [append_nil, if_pos h]
      simp
    · simp
  · have hlast : (slashed a ++ b).getLast? = b.getLast? := List.getLast?_append_of_ne_nil _ hb
    simp only [slashed.eq_1 b, slashed.eq_1 (slashed a ++ b), hlast]
    by_cases hslash : b.getLast? = some '/' <;> simp [hb, hslash]

theorem join_join (here p : Text) {n : Text} (hn : isAbsolute n = false) :
    join here (join p n) = join (join here p) n := by
  cases hp : isAbsolute p with
  | true => rw [join, if_pos (isAbsolute_join hp n), join.eq_def here p, if_pos hp]
  | false =>
    have hpn : isAbsolute (join p n) = false := by
      rw [join_eq_slashed p hn, slashed]
      cases p with
      | nil => exact hn
      | cons c r => split <;> exact hp
    rw [join_eq_slashed _ hpn, join_eq_slashed _ hn, join_eq_slashed _ hp, join_eq_slashed _ hn,
      slashed_append, append_assoc]

theorem Proper.isAbsolute {n : Text} (h : Proper n) : isAbsolute n = false := by
  cases n with
  | nil => exact absurd rfl h.ne_nil
  | cons c r =>
    have hc : c ≠ '/' := fun hc => h.whole (by simp [hc])
    simpa [Path.isAbsolute] using hc

/-- The parts of a path with a name behind it: a slash at the end of the path leaves no part. -/
theorem splitOn_join (a : Text) {n : Text} (ha : isAbsolute a = true) (hn : Proper n) :
    ∃ before, Text.splitOn '/' (join a n) = before ++ [n] ∧
      (Text.splitOn '/' a = before ∨ Text.splitOn '/' a = before ++ [[]]) ∧ before ≠ [] := by
  have hname : Text.splitOn '/' n = [n] := Text.splitOn_of_notMem hn.whole
  have hne : a ≠ [] := by
    rintro rfl
    simp [isAbsolute] at ha
  by_cases hlast : a.getLast? = some '/'
  · obtain ⟨x, rfl⟩ := List.getLast?_eq_some_iff.mp hlast
    have hjoin : join (x ++ ['/']) n = x ++ '/' :: n := by simp [join, hn.isAbsolute]
    refine ⟨Text.splitOn '/' x, ?_, .inr ?_, Text.splitOn_ne_nil _ _⟩
    · rw [hjoin, Text.splitOn_append_cons, hname]
    · rw [Text.splitOn_append_cons]
      rfl
  · have hjoin : join a n = a ++ '/' :: n := by simp [join, hn.isAbsolute, hne, hlast]
    refine ⟨Text.splitOn '/' a, ?_, .inl rfl, Text.splitOn_ne_nil _ _⟩
    rw [hjoin, Text.splitOn_append_cons, hname]

end Path

namespace Files

variable {d ps : List Text}

open SheetPress.Path

variable {fs fs' : Files}

/-! ## Where paths lead -/

theorem follow_append (done xs ys : List Text) :
    fs.follow done (xs ++ ys) = (fs.follow done xs).bind fun d => fs.follow d ys := by
  induction xs generalizing done with
  | nil => rfl
  | cons x xs ih =>
    rw [cons_append, follow, follow]
    split
    · split
      · exact ih done
      · rfl
    · split
      · rfl
      · split
        · exact ih _
        · exact ih _

theorem follow_name {n : Text} (hn : Proper n) :
    fs.follow d [n] = if fs.isDirectoryAt d then some (d ++ [n]) else none := by
  have hskip : ¬ (n.isEmpty || n == ['.']) = true := by simp [hn.ne_nil, hn.ne_here]
  have hup : ¬ (n == ['.', '.']) = true := by simpa using hn.ne_up
  rw [follow, if_neg hskip, if_neg hup]
  cases fs.isDirectoryAt d <;> rfl

/-- Following a path keeps the parts that the path has without points. -/
theorem follow_eq_foldl {done parts r : List Text} (hdone : ∀ part ∈ done, Proper part)
    (hparts : ∀ part ∈ parts, '/' ∉ part) (h : fs.follow done parts = some r) :
    r = (parts.foldl (stepPart true) done.reverse).reverse := by
  induction parts generalizing done with
  | nil => simpa [follow] using h.symm
  | cons part parts ih =>
    have hrest : ∀ x ∈ parts, '/' ∉ x := fun x hx => hparts x (mem_cons_of_mem _ hx)
    have hkept : ∀ k ∈ done.reverse, Proper k := fun k hk => hdone k (mem_reverse.mp hk)
    have hnext := proper_stepPart hkept (hparts part mem_cons_self)
    have hstep : ∃ next, fs.follow next parts = some r ∧
        stepPart true done.reverse part = next.reverse := by
      rw [follow] at h
      split at h
      next hskip =>
        split at h
        · exact ⟨done, h, by rw [stepPart.eq_def, if_pos hskip]⟩
        · cases h
      next hskip =>
        split at h
        · cases h
        · split at h
          next hup =>
            refine ⟨done.dropLast, h, ?_⟩
            rw [stepPart.eq_def, if_neg hskip, if_pos hup, ← tail_reverse]
            cases hreverse : done.reverse with
            | nil => rfl
            | cons k rest =>
              have hk : k ≠ ['.', '.'] :=
                (hdone k (mem_reverse.mp (by simp [hreverse]))).ne_up
              simp [hk]
          next hup =>
            refine ⟨done ++ [part], h, ?_⟩
            rw [stepPart.eq_def, if_neg hskip, if_neg hup]
            simp
    obtain ⟨next, hfollow, heq⟩ := hstep
    rw [foldl_cons, heq]
    rw [heq] at hnext
    exact ih (fun k hk => hnext k (by simpa using hk)) hrest hfollow

theorem splitOn_absolute {a : Text} (ha : isAbsolute a = true) :
    Text.splitOn '/' a = [] :: (Text.splitOn '/' a).tail := by
  obtain ⟨r, rfl⟩ := exists_eq_of_isAbsolute ha
  simp [Text.splitOn]

section Home

variable (hhome : isAbsolute fs.home = true)

include hhome

theorem follow_eq_place {p : Text} {r : List Text}
    (h : fs.follow [] (Text.splitOn '/' (join fs.home p)).tail = some r) :
    r = place fs.home p := by
  have hparts := follow_eq_foldl (forall_mem_nil _)
    (fun part hpart => Text.notMem_of_mem_splitOn (mem_of_mem_tail hpart)) h
  rw [hparts, place_eq hhome, walk, splitOn_absolute (isAbsolute_join hhome p), foldl_cons,
    stepPart_nil]
  rfl

theorem resolve_eq_pathOf {p q : Text} (h : fs.resolve p = some q) :
    q = pathOf (place fs.home p) := by
  rw [resolve] at h
  split at h
  · cases h
  · obtain ⟨r, hr, rfl⟩ := Option.map_eq_some_iff.mp h
    rw [follow_eq_place hhome hr]

theorem parts_pathOf_place (p : Text) : parts (pathOf (place fs.home p)) = place fs.home p :=
  parts_slash (proper_place hhome p)

/-- The path of a directory leads to its place, and that is a directory. -/
theorem of_isDirectory {p : Text} (h : fs.isDirectory p = true) :
    p ≠ [] ∧ fs.follow [] (Text.splitOn '/' (join fs.home p)).tail = some (place fs.home p) ∧
      fs.isDirectoryAt (place fs.home p) = true := by
  rw [isDirectory] at h
  cases hresolve : fs.resolve p with
  | none => simp [hresolve] at h
  | some q =>
    obtain rfl := resolve_eq_pathOf hhome hresolve
    simp only [hresolve, parts_pathOf_place hhome] at h
    rw [resolve] at hresolve
    split at hresolve
    · cases hresolve
    next hne =>
      obtain ⟨r, hr, -⟩ := Option.map_eq_some_iff.mp hresolve
      exact ⟨by simpa using hne, follow_eq_place hhome hr ▸ hr, h⟩

/-- A name behind the path of a directory leads into the directory. -/
theorem resolve_join {p n : Text} (hp : fs.isDirectory p = true) (hn : Proper n) :
    fs.resolve (join p n) = some (pathOf (place fs.home p ++ [n])) := by
  obtain ⟨hne, hfollow, hdirectory⟩ := of_isDirectory hhome hp
  obtain ⟨before, hjoin, hpath, hbefore⟩ :=
    splitOn_join (join fs.home p) (isAbsolute_join hhome p) hn
  have hinto : fs.follow [] before.tail = some (place fs.home p) := by
    rcases hpath with hpath | hpath
    · rwa [hpath] at hfollow
    · rw [hpath, tail_append_of_ne_nil hbefore, follow_append] at hfollow
      obtain ⟨d, hd, hlast⟩ := Option.bind_eq_some_iff.mp hfollow
      rw [hd, ← Option.some.inj (follow_empty hlast)]
  have hempty : (join p n).isEmpty = false := by
    rw [join, if_neg (by simp [hn.isAbsolute])]
    split <;> simp [hne]
  rw [resolve, hempty, join_join _ _ hn.isAbsolute, hjoin, tail_append_of_ne_nil hbefore,
    follow_append, hinto, Option.bind_some, follow_name hn, hdirectory]
  rfl

end Home

/-! ## Adding files -/

/-- There is a file under the path. -/
def Has (fs : Files) (q : Text) : Prop := ∃ e ∈ fs.entries, e.1 = q

/-- All files have proper paths. -/
def WellFormed (fs : Files) : Prop :=
  ∀ q, fs.Has q → ∃ ps, (∀ part ∈ ps, Proper part) ∧ q = pathOf ps

theorem isSome_lookup (q : Text) : (fs.entries.lookup q).isSome = true ↔ fs.Has q := by
  rw [← not_iff_not, Bool.not_eq_true, Option.isSome_eq_false_iff, Option.isNone_iff_eq_none,
    lookup_eq_none_iff, Has]
  simp only [bne_iff_ne, not_exists, not_and]
  exact ⟨fun h e he heq => h e he heq.symm, fun h e he heq => h e he heq.symm⟩

theorem isFile_iff {p : Text} : fs.isFile p = true ↔ ∃ q, fs.resolve p = some q ∧ fs.Has q := by
  rw [isFile, read?]
  cases fs.resolve p with
  | none => simp
  | some q => simpa using isSome_lookup q

theorem has_write (p content q : Text) : (fs.write p content).Has q ↔ fs.Has q ∨ q = p := by
  unfold write Has
  split
  next h =>
    obtain ⟨e, he, hp⟩ := any_eq_true.mp h
    have hfst : ∀ e : Text × Text, (if e.1 == p then (p, content) else e).1 = e.1 := by
      intro e
      split
      next heq => exact (beq_iff_eq.mp heq).symm
      · rfl
    simp only [mem_map, exists_exists_and_eq_and, hfst]
    refine ⟨.inl, fun h => h.elim id ?_⟩
    rintro rfl
    exact ⟨e, he, beq_iff_eq.mp hp⟩
  · simp [or_and_right, exists_or, eq_comm]

theorem isBelow_iff {qs : List Text} :
    isBelow ps qs = true ↔ ps <+: qs ∧ ps.length < qs.length := by
  rw [isBelow, Bool.and_eq_true, decide_eq_true_eq, beq_iff_eq, prefix_iff_eq_take, and_comm,
    eq_comm]

/-- The directories are those that lead to the home directory or to a file. -/
theorem isDirectoryAt_iff : fs.isDirectoryAt ps = true ↔
    ps <+: parts fs.home ∨ ∃ q, fs.Has q ∧ ps <+: parts q ∧ ps.length < (parts q).length := by
  have hhome : (parts fs.home == ps || isBelow ps (parts fs.home)) = true ↔
      ps <+: parts fs.home := by
    rw [Bool.or_eq_true, beq_iff_eq, isBelow_iff]
    refine ⟨fun h => h.elim (fun h => h ▸ prefix_rfl) And.left, fun h => ?_⟩
    rcases Nat.lt_or_ge ps.length (parts fs.home).length with hlt | hge
    · exact .inr ⟨h, hlt⟩
    · exact .inl (h.eq_of_length_le hge).symm
  rw [isDirectoryAt, Bool.or_eq_true, hhome, any_eq_true]
  simp only [isBelow_iff, Has, exists_exists_and_eq_and]

theorem isDirectoryAt_of_prefix (h : ps <+: d) (hd : fs.isDirectoryAt d = true) :
    fs.isDirectoryAt ps = true := by
  rw [isDirectoryAt_iff] at hd ⊢
  rcases hd with hd | ⟨q, hq, hd, hlt⟩
  · exact .inl (h.trans hd)
  · exact .inr ⟨q, hq, h.trans hd, Nat.lt_of_le_of_lt h.length_le hlt⟩

/-- The directories are the same, and what is new are files with a property. -/
structure Grows (T : List Text → Prop) (fs fs' : Files) : Prop where
  home : fs'.home = fs.home
  directories : fs'.isDirectoryAt = fs.isDirectoryAt
  has : ∀ q, fs.Has q → fs'.Has q
  new : ∀ q, fs'.Has q → fs.Has q ∨ ∃ ps, (∀ part ∈ ps, Proper part) ∧ T ps ∧ q = pathOf ps

variable {T : List Text → Prop}

theorem Grows.refl (fs : Files) : Grows T fs fs := ⟨rfl, rfl, fun _ h => h, fun _ h => .inl h⟩

theorem Grows.trans {fs₁ fs₂ fs₃ : Files} (h : Grows T fs₁ fs₂) (h' : Grows T fs₂ fs₃) :
    Grows T fs₁ fs₃ :=
  ⟨h'.home.trans h.home, h'.directories.trans h.directories, fun q hq => h'.has q (h.has q hq),
    fun q hq => (h'.new q hq).elim (h.new q) .inr⟩

theorem Grows.follow (h : Grows T fs fs') (done parts : List Text) :
    fs'.follow done parts = fs.follow done parts := by
  induction parts generalizing done with
  | nil => rfl
  | cons part parts ih => simp only [Files.follow, h.directories, ih]

theorem Grows.resolve (h : Grows T fs fs') (p : Text) : fs'.resolve p = fs.resolve p := by
  simp only [Files.resolve, h.home, h.follow]

theorem Grows.isDirectory (h : Grows T fs fs') (p : Text) :
    fs'.isDirectory p = fs.isDirectory p := by
  simp only [Files.isDirectory, h.resolve, h.directories]

theorem Grows.wellFormed (h : Grows T fs fs') (hfs : fs.WellFormed) : fs'.WellFormed := by
  intro q hq
  rcases h.new q hq with hq | ⟨ps, hps, -, rfl⟩
  · exact hfs q hq
  · exact ⟨ps, hps, rfl⟩

theorem Grows.write {n content : Text} (hd : fs.isDirectoryAt d = true)
    (hproper : ∀ part ∈ d ++ [n], Proper part) (hT : T (d ++ [n])) :
    Grows T fs (fs.write (pathOf (d ++ [n])) content) := by
  have hhome : (fs.write (pathOf (d ++ [n])) content).home = fs.home := by
    unfold Files.write
    split <;> rfl
  refine ⟨hhome, ?_, fun q hq => (has_write _ _ _).mpr (.inl hq), fun q hq => ?_⟩
  · funext ps
    rw [Bool.eq_iff_iff]
    constructor
    · intro h
      rw [isDirectoryAt_iff, hhome] at h
      rcases h with h | ⟨q, hq, hbelow, hlt⟩
      · exact isDirectoryAt_iff.mpr (.inl h)
      rcases (has_write _ _ _).mp hq with hq | rfl
      · exact isDirectoryAt_iff.mpr (.inr ⟨q, hq, hbelow, hlt⟩)
      · -- What lies above the new file lies above its directory.
        rw [show parts (pathOf (d ++ [n])) = d ++ [n] from parts_slash hproper] at hbelow hlt
        rcases prefix_concat_iff.mp hbelow with rfl | hbelow
        · exact absurd hlt (Nat.lt_irrefl _)
        · exact isDirectoryAt_of_prefix hbelow hd
    · intro h
      rw [isDirectoryAt_iff] at h ⊢
      rw [hhome]
      exact h.imp id fun ⟨q, hq, h⟩ => ⟨q, (has_write _ _ _).mpr (.inl hq), h⟩
  · rcases (has_write _ _ _).mp hq with hq | rfl
    · exact .inl hq
    · exact .inr ⟨_, hproper, hT, rfl⟩

end Files

end SheetPress
