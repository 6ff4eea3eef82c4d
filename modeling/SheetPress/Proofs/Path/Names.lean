import SheetPress.Proofs.Path.Writing

/-!
# Names at the ends of paths

The name at the end of a path stays the same whatever stands before the path (`base_join`), and it
is the last part of the place of the path (`place_parent`, `base_absolute`).  A name that has an
extension keeps it with more in front (`cutExtension_dotted`).
-/

set_option autoImplicit false

namespace SheetPress

open List Text

namespace Path

variable {n : Text}

instance (n : Text) : Decidable (Proper n) :=
  decidable_of_iff (n ≠ [] ∧ n ≠ ['.'] ∧ n ≠ ['.', '.'] ∧ '/' ∉ n)
    ⟨fun ⟨h₁, h₂, h₃, h₄⟩ => ⟨h₁, h₂, h₃, h₄⟩, fun h => ⟨h.ne_nil, h.ne_here, h.ne_up, h.whole⟩⟩

theorem Proper.append {q : Text} (hn : Proper n) (hq : '/' ∉ q) : Proper (q ++ n) := by
  refine ⟨by simp [hn.ne_nil], fun h => ?_, fun h => ?_, by simp [hq, hn.whole]⟩
  · rcases append_eq_singleton_iff.mp h with ⟨-, h⟩ | ⟨-, h⟩
    · exact hn.ne_here h
    · exact hn.ne_nil h
  · rcases q with _ | ⟨c, _ | ⟨d, q⟩⟩
    · exact hn.ne_up h
    · exact hn.ne_here (cons.inj h).2
    · have hnil := (cons.inj (cons.inj h).2).2
      exact hn.ne_nil (append_eq_nil_iff.mp hnil).2

theorem base_append (x : Text) (hn : '/' ∉ n) : base (x ++ n) = base x ++ n := by
  have hall : ∀ c ∈ n.reverse, (c != '/') = true := by grind
  rw [base, reverse_append, takeWhile_append_of_pos hall, reverse_append,
    reverse_reverse, base]

theorem base_of_notMem (hn : '/' ∉ n) : base n = n := base_append [] hn

theorem base_slash (x : Text) : base (x ++ ['/']) = [] := by
  simp [base]

/-- Before the name at the end of a path stands a slash or nothing. -/
theorem eq_append_base (t : Text) : ∃ x, t = x ++ base t ∧ (x = [] ∨ ∃ y, x = y ++ ['/']) := by
  obtain ⟨x, hx⟩ := base_suffix t
  refine ⟨x, hx.symm, ?_⟩
  rcases eq_nil_or_concat x with rfl | ⟨y, c, rfl⟩
  · exact .inl rfl
  · have hbase := base_append (y ++ [c]) (notMem_base t)
    rw [concat_eq_append] at hx
    rw [hx] at hbase
    have hempty := self_eq_append_left.mp hbase
    by_cases hc : c = '/'
    · exact .inr ⟨y, by rw [hc, concat_eq_append]⟩
    · simp [base, hc] at hempty

/-- The name at the end of a path is not changed by what stands before the path. -/
theorem base_join (a b : Text) : base (join a b) = base b := by
  have hslashed : base (slashed a) = [] := by
    unfold slashed
    split
    next h =>
      rcases Bool.or_eq_true _ _ ▸ h with h | h
      · rw [isEmpty_iff.mp h]
        rfl
      · obtain ⟨x, rfl⟩ := getLast?_eq_some_iff.mp (beq_iff_eq.mp h)
        exact base_slash x
    · exact base_slash a
  cases hb : isAbsolute b with
  | true => rw [join, if_pos hb]
  | false =>
    obtain ⟨x, hx, rfl | ⟨y, rfl⟩⟩ := eq_append_base b
    · rw [join_eq_slashed a hb, hx, nil_append, base_append _ (notMem_base b), hslashed,
        base_of_notMem (notMem_base b), nil_append]
    · rw [join_eq_slashed a hb, hx, ← append_assoc, base_append _ (notMem_base b),
        base_append _ (notMem_base b), ← append_assoc, base_slash, base_slash]

/-! ## Parents -/

variable (kept : List Text)

theorem walk_slash_end (x : Text) : walk kept (x ++ ['/']) = walk kept x := by
  rw [walk_slash]
  simp [walk, Text.splitOn, stepPart_nil]

theorem walk_dropEndWhile (x : Text) : walk kept (dropEndWhile (· == '/') x) = walk kept x := by
  induction x using reverseRecOn with
  | nil => rfl
  | append_singleton x c ih =>
    by_cases hc : c = '/'
    · subst hc
      rw [walk_slash_end, ← ih]
      simp [dropEndWhile]
    · simp [dropEndWhile, hc]

theorem walk_proper (hn : Proper n) : walk kept n = n :: kept := by
  rw [walk, splitOn_of_notMem hn.whole]
  simp [stepPart, hn.ne_nil, hn.ne_here, hn.ne_up]

theorem place_parent {here t : Text} (hhere : isAbsolute here = true) (ht : isAbsolute t = true)
    (hbase : Proper (base t)) : place here t = place here (parent t) ++ [base t] := by
  have hjoin : ∀ p : Text, isAbsolute p = true → join here p = p := fun p hp => by simp [join, hp]
  obtain ⟨x, hx, hslash⟩ := eq_append_base t
  generalize hn : base t = n at hbase hx
  obtain ⟨y, rfl⟩ : ∃ y, x = y ++ ['/'] := by
    refine hslash.resolve_left ?_
    rintro rfl
    rw [hx, nil_append, hbase.isAbsolute] at ht
    exact Bool.false_ne_true ht
  have hhead : t.take (t.length - n.length) = y ++ ['/'] := by
    rw [hx, length_append, Nat.add_sub_cancel, take_left]
  have hparent : walk [] (parent t) = walk [] y := by
    simp only [parent, hn, hhead]
    split
    · exact walk_slash_end [] y
    · rw [walk_dropEndWhile, walk_slash_end]
  have hwalk : walk [] t = n :: walk [] y := by
    rw [hx, append_assoc, singleton_append, walk_slash, walk_proper _ hbase]
  rw [place_eq hhere, place_eq hhere, hjoin t ht, hjoin _ (isAbsolute_parent t ▸ ht), hwalk,
    hparent, reverse_cons]

/-! ## Absolute paths -/

theorem joinWith_concat (ds : List Text) (n : Text) :
    ∃ x, joinWith ['/'] (ds ++ [n]) = x ++ n ∧ (x = [] ∨ ∃ y, x = y ++ ['/']) := by
  induction ds with
  | nil => exact ⟨[], by simp [joinWith], .inl rfl⟩
  | cons d ds ih =>
    obtain ⟨x, hx, hslash⟩ := ih
    obtain ⟨t, ts, hts⟩ : ∃ t ts, ds ++ [n] = t :: ts := exists_cons_of_ne_nil (by simp)
    refine ⟨d ++ (['/'] ++ x), ?_, .inr ?_⟩
    · rw [cons_append, hts, joinWith_cons_cons, ← hts, hx]
      simp
    · rcases hslash with rfl | ⟨y, rfl⟩
      · exact ⟨d, by simp⟩
      · exact ⟨d ++ (['/'] ++ y), by simp⟩

section Here

variable {here : Text} (hhere : isAbsolute here = true)

include hhere

variable (p : Text)

/-- The absolute form of a path has its parts behind one slash or two. -/
theorem absolute_eq_start : ∃ start, IsStart start ∧
    absolute here p = start ++ joinWith ['/'] (place here p) := by
  have hslash : ∀ t, parts ('/' :: t) = parts t := fun t => by simp [parts, Text.splitOn]
  have hjoin := isAbsolute_join hhere p
  obtain ⟨ps, hproper, heq⟩ := normal_eq hjoin
  have hstart := isStart_leading hjoin
  have hplace : place here p = ps := by
    rw [place, absolute, heq]
    rcases hstart with hstart | hstart <;> rw [hstart]
    · exact parts_slash hproper
    · exact (hslash _).trans (parts_slash hproper)
  exact ⟨_, hstart, by rw [absolute, heq, hplace]⟩

theorem isAbsolute_absolute : isAbsolute (absolute here p) = true := by
  obtain ⟨start, hstart, heq⟩ := absolute_eq_start hhere p
  rw [heq]
  rcases hstart with rfl | rfl <;> rfl

theorem place_absolute : place here (absolute here p) = place here p := by
  have hslash : ∀ t, walk [] ('/' :: t) = walk [] t := fun t => walk_slash [] [] t
  have hparts := place_pathOf hhere (proper_place hhere p)
  have hjoin : ∀ t, join here ('/' :: t) = '/' :: t := fun t => by simp [join, isAbsolute]
  rw [place_eq hhere, Files.pathOf, hjoin] at hparts
  obtain ⟨start, hstart, heq⟩ := absolute_eq_start hhere p
  rw [heq, place_eq hhere]
  rcases hstart with rfl | rfl
  · rw [singleton_append, hjoin]
    exact hparts
  · rw [cons_append, singleton_append, hjoin, hslash]
    exact hparts

/-- The last part of a path is the name at the end of its absolute form. -/
theorem base_absolute {p : Text} {ds : List Text} (h : place here p = ds ++ [n]) :
    base (absolute here p) = n := by
  have hn : Proper n := proper_place hhere p n (by simp [h])
  obtain ⟨start, hstart, heq⟩ := absolute_eq_start hhere p
  have hempty : base start = [] := by rcases hstart with rfl | rfl <;> rfl
  obtain ⟨x, hx, hslash⟩ := joinWith_concat ds n
  rw [heq, h, hx, ← append_assoc, base_append _ hn.whole]
  rcases hslash with rfl | ⟨y, rfl⟩
  · rw [append_nil, hempty, nil_append]
  · rw [← append_assoc, base_slash, nil_append]

theorem place_join_name (hn : Proper n) : place here (join p n) = place here p ++ [n] := by
  rw [place_join hhere p hn.isAbsolute, walk_proper _ hn, reverse_cons, reverse_reverse]

end Here

/-! ## Extensions -/

/-- A name with an extension: something other than points stands before the last point. -/
structure Dotted (start extension : Text) : Prop where
  pointless : '.' ∉ extension
  named : start.all (· == '.') = false

theorem takeWhile_dotted (x : Text) {e : Text} (he : '.' ∉ e) :
    (x ++ '.' :: e).reverse.takeWhile (· != '.') = e.reverse := by
  have hall : ∀ c ∈ e.reverse, (c != '.') = true := by grind
  rw [reverse_append, reverse_cons, append_assoc,
    takeWhile_append_of_pos hall]
  simp

theorem cutExtension_dotted {t y x e : Text} (hbase : base t = x ++ '.' :: e)
    (ht : t = y ++ (x ++ '.' :: e)) (h : Dotted x e) : cutExtension t = (y ++ x, '.' :: e) := by
  have htail := takeWhile_dotted x h.pointless
  have hcount : (x ++ '.' :: e).length - e.reverse.length = x.length + 1 := by simp; omega
  have hplace : t.length - e.reverse.length - 1 = (y ++ x).length := by
    rw [ht]
    simp
    omega
  have hnamed : ((x ++ '.' :: e).take (x.length + 1 - 1)).all (· == '.') = false := by
    rw [Nat.add_sub_cancel, take_left, h.named]
  unfold cutExtension
  simp only [hbase, htail, hcount, hplace, hnamed]
  rw [if_neg (by simp), ht, ← append_assoc, take_left, drop_left]

theorem cutExtension_cases (t : Text) :
    cutExtension t = (t, []) ∨ ∃ x e, base t = x ++ '.' :: e ∧ Dotted x e := by
  by_cases hpoint : '.' ∈ base t
  · obtain ⟨r, x, hreverse, he⟩ := eq_append_cons_of_mem (mem_reverse.mpr hpoint)
    have hbase : base t = x.reverse ++ '.' :: r.reverse := by
      rw [← reverse_reverse (base t), hreverse]
      simp
    have he : '.' ∉ r.reverse := by simpa using he
    cases hnamed : x.reverse.all (· == '.') with
    | false => exact .inr ⟨_, _, hbase, he, hnamed⟩
    | true =>
      have htail := takeWhile_dotted x.reverse he
      have hcount : (x.reverse ++ '.' :: r.reverse).length - r.length = x.reverse.length + 1 := by
        simp only [length_append, length_cons, length_reverse]
        omega
      left
      unfold cutExtension
      simp only [hbase, htail, reverse_reverse, hcount, Nat.add_sub_cancel, take_left,
        hnamed, Bool.or_true, if_true]
  · have hall : ∀ c ∈ (base t).reverse, (c != '.') = true := by grind
    left
    unfold cutExtension
    simp [takeWhile_eq_self_iff.mpr hall]

/-- The start of a name is the start of what stands before its extension. -/
theorem head?_cutExtension (hn : Proper n) : (cutExtension n).1.head? = n.head? := by
  have hbase : base n = n := base_of_notMem hn.whole
  rcases cutExtension_cases n with h | ⟨x, e, h, hdotted⟩
  · rw [h]
  · rw [hbase] at h
    obtain ⟨c, r, rfl⟩ : ∃ c r, x = c :: r := by
      refine exists_cons_of_ne_nil ?_
      rintro rfl
      exact absurd hdotted.named (by simp)
    rw [cutExtension_dotted (y := []) (hbase.trans h) h hdotted, h]
    rfl

end Path

namespace Files

open SheetPress.Path

variable {fs : Files}

/-- Where a path with a proper name at its end leads, that is a name in a directory. -/
theorem resolve_name (hhome : isAbsolute fs.home = true) {t r : Text} (ht : Proper (base t))
    (h : fs.resolve t = some r) : ∃ d, fs.isDirectoryAt d = true ∧ place fs.home t = d ++ [base t] ∧
      r = pathOf (d ++ [base t]) := by
  obtain rfl := resolve_eq_pathOf hhome h
  rw [resolve] at h
  split at h
  · cases h
  obtain ⟨ps, hps, -⟩ := Option.map_eq_some_iff.mp h
  have hplace := follow_eq_place hhome hps
  have habsolute := isAbsolute_join hhome t
  obtain ⟨x, hx, hslash⟩ := eq_append_base (join fs.home t)
  rw [base_join] at hx
  obtain ⟨y, rfl⟩ : ∃ y, x = y ++ ['/'] := by
    refine hslash.resolve_left ?_
    rintro rfl
    rw [hx, nil_append, ht.isAbsolute] at habsolute
    exact Bool.false_ne_true habsolute
  rw [hx, append_assoc, singleton_append, splitOn_append_cons,
    splitOn_of_notMem ht.whole, tail_append_of_ne_nil (splitOn_ne_nil _ _),
    follow_append] at hps
  obtain ⟨d, -, hname⟩ := Option.bind_eq_some_iff.mp hps
  rw [follow_name ht] at hname
  split at hname
  next hd =>
    have hplace : place fs.home t = d ++ [base t] := hplace ▸ (Option.some.inj hname).symm
    exact ⟨d, hd, hplace, by rw [hplace]⟩
  · cases hname

end Files

end SheetPress
