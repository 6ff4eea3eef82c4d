import SheetPress.Proofs.Selector.Names

/-!
# The normal form of selector lists

What counts in a list are its selectors, blanks aside, and what they extend.  The normal form
depends on nothing else, and both are read back from it (`read_write`), unless there are parents
and its last selector ends in `extends`: together with the word that follows it makes another one.
-/

set_option autoImplicit false

namespace SheetPress.Selector

open List Text

variable {c q s t x : Text}

/-- The selectors of a list, without blanks around them and with single blanks in them. -/
def children (s : Text) : Set Text :=
  {c | c ≠ [] ∧ ∃ p ∈ Text.splitOn ',' (squeeze s), trim (cutExtends p).1 = c}

/-- What the selectors of a list extend. -/
def parents (s : Text) : Set Text :=
  {q | q ≠ [] ∧ ∃ p ∈ Text.splitOn ',' (squeeze s),
    ∃ t ∈ Text.splitOn '&' (trim (cutExtends p).2), trim t = q}

theorem mem_read_fst : c ∈ (read (squeeze s)).1 ↔ c ∈ children s := by
  rw [read_eq_readExtending, readExtending, mem_filled]
  simp [children, cutExtends]

theorem mem_read_snd : q ∈ (read (squeeze s)).2 ↔ q ∈ parents s := by
  have hparts : ∀ u, parts '&' u = filled (Text.splitOn '&' u) := fun _ => rfl
  rw [read_eq_readExtending, readExtending]
  simp only [mem_flatMap, mem_map, hparts, mem_filled, parents, cutExtends]
  constructor
  · rintro ⟨-, ⟨p, hp, rfl⟩, hne, t, ht, rfl⟩
    exact ⟨hne, p, hp, t, ht, rfl⟩
  · rintro ⟨hne, p, hp, t, ht, rfl⟩
    exact ⟨_, ⟨p, hp, rfl⟩, hne, t, ht, rfl⟩

/-! ## Single blanks -/

/-- Every blank is a space, and no two of them follow each other. -/
structure Spaced (t : Text) : Prop where
  chain : t.IsChain fun a b => ¬ (isSpace a = true ∧ isSpace b = true)
  space : ∀ c ∈ t, isSpace c = true → c = ' '

theorem spaced_squeeze (t : Text) : Spaced (squeeze t) := by
  refine ⟨?_, fun c hc hspace => ?_⟩
  · induction t using squeeze_induct with
    | nil => exact .nil
    | char c t hc ih =>
      rw [squeeze_cons hc]
      exact isChain_cons.mpr ⟨fun d _ h => by simp [hc] at h, ih⟩
    | last c t hc ht ih =>
      rw [squeeze_space hc ht]
      refine isChain_cons.mpr ⟨fun d hd h => ?_, ih⟩
      rw [head?_squeeze ht] at hd
      simp [ht d hd] at h
    | more c d t hc hd ih => rwa [squeeze_space_space hc hd]
  · rcases mem_squeeze hc with h | h
    · exact h
    · simp [h.1] at hspace

theorem Spaced.squeeze (h : Spaced t) : squeeze t = t := by
  induction t using squeeze_induct with
  | nil => rfl
  | char c t hc ih =>
    rw [squeeze_cons hc, ih ⟨h.chain.tail, fun d hd => h.space d (mem_cons_of_mem c hd)⟩]
  | last c t hc ht ih =>
    rw [squeeze_space hc ht, ih ⟨h.chain.tail, fun d hd => h.space d (mem_cons_of_mem c hd)⟩,
      h.space c (by simp) hc]
  | more c d t hc hd ih => exact absurd ⟨hc, hd⟩ (isChain_cons_cons.mp h.chain).1

theorem neat_of_infix (h : x <:+: squeeze s) (hx : Text.Tight x) : neat x = x := by
  have hchain := List.IsChain.infix (spaced_squeeze s).chain h
  have hspaced : Spaced x := ⟨hchain, fun c hc => (spaced_squeeze s).space c (h.subset hc)⟩
  rw [neat, hspaced.squeeze, hx.trim]

/-! ## What is read -/

/-- A selector as it stands in a normal form. -/
structure IsChild (c : Text) : Prop where
  ne_nil : c ≠ []
  neat : neat c = c
  comma : ',' ∉ c
  markless : ¬ extendsMark <:+: c

theorem infix_cut (mark p : Text) : (cut mark p).1 <:+: p ∧ (cut mark p).2 <:+: p := by
  rw [cut]
  cases hcut : cut? mark p with
  | none => exact ⟨infix_rfl, nil_infix⟩
  | some q =>
    have hp := eq_append_of_cut? hcut
    exact ⟨⟨[], _, hp.symm⟩, ⟨q.1 ++ mark, [], by simp [hp]⟩⟩

theorem isChild_of_mem (h : c ∈ children s) : IsChild c := by
  have hmarkless := not_infix_of_mem_read (mem_read_fst.mpr h)
  obtain ⟨hne, p, hp, rfl⟩ := h
  have hstretch := (infix_trim _).trans (infix_cut extendsMark p).1
  refine ⟨hne, ?_, fun hmem => notMem_of_mem_splitOn hp (hstretch.subset hmem), hmarkless⟩
  exact neat_of_infix (hstretch.trans (infix_of_mem_splitOn hp)) (tight_trim _)

theorem single_of_mem (h : q ∈ parents s) : Single q := by
  obtain ⟨hne, p, hp, t, ht, rfl⟩ := h
  have hstretch : trim t <:+: p := (infix_trim t).trans ((infix_of_mem_splitOn ht).trans
    ((infix_trim _).trans (infix_cut extendsMark p).2))
  refine ⟨hne, ?_, fun hmem => notMem_of_mem_splitOn hp (hstretch.subset hmem), fun hmem =>
    notMem_of_mem_splitOn ht ((infix_trim t).subset hmem)⟩
  exact neat_of_infix (hstretch.trans (infix_of_mem_splitOn hp)) (tight_trim _)

/-! ## Reading a normal form -/

/-- Parents are read back from their joined form, also when its blanks are squeezed. -/
theorem parts_joined {ps : List Text} (hne : ps ≠ []) (hps : ∀ p ∈ ps, Single p) :
    parts '&' (neat (joinWith ['&'] ps)) = ps := by
  have hneat : ∀ p ∈ ps, p ≠ [] ∧ neat p = p := fun p hp => ⟨(hps p hp).ne_nil, (hps p hp).neat⟩
  have htight : Text.Tight (joinWith ['&'] ps) :=
    (tight_joinWith ['&'] hne fun p hp => ⟨(hps p hp).ne_nil, (hps p hp).tight⟩).2
  have hsplit : Text.splitOn '&' (squeeze (joinWith ['&'] ps)) = ps := by
    rw [splitOn_squeeze (by decide), splitOn_joinWith hne fun p hp => (hps p hp).amp]
    rw [map_squeeze_of_neat hneat]
  rw [neat, (tight_squeeze htight).trim, parts, hsplit]
  exact filled_of_neat hneat

theorem IsChild.bare (h : IsChild c) (hlast : ¬ " extends".toList <:+ c) : Bare c := by
  have hmark : extendsMark = " extends".toList ++ [' '] := rfl
  rw [Bare, squeeze_of_neat h.neat, contains_eq_false_iff]
  intro hstretch
  rcases infix_concat_iff.mp hstretch with ⟨a, ha⟩ | hc
  · rw [hmark, ← append_assoc] at ha
    exact hlast ⟨a, append_cancel_right ha⟩
  · exact h.markless hc

/-- A normal form is read back, unless there are parents and its last selector makes another word
together with the one between selectors and parents. -/
theorem read_write {cs ps : List Text} (hne : cs ≠ []) (hcs : ∀ c ∈ cs, IsChild c)
    (hps : ∀ p ∈ ps, Single p)
    (hlast : ps ≠ [] → ∀ c ∈ (sortedSet cs).getLast?, ¬ " extends".toList <:+ c) :
    read (squeeze (write cs ps)) = (sortedSet cs, sortedSet ps) := by
  have hcs' : ∀ c ∈ sortedSet cs, IsChild c := fun c hc => hcs c (mem_sortedSet.mp hc)
  have hps' : ∀ p ∈ sortedSet ps, Single p := fun p hp => hps p (mem_sortedSet.mp hp)
  have hsorted := sortedSet_ne_nil hne
  have hneat : ∀ c ∈ sortedSet cs, c ≠ [] ∧ neat c = c := fun c hc =>
    ⟨(hcs' c hc).ne_nil, (hcs' c hc).neat⟩
  have hplain : ∀ c ∈ sortedSet cs, ',' ∉ c ∧ ¬ extendsMark <:+: squeeze c := fun c hc =>
    ⟨(hcs' c hc).comma, by rw [squeeze_of_neat (hneat c hc).2]; exact (hcs' c hc).markless⟩
  by_cases hnil : ps = []
  · have hempty : sortedSet ps = [] := by rw [hnil]; rfl
    have hwrite : write cs ps = joinWith [','] (sortedSet cs) := by
      simp [write, hsorted, hempty]
    rw [hwrite, read_joined hsorted hplain, map_squeeze_of_neat hneat, filled_of_neat hneat, hempty]
  · have hparents := sortedSet_ne_nil hnil
    have hwrite : write cs ps = joinWith [','] (sortedSet cs) ++
        (extendsMark ++ joinWith ['&'] (sortedSet ps)) := by
      simp [write, hsorted, hparents]
    have htight := (tight_joinWith ['&'] hparents fun p hp =>
      ⟨(hps' p hp).ne_nil, (hps' p hp).tight⟩).2
    have hcomma : ',' ∉ joinWith ['&'] (sortedSet ps) := by
      intro hmem
      rcases mem_joinWith hmem with h | ⟨p, hp, h⟩
      · exact absurd h (by decide)
      · exact (hps' p hp).comma h
    have hbare : ∀ c ∈ (sortedSet cs).getLast?, Bare c := fun c hc =>
      (hcs' c (mem_of_getLast? hc)).bare (hlast hnil c hc)
    rw [hwrite, read_extending hsorted hplain hbare hcomma htight.head, map_squeeze_of_neat hneat,
      filled_of_neat hneat, parts_joined hparents hps']

/-! ## The normal form -/

theorem normalize_eq (s : Text) (more : List Text) : normalize s more [] =
    write ((read (squeeze s)).1 ++ filled more) (read (squeeze s)).2 := by
  simp [normalize, filled]

theorem write_congr {cs cs' ps ps' : List Text} (hcs : ∀ c, c ∈ cs ↔ c ∈ cs')
    (hps : ∀ p, p ∈ ps ↔ p ∈ ps') : write cs ps = write cs' ps' := by
  rw [write, write, sortedSet_congr hcs, sortedSet_congr hps]

/-- The last one of some selectors in byte order. -/
def IsLast (cs : Set Text) (c : Text) : Prop := c ∈ cs ∧ ∀ d ∈ cs, order d c ≠ .gt

theorem isLast_getLast? {cs : List Text} (h : c ∈ (sortedSet cs).getLast?) :
    IsLast {c | c ∈ cs} c := by
  obtain ⟨init, hinit⟩ := List.getLast?_eq_some_iff.mp h
  have hsorted := increasing_sortedSet cs
  rw [hinit, Text.Increasing, pairwise_append] at hsorted
  refine ⟨mem_sortedSet.mp (mem_of_getLast? h), fun d hd => ?_⟩
  have hd' : d ∈ init ++ [c] := hinit ▸ mem_sortedSet.mpr hd
  rcases mem_append.mp hd' with hd' | hd'
  · simp [hsorted.2.2 d hd' c (by simp)]
  · have hself : order c c = .eq := Std.ReflCmp.compare_self
    simp [mem_singleton.mp hd', hself]

/-- Selectors and parents are those that were there, and the selectors that were added. -/
theorem children_normalize {more : List Text} {cs : Set Text}
    (hmore : ∀ x ∈ more, ',' ∉ x ∧ ¬ extendsMark <:+: x ∧ squeeze (trim x) = trim x)
    (hcs : cs = children s ∪ {c | c ≠ [] ∧ ∃ x ∈ more, trim x = c})
    (hlast : (parents s).Nonempty → cs.Nonempty ∧ ∀ c, IsLast cs c → ¬ " extends".toList <:+ c) :
    children (normalize s more []) = cs ∧ parents (normalize s more []) = parents s := by
  obtain ⟨own, hown⟩ : ∃ own, (read (squeeze s)).1 ++ filled more = own := ⟨_, rfl⟩
  have hmem : {c | c ∈ own} = cs := by
    ext c
    rw [hcs, ← hown]
    exact mem_append.trans (or_congr mem_read_fst mem_filled)
  have hchild : ∀ c ∈ own, IsChild c := by
    intro c hc
    rw [← hown, mem_append, mem_read_fst, mem_filled] at hc
    rcases hc with hc | ⟨hne, x, hx, rfl⟩
    · exact isChild_of_mem hc
    · obtain ⟨hcomma, hmark, hspaced⟩ := hmore x hx
      exact ⟨hne, by rw [neat, hspaced, (tight_trim x).trim],
        fun h => hcomma (mem_of_mem_trim h), fun h => hmark (h.trans (infix_trim x))⟩
  have hread : read (squeeze (normalize s more [])) =
      (sortedSet own, sortedSet (read (squeeze s)).2) := by
    rw [normalize_eq, hown]
    have hparents : (read (squeeze s)).2 ≠ [] → (parents s).Nonempty := fun h =>
      (exists_mem_of_ne_nil _ h).imp fun _ => mem_read_snd.mp
    by_cases hnil : own = []
    · have hnone : (read (squeeze s)).2 = [] := by
        by_contra h
        obtain ⟨c, hc⟩ := (hlast (hparents h)).1
        rw [← hmem, hnil] at hc
        exact absurd hc not_mem_nil
      rw [hnil, hnone]
      rfl
    · refine read_write hnil hchild (fun p hp => single_of_mem (mem_read_snd.mp hp))
        fun h c hc => ?_
      exact (hlast (hparents h)).2 c (hmem ▸ isLast_getLast? hc)
  refine ⟨?_, ?_⟩
  · ext c
    rw [← mem_read_fst, hread, mem_sortedSet, ← hmem]
    rfl
  · ext q
    rw [← mem_read_snd, hread, mem_sortedSet, mem_read_snd]

/-- The normal form depends on selectors and parents only; it is its own normal form and has the
same selectors and parents, together with selectors that are added, as long as there is a selector
for the parents and the last one does not end in `extends`. -/
theorem normal_form_canonical :
    (∀ s t, children s = children t → parents s = parents t →
      normalize s [] [] = normalize t [] []) ∧
    (∀ s, ((parents s).Nonempty → ∀ c, IsLast (children s) c → ¬ " extends".toList <:+ c) →
      normalize (normalize s [] []) [] [] = normalize s [] []) ∧
    ∀ (s : Text) (more : List Text) (cs : Set Text),
      (∀ x ∈ more, ',' ∉ x ∧ ¬ extendsMark <:+: x ∧ squeeze (Text.trim x) = Text.trim x) →
      cs = children s ∪ {c | c ≠ [] ∧ ∃ x ∈ more, Text.trim x = c} →
      ((parents s).Nonempty → cs.Nonempty ∧ ∀ c, IsLast cs c → ¬ " extends".toList <:+ c) →
      children (normalize s more []) = cs ∧ parents (normalize s more []) = parents s := by
  have hcongr : ∀ s t, children s = children t → parents s = parents t →
      normalize s [] [] = normalize t [] [] := by
    intro s t hc hp
    rw [normalize_eq, normalize_eq]
    refine write_congr (fun c => ?_) fun p => ?_
    · rw [List.mem_append, List.mem_append, mem_read_fst, mem_read_fst, hc]
    · rw [mem_read_snd, mem_read_snd, hp]
  refine ⟨hcongr, fun s hlast => ?_, fun s more cs => children_normalize⟩
  by_cases hne : (children s).Nonempty
  · have hsame :
        children s = children s ∪ {c | c ≠ [] ∧ ∃ x ∈ ([] : List Text), Text.trim x = c} := by
      simp
    obtain ⟨hc, hp⟩ := children_normalize (by simp) hsame fun h => ⟨hne, hlast h⟩
    exact hcongr _ _ hc hp
  · have hnil : (read (squeeze s)).1 = [] :=
      List.eq_nil_iff_forall_not_mem.mpr fun c hc => hne ⟨c, mem_read_fst.mp hc⟩
    have hempty : normalize s [] [] = [] := by
      rw [normalize_eq, hnil]
      rfl
    rw [hempty]
    rfl

theorem normal_form_canonical_pair :
    children (normalize "b, a extends q&p".toList [" c".toList] []) =
        children "b, a extends q&p".toList ∪ {c | c ≠ [] ∧ ∃ x ∈ [" c".toList], Text.trim x = c} ∧
      parents (normalize "b, a extends q&p".toList [" c".toList] []) =
        parents "b, a extends q&p".toList := by
  have hread : (read (squeeze "b, a extends q&p".toList)).1 = [['b'], ['a']] := by decide +kernel
  have hchildren : children "b, a extends q&p".toList = {['b'], ['a']} := by
    ext c
    rw [← mem_read_fst, hread]
    simp
  have htrim : Text.trim " c".toList = ['c'] := by decide
  refine normal_form_canonical.2.2 _ _ _
    (by simp only [List.forall_mem_singleton]; decide +kernel) rfl
    fun _ => ⟨⟨['b'], .inl (by rw [hchildren]; exact .inl rfl)⟩, ?_⟩
  rintro c ⟨hc, -⟩
  simp only [hchildren, List.mem_singleton, exists_eq_left, htrim, Set.mem_union,
    Set.mem_insert_iff, Set.mem_singleton_iff, Set.mem_ofPred_eq] at hc
  rcases hc with (rfl | rfl) | ⟨-, rfl⟩ <;> decide

/-- A selector that ends in `extends` and is the last one loses this word to the first parent;
without a selector, the parents are lost; and an added selector is read back with single blanks. -/
theorem last_word_joins_parent :
    normalize (normalize "z extends,b extends b&d".toList [] []) [] [] ≠
        normalize "z extends,b extends b&d".toList [] [] ∧
      (['b'] ∈ parents " extends b".toList ∧ normalize " extends b".toList [] [] = []) ∧
      "a\tb".toList ∉ children (normalize ['c'] ["a\tb".toList] []) := by
  refine ⟨by decide +kernel, ⟨mem_read_snd.mp ?_, by decide +kernel⟩, fun h => ?_⟩
  · decide +kernel
  · exact absurd (mem_read_fst.mpr h) (by decide +kernel)

end SheetPress.Selector
