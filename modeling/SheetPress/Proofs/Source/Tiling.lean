import SheetPress.Proofs.Source.Search
import SheetPress.Proofs.Text.Sorting

/-!
# Items tile their source

The search for items passes over nothing.  If it comes to its end, the source falls into parts,
and the items are those that the parts give, in order (`items_tile_source`).  A block that was
given out ends with the brace that closes it; so its code leaves nothing open, and neither does
the code of any block inside it (`closed_hereditary`).
-/

set_option autoImplicit false

namespace SheetPress

open List Text

/-- A source is left with something open: a parenthesis, a quote or a block. -/
def Fault.isUnclosed : Fault → Bool
  | .openParenthesis _ | .openQuote _ | .openBlock _ => true
  | _ => false

namespace Source

variable {s : Text}

theorem slice_length (s : Text) (a : Nat) : slice s a s.length = s.drop a := by
  rw [slice, take_of_length_le (by simp)]

/-- What the search for items comes to: something could not be read, something was left open, or
the source falls into parts that give the items. -/
inductive Outcome (s : Text) (x : Items) : Prop where
  | broken (parts : List Part) : x.fault = some .wrongValue → Stumbles s .wrongValue →
      Gives parts x.items → Outcome s x
  | unclosed (f : Fault) : x.fault = some f → f.isUnclosed = true → Brackets.after s ≠ {} →
      Outcome s x
  | finished (parts : List Part) : x.fault = none → parts.flatMap Part.text = s →
      Gives parts x.items → Outcome s x

theorem Stumbles.broken {f : Fault} {parts : List Part} {found : List Item}
    (h : Stumbles s f) (hfound : Gives parts found) : Outcome s ⟨found, some f⟩ := by
  have hf : f = .wrongValue := by
    obtain ⟨u, x, -, line, hread⟩ := h
    exact readHead_eq_error hread
  subst hf
  exact .broken parts rfl h hfound

theorem openBlock_outcome {st : Scan} {parts : List Part} {first : List Item}
    (hp : st.Placed s s.length) (h : st.Started s s.length) (hdepth : st.depth ≠ 0)
    (hplain : st.interpolating = false) (hcodes : CodesIn s first) (hfirst : Gives parts first) :
    CodesIn s ((openBlock s st).prepend first).items ∧
      Outcome s ((openBlock s st).prepend first) := by
  unfold openBlock
  cases hread : readHead st.line (slice s st.init st.start) with
  | error f =>
    have hblock := hp.block hdepth hplain
    have hbegins := h.init.begins (h.head hdepth hplain st.init hp.loose_le hblock.init_le)
      hblock.start_lt.le
    simp only [Items.prepend, append_nil]
    exact ⟨hcodes, Stumbles.broken ⟨_, _, hbegins, _, hread⟩ hfirst⟩
  | ok r =>
    refine ⟨hcodes.append ?_, .unclosed _ rfl ?_ ?_⟩
    · intro k hk t ht
      have hcode : k.code = some (trim (s.drop (st.start + 1))) := by
        dsimp only at hk
        split at hk
        · cases hk
        · rw [mem_singleton.mp hk]
      rw [hcode] at ht
      obtain rfl := Option.some.inj ht
      exact (isInfix_trim _).trans (drop_suffix _ _).isInfix
    · split_ifs <;> rfl
    · simpa using hp.after_ne (Or.inr (Or.inr hdepth))

theorem lastItems_outcome {st : Scan} {parts : List Part} {first : List Item}
    (hp : st.Placed s s.length) (h : st.Started s s.length)
    (hout : st.depth = 0 ∨ st.interpolating = true) (hcodes : CodesIn s first)
    (htext : parts.flatMap Part.text = slice s 0 st.loose) (hfirst : Gives parts first) :
    CodesIn s ((lastItems s st).prepend first).items ∧
      Outcome s ((lastItems s st).prepend first) := by
  have hloose := hp.loose_le.trans hp.init_le
  unfold lastItems
  cases hitems : looseItems st.line (Text.splitOn ';' (s.drop st.loose)) with
  | mk found result =>
    obtain ⟨⟨⟨more, hmore⟩, hnone⟩, hfault, -⟩ :=
      looseItems_gives (fun p hp => notMem_of_mem_splitOn hp) hitems
    cases result with
    | error f =>
      obtain ⟨p, hpiece, hread⟩ := hfault f rfl
      rw [← slice_length] at hpiece
      obtain ⟨u, hbegins⟩ := h.loose.begins_piece hloose (h.outside hout).2 hpiece
      exact ⟨hcodes.append (codesIn_of_none hnone),
        Stumbles.broken ⟨u, p, hbegins, hread⟩ (hfirst.append hmore)⟩
    | ok line =>
      refine ⟨hcodes.append (codesIn_of_none hnone),
        .finished (parts ++ stretches (s.drop st.loose)) rfl ?_
          (hfirst.append (stretches_give hitems))⟩
      rw [flatMap_append, htext, text_stretches, ← slice_length,
        ← slice_split (Nat.zero_le _) hloose, slice_length, drop_zero]

/-- Whatever the search gives out stands in the source; and if it breaks off, it does so at
something that starts at a border. -/
theorem items_outcome (s : Text) : CodesIn s (items s).items ∧ Outcome s (items s) := by
  have hrun := run_reaches s
  rw [items_eq]
  unfold itemsAfter
  cases hresult : itemsFrom s 0 none {} s with
  | mk first result =>
    rw [hresult] at hrun
    cases result with
    | error f =>
      obtain ⟨hstumbles, hcodes, parts, hparts⟩ := hrun
      exact ⟨hcodes, hstumbles.broken hparts⟩
    | ok st =>
      obtain ⟨⟨hplaced, hstarted⟩, -, hgives⟩ := hrun
      have hcodes := hgives.codesIn
      obtain ⟨parts, htext, hparts⟩ := hgives
      dsimp only
      split_ifs with hopen
      · rw [Bool.and_eq_true, bne_iff_ne, Bool.not_eq_true'] at hopen
        exact openBlock_outcome hplaced hstarted hopen.1 hopen.2 hcodes hparts
      · refine lastItems_outcome hplaced hstarted ?_ hcodes htext hparts
        cases hinterpolating : st.interpolating <;> simp_all

/-! ## Tiles -/

/-- The parts make up the source, and the items are given by the parts, in order.  `bodyText`
says how the text between the braces of a block is given. -/
structure Tiles (bodyText : Text → Text) (s : Text) (found : List Item) (parts : List Part) :
    Prop where
  covers : parts.flatMap Part.text = s
  texts : (found.map fun i => (i.head, i.code)) = parts.filterMap (Part.given bodyText)

/-- A search that comes to its end loses nothing and gives nothing twice: the source is made up
of stretches, semicolons and blocks, and each item is a stretch, or a head with the text between
its braces. -/
theorem items_tile_source {s : Text} (h : (items s).fault = none) :
    ∃ parts, Tiles Text.trim s (items s).items parts ∧ ∀ p ∈ parts, p.Closed := by
  cases (items_outcome s).2 with
  | broken _ hfault => simp [h] at hfault
  | unclosed _ hfault => simp [h] at hfault
  | finished parts _ hcovers hgives => exact ⟨parts, ⟨hcovers, hgives.texts⟩, hgives.closed⟩

/-- A source with a stray brace, a block without a head, an interpolation and tags. -/
theorem items_tile_source_stray :
    let s := ['1', mark, 'a', ':', 'b', ';', ';', '\n', '2', mark, '{', 'x', '}', '#', '{', 'i',
      '}', 'c', '{', '\n', '3', mark, 'd', '}', '}', 'f']
    (items s).fault = none ∧
      ∃ parts, Tiles Text.trim s (items s).items parts ∧ ∀ p ∈ parts, p.Closed :=
  ⟨by decide, items_tile_source (by decide)⟩

theorem mem_of_mem_dropTags {x : Text} {c : Char} (hc : c ≠ '\n') (h : c ∈ dropTags x) : c ∈ x := by
  unfold dropTags at h
  cases hsplit : Text.splitOn '\n' x with
  | nil => simp [hsplit] at h
  | cons first rest =>
    rw [hsplit] at h
    rcases mem_joinWith h with hbreak | ⟨line, hline, hin⟩
    · exact absurd (mem_singleton.mp hbreak) hc
    · rcases mem_cons.mp hline with rfl | hline
      · exact mem_of_mem_splitOn '\n' (by simp [hsplit]) hin
      · obtain ⟨piece, hpiece, rfl⟩ := mem_map.mp hline
        have hpieces : c ∈ piece := by
          unfold dropTag at hin
          split at hin
          · exact mem_of_mem_drop hin
          · exact hin
        exact mem_of_mem_splitOn '\n' (by simp [hsplit, hpiece]) hpieces

/-- The only mark of a text goes with its tag. -/
theorem mark_notMem_plainText {x : Text} (h : x.count mark ≤ 1) : mark ∉ plainText x := by
  intro hmem
  have hmem := mem_of_mem_dropTags (by decide) (mem_of_mem_trim hmem)
  cases hcut : cut? [mark] x with
  | none =>
    rw [hcut] at hmem
    obtain ⟨a, b, rfl⟩ := append_of_mem hmem
    by_cases ha : mark ∈ a
    · obtain ⟨a₁, a₂, rfl⟩ := append_of_mem ha
      simp at h
      omega
    · have hsome : cut? [mark] (a ++ mark :: b) = some (a, b) :=
        cut?_append_of_notMem ha
      simp [hsome] at hcut
  | some r =>
    obtain ⟨tag, rest⟩ := r
    rw [hcut] at hmem
    rw [eq_append_of_cut? hcut, count_append, count_append,
      count_singleton_self] at h
    have hrest : 0 < rest.count mark := count_pos_iff.mpr hmem
    omega

/-- The text between braces keeps its tags, for the lines in it are still to be told apart when
its own items are looked for. -/
theorem blocks_keep_tags :
    let s := ['a', '{', '\n', '1', mark, 'b', ':', 'c', ';', '}']
    (items s).fault = none ∧ ∀ parts, ¬ Tiles plainText s (items s).items parts := by
  refine ⟨by decide, fun parts h => ?_⟩
  have hitems : (items ['a', '{', '\n', '1', mark, 'b', ':', 'c', ';', '}']).items =
      [⟨0, ['a'], some ['1', mark, 'b', ':', 'c', ';']⟩] := by decide
  have hmem :
      (['a'], some ['1', mark, 'b', ':', 'c', ';']) ∈ parts.filterMap (Part.given plainText) := by
    rw [← h.texts, hitems]
    simp
  obtain ⟨p, hp, hgiven⟩ := List.mem_filterMap.mp hmem
  cases p with
  | stretch x => simp [Part.given] at hgiven
  | semicolon => simp [Part.given] at hgiven
  | block head body =>
    simp only [Part.given, Option.ite_none_left_eq_some, Option.some.injEq, Prod.mk.injEq]
      at hgiven
    have hcount : body.count mark ≤ 1 := by
      have hbody : body.Sublist ['a', '{', '\n', '1', mark, 'b', ':', 'c', ';', '}'] := by
        rw [← h.covers]
        calc
          body.Sublist (body ++ ['}']) := List.sublist_append_left _ _
          List.Sublist _ (head ++ ('{' :: (body ++ ['}']))) :=
            (List.sublist_cons_self _ _).trans (List.sublist_append_right _ _)
          List.Sublist _ (parts.flatMap Part.text) :=
            List.sublist_flatten_of_mem (List.mem_map_of_mem hp)
      exact hbody.count_le mark
    refine mark_notMem_plainText hcount ?_
    rw [hgiven.2.2]
    simp

/-! ## Blocks inside blocks -/

/-- The text is the code of a block of the source. -/
def HoldsBlock (s t : Text) : Prop := ∃ i ∈ (items s).items, i.code = some t

/-- Nothing is left open in the source. -/
def NothingOpen (s : Text) : Prop := ∀ f ∈ (items s).fault, f.isUnclosed = false

theorem nothingOpen_of_balanced (h : Brackets.after s = {}) : NothingOpen s := by
  intro f hf
  cases (items_outcome s).2 with
  | broken _ hfault =>
    rw [hfault] at hf
    rw [← Option.some.inj hf]
    rfl
  | unclosed _ _ _ hopen => exact absurd h hopen
  | finished _ hfault => simp [hfault] at hf

theorem NothingOpen.block {t : Text} (h : NothingOpen s) (ht : HoldsBlock s t) :
    NothingOpen t := by
  obtain ⟨i, hi, hcode⟩ := ht
  have hgives : ∃ parts, Gives parts (items s).items := by
    cases (items_outcome s).2 with
    | broken parts _ _ hgives => exact ⟨parts, hgives⟩
    | unclosed f hfault hopen => simp [h f hfault] at hopen
    | finished parts _ _ hgives => exact ⟨parts, hgives⟩
  obtain ⟨parts, hgives⟩ := hgives
  obtain ⟨head, body, hbody, rfl⟩ := hgives.block hi hcode
  refine nothingOpen_of_balanced ?_
  rw [Brackets.after_trim, Balanced.closed (hgives.closed _ hbody)]

/-- If nothing is left open in a source, nothing is left open in any block at any depth in it. -/
theorem closed_hereditary {s t : Text} (h : NothingOpen s)
    (ht : Relation.TransGen HoldsBlock s t) : NothingOpen t := by
  induction ht with
  | single hblock => exact h.block hblock
  | tail _ hblock ih => exact ih.block hblock

/-- Parentheses that close first, an interpolation and a brace in quotes, two blocks deep. -/
theorem closed_hereditary_quoted :
    let s := ['a', '{', ')', '(', 'b', '#', '{', 'c', '}', '{', 'd', '\'', '}', '\'', '}', '}']
    let t := ['d', '\'', '}', '\'']
    NothingOpen s ∧ Relation.TransGen HoldsBlock s t ∧ NothingOpen t := by
  intro s t
  have hs : NothingOpen s := by
    have hfault : (items s).fault = none := by decide
    intro f hf
    simp [hfault] at hf
  have hblocks : Relation.TransGen HoldsBlock s t :=
    .tail (.single ⟨⟨0, ['a'],
        some [')', '(', 'b', '#', '{', 'c', '}', '{', 'd', '\'', '}', '\'', '}']⟩, by decide, rfl⟩)
      ⟨⟨0, [')', '(', 'b', '#', '{', 'c', '}'], some t⟩, by decide, rfl⟩
  exact ⟨hs, hblocks, closed_hereditary hs hblocks⟩

end Source

end SheetPress
