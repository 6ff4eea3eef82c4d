import SheetPress.Proofs.Compile.Counting
import SheetPress.Proofs.Decimal.Shown
import SheetPress.Proofs.Expr.Rows

/-!
# Lists by positions

A list keeps its items under positions, and two functions put items under new ones.  To join two
lists puts the items of the second behind the *entries* of the first, among which its separator
counts; to append puts an item behind the *items* there are.  So a list may have gaps, and an item
may come to stand where another one was.  A `Spread` is the plain account of this: words at
positions, in the order of the positions.  What the functions on lists give is shown in its terms.
-/

set_option autoImplicit false

namespace SheetPress

open List Text

/-- Words at positions, in the order of the positions. -/
structure Spread where
  entries : List (Nat × Identifier)
  sorted : entries.Pairwise fun p q => p.1 < q.1

namespace Spread

variable {l : Spread} {n : Nat}

@[ext]
theorem ext {m : Spread} (h : l.entries = m.entries) : l = m := by
  cases l
  cases m
  cases h
  rfl

/-- The words in order. -/
def words (l : Spread) : List Identifier := l.entries.map Prod.snd

/-- How many words there are. -/
def size (l : Spread) : Nat := l.entries.length

/-- Words numbered from a position on. -/
def numbered (start : Nat) (ws : List Identifier) : List (Nat × Identifier) :=
  (ws.zipIdx start).map Prod.swap

variable (start : Nat) (ws : List Identifier)

theorem numbered_cons (w : Identifier) (ws : List Identifier) :
    numbered start (w :: ws) = (start, w) :: numbered (start + 1) ws := rfl

theorem le_of_mem_numbered {start : Nat} {ws : List Identifier} {p : Nat × Identifier}
    (h : p ∈ numbered start ws) : start ≤ p.1 ∧ p.1 < start + ws.length := by
  obtain ⟨⟨w, i⟩, hmem, rfl⟩ := mem_map.mp h
  exact ⟨(le_snd_of_mem_zipIdx hmem), (snd_lt_add_of_mem_zipIdx hmem)⟩

theorem sorted_numbered : (numbered start ws).Pairwise fun p q => p.1 < q.1 := by
  induction ws generalizing start with
  | nil => exact .nil
  | cons w ws ih =>
    exact .cons (fun p hp => Nat.lt_of_succ_le (le_of_mem_numbered hp).1) (ih (start + 1))

/-- Words without gaps. -/
def ofList (ws : List Identifier) : Spread := ⟨numbered 0 ws, sorted_numbered 0 ws⟩

theorem sorted_place (n : Nat) (w : Identifier) (l : Spread) :
    (l.entries.filter (·.1 < n) ++ (n, w) :: l.entries.filter (n < ·.1)).Pairwise
      fun p q => p.1 < q.1 := by
  have hlow : ∀ p ∈ l.entries.filter (·.1 < n), p.1 < n := by simp +contextual
  have hhigh : ∀ p ∈ l.entries.filter (n < ·.1), n < p.1 := by simp +contextual
  refine pairwise_append.mpr ⟨l.sorted.filter _, .cons hhigh (l.sorted.filter _), ?_⟩
  intro p hp q hq
  rcases mem_cons.mp hq with rfl | hq
  · exact hlow p hp
  · exact Nat.lt_trans (hlow p hp) (hhigh q hq)

/-- Put a word at a position, in the place of the one that stands there. -/
def place (n : Nat) (w : Identifier) (l : Spread) : Spread :=
  ⟨l.entries.filter (·.1 < n) ++ (n, w) :: l.entries.filter (n < ·.1), sorted_place n w l⟩

/-- Put words, each so much further on, onto others. -/
def onto (n : Nat) (m l : Spread) : Spread :=
  m.entries.foldl (fun l p => l.place (p.1 + n) p.2) l

/-- The word at a position, or else the one that so many others precede. -/
def nth? (l : Spread) (i : Nat) : Option Identifier := (l.entries.lookup i).or l.words[i]?

/-! ## Words without gaps and with one -/

theorem numbered_append (ws us : List Identifier) :
    numbered start (ws ++ us) = numbered start ws ++ numbered (start + ws.length) us := by
  simp [numbered, zipIdx_append]

theorem map_snd_numbered : (numbered start ws).map Prod.snd = ws := by
  have hswap : Prod.snd ∘ Prod.swap = (Prod.fst : Identifier × Nat → Identifier) := rfl
  simp [numbered, hswap]

theorem lookup_numbered (i : Nat) :
    (numbered start ws).lookup i = if start ≤ i then ws[i - start]? else none := by
  induction ws generalizing start with
  | nil => simp [numbered]
  | cons w ws ih =>
    rw [numbered_cons, lookup_cons, ih]
    by_cases hi : i = start
    · subst hi
      simp
    · rw [beq_eq_false_iff_ne.mpr hi]
      by_cases hle : start ≤ i
      · rw [if_pos hle, if_pos (by omega), getElem?_cons, if_neg (by omega)]
        exact congrArg (fun k => ws[k]?) (by omega)
      · rw [if_neg hle, if_neg (by omega)]

theorem words_ofList : (ofList ws).words = ws := map_snd_numbered 0 ws

theorem nth?_ofList (i : Nat) : (ofList ws).nth? i = ws[i]? := by
  rw [nth?, words_ofList, ofList, lookup_numbered, if_pos (Nat.zero_le i), Nat.sub_zero]
  cases ws[i]? <;> rfl

theorem size_place_pos (n : Nat) (w : Identifier) (l : Spread) : 0 < (l.place n w).size :=
  length_pos_of_mem (mem_append_right _ mem_cons_self)

theorem size_onto_pos (h : 0 < l.size) (n : Nat) (m : Spread) :
    0 < (m.onto n l).size :=
  foldlRecOn (motive := fun l : Spread => 0 < l.size) m.entries _ h
    fun l _ p _ => size_place_pos (p.1 + n) p.2 l

theorem size_eq (l : Spread) : l.size = l.words.length := by
  simp [size, words]

theorem entries_place (h : ∀ p ∈ l.entries, p.1 < n) (w : Identifier) :
    (l.place n w).entries = l.entries ++ [(n, w)] := by
  have hlow : l.entries.filter (·.1 < n) = l.entries :=
    filter_eq_self.mpr fun p hp => decide_eq_true (h p hp)
  have hhigh : l.entries.filter (n < ·.1) = [] :=
    filter_eq_nil_iff.mpr fun p hp => by simpa using Nat.le_of_lt (h p hp)
  change l.entries.filter (·.1 < n) ++ (n, w) :: l.entries.filter (n < ·.1) = _
  rw [hlow, hhigh]

theorem entries_onto (h : ∀ p ∈ l.entries, p.1 < n) (ws : List Identifier) :
    ((ofList ws).onto n l).entries = l.entries ++ numbered n ws := by
  have hgo : ∀ (k : Nat) (l : Spread), (∀ p ∈ l.entries, p.1 < k + n) →
      ((numbered k ws).foldl (fun l p => l.place (p.1 + n) p.2) l).entries =
        l.entries ++ numbered (k + n) ws := by
    induction ws with
    | nil => simp [numbered]
    | cons w ws ih =>
      intro k l hl
      have hnext : ∀ p ∈ (l.place (k + n) w).entries, p.1 < k + 1 + n := by
        rw [entries_place hl]
        intro p hp
        rcases mem_append.mp hp with hp | hp
        · have := hl p hp
          omega
        · rw [mem_singleton.mp hp]
          omega
      rw [numbered_cons, foldl_cons, ih _ _ hnext, entries_place hl, numbered_cons,
        Nat.add_right_comm k 1 n]
      simp
  have h0 := hgo 0 l (by simpa using h)
  rwa [Nat.zero_add] at h0

theorem lt_of_mem_ofList {ws : List Identifier} {p : Nat × Identifier}
    (h : p ∈ (ofList ws).entries) : p.1 < ws.length := by
  simpa using (le_of_mem_numbered h).2

theorem place_ofList (w : Identifier) : (ofList ws).place ws.length w = ofList (ws ++ [w]) := by
  ext1
  have happend := numbered_append 0 ws [w]
  rw [Nat.zero_add] at happend
  rw [entries_place fun _ hp => lt_of_mem_ofList hp]
  exact happend.symm

theorem onto_ofList (ws us : List Identifier) :
    (ofList us).onto ws.length (ofList ws) = ofList (ws ++ us) := by
  ext1
  have happend := numbered_append 0 ws us
  rw [Nat.zero_add] at happend
  rw [entries_onto fun _ hp => lt_of_mem_ofList hp]
  exact happend.symm

theorem entries_gap (ws us : List Identifier) :
    ((ofList us).onto (ws.length + 1) (ofList ws)).entries =
      numbered 0 ws ++ numbered (ws.length + 1) us :=
  entries_onto (fun _ hp => Nat.lt_succ_of_lt (lt_of_mem_ofList hp)) us

section Gap

variable {ws us : List Identifier} {l : Spread}
  (hl : l.entries = numbered 0 ws ++ numbered (ws.length + 1) us) {i : Nat}

include hl

theorem words_gap : l.words = ws ++ us := by
  rw [words, hl, map_append, map_snd_numbered, map_snd_numbered]

theorem lookup_gap : l.entries.lookup i =
    (ws[i]?).or (if ws.length + 1 ≤ i then us[i - (ws.length + 1)]? else none) := by
  rw [hl, lookup_append, lookup_numbered, lookup_numbered, if_pos (Nat.zero_le i), Nat.sub_zero]

/-- Up to the gap, and right behind it, every word is found where it should be. -/
theorem nth?_before_gap (hi : i ≤ ws.length) : l.nth? i = (ws ++ us)[i]? := by
  rw [nth?, lookup_gap hl, words_gap hl, if_neg (by omega), Option.or_none]
  rcases Nat.lt_or_eq_of_le hi with hlt | rfl
  · rw [getElem?_append_left hlt, Option.or_self]
  · rw [getElem?_eq_none (Nat.le_refl _), Option.none_or]

theorem nth?_behind_gap (hi : ws.length < i) (hlt : i < ws.length + us.length) :
    l.nth? i = (ws ++ us)[i - 1]? := by
  have hbound : i - (ws.length + 1) < us.length := by omega
  have hindex : i - 1 - ws.length = i - (ws.length + 1) := by omega
  rw [nth?, lookup_gap hl, if_pos (Nat.succ_le_of_lt hi), getElem?_eq_none (Nat.le_of_lt hi),
    Option.none_or, getElem?_append_right (by omega), hindex, getElem?_eq_getElem hbound]
  rfl

/-- A word put at the position that the number of words gives replaces the last one. -/
theorem entries_place_gap (hus : us ≠ []) (w : Identifier) :
    (l.place l.size w).entries =
      numbered 0 ws ++ numbered (ws.length + 1) (us.dropLast ++ [w]) := by
  obtain ⟨us, x, rfl⟩ : ∃ us' x, us = us' ++ [x] :=
    ⟨us.dropLast, us.getLast hus, (dropLast_append_getLast hus).symm⟩
  have hsize : l.size = ws.length + 1 + us.length := by
    rw [size_eq, words_gap hl]
    simp
    omega
  have hfront : ∀ p ∈ numbered 0 ws ++ numbered (ws.length + 1) us, p.1 < l.size := by
    intro p hp
    rcases mem_append.mp hp with hp | hp
    · have := (le_of_mem_numbered hp).2
      omega
    · have := (le_of_mem_numbered hp).2
      omega
  rw [numbered_append, ← append_assoc] at hl
  have hlow : l.entries.filter (·.1 < l.size) = numbered 0 ws ++ numbered (ws.length + 1) us := by
    rw [hl, filter_append, filter_eq_self.mpr fun p hp => decide_eq_true (hfront p hp)]
    simp [numbered, hsize]
  have hhigh : l.entries.filter (l.size < ·.1) = [] := by
    rw [hl, filter_append, filter_eq_nil_iff.mpr fun p hp => by
      simpa using Nat.le_of_lt (hfront p hp)]
    simp [numbered, hsize]
  change l.entries.filter (·.1 < l.size) ++ (l.size, w) :: l.entries.filter (l.size < ·.1) = _
  rw [hlow, hhigh, dropLast_concat, numbered_append, ← append_assoc, hsize]
  rfl

end Gap

/-! ## As items -/

/-- A word at a position as an item. -/
def toItem (p : Nat × Identifier) : Key × Value := (.index p.1, .word p.2.text)

/-- The items of a list. -/
def items (l : Spread) : List (Key × Value) := l.entries.map toItem

theorem length_items (l : Spread) : l.items.length = l.size := by
  simp [items, size]

theorem insert_sorted {ps : List (Nat × Identifier)} (h : ps.Pairwise fun p q => p.1 < q.1)
    (n : Nat) (w : Identifier) :
    Items.insert (.index n) (.word w.text) (ps.map toItem) =
      (ps.filter (·.1 < n) ++ (n, w) :: ps.filter (n < ·.1)).map toItem := by
  induction ps with
  | nil => rfl
  | cons p ps ih =>
    obtain ⟨hfirst, hrest⟩ := pairwise_cons.mp h
    rw [map_cons, toItem, Items.insert, Key.order]
    rcases Nat.lt_trichotomy n p.1 with hlt | heq | hgt
    · have hcompare : compare (n : Int) p.1 = .lt := by
        rw [Int.compare_eq_lt]
        omega
      have hall : ∀ q ∈ p :: ps, n < q.1 := by
        rintro q (_ | ⟨_, hq⟩)
        · exact hlt
        · exact Nat.lt_trans hlt (hfirst q hq)
      have hlow : (p :: ps).filter (·.1 < n) = [] :=
        filter_eq_nil_iff.mpr fun q hq => by simpa using Nat.le_of_lt (hall q hq)
      have hhigh : (p :: ps).filter (n < ·.1) = p :: ps :=
        filter_eq_self.mpr fun q hq => by simpa using hall q hq
      rw [hcompare, hlow, hhigh]
      rfl
    · have hcompare : compare (n : Int) p.1 = .eq := by
        rw [Int.compare_eq_eq, heq]
      have hlow : (p :: ps).filter (·.1 < n) = [] := by
        refine filter_eq_nil_iff.mpr ?_
        rintro q (_ | ⟨_, hq⟩)
        · simp [heq]
        · have := hfirst q hq
          simp
          omega
      have hhigh : (p :: ps).filter (n < ·.1) = ps := by
        rw [filter_cons_of_neg (by simp [heq])]
        exact filter_eq_self.mpr fun q hq => by simpa [heq] using hfirst q hq
      rw [hcompare, hlow, hhigh]
      rfl
    · have hcompare : compare (n : Int) p.1 = .gt := by
        rw [Int.compare_eq_gt]
        omega
      rw [hcompare, filter_cons_of_pos (by simpa using hgt),
        filter_cons_of_neg (by simpa using Nat.le_of_lt hgt)]
      simp only [ih hrest]
      rfl

theorem insert_items (n : Nat) (w : Identifier) (l : Spread) :
    Items.insert (.index n) (.word w.text) l.items = (l.place n w).items :=
  insert_sorted l.sorted n w

theorem items_ofList : (ofList ws).items = Items.ofList (ws.map fun w => .word w.text) := by
  simp [items, ofList, numbered, Items.ofList, zipIdx_map, toItem, Function.comp_def]

/-- A step that puts each item so much further on puts a whole list onto another. -/
theorem items_onto {step : List (Key × Value) → Key × Value → List (Key × Value)}
    (hstep : ∀ items p, step items (toItem p) =
      Items.insert (.index (p.1 + n : Nat)) (.word p.2.text) items) (m l : Spread) :
    m.items.foldl step l.items = (m.onto n l).items := by
  simp only [items, onto]
  generalize m.entries = ps
  induction ps generalizing l with
  | nil => rfl
  | cons p ps ih =>
    rw [map_cons, foldl_cons, foldl_cons, hstep, ← items, insert_items, items, ih]

theorem get?_items (l : Spread) (i : Nat) :
    Items.get? l.items (.index i) = (l.entries.lookup i).map fun w => .word w.text := by
  simp only [items, Items.get?]
  generalize l.entries = ps
  induction ps with
  | nil => rfl
  | cons p ps ih =>
    obtain ⟨j, w⟩ := p
    rw [map_cons, toItem]
    by_cases h : i = j
    · simp [h]
    · have hkey : (Key.index i == Key.index j) = false := by simpa using h
      have hindex : (i == j) = false := by simpa using h
      rw [lookup_cons, lookup_cons, hkey, hindex]
      exact ih

theorem numbered_items (l : Spread) :
    Library.numbered l.items = l.words.map fun w => .word w.text := by
  have hindex : ∀ p : Nat × Identifier,
      (if (toItem p).1.isIndex then some (toItem p).2 else none) = some (.word p.2.text) :=
    fun _ => rfl
  simp [Library.numbered, items, words, filterMap_map, Function.comp_def, hindex]

end Spread

/-! ## Words -/

theorem lt_toNat_of_isName {c : Char} (h : isName c = true) : 32 < c.toNat := by
  simp only [isName, isWord, Char.isAlphanum, Char.isAlpha, Char.isUpper, Char.isLower,
    Char.isDigit, Bool.or_eq_true, Bool.and_eq_true, decide_eq_true_eq, beq_iff_eq] at h
  rcases h with ((((h | h) | h) | rfl) | rfl)
  · exact Nat.lt_of_lt_of_le (by decide) (UInt32.le_iff_toNat_le.mp h.1)
  · exact Nat.lt_of_lt_of_le (by decide) (UInt32.le_iff_toNat_le.mp h.1)
  · exact Nat.lt_of_lt_of_le (by decide) (UInt32.le_iff_toNat_le.mp h.1)
  · decide
  · decide

theorem words_of_unspaced {t : Text} (ht : t ≠ []) (h : ∀ c ∈ t, isSpace c = false) :
    words t = [t] := by
  have hstep : ∀ (c : Char) (r w : Text), isSpace c = false →
      words.go (c :: r) w = words.go r (c :: w) := by
    intro c r w hc
    cases w <;> simp [words.go, hc]
  have hgo : ∀ t w : Text, (∀ c ∈ t, isSpace c = false) → w ≠ [] →
      words.go t w = [w.reverse ++ t] := by
    intro t
    induction t with
    | nil =>
      intro w _ hw
      simp [words.go]
    | cons c t ih =>
      intro w h hw
      obtain ⟨hc, ht⟩ := forall_mem_cons.mp h
      rw [hstep c t w hc, ih (c :: w) ht (by simp)]
      simp
  cases t with
  | nil => exact absurd rfl ht
  | cons c t =>
    obtain ⟨hc, ht⟩ := forall_mem_cons.mp h
    rw [words, hstep c t [] hc, hgo t [c] ht (by simp)]
    rfl

namespace Identifier

variable (w : Identifier)

theorem text_ne_nil : w.text ≠ [] := by
  obtain ⟨c, r, htext, -⟩ := w.exists_head
  simp [htext]

theorem not_isSpace : ∀ c ∈ w.text, isSpace c = false := fun c hc =>
  Source.isSpace_eq_false (lt_toNat_of_isName (w.names c hc))

theorem listing_word :
    Listing.ofText (.word w.text) w.text = ⟨none, (Spread.ofList [w]).items⟩ := by
  have hcomma : ',' ∉ w.text := fun h => absurd (w.names _ h) (by decide)
  have htight : trim w.text = w.text := (tight_of_all w.not_isSpace).trim
  rw [Listing.ofText, words_of_unspaced w.text_ne_nil w.not_isSpace]
  simp [splitOn_of_notMem hcomma, htight, Spread.items_ofList, w.text_ne_nil]

end Identifier

/-! ## Values -/

/-- In the pool, the value is a list with the separator and the words; a word alone has none. -/
inductive Pool.Holds (p : Pool) : Value → Option Text → Spread → Prop where
  | list {slot : Nat} {sep : Option Text} {l : Spread} (h : p.separators[slot]? = some sep) :
      Holds p (.list slot l.items) sep l
  | word (w : Identifier) : Holds p (.word w.text) none (.ofList [w])

/-- What is in the pool stays there, though there may be more. -/
structure Pool.Grows (p q : Pool) : Prop where
  separators : p.separators.toList <+: q.separators.toList
  quantities : p.quantities.toList <+: q.quantities.toList

/-- The pool with one more list. -/
def Pool.withList (p : Pool) (sep : Option Text) : Pool :=
  { p with separators := p.separators.push sep }

/-- The pool with one more bare number. -/
def Pool.withNumber (p : Pool) (x : Float) : Pool :=
  { p with quantities := p.quantities.push (.bare x) }

section Held

variable {i slot : Nat}

variable {p q : Pool} {v a b : Value} {sep sepA sepB : Option Text} {l m : Spread}

theorem Pool.Grows.refl (p : Pool) : p.Grows p := ⟨prefix_rfl, prefix_rfl⟩

theorem Pool.Grows.trans {o : Pool} (h : o.Grows p) (h' : p.Grows q) : o.Grows q :=
  ⟨h.separators.trans h'.separators, h.quantities.trans h'.quantities⟩

theorem Pool.Grows.separator (h : p.Grows q) (hslot : p.separators[slot]? = some sep) :
    q.separators[slot]? = some sep := by
  rw [← Array.getElem?_toList] at hslot ⊢
  obtain ⟨hlt, rfl⟩ := List.getElem?_eq_some_iff.mp hslot
  exact prefix_iff_getElem?.mp h.separators slot hlt

theorem Pool.Grows.quantity {x : Quantity} (h : p.Grows q)
    (hslot : p.quantities[slot]? = some x) : q.quantities[slot]? = some x := by
  rw [← Array.getElem?_toList] at hslot ⊢
  obtain ⟨hlt, rfl⟩ := List.getElem?_eq_some_iff.mp hslot
  exact prefix_iff_getElem?.mp h.quantities slot hlt

theorem Pool.grows_withList (p : Pool) (sep : Option Text) : p.Grows (p.withList sep) :=
  ⟨by simp [withList], prefix_rfl⟩

theorem Pool.grows_withNumber (p : Pool) (x : Float) : p.Grows (p.withNumber x) :=
  ⟨prefix_rfl, by simp [withNumber]⟩

theorem Pool.getElem?_withNumber (p : Pool) (x : Float) :
    (p.withNumber x).quantities[p.quantities.size]? = some (.bare x) := by
  simp [withNumber]

theorem Pool.set_withList (p : Pool) (sep sep' : Option Text) :
    p.withList sep' = { p.withList sep with
      separators := (p.withList sep).separators.setIfInBounds p.separators.size sep' } := by
  have hset : p.separators.push sep' =
      (p.separators.push sep).setIfInBounds p.separators.size sep' := by
    apply Array.toList_inj.mp
    simp
  simp [withList, hset]

theorem Pool.getElem?_withList (p : Pool) (sep : Option Text) :
    (p.withList sep).separators[p.separators.size]? = some sep := by
  simp [withList]

theorem Pool.Holds.mono (h : p.Holds v sep l) (hgrows : p.Grows q) : q.Holds v sep l := by
  cases h with
  | list hslot => exact .list (hgrows.separator hslot)
  | word w => exact .word w

/-! ## Functions on lists -/

theorem run_separator (h : p.separators[slot]? = some sep) :
    (Calc.separator slot).run p = (.ok sep, p) := by
  have hget : p.separators.getD slot none = sep := by
    rw [Array.getD_eq_getD_getElem?, h]
    rfl
  change (Except.ok (p.separators.getD slot none), p) = _
  rw [hget]

theorem Pool.Holds.run_listing (h : p.Holds v sep l) :
    v.listing.run p = (.ok ⟨sep, l.items⟩, p) := by
  cases h with
  | list hslot => exact Run.bind_ok (run_separator hslot)
  | word w =>
    rw [Value.listing, w.listing_word]
    rfl

theorem Pool.Holds.run_argumentList (h : p.Holds v sep l) :
    (Library.argumentList [v]).run p = (.ok ⟨sep, l.items⟩, p) := by
  cases h with
  | list hslot => exact Run.bind_ok (run_separator hslot)
  | word w =>
    rw [Spread.items_ofList]
    rfl

theorem entries_items (sep : Option Text) (l : Spread) :
    Library.Listing.entries ⟨sep, l.items⟩ = l.size + sep.toList.length := by
  cases sep <;> simp [Library.Listing.entries, Spread.length_items]

section Calls

variable {la lb : Listing} {g : Option Value}

/-- To join two lists makes a new one, with the words of the second behind the entries of the
first. -/
theorem run_join (ha : a.listing.run p = (.ok la, p)) (hb : b.listing.run p = (.ok lb, p))
    (hgiven : ∀ s ∈ g, ∃ t, s.text.run p = (.ok t, p)) :
    ∃ items sep, (Library.join a b g).run p =
        (.ok (.list p.separators.size items), p.withList sep) ∧
      ∀ l m : Spread, la.items = l.items → lb.items = m.items →
        items = (m.onto (Library.Listing.entries la) l).items := by
  rw [Library.join, Run.bind_ok ha, Run.bind_ok hb]
  extract_lets n items rest
  have hitems : ∀ l m : Spread, la.items = l.items → lb.items = m.items →
      items = (m.onto (Library.Listing.entries la) l).items := by
    intro l m hl hm
    simp only [items, hl, hm]
    exact Spread.items_onto (n := Library.Listing.entries la) (fun items p => rfl) m l
  cases g with
  | none => exact ⟨items, _, rfl, hitems⟩
  | some s =>
    obtain ⟨t, ht⟩ := hgiven s rfl
    exact ⟨items, _, Run.bind_ok ht, hitems⟩

theorem foldl_word (w : Identifier) (l : Spread) :
    (Items.values (Spread.ofList [w]).items).foldl
        (fun (items : List (Key × Value)) v => Items.insert (.index items.length) v items) l.items =
      (l.place l.size w).items := by
  rw [← Spread.insert_items, ← Spread.length_items]
  rfl

theorem run_listingWith (ha : a.listing.run p = (.ok la, p)) (t : Option Text) :
    ∃ sep, (Library.listingWith a t).run p = (.ok ⟨sep, la.items⟩, p) := by
  rw [Library.listingWith, Run.bind_ok ha]
  rcases t with _ | _ | ⟨c, t⟩
  · exact ⟨_, rfl⟩
  · cases a <;> exact ⟨_, rfl⟩
  · exact ⟨_, rfl⟩

/-- To append a value makes a new list, with a word behind the items. -/
theorem run_append (ha : a.listing.run p = (.ok la, p)) (hb : b.listing.run p = (.ok lb, p))
    (hsome : lb.items ≠ [])
    (hgiven : ∀ s ∈ g, (∃ t, s.text.run p = (.ok t, p)) ∧ ∃ b, s.isTrue.run p = (.ok b, p)) :
    ∃ items sep, (Library.append a b g).run p =
        (.ok (.list p.separators.size items), p.withList sep) ∧
      ∀ (l : Spread) (w : Identifier), la.items = l.items → lb.items = (Spread.ofList [w]).items →
        items = (l.place l.size w).items := by
  have hempty : lb.items.isEmpty = false := isEmpty_eq_false_iff.mpr hsome
  unfold Library.append
  extract_lets rest
  have hrest : ∀ t, ∃ items sep, (rest t).run p =
        (.ok (.list p.separators.size items), p.withList sep) ∧
      ∀ (l : Spread) (w : Identifier), la.items = l.items → lb.items = (Spread.ofList [w]).items →
        items = (l.place l.size w).items := by
    intro t
    obtain ⟨sep, hsep⟩ := run_listingWith ha t
    have hrun : (rest t).run p = (.ok (.list p.separators.size ((Items.values lb.items).foldl
        (fun (items : List (Key × Value)) v => Items.insert (.index items.length) v items)
          la.items)), p.withList sep) := by
      rw [Run.bind_ok hsep, Run.bind_ok hb]
      simp only [hempty]
      rfl
    refine ⟨_, sep, hrun, ?_⟩
    intro l w hl hw
    rw [hl, hw, foldl_word]
  cases g with
  | none => exact hrest none
  | some s =>
    obtain ⟨⟨t, ht⟩, b, hb⟩ := hgiven s rfl
    dsimp only
    rw [Run.bind_ok hb]
    cases b with
    | true =>
      rw [if_pos rfl, Run.bind_ok ht]
      exact hrest (some t)
    | false => exact hrest (some [])

end Calls

theorem run_length (ha : p.Holds a sepA l) :
    (Library.length [a]).run p =
      (.ok (.number p.quantities.size), p.withNumber (Float.ofNat l.size)) := by
  rw [Library.length, Run.bind_ok ha.run_argumentList, Spread.length_items]
  rfl

theorem text_bare {n : Nat} (hn : 0 < n) (hlt : n < 2 ^ 53) :
    (Quantity.bare (Float.ofScientific n false 0)).text = .ok (Text.ofNat n) := by
  have hfactor : Unit.factor [] = 1.0 := rfl
  have hunit : (Quantity.bare (Float.ofScientific n false 0)).unit = [] := rfl
  rw [Quantity.text, hunit, hfactor, append_nil]
  simp only [Quantity.bare, Scalar.toFloat, Decimal.whole_div_one hn hlt,
    Decimal.shown_whole hn hlt]
  rfl

theorem run_quantity {x : Quantity} (h : p.quantities[slot]? = some x) :
    (Calc.quantity slot).run p = (.ok x, p) := by
  change (Except.ok (p.quantities.getD slot (.bare 0.0)), p) = _
  rw [Array.getD_eq_getD_getElem?, h]
  rfl

theorem run_shown_number {n : Nat} (hn : 0 < n) (hlt : n < 2 ^ 53)
    (h : p.quantities[slot]? = some (.bare (Float.ofScientific n false 0))) :
    (Value.number slot).shown.run p = (.ok (Text.ofNat n), p) := by
  rw [Value.shown, Run.bind_ok (run_quantity h), text_bare hn hlt]
  rfl

theorem readFloat?_digits (i : Nat) :
    Decimal.readFloat? (Text.ofNat i) = some (Decimal.ofInt i) :=
  Compile.readFloat?_ofInt
    (tight_of_all fun _ hc => Source.isSpace_of_isDigit (Source.isDigit_of_mem_ofNat hc)).trim

theorem run_wantedItem {entries : Nat} (hpos : 1 ≤ i) (hi : i ≤ entries) (hlt : i < 2 ^ 53) :
    (Library.wantedItem entries (Text.ofNat i)).run p = (.ok (.position (i - 1 : Nat)), p) := by
  have htruncate : Decimal.truncate? (Decimal.ofInt i) = some (i : Int) :=
    Decimal.truncate?_ofInt (by simpa using Nat.le_of_lt hlt)
  have hmod : Int.fmod ((i : Int) - 1) entries = (i - 1 : Nat) := by
    rw [Int.fmod_eq_emod_of_nonneg _ (by omega), Int.emod_eq_of_lt (by omega) (by omega)]
    omega
  rw [Library.wantedItem, readFloat?_digits]
  simp only [Option.bind_some, htruncate, hmod]
  rw [if_neg (by omega)]
  rfl

/-- The item that is found at a position, or else the one that so many others precede. -/
theorem run_nth {lst n : Value} {listing : Listing}
    (hlist : lst.listing.run p = (.ok listing, p)) (hn : n.text.run p = (.ok (Text.ofNat i), p))
    (hpos : 1 ≤ i) (hi : i ≤ Library.Listing.entries listing) (hlt : i < 2 ^ 53) :
    (Library.nth lst n).run p =
      (((Items.get? listing.items (.index (i - 1 : Nat))).or
        (Library.itemAt? (Library.numbered listing.items) (i - 1 : Nat))).getD
          (.word [])).copied.run p := by
  rw [Library.nth, Run.bind_ok hn, Run.bind_ok hlist, Run.bind_ok (run_wantedItem hpos hi hlt)]
  rfl

theorem Pool.Holds.run_nth (h : p.Holds a sepA l) {n : Value}
    (hn : n.text.run p = (.ok (Text.ofNat i), p)) (hpos : 1 ≤ i) (hi : i ≤ l.size)
    (hlt : i < 2 ^ 53) :
    ∃ w ∈ l.nth? (i - 1), (Library.nth a n).run p = (.ok (.word w.text), p) := by
  have hentries : i ≤ Library.Listing.entries ⟨sepA, l.items⟩ := by
    rw [entries_items]
    omega
  have hsize : i - 1 < l.words.length := by
    rw [Spread.words, length_map]
    exact Nat.lt_of_lt_of_le (by omega) hi
  have hfound : (Items.get? l.items (.index (i - 1 : Nat))).or
      (Library.itemAt? (Library.numbered l.items) (i - 1 : Nat)) =
        (l.nth? (i - 1)).map fun w => .word w.text := by
    rw [Spread.get?_items, Spread.numbered_items, Library.itemAt?, if_pos (Int.natCast_nonneg _),
      Int.toNat_natCast, getElem?_map, Spread.nth?]
    cases l.entries.lookup (i - 1) <;> rfl
  obtain ⟨w, hw⟩ : ∃ w, l.nth? (i - 1) = some w := by
    rw [Spread.nth?, getElem?_eq_getElem hsize]
    cases l.entries.lookup (i - 1) <;> exact ⟨_, rfl⟩
  refine ⟨w, hw, ?_⟩
  rw [SheetPress.run_nth h.run_listing hn hpos hentries hlt, hfound, hw]
  rfl

theorem run_shownItems (l : Spread) :
    (shownItems l.items).run p = (.ok (l.words.map Identifier.text), p) := by
  simp only [Spread.items, Spread.words]
  generalize l.entries = ps
  induction ps with
  | nil => rfl
  | cons q ps ih =>
    rw [map_cons, Spread.toItem, shownItems,
      Run.bind_ok
        (show (Value.word q.2.text).shown.run p = (.ok q.2.text, p) by rw [Value.shown]; rfl),
      Run.bind_ok ih]
    rfl

theorem Pool.Holds.run_shown (h : p.Holds v sep l) :
    v.shown.run p =
      (.ok (joinWith (sep.getD [] ++ [' ']) (l.words.map Identifier.text)), p) := by
  cases h with
  | list hslot =>
    rw [Value.shown, Run.bind_ok (run_separator hslot), Run.bind_ok (run_shownItems _)]
    rfl
  | word w =>
    rw [Spread.words_ofList, Value.shown]
    simp [joinWith]
    rfl

end Held

end SheetPress
