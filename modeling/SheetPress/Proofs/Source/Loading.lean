import SheetPress.Proofs.Source.Items
import SheetPress.Proofs.Source.Lines

/-!
# Loading an outline

An outline that is written on one line goes through loading almost untouched.  It holds no
string, no comment and no name of a colour; its line is not empty; and of the blanks before
braces only those behind a colon go.  The brace of an interpolation gets a blank and loses it
again.  So the loaded text is the code of the outline between two tags, and its items are those
of the outline.
-/

set_option autoImplicit false

namespace SheetPress.Source

open List Text

variable {a b : Text} {o : Outline}

variable {before gap r x : Text} {c : Char}

/-! ## Blanks before braces -/

/-- A part of a text without opening braces that does not end with a blank. -/
structure Firm (x : Text) : Prop where
  brace : '{' ∉ x
  last : ∀ c ∈ x.getLast?, isSpace c = false

theorem Firm.suffix (h : Firm x) (hab : x = a ++ b) (hb : b ≠ []) : Firm b := by
  constructor
  · exact fun hc => h.brace (by simp [hab, hc])
  · intro c hc
    exact h.last c (by rwa [hab, getLast?_append_of_ne_nil a hb])

theorem firm_snoc (hx : '{' ∉ x) (hc : c ≠ '{') (hspace : isSpace c = false) :
    Firm (x ++ [c]) := by
  constructor
  · simpa [hx] using Ne.symm hc
  · simpa using hspace

theorem Firm.findBrace (h : Firm x) (hne : x ≠ []) : Source.findBrace before (x ++ r) = none := by
  induction x with
  | nil => exact absurd rfl hne
  | cons c x ih =>
    have hc : c ≠ '{' := fun hc => h.brace (by simp [hc])
    by_cases hx : x = []
    · subst hx
      simp [findBrace_cons, h.last c (by simp), hc]
    · rw [cons_append, findBrace_cons, ih (h.suffix (a := [c]) rfl hx) hx]
      simp [hc]

/-- Before a firm part no blank between a colon or a number sign and a brace goes. -/
theorem Firm.inert_block (h : Firm x) (hab : x = a ++ c :: b) (hb : b ≠ []) :
    findBlockBrace before (c :: (b ++ r)) = none := by
  have hfirm : Firm b := h.suffix (a := a ++ [c]) (by simp [hab]) hb
  simp [findBlockBrace_cons, hfirm.findBrace hb]

/-- A blank or nothing. -/
def IsLead (lead : Text) : Prop := lead = [] ∨ lead = [' ']

theorem IsLead.mem {lead : Text} (h : IsLead lead) (hc : c ∈ lead) : c = ' ' := by
  rcases h with rfl | rfl
  · simp at hc
  · simpa using hc

/-- There is one blank before a brace, and none behind a colon or a number sign. -/
theorem spaceBraces_brace (hx : Firm x) (hgap : IsLead gap) (r : Text) :
    spaceBraces (x ++ (gap ++ '{' :: r)) =
      x ++ ((if ∃ c ∈ x.getLast?, c = ':' ∨ c = '#' then [] else [' ']) ++
        '{' :: spaceBraces r) := by
  have hfirst : Text.Turns findBrace (x ++ (gap ++ ['{'])) (x ++ [' ', '{']) := by
    refine (turns_self fun _ rest _ _ hab hb => (hx.suffix hab hb).findBrace hb).append
      (turns_found (by simp) fun before rest => ?_)
    rcases hgap with rfl | rfl <;> simp [findBrace_cons, isSpace]
  have hsecond : Text.Turns findBlockBrace (x ++ [' ', '{'])
      (x ++ ((if ∃ c ∈ x.getLast?, c = ':' ∨ c = '#' then [] else [' ']) ++ ['{'])) := by
    split
    next hlast =>
      obtain ⟨c, hc, hsign⟩ := hlast
      obtain ⟨y, rfl⟩ := getLast?_eq_some_iff.mp hc
      have hcollapse : Text.Turns findBlockBrace [c, ' ', '{'] [c, '{'] :=
        turns_found (by simp) fun _ _ => by
          simp [findBlockBrace_cons, findBrace_cons, hsign, isSpace]
      intro before rest
      -- Nothing before the colon or the sign reaches the brace.
      have hinert : substituteFrom findBlockBrace before (y ++ ([c, ' ', '{'] ++ rest)) =
          y ++ substituteFrom findBlockBrace (y.reverse ++ before) ([c, ' ', '{'] ++ rest) := by
        refine substituteFrom_append fun a b hab hb => ?_
        cases b with
        | nil => exact absurd rfl hb
        | cons d b =>
          have hnone : findBlockBrace (a.reverse ++ before)
              (d :: ((b ++ [c]) ++ ([' ', '{'] ++ rest))) = none :=
            hx.inert_block (a := a) (by simp [hab]) (by simp)
          simpa using hnone
      obtain ⟨before', hbrace⟩ := hcollapse (y.reverse ++ before) rest
      rw [hbrace] at hinert
      exact ⟨before', by simpa using hinert⟩
    next hlast =>
      refine (turns_self fun before rest a b hab hb => ?_).append
        (turns_of_heads fun c hc _ _ => ?_)
      · cases b with
        | nil => exact absurd rfl hb
        | cons c b =>
          by_cases hnil : b = []
          · have hc : ¬ (c = ':' ∨ c = '#') := fun hc => hlast ⟨c, by simp [hab, hnil], hc⟩
            simp [findBlockBrace_cons, hc]
          · exact hx.inert_block hab hnil
      · rcases mem_pair.mp hc with rfl | rfl <;> simp [findBlockBrace_cons]
  have hpass := hfirst.substitute_append (fun _ _ _ => rfl) r
  have hpass' := hsecond.substitute_append (fun _ _ _ => rfl) (substitute findBrace r)
  simp only [append_assoc, cons_append, nil_append] at hpass hpass'
  rw [spaceBraces, hpass, hpass']
  rfl

/-- What stands directly behind a text decides nothing about the names in it, unless it goes on
with the last of them; and what stands before it can only hide its first name. -/
theorem findName_append (before : Text) (rest : Text)
    (hnone : Colour.findName a.reverse b = none) (h : ∀ c ∈ rest.head?, isName c = false) :
    Colour.findName (a.reverse ++ before) (b ++ rest) = none := by
  have hword : (b ++ rest).takeWhile isName = b.takeWhile isName :=
    takeWhile_append_of_head b h
  cases ha : a.reverse with
  | nil =>
    rw [ha] at hnone
    refine findName_of_digits? ?_
    rw [hword]
    simpa [Colour.findName] using hnone
  | cons d a' =>
    rw [ha] at hnone
    simp only [Colour.findName, cons_append, head?_cons, hword] at hnone ⊢
    exact hnone

namespace Outline

variable {t h lead : Text}

/-! ## The passes over an outline -/

theorem notMem_lead (hlead : IsLead lead) (ht : ∀ c ∈ t, isEven c = true) : '{' ∉ lead ++ t := by
  intro hc
  rcases mem_append.mp hc with hc | hc
  · exact absurd (hlead.mem hc) (by decide)
  · exact absurd (ht _ hc) (by decide)

theorem spaceBraces_interpolation {e : Text} (hlead : IsLead lead) (ht : ∀ c ∈ t, isEven c = true)
    (he : ∀ c ∈ e, isEven c = true) (r : Text) :
    spaceBraces (lead ++ (t ++ (interpolation e ++ r))) =
      lead ++ (t ++ (interpolation e ++ spaceBraces r)) := by
  have hsharp : Firm (lead ++ t ++ ['#']) :=
    firm_snoc (notMem_lead hlead ht) (by decide) (by decide)
  have hbrace := spaceBraces_brace hsharp (.inl rfl) e
  have hclose := spaceBraces_border (d := '}') (by decide) (by decide)
    (lead ++ (t ++ '#' :: '{' :: e)) r
  have hinner : spaceBraces e = e :=
    spaceBraces_of_notMem fun hmem => absurd (he _ hmem) (by decide)
  simp only [append_assoc, cons_append, nil_append] at hbrace hclose
  simp [interpolation, hclose, hbrace, hinner]

theorem spaceBraces_line (ht : Even t) (hlead : IsLead lead) (r : Text) :
    spaceBraces (lead ++ (t ++ ';' :: r)) = lead ++ (t ++ ';' :: spaceBraces r) := by
  have hborder := spaceBraces_border (d := ';') (by decide) (by decide)
  cases ht.smooth with
  | plain h =>
    rw [← append_assoc, hborder, spaceBraces_of_notMem (notMem_lead hlead h), append_assoc]
  | ending h he =>
    have hrest := hborder [] r
    rw [append_assoc, spaceBraces_interpolation hlead h he, ← nil_append (';' :: r), hrest,
      append_assoc]
    rfl

/-- The blank between a head and its brace goes if the head ends with a colon. -/
theorem spaceBraces_head (hh : Even h) (hlead : IsLead lead) (r : Text) :
    spaceBraces (lead ++ (h ++ ' ' :: '{' :: r)) =
      lead ++ (h ++ (gapOf h ++ '{' :: spaceBraces r)) := by
  obtain ⟨hne, htight, hsmooth, -⟩ := hh
  cases hsmooth with
  | @plain h heven =>
    have hlast : (lead ++ h).getLast? = h.getLast? := getLast?_append_of_ne_nil _ hne
    have hbrace := spaceBraces_brace (x := lead ++ h) ⟨notMem_lead hlead heven, hlast ▸ htight.last⟩
      (.inr rfl) r
    have hgap :
        (if ∃ c ∈ (lead ++ h).getLast?, c = ':' ∨ c = '#' then [] else [' ']) = gapOf h := by
      rw [hlast, gapOf]
      refine if_congr ⟨?_, fun hcolon => ⟨':', hcolon, .inl rfl⟩⟩ rfl rfl
      rintro ⟨c, hc, rfl | rfl⟩
      · exact hc
      · exact absurd (heven _ (mem_of_getLast? hc)) (by decide)
    rw [hgap] at hbrace
    simpa using hbrace
  | @ending t e ht he =>
    have hgap : gapOf (t ++ interpolation e) = [' '] := by
      rw [gapOf, getLast?_interpolation, if_neg (by decide)]
    have hbrace := spaceBraces_brace (x := []) ⟨by simp, by simp⟩ (.inr rfl) r
    rw [hgap, append_assoc, spaceBraces_interpolation hlead ht he]
    simpa using hbrace

/-- A pass over an outline, if it is known for lines, for heads with their braces, and for the
braces that close blocks. -/
theorem pass_write (f : Text → Text) (gap gap' : Text → Text)
    (hline : ∀ {t lead}, Even t → IsLead lead → ∀ r,
      f (lead ++ (t ++ ';' :: r)) = lead ++ (t ++ ';' :: f r))
    (hhead : ∀ {h lead}, Even h → IsLead lead → ∀ r,
      f (lead ++ (h ++ (gap h ++ '{' :: r))) = lead ++ (h ++ (gap' h ++ '{' :: f r)))
    (hclose : ∀ r, f (' ' :: '}' :: r) = ' ' :: '}' :: f r) (ho : o.AllEven) (r : Text)
    (hlead : IsLead lead) : f (o.write gap lead ++ r) = o.write gap' lead ++ f r := by
  induction o generalizing lead r with
  | nil => rfl
  | line t rest ih => simp [write, hline ho.1 hlead, ih ho.2 r (.inr rfl)]
  | block h body rest ihb ihr =>
    simp [write, hhead ho.1 hlead, ihb ho.2.1 _ (.inr rfl), hclose, ihr ho.2.2 r (.inr rfl)]

theorem spaceBraces_write (ho : o.AllEven) (r : Text) (hlead : IsLead lead) :
    spaceBraces (o.write (fun _ => [' ']) lead ++ r) = o.write gapOf lead ++ spaceBraces r :=
  pass_write spaceBraces _ _ spaceBraces_line spaceBraces_head
    (fun r => spaceBraces_border (d := '}') (by decide) (by decide) [' '] r) ho r hlead

theorem expandNames_text (ht : Even t) (hlead : IsLead lead) :
    Colour.expandNames (lead ++ t) = lead ++ t := by
  have hself : Colour.expandNames t = t := substitute_self fun a b hab _ => ht.colourless a b hab
  rcases hlead with rfl | rfl
  · exact hself
  · have hborder := expandNames_border (d := ' ') (by decide) [] t
    rwa [hself] at hborder

theorem expandNames_write (ho : o.AllEven) (r : Text) (hlead : IsLead lead) :
    Colour.expandNames (o.write gapOf lead ++ r) = o.write gapOf lead ++ Colour.expandNames r := by
  refine pass_write Colour.expandNames _ _ (fun ht hlead r => ?_) (fun {h _} hh hlead r => ?_)
    (fun r => expandNames_border (d := '}') (by decide) [' '] r) ho r hlead
  · rw [← append_assoc, expandNames_border (by decide), expandNames_text ht hlead,
      append_assoc]
  · rw [← append_assoc, ← append_assoc, expandNames_border (by decide)]
    have htext := expandNames_text hh hlead
    rcases gapOf_cases h with hgap | hgap
    · simp [hgap, htext]
    · rw [hgap, expandNames_border (by decide), htext]
      simp [Colour.expandNames, substitute_eq, substituteFrom_nil]

end Outline

/-- Digits are read as a number, whatever blanks stand before them. -/
theorem tagNumber?_digits {digits : Text} (hdigits : ∀ c ∈ digits, c.isDigit = true) (pad : Text)
    (hpad : ∀ c ∈ pad, isSpace c = true) : ∃ line, tagNumber? (pad ++ digits) = some line := by
  have htight : Text.Tight digits := tight_of_all fun c hc => isSpace_of_isDigit (hdigits c hc)
  have htrim : trim (pad ++ digits) = digits := by
    simpa using trim_pad (b := []) hpad (by simp) htight
  have hsign : Decimal.takeSign digits = (false, digits) := by
    unfold Decimal.takeSign
    split
    · exact absurd (hdigits '-' (by simp)) (by decide)
    · exact absurd (hdigits '+' (by simp)) (by decide)
    · rfl
  have hall : digits.all isDigit = true := all_eq_true.mpr hdigits
  unfold tagNumber?
  simp only [htrim]
  by_cases hempty : digits = []
  · exact ⟨0, by simp [hempty]⟩
  · exact ⟨(digitsValue digits : Int),
      by simp [hempty, Decimal.readInt?, htight.trim, hsign, hall]⟩

theorem readHead_tag (line : Int) (n : Nat) (pad : Text)
    (hpad : ∀ c ∈ pad, isSpace c = true) :
    ∃ line', ∀ x, readHead line (pad ++ (tag n ++ x)) = .ok (line', trim (dropTags x)) := by
  obtain ⟨line', hline⟩ :=
    tagNumber?_digits (fun c (hc : c ∈ ofNat n) => isDigit_of_mem_ofNat hc) pad hpad
  have hmark : mark ∉ pad ++ ofNat n := by
    intro hm
    rcases mem_append.mp hm with hm | hm
    · exact absurd (hpad _ hm) (by decide)
    · exact absurd (isDigit_of_mem_ofNat hm) (by decide)
  refine ⟨line', fun x => ?_⟩
  have hcut : cut? [mark] ((pad ++ ofNat n) ++ ([mark] ++ x)) =
      some (pad ++ ofNat n, x) := cut?_append_of_notMem hmark
  rw [show pad ++ (tag n ++ x) = (pad ++ ofNat n) ++ ([mark] ++ x) by simp [tag]]
  simp only [readHead, hcut, hline]

variable (n : Nat)

theorem leads_tag : ∃ line, Leads 0 (tag n) line := by
  obtain ⟨line, hline⟩ := readHead_tag 0 n [] (by simp)
  refine ⟨line, fun t b ht hb => ?_⟩
  have hblank : ∀ c ∈ b, c = ' ' := fun c hc => IsLead.mem hb hc
  have hbreak : '\n' ∉ t ++ b := by
    intro hm
    rcases mem_append.mp hm with hm | hm
    · exact ht.notMem (by decide) (by decide) hm
    · exact absurd (hblank _ hm) (by decide)
  have htrim : trim (t ++ b) = t := by
    refine trim_pad (a := []) (by simp) (fun c hc => ?_) ht.tight
    rw [hblank c hc]
    decide
  have hread := hline (t ++ b)
  rwa [dropTags_of_notMem hbreak, htrim] at hread

theorem unstructured_tag : ∀ c ∈ tag n, isStructural c = false := by
  intro c hc
  by_contra h
  simp only [isStructural, Bool.not_eq_false, Bool.or_eq_true, beq_iff_eq] at h
  rcases h with (((((((rfl | rfl) | rfl) | rfl) | rfl) | rfl) | rfl) | rfl) | rfl <;>
    exact notMem_tag n (by decide) (by decide) hc

theorem quiet_tag : Quiet (tag n) := by
  intro c hc
  refine ⟨.inl (unstructured_tag n c hc), ?_⟩
  rintro rfl
  exact notMem_tag n (by decide) (by decide) hc

/-! ## Behind the last line -/

theorem itemsFrom_unstructured {s : Text} {y : Text} (st : Scan)
    (h : ∀ c ∈ y, isStructural c = false) :
    ∀ (i : Nat) (previous : Option Char) (rest : Text), ∃ previous',
      itemsFrom s i previous st (y ++ rest) = itemsFrom s (i + y.length) previous' st rest := by
  induction y with
  | nil => exact fun i previous rest => ⟨previous, rfl⟩
  | cons c y ih =>
    intro i previous rest
    obtain ⟨previous', hrest⟩ := ih (fun d hd => h d (by simp [hd])) (i + 1) (some c) rest
    refine ⟨previous', ?_⟩
    have hc : isStructural c = false := h c (by simp)
    simp only [cons_append, itemsFrom, hc, hrest, length_cons]
    simp [Nat.add_comm, Nat.add_left_comm]

theorem itemsFrom_break {s : Text} {line : Int} {init safe loose start i : Nat}
    {previous : Option Char} {st : Scan}
    (h : atBreak s i (.idle line init safe loose start) = .ok st) :
    itemsFrom s i previous (.idle line init safe loose start) ('\n' :: r) =
      itemsFrom s (i + 1) (some '\n') st r := by
  have hstep : step s i previous '\n' (.idle line init safe loose start) = ([], .ok st) := by
    rw [← h]
    rfl
  simp [itemsFrom, isStructural, hstep]

theorem dropTags_break : dropTags ('\n' :: tag n) = ['\n'] := by
  have hbreak : '\n' ∉ tag n := notMem_tag n (by decide) (by decide)
  have hsplit : Text.splitOn '\n' ('\n' :: tag n) = [[], tag n] := by
    have hfirst : Text.splitOn '\n' ([] ++ '\n' :: tag n) = [] :: Text.splitOn '\n' (tag n) :=
      splitOn_append (tag n) (by simp)
    rwa [splitOn_of_notMem hbreak] at hfirst
  have htag : dropTag (tag n) = [] := by simp [dropTag, tagLength_tag]
  simp [dropTags, hsplit, htag, joinWith]

theorem closing_break (hx : x ≠ []) :
    Closing (x ++ '\n' :: tag n) ('\n' :: tag n) where
  semicolon := by
    have : ';' ∉ tag n := notMem_tag n (by decide) (by decide)
    simpa using this
  reads := fun line => by
    obtain ⟨line', hline⟩ := readHead_tag line n ['\n'] (by simp; decide)
    refine ⟨line', ?_⟩
    have := hline []
    rw [dropTags_of_notMem (by simp), append_nil] at this
    exact this
  passes := fun line loose start previous => by
    have hpos : (x ++ '\n' :: tag n).length - ('\n' :: tag n).length = x.length := by simp
    rw [hpos]
    obtain ⟨k, hk⟩ : ∃ k, x.length = k + 1 :=
      Nat.exists_eq_succ_of_ne_zero (by simpa using hx)
    have hempty : isFilled (sliceShort (x ++ '\n' :: tag n) (k + 1) (k + 1)) = .ok false := by
      have hslice : sliceShort (x ++ '\n' :: tag n) (k + 1) (k + 1) = [] := by
        simp [sliceShort, slice]
      rw [hslice, isFilled, readHead_of_unmarked 0 (by simp) (by simp)]
      rfl
    obtain ⟨previous', hrest⟩ := itemsFrom_unstructured (s := x ++ '\n' :: tag n)
      (.idle line (k + 1) (k + 1) loose start) (unstructured_tag n) (k + 1 + 1) (some '\n') []
    refine ⟨.idle line (k + 1) (k + 1) loose start, ?_, rfl, rfl, rfl⟩
    rw [append_nil] at hrest
    have hbreak : atBreak (x ++ '\n' :: tag n) (k + 1) (.idle line (k + 1) (k + 1) loose start) =
        .ok (.idle line (k + 1) (k + 1) loose start) := by
      simp [atBreak, Scan.idle, hempty, Except.map]
    rw [hk, itemsFrom_break hbreak, hrest]
    rfl

/-- If there is no line, there are two tags with a break between them. -/
theorem closing_tags :
    Closing (tag n ++ '\n' :: tag n) (tag n ++ '\n' :: tag n) where
  semicolon := by
    have : ';' ∉ tag n := notMem_tag n (by decide) (by decide)
    simpa using this
  reads := fun line => by
    obtain ⟨line', hline⟩ := readHead_tag line n [] (by simp)
    refine ⟨line', ?_⟩
    have := hline ('\n' :: tag n)
    rw [dropTags_break] at this
    exact this
  passes := fun line loose start previous => by
    have hfilled : isFilled (sliceShort (tag n ++ '\n' :: tag n) 0 (tag n).length) = .ok true := by
      have hslice : sliceShort (tag n ++ '\n' :: tag n) 0 (tag n).length = ofNat n := by
        simp [tag, sliceShort, slice]
      have hmark : mark ∉ ofNat n := fun hm =>
        absurd (isDigit_of_mem_ofNat hm) (by decide)
      have hbreak : '\n' ∉ ofNat n := fun hm =>
        absurd (isDigit_of_mem_ofNat hm) (by decide)
      have htight : Text.Tight (ofNat n) :=
        tight_of_all fun c hc => isSpace_of_isDigit (isDigit_of_mem_ofNat hc)
      rw [hslice, isFilled, readHead_of_unmarked 0 hmark hbreak, htight.trim]
      simp [Except.map, ofNat_ne_nil]
    let s := tag n ++ '\n' :: tag n
    let st : Scan := { Scan.idle line 0 0 loose start with thin := some ((tag n).length + 1) }
    obtain ⟨p₁, h₁⟩ := itemsFrom_unstructured (s := s) (.idle line 0 0 loose start)
      (unstructured_tag n) 0 previous ('\n' :: tag n)
    obtain ⟨p₂, h₂⟩ := itemsFrom_unstructured (s := s) st (unstructured_tag n)
      ((tag n).length + 1) (some '\n') []
    rw [append_nil] at h₂
    refine ⟨st, ?_, rfl, rfl, rfl⟩
    have hbreak : atBreak s (tag n).length (.idle line 0 0 loose start) = .ok st := by
      simp [atBreak, Scan.idle, s, st, hfilled, Except.map]
    rw [Nat.sub_self, h₁, Nat.zero_add, itemsFrom_break hbreak, h₂]
    rfl

theorem Outline.mem_write (ho : o.AllEven) :
    ∀ {lead : Text}, IsLead lead → c ∈ o.write (fun _ => [' ']) lead →
      Outline.isEven c = true ∨ c ∈ [';', '#', '{', '}'] := by
  have htext : ∀ {t : Text}, Outline.Even t → c ∈ t →
      Outline.isEven c = true ∨ c ∈ [';', '#', '{', '}'] :=
    fun ht hc => (ht.smooth.mem hc).imp_right (mem_cons_of_mem _)
  induction o with
  | nil =>
    intro lead _ hc
    simp [Outline.write] at hc
  | line t rest ih =>
    intro lead hlead hc
    simp only [Outline.write, mem_append, mem_cons] at hc
    rcases hc with h | h | h | h
    · exact .inl (by rw [hlead.mem h]; decide)
    · exact htext ho.1 h
    · exact .inr (by simp [h])
    · exact ih ho.2 (.inr rfl) h
  | block t body rest ihb ihr =>
    intro lead hlead hc
    simp only [Outline.write, mem_append, mem_cons] at hc
    rcases hc with h | h | h | h | h | h | h | h
    · exact .inl (by rw [hlead.mem h]; decide)
    · exact htext ho.1 h
    · exact .inl (by rw [show c = ' ' by simpa using h]; decide)
    · exact .inr (by simp [h])
    · exact ihb ho.2.1 (.inr rfl) h
    · exact .inl (by rw [h]; decide)
    · exact .inr (by simp [h])
    · exact ihr ho.2.2 (.inr rfl) h

theorem Outline.notMem_source (ho : o.AllEven)
    (heven : Outline.isEven c = false) (hc : c ∉ [';', '#', '{', '}']) : c ∉ o.source := by
  rw [Outline.source_eq]
  intro hm
  rcases Outline.mem_write ho (.inl rfl) hm with h | h
  · rw [heven] at h
    exact Bool.noConfusion h
  · exact hc h

/-! ## All of it -/

theorem treat_source (ho : o.AllEven) : treat o.source = o.code := by
  have hplain : ∀ c ∈ ['"', '\'', '/', '^'], c ∉ o.source := by
    intro c hc
    simp only [mem_cons, not_mem_nil, or_false] at hc
    rcases hc with rfl | rfl | rfl | rfl <;> exact Outline.notMem_source ho (by decide) (by decide)
  have hbraces := Outline.spaceBraces_write ho [] (.inl rfl)
  have hnames := Outline.expandNames_write ho [] (.inl rfl)
  have hnil : spaceBraces [] = [] ∧ Colour.expandNames [] = [] := ⟨rfl, rfl⟩
  rw [append_nil, hnil.1, append_nil] at hbraces
  rw [append_nil, hnil.2, append_nil] at hnames
  rw [treat_plain hplain, Outline.source_eq, hbraces, hnames, Outline.code]

/-- A loaded outline is its code, with tags around it if there is a file. -/
theorem load_source (first : Nat) (file : Option Text) (ho : o.AllEven) :
    ∃ before behind, Wraps before behind ∧
      (load first file o.source).code = before ++ (o.code ++ behind) := by
  have hnot : ∀ {c}, Outline.isEven c = false → c ∉ [';', '#', '{', '}'] → c ∉ o.source :=
    Outline.notMem_source ho
  obtain ⟨before, behind, hw, hload⟩ := load_line first file
  refine ⟨before, behind, hw, ?_⟩
  rw [← treat_source ho]
  refine hload (hnot (by decide) (by decide)) ?_
  rw [hideStrings_of_notMem (hnot (by decide) (by decide)) (hnot (by decide) (by decide))]
  exact fun h => hnot (c := '/') (by decide) (by decide) (h.subset (by simp))

theorem items_wrapped {behind : Text} (hw : Wraps before behind) (ho : o.AllEven) :
    ∃ line, items (before ++ (o.code ++ behind)) = ⟨o.items line, none⟩ := by
  cases hw with
  | bare => exact ⟨0, by simpa using items_code ho⟩
  | tagged n =>
    obtain ⟨line, hlead⟩ := leads_tag n
    refine ⟨line, ?_⟩
    by_cases hnil : o = .nil
    · subst hnil
      exact items_write (o := .nil) trivial (closing_tags n) hlead (quiet_tag n)
    · have hcode : tag n ++ (o.code ++ '\n' :: tag n) =
          o.write Outline.gapOf (tag n) ++ '\n' :: tag n := by
        rw [Outline.write_lead _ _ hnil, Outline.code, append_assoc]
      have hne : o.write Outline.gapOf (tag n) ≠ [] := by
        rw [Outline.write_lead _ _ hnil]
        simp [tag]
      rw [hcode]
      exact items_write ho (closing_break n hne) hlead (quiet_tag n)

end SheetPress.Source
