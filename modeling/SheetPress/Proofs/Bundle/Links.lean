import SheetPress.Bundle.Workspace
import SheetPress.Proofs.Path.Below
import SheetPress.Proofs.Text.Borders

/-!
# Links of packed sources

The links of a source are rewritten so that they can be followed from another directory.  Up from
that directory to what it has in common with the file, and down again, the way leads to the same
place: `normal_join_relative`.
-/

set_option autoImplicit false

namespace SheetPress

open List Text

namespace Path

/-! ## The way from a directory to a path -/

theorem commonParts_le (s t : List Text) : commonParts s t ≤ s.length := by
  fun_induction commonParts s t <;> simp_all

theorem take_commonParts (s t : List Text) :
    s.take (commonParts s t) = t.take (commonParts s t) := by
  fun_induction commonParts s t <;> simp_all

theorem foldl_up {kept : List Text} (h : ∀ part ∈ kept, Proper part) (n : Nat) :
    (List.replicate n ['.', '.']).foldl (stepPart true) kept = kept.drop n := by
  induction n generalizing kept with
  | zero => rfl
  | succ n ih =>
    cases kept with
    | nil => simpa [replicate_succ, stepPart] using ih (forall_mem_nil _)
    | cons k kept =>
      have hstep : stepPart true (k :: kept) ['.', '.'] = kept := by
        simp [stepPart, (h k (by simp)).ne_up]
      rw [replicate_succ, foldl_cons, hstep, ih fun part hpart => h part (by simp [hpart]),
        drop_succ_cons]

/-- Up to the last common part, and down from there. -/
theorem foldl_way {source target : List Text} (hsource : ∀ part ∈ source, Proper part)
    (htarget : ∀ part ∈ target, Proper part) :
    (List.replicate (source.length - commonParts source target) ['.', '.'] ++
      target.drop (commonParts source target)).foldl (stepPart true) source.reverse =
        target.reverse := by
  have hle := commonParts_le source target
  rw [foldl_append, foldl_up fun part hpart => hsource part (mem_reverse.mp hpart),
    foldl_proper fun part hpart => htarget part (mem_of_mem_drop hpart), drop_reverse,
    Nat.sub_sub_self hle, take_commonParts, ← reverse_append, take_append_drop]

section Absolute

variable {here p start : Text} (hp : isAbsolute p = true) (hstart : isAbsolute start = true)

theorem parts_absolute {q : Text} (hq : isAbsolute q = true) :
    parts (absolute here q) = (walk [] q).reverse := by
  rw [absolute, join, if_pos hq, parts_normal hq]

include hp hstart

theorem walk_relative : walk (walk [] start) (relative here p start) = walk [] p := by
  have hproper : ∀ q, ∀ part ∈ (walk [] q).reverse, Proper part := fun q part hpart =>
    proper_walk q part (mem_reverse.mp hpart)
  have hway := foldl_way (hproper start) (hproper p)
  rw [reverse_reverse, reverse_reverse] at hway
  simp only [relative, parts_absolute hp, parts_absolute hstart]
  split
  next hempty =>
    rw [List.isEmpty_iff.mp hempty, foldl_nil] at hway
    simpa [walk, Text.splitOn, stepPart] using hway
  next hne =>
    rw [walk, splitOn_joinWith (by simpa using hne), hway]
    intro part hpart
    rcases mem_append.mp hpart with hpart | hpart
    · rw [eq_of_mem_replicate hpart]
      decide
    · exact (hproper p part (mem_of_mem_drop hpart)).whole

/-- Along the way from a directory one comes to the path. -/
theorem normal_join_relative (hleading : leading start = leading p) :
    normal (join start (relative here p start)) = normal p := by
  have hrelative := isAbsolute_relative here p start
  rw [normal_eq_walk (isAbsolute_join hstart _), normal_eq_walk hp,
    (leading_join hstart hrelative).2, hleading, walk_join [] start hrelative,
    walk_relative hp hstart]

end Absolute

theorem mem_of_mem_foldl {ps kept : List Text} {k : Text}
    (h : k ∈ ps.foldl (stepPart true) kept) : k ∈ ps ∨ k ∈ kept := by
  induction ps generalizing kept with
  | nil => exact .inr h
  | cons p ps ih =>
    have hstep : ∀ k ∈ stepPart true kept p, k = p ∨ k ∈ kept := by
      intro k hk
      unfold stepPart at hk
      grind
    grind

theorem notMem_relative {here p start : Text} {c : Char} (hp : isAbsolute p = true) (hc : c ∉ p)
    (hpoint : c ≠ '.') (hslash : c ≠ '/') : c ∉ relative here p start := by
  intro hmem
  simp only [relative, parts_absolute hp] at hmem
  split at hmem
  · simp [hpoint] at hmem
  · rcases mem_joinWith hmem with hmem | ⟨part, hpart, hmem⟩
    · simp [hslash] at hmem
    · rcases mem_append.mp hpart with hpart | hpart
      · simp [eq_of_mem_replicate hpart, hpoint] at hmem
      · have hwalk := mem_reverse.mp (mem_of_mem_drop hpart)
        rcases mem_of_mem_foldl hwalk with hpart | hpart
        · exact hc ((infix_of_mem_splitOn hpart).subset hmem)
        · simp at hpart

end Path

namespace Bundle

/-! ## Addresses in a text -/

theorem takeWhile_paren {p : Char → Bool} (hp : p ')' = false) (y z : Text) :
    (y ++ ')' :: z).takeWhile p = y.takeWhile p := by
  induction y with
  | nil => simp [hp]
  | cons c y ih => simp [takeWhile_cons, ih]

theorem drop_takeWhile (p : Char → Bool) (y z : Text) :
    (y ++ z).drop (y.takeWhile p).length = y.drop (y.takeWhile p).length ++ z :=
  drop_append_of_le_length (takeWhile_sublist p).length_le

theorem skipQuote_paren (y z : Text) : skipQuote (y ++ ')' :: z) = skipQuote y ++ ')' :: z := by
  cases y with
  | nil => rfl
  | cons c y =>
    simp only [cons_append, skipQuote]
    split <;> rfl

theorem skipQuote_suffix (y : Text) : skipQuote y <:+ y := by
  unfold skipQuote
  split
  · split
    · exact suffix_cons _ _
    · exact suffix_rfl
  · exact suffix_rfl

theorem closing?_paren {y : Text} (hy : ')' ∉ y) (z : Text) :
    closing? false (y ++ ')' :: z) = if (skipQuote y).isEmpty then some z else none := by
  simp only [closing?, skipQuote_paren, Bool.false_eq_true, if_false]
  cases hq : skipQuote y with
  | nil => rfl
  | cons c q =>
    have hc : c ≠ ')' := by
      rintro rfl
      exact hy ((skipQuote_suffix y).subset (by simp [hq]))
    simp [hc]

/-- What is read as an address does not depend on what follows its closing parenthesis. -/
theorem address?_paren {y : Text} (hy : ')' ∉ y) (z : Text) :
    address? false (y ++ ')' :: z) = (address? false (y ++ [')'])).map fun p => (p.1, z) := by
  have hdrop : ∀ n, ')' ∉ y.drop n := fun n h => hy (mem_of_mem_drop h)
  have hskip : ∀ n m, ')' ∉ (skipQuote (y.drop n)).drop m := fun n m h =>
    hdrop n ((skipQuote_suffix _).subset (mem_of_mem_drop h))
  simp only [address?, takeWhile_paren (p := isSpace) rfl, drop_takeWhile, skipQuote_paren,
    takeWhile_paren (p := inAddress) rfl, closing?_paren (hdrop _), closing?_paren (hskip _ _)]
  split
  · split
    · rfl
    · split <;> rfl
  · split <;> rfl

variable {change : Text → Text} {y l u : Text}

theorem findLink_paren (hy : ')' ∉ y) (before z : Text) :
    findLink change before (urlMark ++ (y ++ ')' :: z)) =
      (address? false (y ++ [')'])).map fun p =>
        ((urlMark ++ (y ++ [')'])).length, urlMark ++ change p.1 ++ [')']) := by
  have hlength : (urlMark ++ (y ++ ')' :: z)).length - z.length =
      (urlMark ++ (y ++ [')'])).length := by
    simp
    omega
  simp only [findLink, after?_append, Option.bind_eq_bind, Option.bind_some,
    address?_paren hy z]
  cases address? false (y ++ [')']) with
  | none => rfl
  | some p => exact congrArg (fun n => some (n, _)) hlength

theorem findLink_eq_none {before s : Text} (h : ∀ z, s ≠ urlMark ++ z) :
    findLink change before s = none := by
  have hafter : after? urlMark s = none := by
    cases hs : after? urlMark s with
    | none => rfl
    | some z => exact absurd (eq_append_of_after? hs) (h z)
  simp [findLink, hafter]

theorem substituteFrom_findLink (before s : Text) :
    substituteFrom (findLink change) before s = substitute (findLink change) s :=
  substituteFrom_forget (fun _ _ => rfl) s

theorem substitute_cons {c : Char} {s : Text} (h : findLink change [] (c :: s) = none) :
    substitute (findLink change) (c :: s) = c :: substitute (findLink change) s := by
  rw [substitute_eq, substituteFrom_cons h, substituteFrom_findLink]

theorem substitute_link (hy : ')' ∉ y) (hread : address? false (y ++ [')']) = some (l, u))
    (z : Text) : substitute (findLink change) (urlMark ++ (y ++ ')' :: z)) =
      urlMark ++ (change l ++ ')' :: substitute (findLink change) z) := by
  have hfind : findLink change [] (urlMark ++ (y ++ ')' :: z)) =
      some ((urlMark ++ (y ++ [')'])).length, urlMark ++ change l ++ [')']) := by
    rw [findLink_paren hy, hread, Option.map_some]
  have hsplit : urlMark ++ (y ++ ')' :: z) = (urlMark ++ (y ++ [')'])) ++ z := by simp
  rw [hsplit] at hfind ⊢
  rw [substitute_eq, substituteFrom_found (by simp) hfind, substituteFrom_findLink]
  simp

/-! ## Links one after the other -/

/-- Every link of the text has its closing parenthesis in it. -/
def Closed (a : Text) : Prop := ∀ x y, a = x ++ (urlMark ++ y) → ')' ∈ y

theorem Closed.of_suffix {a b : Text} (h : Closed a) (hb : b <:+ a) : Closed b := by
  rintro x y rfl
  obtain ⟨w, rfl⟩ := hb
  exact h (w ++ x) y (by simp)

/-- A text that does not start with a link does not do so together with a link behind it. -/
theorem append_link_ne {a : Text} (hne : a ≠ []) (h : ∀ z, a ≠ urlMark ++ z) (r z : Text) :
    a ++ (urlMark ++ r) ≠ urlMark ++ z := by
  intro heq
  rcases append_eq_append_iff.mp heq with ⟨d, hmark, hd⟩ | ⟨d, ha, -⟩
  · obtain ⟨c, a, rfl⟩ := exists_cons_of_ne_nil hne
    have hu : 'u' ∈ d := by
      cases d with
      | nil => exact absurd (by simpa using hmark.symm) (h [])
      | cons e d =>
        obtain rfl : 'u' = e := by simpa [urlMark] using congrArg List.head? hd
        simp
    have htail : "rl(".toList = a ++ d := (List.cons.inj hmark).2
    exact absurd (htail ▸ mem_append_right a hu) (by decide)
  · exact h d ha

/-- Before a link, the links of a text are changed as if nothing followed. -/
theorem substitute_closed {a : Text} (ha : Closed a) (r : Text) :
    substitute (findLink change) (a ++ (urlMark ++ r)) =
      substitute (findLink change) a ++ substitute (findLink change) (urlMark ++ r) := by
  induction hn : a.length using Nat.strong_induction_on generalizing a with
  | _ n ih =>
    cases a with
    | nil => rfl
    | cons c a =>
      have htail := ih a.length (by simp [← hn]) (ha.of_suffix (suffix_cons c a)) rfl
      -- Where no link is read, one character is passed.
      have hpass : findLink change [] (c :: a) = none →
          findLink change [] (c :: (a ++ (urlMark ++ r))) = none →
          substitute (findLink change) (c :: a ++ (urlMark ++ r)) =
            substitute (findLink change) (c :: a) ++
              substitute (findLink change) (urlMark ++ r) := by
        intro hnone hnone'
        rw [cons_append, substitute_cons hnone', substitute_cons hnone, htail, cons_append]
      by_cases hmark : ∃ y, c :: a = urlMark ++ y
      · obtain ⟨y, hy⟩ := hmark
        obtain ⟨y, z, rfl, hparen⟩ := eq_append_cons_of_mem (ha [] y hy)
        cases hread : address? false (y ++ [')']) with
        | none =>
          have hnone : ∀ w, findLink change [] (urlMark ++ (y ++ ')' :: w)) = none := fun w => by
            rw [findLink_paren hparen, hread, Option.map_none]
          refine hpass (hy ▸ hnone z) ?_
          rw [← cons_append, hy]
          simpa using hnone (z ++ (urlMark ++ r))
        | some p =>
          have hsuffix : z <:+ c :: a := ⟨urlMark ++ (y ++ [')']), by simp [hy]⟩
          have hz := ih z.length (by rw [← hn, hy]; simp; omega) (ha.of_suffix hsuffix) rfl
          rw [hy, substitute_link hparen hread, append_assoc, append_assoc,
            cons_append, substitute_link hparen hread, hz]
          simp
      · have hmark' : ∀ y, c :: a ≠ urlMark ++ y := fun y hy => hmark ⟨y, hy⟩
        exact hpass (findLink_eq_none hmark')
          (findLink_eq_none (append_link_ne (cons_ne_nil c a) hmark' r))

/-- A link to a file, seen from the directory of a source. -/
structure IsLink (link : Text) : Prop where
  relative : Path.isAbsolute link = false
  filled : link ≠ []
  start : ∀ c ∈ link.head?, isSpace c = false
  plain : ∀ c ∈ link, inAddress c = true ∧ c ≠ '\\'
  near : isRemote link = false

namespace IsLink

variable {link : Text} (h : IsLink link)

include h

theorem notMem : ')' ∉ link := fun hmem =>
  absurd (h.plain _ hmem).1 (by decide)

theorem address? : address? false (link ++ [')']) = some (link, []) := by
  obtain ⟨c, r, rfl⟩ := exists_cons_of_ne_nil h.filled
  have hspace : isSpace c = false := h.start c rfl
  have hquote : isQuote c = false := by
    simpa [inAddress] using (Bool.and_eq_true_iff.mp (h.plain c (by simp)).1).2
  have hblanks : (c :: r ++ [')']).takeWhile isSpace = [] := by simp [hspace]
  have hstart : skipQuote (c :: r ++ [')']) = c :: r ++ [')'] := by simp [skipQuote, hquote]
  have haddress : (c :: r ++ [')']).takeWhile inAddress = c :: r := by
    rw [takeWhile_paren rfl, takeWhile_eq_self_iff]
    exact fun d hd => (h.plain d hd).1
  simp only [Bundle.address?, hblanks, length_nil, drop_zero, hstart, haddress,
    drop_left]
  rfl

end IsLink

theorem leading_eq {p : Text} (h : Path.isAbsolute p = true) (hp : ¬ ['/', '/'] <+: p) :
    Path.leading p = ['/'] := by
  obtain ⟨r, rfl⟩ := Path.exists_eq_of_isAbsolute h
  cases r with
  | nil => rfl
  | cons c r =>
    have hc : c ≠ '/' := by
      rintro rfl
      exact hp ⟨r, rfl⟩
    simp [Path.leading, hc]

section Relinked

variable {base path link : Text} (hbase : Path.isAbsolute base = true)
  (hbase' : ¬ ['/', '/'] <+: base) (hpath : Path.isAbsolute path = true)
  (hpath' : ¬ ['/', '/'] <+: path) (hslash : '\\' ∉ path) (hlink : IsLink link)

include hbase hbase' hpath hpath' hslash hlink

/-- A link leads to the same place from the directory as it did from its file. -/
theorem normal_relink (here : Text) :
    Path.normal (Path.join base (relink here base (some path) link)) =
      Path.normal (Path.join (Path.parent path) link) := by
  have hparent : Path.isAbsolute (Path.parent path) = true := by rwa [Path.isAbsolute_parent]
  have htarget := Path.leading_join hparent hlink.relative
  have hleading : Path.leading (Path.parent path) = ['/'] :=
    leading_eq hparent fun h => hpath' (h.trans (Path.parent_prefix path))
  have hplain : '\\' ∉ Path.join (Path.parent path) link := by
    have hback : '\\' ∉ Path.parent path := fun h => hslash ((Path.parent_prefix path).subset h)
    have hback' : '\\' ∉ link := fun h => (hlink.plain '\\' h).2 rfl
    simp only [Path.join, hlink.relative, Bool.false_eq_true, if_false]
    split <;> simp [hback, hback']
  have hway : '\\' ∉ Path.relative here (Path.join (Path.parent path) link) base :=
    Path.notMem_relative htarget.1 hplain (by decide) (by decide)
  have hkept : relink here base (some path) link =
      Path.relative here (Path.join (Path.parent path) link) base := by
    simp only [relink, hlink.near, Bool.false_eq_true, if_false]
    refine (map_congr_left fun c hc => ?_).trans (map_id _)
    have hne : c ≠ '\\' := by
      rintro rfl
      exact hway hc
    simp [hne]
  rw [hkept]
  exact Path.normal_join_relative htarget.1 hbase ((leading_eq hbase hbase').trans
    (htarget.2.trans hleading).symm)

end Relinked

/-- Wherever a link stands in a source that is made ready, it is replaced by one that leads to the
same place: followed from the directory that links are to be seen from, it is the path that the
link was when followed from the directory of its file.  This is the text that is printed, or that a
minifier is given where the result is to be short. -/
theorem links_lead_alike (p : Preparation) (here : Text) {path source before link after : Text}
    (hbase : Path.isAbsolute p.base = true) (hbase' : ¬ ['/', '/'] <+: p.base)
    (hpath : Path.isAbsolute path = true) (hpath' : ¬ ['/', '/'] <+: path) (hslash : '\\' ∉ path)
    (hlink : IsLink link) (hbefore : Closed before)
    (hsource : p.trim source = before ++ (urlMark ++ (link ++ ')' :: after))) :
    ∃ link', p.sheet here (some path) source =
        p.shorten p.minifiers.sheet (relinkAll here p.base (some path) before ++
          (urlMark ++ (link' ++ ')' :: relinkAll here p.base (some path) after))) ∧
      Path.normal (Path.join p.base link') = Path.normal (Path.join (Path.parent path) link) := by
  refine ⟨relink here p.base (some path) link, ?_,
    normal_relink hbase hbase' hpath hpath' hslash hlink here⟩
  rw [Preparation.sheet, hsource, relinkAll, substitute_closed hbefore,
    substitute_link hlink.notMem hlink.address?]
  rfl

def plainly : Preparation := { base := "/web".toList, compress := false }

theorem links_lead_alike_image :
    ∃ link', plainly.sheet [] (some "/web/css/a.css".toList) "a\x7bb:url(../i.png)\x7d".toList =
        "a\x7bb:".toList ++ (urlMark ++ (link' ++ ")\x7d".toList)) ∧
      Path.normal (Path.join "/web".toList link') = "/web/i.png".toList := by
  have hlink : IsLink "../i.png".toList :=
    { relative := by decide
      filled := by decide
      start := by rintro c ⟨⟩; decide
      plain := by simp [inAddress, Text.isQuote]
      near := by decide +kernel }
  have hbefore : Closed "a\x7bb:".toList := by
    intro x y h
    have hmark : urlMark <:+: "a\x7bb:".toList := ⟨x, y, by rw [h, List.append_assoc]⟩
    exact absurd hmark (by decide)
  have hpath : Path.isAbsolute "/web/css/a.css".toList = true := by decide
  have hsource : plainly.trim "a\x7bb:url(../i.png)\x7d".toList =
      "a\x7bb:".toList ++ (urlMark ++ ("../i.png".toList ++ ')' :: "\x7d".toList)) := by
    decide +kernel
  exact links_lead_alike plainly [] (by decide) (by decide) hpath (by decide) (by decide) hlink
    hbefore hsource

/-- A backslash in the name of a directory becomes a slash, and the link leads elsewhere. -/
theorem backslash_leads_elsewhere :
    plainly.sheet [] (some "/web/x\\y/a.css".toList) "url(i.png)".toList = "url(x/y/i.png)".toList ∧
      Path.normal (Path.join plainly.base "x/y/i.png".toList) ≠
        Path.normal (Path.join (Path.parent "/web/x\\y/a.css".toList) "i.png".toList) := by
  decide +kernel

end Bundle

end SheetPress
