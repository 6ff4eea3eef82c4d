import SheetPress.Expr.Grammar
import SheetPress.Proofs.Text.Cutting

/-!
# Reading goes wrong on mistakes in the text only

A token ahead was scanned with a set of kinds that it might have.  The procedures of the grammar
look at it again with other sets, but each with one that lies in the set before: what `before` a
procedure has to be allowed, and what is still allowed `after` it, is its contract (`Proceeds`).  So
no look widens the set.  No token is scanned twice either, since a token ends behind its start, and
the text that is left gets shorter with each token that is taken, so that no limit is reached.

Hence the only faults in an expression that was read are places in the text where something else
was expected (`Expr.clean_parse`).
-/

set_option autoImplicit false

namespace SheetPress

open List Text

/-- The fault is a mistake in the text. -/
def Fault.IsUnexpected (f : Fault) : Prop := ∃ position, f = .unexpected position

/-! ## Matching -/

namespace Kind

/-- What the matcher finds is neither empty nor longer than the text. -/
def Consumes (m : Text → Option Nat) : Prop := ∀ rest n, m rest = some n → 0 < n ∧ n ≤ rest.length

theorem length_le_of_after? {mark rest r : Text} (h : after? mark rest = some r) :
    mark.length ≤ rest.length := by
  rw [eq_append_of_after? h, length_append]
  exact Nat.le_add_right _ _

theorem length_takeWhile_le (p : Char → Bool) (s : Text) : (s.takeWhile p).length ≤ s.length :=
  (takeWhile_sublist p).length_le

theorem consumes_oneOf (a b : Char) : Consumes (oneOf a b) := by
  intro rest n h
  cases rest with
  | nil => cases h
  | cons c r => grind [oneOf]

theorem consumes_exactly (c : Char) (mark : Text) : Consumes (exactly (c :: mark)) := by
  intro rest n h
  unfold exactly startsWith at h
  split at h
  next hstart =>
    obtain ⟨r, hr⟩ := Option.isSome_iff_exists.mp hstart
    obtain rfl := Option.some.inj h
    exact ⟨by simp, length_le_of_after? hr⟩
  · cases h

theorem consumes_wholeWord (c : Char) (word : Text) (previous : Option Char) :
    Consumes (wholeWord (c :: word) previous) := by
  intro rest n h
  unfold wholeWord at h
  split at h
  next r hr =>
    have hn : (c :: word).length = n := by grind
    exact hn ▸ ⟨by simp, length_le_of_after? hr⟩
  · cases h

theorem consumes_quotedBy (q : Char) : Consumes (quotedBy q) := by
  intro rest n h
  cases rest with
  | nil => cases h
  | cons c r =>
    rw [quotedBy] at h
    split at h
    · obtain ⟨⟨inside, d, behind⟩, hcut, rfl⟩ := Option.map_eq_some_iff.mp h
      have hr := eq_append_of_cutAt? hcut
      simp only [hr, length_cons, length_append]
      omega
    · cases h

theorem consumes_unitAt (previous : Option Char) : Consumes (unitAt previous) := by
  intro rest n h
  unfold unitAt at h
  split at h
  · cases h
  · obtain ⟨u, hu, hn⟩ := exists_of_findSome?_eq_some h
    have hne : ∀ u ∈ Unit.all, u ≠ [] := by decide
    split at hn
    next r hr =>
      have hn : u.length = n := by grind
      exact hn ▸ ⟨length_pos_iff.mpr (hne u hu), length_le_of_after? hr⟩
    · cases hn

theorem consumes_numeralAt : Consumes numeralAt := by
  intro rest n h
  unfold numeralAt at h
  have hwhole := length_takeWhile_le isDigit rest
  dsimp only at h
  split at h
  next r hr =>
    have hpart := length_takeWhile_le isDigit r
    have hlength := congrArg length hr
    rw [length_drop, length_cons] at hlength
    grind
  · grind

theorem consumes_colourAt : Consumes colourAt := by
  intro rest n h
  unfold colourAt at h
  split at h
  next r =>
    have := length_takeWhile_le isHex r
    grind
  · cases h

theorem consumes_variableAt : Consumes variableAt := by
  intro rest n h
  unfold variableAt at h
  split at h
  next r =>
    have := length_takeWhile_le isName r
    grind
  · cases h

theorem consumes_minusAt : Consumes minusAt := by
  intro rest n h
  unfold minusAt at h
  grind

theorem consumes_signAt : Consumes signAt := by
  intro rest n h
  unfold signAt at h
  grind

theorem consumes_nameAt : Consumes nameAt := by
  intro rest n h
  cases rest with
  | nil => cases h
  | cons c r =>
    have := length_takeWhile_le isName r
    grind [nameAt]

theorem consumes_callAt : Consumes callAt := by
  intro rest n h
  unfold callAt at h
  split at h
  next m hm =>
    have := consumes_nameAt rest m hm
    grind
  · cases h

theorem consumes_matchAt {k : Kind} (hk : k ≠ .finish) (previous : Option Char) :
    Consumes (k.matchAt previous) := by
  cases k with
  | finish => exact absurd rfl hk
  | both | either | negation => exact consumes_wholeWord _ _ previous
  | truth =>
    intro rest n h
    rcases Option.or_eq_some_iff.mp h with h | ⟨-, h⟩
    · exact consumes_wholeWord _ _ previous rest n h
    · exact consumes_wholeWord _ _ previous rest n h
  | differs | equals | atMost | atLeast => exact consumes_exactly _ _
  | single | double => exact consumes_quotedBy _
  | unit => exact consumes_unitAt previous
  | numeral => exact consumes_numeralAt
  | colour => exact consumes_colourAt
  | «variable» => exact consumes_variableAt
  | call => exact consumes_callAt
  | name => exact consumes_nameAt
  | minus => exact consumes_minusAt
  | sign => exact consumes_signAt
  | colon | comma | opening | closing | times | «over» | plus | bang | below | above =>
    exact consumes_oneOf _ _

end Kind

/-! ## Scanning -/

namespace Cursor

theorem next_error {allowed : Option (List Kind)} {c : Cursor} {f : Fault}
    (h : c.next allowed = .error f) : f.IsUnexpected := by
  unfold next at h
  dsimp only at h
  split at h
  · cases h
  · cases h
    exact ⟨_, rfl⟩

/-- A token has one of the kinds that were allowed, stands ahead and, unless it is the end, takes
something of the text away. -/
theorem next_ok {allowed : Option (List Kind)} {c behind : Cursor} {t : Token}
    (h : c.next allowed = .ok (t, behind)) :
    (∀ ks, allowed = some ks → t.kind ∈ ks) ∧ c.position ≤ t.start ∧
      (t.kind ≠ .finish →
        t.start < behind.position ∧ behind.rest.length < c.rest.length) := by
  unfold next at h
  dsimp only at h
  split at h
  next t' ht =>
    cases h
    obtain ⟨k, hk, hmatch⟩ := exists_of_findSome?_eq_some ht
    obtain ⟨n, hn, rfl⟩ := Option.map_eq_some_iff.mp hmatch
    refine ⟨?_, by simp [skipBlanks, advance], fun hfinish => ?_⟩
    · rintro ks rfl
      simpa [candidates] using (mem_filter.mp hk).2
    · obtain ⟨hpos, hlength⟩ := Kind.consumes_matchAt hfinish _ _ _ hn
      simp only [skipBlanks, advance, length_drop] at hlength ⊢
      omega
  · cases h

end Cursor

/-! ## Looking ahead -/

namespace Reader

/-- How much of the text is left. -/
def left (r : Reader) : Nat := r.cursor.rest.length

/-- Every taken token began before the place behind it. -/
def Trail : Cursor → List (Token × Cursor) → Prop
  | _, [] => True
  | behind, (t, before) :: taken => t.start < behind.position ∧ Trail before taken

/-- The taken tokens lie behind, and the token ahead is one that was allowed and ends further on. -/
structure Sound (r : Reader) : Prop where
  trail : Trail r.cursor r.taken
  kind : ∀ a narrow, r.ahead = some a → a.allowed = some narrow → a.token.kind ∈ narrow
  ahead : ∀ a, r.ahead = some a → a.token.kind ≠ .finish →
    a.token.start < a.behind.position ∧ a.behind.rest.length < r.left

/-- The token ahead might have been of any of the kinds. -/
def Allows (ks : List Kind) (r : Reader) : Prop :=
  ∀ a narrow, r.ahead = some a → a.allowed = some narrow → ks ⊆ narrow

/-- The reader can go on with one of the kinds, and less than `d` of the text is left. -/
structure Ready (d : Nat) (ks : List Kind) (r : Reader) : Prop where
  sound : r.Sound
  allows : r.Allows ks
  left : r.left < d

variable {r r' : Reader} {ks : List Kind} {k : Kind} {d : Nat}

theorem Allows.mono {ks' : List Kind} (h : r.Allows ks) (hks : ks' ⊆ ks) : r.Allows ks' :=
  fun a narrow ha hn => List.Subset.trans hks (h a narrow ha hn)

theorem Ready.sub {ks' : List Kind} (h : r.Ready d ks) (hks : ks' ⊆ ks) : r.Ready d ks' :=
  ⟨h.sound, h.allows.mono hks, h.left⟩

theorem Ready.le {d' : Nat} (h : r.Ready d ks) (hd : d ≤ d') : r.Ready d' ks :=
  ⟨h.sound, h.allows, Nat.lt_of_lt_of_le h.left hd⟩

theorem Allows.of_fresh (h : r.ahead = none) : r.Allows ks := by
  intro a narrow ha
  rw [h] at ha
  cases ha

theorem sound_of_fresh (htrail : Trail r.cursor r.taken) (h : r.ahead = none) : r.Sound := by
  refine ⟨htrail, fun a narrow ha => ?_, fun a ha => ?_⟩ <;>
  · rw [h] at ha
    cases ha

theorem widens_eq_false {wider narrow : List Kind} (h : wider ⊆ narrow) :
    widens wider narrow = false := by
  have hall : wider.all (fun k => narrow.contains k) = true := by
    rw [all_eq_true]
    intro k hk
    exact contains_iff_mem.mpr (h hk)
  rw [widens, hall, Bool.not_true, Bool.and_false]

/-- A look at the next token only fails where the text does, and the token is then ahead. -/
theorem look_cases {allowed : Option (List Kind)} (hr : r.Sound)
    (hallowed : ∀ ks, allowed = some ks → r.Allows ks) :
    (∃ f, r.look allowed = .error f ∧ r.ahead = none ∧ r.cursor.next allowed = .error f) ∨
    ∃ a r', r.look allowed = .ok (a, r') ∧ r'.Sound ∧ r'.ahead = some a ∧
      (r.ahead = some a ∨ r.cursor.next allowed = .ok (a.token, a.behind)) ∧
      (∀ ks, r.Allows ks → (∀ wider, allowed = some wider → ks ⊆ wider) → r'.Allows ks) ∧
      r'.cursor = r.cursor ∧ r'.taken = r.taken := by
  unfold look
  cases hahead : r.ahead with
  | some a =>
    -- The token is there already, and the set does not get wider.
    refine .inr ⟨a, r, ?_, hr, hahead, .inl rfl, fun ks h _ => h, rfl, rfl⟩
    dsimp only
    split
    next wider narrow hnarrow =>
      rw [widens_eq_false (hallowed wider rfl a narrow hahead hnarrow)]
      rfl
    · rfl
  | none =>
    dsimp only
    cases hnext : r.cursor.next allowed with
    | error f => exact .inl ⟨f, rfl, rfl, rfl⟩
    | ok p =>
      obtain ⟨t, behind⟩ := p
      obtain ⟨hkind, hstart, hend⟩ := Cursor.next_ok hnext
      have hnew : r.taken.head?.any (fun p => p.1 == t) = false := by
        cases htaken : r.taken with
        | nil => rfl
        | cons p taken =>
          have htrail := hr.trail
          rw [htaken] at htrail
          have hne : p.1 ≠ t := by
            rintro rfl
            exact absurd htrail.1 (Nat.not_lt.mpr hstart)
          simpa using hne
      simp only [hnew]
      refine .inr ⟨⟨t, allowed, behind⟩, _, rfl, ⟨hr.trail, ?_, ?_⟩, rfl, .inr rfl, ?_, rfl,
        rfl⟩
      · rintro a narrow ⟨⟩ rfl
        exact hkind narrow rfl
      · rintro a ⟨⟩ hfinish
        exact hend hfinish
      · rintro ks - hks a narrow ⟨⟩ rfl
        exact hks narrow rfl

@[elab_as_elim]
theorem peek_cases {motive : Except Fault (Kind × Reader) → Prop} {b : Nat} (hr : r.Ready b ks)
    (error : ∀ f, f.IsUnexpected → motive (.error f))
    (ok : ∀ k r', r'.Ready b ks → r'.Allows [k] → r'.left = r.left → motive (.ok (k, r'))) :
    motive (r.peek (some ks)) := by
  unfold peek
  rcases look_cases hr.sound fun _ h => Option.some.inj h ▸ hr.allows with
    ⟨f, hlook, -, hf⟩ | ⟨a, r', hlook, hsound, hahead, -, hallows, hcursor, -⟩
  · rw [hlook]
    exact error f (Cursor.next_error hf)
  · have hleft : r'.left = r.left := by rw [left, left, hcursor]
    have hks := hallows ks hr.allows fun wider h => Option.some.inj h ▸ List.Subset.refl ks
    rw [hlook]
    refine ok a.token.kind r' ⟨hsound, hks, ?_⟩ ?_ hleft
    · exact hleft ▸ hr.left
    · intro a' narrow ha' hnarrow
      obtain rfl : a = a' := Option.some.inj (hahead ▸ ha')
      simpa using hsound.kind a narrow hahead hnarrow

theorem look_of_ahead {a : Ahead} (h : r.ahead = some a) (hks : r.Allows ks) :
    r.look (some ks) = .ok (a, r) := by
  unfold look
  rw [h]
  dsimp only
  split
  next wider narrow hnarrow hwider =>
    rw [Option.some.inj hnarrow] at hks
    rw [widens_eq_false (hks a narrow h hwider)]
    rfl
  · rfl

/-- A second look at a token, with fewer kinds, finds it again and changes nothing. -/
theorem peek_again {ks' : List Kind} (hr : r.Ready d ks) (hks : ks' ⊆ ks)
    (h : r.peek (some ks) = .ok (k, r')) : r'.peek (some ks') = .ok (k, r') := by
  unfold peek at h ⊢
  rcases look_cases hr.sound fun _ h => Option.some.inj h ▸ hr.allows with
    ⟨f, hlook, -, -⟩ | ⟨a, r₁, hlook, -, hahead, -, hallows, -, -⟩
  · rw [hlook] at h
    cases h
  · rw [hlook] at h
    obtain ⟨rfl, rfl⟩ := Prod.mk.inj (Except.ok.inj h)
    have hallowed := hallows ks hr.allows fun wider h => Option.some.inj h ▸ List.Subset.refl ks
    rw [look_of_ahead hahead (hallowed.mono hks)]

/-- What taking a token comes to.  Behind it, everything is allowed again. -/
theorem take_cases (hr : r.Sound) (hk : r.Allows [k]) :
    (∃ f, r.take k = .error f ∧ f.IsUnexpected) ∨
    ∃ t r', r.take k = .ok (t, r') ∧
      (k ≠ .finish → (∀ ks, r'.Ready r.left ks) ∧ ∃ t', r'.taken = (t', r.cursor) :: r.taken) := by
  unfold take
  rcases look_cases hr fun _ h => Option.some.inj h ▸ hk with
    ⟨f, hlook, -, hf⟩ | ⟨a, r', hlook, hsound, hahead, -, -, hcursor, htaken⟩
  · exact .inl ⟨f, by rw [hlook], Cursor.next_error hf⟩
  · rw [hlook]
    dsimp only
    split
    next hkind =>
      refine .inr ⟨_, _, rfl, fun hfinish => ?_⟩
      have hne : a.token.kind ≠ .finish := by simpa [beq_iff_eq.mp hkind] using hfinish
      obtain ⟨hstart, hleft⟩ := hsound.ahead a hahead hne
      refine ⟨fun ks => ⟨sound_of_fresh ⟨hstart, hsound.trail⟩ rfl, .of_fresh rfl, ?_⟩,
        a.token, by rw [hcursor, htaken]⟩
      simpa [left, hcursor] using hleft
    · exact .inl ⟨_, rfl, ⟨_, rfl⟩⟩

end Reader

/-! ## Faults of expressions -/

namespace Expr

mutual

/-- The faults that end the reading of an expression or of its parts. -/
def faults : Expr → List Fault
  | .word _ | .numeral _ | .string _ | .quoted _ | .truth _ | .colour _ | .variable _
  | .call _ none => []
  | .call _ (some items) | .row items | .list items => itemFaults items
  | .measured e _ | .negative e | .bang e | .negation e => faults e
  | .operation _ a b | .comparison _ a b | .both a b | .either a b | .instead a b =>
    faults a ++ faults b
  | .broken f => [f]
  | .halted items f => itemFaults items ++ [f]

/-- The faults of items. -/
def itemFaults : List (Option Text × Expr) → List Fault
  | [] => []
  | (_, e) :: rest => faults e ++ itemFaults rest

end

/-- If reading went wrong, it was for a mistake in the text. -/
def Clean (e : Expr) : Prop := ∀ f ∈ e.faults, f.IsUnexpected

variable {items : List (Option Text × Expr)}

theorem mem_itemFaults {f : Fault} : f ∈ itemFaults items ↔ ∃ p ∈ items, f ∈ p.2.faults := by
  induction items with
  | nil => simp [itemFaults]
  | cons p items ih => simp [itemFaults, ih]

theorem clean_broken {f : Fault} (hf : f.IsUnexpected) : (broken f).Clean := by
  simpa [Clean, faults] using hf

theorem clean_halted {f : Fault} (hf : f.IsUnexpected) (h : ∀ p ∈ items, p.2.Clean) :
    (halted items f).Clean := by
  intro g hg
  rw [faults, mem_append, mem_itemFaults, mem_singleton] at hg
  rcases hg with ⟨p, hp, hg⟩ | rfl
  · exact h p hp g hg
  · exact hf

theorem clean_items (h : ∀ p ∈ items, p.2.Clean) : ∀ f ∈ itemFaults items, f.IsUnexpected := by
  intro f hf
  obtain ⟨p, hp, hf⟩ := mem_itemFaults.mp hf
  exact h p hp f hf

end Expr

/-! ## Procedures of the grammar -/

namespace Grammar

variable {d' : Nat} {ks : List Kind} {e : Expr}

open Reader (Ready)

/-- A result of reading: no fault but mistakes in the text, and if there are none, a reader that can
go on with one of the kinds and has less than `d` of the text left. -/
structure Outcome (d : Nat) (ks : List Kind) (p : Parsed) : Prop where
  clean : p.1.Clean
  ready : ∀ r, p.2 = some r → r.Ready d ks

/-- The contract of a procedure: given a reader that can go on with one of the kinds `before` and
has less than `d` of the text left, it takes something of the text and can go on with one of
`after`. -/
def Proceeds (d : Nat) (before after : List Kind) (p : Reader → Parsed) : Prop :=
  ∀ r : Reader, r.Ready d before → Outcome r.left after (p r)

variable {d : Nat} {before after : List Kind}

theorem Outcome.sub {ks' : List Kind} {p : Parsed} (h : Outcome d ks p) (hks : ks' ⊆ ks) :
    Outcome d ks' p :=
  ⟨h.clean, fun r hr => (h.ready r hr).sub hks⟩

theorem Outcome.le {p : Parsed} (h : Outcome d ks p) (hd : d ≤ d') : Outcome d' ks p :=
  ⟨h.clean, fun r hr => (h.ready r hr).le hd⟩

theorem Outcome.broken {f : Fault} (hf : f.IsUnexpected) :
    Outcome d ks (.broken f, none) :=
  ⟨Expr.clean_broken hf, fun _ h => by cases h⟩

theorem Outcome.stops (he : e.Clean) : Outcome d ks (e, none) :=
  ⟨he, fun _ h => by cases h⟩

theorem Outcome.goesOn {r : Reader} (he : e.Clean) (hr : r.Ready d ks) :
    Outcome d ks (e, some r) :=
  ⟨he, fun _ h => Option.some.inj h ▸ hr⟩

theorem Outcome.haltedAfter {f : Fault} (he : e.Clean)
    (hf : f.IsUnexpected) : Outcome d ks (haltedAfter e f) :=
  .stops (Expr.clean_halted hf (by simpa using he))

theorem Proceeds.sub {after' : List Kind} {p : Reader → Parsed} (h : Proceeds d before after p)
    (hafter : after' ⊆ after) : Proceeds d before after' p :=
  fun r hr => (h r hr).sub hafter

theorem Outcome.of_take {ks' : List Kind} {k : Kind} {r : Reader} {failed : Fault → Parsed}
    {next : Text → Reader → Parsed} (hr : r.Ready d' ks') (hallows : [k] ⊆ ks') (hk : k ≠ .finish)
    (hfailed : ∀ f, f.IsUnexpected → Outcome d ks (failed f))
    (hnext : ∀ t r', (∀ ks, Ready r.left ks r') → Outcome d ks (next t r')) :
    Outcome d ks (match r.take k with | .error f => failed f | .ok (t, r') => next t r') := by
  rcases Reader.take_cases hr.sound (hr.allows.mono hallows) with
    ⟨f, htake, hf⟩ | ⟨t, r', htake, hbehind⟩
  · rw [htake]
    exact hfailed f hf
  · rw [htake]
    exact hnext t r' (hbehind hk).1

theorem Outcome.of_parsed {ks' : List Kind} {p : Parsed} {stop : Expr → Expr}
    {next : Expr → Reader → Parsed} (hp : Outcome d' ks' p)
    (hstop : ∀ e, e.Clean → (stop e).Clean)
    (hnext : ∀ e r, e.Clean → Ready d' ks' r → Outcome d ks (next e r)) :
    Outcome d ks (match p with | (e, none) => (stop e, none) | (e, some r) => next e r) := by
  rcases p with ⟨e, _ | r⟩
  · exact .stops (hstop e hp.clean)
  · exact hnext e r hp.clean (hp.ready r rfl)

/-! ### Atoms -/

section Atoms

variable {listOf : Reader → Parsed}

theorem proceeds_literal {k : Kind} (hk : k ≠ .finish) {make : Text → Expr}
    (hmake : ∀ t, (make t).Clean) : Proceeds d [k] after (literal k make) := by
  intro r hr
  unfold literal
  exact .of_take hr (by simp) hk (fun f hf => .broken hf)
    fun t r' hr' => .goesOn (hmake t) (hr' after)

theorem proceeds_closed (he : e.Clean) : Proceeds d [.closing] after (closed e) := by
  intro r hr
  unfold closed
  exact .of_take hr (by simp) (by decide) (fun f hf => .haltedAfter he hf)
    fun t r' hr' => .goesOn he (hr' after)

theorem proceeds_group (hlist : Proceeds d items rowEnds listOf) :
    Proceeds (d + 1) [.opening] after (group listOf) := by
  intro r hr
  have hleft := hr.left
  unfold group
  refine .of_take hr (by simp) (by decide) (fun f hf => .broken hf) fun t r₁ hr₁ => ?_
  have hlt := (hr₁ items).left
  have hinner := hlist r₁ ((hr₁ items).le (by omega))
  refine .of_parsed hinner (fun e he => he) fun e r₂ he hr₂ => ?_
  have hlt' := hr₂.left
  exact (proceeds_closed he r₂ (hr₂.sub (by decide))).le (by omega)

theorem clean_call {name : Text} (he : e.Clean) : (Expr.call name (some (itemsOf e))).Clean := by
  intro f hf
  rw [Expr.faults, Expr.mem_itemFaults] at hf
  obtain ⟨p, hp, hf⟩ := hf
  unfold itemsOf at hp
  split at hp
  · exact he f (by rw [Expr.faults, Expr.mem_itemFaults]; exact ⟨p, hp, hf⟩)
  · obtain rfl := mem_singleton.mp hp
    exact he f hf

theorem proceeds_application (hlist : Proceeds d items rowEnds listOf) :
    Proceeds (d + 1) [.call] after (application listOf) := by
  intro r hr
  have hleft := hr.left
  unfold application
  refine .of_take hr (by simp) (by decide) (fun f hf => .broken hf) fun name r₁ hr₁ => ?_
  have hr₁ := hr₁ [.opening]
  have hlt₁ := hr₁.left
  refine .of_take hr₁ (by simp) (by decide) (fun f hf => .broken hf) fun t r₂ hr₂ => ?_
  refine Reader.peek_cases (hr₂ arguments) (fun f hf => .broken hf) fun k r₃ hr₃ _ _ => ?_
  have hlt₃ := hr₃.left
  split
  next heq => cases heq
  next heq =>
    cases heq
    have hcall : (Expr.call name none).Clean := by simp [Expr.Clean, Expr.faults]
    exact (proceeds_closed hcall r₃ (hr₃.sub (by decide))).le (by omega)
  next heq =>
    cases heq
    have hinner := hlist r₃ ((hr₃.sub (by decide)).le (by omega))
    refine .of_parsed hinner (fun e he => he) fun e r₄ he hr₄ => ?_
    have hlt₄ := hr₄.left
    exact .of_take hr₄ (by decide) (by decide)
      (fun f hf => .haltedAfter he hf)
      fun t r₅ hr₅ => .goesOn (clean_call he) ((hr₅ after).le (by omega))

theorem proceeds_atom (hlist : Proceeds d items rowEnds listOf) :
    Proceeds (d + 1) atoms after (atom listOf) := by
  intro r hr
  unfold atom
  refine Reader.peek_cases hr (fun f hf => .broken hf) fun k r' hr' _ hsame => ?_
  rw [← hsame]
  have hliteral : ∀ {k : Kind} {make : Text → Expr}, k ∈ atoms → k ≠ .finish →
      (∀ t, (make t).faults = []) → Outcome r'.left after (literal k make r') := by
    intro k make hk hfinish hmake
    have hclean : ∀ t, (make t).Clean := fun t f hf => by rw [hmake t] at hf; cases hf
    exact proceeds_literal hfinish hclean r' (hr'.sub (by simpa using hk))
  dsimp only
  split
  · exact proceeds_group hlist r' (hr'.sub (by decide))
  · exact hliteral (by decide) (by decide) fun _ => rfl
  · exact proceeds_application hlist r' (hr'.sub (by decide))
  all_goals exact hliteral (by decide) (by decide) fun _ => rfl

theorem proceeds_measured (hlist : Proceeds d items rowEnds listOf) :
    Proceeds (d + 1) atoms afterProduct (measured listOf) := by
  intro r hr
  have hatom : Proceeds (d + 1) atoms afterAtom (atom listOf) := proceeds_atom hlist
  unfold measured
  refine .of_parsed (hatom r hr) (fun e he => he) fun e r₁ he hr₁ => ?_
  refine Reader.peek_cases hr₁ (fun f hf => .haltedAfter he hf) fun k r₂ hr₂ _ _ => ?_
  have hlt := hr₂.left
  split
  next heq => cases heq
  next heq =>
    cases heq
    refine .of_take hr₂ (by decide) (by decide)
      (fun f hf => .haltedAfter he hf) fun u r₃ hr₃ => ?_
    exact .goesOn he ((hr₃ afterProduct).le (by omega))
  next heq =>
    cases heq
    exact .goesOn he (hr₂.sub (by decide))

theorem proceeds_signed (hlist : Proceeds d items rowEnds listOf) (n : Nat) (hn : d + 1 ≤ n) :
    Proceeds (d + 1) operands afterProduct (signed listOf n) := by
  -- Each sign takes something of the text away, so its length bounds their number.
  have hsigned : ∀ n r, Ready (d + 1) operands r → r.left < n →
      Outcome r.left afterProduct (signed listOf n r) := by
    intro n
    induction n with
    | zero => intro r _ hleft; omega
    | succ n ih =>
      intro r hr hleft
      unfold signed
      refine Reader.peek_cases hr (fun f hf => .broken hf) fun k r₁ hr₁ _ hsame => ?_
      rw [← hsame]
      have hlt := hr₁.left
      -- Behind a sign there is another operand.
      have hnext : ∀ r₂, (∀ ks, Ready r₁.left ks r₂) →
          Outcome r₁.left afterProduct (signed listOf n r₂) := by
        intro r₂ hr₂
        have hlt' := (hr₂ operands).left
        exact (ih r₂ ((hr₂ operands).le (by omega)) (by omega)).le (by omega)
      split
      next heq => cases heq
      next heq =>
        cases heq
        refine .of_take hr₁ (by decide) (by decide)
          (fun f hf => .broken hf) fun t r₂ hr₂ => ?_
        exact .of_parsed (hnext r₂ hr₂) (fun e he => he) fun e r₃ he hr₃ => .goesOn he hr₃
      next heq =>
        cases heq
        exact .of_take hr₁ (by decide) (by decide)
          (fun f hf => .broken hf) fun t r₂ hr₂ => hnext r₂ hr₂
      next heq =>
        cases heq
        exact proceeds_measured hlist r₁ (hr₁.sub (by decide))
  exact fun r hr => hsigned n r hr (Nat.lt_of_lt_of_le hr.left hn)

end Atoms

/-! ### Operators -/

/-- The operators join two expressions without faults of their own. -/
def Joins (join : Kind → Option (Expr → Expr → Expr)) : Prop :=
  ∀ k both, join k = some both →
    k ≠ .finish ∧ ∀ a b : Expr, a.Clean → b.Clean → (both a b).Clean

theorem clean_of_append {a b c : Expr} (h : c.faults = a.faults ++ b.faults) (ha : a.Clean)
    (hb : b.Clean) : c.Clean := by
  intro f hf
  rw [h, mem_append] at hf
  exact hf.elim (ha f) (hb f)

theorem joins_of_mem (join : Kind → Option (Expr → Expr → Expr))
    (h : join ∈ [productOf, sumOf, comparisonOf, bothOf, eitherOf]) : Joins join := by
  intro k both hboth
  simp only [mem_cons, not_mem_nil, or_false] at h
  rcases h with rfl | rfl | rfl | rfl | rfl <;> cases k <;> cases hboth <;>
    exact ⟨by decide, fun a b => clean_of_append rfl⟩

section Chains

variable {operand : Reader → Parsed} {join : Kind → Option (Expr → Expr → Expr)}
  {operators : Option (List Kind)}

/-- Looking again at the operator that was found changes nothing, so the loops that do and those
that do not read alike. -/
theorem lookAgain_of_peek {b : Nat} {r : Reader} (hr : r.Ready b after)
    (hops : ∀ ks ∈ operators, ks ⊆ after) (k : Kind) (r' : Reader)
    (h : r.peek (some after) = .ok (k, r')) : lookAgain operators k r' = .ok (k, r') := by
  cases operators with
  | none => rfl
  | some ks => exact Reader.peek_again hr (hops ks rfl) h

theorem outcome_chain (hoperand : Proceeds d before after operand) (hjoin : Joins join)
    (hops : ∀ ks ∈ operators, ks ⊆ after) {b : Nat} (hb : b ≤ d) (n : Nat) (e : Expr) (r : Reader)
    (he : e.Clean) (hr : r.Ready b after) (hn : r.left < n) :
    Outcome b after (chain operand after operators join n e r) := by
  induction n generalizing e r with
  | zero => omega
  | succ n ih =>
    unfold chain
    have hagain := lookAgain_of_peek hr hops
    revert hagain
    refine Reader.peek_cases hr (fun f hf _ => .haltedAfter he hf)
      fun k r₁ hr₁ hk hsame hagain => ?_
    have hlt := hr₁.left
    dsimp only
    cases hboth : join k with
    | none => exact .goesOn he hr₁
    | some both =>
      obtain ⟨hfinish, hclean⟩ := hjoin k both hboth
      dsimp only
      rw [hagain k r₁ rfl]
      refine .of_take ⟨hr₁.sound, hk, hlt⟩ (List.Subset.refl [k]) hfinish
        (fun f hf => .haltedAfter he hf) fun t r₂ hr₂ => ?_
      have hlt₂ := (hr₂ before).left
      have hinner := hoperand r₂ ((hr₂ before).le (by omega))
      refine .of_parsed hinner (fun b hb => hclean e b he hb) fun b r₃ hb hr₃ => ?_
      have hlt₃ := hr₃.left
      exact ih (both e b) r₃ (hclean e b he hb) (hr₃.le (by omega))
        (by omega)

theorem proceeds_chained (hoperand : Proceeds d before after operand) (hjoin : Joins join)
    (hops : ∀ ks ∈ operators, ks ⊆ after) {n : Nat} (hn : d ≤ n) :
    Proceeds d before after (chained operand after operators join n) := by
  intro r hr
  have hleft := hr.left
  unfold chained
  refine .of_parsed (hoperand r hr) (fun e he => he) fun e r₁ he hr₁ => ?_
  have hlt := hr₁.left
  exact outcome_chain hoperand hjoin hops (by omega) n e r₁ he hr₁ (by omega)

end Chains

/-! ### Conditions -/

section Conditions

variable {listOf operand : Reader → Parsed}

theorem proceeds_compared (hlist : Proceeds d items rowEnds listOf) {n : Nat} (hn : d + 1 ≤ n) :
    Proceeds (d + 1) operands afterComparison (compared listOf n) := by
  have hsigned := proceeds_signed hlist n hn
  have hproduct : Proceeds (d + 1) operands afterSum (product listOf n) :=
    (proceeds_chained hsigned (joins_of_mem productOf (by simp)) (by decide) hn).sub (by decide)
  have hsum : Proceeds (d + 1) operands afterComparison (Grammar.sum listOf n) :=
    (proceeds_chained hproduct (joins_of_mem sumOf (by simp)) (by decide) hn).sub (by decide)
  exact proceeds_chained hsum (joins_of_mem comparisonOf (by simp)) (by decide) hn

theorem proceeds_negated (hoperand : Proceeds d items afterBoth operand) :
    Proceeds (d + 1) [.negation, .bang] afterBoth (negated operand) := by
  intro r hr
  unfold negated
  refine Reader.peek_cases hr (fun f hf => .broken hf) fun k r₁ hr₁ _ hsame => ?_
  rw [← hsame]
  have hlt := hr₁.left
  have hnext : ∀ r₂, (∀ ks, Ready r₁.left ks r₂) → Outcome r₁.left afterBoth (operand r₂) := by
    intro r₂ hr₂
    have hlt' := (hr₂ items).left
    exact (hoperand r₂ ((hr₂ items).le (by omega))).le (by omega)
  split
  next heq => cases heq
  all_goals
    rename_i heq
    cases heq
    refine .of_take hr₁ (by decide) (by decide) (fun f hf => .broken hf) fun t r₂ hr₂ => ?_
    exact .of_parsed (hnext r₂ hr₂) (fun e he => he) fun e r₃ he hr₃ => .goesOn he hr₃

theorem outcome_negations (hoperand : Proceeds d items afterBoth operand) (n : Nat) (r : Reader)
    (hr : r.Ready (d + 1) [.negation, .bang]) (hn : r.left < n) :
    Outcome r.left afterBoth (negations operand n r) := by
  induction n generalizing r with
  | zero => omega
  | succ n ih =>
    have hleft := hr.left
    unfold negations
    refine .of_parsed (proceeds_negated hoperand r hr) (fun e he => he) fun e r₁ he hr₁ => ?_
    refine Reader.peek_cases hr₁ (fun f hf => .haltedAfter he hf) fun k r₂ hr₂ _ _ => ?_
    have hlt := hr₂.left
    dsimp only
    split
    · have hrest := ih r₂ ((hr₂.sub (by decide)).le (by omega)) (by omega)
      exact ⟨clean_of_append rfl he hrest.clean,
        fun r₃ hr₃ => (hrest.ready r₃ hr₃).le (by omega)⟩
    · exact .goesOn he hr₂

theorem proceeds_condition (hlist : Proceeds d items rowEnds listOf) {loops : Nat}
    (hloops : d + 1 ≤ loops) (n : Nat) {b : Nat} (hb : b ≤ d + 1) (hn : b ≤ n) :
    Proceeds b items afterBoth (condition listOf loops n) := by
  induction n generalizing b with
  | zero => exact fun r hr => absurd hr.left (by omega)
  | succ n ih =>
    cases b with
    | zero => exact fun r hr => absurd hr.left (Nat.not_lt_zero _)
    | succ b =>
      intro r hr
      unfold condition
      refine Reader.peek_cases hr (fun f hf => .broken hf) fun k r₁ hr₁ _ hsame => ?_
      rw [← hsame]
      have hlt := hr₁.left
      dsimp only
      split
      · have hoperand : Proceeds b items afterBoth (condition listOf loops n) :=
          ih (by omega) (by omega)
        exact outcome_negations hoperand loops r₁ (hr₁.sub (by decide))
          (by omega)
      · exact (proceeds_compared hlist hloops r₁ ((hr₁.sub (by decide)).le hb)).sub (by decide)

theorem proceeds_item (hlist : Proceeds d items rowEnds listOf) {n : Nat} (hn : d + 1 ≤ n) :
    Proceeds (d + 1) items afterEither (item listOf n) := by
  have hcondition := proceeds_condition hlist hn n (Nat.le_refl _) hn
  have hboth : Proceeds (d + 1) items afterEither (conjunction listOf n) :=
    (proceeds_chained hcondition (joins_of_mem bothOf (by simp)) (by decide) hn).sub (by decide)
  exact proceeds_chained hboth (joins_of_mem eitherOf (by simp)) (by decide) hn

end Conditions

/-! ### Rows and lists -/

section Lists

variable {itemOf rowOf : Reader → Parsed}

theorem clean_row {es : List Expr} (h : ∀ e ∈ es, e.Clean) :
    ∀ p ∈ es.map fun e => ((none : Option Text), e), p.2.Clean := by
  intro p hp
  obtain ⟨e, he, rfl⟩ := mem_map.mp hp
  exact h e he

theorem outcome_rowFrom (hitem : Proceeds d items afterEither itemOf) {b : Nat} (hb : b ≤ d)
    (n : Nat) (done : List Expr) (r : Reader) (hdone : ∀ e ∈ done, e.Clean)
    (hr : r.Ready b afterItem) (hn : r.left < n) :
    Outcome b rowEnds (rowFrom itemOf n done r) := by
  induction n generalizing done r with
  | zero => omega
  | succ n ih =>
    have hsoFar := clean_row fun e he => hdone e (mem_reverse.mp he)
    unfold rowFrom
    refine Reader.peek_cases hr (fun f hf => .stops (Expr.clean_halted hf hsoFar))
      fun k r₁ hr₁ _ hsame => ?_
    have hlt := hr₁.left
    dsimp only
    split
    · have hends : r₁.Ready b rowEnds := hr₁.sub (by decide)
      split
      · exact .goesOn (hdone _ (by simp)) hends
      · exact .goesOn (Expr.clean_items hsoFar) hends
    · have hinner := hitem r₁ ((hr₁.sub (by decide)).le hb)
      rcases hp : itemOf r₁ with ⟨e, _ | r₂⟩ <;> rw [hp] at hinner
      · refine .stops (Expr.clean_items fun p hp => ?_)
        rcases mem_append.mp hp with hp | hp
        · exact hsoFar p hp
        · exact mem_singleton.mp hp ▸ hinner.clean
      · have hr₂ := hinner.ready r₂ rfl
        have hlt₂ := hr₂.left
        exact ih (e :: done) r₂ (by simpa using ⟨hinner.clean, hdone⟩)
          ((hr₂.sub (by decide)).le (by omega)) (by omega)

theorem proceeds_row (hitem : Proceeds d items afterEither itemOf) {n : Nat} (hn : d ≤ n) :
    Proceeds d items rowEnds (row itemOf n) := by
  intro r hr
  have hleft := hr.left
  unfold row
  refine .of_parsed (hitem r hr) (fun e he => he) fun e r₁ he hr₁ => ?_
  have hlt := hr₁.left
  exact outcome_rowFrom hitem (by omega) n [e] r₁ (by simpa using he)
    (hr₁.sub (by decide)) (by omega)

/-- A variable that turns out not to be the name of an item is given back. -/
theorem itemName_cases {r : Reader} (hr : r.Ready d items) :
    (∃ f, itemName r = .error f ∧ f.IsUnexpected) ∨
    ∃ name r', itemName r = .ok (name, r') ∧ r'.Ready (r.left + 1) items := by
  unfold itemName
  refine Reader.peek_cases hr (fun f hf => .inl ⟨f, rfl, hf⟩) fun k r₁ hr₁ _ hsame => ?_
  split
  next heq => cases heq
  next heq =>
    cases heq
    rcases Reader.take_cases hr₁.sound (hr₁.allows.mono (show [Kind.variable] ⊆ items by decide))
      with ⟨f, htake, hf⟩ | ⟨name, r₂, htake, hbehind⟩
    · rw [htake]
      exact .inl ⟨f, rfl, hf⟩
    rw [htake]
    obtain ⟨hr₂, t, htaken⟩ := hbehind (by decide)
    have hcolon := hr₂ [.colon]
    dsimp only
    unfold Reader.peek
    have hany : ∀ ks : List Kind, (none : Option (List Kind)) = some ks → r₂.Allows ks :=
      fun _ h => by cases h
    rcases Reader.look_cases hcolon.sound hany with
      ⟨f, hlook, -, hf⟩ | ⟨a, r₃, hlook, hsound, hahead, -, hallows, hcursor, htaken₃⟩
    · rw [hlook]
      exact .inl ⟨f, rfl, Cursor.next_error hf⟩
    rw [hlook]
    have hleft₃ : r₃.left < r.left := by
      rw [Reader.left, hcursor, ← hsame]
      exact hcolon.left
    dsimp only
    generalize a.token.kind = k
    split
    next heq => cases heq
    next heq =>
      cases heq
      have hallows₃ := hallows [.colon] hcolon.allows fun _ h => by cases h
      rcases Reader.take_cases hsound hallows₃ with ⟨f, htake, hf⟩ | ⟨t, r₄, htake, hbehind⟩
      · rw [htake]
        exact .inl ⟨f, rfl, hf⟩
      · rw [htake]
        have hr₄ := (hbehind (by decide)).1 items
        exact .inr ⟨_, r₄, rfl, hr₄.le (by omega)⟩
    next heq =>
      cases heq
      have hback : r₃.giveBack = .ok ⟨r₁.cursor, r₁.taken, none⟩ := by
        rw [Reader.giveBack, htaken₃, htaken]
      rw [hback]
      refine .inr ⟨_, _, rfl, Reader.sound_of_fresh hr₁.sound.trail rfl, .of_fresh rfl, ?_⟩
      change r₁.left < _
      omega
  next heq =>
    cases heq
    refine .inr ⟨none, r₁, rfl, hr₁.sound, hr₁.allows, by omega⟩

theorem outcome_listFrom (hrow : Proceeds d items rowEnds rowOf) {b : Nat} (hb : b ≤ d) (n : Nat)
    (done : List (Option Text × Expr)) (r : Reader) (hdone : ∀ p ∈ done, p.2.Clean)
    (hr : r.Ready b items) (hn : r.left < n) :
    Outcome r.left rowEnds (listFrom rowOf n done r) := by
  induction n generalizing done r b with
  | zero => omega
  | succ n ih =>
    have hleft := hr.left
    unfold listFrom
    rcases itemName_cases hr with ⟨f, hname, hf⟩ | ⟨name, r₁, hname, hr₁⟩
    · rw [hname]
      exact .stops (Expr.clean_halted hf fun p hp => hdone p (mem_reverse.mp hp))
    rw [hname]
    dsimp only
    have hlt₁ := hr₁.left
    have hinner := hrow r₁ (hr₁.le (by omega))
    have hitems : ∀ e : Expr, e.Clean → ∀ p ∈ ((name, e) :: done).reverse, p.2.Clean := by
      intro e he p hp
      rw [mem_reverse, mem_cons] at hp
      rcases hp with rfl | hp
      · exact he
      · exact hdone p hp
    refine .of_parsed hinner (fun e he => Expr.clean_items (hitems e he)) fun e r₂ he hr₂ => ?_
    refine Reader.peek_cases hr₂ (fun f hf => .stops (Expr.clean_halted hf (hitems e he)))
      fun k r₃ hr₃ _ _ => ?_
    have hlt₃ := hr₃.left
    split
    next heq => cases heq
    next heq =>
      cases heq
      refine .of_take hr₃ (by decide) (by decide)
        (fun f hf => .stops (Expr.clean_halted hf (hitems e he))) fun t r₄ hr₄ => ?_
      have hlt₄ := (hr₄ items).left
      have hdone' : ∀ p ∈ (name, e) :: done, p.2.Clean :=
        fun p hp => hitems e he p (mem_reverse.mpr hp)
      exact (ih (by omega) _ r₄ hdone' ((hr₄ items).le (by omega))
        (by omega)).le (by omega)
    next heq =>
      cases heq
      exact .goesOn (Expr.clean_items (hitems e he)) (hr₃.le (by omega))

/-- Lists nest less deep than the text is long. -/
theorem proceeds_listOf {loops : Nat} (d : Nat) (hd : d ≤ loops) :
    Proceeds d items rowEnds (listOf loops d) := by
  induction d with
  | zero => exact fun r hr => absurd hr.left (Nat.not_lt_zero _)
  | succ d ih =>
    intro r hr
    have hleft := hr.left
    have hitem := proceeds_item (ih (by omega)) hd
    exact outcome_listFrom (proceeds_row hitem hd) (Nat.le_refl _) loops [] r (by simp) hr
      (by omega)

end Lists

end Grammar

/-- Whatever the text, reading it only goes wrong on mistakes in it. -/
theorem Expr.clean_parse (source : Text) : (parse source).Clean := by
  have hstart : (Reader.ofText source).Ready (source.length + 2) Grammar.items := by
    refine ⟨Reader.sound_of_fresh trivial rfl, .of_fresh rfl, ?_⟩
    change source.length < _
    omega
  have hlist := Grammar.proceeds_listOf (source.length + 2) (Nat.le_refl _) _ hstart
  unfold parse
  dsimp only
  rcases hp : Grammar.listOf (source.length + 2) (source.length + 2) (Reader.ofText source) with
    ⟨e, _ | r⟩ <;> rw [hp] at hlist
  · exact hlist.clean
  · have hr := hlist.ready r rfl
    have hfinish : r.Allows [.finish] := hr.allows.mono (by decide)
    rcases Reader.take_cases hr.sound hfinish with ⟨f, htake, hf⟩ | ⟨t, r', htake, -⟩
    · simp only [htake]
      exact Expr.clean_halted hf (by simpa using hlist.clean)
    · simp only [htake]
      exact hlist.clean

end SheetPress
