import SheetPress.Proofs.Compile.Run
import SheetPress.Proofs.Compile.Ways
import SheetPress.Proofs.Source.Words

/-!
# What working on code changes

While code is worked on, properties go to one sink, nested rules to one owner, a loop may count in
the variables of the rule, and everything else that was there stays as it was.  `Worked` says so,
and says what was added; what two pieces of code add one after the other is added by both together.
-/

set_option autoImplicit false

namespace SheetPress.Compile

open List

variable {r : Nat} {s t : Session}

open Source (Outline counterName)

/-! ## Variables -/

/-- The variables of a rule. -/
def variablesOf (s : Session) (r : Nat) : Context := s.contexts.getD (s.rules.getD r {}).context []

/-- The names of all variables start with a dollar sign or a letter. -/
def Lettered (c : Context) : Prop :=
  ∀ t : Text, (∃ x ∈ t.head?, x ≠ '$' ∧ x.isLower = false) → c.get? t = none

/-- What is known of the variables of a rule: nothing, that loops may count in them, or what a loop
has counted to. -/
inductive Count where
  | unknown
  | still
  | reached (k : Int)

/-- The variables are as it is known. -/
def Count.Fits : Count → Context → Prop
  | .unknown, _ => True
  | .still, c => Lettered c ∧ c.Settled
  | .reached k, c => (Lettered c ∧ c.Settled) ∧ c.get? counterName = some (.word (Text.ofInt k))

/-- A context in which a loop has counted to a number. -/
def counted (k : Int) (c : Context) : Context :=
  c.set (.name counterName) (.word (Text.ofInt k))

/-- Variables stay as they are, or else a loop has counted in them. -/
def Recounts (counting : Prop) (c d : Context) : Prop :=
  d = c ∨ counting ∧ ∃ k, d = counted k c

/-- No number is the name of a variable. -/
theorem Lettered.get?_ofInt {c : Context} (h : Lettered c) (k : Int) :
    c.get? (Text.ofInt k) = none := by
  obtain ⟨x, rest, hk⟩ := exists_cons_of_ne_nil (Source.ofInt_ne_nil k)
  have hmem : x ∈ Text.ofInt k := by simp [hk]
  obtain ⟨hname, hlower, -⟩ := Source.isName_of_mem_ofInt hmem
  refine h _ ⟨x, by simp [hk], ?_, hlower⟩
  rintro rfl
  exact absurd hname (by decide)

theorem Lettered.counted {c : Context} (h : Lettered c) (k : Int) : Lettered (counted k c) := by
  intro t ht
  rw [Compile.counted, Context.get?_set_of_ne _ _ fun heq => ?_, h t ht]
  obtain rfl := Key.name.inj heq
  obtain ⟨x, hx, hne, -⟩ := ht
  exact hne (Option.some.inj hx).symm

/-- Counting leaves what is known of variables that loops may count in. -/
theorem fits_counted {c : Context} (h : Count.still.Fits c) (k : Int) :
    Count.still.Fits (counted k c) := by
  have hne : Text.ofInt k ≠ counterName := fun heq => by
    have hnone := Source.isName_of_mem_ofInt (k := k) (c := '$') (by rw [heq]; decide)
    exact absurd hnone.1 (by decide)
  exact ⟨h.1.counted k, h.2.set (h.1.get?_ofInt k) hne⟩

namespace Recounts

variable {p q : Prop} {c d e : Context}

theorem trans (h : Recounts p c d) (h' : Recounts q d e) (hq : q → p) : Recounts p c e := by
  rcases h' with rfl | ⟨hcounting, k, rfl⟩
  · exact h
  · refine .inr ⟨hq hcounting, k, ?_⟩
    rcases h with rfl | ⟨-, l, rfl⟩
    · rfl
    · exact Context.set_set c _ _ _

theorem fits {count : Count} (h : Recounts p c d) (hp : p → count = .still) (hc : count.Fits c) :
    count.Fits d := by
  rcases h with rfl | ⟨hcounting, k, rfl⟩
  · exact hc
  · rw [hp hcounting] at hc ⊢
    exact fits_counted hc k

end Recounts

/-- No two rules share their variables. -/
structure Apart (rules : Array Rule) (contexts : Array Context) : Prop where
  bound : ∀ r < rules.size, (rules.getD r {}).context < contexts.size
  distinct : ∀ r < rules.size, ∀ q < rules.size,
    (rules.getD r {}).context = (rules.getD q {}).context → r = q

theorem Apart.push {rules : Array Rule} {contexts : Array Context} (h : Apart rules contexts)
    (c : Context) {r : Rule} (hr : r.context = contexts.size) :
    Apart (rules.push r) (contexts.push c) := by
  have hold : ∀ q < rules.size, (rules.push r).getD q {} = rules.getD q {} := fun q hq =>
    getD_of_isPrefix (prefix_push _ _) hq _
  have hnew : (rules.push r).getD rules.size {} = r := getD_push_size _ _ _
  have hcases : ∀ q < (rules.push r).size, q < rules.size ∨ q = rules.size := by
    intro q hq
    rw [Array.size_push] at hq
    omega
  constructor
  · intro q hq
    rw [Array.size_push]
    rcases hcases q hq with hq | rfl
    · rw [hold q hq]
      exact Nat.lt_succ_of_lt (h.bound q hq)
    · rw [hnew, hr]
      exact Nat.lt_succ_self _
  · intro q hq p hp heq
    rcases hcases q hq with hq | rfl <;> rcases hcases p hp with hp | rfl
    · rw [hold q hq, hold p hp] at heq
      exact h.distinct q hq p hp heq
    · rw [hold q hq, hnew, hr] at heq
      exact absurd heq (Nat.ne_of_lt (h.bound q hq))
    · rw [hnew, hold p hp, hr] at heq
      exact absurd heq.symm (Nat.ne_of_lt (h.bound p hp))
    · rfl

theorem Apart.modify {rules : Array Rule} {contexts : Array Context} (h : Apart rules contexts)
    (x : Nat) {g : Rule → Rule} (hg : ∀ rule, (g rule).context = rule.context) :
    Apart (rules.modify x g) contexts := by
  have hcontext := field_modify Rule.context hg rules x
  constructor
  · intro r hr
    rw [Array.size_modify] at hr
    rw [hcontext]
    exact h.bound r hr
  · intro r hr q hq heq
    rw [Array.size_modify] at hr hq
    rw [hcontext, hcontext] at heq
    exact h.distinct r hr q hq heq

/-! ## What is added -/

/-- A rule that waits for its turn, the outline of its code, and what is known of its variables. -/
structure Node where
  selectors : Text
  media : Option (List Text)
  body : Outline
  count : Count

/-- What code adds: properties with their values, and nested rules. -/
structure Outcome where
  properties : List (Text × Option Text) := []
  nested : List Node := []

namespace Outcome

instance : Append Outcome :=
  ⟨fun a b => ⟨a.properties ++ b.properties, a.nested ++ b.nested⟩⟩

@[simp] theorem properties_append (a b : Outcome) :
    (a ++ b).properties = a.properties ++ b.properties := rfl

@[simp] theorem nested_append (a b : Outcome) : (a ++ b).nested = a.nested ++ b.nested := rfl

/-- What several pieces of code add one after the other. -/
def concat (outs : List Outcome) : Outcome := outs.foldr (· ++ ·) {}

end Outcome

/-! ## Related lists -/

section Related

variable {α β : Type} {R S : α → β → Prop} {p : α → Prop} {l : List α} {l' : List β}

theorem forall_mem_of_forall₂ (h : List.Forall₂ R l l') (hp : ∀ a b, R a b → p a) :
    ∀ a ∈ l, p a :=
  ((forall₂_and_left l l').mp (h.imp fun a b hab => ⟨hp a b hab, hab⟩)).1

theorem forall₂_imp_of_mem (h : List.Forall₂ R l l') (hl : ∀ a ∈ l, p a)
    (himp : ∀ a b, p a → R a b → S a b) : List.Forall₂ S l l' :=
  ((forall₂_and_left l l').mpr ⟨hl, h⟩).imp fun a b hab => himp a b hab.1 hab.2

end Related

/-! ## Rules that wait -/

/-- A rule of the session waits for its turn: nothing has been added to it, and it knows the
given settings. -/
structure Waiting (known : Settings) (s : Session) (r : Nat) (n : Node) : Prop where
  bound : r < s.rules.size
  even : n.body.AllEven
  items : ∃ line, Source.items (s.rules.getD r {}).code = ⟨n.body.items line, none⟩
  selectors : (s.rules.getD r {}).selectors = n.selectors
  media : (s.rules.getD r {}).media = n.media
  deps : (s.rules.getD r {}).deps = []
  sink : ∃ i < s.sinks.size, sinkOf s r = some i ∧ s.sinks.getD i [] = []
  settings : (s.rules.getD r {}).settings < s.settings.size ∧
    s.settings.getD (s.rules.getD r {}).settings [] = known
  context : n.count.Fits (variablesOf s r)

theorem Waiting.placed {known : Settings} {n : Node}
    (h : Waiting known s r n) :
    r < s.rules.size ∧ ∃ i < s.sinks.size, sinkOf s r = some i := by
  obtain ⟨i, hi, hsink, _⟩ := h.sink
  exact ⟨h.bound, i, hi, hsink⟩

/-- A rule and what it uses are the same in two sessions. -/
structure Same (s t : Session) (r : Nat) : Prop where
  bound : r < s.rules.size → r < t.rules.size
  rule : t.rules.getD r {} = s.rules.getD r {}
  sink : ∀ i ∈ sinkOf s r, i < s.sinks.size →
    i < t.sinks.size ∧ t.sinks.getD i [] = s.sinks.getD i []
  settings : (s.rules.getD r {}).settings < s.settings.size →
    (s.rules.getD r {}).settings < t.settings.size ∧
      t.settings.getD (s.rules.getD r {}).settings [] =
        s.settings.getD (s.rules.getD r {}).settings []
  context : variablesOf t r = variablesOf s r

theorem Same.sinkOf_eq (h : Same s t r) : sinkOf t r = sinkOf s r := by
  simp only [sinkOf, h.rule]

theorem Same.trans {u : Session} (h : Same s t r) (h' : Same t u r) :
    Same s u r where
  bound := fun hr => h'.bound (h.bound hr)
  rule := h'.rule.trans h.rule
  sink := fun i hi hlt => by
    obtain ⟨hlt₁, h₁⟩ := h.sink i hi hlt
    obtain ⟨hlt₂, h₂⟩ := h'.sink i (by rwa [h.sinkOf_eq]) hlt₁
    exact ⟨hlt₂, h₂.trans h₁⟩
  settings := fun hlt => by
    obtain ⟨hlt₁, h₁⟩ := h.settings hlt
    obtain ⟨hlt₂, h₂⟩ := h'.settings (by rwa [h.rule])
    rw [h.rule] at hlt₂ h₂
    exact ⟨hlt₂, h₂.trans h₁⟩
  context := h'.context.trans h.context

theorem Waiting.same {known : Settings} {n : Node}
    (hw : Waiting known s r n) (h : Same s t r) : Waiting known t r n := by
  obtain ⟨i, hi, hsink, hempty⟩ := hw.sink
  obtain ⟨hi', hcontent⟩ := h.sink i hsink hi
  constructor
  · exact h.bound hw.bound
  · exact hw.even
  · rw [h.rule]
    exact hw.items
  · rw [h.rule, hw.selectors]
  · rw [h.rule, hw.media]
  · rw [h.rule, hw.deps]
  · exact ⟨i, hi', by rw [h.sinkOf_eq, hsink], hcontent.trans hempty⟩
  · rw [h.rule]
    obtain ⟨hlt, hsame⟩ := h.settings hw.settings.1
    exact ⟨hlt, hsame.trans hw.settings.2⟩
  · rw [h.context]
    exact hw.context

/-- Code is worked on in a frame: the rule fills sink `k`, knows the given settings and stands in
the given selectors. -/
structure Stands (known : Settings) (k : Nat) (outer : List Text) (e : Count) (s : Session)
    (f : Frame) : Prop where
  bound : f.rule < s.rules.size
  sink : sinkOf s f.rule = some k
  sinkBound : k < s.sinks.size
  media : (s.rules.getD f.rule {}).media = f.media
  settings : (s.rules.getD f.rule {}).settings < s.settings.size ∧
    s.settings.getD (s.rules.getD f.rule {}).settings [] = known
  ownerBound : f.owner < s.owners.size
  selectors : (s.owners.getD f.owner ⟨[], [], []⟩).selectors = outer
  context : e.Fits (variablesOf s f.rule)
  apart : Apart s.rules s.contexts
  faithful : Faithful s.pool s.results
  scope : ∀ t ∈ f.scope, '$' ∉ t ∧ '#' ∉ t

/-! ## What stays and what is added -/

/-- Nothing changes but tables that grow, the sink `k`, the owner `o`, the counter of a loop in
rules that fill `k`, and kept results. -/
structure Keeps (k o : Nat) (e : Count) (s t : Session) : Prop where
  rules : s.rules.toList <+: t.rules.toList
  settings : s.settings.toList <+: t.settings.toList
  sinksSize : s.sinks.size ≤ t.sinks.size
  sinks : ∀ i < s.sinks.size, i ≠ k → t.sinks.getD i [] = s.sinks.getD i []
  ownersSize : t.owners.size = s.owners.size
  selectors : (t.owners.getD o ⟨[], [], []⟩).selectors = (s.owners.getD o ⟨[], [], []⟩).selectors
  context : ∀ r < s.rules.size,
    Recounts (e = .still ∧ sinkOf s r = some k) (variablesOf s r) (variablesOf t r)
  apart : Apart t.rules t.contexts
  faithful : Faithful t.pool t.results
  queue : t.queue = s.queue
  order : t.order = s.order
  parts : t.parts = s.parts
  pool : Richer s.pool t.pool

namespace Keeps

variable {k o : Nat} {e : Count} {s t u : Session}

theorem refl (k o : Nat) (e : Count) (hapart : Apart s.rules s.contexts)
    (h : Faithful s.pool s.results) : Keeps k o e s s where
  rules := prefix_rfl
  settings := prefix_rfl
  sinksSize := Nat.le_refl _
  sinks := fun _ _ _ => rfl
  ownersSize := rfl
  selectors := rfl
  context := fun _ _ => .inl rfl
  apart := hapart
  faithful := h
  queue := rfl
  order := rfl
  parts := rfl
  pool := .refl _

theorem rule (h : Keeps k o e s t) {r : Nat} (hr : r < s.rules.size) :
    t.rules.getD r {} = s.rules.getD r {} :=
  getD_of_isPrefix h.rules hr _

theorem sinkOf_eq (h : Keeps k o e s t) {r : Nat} (hr : r < s.rules.size) :
    sinkOf t r = sinkOf s r := by
  simp only [sinkOf, h.rule hr]

theorem trans (h : Keeps k o e s t) (h' : Keeps k o e t u) : Keeps k o e s u where
  rules := h.rules.trans h'.rules
  settings := h.settings.trans h'.settings
  sinksSize := Nat.le_trans h.sinksSize h'.sinksSize
  sinks := fun i hi hk => by
    rw [h'.sinks i (Nat.lt_of_lt_of_le hi h.sinksSize) hk, h.sinks i hi hk]
  ownersSize := h'.ownersSize.trans h.ownersSize
  selectors := h'.selectors.trans h.selectors
  context := fun r hr => by
    have hr' := Nat.lt_of_lt_of_le hr (size_le_of_isPrefix h.rules)
    exact (h.context r hr).trans (h'.context r hr') fun hcounting => by
      rwa [h.sinkOf_eq hr] at hcounting
  apart := h'.apart
  faithful := h'.faithful
  queue := h'.queue.trans h.queue
  order := h'.order.trans h.order
  parts := h'.parts.trans h.parts
  pool := h.pool.trans h'.pool

theorem still (h : Keeps k o e s t) (he : e ≠ .still) : Keeps k o .still s t :=
  { h with
    context := fun r hr => (h.context r hr).imp_right fun hcounting => absurd hcounting.1.1 he }

/-- A rule is the same afterwards, unless its sink is the one that is filled. -/
theorem same (h : Keeps k o e s t) {r : Nat} (hr : r < s.rules.size)
    (hk : sinkOf s r ≠ some k) : Same s t r where
  bound := fun _ => Nat.lt_of_lt_of_le hr (size_le_of_isPrefix h.rules)
  rule := h.rule hr
  sink := fun i hi hlt => by
    have hne : i ≠ k := by
      rintro rfl
      exact hk hi
    exact ⟨Nat.lt_of_lt_of_le hlt h.sinksSize, h.sinks i hlt hne⟩
  settings := fun hlt =>
    ⟨Nat.lt_of_lt_of_le hlt (size_le_of_isPrefix h.settings), getD_of_isPrefix h.settings hlt _⟩
  context := (h.context r hr).resolve_right fun hcounting => hk hcounting.1.2

theorem stands {known : Settings} {outer : List Text} {f : Frame} (h : Keeps k f.owner e s t)
    (hf : Stands known k outer e s f) : Stands known k outer e t f := by
  have hrule := h.rule hf.bound
  constructor
  · exact Nat.lt_of_lt_of_le hf.bound (size_le_of_isPrefix h.rules)
  · rw [h.sinkOf_eq hf.bound, hf.sink]
  · exact Nat.lt_of_lt_of_le hf.sinkBound h.sinksSize
  · rw [hrule, hf.media]
  · rw [hrule]
    exact ⟨Nat.lt_of_lt_of_le hf.settings.1 (size_le_of_isPrefix h.settings),
      by rw [getD_of_isPrefix h.settings hf.settings.1, hf.settings.2]⟩
  · rw [h.ownersSize]
    exact hf.ownerBound
  · rw [h.selectors, hf.selectors]
  · exact (h.context _ hf.bound).fits And.left hf.context
  · exact h.apart
  · exact h.faithful
  · exact hf.scope

end Keeps

/-- The sinks of some rules are different, and were not there before. -/
structure Fresh (s t : Session) (rules : List Nat) : Prop where
  nodup : (rules.map (sinkOf t)).Nodup
  new : ∀ r ∈ rules, ∀ i ∈ sinkOf t r, s.sinks.size ≤ i

/-- Working on code has added its outcome. -/
structure Worked (known : Settings) (k o : Nat) (e : Count) (s t : Session) (out : Outcome) : Prop
    extends Keeps k o e s t where
  filled : ∃ ps : List Sheet.Property, t.sinks.getD k [] = ps.reverse ++ s.sinks.getD k [] ∧
    ps.map (fun p => (p.name, p.value)) = out.properties
  nested : ∃ rules : List Nat,
    t.owners.getD o ⟨[], [], []⟩ =
      ⟨(s.owners.getD o ⟨[], [], []⟩).selectors,
        (s.owners.getD o ⟨[], [], []⟩).parents,
        (s.owners.getD o ⟨[], [], []⟩).children ++ rules⟩ ∧
    List.Forall₂ (Waiting known t) rules out.nested ∧ Fresh s t rules

namespace Worked

variable {known : Settings} {k o : Nat} {e : Count} {s t u : Session}

theorem of_keeps (h : Keeps k o e s t) (hsink : t.sinks.getD k [] = s.sinks.getD k [])
    (howner : t.owners.getD o ⟨[], [], []⟩ = s.owners.getD o ⟨[], [], []⟩) :
    Worked known k o e s t {} where
  toKeeps := h
  filled := ⟨[], by simpa using hsink, rfl⟩
  nested := ⟨[], by simp [howner], .nil, ⟨by simp, by simp⟩⟩

theorem still {out : Outcome} (h : Worked known k o e s t out) (he : e ≠ .still) :
    Worked known k o .still s t out :=
  { h with toKeeps := h.toKeeps.still he }

theorem trans {a b : Outcome} (h : Worked known k o e s t a) (h' : Worked known k o e t u b)
    (hk : k < s.sinks.size) : Worked known k o e s u (a ++ b) where
  toKeeps := h.toKeeps.trans h'.toKeeps
  filled := by
    obtain ⟨ps, hps, hshape⟩ := h.filled
    obtain ⟨qs, hqs, hshape'⟩ := h'.filled
    exact ⟨ps ++ qs, by simp [hps, hqs], by simp [hshape, hshape']⟩
  nested := by
    obtain ⟨rs, hrs, hwait, hfresh⟩ := h.nested
    obtain ⟨rs', hrs', hwait', hfresh'⟩ := h'.nested
    -- The first rules go on waiting, since their sinks are newer than `k`.
    have hbound : ∀ r ∈ rs, r < t.rules.size ∧ ∃ i < t.sinks.size, sinkOf t r = some i :=
      forall_mem_of_forall₂ hwait fun _ _ hn => hn.placed
    have hstay : ∀ r ∈ rs, sinkOf u r = sinkOf t r := fun r hr =>
      h'.toKeeps.sinkOf_eq (hbound r hr).1
    have hother : ∀ r ∈ rs, sinkOf t r ≠ some k := fun r hr hsink =>
      absurd (hfresh.new r hr k hsink) (by omega)
    have hwaits : List.Forall₂ (Waiting known u) rs a.nested :=
      forall₂_imp_of_mem hwait hother fun _ _ hk hn => hn.same (h'.toKeeps.same hn.bound hk)
    refine ⟨rs ++ rs', ?_, ?_, ?_⟩
    · rw [hrs', hrs]
      simp
    · exact rel_append hwaits hwait'
    · have hold : (rs.map (sinkOf u)) = rs.map (sinkOf t) := map_congr_left hstay
      constructor
      · rw [map_append, hold]
        refine hfresh.nodup.append hfresh'.nodup ?_
        intro x hx hx'
        obtain ⟨r, hr, rfl⟩ := mem_map.mp hx
        obtain ⟨r', hr', hsame⟩ := mem_map.mp hx'
        obtain ⟨i, hi, hsink⟩ := (hbound r hr).2
        have hnew := hfresh'.new r' hr' i (by rw [hsame, hsink]; rfl)
        omega
      · intro r hr i hi
        rcases mem_append.mp hr with hr | hr
        · exact hfresh.new r hr i (by rwa [← hstay r hr])
        · exact Nat.le_trans h.sinksSize (hfresh'.new r hr i hi)

end Worked

/-! ## Single additions -/

section Additions

variable {known : Settings} {k : Nat} {outer : List Text} {e : Count} {s : Session} {f : Frame}

theorem Stands.keeps_self (hf : Stands known k outer e s f) : Keeps k f.owner e s s :=
  .refl k f.owner e hf.apart hf.faithful

theorem Stands.worked_values (hf : Stands known k outer e s f) {pool : Pool}
    {results : List (Text × Value)} (hpool : Richer s.pool pool)
    (hresults : Faithful pool results) : Worked known k f.owner e s { s with pool, results } {} :=
  .of_keeps { hf.keeps_self with faithful := hresults, pool := hpool } rfl rfl

theorem Stands.worked_property (hf : Stands known k outer e s f) (p : Sheet.Property)
    {results : List (Text × Value)} (hresults : Faithful s.pool results) :
    Worked known k f.owner e s { s with results, sinks := s.sinks.modify k (p :: ·) }
      { properties := [(p.name, p.value)] } where
  toKeeps :=
    { hf.keeps_self with
      sinksSize := by simp
      sinks := fun i _ hne => getD_modify_of_ne _ hne _
      faithful := hresults }
  filled := ⟨[p], by simpa using getD_modify_self (p :: ·) hf.sinkBound [], rfl⟩
  nested := ⟨[], by simp, .nil, ⟨by simp, by simp⟩⟩

/-- The variables of rules that were there are the same after one more has been made. -/
theorem Stands.recounts_push (hf : Stands known k outer e s f) (c : Context) (r : Rule)
    (p : Nat → Prop) : ∀ q < s.rules.size, Recounts (p q) (variablesOf s q)
      ((s.contexts.push c).getD ((s.rules.push r).getD q {}).context []) := by
  intro q hq
  rw [getD_of_isPrefix (prefix_push s.rules r) hq,
    getD_of_isPrefix (prefix_push s.contexts c) (hf.apart.bound q hq)]
  exact .inl rfl

/-- A rule is spawned that shares the sink and the settings of the rule of the frame. -/
theorem Stands.worked_spawn (hf : Stands known k outer e s f) (c : Context) {r : Rule}
    (hr : r.context = s.contexts.size) :
    Worked known k f.owner e s
      { s with contexts := s.contexts.push c, rules := s.rules.push r } {} :=
  .of_keeps
    { hf.keeps_self with
      rules := prefix_push _ _
      context := hf.recounts_push c r _
      apart := hf.apart.push c hr } rfl rfl

/-- The session in which a loop has counted to a number in the variables of a rule. -/
def counting (s : Session) (r : Nat) (i : Int) : Session :=
  { s with contexts := s.contexts.modify (s.rules.getD r {}).context (counted i) }

theorem Stands.variablesOf_counting (hf : Stands known k outer e s f) (i : Int) :
    variablesOf (counting s f.rule i) f.rule = counted i (variablesOf s f.rule) :=
  getD_modify_self _ (hf.apart.bound _ hf.bound) _

theorem Stands.worked_count (hf : Stands known k outer .still s f) (i : Int) :
    Worked known k f.owner .still s (counting s f.rule i) {} := by
  refine .of_keeps { hf.keeps_self with context := fun r hr => ?_, apart := ?_ } rfl rfl
  · by_cases hsame : r = f.rule
    · subst hsame
      exact .inr ⟨⟨rfl, hf.sink⟩, i, hf.variablesOf_counting i⟩
    · refine .inl (getD_modify_of_ne _ (fun heq => hsame ?_) _)
      exact hf.apart.distinct r hr f.rule hf.bound heq
  · refine ⟨fun r hr => ?_, hf.apart.distinct⟩
    rw [counting, Array.size_modify]
    exact hf.apart.bound r hr

theorem Stands.counted (hf : Stands known k outer .still s f) (i : Int) :
    Stands known k outer (.reached i) (counting s f.rule i) f := by
  have hstill := (hf.worked_count i).toKeeps.stands hf
  refine { hstill with context := ⟨hstill.context, ?_⟩ }
  rw [hf.variablesOf_counting]
  exact Context.get?_set_self _ _ _

theorem Stands.worked_nest (hf : Stands known k outer e s f) {r : Rule} {n : Node}
    (heven : n.body.AllEven) (hcode : r.code = n.body.code) (hselectors : r.selectors = n.selectors)
    (hmedia : r.media = n.media) (hdeps : r.deps = []) (hsink : r.sink = some s.sinks.size)
    (hsettings : r.settings = s.settings.size) (hcontext : r.context = s.contexts.size)
    (hcount : n.count = e) :
    Worked known k f.owner e s
      { s with
        contexts := s.contexts.push (variablesOf s f.rule)
        settings := s.settings.push known
        sinks := s.sinks.push []
        rules := s.rules.push r
        owners := s.owners.modify f.owner fun o =>
          { o with children := o.children ++ [s.rules.size] } }
      { nested := [n] } := by
  have howner := getD_modify_self
    (fun o : Owner => { o with children := o.children ++ [s.rules.size] }) hf.ownerBound
    ⟨[], [], []⟩
  have hrule : (s.rules.push r).getD s.rules.size {} = r := getD_push_size _ _ _
  have hold : ∀ i < s.sinks.size, (s.sinks.push []).getD i [] = s.sinks.getD i [] := fun i hi =>
    getD_of_isPrefix (prefix_push _ _) hi _
  exact
    { toKeeps :=
        { hf.keeps_self with
          rules := prefix_push _ _
          settings := prefix_push _ _
          sinksSize := by simp
          sinks := fun i hi _ => hold i hi
          ownersSize := by simp
          selectors := by rw [howner]
          context := hf.recounts_push _ r _
          apart := hf.apart.push _ hcontext }
      filled := ⟨[], hold k hf.sinkBound, rfl⟩
      nested := by
        refine ⟨[s.rules.size], by rw [howner],
          .cons ?_ .nil, ⟨by simp, ?_⟩⟩
        · constructor
          · simp
          · exact heven
          · refine ⟨0, ?_⟩
            rw [hrule, hcode]
            exact Source.items_code heven
          · rw [hrule, hselectors]
          · rw [hrule, hmedia]
          · rw [hrule, hdeps]
          · exact ⟨s.sinks.size, by simp, by simp only [sinkOf, hrule, hsink],
              getD_push_size _ _ _⟩
          · rw [hrule, hsettings]
            exact ⟨by simp, getD_push_size _ _ _⟩
          · rw [variablesOf, hrule, hcontext, getD_push_size, hcount]
            exact hf.context
        · intro r' hr' i hi
          rw [mem_singleton.mp hr', sinkOf, hrule, hsink] at hi
          simp only [Option.mem_def, Option.some.injEq] at hi
          omega }

end Additions

end SheetPress.Compile
