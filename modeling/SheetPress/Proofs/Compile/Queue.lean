import SheetPress.Proofs.Compile.Meaning

/-!
# The queue of rules

Rules are worked on one after the other, and the rules nested in one come before those that wait
already.  `Drains` describes this by what the code of each rule means: which rules wait and which
ones are finished.  `run_queue` says that the queue is worked on in just this way.
-/

set_option autoImplicit false

namespace SheetPress.Compile

open List
open Source (Outline)

/-- A rule that has been worked on. -/
structure Finished where
  selectors : Text
  media : Option (List Text)
  properties : List (Text × Option Text)

namespace Node

/-- The selectors that rules nested in a rule stand in. -/
def outer (n : Node) : List Text := Text.splitOn ',' n.selectors

/-- The rule extends nothing. -/
def Plain (n : Node) : Prop := Selector.cutExtends n.selectors = (n.selectors, [])

/-- A rule after its code has been worked on. -/
def finish (n : Node) (out : Outcome) : Finished where
  selectors := n.selectors
  media := n.media
  properties := out.properties

end Node

/-- The rules that come out of those that wait, in the order in which they are finished.  Rules
nest at most `level` deep. -/
inductive Drains (mixins : Text → Option Outline) (depth : Nat) :
    (level : Nat) → List Node → List Finished → Prop where
  | nil {m : Nat} : Drains mixins depth m [] []
  | cons {m : Nat} {n : Node} {out : Outcome} {pending : List Node} {inner done : List Finished} :
      n.Plain → Means mixins n.outer n.media n.count depth none n.body out →
      Drains mixins depth m out.nested inner → Drains mixins depth (m + 1) pending done →
      Drains mixins depth (m + 1) (n :: pending) (n.finish out :: (inner ++ done))

variable {depth r : Nat} {mixins : Text → Option Outline} {s : Session} {known : Settings}
  {rest : List Nat}

theorem Drains.append {m : Nat} {ns ns' : List Node} {ds ds' : List Finished}
    (h : Drains mixins depth m ns ds) (h' : Drains mixins depth m ns' ds') :
    Drains mixins depth m (ns ++ ns') (ds ++ ds') := by
  induction h with
  | nil => exact h'
  | cons hplain hmeans hinner _ _ ih =>
    rw [cons_append, cons_append, append_assoc]
    exact .cons hplain hmeans hinner (ih h')

theorem Drains.mono {m : Nat} {ns : List Node} {ds : List Finished}
    (h : Drains mixins depth m ns ds) : ∀ {l : Nat}, m ≤ l → Drains mixins depth l ns ds := by
  induction h with
  | nil => exact fun _ => .nil
  | cons hplain hmeans _ _ ihinner ih =>
    intro l hl
    obtain ⟨l, rfl⟩ : ∃ j, l = j + 1 := ⟨l - 1, by omega⟩
    exact .cons hplain hmeans (ihinner (by omega)) (ih hl)

/-- A rule of the session is finished. -/
structure Done (s : Session) (r : Nat) (d : Finished) : Prop where
  bound : r < s.rules.size
  selectors : (s.rules.getD r {}).selectors = d.selectors
  media : (s.rules.getD r {}).media = d.media
  deps : (s.rules.getD r {}).deps = []
  sink : ∃ i < s.sinks.size, sinkOf s r = some i ∧
    (s.sinks.getD i []).reverse.map (fun p => (p.name, p.value)) = d.properties

theorem Done.placed {d : Finished} (h : Done s r d) :
    r < s.rules.size ∧ ∃ i < s.sinks.size, sinkOf s r = some i := by
  obtain ⟨i, hi, hsink, _⟩ := h.sink
  exact ⟨h.bound, i, hi, hsink⟩

/-- The finished rules by their selectors. -/
def partsOf (rules : List Nat) (done : List Finished) : Parts :=
  (rules.zip done).foldl (fun ps p => ps.add p.2.selectors [p.1]) []

/-- How far the work on the queue has come. -/
structure Progress (known : Settings) (pool : Pool) (s : Session) (done : List Finished)
    (pending : List Node) : Prop where
  queue : List.Forall₂ (Waiting known s) s.queue pending
  order : List.Forall₂ (Done s) s.order done
  positions : s.order.map (fun r => (s.rules.getD r {}).position) =
    (List.range done.length).map some
  sinks : ((s.order ++ s.queue).map (sinkOf s)).Nodup
  parts : s.parts = partsOf s.order done
  apart : Apart s.rules s.contexts
  faithful : Faithful s.pool s.results
  pool : Richer pool s.pool

/-! ## Rules that are left alone -/

theorem Done.same {t : Session} {d : Finished} (hd : Done s r d) (h : Same s t r) : Done t r d := by
  obtain ⟨i, hi, hsink, hproperties⟩ := hd.sink
  obtain ⟨hi', hcontent⟩ := h.sink i hsink hi
  constructor
  · exact h.bound hd.bound
  · rw [h.rule, hd.selectors]
  · rw [h.rule, hd.media]
  · rw [h.rule, hd.deps]
  · exact ⟨i, hi', by rw [h.sinkOf_eq, hsink], by rw [hcontent, hproperties]⟩

theorem same_of_ne {x : Nat} (hne : x ≠ r) (g : Rule → Rule) (queue order : List Nat)
    (parts : Parts) :
    Same s { s with queue, order, parts, rules := s.rules.modify r g } x where
  bound := fun hx => by simpa using hx
  rule := getD_modify_of_ne _ hne _
  sink := fun _ _ hlt => ⟨hlt, rfl⟩
  settings := fun hlt => ⟨hlt, rfl⟩
  context := by simp only [variablesOf, getD_modify_of_ne _ hne]

theorem partsOf_snoc {rules : List Nat} {done : List Finished} (h : rules.length = done.length)
    (r : Nat) (d : Finished) :
    partsOf (rules ++ [r]) (done ++ [d]) = (partsOf rules done).add d.selectors [r] := by
  simp [partsOf, zip_append h]

/-! ## One rule -/

/-- The session before the code of a rule is worked on. -/
def begin (s : Session) (n : Node) (rest : List Nat) : Session :=
  { s with
    queue := rest
    owners := s.owners.push ⟨n.outer, [], []⟩ }

/-- The session after it. -/
def conclude (s : Session) (r position : Nat) (d : Finished) (nested : List Nat) : Session :=
  { s with
    queue := nested ++ s.queue
    rules := s.rules.modify r fun rule =>
      { rule with selectors := d.selectors, position := some position }
    parts := Parts.add d.selectors [r] s.parts
    order := s.order ++ [r] }

theorem stands_begin {k : Nat} {n : Node} (hw : Waiting known s r n)
    (hapart : Apart s.rules s.contexts) (hfaithful : Faithful s.pool s.results)
    (hk : k < s.sinks.size) (hsink : sinkOf s r = some k) (rest : List Nat) :
    Stands known k n.outer n.count (begin s n rest) ⟨r, s.owners.size, none, n.media⟩ where
  bound := hw.bound
  sink := hsink
  sinkBound := hk
  media := hw.media
  settings := hw.settings
  ownerBound := by simp [begin]
  selectors := by rw [begin, getD_push_size]
  context := hw.context
  apart := hapart
  faithful := hfaithful
  scope := by simp

/-- Once the code of a rule has been worked on, the rule is concluded. -/
theorem run_runRule {t : Session} {n : Node} {out : Outcome} {nested : List Nat}
    (hw : Waiting known s r n) (hplain : n.Plain)
    (hwork : ((compiler depth).work ⟨r, s.owners.size, none, n.media⟩ (s.rules.getD r {}).code).run
      (begin s n rest) = (.ok (), t))
    (howner : t.owners.getD s.owners.size ⟨[], [], []⟩ = ⟨n.outer, [], nested⟩)
    (position : Nat) :
    (runRule depth position r).run { s with queue := rest } =
      (.ok (), conclude t r position (n.finish out) nested) := by
  have hnone : ((Text.splitOn '&' []).filter (!·.isEmpty)).eraseDups = ([] : List Text) := rfl
  simp only [begin, Node.outer] at hwork
  unfold runRule
  rw [Run.run_get_bind, Run.run_rule_bind]
  simp only [hw.selectors, hw.media, show Selector.cutExtends n.selectors = (n.selectors, []) from
    hplain, hnone]
  rw [Run.run_newOwner_bind, Run.bind_ok hwork, Run.run_owner_bind, howner, Run.run_modify_bind,
    Run.run_modifyRule_bind, Run.run_modify]
  rfl

/-- The first rule of the queue has had its turn: its code has been worked on, and left `t`. -/
structure Turn (known : Settings) (pool : Pool) (s : Session) (done : List Finished) (n : Node)
    (pending : List Node) (r : Nat) (rest : List Nat) (k : Nat) (t : Session) (out : Outcome)
    (nested : List Nat) : Prop where
  progress : Progress known pool s done (n :: pending)
  queue : s.queue = r :: rest
  sinkBound : k < s.sinks.size
  sink : sinkOf s r = some k
  worked : Worked known k s.owners.size n.count (begin s n rest) t out
  waits : List.Forall₂ (Waiting known t) nested out.nested
  fresh : Fresh (begin s n rest) t nested

namespace Turn

variable {known : Settings} {pool : Pool} {s t : Session} {done : List Finished} {n : Node}
  {pending : List Node} {r k : Nat} {rest nested : List Nat} {out : Outcome}
  (h : Turn known pool s done n pending r rest k t out nested)

include h

theorem waiting : Waiting known s r n ∧ List.Forall₂ (Waiting known s) rest pending := by
  have hqueue := h.progress.queue
  rwa [h.queue, forall₂_cons] at hqueue

theorem others :
    ∀ x ∈ s.order ++ rest, x < s.rules.size ∧ sinkOf s x ≠ some k ∧
      ∃ i < s.sinks.size, sinkOf s x = some i := by
  have hplaced : ∀ x ∈ s.order ++ rest,
      x < s.rules.size ∧ ∃ i < s.sinks.size, sinkOf s x = some i := by
    intro x hx
    rcases mem_append.mp hx with hx | hx
    · exact forall_mem_of_forall₂ h.progress.order (fun _ _ hd => hd.placed) x hx
    · exact forall_mem_of_forall₂ h.waiting.2 (fun _ _ hw => hw.placed) x hx
  have hnodup := h.progress.sinks
  rw [h.queue, map_append, map_cons, nodup_middle, ← map_append,
    nodup_cons] at hnodup
  intro x hx
  refine ⟨(hplaced x hx).1, fun hk => hnodup.1 ?_, (hplaced x hx).2⟩
  exact mem_map.mpr ⟨x, hx, by rw [hk, h.sink]⟩

/-- The rules that were there before are the same, but for the one that is concluded. -/
theorem same_old (position : Nat) (d : Finished) :
    ∀ x ∈ s.order ++ rest, Same s (conclude t r position d nested) x := by
  intro x hx
  obtain ⟨hbound, hne, _⟩ := h.others x hx
  have hxr : x ≠ r := by
    rintro rfl
    exact hne h.sink
  have hbegin : Same s (begin s n rest) x :=
    ⟨id, rfl, fun _ _ hlt => ⟨hlt, rfl⟩, fun hlt => ⟨hlt, rfl⟩, rfl⟩
  exact (hbegin.trans (h.worked.toKeeps.same hbound hne)).trans (same_of_ne hxr _ _ _ _)

theorem same_new (position : Nat) (d : Finished) :
    ∀ x ∈ nested, Same t (conclude t r position d nested) x ∧
      ∃ i, sinkOf t x = some i ∧ s.sinks.size ≤ i := by
  intro x hx
  obtain ⟨_, i, _, hsink⟩ := forall_mem_of_forall₂ h.waits (fun _ _ hw => hw.placed) x hx
  have hle : s.sinks.size ≤ i := h.fresh.new x hx i hsink
  have hxr : x ≠ r := by
    rintro rfl
    rw [h.worked.toKeeps.sinkOf_eq h.waiting.1.bound] at hsink
    have hki : k = i := Option.some.inj (h.sink.symm.trans hsink)
    have := h.sinkBound
    omega
  exact ⟨same_of_ne hxr _ _ _ _, i, hsink, hle⟩

/-- The rule that has had its turn gets its selectors and its position. -/
theorem rule_conclude (position : Nat) (d : Finished) :
    (conclude t r position d nested).rules.getD r {} =
      { s.rules.getD r {} with selectors := d.selectors, position := some position } := by
  have hkeeps := h.worked.toKeeps
  have hold : t.rules.getD r {} = s.rules.getD r {} := hkeeps.rule h.waiting.1.bound
  rw [← hold]
  exact getD_modify_self _
    (Nat.lt_of_lt_of_le h.waiting.1.bound (size_le_of_isPrefix hkeeps.rules)) _

theorem done_conclude (position : Nat) :
    Done (conclude t r position (n.finish out) nested) r (n.finish out) := by
  have hw := h.waiting.1
  have hrule := h.rule_conclude position (n.finish out)
  obtain ⟨i, _, hsink, hempty⟩ := hw.sink
  obtain rfl : k = i := Option.some.inj (h.sink.symm.trans hsink)
  obtain ⟨ps, hps, hshape⟩ := h.worked.filled
  have hfilled : t.sinks.getD k [] = ps.reverse := by
    rw [hps, show (begin s n rest).sinks.getD k [] = [] from hempty, append_nil]
  constructor
  · simpa [conclude] using
      Nat.lt_of_lt_of_le hw.bound (size_le_of_isPrefix h.worked.rules)
  · rw [hrule]
  · rw [hrule]
    exact hw.media
  · rw [hrule]
    exact hw.deps
  · refine ⟨k, Nat.lt_of_lt_of_le h.sinkBound h.worked.sinksSize, ?_, ?_⟩
    · rw [sinkOf, hrule]
      exact h.sink
    · show (t.sinks.getD k []).reverse.map _ = _
      rw [hfilled, reverse_reverse, hshape]
      rfl

theorem nodup_conclude (position : Nat) (d : Finished) :
    ((s.order ++ [r] ++ (nested ++ rest)).map
      (sinkOf (conclude t r position d nested))).Nodup := by
  have hold : ∀ x ∈ s.order ++ r :: rest,
      sinkOf (conclude t r position d nested) x = sinkOf s x ∧
        ∃ i < s.sinks.size, sinkOf s x = some i := by
    intro x hx
    rw [mem_append, mem_cons, or_left_comm, ← mem_append] at hx
    rcases hx with rfl | hx
    · refine ⟨?_, k, h.sinkBound, h.sink⟩
      rw [sinkOf, h.rule_conclude]
      rfl
    · exact ⟨(h.same_old position d x hx).sinkOf_eq, (h.others x hx).2.2⟩
  have hperm : (s.order ++ [r] ++ (nested ++ rest)).Perm ((s.order ++ r :: rest) ++ nested) := by
    simpa using (perm_append_comm.append_left (s.order ++ [r])).append_right []
  refine ((hperm.map _).nodup_iff).mpr ?_
  rw [map_append, map_congr_left fun x hx => (hold x hx).1,
    map_congr_left fun x hx => (h.same_new position d x hx).1.sinkOf_eq]
  refine List.Nodup.append (by rw [← h.queue]; exact h.progress.sinks) h.fresh.nodup ?_
  intro i hi hi'
  obtain ⟨x, hx, rfl⟩ := mem_map.mp hi
  obtain ⟨y, hy, hyx⟩ := mem_map.mp hi'
  obtain ⟨i, hi, hxi⟩ := (hold x hx).2
  obtain ⟨j, hj, hle⟩ := (h.same_new position d y hy).2
  have hij : j = i := Option.some.inj (hj.symm.trans (hyx.trans hxi))
  omega

/-- One rule more is finished, and the rules nested in it come next. -/
theorem progress_conclude :
    Progress known pool (conclude t r done.length (n.finish out) nested)
      (done ++ [n.finish out]) (out.nested ++ pending) := by
  have horder : t.order = s.order := h.worked.order
  have hqueue : t.queue = rest := h.worked.queue
  have hold := h.same_old done.length (n.finish out)
  have hnew := h.same_new done.length (n.finish out)
  constructor
  · show List.Forall₂ _ (nested ++ t.queue) _
    rw [hqueue]
    refine rel_append ?_ ?_
    · exact forall₂_imp_of_mem h.waits (fun x hx => (hnew x hx).1) fun _ _ hx hw => hw.same hx
    · exact forall₂_imp_of_mem h.waiting.2 (fun x hx => hold x (mem_append_right _ hx))
        fun _ _ hx hw => hw.same hx
  · show List.Forall₂ _ (t.order ++ [r]) _
    rw [horder]
    refine rel_append ?_ (.cons (h.done_conclude done.length) .nil)
    exact forall₂_imp_of_mem h.progress.order (fun x hx => hold x (mem_append_left _ hx))
      fun _ _ hx hd => hd.same hx
  · show (t.order ++ [r]).map _ = _
    rw [horder, map_append, map_congr_left fun x hx => by
      rw [(hold x (mem_append_left _ hx)).rule], h.progress.positions]
    simp only [map_cons, map_nil, h.rule_conclude, length_append,
      length_singleton, range_succ, map_append]
  · show ((t.order ++ [r] ++ (nested ++ t.queue)).map _).Nodup
    rw [horder, hqueue]
    exact h.nodup_conclude done.length (n.finish out)
  · show Parts.add _ [r] t.parts = partsOf (t.order ++ [r]) _
    rw [horder, partsOf_snoc h.progress.order.length_eq, ← h.progress.parts,
      show t.parts = s.parts from h.worked.parts]
  · exact h.worked.apart.modify r (g := fun rule =>
      { rule with selectors := (n.finish out).selectors, position := some done.length })
      fun _ => rfl
  · exact h.worked.faithful
  · exact h.progress.pool.trans h.worked.pool

end Turn

/-! ## The whole queue -/

theorem Progress.step {pool : Pool} {n : Node} {out : Outcome} {done : List Finished}
    {pending : List Node} (hknown : Knows known mixins)
    (hp : Progress known pool s done (n :: pending)) (hqueue : s.queue = r :: rest)
    (hplain : n.Plain) (hmeans : Means mixins n.outer n.media n.count depth none n.body out) :
    ∃ t, (runRule (depth + 1) done.length r).run { s with queue := rest } = (.ok (), t) ∧
      Progress known pool t (done ++ [n.finish out]) (out.nested ++ pending) := by
  have hqueued := hp.queue
  rw [hqueue, forall₂_cons] at hqueued
  have hw := hqueued.1
  obtain ⟨k, hk, hsink, _⟩ := hw.sink
  obtain ⟨line, hitems⟩ := hw.items
  obtain ⟨t, hrun, hworked⟩ := run_means hknown hmeans hw.even
    (stands_begin hw hp.apart hp.faithful hk hsink rest) rfl rfl line
  obtain ⟨nested, howner, hnested, hfresh⟩ := hworked.nested
  have hwork : ((compiler (depth + 1)).work ⟨r, s.owners.size, none, n.media⟩
      (s.rules.getD r {}).code).run (begin s n rest) = (.ok (), t) := by
    rw [← hrun]
    show (work (compiler depth) _ _).run _ = _
    simp only [work, hitems]
  have hturn : Turn known pool s done n pending r rest k t out nested :=
    ⟨hp, hqueue, hk, hsink, hworked, hnested, hfresh⟩
  refine ⟨_, run_runRule hw hplain hwork ?_ done.length, hturn.progress_conclude⟩
  rw [howner]
  simp [begin]

theorem run_runFirst {m position next : Nat} {t u : Session} (hqueue : s.queue = r :: rest)
    (hrule : (runRule depth position r).run { s with queue := rest } = (.ok (), t))
    (hnested : (repeatFrom (runFirst depth m) (t.queue.length - rest.length) (position + 1)).run t =
      (.ok next, u)) : (runFirst depth (m + 1) position).run s = (.ok next, u) := by
  simp only [runFirst, Run.run_get_bind, hqueue, Run.run_modify_bind]
  rw [Run.bind_ok hrule, Run.run_get_bind, hnested]

/-- The first rules of the queue are worked on, with all that is nested in them. -/
theorem run_queue {pool : Pool} {level : Nat} {pending : List Node} {finished : List Finished}
    (hknown : Knows known mixins) (h : Drains mixins depth level pending finished) :
    ∀ {s : Session} {done : List Finished} {others : List Node},
      Progress known pool s done (pending ++ others) → ∃ t,
        (repeatFrom (runFirst (depth + 1) level) pending.length done.length).run s =
          (.ok (done ++ finished).length, t) ∧
        Progress known pool t (done ++ finished) others := by
  induction h with
  | nil =>
    intro s done others hp
    rw [append_nil]
    exact ⟨s, rfl, hp⟩
  | @cons m n out pending inner finished hplain hmeans _ _ ihinner ih =>
    intro s done others hp
    obtain ⟨r, rest, _, hrest, hqueue⟩ := forall₂_cons_right_iff.mp hp.queue
    obtain ⟨t₁, hstep, hp₁⟩ := hp.step hknown hqueue hplain hmeans
    obtain ⟨t₂, hinner, hp₂⟩ := ihinner hp₁
    obtain ⟨t, hrun, hp'⟩ := ih hp₂
    have hall : done ++ n.finish out :: (inner ++ finished) =
        done ++ [n.finish out] ++ inner ++ finished := by simp
    refine ⟨t, ?_, hall ▸ hp'⟩
    -- What is before the rules that waited is what the first one has nested.
    have hnested : t₁.queue.length - rest.length = out.nested.length := by
      rw [hp₁.queue.length_eq, hrest.length_eq, length_append, Nat.add_sub_cancel]
    have hfirst : (runFirst (depth + 1) (m + 1) done.length).run s =
        (.ok (done ++ [n.finish out] ++ inner).length, t₂) := by
      refine run_runFirst hqueue hstep ?_
      rw [hnested, ← hinner]
      simp
    rw [length_cons, repeatFrom, Run.bind_ok hfirst, hrun, hall]

end SheetPress.Compile
