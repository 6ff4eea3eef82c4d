import SheetPress.Proofs.Compile.Importing
import SheetPress.Proofs.Compile.Tables

/-!
# Chains of conditions

A rule has one setting that says whether the last condition held, and all chains of conditions in
its code use it, also those that stand in the blocks of others.  `Script` is code made of
declarations and chains, and `Script.run` works on it without ever looking at that setting: it
hands on whether a block of the chain was taken already.  Work on the code comes to the same
(`chains_take_first_branch`).
-/

set_option autoImplicit false

namespace SheetPress.Compile

open Run
open Source (Item)

mutual

/-- Declarations and chains of conditions, one after the other. -/
inductive Script where
  | done
  | declaration (line : Int) (text : Text) (rest : Script)
  | chain (condition : Text) (body : Script) (tail : Tail)

/-- What stands behind a block of a chain: the rest of the chain, and what follows it. -/
inductive Tail where
  | done (rest : Script)
  | elseIf (condition : Text) (body : Script) (tail : Tail)
  | otherwise (body : Script) (rest : Script)

end

/-! ## How scripts are written -/

mutual

/-- The items are those of the script. -/
inductive Spells : List Item → Script → Prop where
  | done : Spells [] .done
  | declaration {i : Item} {items : List Item} {rest : Script} (hcode : i.code = none)
      (hhead : (expandHead i.head).head? ≠ some '@') (hrest : Spells items rest) :
      Spells (i :: items) (.declaration i.line (expandHead i.head) rest)
  | chain {i : Item} {items : List Item} {c code : Text} {body : Script} {tail : Tail}
      (hcode : i.code = some code) (hhead : i.head = "@if ".toList ++ c)
      (hbody : SpellsCode code body) (htail : SpellsTail items tail) :
      Spells (i :: items) (.chain (Text.trimLeft c) body tail)

/-- The code is that of the script. -/
inductive SpellsCode : Text → Script → Prop where
  | items {code : Text} {items : List Item} {script : Script}
      (hitems : Source.items code = ⟨items, none⟩) (h : Spells items script) :
      SpellsCode code script

/-- The items are those of the rest of a chain and of what follows it. -/
inductive SpellsTail : List Item → Tail → Prop where
  | done {items : List Item} {rest : Script} (hrest : Spells items rest) :
      SpellsTail items (.done rest)
  | elseIf {i : Item} {items : List Item} {c code : Text} {body : Script} {tail : Tail}
      (hcode : i.code = some code) (hhead : i.head = "@else if ".toList ++ c)
      (hbody : SpellsCode code body) (htail : SpellsTail items tail) :
      SpellsTail (i :: items) (.elseIf (Text.trim c) body tail)
  | otherwise {i : Item} {items : List Item} {code : Text} {body rest : Script}
      (hcode : i.code = some code) (hhead : i.head = "@else".toList) (hbody : SpellsCode code body)
      (hrest : Spells items rest) : SpellsTail (i :: items) (.otherwise body rest)

end

/-! ## What scripts mean -/

mutual

/-- Work on a script.  The setting for conditions is written, but never read. -/
def Script.run : Script → (depth : Nat) → Frame → Run Unit
  | _, 0, _ => throw .tooDeep
  | .done, _ + 1, _ => pure ()
  | .declaration line text rest, n + 1, f => do
    declare (compiler n) f line text
    rest.run (n + 1) f
  | .chain condition body tail, n + 1, f => do
    let taken ← test (compiler n) f condition
    if taken then body.run n f
    Run.setSetting f.rule conditionKey (.flag taken)
    tail.run taken (n + 1) f

/-- Work on what stands behind a block, which was taken or not: once one was taken, no condition is
evaluated and no block of the chain is worked on. -/
def Tail.run : Tail → (taken : Bool) → (depth : Nat) → Frame → Run Unit
  | _, _, 0, _ => throw .tooDeep
  | .done rest, _, n + 1, f => rest.run (n + 1) f
  | .elseIf _ _ tail, true, n + 1, f => tail.run true (n + 1) f
  | .elseIf condition body tail, false, n + 1, f => do
    let taken ← test (compiler n) f condition
    if taken then body.run n f
    Run.setSetting f.rule conditionKey (.flag taken)
    tail.run taken (n + 1) f
  | .otherwise body rest, taken, n + 1, f => do
    Run.modifySettings f.rule fun s => s.erase conditionKey
    if !taken then body.run n f
    rest.run (n + 1) f

end

/-! ## Items of chains -/

section Heads

variable (inner : Compiler) (f : Frame) {i : Item} {condition code : Text}

theorem runItem_of_if (hcode : i.code = some code) (hhead : i.head = "@if ".toList ++ condition) :
    runItem inner f i = runIf inner f (Text.trimLeft condition) code := by
  rw [runItem, hcode, hhead]
  rfl

theorem runItem_of_elseIf (hcode : i.code = some code)
    (hhead : i.head = "@else if ".toList ++ condition) :
    runItem inner f i = runElseIf inner f (Text.trim condition) code := by
  rw [runItem, hcode, hhead]
  rfl

theorem runItem_of_else (hcode : i.code = some code) (hhead : i.head = "@else".toList) :
    runItem inner f i = runElse inner f code := by
  rw [runItem, hcode, hhead]
  rfl

theorem runItem_of_declaration (hcode : i.code = none)
    (hhead : (expandHead i.head).head? ≠ some '@') :
    runItem inner f i = declare inner f i.line (expandHead i.head) := by
  have hfalse : ((expandHead i.head).head? == some '@') = false := by simpa using hhead
  simp only [runItem, hfalse, hcode, Bool.false_eq_true, if_false]

end Heads

/-! ## Rules in which work goes on -/

/-- The rule is there, and a function has returned in it or not. -/
structure Standing (r : Nat) (returned : Bool) (s : Session) : Prop where
  placed : Placed r s
  returned : (settingOf s r returnKey).isSome = returned

variable {r : Nat} {b : Bool} {s t : Session}

theorem Adds.standing (h : Adds s t) (hs : Standing r b s) : Standing r b t :=
  ⟨(h.confined r).placed hs.placed, (h.settingOf_eq hs.placed returnKey) ▸ hs.returned⟩

theorem Standing.modifySettings (hs : Standing r b s) {g : Settings → Settings}
    (hg : ∀ d : Settings, (g d).get? returnKey = d.get? returnKey) :
    Standing r b ((modifySettings r g).run s).2 where
  placed := ⟨hs.placed.rule, hs.placed.context, by simpa using hs.placed.settings⟩
  returned := by
    rw [settingOf_modifySettings hs.placed, hg]
    exact hs.returned

/-- The rule stands as before. -/
def Stays (r : Nat) (b : Bool) (s t : Session) : Prop := Standing r b s → Standing r b t

instance : Std.Refl (Stays r b) := ⟨fun _ hs => hs⟩

instance : IsTrans Session (Stays r b) := ⟨fun _ _ _ h h' hs => h' (h hs)⟩

theorem stays_of_adds {α : Type} {x : Run α} (hx : Within Adds x) : Within (Stays r b) x :=
  hx.mono fun _ _ h => h.standing

theorem stays_setVariable (k : Key) (v : Value) : Within (Stays r b) (setVariable r k v) :=
  fun s hs => ⟨(tableLimits.setVariables r s (Context.set k v) hs.placed.rule).placed hs.placed,
    hs.returned⟩

theorem stays_declare (n : Nat) (f : Frame) (line : Int) (text : Text) :
    Within (Stays f.rule b) (declare (compiler n) f line text) := by
  refine within_declare (tableLimits.allow_compiler n) f line text (fun _ _ h => h.standing)
    stays_setVariable fun p s hs => ?_
  unfold addProperty
  rw [run_rule_bind]
  split
  · exact hs
  · exact ⟨⟨hs.placed.rule, hs.placed.context, hs.placed.settings⟩, hs.returned⟩

theorem Standing.run_runItems {f : Frame} (hs : Standing f.rule false s) (inner : Compiler)
    (fault : Option Fault) (i : Item) (items : List Item) :
    (runItems inner f fault (i :: items)).run s =
      (runItem inner f i >>= fun _ => runItems inner f fault items).run s := by
  have hreturned : Settings.has (s.settings.getD (s.rules.getD f.rule {}).settings [])
      "@return".toList = false := hs.returned
  rw [runItems, run_settingsOf_bind, hreturned]
  rfl

/-- In a rule in which a function has returned or has not, the first computation comes to the same
as the second one. -/
def Follows {α : Type} (r : Nat) (b : Bool) (x y : Run α) : Prop :=
  ∀ s, Standing r b s → x.run s = y.run s ∧ Standing r b (y.run s).2

theorem Follows.of_within {α : Type} {x : Run α} (hx : Within (Stays r b) x) : Follows r b x x :=
  fun s hs => ⟨rfl, hx s hs⟩

theorem Follows.bind {α β : Type} {x y : Run α} {f g : α → Run β} (h : Follows r b x y)
    (hf : ∀ a, Follows r b (f a) (g a)) : Follows r b (x >>= f) (y >>= g) := by
  intro s hs
  obtain ⟨heq, hrunning⟩ := h s hs
  rw [run_bind, run_bind, heq]
  rcases hy : y.run s with ⟨_ | a, t⟩
  · rw [hy] at hrunning
    exact ⟨rfl, hrunning⟩
  · rw [hy] at hrunning
    exact hf a t hrunning

/-! ## Work on scripts -/

variable {n : Nat} {f : Frame} {code : Text} {body : Script}

/-- As `Follows`, where the setting for conditions says whether a block was taken. -/
def FollowsAfter (r : Nat) (taken : Bool) (x y : Run Unit) : Prop :=
  ∀ s, Standing r false s → settingOf s r conditionKey = some (.flag taken) →
    x.run s = y.run s ∧ Standing r false (y.run s).2

theorem follows_work (hcode : SpellsCode code body)
    (h : ∀ {items}, Spells items body → ∀ (n : Nat) (f : Frame),
      Follows f.rule false (runItems (compiler n) f none items) (body.run (n + 1) f))
    (n : Nat) (f : Frame) : Follows f.rule false ((compiler n).work f code) (body.run n f) := by
  obtain @⟨_, items, _, hitems, hspells⟩ := hcode
  cases n with
  | zero =>
    have hdeep : body.run 0 f = throw .tooDeep := by cases body <;> rfl
    exact hdeep ▸ fun s hs => ⟨rfl, hs⟩
  | succ n =>
    have hwork : (compiler (n + 1)).work f code = runItems (compiler n) f none items := by
      change work (compiler n) f code = _
      rw [work, hitems]
    exact hwork ▸ h hspells n f

theorem follows_block (hbody : Follows f.rule false ((compiler n).work f code) (body.run n f))
    {x : Run Unit} {y : Bool → Run Unit} (hrest : ∀ taken, FollowsAfter f.rule taken x (y taken))
    (condition : Text) :
    Follows f.rule false (runIf (compiler n) f condition code >>= fun _ => x) (do
      let taken ← test (compiler n) f condition
      if taken then body.run n f
      Run.setSetting f.rule conditionKey (.flag taken)
      y taken) := by
  have hset : ∀ taken, Follows f.rule false
      (setSetting f.rule conditionKey (.flag taken) >>= fun _ => x)
      (setSetting f.rule conditionKey (.flag taken) >>= fun _ => y taken) := by
    intro taken s hs
    have hrunning := hs.modifySettings (g := Settings.set conditionKey (.flag taken)) fun d =>
      get?_set_of_ne d _ (by decide)
    exact hrest taken _ hrunning
      ((settingOf_modifySettings hs.placed _ _).trans (get?_set_self _ _ _))
  have hrunIf : runIf (compiler n) f condition code >>= (fun _ => x) = (do
      let taken ← test (compiler n) f condition
      if taken then (compiler n).work f code
      setSetting f.rule conditionKey (.flag taken)
      x) := by
    simp only [runIf, bind_assoc]
    refine bind_congr fun taken => ?_
    cases taken <;> simp
  rw [hrunIf]
  have htest := within_test (tableLimits.allow_compiler n) f condition
  refine (Follows.of_within (stays_of_adds htest)).bind fun taken => ?_
  cases taken with
  | false => exact hset false
  | true => exact hbody.bind fun _ => hset true

theorem run_lastCondition_bind {taken : Bool} {s : Session}
    (hs : settingOf s r conditionKey = some (.flag taken)) (tail : Text) (g : Bool → Run Unit) :
    (checkCondition r tail >>= fun _ => lastCondition r >>= g).run s = (g taken).run s := by
  have hget : Settings.get? (s.settings.getD (s.rules.getD r {}).settings []) conditionKey =
      some (.flag taken) := hs
  have hcheck : (checkCondition r tail).run s = (.ok (), s) := by
    rw [checkCondition, run_settingsOf_bind, Settings.has, hget]
    rfl
  have hlast : (lastCondition r).run s = (.ok taken, s) := by
    rw [lastCondition, run_settingsOf_bind, hget]
    rfl
  rw [bind_ok hcheck, bind_ok hlast]

mutual

theorem follows_script : (script : Script) → ∀ {items : List Item}, Spells items script →
    ∀ (n : Nat) (f : Frame),
      Follows f.rule false (runItems (compiler n) f none items) (script.run (n + 1) f)
  | .done, _, .done, _, _ => fun _ hs => ⟨rfl, hs⟩
  | .declaration _ _ rest, _, .declaration hcode hhead hrest, n, f => fun s hs => by
      rw [hs.run_runItems, runItem_of_declaration _ f hcode hhead, Script.run]
      exact (Follows.of_within (stays_declare n f _ _)).bind
        (fun _ => follows_script rest hrest n f) s hs
  | .chain _ body tail, _, .chain hcode hhead hbody htail, n, f => fun s hs => by
      rw [hs.run_runItems, runItem_of_if _ f hcode hhead, Script.run]
      exact follows_block (follows_work hbody (follows_script body) n f)
        (fun taken => follows_tail tail htail taken n f) _ s hs

theorem follows_tail : (tail : Tail) → ∀ {items : List Item}, SpellsTail items tail →
    ∀ (taken : Bool) (n : Nat) (f : Frame),
      FollowsAfter f.rule taken (runItems (compiler n) f none items) (tail.run taken (n + 1) f)
  | .done rest, _, .done hrest, taken, n, f => fun s hs _ => by
      rw [Tail.run]
      exact follows_script rest hrest n f s hs
  | .elseIf _ body tail, _, .elseIf hcode hhead hbody htail, taken, n, f => fun s hs hset => by
      rw [hs.run_runItems, runItem_of_elseIf _ f hcode hhead, runElseIf]
      simp only [bind_assoc]
      rw [run_lastCondition_bind hset]
      cases taken with
      | true =>
        rw [Tail.run]
        exact follows_tail tail htail true n f s hs hset
      | false =>
        rw [Tail.run]
        exact follows_block (follows_work hbody (follows_script body) n f)
          (fun taken => follows_tail tail htail taken n f) _ s hs
  | .otherwise body rest, _, .otherwise hcode hhead hbody hrest, taken, n, f => fun s hs hset => by
      have herased := hs.modifySettings (g := fun d => d.erase conditionKey) fun d =>
        get?_erase_of_ne d (by decide)
      rw [hs.run_runItems, runItem_of_else _ f hcode hhead, runElse, Tail.run]
      simp only [bind_assoc]
      rw [run_lastCondition_bind hset]
      cases taken with
      | true => exact follows_script rest hrest n f _ herased
      | false =>
        exact (follows_work hbody (follows_script body) n f).bind
          (fun _ => follows_script rest hrest n f) _ herased

end

theorem run_runItems_of_returned {inner : Compiler} {s : Session} {fault : Option Fault}
    (hs : (settingOf s f.rule returnKey).isSome = true) {items : List Item}
    (hitems : items = [] → fault = none) : (runItems inner f fault items).run s = (.ok (), s) := by
  cases items with
  | nil =>
    rw [hitems rfl]
    rfl
  | cons i items =>
    have hreturned : Settings.has (s.settings.getD (s.rules.getD f.rule {}).settings [])
        "@return".toList = true := hs
    rw [runItems, run_settingsOf_bind, hreturned]
    rfl

/-- Work on code made of declarations and chains of conditions is work on the script: of each
chain the first block whose condition holds is worked on, or the last one if none does and it has no
condition; no condition behind the one that holds is evaluated.  In a rule in which a function has
returned nothing is done. -/
theorem chains_take_first_branch {script : Script} (hcode : SpellsCode code script) (n : Nat)
    (hs : Placed f.rule s) :
    ((compiler (n + 1)).work f code).run s =
      if (settingOf s f.rule returnKey).isSome then (.ok (), s)
      else (script.run (n + 1) f).run s := by
  split
  next hreturned =>
    obtain ⟨hitems, -⟩ := hcode
    change (work (compiler n) f code).run s = _
    rw [work, hitems]
    exact run_runItems_of_returned hreturned fun _ => rfl
  next hgoing =>
    have hgoing : Standing f.rule false s :=
      ⟨hs, by simpa using hgoing⟩
    exact (follows_work hcode (follows_script script) (n + 1) f s hgoing).1

/-- A chain in a block of another chain. -/
def nestedChains : Script :=
  .chain "false".toList (.declaration 0 "a:b".toList .done)
    (.elseIf "true".toList
      (.chain "false".toList (.declaration 0 "c:d".toList .done)
        (.otherwise (.declaration 0 "e:f".toList .done) .done))
      (.otherwise (.declaration 0 "g:h".toList .done) .done))

theorem spellsCode_nestedChains :
    SpellsCode "@if false{a:b;}@else if true{@if false{c:d;}@else{e:f;}}@else{g:h;}".toList
      nestedChains := by
  have hline : ∀ t : Text, Source.items (t ++ [';']) = ⟨[⟨0, t, none⟩], none⟩ →
      (expandHead t).head? ≠ some '@' →
      SpellsCode (t ++ [';']) (.declaration 0 (expandHead t) .done) := fun t h h' =>
    .items h (.declaration rfl h' .done)
  have hinner : Source.items "@if false{c:d;}@else{e:f;}".toList =
      ⟨[⟨0, "@if false".toList, some "c:d;".toList⟩, ⟨0, "@else".toList, some "e:f;".toList⟩],
        none⟩ := rfl
  have houter : Source.items
      "@if false{a:b;}@else if true{@if false{c:d;}@else{e:f;}}@else{g:h;}".toList =
      ⟨[⟨0, "@if false".toList, some "a:b;".toList⟩,
        ⟨0, "@else if true".toList, some "@if false{c:d;}@else{e:f;}".toList⟩,
        ⟨0, "@else".toList, some "g:h;".toList⟩], none⟩ := rfl
  refine .items houter (.chain (c := "false".toList) rfl rfl ?_
    (.elseIf (c := "true".toList) rfl rfl (.items hinner ?_) (.otherwise rfl rfl ?_ .done)))
  · exact hline "a:b".toList rfl (by decide)
  · exact .chain (c := "false".toList) rfl rfl (hline "c:d".toList rfl (by decide))
      (.otherwise rfl rfl (hline "e:f".toList rfl (by decide)) .done)
  · exact hline "g:h".toList rfl (by decide)

theorem chains_take_first_branch_nested :
    ((compiler 3).work ⟨0, 0, none, none⟩
      "@if false{a:b;}@else if true{@if false{c:d;}@else{e:f;}}@else{g:h;}".toList).run oneRule =
    (nestedChains.run 3 ⟨0, 0, none, none⟩).run oneRule :=
  (chains_take_first_branch spellsCode_nestedChains 2 placed_oneRule).trans
    (if_neg (by decide))

end SheetPress.Compile
