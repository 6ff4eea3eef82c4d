import SheetPress.Proofs.Compile.Walk

/-!
# Which variables and settings change

Evaluating an expression changes no variable and no setting that was there before, whatever
functions it calls: they work in rules of their own.  Work on the code of a rule changes the
variables and the settings of that rule only.
-/

set_option autoImplicit false

namespace SheetPress.Compile

open Run

/-! ## Tables -/

/-- A table has grown, and only some of its entries have changed. -/
structure Spares {α : Type} (P : Nat → Prop) (a b : Array α) : Prop where
  size : a.size ≤ b.size
  entry : ∀ j < a.size, ¬ P j → b[j]? = a[j]?

namespace Spares

variable {α : Type} {P Q : Nat → Prop} {a b c : Array α}

theorem refl (P : Nat → Prop) (a : Array α) : Spares P a a := ⟨Nat.le_refl _, fun _ _ _ => rfl⟩

theorem trans (h : Spares P a b) (h' : Spares P b c) : Spares P a c where
  size := Nat.le_trans h.size h'.size
  entry j hj hP := (h'.entry j (Nat.lt_of_lt_of_le hj h.size) hP).trans (h.entry j hj hP)

theorem of_new (h : Spares (fun _ => False) a b) (h' : Spares P b c)
    (hPQ : ∀ j < a.size, P j → Q j) : Spares Q a c where
  size := Nat.le_trans h.size h'.size
  entry j hj hQ := (h'.entry j (Nat.lt_of_lt_of_le hj h.size) fun hP => hQ (hPQ j hj hP)).trans
    (h.entry j hj id)

theorem any (h : Spares (fun _ => False) a b) : Spares P a b :=
  h.of_new (refl (fun _ => False) b) fun _ _ => False.elim

theorem push (P : Nat → Prop) (a : Array α) (x : α) : Spares P a (a.push x) where
  size := by simp
  entry j hj _ := by simp [Array.getElem?_push, Nat.ne_of_lt hj]

theorem modify (a : Array α) (i : Nat) (g : α → α) : Spares (· = i) a (a.modify i g) where
  size := by simp
  entry j _ hne := by simp [Array.getElem?_modify, Ne.symm hne]

theorem getD (h : Spares P a b) {j : Nat} (hj : j < a.size) (hP : ¬ P j) (d : α) :
    b.getD j d = a.getD j d := by
  simp only [Array.getD_eq_getD_getElem?, h.entry j hj hP]

end Spares

/-! ## Evaluating and working -/

/-- There may be more rules, variables and settings, but those of before are the same. -/
structure Adds (s t : Session) : Prop where
  rules : Spares (fun _ => False) s.rules t.rules
  contexts : Spares (fun _ => False) s.contexts t.contexts
  settings : Spares (fun _ => False) s.settings t.settings

/-- Of what was there before only the variables and the settings of a rule may have changed. -/
structure Confined (r : Nat) (s t : Session) : Prop where
  rules : Spares (fun _ => False) s.rules t.rules
  contexts : Spares (· = (s.rules.getD r {}).context) s.contexts t.contexts
  settings : Spares (· = (s.rules.getD r {}).settings) s.settings t.settings

variable {r : Nat} {s t u : Session}

theorem Adds.refl (s : Session) : Adds s s := ⟨.refl _ _, .refl _ _, .refl _ _⟩

theorem Adds.trans (h : Adds s t) (h' : Adds t u) : Adds s u :=
  ⟨h.rules.trans h'.rules, h.contexts.trans h'.contexts, h.settings.trans h'.settings⟩

theorem Adds.confined (h : Adds s t) (r : Nat) : Confined r s t :=
  ⟨h.rules, h.contexts.any, h.settings.any⟩

theorem Adds.rule (h : Adds s t) (hr : r < s.rules.size) :
    t.rules.getD r {} = s.rules.getD r {} := h.rules.getD hr id {}

theorem Confined.rule (h : Confined r s t) {q : Nat} (hq : q < s.rules.size) :
    t.rules.getD q {} = s.rules.getD q {} := h.rules.getD hq id {}

theorem Confined.trans (hr : r < s.rules.size) (h : Confined r s t) (h' : Confined r t u) :
    Confined r s u := by
  have hrule := h.rule hr
  refine ⟨h.rules.trans h'.rules, h.contexts.trans ?_, h.settings.trans ?_⟩
  · exact hrule ▸ h'.contexts
  · exact hrule ▸ h'.settings

/-- Work on the code of a new rule changes what is new, and what the new rule shares. -/
theorem Confined.of_new {b : Rule} {P Q : Nat → Prop} (h : Confined s.rules.size t u)
    (hrules : t.rules = s.rules.push b) (hcontexts : Spares (fun _ => False) s.contexts t.contexts)
    (hsettings : Spares (fun _ => False) s.settings t.settings)
    (hP : ∀ j < s.contexts.size, j = b.context → P j)
    (hQ : ∀ j < s.settings.size, j = b.settings → Q j) :
    Spares (fun _ => False) s.rules u.rules ∧ Spares P s.contexts u.contexts ∧
      Spares Q s.settings u.settings := by
  have hb : t.rules.getD s.rules.size {} = b := by rw [hrules, getD_push_size]
  refine ⟨?_, hcontexts.of_new h.contexts ?_, hsettings.of_new h.settings ?_⟩
  · exact (hrules ▸ Spares.push _ s.rules b : Spares _ s.rules t.rules).trans h.rules
  · exact hb.symm ▸ hP
  · exact hb.symm ▸ hQ

/-- Evaluating changes none of the variables and settings that were there, and working only those
of its rule. -/
def tableLimits : Limits where
  evaluating := Adds
  working r s t := r < s.rules.size → Confined r s t
  refl := .refl
  trans := .trans
  of_evaluating r _ _ h _ := h.confined r
  then_working h h' hr :=
    have hst := h hr
    hst.trans hr (h' (Nat.lt_of_lt_of_le hr hst.rules.size))
  aside s _ _ _ _ := ⟨.refl _ _, .refl _ _, .refl _ _⟩
  setVariables _ s g _ := ⟨.refl _ _, .modify _ _ g, .refl _ _⟩
  setSettings _ s g _ _ := ⟨.refl _ _, .refl _ _, .modify _ _ g⟩
  property _ s _ _ _ := ⟨.refl _ _, .refl _ _, .refl _ _⟩
  owner _ s _ _ _ _ := ⟨.refl _ _, .refl _ _, .refl _ _⟩
  call _ s _ _ b _ _ _ hcontext hsettings h := by
    obtain ⟨h₁, h₂, h₃⟩ := (h (by simp)).of_new (s := s) (b := b) (P := fun _ => False)
      (Q := fun _ => False) rfl (.push _ _ _) (.push _ _ _) (by omega) (by omega)
    exact ⟨h₁, h₂, h₃⟩
  copy r s b _ _ _ hcontext hsettings h _ := by
    obtain ⟨h₁, h₂, h₃⟩ := (h (by simp)).of_new (s := s) (b := b) rfl (.refl _ _) (.refl _ _)
      (fun _ _ hj => hj.trans hcontext) (fun _ _ hj => hj.trans hsettings)
    exact ⟨h₁, h₂, h₃⟩
  branch r s _ b _ _ _ hcontext hsettings h _ := by
    obtain ⟨h₁, h₂, h₃⟩ := (h (by simp)).of_new (s := s) (b := b) rfl (.push _ _ _) (.refl _ _)
      (by omega) (fun _ _ hj => hj.trans hsettings)
    exact ⟨h₁, h₂, h₃⟩
  nest r s t _ _ _ b h _ _ _ :=
    ⟨h.rules.trans (.push _ _ _), (h.contexts.trans (.push _ _ _)).any,
      (h.settings.trans (.push _ _ _)).any⟩

/-! ## The settings of a rule -/

/-- The rule is one of the session's, and so are its variables and its settings. -/
structure Placed (r : Nat) (s : Session) : Prop where
  rule : r < s.rules.size
  context : (s.rules.getD r {}).context < s.contexts.size
  settings : (s.rules.getD r {}).settings < s.settings.size

/-- A session with one rule. -/
def oneRule : Session :=
  { rules := #[{ sink := some 0 }], contexts := #[[]], settings := #[[]], sinks := #[[]] }

theorem placed_oneRule : Placed 0 oneRule := ⟨by decide, by decide, by decide⟩

/-- A setting of a rule. -/
def settingOf (s : Session) (r : Nat) (key : Text) : Option Setting :=
  (s.settings.getD (s.rules.getD r {}).settings []).get? key

theorem Confined.placed {q : Nat} (h : Confined q s t) (hs : Placed r s) : Placed r t := by
  have hrule : t.rules.getD r {} = s.rules.getD r {} := h.rule hs.rule
  refine ⟨Nat.lt_of_lt_of_le hs.rule h.rules.size, ?_, ?_⟩
  · exact hrule ▸ Nat.lt_of_lt_of_le hs.context h.contexts.size
  · exact hrule ▸ Nat.lt_of_lt_of_le hs.settings h.settings.size

theorem Adds.settingOf_eq (h : Adds s t) (hs : Placed r s) (key : Text) :
    settingOf t r key = settingOf s r key := by
  rw [settingOf, settingOf, h.rule hs.rule, h.settings.getD hs.settings id]

theorem settingOf_modifySettings (hs : Placed r s) (g : Settings → Settings) (key : Text) :
    settingOf ((modifySettings r g).run s).2 r key =
      (g (s.settings.getD (s.rules.getD r {}).settings [])).get? key := by
  rw [run_modifySettings]
  exact congrArg (Settings.get? · key) (getD_modify_self g hs.settings [])

end SheetPress.Compile
