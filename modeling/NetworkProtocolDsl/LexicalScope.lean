/-
Which names a lexical pad binds.

No operation unbinds a name: a pad only grows, scope by scope, and the pads
around the one that runs grow with it.
-/
import NetworkProtocolDsl.Interpreter

namespace NetworkProtocolDsl

namespace LexicalPad

/-- Some scope of the chain has an entry for the name. -/
def Binds (name : String) : LexicalPad → Prop
  | .root pad => (pad.lookup name).isSome = true
  | .child pad parent => (pad.lookup name).isSome = true ∨ parent.Binds name

/-- Getting a name no scope has an entry for is the name error. -/
theorem get_of_not_binds {name : String} {pad : LexicalPad}
    (h : ¬ pad.Binds name) : pad.get name = .runtimeError .nameError := by
  induction pad with
  | root pad =>
      have hnone : pad.lookup name = none := Option.not_isSome_iff_eq_none.mp h
      simp only [get, hnone]
  | child pad parent ih =>
      obtain ⟨hpad, hparent⟩ := not_or.mp h
      have hnone : pad.lookup name = none :=
        Option.not_isSome_iff_eq_none.mp hpad
      simp only [get, hnone]
      exact ih hparent

/-- Chains of the same scopes, each with at least the names it had. -/
inductive Grows : LexicalPad → LexicalPad → Prop where
  | root {pad pad' : Bindings} :
      (∀ name, (pad.lookup name).isSome = true →
        (pad'.lookup name).isSome = true) → Grows (.root pad) (.root pad')
  | child {pad pad' : Bindings} {parent parent' : LexicalPad} :
      (∀ name, (pad.lookup name).isSome = true →
        (pad'.lookup name).isSome = true) → Grows parent parent' →
      Grows (.child pad parent) (.child pad' parent')

namespace Grows

variable {pad pad' pad'' : LexicalPad}

theorem refl (pad : LexicalPad) : pad.Grows pad := by
  induction pad with
  | root pad => exact .root fun _ h => h
  | child pad parent ih => exact .child (fun _ h => h) ih

theorem trans (h : pad.Grows pad') (h' : pad'.Grows pad'') :
    pad.Grows pad'' := by
  induction h generalizing pad'' with
  | root hnames =>
      cases h' with
      | root hnames' => exact .root fun name h => hnames' name (hnames name h)
  | child hnames _ ih =>
      cases h' with
      | child hnames' hparent' =>
          exact .child (fun name h => hnames' name (hnames name h))
            (ih hparent')

theorem binds (h : pad.Grows pad') {name : String} (hname : pad.Binds name) :
    pad'.Binds name := by
  induction h with
  | root hnames => exact hnames name hname
  | child hnames _ ih =>
      rcases hname with hpad | hparent
      · exact Or.inl (hnames name hpad)
      · exact Or.inr (ih hparent)

theorem of_child {bindings : Bindings} {parent : LexicalPad}
    (h : (LexicalPad.child bindings parent).Grows pad') :
    ∃ bindings' parent', pad' = .child bindings' parent' ∧
      parent.Grows parent' := by
  cases h with
  | child _ hparent => exact ⟨_, _, rfl, hparent⟩

end Grows

theorem isSome_lookup_insert (name : String) (value : Value) {pad : Bindings}
    {other : String} (h : (pad.lookup other).isSome = true) :
    ((Assoc.insert name value pad).lookup other).isSome = true := by
  by_cases hname : other = name
  · subst hname
    rw [Assoc.lookup_insert_self]
    cases pad.lookup other <;> rfl
  · rw [Assoc.lookup_insert_ne hname]
    exact h

theorem isSome_lookup_assign (name : String) (value : Value) {pad : Bindings}
    {other : String} (h : (pad.lookup other).isSome = true) :
    ((Assoc.assign name value pad).lookup other).isSome = true := by
  by_cases hname : other = name
  · subst hname
    rw [Assoc.lookup_assign_self]
    simpa using h
  · rw [Assoc.lookup_assign_ne hname]
    exact h

theorem grows_set (name : String) (value : Value) (pad : LexicalPad) :
    pad.Grows (pad.set name value).2 := by
  induction pad with
  | root pad =>
      cases hlookup : pad.lookup name with
      | none =>
          simp only [set, hlookup]
          exact .refl _
      | some old =>
          simp only [set, hlookup]
          exact .root fun _ h => isSome_lookup_assign name value h
  | child pad parent ih =>
      cases hlookup : pad.lookup name with
      | none =>
          simp only [set, hlookup]
          exact .child (fun _ h => h) ih
      | some old =>
          simp only [set, hlookup]
          exact .child (fun _ h => isSome_lookup_assign name value h)
            (.refl parent)

theorem grows_initializeLocal (name : String) (value : Value)
    (pad : LexicalPad) : pad.Grows (pad.initializeLocal name value) := by
  cases pad with
  | root pad => exact .root fun _ h => isSome_lookup_insert name value h
  | child pad parent =>
      exact .child (fun _ h => isSome_lookup_insert name value h)
        (.refl parent)

theorem grows_initializeGlobal (name : String) (value : Value)
    (pad : LexicalPad) : pad.Grows (pad.initializeGlobal name value) := by
  induction pad with
  | root pad => exact .root fun _ h => isSome_lookup_insert name value h
  | child pad parent ih => exact .child (fun _ h => h) ih

theorem binds_initializeLocal (name : String) (value : Value)
    (pad : LexicalPad) : (pad.initializeLocal name value).Binds name := by
  cases pad with
  | root pad => simp [initializeLocal, Binds]
  | child pad parent => simp [initializeLocal, Binds]

/-- Every name that gets a value is bound, in the innermost scope. -/
theorem binds_bindArguments (names : List String) (values : List Value)
    (hlength : names.length ≤ values.length) (bindings : Bindings)
    (parent : LexicalPad) :
    ∃ bindings', bindArguments names values (.child bindings parent) =
        .child bindings' parent ∧
      (LexicalPad.child bindings parent).Grows (.child bindings' parent) ∧
      ∀ name ∈ names, (LexicalPad.child bindings' parent).Binds name := by
  induction names generalizing values bindings with
  | nil => exact ⟨bindings, rfl, .refl _, fun _ h => by cases h⟩
  | cons first names ih =>
      cases values with
      | nil => simp at hlength
      | cons value values =>
          obtain ⟨bindings', hbind, hgrows, hnames⟩ := ih values
            (by simpa using hlength) (Assoc.insert first value bindings)
          have hfirst := grows_initializeLocal first value
            (.child bindings parent)
          refine ⟨bindings', hbind, hfirst.trans hgrows, fun name hname => ?_⟩
          rcases List.mem_cons.mp hname with rfl | hname
          · exact hgrows.binds
              (binds_initializeLocal name value (.child bindings parent))
          · exact hnames name hname

/-- The bindings of every pad of the chain, the innermost first. -/
def scopes : LexicalPad → List Bindings
  | .root pad => [pad]
  | .child pad parent => pad :: parent.scopes

theorem binds_iff {name : String} {pad : LexicalPad} :
    pad.Binds name ↔
      ∃ scope ∈ pad.scopes, (scope.lookup name).isSome = true := by
  induction pad with
  | root pad => simp [Binds, scopes]
  | child pad parent ih => simp [Binds, scopes, ih]

/-- Nothing happens to a pad when the name is in none of its scopes. -/
theorem set_unbound {name : String} {pad : LexicalPad} (value : Value)
    (h : ¬ pad.Binds name) :
    pad.set name value = (.runtimeError .nameError, pad) := by
  induction pad with
  | root pad =>
      have hnone : pad.lookup name = none := Option.not_isSome_iff_eq_none.mp h
      simp only [set, hnone]
  | child pad parent ih =>
      have hpad : ¬ (pad.lookup name).isSome = true := fun hbound =>
        h (Or.inl hbound)
      have hparent : ¬ parent.Binds name := fun hbound => h (Or.inr hbound)
      have hnone : pad.lookup name = none :=
        Option.not_isSome_iff_eq_none.mp hpad
      simp only [set, hnone, ih hparent]

/-- The scopes up to the nearest one with an entry for the name. -/
structure Nearest (name : String) (old : Value) (pad : LexicalPad)
    (inner : List Bindings) (scope : Bindings) (outer : List Bindings) :
    Prop where
  scopes : pad.scopes = inner ++ scope :: outer
  notInner : ∀ bindings ∈ inner, bindings.lookup name = none
  bound : scope.lookup name = some old

namespace Nearest

variable {name : String} {old : Value} {pad parent : LexicalPad}
  {bindings scope : Bindings} {inner outer : List Bindings}

theorem here (h : bindings.lookup name = some old) :
    Nearest name old (.child bindings parent) [] bindings parent.scopes where
  scopes := rfl
  notInner := fun _ hmem => by cases hmem
  bound := h

theorem there (hnone : bindings.lookup name = none)
    (h : Nearest name old parent inner scope outer) :
    Nearest name old (.child bindings parent) (bindings :: inner) scope
      outer where
  scopes := congrArg (List.cons bindings) h.scopes
  notInner := by
    intro other hother
    rcases List.mem_cons.mp hother with hfirst | hinner
    · rw [hfirst]
      exact hnone
    · exact h.notInner other hinner
  bound := h.bound

end Nearest

/-- What setting a name that is bound does: the nearest binding, and no other,
has the new value, and its old one is the result. -/
theorem set_bound {name : String} {pad : LexicalPad} (value : Value)
    (h : pad.Binds name) :
    ∃ old inner scope outer, Nearest name old pad inner scope outer ∧
      pad.get name = old ∧ (pad.set name value).1 = old ∧
      Nearest name value (pad.set name value).2 inner
        (Assoc.assign name value scope) outer := by
  induction pad with
  | root bindings =>
      obtain ⟨old, hlookup⟩ := Option.isSome_iff_exists.mp h
      have hassign : (Assoc.assign name value bindings).lookup name =
          some value := by
        simp [Assoc.lookup_assign_self, hlookup]
      refine ⟨old, [], bindings, [], ⟨rfl, ?_, hlookup⟩, ?_⟩
      · intro other hother
        cases hother
      · have hget : (root bindings).get name = old := by
          simp only [get, hlookup]
        have hset : (root bindings).set name value =
            (old, .root (Assoc.assign name value bindings)) := by
          simp only [set, hlookup]
        have hnotInner : ∀ other ∈ ([] : List Bindings),
            other.lookup name = none := by
          intro other hother
          cases hother
        rw [hset]
        exact ⟨hget, rfl, rfl, hnotInner, hassign⟩
  | child bindings parent ih =>
      cases hlookup : bindings.lookup name with
      | some old =>
          have hassign : (Assoc.assign name value bindings).lookup name =
              some value := by
            simp [Assoc.lookup_assign_self, hlookup]
          refine ⟨old, [], bindings, parent.scopes, .here hlookup, ?_⟩
          rw [set_child hlookup]
          exact ⟨get_child hlookup parent, rfl, .here hassign⟩
      | none =>
          have hparent : parent.Binds name := by
            rcases h with hpad | hparent
            · rw [hlookup] at hpad
              cases hpad
            · exact hparent
          obtain ⟨old, inner, scope, outer, hnearest, hget, hold, hafter⟩ :=
            ih hparent
          refine ⟨old, bindings :: inner, scope, outer,
            .there hlookup hnearest, ?_⟩
          simp only [get, set, hlookup]
          exact ⟨hget, hold, .there hlookup hafter⟩

theorem get_of_nearest {name : String} {old : Value} {pad : LexicalPad}
    {inner outer : List Bindings} {scope : Bindings}
    (h : Nearest name old pad inner scope outer) : pad.get name = old := by
  induction pad generalizing inner with
  | root bindings =>
      have hscopes := h.scopes
      cases inner with
      | nil =>
          have hscope : bindings = scope := (List.cons.inj hscopes).1
          have hlookup := h.bound
          rw [← hscope] at hlookup
          simp only [get, hlookup]
      | cons first inner =>
          have htail := (List.cons.inj hscopes).2
          simp at htail
  | child bindings parent ih =>
      have hscopes := h.scopes
      cases inner with
      | nil =>
          have hscope : bindings = scope := (List.cons.inj hscopes).1
          have hlookup := h.bound
          rw [← hscope] at hlookup
          exact get_child hlookup parent
      | cons first inner =>
          obtain ⟨hfirst, hrest⟩ := List.cons.inj hscopes
          have hnone : bindings.lookup name = none := by
            rw [hfirst]
            exact h.notInner first (List.mem_cons_self)
          have hparent : Nearest name old parent inner scope outer :=
            ⟨hrest, fun other hother =>
              h.notInner other (List.mem_cons_of_mem first hother), h.bound⟩
          simp only [get, hnone]
          exact ih hparent

theorem get_set_ne {name other : String} (hne : other ≠ name) (value : Value)
    (pad : LexicalPad) :
    (pad.set name value).2.get other = pad.get other := by
  induction pad with
  | root bindings =>
      cases hlookup : bindings.lookup name with
      | none => simp only [set, hlookup]
      | some old =>
          simp only [set, hlookup, get, Assoc.lookup_assign_ne hne]
  | child bindings parent ih =>
      cases hlookup : bindings.lookup name with
      | none => simp only [set, hlookup, get, ih]
      | some old =>
          simp only [set, hlookup, get, Assoc.lookup_assign_ne hne]

/-- A pad that is initialised keeps its bindings and its ancestors. -/
theorem scopes_initializeLocal (name : String) (value : Value)
    (pad : LexicalPad) :
    ∃ scope outer, pad.scopes = scope :: outer ∧
      (pad.initializeLocal name value).scopes =
        Assoc.insert name value scope :: outer := by
  cases pad with
  | root bindings => exact ⟨bindings, [], rfl, rfl⟩
  | child bindings parent => exact ⟨bindings, parent.scopes, rfl, rfl⟩

theorem lookup_insert_of_bound {name key : String} {old : Value}
    {scope : Bindings} (value : Value) (h : scope.lookup key = some old) :
    (Assoc.insert name value scope).lookup key = some old := by
  by_cases hkey : key = name
  · rw [hkey] at h ⊢
    simp [Assoc.lookup_insert_self, h]
  · simp [Assoc.lookup_insert_ne hkey, h]

/-- The scoping laws of a chain of pads: what `set` does to a name that is
bound and to one that is not, what every other name and scope keeps, and what
`initialize` leaves alone. -/
theorem scoping_laws (pad : LexicalPad) (name : String) (value : Value) :
    ((∃ scope ∈ pad.scopes, (scope.lookup name).isSome = true) →
      ∃ inner scope outer old changed,
        pad.scopes = inner ++ scope :: outer ∧
        (∀ bindings ∈ inner, bindings.lookup name = none) ∧
        scope.lookup name = some old ∧
        pad.get name = old ∧ (pad.set name value).1 = old ∧
        (pad.set name value).2.scopes = inner ++ changed :: outer ∧
        (∀ key, changed.lookup key =
          if key = name then some value else scope.lookup key) ∧
        (pad.set name value).2.get name = value) ∧
    ((∀ scope ∈ pad.scopes, scope.lookup name = none) →
      pad.get name = .runtimeError .nameError ∧
      pad.set name value = (.runtimeError .nameError, pad)) ∧
    (∀ other, other ≠ name →
      (pad.set name value).2.get other = pad.get other) ∧
    ∃ scope changed outer, pad.scopes = scope :: outer ∧
      (pad.initializeLocal name value).scopes = changed :: outer ∧
      ∀ key old, scope.lookup key = some old →
        changed.lookup key = some old := by
  refine ⟨?_, ?_, fun other hne => get_set_ne hne value pad, ?_⟩
  · intro hbound
    obtain ⟨old, inner, scope, outer, hnearest, hget, hold, hafter⟩ :=
      set_bound value (binds_iff.mpr hbound)
    refine ⟨inner, scope, outer, old, Assoc.assign name value scope,
      hnearest.scopes, hnearest.notInner, hnearest.bound, hget, hold,
      hafter.scopes, ?_, get_of_nearest hafter⟩
    intro key
    by_cases hkey : key = name
    · rw [if_pos hkey, hkey]
      exact hafter.bound
    · rw [if_neg hkey]
      exact Assoc.lookup_assign_ne hkey value scope
  · intro hnone
    have hunbound : ¬ pad.Binds name := by
      intro hbinds
      obtain ⟨scope, hscope, hsome⟩ := binds_iff.mp hbinds
      rw [hnone scope hscope] at hsome
      cases hsome
    exact ⟨get_of_not_binds hunbound, set_unbound value hunbound⟩
  · obtain ⟨scope, outer, hscopes, hafter⟩ :=
      scopes_initializeLocal name value pad
    exact ⟨scope, Assoc.insert name value scope, outer, hscopes, hafter,
      fun key old hold => lookup_insert_of_bound value hold⟩

/-- A callee that hangs below its invoker gives the invoker's pad back. -/
theorem afterCall_child (invoker : LexicalPad) (bindings : Bindings)
    (parent : LexicalPad) :
    afterCall true invoker (.child bindings parent) = parent :=
  rfl

end LexicalPad

namespace LexicalPadOperation

variable {operation : LexicalPadOperation} {args : List Value}
  {pad pad' : LexicalPad} {value : Value}

theorem apply_grows (h : operation.apply args pad = .ok (value, pad')) :
    pad.Grows pad' := by
  cases operation with
  | lexicalPadGet name =>
      obtain ⟨_, rfl⟩ := Prod.mk.inj (Except.ok.inj h)
      exact .refl pad
  | lexicalPadAsDict =>
      obtain ⟨_, rfl⟩ := Prod.mk.inj (Except.ok.inj h)
      exact .refl pad
  | lexicalPadInitialize name =>
      cases args with
      | nil => contradiction
      | cons written args =>
          obtain ⟨_, rfl⟩ := Prod.mk.inj (Except.ok.inj h)
          exact LexicalPad.grows_initializeLocal name written pad
  | lexicalPadInitializeGlobal name =>
      cases args with
      | nil => contradiction
      | cons written args =>
          obtain ⟨_, rfl⟩ := Prod.mk.inj (Except.ok.inj h)
          exact LexicalPad.grows_initializeGlobal name written pad
  | lexicalPadSet name =>
      cases args with
      | nil => contradiction
      | cons written args =>
          have hpair := Except.ok.inj h
          have hpad : (pad.set name written).2 = pad' :=
            congrArg Prod.snd hpair
          rw [← hpad]
          exact LexicalPad.grows_set name written pad

end LexicalPadOperation

end NetworkProtocolDsl
