/-
Lexical pads: chains of scopes.

A pad owns its bindings and its parent chain.  Only the continuation on top of
the stack runs, so the sharing of a parent between an invoker and its callee is
carried by handing the chain to the callee and taking it back when it returns.
-/
import NetworkProtocolDsl.Library.Assoc
import NetworkProtocolDsl.Value

namespace NetworkProtocolDsl

abbrev Bindings := List (String × Value)

inductive LexicalPad where
  | root (pad : Bindings)
  | child (pad : Bindings) (parent : LexicalPad)

namespace LexicalPad

def bindings : LexicalPad → Bindings
  | .root pad => pad
  | .child pad _ => pad

def get (name : String) : LexicalPad → Value
  | .root pad =>
      match pad.lookup name with
      | some value => value
      | none => .runtimeError .nameError
  | .child pad parent =>
      match pad.lookup name with
      | some value => value
      | none => parent.get name

/-- Replace the nearest binding of `name`; the result is the value it had. -/
def set (name : String) (value : Value) : LexicalPad → Value × LexicalPad
  | .root pad =>
      match pad.lookup name with
      | some old => (old, .root (Assoc.assign name value pad))
      | none => (.runtimeError .nameError, .root pad)
  | .child pad parent =>
      match pad.lookup name with
      | some old => (old, .child (Assoc.assign name value pad) parent)
      | none =>
          let (result, parent) := parent.set name value
          (result, .child pad parent)

def initializeLocal (name : String) (value : Value) : LexicalPad → LexicalPad
  | .root pad => .root (Assoc.insert name value pad)
  | .child pad parent => .child (Assoc.insert name value pad) parent

def initializeGlobal (name : String) (value : Value) :
    LexicalPad → LexicalPad
  | .root pad => .root (Assoc.insert name value pad)
  | .child pad parent => .child pad (parent.initializeGlobal name value)

def asDict (pad : LexicalPad) : Value :=
  .dictionary pad.bindings

/-- The pad every chain ends in. -/
def rootPad : LexicalPad → LexicalPad
  | .root pad => .root pad
  | .child _ parent => parent.rootPad

/-- Put `bottom` where the chain ends. -/
def withRootPad : LexicalPad → LexicalPad → LexicalPad
  | .root _, bottom => bottom
  | .child pad parent, bottom => .child pad (parent.withRootPad bottom)

/-- The chain an invoker takes back from the pad of the callee it hung below
its own pad or below the root pad. -/
def afterCall (inherits : Bool) (invoker : LexicalPad) :
    LexicalPad → LexicalPad
  | .root _ => invoker
  | .child _ parent =>
      if inherits then parent else invoker.withRootPad parent

/-- Bind argument names to values in order; names beyond the list stay
unbound. -/
def bindArguments : List String → List Value → LexicalPad → LexicalPad
  | name :: names, value :: values, pad =>
      bindArguments names values (pad.initializeLocal name value)
  | _, _, pad => pad

theorem get_child {name : String} {value : Value} {pad : Bindings}
    (h : pad.lookup name = some value) (parent : LexicalPad) :
    (child pad parent).get name = value := by
  simp only [get, h]

theorem set_child {name : String} {old : Value} {pad : Bindings}
    (h : pad.lookup name = some old) (value : Value) (parent : LexicalPad) :
    (child pad parent).set name value =
      (old, .child (Assoc.assign name value pad) parent) := by
  simp only [set, h]

/-- A name that is bound holds what it is set to. -/
theorem get_set_of_bound {name : String} {pad : LexicalPad}
    (h : pad.get name ≠ .runtimeError .nameError) (value : Value) :
    (pad.set name value).2.get name = value := by
  induction pad with
  | root pad =>
      cases hlookup : pad.lookup name with
      | none => exact absurd (by simp [get, hlookup]) h
      | some old => simp [set, get, hlookup]
  | child pad parent ih =>
      cases hlookup : pad.lookup name with
      | none =>
          have hparent : parent.get name ≠ .runtimeError .nameError := by
            simpa [get, hlookup] using h
          simpa [set, get, hlookup] using ih hparent
      | some old => simp [set, get, hlookup]

/-- Arguments are bound in the innermost pad, where they are not bound yet. -/
theorem bindArguments_child (names : List String) (argument : String → Value)
    (pad : Bindings) (parent : LexicalPad) :
    ∃ pad', bindArguments names (names.map argument) (.child pad parent) =
        .child pad' parent ∧
      ∀ name, pad'.lookup name = (pad.lookup name).or
        (if name ∈ names then some (argument name) else none) := by
  induction names generalizing pad with
  | nil => exact ⟨pad, rfl, fun name => by simp⟩
  | cons first names ih =>
      obtain ⟨pad', hbind, hlookup⟩ :=
        ih (Assoc.insert first (argument first) pad)
      refine ⟨pad', hbind, fun name => ?_⟩
      rw [hlookup]
      by_cases hname : name = first
      · subst hname
        rw [Assoc.lookup_insert_self]
        cases pad.lookup name <;> simp
      · rw [Assoc.lookup_insert_ne hname]
        simp [hname]

end LexicalPad

end NetworkProtocolDsl
