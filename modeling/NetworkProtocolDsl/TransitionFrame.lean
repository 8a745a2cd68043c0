/-
What a read transition leaves in its dictionary.

The dictionary is the one the transition was called with, restricted to the
fields of the message, with the last store of every field.  A run stores the
fields that its parts name, below the scopes of the loops around them.
-/
import NetworkProtocolDsl.LexicalScope
import NetworkProtocolDsl.MessageRoundTrip
import NetworkProtocolDsl.ReadLog

namespace NetworkProtocolDsl

open Generate OpTreeNode EvaluateInOrder IdentifierReference

namespace LexicalPad

/-- The pad with the stores in it. -/
def applyStores (stores : List Stored) (pad : LexicalPad) : LexicalPad :=
  stores.foldl (fun pad stored => (pad.set stored.name stored.value).2) pad

@[simp] theorem applyStores_nil (pad : LexicalPad) :
    pad.applyStores [] = pad :=
  rfl

@[simp] theorem applyStores_cons (stored : Stored) (stores : List Stored)
    (pad : LexicalPad) :
    pad.applyStores (stored :: stores) =
      (pad.set stored.name stored.value).2.applyStores stores :=
  rfl

theorem applyStores_append (first rest : List Stored) (pad : LexicalPad) :
    pad.applyStores (first ++ rest) =
      (pad.applyStores first).applyStores rest :=
  List.foldl_append

theorem set_child_of_none {name : String} {bindings : Bindings}
    (h : bindings.lookup name = none) (value : Value) (parent : LexicalPad) :
    ((child bindings parent).set name value).2 =
      .child bindings (parent.set name value).2 := by
  simp only [set, h]

end LexicalPad

/-- The last store of a name. -/
def lastStored (name : String) : List Stored → Option Stored
  | [] => none
  | stored :: stores =>
      (lastStored name stores).or
        (if stored.name = name then some stored else none)

namespace Stored

variable {stores : List Stored} {name : String} {stored : Stored}

theorem mem_of_lastStored (h : lastStored name stores = some stored) :
    stored ∈ stores ∧ stored.name = name := by
  induction stores with
  | nil => contradiction
  | cons first stores ih =>
      rw [lastStored] at h
      rcases Option.or_eq_some_iff.mp h with h | ⟨_, h⟩
      · obtain ⟨hmem, hname⟩ := ih h
        exact ⟨List.mem_cons_of_mem first hmem, hname⟩
      · split_ifs at h with hname
        obtain rfl := Option.some.inj h
        exact ⟨List.mem_cons_self, hname⟩

end Stored

namespace LexicalPad

/-- The stores of bound names stay in the innermost scope: it keeps its names,
and every one holds what was stored last. -/
theorem applyStores_bound {stores : List Stored} {bindings : Bindings}
    (hbound : ∀ stored ∈ stores,
      (bindings.lookup stored.name).isSome = true) (parent : LexicalPad) :
    ∃ bindings', (child bindings parent).applyStores stores =
        .child bindings' parent ∧
      ∀ name, bindings'.lookup name = ((lastStored name stores).map
        Stored.value).or (bindings.lookup name) := by
  induction stores generalizing bindings with
  | nil => exact ⟨bindings, rfl, fun name => rfl⟩
  | cons stored stores ih =>
      have hfirst := hbound stored List.mem_cons_self
      obtain ⟨old, hold⟩ := Option.isSome_iff_exists.mp hfirst
      have hrest : ∀ other ∈ stores, ((Assoc.assign stored.name stored.value
          bindings).lookup other.name).isSome = true := fun other hother =>
        isSome_lookup_assign stored.name stored.value
          (hbound other (List.mem_cons_of_mem stored hother))
      obtain ⟨bindings', happly, hlookup⟩ := ih hrest
      refine ⟨bindings', ?_, fun name => ?_⟩
      · rw [applyStores_cons, set_child hold]
        exact happly
      · rw [hlookup, lastStored]
        by_cases hname : stored.name = name
        · subst hname
          rw [Assoc.lookup_assign_self, hold, if_pos rfl]
          cases lastStored stored.name stores <;> rfl
        · rw [Assoc.lookup_assign_ne (Ne.symm hname), if_neg hname]
          cases lastStored name stores <;> rfl

/-- The stores below a scope with one variable: those of other names go to the
scopes around it. -/
theorem applyStores_variable (stores : List Stored) {loopVariable : String}
    {bindings : Bindings} (hbound : ∀ name,
      (bindings.lookup name).isSome = true ↔ name = loopVariable)
    (parent : LexicalPad) :
    ∃ bindings', (child bindings parent).applyStores stores = .child bindings'
      (parent.applyStores
        (stores.filter fun stored => stored.name ≠ loopVariable)) := by
  induction stores generalizing bindings parent with
  | nil => exact ⟨bindings, rfl⟩
  | cons stored stores ih =>
      rw [applyStores_cons]
      by_cases hname : stored.name = loopVariable
      · obtain ⟨old, hold⟩ := Option.isSome_iff_exists.mp
          ((hbound stored.name).mpr hname)
        rw [set_child hold, List.filter_cons_of_neg (by simp [hname])]
        refine ih (fun name => ?_) parent
        rw [← hbound name]
        by_cases hother : name = stored.name
        · rw [hother, Assoc.lookup_assign_self, hold]
          rfl
        · rw [Assoc.lookup_assign_ne hother]
      · have hnone : bindings.lookup stored.name = none :=
          Option.not_isSome_iff_eq_none.mp
            fun h => hname ((hbound stored.name).mp h)
        rw [set_child_of_none hnone, List.filter_cons_of_pos (by simp [hname]),
          applyStores_cons]
        exact ih hbound _

end LexicalPad

section Pads

variable {eof : Bool}

/-- What holds of every store of the body holds of every store of the rounds.
-/
theorem ReadsRounds.mem_stores {element : Callable} {loopVariable : String}
    {body : World → ReadLog → World → Prop} {P : Stored → Prop}
    (hbody : ∀ w log w', body w log w' → ∀ stored ∈ log.stores, P stored)
    {w w' : World} {values elements : List Value} {stop : Value}
    {log : ReadLog} (h : ReadsRounds eof element loopVariable body w values
      stop log elements w') : ∀ stored ∈ log.stores, P stored := by
  induction h with
  | last _ _ hlog _ => exact hbody _ _ _ hlog
  | next _ _ hlog _ _ ih =>
      intro stored hstored
      rcases List.mem_append.mp hstored with hstored | hstored
      · exact hbody _ _ _ hlog stored hstored
      · exact ih stored hstored

theorem ReadsRounds.pad_eq {element : Callable} {loopVariable : String}
    {body : World → ReadLog → World → Prop}
    (hbody : ∀ w log w', body w log w' →
      w'.pad = w.pad.applyStores log.stores)
    {w w' : World} {values elements : List Value} {stop : Value}
    {log : ReadLog} (h : ReadsRounds eof element loopVariable body w values
      stop log elements w') :
    w'.pad = w.pad.applyStores
      (log.stores.filter fun stored => stored.name ≠ loopVariable) := by
  have hbound : ∀ name, ([(loopVariable, Value.dictionary [])].lookup
      name).isSome = true ↔ name = loopVariable := by
    intro name
    by_cases hname : name = loopVariable
    · simp [hname]
    · simp [List.lookup_cons, beq_false_of_ne hname, hname]
  have hround : ∀ {w middle : World} {log : ReadLog},
      body (w.startElement loopVariable) log middle →
        LexicalPad.afterCall true w.pad middle.pad = w.pad.applyStores
          (log.stores.filter fun stored => stored.name ≠ loopVariable) := by
    intro w middle log hlog
    obtain ⟨bindings, happly⟩ :=
      LexicalPad.applyStores_variable log.stores hbound w.pad
    rw [hbody _ _ _ hlog, World.startElement, happly]
    rfl
  induction h with
  | last _ _ hlog hpad => exact hpad.trans (hround hlog)
  | next _ _ hlog hpad _ ih =>
      rw [ih, hpad, hround hlog, ReadLog.append_stores, List.filter_append,
        LexicalPad.applyStores_append]

mutual

/-- A part leaves the pad with its stores. -/
theorem Action.Reads.pad_eq {getType : ExtractTypeClosure} {action : Action}
    {w w' : World} {value : Value} {log : ReadLog}
    (h : action.Reads eof getType w value log w') :
    w'.pad = w.pad.applyStores log.stores := by
  match action with
  | .readStaticOctets _ =>
      obtain ⟨_, hpad, rfl⟩ := h
      exact hpad
  | .readOctetsUntilTerminator _ _ _ =>
      obtain ⟨_, _, _, _, _, _, _, _, _, rfl, rfl⟩ := h
      rfl
  | .writeFromIdentifier _ _ | .writeStaticOctets _ => exact h.elim
  | .loop loopVariable collection terminator actions =>
      obtain ⟨wrapper, _, _, _, inner, _, w₁, _, _, hrounds, _, rfl, rfl⟩ := h
      have hbody : ∀ w log w', (∃ results, ReadsAll eof wrapper actions w
          results log w') → w'.pad = w.pad.applyStores log.stores := by
        rintro w log w' ⟨results, hall⟩
        exact Action.ReadsAll.pad_eq hall
      rw [storeLoop, LexicalPad.applyStores_append, ← hrounds.pad_eq hbody]
      rfl

theorem Action.ReadsAll.pad_eq {getType : ExtractTypeClosure}
    {actions : List Action} {w w' : World} {values : List Value}
    {log : ReadLog} (h : ReadsAll eof getType actions w values log w') :
    w'.pad = w.pad.applyStores log.stores := by
  match actions with
  | [] =>
      obtain ⟨_, rfl, rfl⟩ := h
      rfl
  | action :: actions =>
      obtain ⟨value, first, w₁, hfirst, h⟩ := h
      have hpad := Action.Reads.pad_eq hfirst
      rcases h with ⟨_, _, rfl, rfl⟩ | ⟨_, others, rest, hrest, _, rfl⟩
      · exact hpad
      · rw [Action.ReadsAll.pad_eq hrest, hpad, ReadLog.append_stores,
          LexicalPad.applyStores_append]

end

end Pads

namespace Action

mutual

/-- The names that a part stores outside of its own scope, in their order. -/
def targets : Action → List (String × StoreKind)
  | .readOctetsUntilTerminator _ identifier _ =>
      [(identifier.name, fieldKind identifier)]
  | .loop loopVariable collection _ actions =>
      (targetsAll actions).filter (fun target => target.1 ≠ loopVariable.name) ++
        [(collection.name, .loop)]
  | .readStaticOctets _ | .writeFromIdentifier _ _ | .writeStaticOctets _ => []

def targetsAll : List Action → List (String × StoreKind)
  | [] => []
  | action :: actions => targets action ++ targetsAll actions

end

end Action

/-- How the parts read a name last. -/
def lastKind (name : String) : List (String × StoreKind) → Option StoreKind
  | [] => none
  | target :: targets =>
      (lastKind name targets).or
        (if target.1 = name then some target.2 else none)

theorem lastKind_append (name : String)
    (first rest : List (String × StoreKind)) :
    lastKind name (first ++ rest) =
      (lastKind name rest).or (lastKind name first) := by
  induction first with
  | nil => rw [List.nil_append, lastKind, Option.or_none]
  | cons target first ih =>
      rw [List.cons_append, lastKind, lastKind, ih, Option.or_assoc]

theorem lastKind_filter (name loopVariable : String)
    (targets : List (String × StoreKind)) :
    lastKind name (targets.filter fun target => target.1 ≠ loopVariable) =
      if name = loopVariable then none else lastKind name targets := by
  induction targets with
  | nil => simp [lastKind]
  | cons target targets ih =>
      by_cases htarget : target.1 = loopVariable
      · rw [List.filter_cons_of_neg (by simp [htarget]), ih]
        split_ifs with hname
        · rfl
        · rw [lastKind, if_neg fun h => hname (h.symm.trans htarget),
            Option.or_none]
      · rw [List.filter_cons_of_pos (by simp [htarget]), lastKind, ih]
        by_cases hname : name = loopVariable
        · rw [if_pos hname, if_pos hname,
            if_neg fun h => htarget (h.trans hname)]
          rfl
        · rw [if_neg hname, if_neg hname, lastKind]

namespace Stored

def target (stored : Stored) : String × StoreKind :=
  (stored.name, stored.kind)

theorem lastKind_target (name : String) (stores : List Stored) :
    lastKind name (stores.map target) =
      (lastStored name stores).map Stored.kind := by
  induction stores with
  | nil => rfl
  | cons stored stores ih =>
      rw [List.map_cons, lastKind, lastStored, ih]
      cases lastStored name stores with
      | some _ => rfl
      | none =>
          change (if stored.name = name then some stored.kind else none) =
            (if stored.name = name then some stored else none).map kind
          split_ifs <;> rfl

theorem map_target_filter (loopVariable : String) (stores : List Stored) :
    (stores.filter fun stored => stored.name ≠ loopVariable).map target =
      (stores.map target).filter fun target => target.1 ≠ loopVariable := by
  rw [List.filter_map]
  rfl

end Stored

section Targets

variable {eof : Bool}

mutual

/-- What a part stores, it names; and its operation has the type of the name. -/
theorem Action.Reads.mem_targets {getType : ExtractTypeClosure}
    {action : Action} {w w' : World} {value : Value} {log : ReadLog}
    (h : action.Reads eof getType w value log w') {stored : Stored}
    (hstored : stored ∈ log.stores) :
    stored.target ∈ action.targets ∧ (getType stored.name).isSome = true := by
  match action with
  | .readStaticOctets _ =>
      obtain ⟨_, _, rfl⟩ := h
      exact absurd hstored List.not_mem_nil
  | .readOctetsUntilTerminator _ identifier _ =>
      obtain ⟨type, _, _, _, htype, _, _, _, _, rfl, _⟩ := h
      obtain rfl := List.mem_singleton.mp hstored
      refine ⟨List.mem_singleton_self _, ?_⟩
      match identifier with
      | .mk name none => exact Option.isSome_of_eq_some htype
      | .mk name (some member) =>
          obtain ⟨outer, houter, _⟩ := Option.bind_eq_some_iff.mp htype
          exact Option.isSome_of_eq_some houter
  | .writeFromIdentifier _ _ | .writeStaticOctets _ => exact h.elim
  | .loop loopVariable collection terminator actions =>
      obtain ⟨wrapper, _, _, _, inner, _, _, hwrapper, _, hrounds, _, rfl, _⟩ :=
        h
      have hbody : ∀ w log w', (∃ results, ReadsAll eof wrapper actions w
          results log w') → ∀ stored ∈ log.stores,
            stored.target ∈ targetsAll actions ∧
              (wrapper stored.name).isSome = true := by
        rintro w log w' ⟨results, hall⟩ stored hstored
        exact Action.ReadsAll.mem_targets hall hstored
      obtain ⟨type, element, htype, _, rfl⟩ :=
        createGetTypeWrapper_eq_ok.mp hwrapper
      rcases List.mem_append.mp hstored with hstored | hstored
      · obtain ⟨hinner, hname⟩ := List.mem_filter.mp hstored
        have hother : stored.name ≠ loopVariable.name :=
          of_decide_eq_true hname
        obtain ⟨htarget, hknown⟩ := hrounds.mem_stores hbody stored hinner
        have houter : elementScope getType loopVariable.name element
            stored.name = getType stored.name := if_neg hother
        rw [houter] at hknown
        exact ⟨List.mem_append_left _ (List.mem_filter.mpr ⟨htarget, hname⟩),
          hknown⟩
      · obtain rfl := List.mem_singleton.mp hstored
        exact ⟨List.mem_append_right _ (List.mem_singleton_self _),
          Option.isSome_of_eq_some htype⟩

theorem Action.ReadsAll.mem_targets {getType : ExtractTypeClosure}
    {actions : List Action} {w w' : World} {values : List Value}
    {log : ReadLog} (h : ReadsAll eof getType actions w values log w')
    {stored : Stored} (hstored : stored ∈ log.stores) :
    stored.target ∈ targetsAll actions ∧
      (getType stored.name).isSome = true := by
  match actions with
  | [] =>
      obtain ⟨_, rfl, _⟩ := h
      exact absurd hstored List.not_mem_nil
  | action :: actions =>
      obtain ⟨value, first, w₁, hfirst, h⟩ := h
      rcases h with ⟨_, _, rfl, _⟩ | ⟨_, others, rest, hrest, _, rfl⟩
      · obtain ⟨htarget, hknown⟩ := Action.Reads.mem_targets hfirst hstored
        exact ⟨List.mem_append_left _ htarget, hknown⟩
      · rcases List.mem_append.mp hstored with hstored | hstored
        · obtain ⟨htarget, hknown⟩ := Action.Reads.mem_targets hfirst hstored
          exact ⟨List.mem_append_left _ htarget, hknown⟩
        · obtain ⟨htarget, hknown⟩ := Action.ReadsAll.mem_targets hrest hstored
          exact ⟨List.mem_append_right _ htarget, hknown⟩

end

/-- Nothing in a part without failures stops the sequence the part is in. -/
theorem Action.Reads.goes {getType : ExtractTypeClosure} {action : Action}
    {w w' : World} {value : Value} {log : ReadLog}
    (h : action.Reads eof getType w value log w')
    (hclean : log.failures = []) : value.stops = false := by
  cases action with
  | readStaticOctets _ =>
      obtain ⟨_, _, rfl⟩ := h
      simpa using hclean
  | readOctetsUntilTerminator _ _ _ =>
      obtain ⟨_, _, _, _, _, _, _, _, _, rfl, _⟩ := h
      have hvalues := List.filter_eq_nil_iff.mp hclean
      simpa using hvalues value (by simp)
  | writeFromIdentifier _ _ | writeStaticOctets _ => exact h.elim
  | loop _ _ _ _ =>
      obtain ⟨_, _, _, _, _, _, _, _, _, _, _, rfl, _⟩ := h
      have hvalues := List.filter_eq_nil_iff.mp
        (List.append_eq_nil_iff.mp hclean).2
      simpa using hvalues value (by simp)

theorem Action.ReadsAll.runsThrough {getType : ExtractTypeClosure}
    {actions : List Action} {w w' : World} {values : List Value}
    {log : ReadLog} (h : ReadsAll eof getType actions w values log w')
    (hclean : log.failures = []) : RunsThrough values := by
  induction actions generalizing w values log with
  | nil =>
      obtain ⟨rfl, _⟩ := h
      exact fun _ hvalue => absurd hvalue List.not_mem_nil
  | cons action actions ih =>
      obtain ⟨value, first, w₁, hfirst, h⟩ := h
      rcases h with ⟨hstops, _, rfl, _⟩ | ⟨hgoes, others, rest, hrest, rfl, rfl⟩
      · rw [hfirst.goes hclean] at hstops
        contradiction
      · have hothers := ih hrest (List.append_eq_nil_iff.mp hclean).2
        intro other hother
        rcases List.mem_cons.mp hother with rfl | hother
        · exact hgoes
        · exact hothers other hother

theorem ReadsRounds.lastKind_eq {element : Callable} {loopVariable : String}
    {body : World → ReadLog → World → Prop} {name : String}
    {kind : Option StoreKind} (hbody : ∀ w log w', body w log w' →
      log.failures = [] → lastKind name (log.stores.map Stored.target) = kind)
    {w w' : World} {values elements : List Value} {stop : Value}
    {log : ReadLog} (h : ReadsRounds eof element loopVariable body w values
      stop log elements w') (hclean : log.failures = []) :
    lastKind name (log.stores.map Stored.target) = kind := by
  induction h with
  | last _ _ hlog _ => exact hbody _ _ _ hlog hclean
  | next _ _ hlog _ _ ih =>
      obtain ⟨hfirst, hrest⟩ := List.append_eq_nil_iff.mp hclean
      rw [ReadLog.append_stores, List.map_append, lastKind_append, ih hrest,
        hbody _ _ _ hlog hfirst, Option.or_self]

mutual

/-- A part without failures stores a name last as it names it last. -/
theorem Action.Reads.lastKind_eq {getType : ExtractTypeClosure}
    {action : Action} {w w' : World} {value : Value} {log : ReadLog}
    (h : action.Reads eof getType w value log w')
    (hclean : log.failures = []) (name : String) :
    lastKind name (log.stores.map Stored.target) =
      lastKind name action.targets := by
  match action with
  | .readStaticOctets _ =>
      obtain ⟨_, _, rfl⟩ := h
      rfl
  | .readOctetsUntilTerminator _ _ _ =>
      obtain ⟨_, _, _, _, _, _, _, _, _, rfl, _⟩ := h
      rfl
  | .writeFromIdentifier _ _ | .writeStaticOctets _ => exact h.elim
  | .loop loopVariable collection terminator actions =>
      obtain ⟨wrapper, _, _, _, inner, _, _, _, _, hrounds, _, rfl, _⟩ := h
      have hbody : ∀ w log w', (∃ results, ReadsAll eof wrapper actions w
          results log w') → log.failures = [] →
            lastKind name (log.stores.map Stored.target) =
              lastKind name (targetsAll actions) := by
        rintro w log w' ⟨results, hall⟩ hclean
        exact Action.ReadsAll.lastKind_eq hall hclean name
      have hinner := hrounds.lastKind_eq hbody
        (List.append_eq_nil_iff.mp hclean).1
      rw [storeLoop, targets, List.map_append, lastKind_append,
        lastKind_append, Stored.map_target_filter, lastKind_filter,
        lastKind_filter, hinner]
      rfl

theorem Action.ReadsAll.lastKind_eq {getType : ExtractTypeClosure}
    {actions : List Action} {w w' : World} {values : List Value}
    {log : ReadLog} (h : ReadsAll eof getType actions w values log w')
    (hclean : log.failures = []) (name : String) :
    lastKind name (log.stores.map Stored.target) =
      lastKind name (targetsAll actions) := by
  match actions with
  | [] =>
      obtain ⟨_, rfl, _⟩ := h
      rfl
  | action :: actions =>
      obtain ⟨value, first, w₁, hfirst, h⟩ := h
      rcases h with ⟨hstops, _, rfl, _⟩ | ⟨_, others, rest, hrest, _, rfl⟩
      · rw [Action.Reads.goes hfirst hclean] at hstops
        contradiction
      · obtain ⟨hclean, hrestClean⟩ := List.append_eq_nil_iff.mp hclean
        rw [ReadLog.append_stores, List.map_append, lastKind_append,
          targetsAll, lastKind_append,
          Action.Reads.lastKind_eq hfirst hclean name,
          Action.ReadsAll.lastKind_eq hrest hrestClean name]

end

end Targets

section Values

variable {eof : Bool}

/-- A loop goes one round further than it has values for its list. -/
theorem ReadsRounds.length_elements {element : Callable} {loopVariable : String}
    {body : World → ReadLog → World → Prop} {w w' : World}
    {values elements : List Value} {stop : Value} {log : ReadLog}
    (h : ReadsRounds eof element loopVariable body w values stop log elements
      w') : elements.length = values.length + 1 := by
  induction h with
  | last _ _ _ _ => rfl
  | next _ _ _ _ _ ih => rw [List.length_cons, ih, List.length_cons]

theorem GenerateList.outcome_ne {values elements : List Value}
    (hlength : elements.length = values.length + 1) (stop : Value) :
    Value.dynamicList elements ≠ outcome values stop := by
  intro h
  cases stop with
  | runtimeError _ => contradiction
  | bool _ | int32 _ | octets _ | dynamicList _ | dictionary _ | callable _
  | controlFlowInstruction _ =>
      rw [Value.dynamicList.inj h] at hlength
      exact absurd hlength (Nat.ne_of_lt (Nat.lt_succ_self _))

/-- A field that is read whole is set to what was read, the collection of a
loop to something else. -/
def Stored.Faithful (stored : Stored) : Prop :=
  (stored.kind = .field → stored.value = stored.read) ∧
    (stored.kind = .loop → stored.value ≠ stored.read)

theorem Action.faithful_storeField (identifier : IdentifierReference)
    (pad : LexicalPad) (written : Value) :
    (storeField identifier pad written).Faithful := by
  match identifier with
  | .mk name none =>
      refine ⟨fun _ => rfl, fun h => ?_⟩
      cases h
  | .mk name (some member) =>
      constructor <;> intro h <;> cases h

mutual

theorem Action.Reads.faithful {getType : ExtractTypeClosure} {action : Action}
    {w w' : World} {value : Value} {log : ReadLog}
    (h : action.Reads eof getType w value log w') :
    ∀ stored ∈ log.stores, stored.Faithful := by
  match action with
  | .readStaticOctets _ =>
      obtain ⟨_, _, rfl⟩ := h
      exact fun _ hstored => absurd hstored List.not_mem_nil
  | .readOctetsUntilTerminator _ identifier _ =>
      obtain ⟨_, _, written, _, _, _, _, _, _, rfl, _⟩ := h
      intro stored hstored
      rw [List.mem_singleton.mp hstored]
      exact faithful_storeField identifier w.pad written
  | .writeFromIdentifier _ _ | .writeStaticOctets _ => exact h.elim
  | .loop loopVariable collection terminator actions =>
      obtain ⟨wrapper, _, values, stop, inner, elements, _, _, _, hrounds, _,
        rfl, _⟩ := h
      have hbody : ∀ w log w', (∃ results, ReadsAll eof wrapper actions w
          results log w') → ∀ stored ∈ log.stores, stored.Faithful := by
        rintro w log w' ⟨results, hall⟩
        exact Action.ReadsAll.faithful hall
      intro stored hstored
      rcases List.mem_append.mp hstored with hstored | hstored
      · exact hrounds.mem_stores hbody stored (List.mem_filter.mp hstored).1
      · rw [List.mem_singleton.mp hstored]
        refine ⟨fun h => ?_, fun _ =>
          (GenerateList.outcome_ne hrounds.length_elements stop).symm⟩
        cases h

theorem Action.ReadsAll.faithful {getType : ExtractTypeClosure}
    {actions : List Action} {w w' : World} {values : List Value}
    {log : ReadLog} (h : ReadsAll eof getType actions w values log w') :
    ∀ stored ∈ log.stores, stored.Faithful := by
  match actions with
  | [] =>
      obtain ⟨_, rfl, _⟩ := h
      exact fun _ hstored => absurd hstored List.not_mem_nil
  | action :: actions =>
      obtain ⟨value, first, w₁, hfirst, h⟩ := h
      rcases h with ⟨_, _, rfl, _⟩ | ⟨_, others, rest, hrest, _, rfl⟩
      · exact Action.Reads.faithful hfirst
      · intro stored hstored
        rcases List.mem_append.mp hstored with hstored | hstored
        · exact Action.Reads.faithful hfirst stored hstored
        · exact Action.ReadsAll.faithful hrest stored hstored

end

end Values

/-- The dictionary has the fields of the message, and one that no part stores
holds what it held before, or `false`. -/
structure KeepsFields (data : MessageData) (actions : List Action)
    (carried bindings : Bindings) : Prop where
  keys : ∀ name, (bindings.lookup name).isSome = true ↔
    name ∈ extractArgumentNames data
  others : ∀ name ∈ extractArgumentNames data,
    (∀ kind, (name, kind) ∉ Action.targetsAll actions) →
      bindings.lookup name = some ((carried.lookup name).getD (.bool false))

/-- If the parts read the name whole when they read it last, the dictionary has
what was read. -/
def HoldsLastRead (name : String) (actions : List Action)
    (stores : List Stored) (bindings : Bindings) : Prop :=
  ∀ kind, lastKind name (Action.targetsAll actions) = some kind →
    kind ≠ .member → ∃ stored, lastStored name stores = some stored ∧
      bindings.lookup name = some stored.read

section Transition

variable {eof : Bool} {operations : List OpTreeNode} {w w' : World}
  {value : Value}

/-- A transition that ends has evaluated its parts in order. -/
theorem transitionOptree_inOrder
    (hreads : ∀ operation ∈ operations, operation.OnlyReads)
    (h : (transitionOptree operations).RunsTo eof w value w') :
    ∃ results last, EvaluateInOrder eof operations w results last := by
  have hdict : (OpTreeNode.mk (.lexicalPad .lexicalPadAsDict) []).OnlyReads :=
    .lexicalPad (Nat.le_refl 0) fun _ h => absurd h List.not_mem_nil
  have hchildren : ∀ child ∈ [opSequence operations,
      .mk (.dynamicInput .dynamicList)
        [.mk (.lexicalPad .lexicalPadAsDict) []]], child.OnlyReads := by
    intro child hchild
    rcases List.mem_cons.mp hchild with rfl | hchild
    · exact onlyReads_opSequence hreads
    · rw [List.mem_singleton.mp hchild]
      exact .dynamicInput fun _ h => List.mem_singleton.mp h ▸ hdict
  obtain ⟨values, horder, _⟩ := OnlyReads.inOrder hchildren h
  cases horder with
  | stop hsequence _ =>
      obtain ⟨results, hresults, _⟩ := OnlyReads.inOrder hreads
        hsequence.runsTo
      exact ⟨results, _, hresults⟩
  | cons hsequence _ _ =>
      obtain ⟨results, hresults, _⟩ := OnlyReads.inOrder hreads
        hsequence.runsTo
      exact ⟨results, _, hresults⟩

variable {data : MessageData} {actions : List Action} {tree : OpTreeNode}
  {carried : Bindings} {outer : LexicalPad} {errno : Errno}
  {input output : List Octets}

/-- What a run of a read transition without failures leaves: the dictionary
keeps the fields no part stores, and a field has what was read last just when
the last part to store it is no loop over it. -/
theorem readTransition_holdsLastRead_iff
    (hgenerate : generateTransitionOptree (.readTransition data actions) =
      .ok tree)
    (hruns : tree.RunsTo eof
      ⟨transitionPad tree data carried outer, errno, input, output⟩ value w') :
    ∃ results log last, Action.ReadsAll eof (extractType data) actions
        ⟨transitionPad tree data carried outer, errno, input, output⟩ results
        log last ∧
      (log.failures = [] → ∃ bindings,
        value = .dynamicList [.dictionary bindings] ∧
        w'.pad = .child bindings outer ∧
        KeepsFields data actions carried bindings ∧
        ∀ name, HoldsLastRead name actions log.stores bindings ↔
          lastKind name (Action.targetsAll actions) ≠ some .loop) := by
  obtain ⟨operations, hoperations, hgenerate⟩ := bind_eq_ok hgenerate
  obtain rfl := Except.ok.inj hgenerate
  obtain ⟨results, last, horder⟩ := transitionOptree_inOrder
    (actionsToOptreenodes_onlyReads _ _ hoperations) hruns
  obtain ⟨log, hlog⟩ := Action.readsAll_of_evaluates _ _ hoperations horder
  refine ⟨results, log, last, hlog, fun hclean => ?_⟩
  obtain ⟨rfl, rfl⟩ := hruns.unique
    (transitionOptree_evaluates horder (hlog.runsThrough hclean)).runsTo
  obtain ⟨start, hstart, hlookup⟩ := transitionPad_lookup
    (transitionOptree operations) data carried outer
  have hpad := hlog.pad_eq
  have hbound : ∀ stored ∈ log.stores,
      (start.lookup stored.name).isSome = true := by
    intro stored hstored
    obtain ⟨type, htype⟩ := Option.isSome_iff_exists.mp
      (hlog.mem_targets hstored).2
    have hmem : stored.name ∈ extractArgumentNames data :=
      mem_extractArgumentNames htype
    rw [hlookup, if_pos hmem]
    rfl
  obtain ⟨bindings, happly, hafter⟩ :=
    LexicalPad.applyStores_bound hbound outer
  simp only at hpad
  rw [hstart, happly] at hpad
  have hkind : ∀ name, lastKind name (Action.targetsAll actions) =
      (lastStored name log.stores).map Stored.kind := by
    intro name
    rw [← Stored.lastKind_target]
    exact (hlog.lastKind_eq hclean name).symm
  refine ⟨bindings, by rw [hpad]; rfl, hpad, ⟨fun name => ?_,
    fun name hname hother => ?_⟩, fun name => ⟨fun hholds hloop => ?_,
      fun hnot kind hlast hwhole => ?_⟩⟩
  · rw [hafter]
    cases hlast : lastStored name log.stores with
    | none =>
        rw [Option.map_none, Option.none_or, hlookup]
        split_ifs with hname <;> simp [hname]
    | some stored =>
        obtain ⟨hmem, rfl⟩ := Stored.mem_of_lastStored hlast
        have hstored := hbound stored hmem
        rw [hlookup] at hstored
        split_ifs at hstored with hname
        · simp [hname]
        · contradiction
  · have hnone : lastStored name log.stores = none := by
      rw [Option.eq_none_iff_forall_not_mem]
      intro stored hstored
      obtain ⟨hmem, rfl⟩ := Stored.mem_of_lastStored hstored
      exact hother stored.kind (hlog.mem_targets hmem).1
    rw [hafter, hnone, Option.map_none, Option.none_or, hlookup, if_pos hname]
  · have hmember : StoreKind.loop ≠ .member := by decide
    obtain ⟨stored, hstored, hread⟩ := hholds .loop hloop hmember
    rw [hkind, hstored] at hloop
    rw [hafter, hstored] at hread
    exact (hlog.faithful stored (Stored.mem_of_lastStored hstored).1).2
      (Option.some.inj hloop) (Option.some.inj hread)
  · rw [hkind] at hlast hnot
    obtain ⟨stored, hstored, rfl⟩ := Option.map_eq_some_iff.mp hlast
    have hfield : stored.kind = .field := by
      cases hcase : stored.kind with
      | field => rfl
      | member => exact absurd hcase hwhole
      | loop => exact absurd (hlast.trans (congrArg some hcase)) hnot
    have hvalue := (hlog.faithful stored
      (Stored.mem_of_lastStored hstored).1).1 hfield
    refine ⟨stored, hstored, ?_⟩
    rw [hafter, hstored, ← hvalue]
    rfl

end Transition

def lineData : MessageData := [("lines", linesType)]

/-- The parts of a message of lines. -/
def lineParts : List Action :=
  [.loop (.mk "line" none) (.mk "lines" none) [10] lineReads]

def lineTransition : OpTreeNode := transitionOptree [lineLoopRead]

/-- The transition is called with an empty dictionary, and the line `a` and the
line feed that ends the list are there. -/
def lineWorld : World :=
  ⟨transitionPad lineTransition lineData [] (.root []), 0, [[97, 10, 10]], []⟩

theorem lineTransition_generated :
    generateTransitionOptree (.readTransition lineData lineParts) =
      .ok lineTransition := by
  have hparts : actionsToOptreenodes .read (extractType lineData) lineParts =
      .ok [lineLoopRead] := by
    rw [lineParts, actionsToOptreenodes, lineData, lineLoop_read]
    rfl
  change (actionsToOptreenodes .read (extractType lineData) lineParts >>=
    fun operations => pure (transitionOptree operations)) = _
  rw [hparts]
  rfl

/-- The parts read the line, and the transition leaves an empty list. -/
theorem lineTransition_runs :
    ∃ input, Action.ReadsAll false (extractType lineData) lineParts lineWorld
        [.bool false] ⟨[⟨"lines", .loop,
          .dynamicList [.dictionary [("text", .octets [97])]],
          .dynamicList []⟩], []⟩
        ⟨.child [("lines", .dynamicList [])] (.root []), 0, input, []⟩ ∧
      lineTransition.RunsTo false lineWorld
        (.dynamicList [.dictionary [("lines", .dynamicList [])]])
        ⟨.child [("lines", .dynamicList [])] (.root []), 0, input, []⟩ := by
  let start : World := lineWorld.startElement "line"
  have hinput : start.input = [([97] : Octets) ++ [10] ++ [10]] := rfl
  have hread : ∃ unread, (readOctetsUntilTerminator [10] none).Evaluates false
      start (.octets [97]) { start with input := unread } := by
    obtain ⟨unread, _, hread⟩ :=
      evaluates_readOctetsUntilTerminator (by decide) hinput
    exact ⟨unread, hread⟩
  obtain ⟨unread, hread⟩ := hread
  have hbody : Action.ReadsAll false lineGetType lineReads start
      [.dictionary []]
      ⟨[Action.storeField (.mk "line" (some (.mk "text" none))) start.pad
        (.octets [97])], []⟩
      { start with
        pad := .child [("line", .dictionary [("text", .octets [97])])]
          lineWorld.pad
        input := unread } :=
    ⟨.dictionary [], _, _, ⟨_, _, .octets [97], _, rfl, rfl, hread, rfl, rfl,
      rfl, rfl⟩, Or.inr ⟨rfl, [], .empty, ⟨rfl, rfl, rfl⟩, rfl, rfl⟩⟩
  have hterminated := line_conditions.1 _ (List.mem_singleton_self _)
  have hline : lineWorld.input =
      [Action.encoding (fun _ => [97]) lineReads ++ ([10] ++ [])] := rfl
  obtain ⟨_, input, _, _, hlast, _⟩ := @readElement_evaluates lineGetType "line"
    linesType.lineType lineReads lineReadOperations false lineReads_tupleString
    rfl lineReads_operations _ hterminated [10] (by decide) lineWorld [10] []
    hline (Or.inl rfl)
  have hround := (hlast rfl).2
  have hrounds : ReadsRounds false (readElement "line" [10]
      lineReadOperations) "line" (fun w log w' => ∃ results,
        Action.ReadsAll false lineGetType lineReads w results log w')
      lineWorld [] (.controlFlowInstruction .interruptGenerator) _ _
      { lineWorld with input := input } :=
    .last hround rfl ⟨_, hbody⟩ rfl
  have hloop : (Action.loop (.mk "line" none) (.mk "lines" none) [10]
      lineReads).Reads false (extractType lineData) lineWorld (.bool false) _
      ⟨.child [("lines", .dynamicList [])] (.root []), 0, input, []⟩ :=
    ⟨_, lineReadOperations, [], _, _, _, _, rfl, lineReads_operations, hrounds,
      rfl, rfl, rfl⟩
  have hall : Action.ReadsAll false (extractType lineData) lineParts lineWorld
      [.bool false] _
      ⟨.child [("lines", .dynamicList [])] (.root []), 0, input, []⟩ :=
    ⟨.bool false, _, _, hloop,
      Or.inr ⟨rfl, [], .empty, ⟨rfl, rfl, rfl⟩, rfl, rfl⟩⟩
  refine ⟨input, hall, ?_⟩
  have hlist := evaluates_lexicalPadSet "lines" (evaluates_generateList rfl
    evaluates_staticCallable (.interrupt hround))
  have horder : EvaluateInOrder false [lineLoopRead] lineWorld [.bool false]
      ⟨.child [("lines", .dynamicList [])] (.root []), 0, input, []⟩ :=
    .cons hlist rfl (.nil _)
  have hthrough : RunsThrough [.bool false] :=
    List.forall_mem_singleton.mpr rfl
  exact (transitionOptree_evaluates horder hthrough).runsTo

/-- A transition that ends with the line in no list. -/
theorem readTransition_holdsLastRead_iff_lines :
    ∃ value w', generateTransitionOptree (.readTransition lineData lineParts) =
        .ok lineTransition ∧
      lineTransition.RunsTo false lineWorld value w' ∧
      ∃ results log last, Action.ReadsAll false (extractType lineData)
          lineParts lineWorld results log last ∧
        (log.failures = [] → ∃ bindings,
          value = .dynamicList [.dictionary bindings] ∧
          w'.pad = .child bindings (.root []) ∧
          KeepsFields lineData lineParts [] bindings ∧
          ∀ name, HoldsLastRead name lineParts log.stores bindings ↔
            lastKind name (Action.targetsAll lineParts) ≠ some .loop) := by
  obtain ⟨input, _, hruns⟩ := lineTransition_runs
  exact ⟨_, _, lineTransition_generated, hruns,
    readTransition_holdsLastRead_iff lineTransition_generated hruns⟩

/-- The line that was read is not in the dictionary. -/
theorem line_not_in_dictionary :
    generateTransitionOptree (.readTransition lineData lineParts) =
        .ok lineTransition ∧
      ∃ log bindings w', Action.ReadsAll false (extractType lineData)
          lineParts lineWorld [.bool false] log w' ∧ log.failures = [] ∧
        lineTransition.RunsTo false lineWorld
          (.dynamicList [.dictionary bindings]) w' ∧
        ¬ HoldsLastRead "lines" lineParts log.stores bindings := by
  obtain ⟨input, hall, hruns⟩ := lineTransition_runs
  refine ⟨lineTransition_generated, _, _, _, hall, rfl, hruns, fun hholds => ?_⟩
  obtain ⟨stored, hstored, hread⟩ := hholds .loop rfl (by decide)
  obtain rfl := Option.some.inj hstored
  have hread := Option.some.inj hread
  rw [Value.dynamicList.injEq] at hread
  contradiction

end NetworkProtocolDsl
