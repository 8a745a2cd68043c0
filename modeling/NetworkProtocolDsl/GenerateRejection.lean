/-
When the generator gives up on a protocol and when it fails.

The members of a variable are looked up among the parameters of its type, and
every parameter on the way is taken for a type.  A path that comes to a
boolean, an integer or a string ends the generator, unless an earlier action of
the transition has made it give up.
-/
import Mathlib.Data.List.Forall2
import NetworkProtocolDsl.FieldAccess
import NetworkProtocolDsl.SingleMessage

namespace NetworkProtocolDsl

open Generate PartsToReadActions PartsToWriteActions

namespace DataType

/-- A type that is read and written as octets. -/
def IsScalar (type : DataType) : Prop :=
  type.name.name = "int" ∨ type.name.name = "str"

def IsArrayOfTuples (type : DataType) : Prop :=
  type.name.name = "array" ∧ ∃ elementType,
    type.parameters.lookup "element_type" = some (.type elementType) ∧
      elementType.name.name = "tuple"

end DataType

namespace IdentifierReference

/-- The type at the end of a path of members through tuples. -/
def memberOfTuples (type : DataType) : IdentifierReference → Option DataType
  | .mk name member =>
      match type.parameters.lookup name with
      | some (.type type) =>
          match member with
          | none => some type
          | some member =>
              if type.name.name = "tuple" then memberOfTuples type member
              else none
      | _ => none

/-- A path of members through tuples comes to a parameter that is no type. -/
def MeetsNonType (type : DataType) : IdentifierReference → Prop
  | .mk name member =>
      match type.parameters.lookup name with
      | some (.type type) =>
          match member with
          | none => False
          | some member => type.name.name = "tuple" ∧ MeetsNonType type member
      | some _ => True
      | none => False

/-- The identifier names an integer or a string. -/
def NamesScalar (getType : ExtractTypeClosure) : IdentifierReference → Prop
  | .mk name none => ∃ type, getType name = some type ∧ type.IsScalar
  | .mk name (some member) =>
      ∃ type lastType, getType name = some type ∧
        memberOfTuples type member = some lastType ∧ lastType.IsScalar

/-- The members of the identifier come to a parameter that is no type. -/
def NamesNonType (getType : ExtractTypeClosure) : IdentifierReference → Prop
  | .mk _ none => False
  | .mk name (some member) =>
      ∃ type, getType name = some type ∧ MeetsNonType type member

end IdentifierReference

/-- The types of the names inside of a loop over such elements. -/
def elementScope (getType : ExtractTypeClosure) (loopVariable : String)
    (element : TypeParameterValue) : ExtractTypeClosure :=
  fun name =>
    if name = loopVariable then
      match element with
      | .type type => some type
      | _ => none
    else getType name

mutual

/-- There are operations for the action. -/
def Action.Supported (transition : TransitionType)
    (getType : ExtractTypeClosure) : Action → Prop
  | .readOctetsUntilTerminator _ identifier _ =>
      transition = .read ∧ identifier.NamesScalar getType
  | .readStaticOctets _ => transition = .read
  | .writeFromIdentifier identifier _ =>
      transition = .write ∧ identifier.NamesScalar getType
  | .writeStaticOctets _ => transition = .write
  | .loop loopVariable collection _ actions =>
      ∃ type element, getType collection.name = some type ∧
        type.parameters.lookup "element_type" = some element ∧
        AllSupported transition (elementScope getType loopVariable.name element)
          actions ∧
        (transition = .read → ∃ type,
          elementScope getType loopVariable.name element collection.name =
            some type ∧ type.IsArrayOfTuples)

def AllSupported (transition : TransitionType) (getType : ExtractTypeClosure) :
    List Action → Prop
  | [] => True
  | action :: actions =>
      action.Supported transition getType ∧
        AllSupported transition getType actions

end

mutual

/-- The action comes to a parameter that is no type. -/
def Action.NamesNonType (transition : TransitionType)
    (getType : ExtractTypeClosure) : Action → Prop
  | .readOctetsUntilTerminator _ identifier _ =>
      transition = .read ∧ identifier.NamesNonType getType
  | .readStaticOctets _ => False
  | .writeFromIdentifier identifier _ =>
      transition = .write ∧ identifier.NamesNonType getType
  | .writeStaticOctets _ => False
  | .loop loopVariable collection _ actions =>
      ∃ type element, getType collection.name = some type ∧
        type.parameters.lookup "element_type" = some element ∧
        FirstNamesNonType transition
          (elementScope getType loopVariable.name element) actions

/-- The first of the actions that is not supported names no type. -/
def FirstNamesNonType (transition : TransitionType)
    (getType : ExtractTypeClosure) : List Action → Prop
  | [] => False
  | action :: actions =>
      action.NamesNonType transition getType ∨
        action.Supported transition getType ∧
          FirstNamesNonType transition getType actions

end

namespace Generate

section Outcome

variable {α β : Type}

def Fails (generated : Except Rejection α) : Prop :=
  generated = .error .badVariantAccess

def Succeeds (generated : Except Rejection α) : Prop :=
  ∃ a, generated = .ok a

/-- What is generated, or nothing. -/
def Returns (generated : Except Rejection α) : Prop :=
  Succeeds generated ∨ generated = .error .nullopt

theorem returns_iff {generated : Except Rejection α} :
    Returns generated ↔ ¬ Fails generated := by
  rcases generated with (_ | _) | a <;> simp [Returns, Succeeds, Fails]

@[simp] theorem not_fails_ok (a : α) :
    ¬ Fails (.ok a : Except Rejection α) := by
  simp [Fails]

@[simp] theorem not_fails_nullopt :
    ¬ Fails (.error .nullopt : Except Rejection α) := by
  simp [Fails]

@[simp] theorem fails_badVariantAccess :
    Fails (.error .badVariantAccess : Except Rejection α) := rfl

@[simp] theorem not_fails_orNullopt (o : Option α) : ¬ Fails (orNullopt o) := by
  cases o <;> simp [orNullopt]

@[simp] theorem succeeds_ok (a : α) : Succeeds (.ok a : Except Rejection α) :=
  ⟨a, rfl⟩

@[simp] theorem not_succeeds_error (rejection : Rejection) :
    ¬ Succeeds (.error rejection : Except Rejection α) := by
  simp [Succeeds]

theorem fails_bind {generated : Except Rejection α}
    {next : α → Except Rejection β} :
    Fails (generated >>= next) ↔
      Fails generated ∨ ∃ a, generated = .ok a ∧ Fails (next a) := by
  rcases generated with (_ | _) | a <;>
    simp [Fails, bind, Except.bind]

theorem succeeds_bind {generated : Except Rejection α}
    {next : α → Except Rejection β} :
    Succeeds (generated >>= next) ↔
      ∃ a, generated = .ok a ∧ Succeeds (next a) := by
  rcases generated with _ | a <;> simp [Succeeds, bind, Except.bind]

theorem orNullopt_eq_ok_iff {o : Option α} {a : α} :
    orNullopt o = .ok a ↔ o = some a := by
  cases o <;> simp [orNullopt]

theorem succeeds_bind_pure {generated : Except Rejection α} {f : α → β} :
    Succeeds (generated >>= fun a => pure (f a)) ↔ Succeeds generated := by
  rw [succeeds_bind]
  exact exists_congr fun a => and_iff_left (succeeds_ok (f a))

theorem fails_bind_pure {generated : Except Rejection α} {f : α → β} :
    Fails (generated >>= fun a => pure (f a)) ↔ Fails generated := by
  simp [fails_bind, pure, Except.pure]

theorem generated_bind_eq_ok {generated : Except Rejection α}
    {next : α → Except Rejection β} {b : β} :
    (generated >>= next) = .ok b ↔
      ∃ a, generated = .ok a ∧ next a = .ok b := by
  cases generated <;> simp [bind, Except.bind]

theorem orNullopt_bind_eq_ok {o : Option α} {next : α → Except Rejection β}
    {b : β} :
    (orNullopt o >>= next) = .ok b ↔ ∃ a, o = some a ∧ next a = .ok b := by
  simp only [generated_bind_eq_ok, orNullopt_eq_ok_iff]

theorem fails_orNullopt_bind {o : Option α} {next : α → Except Rejection β} :
    Fails (orNullopt o >>= next) ↔ ∃ a, o = some a ∧ Fails (next a) := by
  simp [fails_bind, orNullopt_eq_ok_iff]

theorem succeeds_orNullopt_bind {o : Option α}
    {next : α → Except Rejection β} :
    Succeeds (orNullopt o >>= next) ↔
      ∃ a, o = some a ∧ Succeeds (next a) := by
  simp [succeeds_bind, orNullopt_eq_ok_iff]

end Outcome

section Access

variable {valueToWrite : Option GenerateOpTreeValueFromType}

/-- An access fails where its path comes to a parameter that is no type. -/
theorem fails_recursiveVariableAccess
    (hwrite : ∀ value ∈ valueToWrite, ∀ type, ¬ Fails (value type))
    (type : DataType) (identifier : IdentifierReference)
    (currentAccess : OpTreeNode) :
    Fails (recursiveVariableAccess type identifier currentAccess
      valueToWrite) ↔ identifier.MeetsNonType type := by
  match identifier with
  | .mk name member =>
      rw [recursiveVariableAccess.eq_def, IdentifierReference.MeetsNonType,
        fails_orNullopt_bind]
      cases hlookup : type.parameters.lookup name with
      | none => simp
      | some parameter =>
          cases parameter with
          | boolean _ | integer _ | string _ => simp
          | type memberType =>
              cases member with
              | none =>
                  cases valueToWrite with
                  | none => simp [pure, Except.pure]
                  | some value =>
                      have hvalue := hwrite value rfl memberType
                      simp [fails_bind, hvalue, pure, Except.pure]
              | some member =>
                  have ih := fails_recursiveVariableAccess hwrite memberType
                    member (.mk (.interpreted (.dictionaryGet name))
                      [currentAccess])
                  by_cases htuple : memberType.name.name = "tuple"
                  · simp [htuple, ih]
                  · simp [htuple]

/-- An access is generated where its path leads through tuples to a type. -/
theorem recursiveVariableAccess_eq_ok (type lastType : DataType)
    (identifier : IdentifierReference) (currentAccess : OpTreeNode) :
    (∃ lastAccess, recursiveVariableAccess type identifier currentAccess
      valueToWrite = .ok (lastAccess, lastType)) ↔
      identifier.memberOfTuples type = some lastType ∧
        ∀ value ∈ valueToWrite, Succeeds (value lastType) := by
  match identifier with
  | .mk name member =>
      rw [recursiveVariableAccess.eq_def, IdentifierReference.memberOfTuples]
      simp only [orNullopt_bind_eq_ok]
      cases hlookup : type.parameters.lookup name with
      | none => simp
      | some parameter =>
          cases parameter with
          | boolean _ | integer _ | string _ => simp
          | type memberType =>
              cases member with
              | none =>
                  cases valueToWrite with
                  | none => simp [pure, Except.pure]
                  | some value =>
                      simp only [Option.some.injEq, exists_eq_left',
                        generated_bind_eq_ok, pure, Except.pure,
                        Except.ok.injEq, Prod.mk.injEq, Option.mem_def,
                        forall_eq', Succeeds]
                      constructor
                      · rintro ⟨_, access, haccess, _, rfl⟩
                        exact ⟨rfl, access, haccess⟩
                      · rintro ⟨rfl, access, haccess⟩
                        exact ⟨_, access, haccess, rfl, rfl⟩
              | some member =>
                  have ih := recursiveVariableAccess_eq_ok memberType lastType
                    member (.mk (.interpreted (.dictionaryGet name))
                      [currentAccess])
                  by_cases htuple : memberType.name.name = "tuple"
                  · simpa [htuple] using ih
                  · simp [htuple]

theorem succeeds_recursiveVariableAccess (type : DataType)
    (identifier : IdentifierReference) (currentAccess : OpTreeNode) :
    Succeeds (recursiveVariableAccess type identifier currentAccess
      valueToWrite) ↔
      ∃ lastType, identifier.memberOfTuples type = some lastType ∧
        ∀ value ∈ valueToWrite, Succeeds (value lastType) := by
  simp only [Succeeds, Prod.exists]
  rw [exists_comm]
  exact exists_congr fun lastType =>
    recursiveVariableAccess_eq_ok type lastType identifier currentAccess

end Access

theorem not_fails_readValueFromOctets (type : DataType) (terminator : Octets)
    (escape : Option EscapeInfo) :
    ¬ Fails (readValueFromOctets type terminator escape) := by
  unfold readValueFromOctets
  split
  · simp
  · split <;> simp

theorem succeeds_readValueFromOctets (type : DataType) (terminator : Octets)
    (escape : Option EscapeInfo) :
    Succeeds (readValueFromOctets type terminator escape) ↔ type.IsScalar := by
  unfold readValueFromOctets DataType.IsScalar
  split_ifs with hint hstr <;> simp [*]

theorem not_fails_writeOctetsFromValue (type : DataType) (value : OpTreeNode)
    (escape : Option EscapeInfo) :
    ¬ Fails (writeOctetsFromValue type value escape) := by
  unfold writeOctetsFromValue
  split
  · simp
  · split <;> simp

theorem succeeds_writeOctetsFromValue (type : DataType) (value : OpTreeNode)
    (escape : Option EscapeInfo) :
    Succeeds (writeOctetsFromValue type value escape) ↔ type.IsScalar := by
  unfold writeOctetsFromValue DataType.IsScalar
  split_ifs with hint hstr <;> simp [*]

section Visit

variable {getType : ExtractTypeClosure}

theorem fails_visitReadOctetsUntilTerminator {terminator : Octets}
    {identifier : IdentifierReference} {escape : Option EscapeInfo} :
    Fails (visitReadOctetsUntilTerminator getType terminator identifier
      escape) ↔ identifier.NamesNonType getType := by
  have hread := not_fails_readValueFromOctets
  rw [visitReadOctetsUntilTerminator, fails_orNullopt_bind]
  match identifier with
  | .mk name none =>
      simp only [IdentifierReference.member, IdentifierReference.NamesNonType,
        fails_bind_pure, hread, and_false, exists_false]
  | .mk name (some member) =>
      have hvalue : ∀ value ∈ (some fun type =>
          readValueFromOctets type terminator escape),
          ∀ type, ¬ Fails (value type) := by
        simp [hread]
      have haccess := fun type => fails_recursiveVariableAccess hvalue type
        member (lexicalPadGet name)
      simp only [IdentifierReference.member, IdentifierReference.name,
        IdentifierReference.NamesNonType, fails_bind_pure, haccess]

theorem succeeds_visitReadOctetsUntilTerminator {terminator : Octets}
    {identifier : IdentifierReference} {escape : Option EscapeInfo} :
    Succeeds (visitReadOctetsUntilTerminator getType terminator identifier
      escape) ↔ identifier.NamesScalar getType := by
  rw [visitReadOctetsUntilTerminator, succeeds_orNullopt_bind]
  match identifier with
  | .mk name none =>
      simp only [IdentifierReference.member, IdentifierReference.name,
        IdentifierReference.NamesScalar, succeeds_bind_pure,
        succeeds_readValueFromOctets]
  | .mk name (some member) =>
      simp only [IdentifierReference.member, IdentifierReference.name,
        IdentifierReference.NamesScalar, succeeds_bind_pure,
        succeeds_recursiveVariableAccess, Option.mem_def, Option.some.injEq,
        forall_eq', succeeds_readValueFromOctets, exists_and_left]

theorem fails_visitWriteFromIdentifier {identifier : IdentifierReference}
    {escape : Option EscapeInfo} :
    Fails (visitWriteFromIdentifier getType identifier escape) ↔
      identifier.NamesNonType getType := by
  have hwrite := not_fails_writeOctetsFromValue
  rw [visitWriteFromIdentifier, fails_orNullopt_bind]
  match identifier with
  | .mk name none =>
      simp only [IdentifierReference.member, IdentifierReference.NamesNonType,
        hwrite, and_false, exists_false]
  | .mk name (some member) =>
      have haccess := fun type => @fails_recursiveVariableAccess none (by simp)
        type member (lexicalPadGet name)
      simp only [IdentifierReference.member, IdentifierReference.name,
        IdentifierReference.NamesNonType, fails_bind, haccess, hwrite,
        and_false, exists_false, or_false]

theorem succeeds_visitWriteFromIdentifier {identifier : IdentifierReference}
    {escape : Option EscapeInfo} :
    Succeeds (visitWriteFromIdentifier getType identifier escape) ↔
      identifier.NamesScalar getType := by
  rw [visitWriteFromIdentifier, succeeds_orNullopt_bind]
  match identifier with
  | .mk name none =>
      simp only [IdentifierReference.member, IdentifierReference.name,
        IdentifierReference.NamesScalar, succeeds_writeOctetsFromValue]
  | .mk name (some member) =>
      have haccess := fun type lastType => @recursiveVariableAccess_eq_ok none
        type lastType member (lexicalPadGet name)
      simp only [IdentifierReference.member, IdentifierReference.name,
        IdentifierReference.NamesScalar, succeeds_bind, Prod.exists,
        succeeds_writeOctetsFromValue]
      constructor
      · rintro ⟨type, htype, lastAccess, lastType, hlast, hscalar⟩
        exact ⟨type, lastType, htype,
          ((haccess type lastType).mp ⟨lastAccess, hlast⟩).1, hscalar⟩
      · rintro ⟨type, lastType, htype, hmember, hscalar⟩
        obtain ⟨lastAccess, hlast⟩ :=
          (haccess type lastType).mpr ⟨hmember, by simp⟩
        exact ⟨type, htype, lastAccess, lastType, hlast, hscalar⟩

theorem createGetTypeWrapper_eq_ok {loopVariable collection : String}
    {wrapper : ExtractTypeClosure} :
    createGetTypeWrapper getType loopVariable collection = .ok wrapper ↔
      ∃ type element, getType collection = some type ∧
        type.parameters.lookup "element_type" = some element ∧
        wrapper = elementScope getType loopVariable element := by
  simp only [createGetTypeWrapper, orNullopt_bind_eq_ok, pure, Except.pure,
    Except.ok.injEq]
  constructor
  · rintro ⟨type, htype, element, helement, rfl⟩
    exact ⟨type, element, htype, helement, rfl⟩
  · rintro ⟨type, element, htype, helement, rfl⟩
    exact ⟨type, htype, element, helement, rfl⟩

theorem not_fails_createGetTypeWrapper (loopVariable collection : String) :
    ¬ Fails (createGetTypeWrapper getType loopVariable collection) := by
  simp [createGetTypeWrapper, fails_orNullopt_bind, pure, Except.pure]

theorem not_fails_initializeLoopVariable (collection loopVariable : String) :
    ¬ Fails (initializeLoopVariable getType collection loopVariable) := by
  rw [initializeLoopVariable, fails_orNullopt_bind]
  rintro ⟨type, _, hfails⟩
  split_ifs at hfails
  · obtain ⟨parameter, _, hfails⟩ := fails_orNullopt_bind.mp hfails
    cases parameter with
    | type elementType =>
        simp only at hfails
        split_ifs at hfails <;> cases hfails
    | boolean _ | integer _ | string _ => cases hfails
  · cases hfails

theorem succeeds_initializeLoopVariable {collection loopVariable : String} :
    Succeeds (initializeLoopVariable getType collection loopVariable) ↔
      ∃ type, getType collection = some type ∧ type.IsArrayOfTuples := by
  rw [initializeLoopVariable, succeeds_orNullopt_bind]
  refine exists_congr fun type => and_congr_right fun _ => ?_
  unfold DataType.IsArrayOfTuples
  split_ifs with harray
  · simp only [succeeds_orNullopt_bind, harray, true_and]
    constructor
    · rintro ⟨parameter, hparameter, hsucceeds⟩
      cases parameter with
      | type elementType =>
          refine ⟨elementType, hparameter, ?_⟩
          by_contra htuple
          simp [htuple] at hsucceeds
      | boolean _ | integer _ | string _ => simp at hsucceeds
    · rintro ⟨elementType, hparameter, htuple⟩
      exact ⟨_, hparameter, by simp [htuple, pure, Except.pure]⟩
  · simp [harray]

end Visit

theorem succeeds_visitLoop {transition : TransitionType}
    {getType : ExtractTypeClosure}
    {loopVariable collection : IdentifierReference} {terminator : Octets}
    {actions : List Action}
    (hactions : ∀ getType, Succeeds (actionsToOptreenodes transition getType
      actions) ↔ AllSupported transition getType actions) :
    Succeeds (visitAction transition getType
      (.loop loopVariable collection terminator actions)) ↔
      (Action.loop loopVariable collection terminator actions).Supported
        transition getType := by
  rw [visitAction, Action.Supported, succeeds_bind]
  simp only [createGetTypeWrapper_eq_ok]
  constructor
  · rintro ⟨_, ⟨type, element, htype, helement, rfl⟩, hsucceeds⟩
    obtain ⟨operations, hoperations, hsucceeds⟩ := succeeds_bind.mp hsucceeds
    refine ⟨type, element, htype, helement,
      (hactions _).mp ⟨operations, hoperations⟩, fun hread => ?_⟩
    subst hread
    exact succeeds_initializeLoopVariable.mp (succeeds_bind_pure.mp hsucceeds)
  · rintro ⟨type, element, htype, helement, hsupported, harray⟩
    obtain ⟨operations, hoperations⟩ := (hactions _).mpr hsupported
    refine ⟨_, ⟨type, element, htype, helement, rfl⟩,
      succeeds_bind.mpr ⟨operations, hoperations, ?_⟩⟩
    cases transition with
    | read =>
        exact succeeds_bind_pure.mpr
          (succeeds_initializeLoopVariable.mpr (harray rfl))
    | write => exact succeeds_ok _

theorem fails_visitLoop {transition : TransitionType}
    {getType : ExtractTypeClosure}
    {loopVariable collection : IdentifierReference} {terminator : Octets}
    {actions : List Action}
    (hactions : ∀ getType, Fails (actionsToOptreenodes transition getType
      actions) ↔ FirstNamesNonType transition getType actions) :
    Fails (visitAction transition getType
      (.loop loopVariable collection terminator actions)) ↔
      (Action.loop loopVariable collection terminator actions).NamesNonType
        transition getType := by
  rw [visitAction, Action.NamesNonType, fails_bind]
  simp only [createGetTypeWrapper_eq_ok, not_fails_createGetTypeWrapper,
    false_or]
  constructor
  · rintro ⟨_, ⟨type, element, htype, helement, rfl⟩, hfails⟩
    refine ⟨type, element, htype, helement, (hactions _).mp ?_⟩
    rcases fails_bind.mp hfails with hfails | ⟨operations, _, hfails⟩
    · exact hfails
    · cases transition with
      | read =>
          exact absurd (fails_bind_pure.mp hfails)
            (not_fails_initializeLoopVariable _ _)
      | write => exact absurd hfails (not_fails_ok _)
  · rintro ⟨type, element, htype, helement, hfails⟩
    exact ⟨_, ⟨type, element, htype, helement, rfl⟩,
      fails_bind.mpr (Or.inl ((hactions _).mpr hfails))⟩

mutual

/-- An operation is generated for what is supported. -/
theorem succeeds_visitAction (transition : TransitionType)
    (getType : ExtractTypeClosure) : (action : Action) →
      (Succeeds (visitAction transition getType action) ↔
        action.Supported transition getType)
  | .readOctetsUntilTerminator terminator identifier escape => by
      cases transition with
      | read =>
          simp [visitAction, Action.Supported,
            succeeds_visitReadOctetsUntilTerminator]
      | write => simp [visitAction, Action.Supported]
  | .readStaticOctets octets => by
      cases transition <;> simp [visitAction, Action.Supported]
  | .writeFromIdentifier identifier escape => by
      cases transition with
      | read => simp [visitAction, Action.Supported]
      | write =>
          simp [visitAction, Action.Supported,
            succeeds_visitWriteFromIdentifier]
  | .writeStaticOctets octets => by
      cases transition <;> simp [visitAction, Action.Supported]
  | .loop loopVariable collection terminator actions =>
      succeeds_visitLoop fun getType =>
        succeeds_actionsToOptreenodes transition getType actions

theorem succeeds_actionsToOptreenodes (transition : TransitionType)
    (getType : ExtractTypeClosure) : (actions : List Action) →
      (Succeeds (actionsToOptreenodes transition getType actions) ↔
        AllSupported transition getType actions)
  | [] => by
      rw [actionsToOptreenodes, AllSupported]
      simp
  | action :: actions => by
      rw [actionsToOptreenodes, AllSupported, succeeds_bind,
        ← succeeds_visitAction transition getType action,
        ← succeeds_actionsToOptreenodes transition getType actions]
      simp only [succeeds_bind_pure, exists_and_right]
      exact Iff.rfl

end

mutual

/-- The generator fails at an action that comes to no type. -/
theorem fails_visitAction (transition : TransitionType)
    (getType : ExtractTypeClosure) : (action : Action) →
      (Fails (visitAction transition getType action) ↔
        action.NamesNonType transition getType)
  | .readOctetsUntilTerminator terminator identifier escape => by
      cases transition with
      | read =>
          simp [visitAction, Action.NamesNonType,
            fails_visitReadOctetsUntilTerminator]
      | write => simp [visitAction, Action.NamesNonType]
  | .readStaticOctets octets => by
      cases transition <;> simp [visitAction, Action.NamesNonType]
  | .writeFromIdentifier identifier escape => by
      cases transition with
      | read => simp [visitAction, Action.NamesNonType]
      | write =>
          simp [visitAction, Action.NamesNonType,
            fails_visitWriteFromIdentifier]
  | .writeStaticOctets octets => by
      cases transition <;> simp [visitAction, Action.NamesNonType]
  | .loop loopVariable collection terminator actions =>
      fails_visitLoop fun getType =>
        fails_actionsToOptreenodes transition getType actions

theorem fails_actionsToOptreenodes (transition : TransitionType)
    (getType : ExtractTypeClosure) : (actions : List Action) →
      (Fails (actionsToOptreenodes transition getType actions) ↔
        FirstNamesNonType transition getType actions)
  | [] => by
      rw [actionsToOptreenodes, FirstNamesNonType]
      simp
  | action :: actions => by
      rw [actionsToOptreenodes, FirstNamesNonType, fails_bind,
        fails_visitAction transition getType action,
        ← succeeds_visitAction transition getType action,
        ← fails_actionsToOptreenodes transition getType actions]
      simp only [fails_bind_pure, exists_and_right]
      exact Iff.rfl

end

end Generate

/-- The generator comes to a parameter that is no type, unless it gives up on
another transition. -/
def Transition.NamesNonType (transition : Transition) : Prop :=
  FirstNamesNonType (transitionType transition) (extractType transition.data)
    transition.actions

def State.NamesNonType (state : State) : Prop :=
  ∃ entry ∈ state.transitions, entry.2.1.NamesNonType

def Agent.NamesNonType (agent : Agent) : Prop :=
  ∃ entry ∈ agent.states, entry.2.NamesNonType

/-- The same maps of states and transitions in some order of iteration. -/
def Agent.Lists (agent listed : Agent) : Prop :=
  ∃ states, agent.states.Perm states ∧
    states.Forall₂ (fun entry entry' => entry.1 = entry'.1 ∧
      entry.2.transitions.Perm entry'.2.transitions) listed.states

structure Protocol.Lists (protocol listed : Protocol) : Prop where
  client : protocol.client.Lists listed.client
  server : protocol.server.Lists listed.server

theorem Agent.Lists.refl (agent : Agent) : agent.Lists agent :=
  ⟨agent.states, List.Perm.refl _,
    List.forall₂_same.mpr fun _ _ => ⟨rfl, List.Perm.refl _⟩⟩

/-- The order of iteration does not matter to what the transitions name. -/
theorem Agent.Lists.namesNonType {agent listed : Agent}
    (h : agent.Lists listed) (hnames : listed.NamesNonType) :
    agent.NamesNonType := by
  obtain ⟨states, hperm, hlisted⟩ := h
  obtain ⟨entry', hentry', transition, htransition, hnames⟩ := hnames
  obtain ⟨i, hi, rfl⟩ := List.mem_iff_getElem.mp hentry'
  have hi' : i < states.length := hlisted.length_eq.symm ▸ hi
  have hrelated := (List.forall₂_iff_get.mp hlisted).2 i hi' hi
  exact ⟨states[i], hperm.mem_iff.mpr (List.getElem_mem hi'), transition,
    hrelated.2.mem_iff.mpr htransition, hnames⟩

/-- Any transition may be the first that is visited. -/
theorem Agent.Lists.exists_first {agent : Agent} {entry : String × State}
    {transition : Octets × (Transition × String)}
    (hentry : entry ∈ agent.states)
    (htransition : transition ∈ entry.2.transitions) :
    ∃ transitions states, agent.Lists
      ⟨(entry.1, ⟨transition :: transitions⟩) :: states⟩ := by
  obtain ⟨before, after, hstates⟩ := List.append_of_mem hentry
  obtain ⟨first, last, htransitions⟩ := List.append_of_mem htransition
  refine ⟨first ++ last, before ++ after, entry :: (before ++ after), ?_,
    .cons ⟨rfl, ?_⟩ (List.forall₂_same.mpr fun _ _ => ⟨rfl, .refl _⟩)⟩
  · rw [hstates]
    exact List.perm_middle
  · rw [htransitions]
    exact List.perm_middle

namespace Generate

theorem fails_mapM {α β : Type} {f : α → Except Rejection β} {xs : List α}
    (h : Fails (xs.mapM f)) : ∃ x ∈ xs, Fails (f x) := by
  induction xs with
  | nil => exact absurd h (not_fails_ok [])
  | cons x xs ih =>
      rw [List.mapM_cons] at h
      rcases fails_bind.mp h with h | ⟨y, _, h⟩
      · exact ⟨x, List.mem_cons_self, h⟩
      · obtain ⟨x', hx', hfails⟩ := ih (fails_bind_pure.mp h)
        exact ⟨x', List.mem_cons_of_mem x hx', hfails⟩

theorem fails_mapM_cons {α β : Type} {f : α → Except Rejection β} {x : α}
    (h : Fails (f x)) (xs : List α) : Fails ((x :: xs).mapM f) := by
  rw [List.mapM_cons]
  exact fails_bind.mpr (Or.inl h)

theorem fails_generateTransitionInfo {transition : Transition}
    {targetState : String} :
    Fails (generateTransitionInfo transition targetState) ↔
      transition.NamesNonType := by
  rw [generateTransitionInfo, fails_bind_pure, generateTransitionOptree,
    fails_bind_pure, fails_actionsToOptreenodes, Transition.NamesNonType]

theorem fails_constructTransitions
    {transitions : List (Octets × (Transition × String))}
    {type : Option TransitionType}
    (h : Fails (constructTransitions transitions type)) :
    ∃ entry ∈ transitions, entry.2.1.NamesNonType := by
  induction transitions generalizing type with
  | nil => exact absurd h (not_fails_ok ([], type))
  | cons entry rest ih =>
      obtain ⟨name, transition, targetState⟩ := entry
      rw [constructTransitions] at h
      rcases fails_bind.mp h with h | ⟨info, _, h⟩
      · exact ⟨_, List.mem_cons_self, fails_generateTransitionInfo.mp h⟩
      · split_ifs at h
        · exact absurd h not_fails_nullopt
        · obtain ⟨entry, hentry, hnames⟩ := ih (fails_bind_pure.mp h)
          exact ⟨entry, List.mem_cons_of_mem _ hentry, hnames⟩

theorem not_fails_generateReadStateCallback (state : State) :
    ¬ Fails (generateReadStateCallback state) := by
  intro h
  rcases fails_bind.mp h with h | ⟨conditions, _, h⟩
  · obtain ⟨⟨name, transition, targetState⟩, _, h⟩ := fails_mapM h
    have h := fails_bind_pure.mp h
    unfold readStateCondition at h
    split_ifs at h
    · exact not_fails_ok _ h
    · exact not_fails_orNullopt _ h
  · split_ifs at h
    · exact not_fails_nullopt h
    · exact not_fails_ok _ h

theorem fails_constructState {name : String} {state : State}
    (h : Fails (constructState name state)) : state.NamesNonType := by
  rcases fails_bind.mp h with h | ⟨⟨transitions, type⟩, _, h⟩
  · exact fails_constructTransitions h
  · simp only at h
    split_ifs at h
    · cases hread : type.getD .read with
      | read =>
          rw [hread] at h
          exact absurd (fails_bind_pure.mp h)
            (not_fails_generateReadStateCallback state)
      | write =>
          rw [hread] at h
          exact absurd h (not_fails_ok _)
    · exact absurd h (not_fails_ok _)

theorem fails_generateAgent {agent : Agent} (h : Fails (generateAgent agent)) :
    agent.NamesNonType := by
  rcases fails_bind.mp (fails_bind_pure.mp h) with h | ⟨stateMap, _, h⟩
  · obtain ⟨⟨name, state⟩, hentry, h⟩ := fails_mapM h
    exact ⟨_, hentry, fails_constructState (fails_bind_pure.mp h)⟩
  · split_ifs at h
    · exact absurd h not_fails_nullopt
    · exact absurd h (not_fails_ok _)

/-- The generator fails where the first transition comes to no type. -/
theorem fails_generateAgent_first {name targetState : String}
    {messageName : Octets} {transition : Transition}
    (h : transition.NamesNonType)
    (transitions : List (Octets × (Transition × String)))
    (states : List (String × State)) :
    Fails (generateAgent ⟨(name,
      ⟨(messageName, transition, targetState) :: transitions⟩) :: states⟩) := by
  have hinfo : Fails (generateTransitionInfo transition targetState) :=
    fails_generateTransitionInfo.mpr h
  have hstate : Fails (constructState name
      ⟨(messageName, transition, targetState) :: transitions⟩) :=
    fails_bind.mpr (Or.inl (fails_bind.mpr (Or.inl hinfo)))
  have hmap : Fails (constructStateMap ((name,
      ⟨(messageName, transition, targetState) :: transitions⟩) ::
        states)) := by
    refine fails_bind.mpr (Or.inl (fails_mapM_cons ?_ states))
    exact fails_bind_pure.mpr hstate
  exact fails_bind_pure.mpr hmap

theorem returns_generateAgent_iff (agent : Agent) :
    (∀ listed, agent.Lists listed → Returns (generateAgent listed)) ↔
      ¬ agent.NamesNonType := by
  constructor
  · rintro h ⟨entry, hentry, transition, htransition, hnames⟩
    obtain ⟨transitions, states, hlists⟩ :=
      Agent.Lists.exists_first hentry htransition
    exact returns_iff.mp (h _ hlists)
      (fails_generateAgent_first hnames transitions states)
  · intro hnames listed hlists
    exact returns_iff.mpr fun hfails =>
      hnames (hlists.namesNonType (fails_generateAgent hfails))

end Generate

/-- The generator returns for every order in which the maps of a protocol are
visited just when no transition comes to a parameter that is no type. -/
theorem generate_returns_iff (protocol : Protocol) :
    (∀ listed, protocol.Lists listed →
      Returns (client listed) ∧ Returns (server listed)) ↔
      ¬ protocol.client.NamesNonType ∧ ¬ protocol.server.NamesNonType := by
  rw [← returns_generateAgent_iff, ← returns_generateAgent_iff]
  constructor
  · intro h
    exact ⟨fun agent hlists => (h ⟨agent, protocol.server⟩
        ⟨hlists, Agent.Lists.refl _⟩).1,
      fun agent hlists => (h ⟨protocol.client, agent⟩
        ⟨Agent.Lists.refl _, hlists⟩).2⟩
  · rintro ⟨hclient, hserver⟩ listed hlists
    exact ⟨hclient _ hlists.client, hserver _ hlists.server⟩

/-- `x.n` with `x: tuple<n=1>`. -/
def integerMember : IdentifierReference := .mk "x" (some (.mk "n" none))

theorem integerMember_namesNonType : integerMember.NamesNonType
    (extractType [("x", .mk (.mk "tuple" none) [("n", .integer 1)])]) :=
  ⟨_, rfl, trivial⟩

/-- `tokens { x.n } terminator { "\n" }`. -/
theorem integerMember_readActions : partsToReadActions
    [.tokenSequence ⟨[.identifierReference integerMember], none, none⟩,
      .terminator [10]] =
    some [.readOctetsUntilTerminator [10] integerMember none] := by
  simp [partsToReadActions, PartsToReadActions.tokenSequence,
    individualTokenActions, Action.applyEscape]

theorem integerMember_writeActions : partsToWriteActions
    [.tokenSequence ⟨[.identifierReference integerMember], none, none⟩,
      .terminator [10]] =
    some [.writeFromIdentifier integerMember none, .writeStaticOctets [10]] := by
  simp [partsToWriteActions, PartsToWriteActions.tokenSequence,
    individualTokenAction, Action.applyEscape,
    TokenSequence.embeddedTerminator]

/-- The generator fails on a protocol that is parsed and analyzed. -/
theorem generate_not_always_returns :
    ¬ ∀ tokens description protocol, parse tokens = some description →
      Analyze.analyze description = some protocol →
      Returns (client protocol) ∧ Returns (server protocol) := by
  intro h
  have hparse := Grammar.parse_ofAttributes [109] "Open" "Closed" "Client"
    (List.cons_ne_nil ("x", .mk "tuple" [("n", .integer 1)]) [])
    (List.cons_ne_nil (.tokenSequence [] [.identifierReference integerMember])
      [.terminator [10]]) (by
        intro part hpart
        rcases List.mem_pair.mp hpart with rfl | rfl
        · exact .tokenSequence _ (List.cons_ne_nil _ _)
        · exact .terminator _)
  have hreturns := (h _ _ _ hparse (analyze_singleton
    integerMember_readActions integerMember_writeActions)).1
  have hwrites : Transition.NamesNonType (.writeTransition
      [("x", .mk (.mk "tuple" none) [("n", .integer 1)])]
      [.writeFromIdentifier integerMember none, .writeStaticOctets [10]]) :=
    Or.inl ⟨rfl, integerMember_namesNonType⟩
  exact returns_iff.mp hreturns
    (fails_generateAgent_first hwrites [] [("Closed", {})])

end NetworkProtocolDsl
