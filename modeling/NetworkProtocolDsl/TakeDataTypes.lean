/-
The assignments of the emitted parser, and the structs they assign to.

A parser collects strings.  It converts a field that is declared as an integer,
moves any other as a string, and moves the list of a loop; the elements of the
list are structs whose members are moved as strings.  That type checks just
when the message declares what its parts read.
-/
import NetworkProtocolDsl.MemberTypes
import NetworkProtocolDsl.StructNames

namespace NetworkProtocolDsl

open TypeMapping StructDefinition Elaboration

/-- An assignment to a member of a struct. -/
inductive Assignment where
  | convert (target member : String) (type : CppType)
  | moveString (target member : String)
  | moveVector (target member element : String)

namespace GenerateParser

/-- The struct the code names for the elements of a loop. -/
def elementStructName (identifier : Octets) (collection : String) : String :=
  identifierText identifier ++ "_" ++ collection ++ "Element"

/-- The members of a new element. -/
def elementAssignments (structName : String) : List Action → List Assignment
  | [] => []
  | .readOctetsUntilTerminator _ identifier _ :: actions =>
      .moveString structName identifier.name ::
        elementAssignments structName actions
  | _ :: actions => elementAssignments structName actions

def fieldAssignment (target member : String) : CppType → Assignment
  | .unsigned bits => .convert target member (.unsigned bits)
  | .signed bits => .convert target member (.signed bits)
  | .other => .moveString target member

/-- The assignments in `parse` and `take_data`, action by action. -/
def assignments (identifier : Octets) (data : MessageData) :
    List Action → List Assignment
  | [] => []
  | .readOctetsUntilTerminator _ field _ :: actions =>
      fieldAssignment (dataName identifier) field.name
        (getFieldCppType data field.name) ::
          assignments identifier data actions
  | .loop _ collection _ elements :: actions =>
      .moveVector (dataName identifier) collection.name
        (elementStructName identifier collection.name) ::
          (elementAssignments (elementStructName identifier collection.name)
              elements ++
            assignments identifier data actions)
  | _ :: actions => assignments identifier data actions

end GenerateParser

namespace StructDefinition

def struct? (definitions : List StructDefinition) (name : String) :
    Option StructDefinition :=
  definitions.find? fun definition => definition.name = name

/-- The type of a member of a struct. -/
def member? (definitions : List StructDefinition) (target member : String) :
    Option MemberType :=
  (struct? definitions target).bind (·.members.lookup member)

theorem struct?_of_mem {definitions : List StructDefinition}
    (hnodup : (definitions.map StructDefinition.name).Nodup)
    {definition : StructDefinition} (hmem : definition ∈ definitions) :
    struct? definitions definition.name = some definition := by
  induction definitions with
  | nil => contradiction
  | cons first definitions ih =>
      rw [List.map_cons, List.nodup_cons] at hnodup
      rw [struct?]
      rcases List.mem_cons.mp hmem with rfl | hmem
      · exact List.find?_cons_of_pos (decide_eq_true rfl)
      · have hne : first.name ≠ definition.name := by
          intro heq
          exact hnodup.1 (heq ▸ List.mem_map_of_mem hmem)
        rw [List.find?_cons_of_neg (by simpa using hne)]
        exact ih hnodup.2 hmem

end StructDefinition

/-- What C++ asks of an assignment. -/
def Assignment.WellTyped (definitions : List StructDefinition) :
    Assignment → Prop
  | .convert target member _ => ∃ bits,
      member? definitions target member = some (.unsigned bits) ∨
        member? definitions target member = some (.signed bits)
  | .moveString target member =>
      member? definitions target member = some .string
  | .moveVector target member element =>
      member? definitions target member = some (.vector (.struct element))

/-- An integer or a string. -/
def Shape.isScalar : Shape → Bool
  | .unsigned _ => true
  | .signed _ => true
  | .text => true
  | .list _ => false
  | .record _ => false

namespace Action

/-- A part of a loop reads strings of the elements. -/
def FitsElement (fields : List (String × Shape)) : Action → Prop
  | .readOctetsUntilTerminator _ identifier _ =>
      fields.lookup identifier.name = some .text
  | _ => True

/-- The action reads what is declared. -/
def FitsFields (fields : List (String × Shape)) : Action → Prop
  | .readOctetsUntilTerminator _ identifier _ => ∃ shape,
      fields.lookup identifier.name = some shape ∧ shape.isScalar = true
  | .loop _ collection _ elements => ∃ elementFields,
      fields.lookup collection.name = some (.list (.record elementFields)) ∧
        ∀ element ∈ elements, element.FitsElement elementFields
  | _ => True

end Action

namespace GenerateParser

open MessageInfo GenerateDataTypes

theorem forall_elementAssignments {structName : String}
    {definitions : List StructDefinition} {fields : List (String × Shape)}
    (hmember : ∀ name, member? definitions structName name =
      (fields.lookup name).map
        fun shape => shape.memberType (structName ++ "_" ++ name))
    (actions : List Action) :
    (∀ assignment ∈ elementAssignments structName actions,
        assignment.WellTyped definitions) ↔
      ∀ action ∈ actions, action.FitsElement fields := by
  have hstring : ∀ name, member? definitions structName name = some .string ↔
      fields.lookup name = some .text := by
    intro name
    rw [hmember]
    constructor
    · intro h
      obtain ⟨shape, hshape, htype⟩ := Option.map_eq_some_iff.mp h
      rw [hshape, Shape.memberType_eq_string_iff.mp htype]
    · intro h
      rw [h]
      rfl
  induction actions with
  | nil => simp [elementAssignments]
  | cons action actions ih =>
      cases action with
      | readOctetsUntilTerminator terminator identifier escape =>
          rw [elementAssignments, List.forall_mem_cons, List.forall_mem_cons]
          exact and_congr (hstring identifier.name) ih
      | _ => simpa [elementAssignments, Action.FitsElement] using ih

theorem isInteger_of_shape? {type : DataType} {shape : Shape}
    (h : type.shape? = some shape) :
    type.name.name = "int" ∧ (∃ bits, mapIntType type = .unsigned bits ∧
        shape = .unsigned bits ∨
      mapIntType type = .signed bits ∧ shape = .signed bits) ∨
    type.name.name ≠ "int" ∧ (∀ bits, shape ≠ .unsigned bits) ∧
      ∀ bits, shape ≠ .signed bits := by
  obtain ⟨name, parameters⟩ := type
  rw [DataType.shape?] at h
  by_cases hint : name.name = "int"
  · rw [if_pos hint] at h
    refine Or.inl ⟨hint, ?_⟩
    obtain ⟨bits, _, hunsigned | hsigned⟩ :=
      mapIntType_eq (.mk name parameters)
    · rw [hunsigned] at h
      exact ⟨bits, Or.inl ⟨hunsigned, (Option.some.inj h).symm⟩⟩
    · rw [hsigned] at h
      exact ⟨bits, Or.inr ⟨hsigned, (Option.some.inj h).symm⟩⟩
  · rw [if_neg hint] at h
    refine Or.inr ⟨hint, ?_⟩
    split_ifs at h
    · obtain rfl := Option.some.inj h
      simp
    · obtain ⟨element, _, rfl⟩ := Option.map_eq_some_iff.mp h
      simp
    · obtain ⟨fields, _, rfl⟩ := Option.map_eq_some_iff.mp h
      simp

theorem lookup_declaredFields {data : MessageData}
    (hnodup : (data.map Prod.fst).Nodup) (name : String) :
    (declaredFields data).lookup name =
      (data.lookup name).bind DataType.shape? := by
  induction data with
  | nil => rfl
  | cons field data ih =>
      obtain ⟨other, type⟩ := field
      rw [List.map_cons, List.nodup_cons] at hnodup
      have hrest := ih hnodup.2
      by_cases hname : name = other
      · subst hname
        rw [List.lookup_cons_self, Option.bind_some]
        cases hshape : type.shape? with
        | none =>
            rw [declaredFields_cons_none hshape, hrest,
              Assoc.lookup_eq_none_of_not_mem hnodup.1]
            rfl
        | some shape =>
            rw [declaredFields_cons hshape]
            exact List.lookup_cons_self
      · rw [Assoc.lookup_cons_ne hname]
        cases hshape : type.shape? with
        | none =>
            rw [declaredFields_cons_none hshape]
            exact hrest
        | some shape =>
            rw [declaredFields_cons hshape, Assoc.lookup_cons_ne hname]
            exact hrest

/-- How a field is assigned follows from its shape. -/
theorem getFieldCppType_of_shape {data : MessageData}
    (hnodup : (data.map Prod.fst).Nodup) {name : String} {shape : Shape}
    (h : (declaredFields data).lookup name = some shape) :
    (∃ bits, getFieldCppType data name = .unsigned bits ∧
        shape = .unsigned bits) ∨
      (∃ bits, getFieldCppType data name = .signed bits ∧
        shape = .signed bits) ∨
      getFieldCppType data name = .other ∧ (∀ bits, shape ≠ .unsigned bits) ∧
        ∀ bits, shape ≠ .signed bits := by
  rw [lookup_declaredFields hnodup] at h
  obtain ⟨type, htype, hshape⟩ := Option.bind_eq_some_iff.mp h
  rw [getFieldCppType, htype]
  dsimp only
  rcases isInteger_of_shape? hshape with ⟨hint, bits, hbits⟩ | ⟨hint, hother⟩
  · rw [if_pos hint]
    rcases hbits with ⟨hmap, rfl⟩ | ⟨hmap, rfl⟩
    · exact Or.inl ⟨bits, hmap, rfl⟩
    · exact Or.inr (Or.inl ⟨bits, hmap, rfl⟩)
  · rw [if_neg hint]
    exact Or.inr (Or.inr ⟨rfl, hother⟩)

section Message

variable {messages : List MessageInfo} {message : MessageInfo}
  (hnodup : ((generateDataTypes messages).definitions.map
    StructDefinition.name).Nodup)
  (hmem : message ∈ messages)

include hnodup hmem

theorem member?_dataName (name : String) :
    member? (generateDataTypes messages).definitions
        (dataName message.identifier) name =
      ((declaredFields message.data).lookup name).map fun shape =>
        shape.memberType (fieldStructName message.identifier name) := by
  have hstruct : ⟨dataName message.identifier,
      (collectFields message message.data).fields⟩ ∈
        (generateDataTypes messages).definitions :=
    List.mem_flatMap.mpr
      ⟨message, hmem, List.mem_append_right _ List.mem_cons_self⟩
  have hfound := struct?_of_mem hnodup hstruct
  rw [member?, hfound, Option.bind_some, fields_collectFields,
    Shape.lookup_memberTypes]
  rfl

theorem member?_element {collection : String}
    {fields : List (String × Shape)}
    (hlookup : (declaredFields message.data).lookup collection =
      some (.list (.record fields))) (name : String) :
    member? (generateDataTypes messages).definitions
        (elementStructName message.identifier collection) name =
      (fields.lookup name).map fun shape => shape.memberType
        (elementStructName message.identifier collection ++ "_" ++ name) := by
  have hstruct : ⟨elementStructName message.identifier collection,
      Shape.memberTypes (elementStructName message.identifier collection)
        fields⟩ ∈ (generateDataTypes messages).definitions :=
    List.mem_flatMap.mpr ⟨message, hmem,
      struct_mem_messageStructs (Assoc.mem_of_lookup hlookup) rfl⟩
  have hfound := struct?_of_mem hnodup hstruct
  rw [member?, hfound, Option.bind_some, Shape.lookup_memberTypes]

/-- The assignment of a field type checks if an integer or a string is
declared. -/
theorem fieldAssignment_wellTyped_iff (hdistinct : message.Distinct)
    (name : String) :
    (fieldAssignment (dataName message.identifier) name
        (getFieldCppType message.data name)).WellTyped
          (generateDataTypes messages).definitions ↔
      ∃ shape, (declaredFields message.data).lookup name = some shape ∧
        shape.isScalar = true := by
  have hmember := member?_dataName hnodup hmem name
  cases hlookup : (declaredFields message.data).lookup name with
  | none =>
      rw [hlookup] at hmember
      refine iff_of_false ?_ (by simp)
      cases getFieldCppType message.data name <;>
        simp [fieldAssignment, Assignment.WellTyped, hmember]
  | some shape =>
      rw [hlookup] at hmember
      have hfield : (∃ found, some shape = some found ∧
          found.isScalar = true) ↔ shape.isScalar = true := by simp
      rw [hfield]
      rcases getFieldCppType_of_shape hdistinct.names hlookup with
        ⟨bits, htype, rfl⟩ | ⟨bits, htype, rfl⟩ | ⟨htype, hunsigned, hsigned⟩
      · rw [htype]
        exact iff_of_true ⟨bits, Or.inl hmember⟩ rfl
      · rw [htype]
        exact iff_of_true ⟨bits, Or.inr hmember⟩ rfl
      · rw [htype, fieldAssignment, Assignment.WellTyped, hmember,
          Option.map_some, Option.some.injEq, Shape.memberType_eq_string_iff]
        cases shape with
        | unsigned bits => exact absurd rfl (hunsigned bits)
        | signed bits => exact absurd rfl (hsigned bits)
        | text => simp [Shape.isScalar]
        | list element => simp [Shape.isScalar]
        | record fields => simp [Shape.isScalar]

/-- The emitted parser type checks just when its actions read what is
declared. -/
theorem assignments_wellTyped (hdistinct : message.Distinct)
    (actions : List Action) :
    (∀ assignment ∈ assignments message.identifier message.data actions,
        assignment.WellTyped (generateDataTypes messages).definitions) ↔
      ∀ action ∈ actions, action.FitsFields (declaredFields message.data) := by
  induction actions with
  | nil => simp [assignments]
  | cons action actions ih =>
      cases action with
      | readOctetsUntilTerminator terminator field escape =>
          rw [assignments, List.forall_mem_cons, List.forall_mem_cons]
          exact and_congr
            (fieldAssignment_wellTyped_iff hnodup hmem hdistinct field.name) ih
      | loop element collection terminator elements =>
          rw [assignments, List.forall_mem_cons, List.forall_mem_cons,
            List.forall_mem_append, ← and_assoc]
          refine and_congr ?_ ih
          constructor
          · rintro ⟨hvector, helements⟩
            have hmember := member?_dataName hnodup hmem collection.name
            rw [Assignment.WellTyped, hmember] at hvector
            obtain ⟨shape, hshape, htype⟩ := Option.map_eq_some_iff.mp hvector
            obtain ⟨fields, rfl⟩ := Shape.memberType_eq_vector_iff.mp htype
            exact ⟨fields, hshape, (forall_elementAssignments
              (member?_element hnodup hmem hshape) elements).mp helements⟩
          · rintro ⟨fields, hshape, helements⟩
            refine ⟨?_, (forall_elementAssignments
              (member?_element hnodup hmem hshape) elements).mpr helements⟩
            have hmember := member?_dataName hnodup hmem collection.name
            rw [Assignment.WellTyped, hmember, hshape]
            rfl
      | _ => simpa [assignments, Action.FitsFields] using ih

end Message

section Source

open ProtocolInfo

variable {tokens : List Token} {description : ProtocolDescription}
  {protocol : Protocol} {env : List (String × Shape)}

/-- Where the structs of an accepted source can be defined, the parser that is
emitted for a message type checks just when every part of the message reads
what its data declare: an integer or a string, or in a loop over a list of
tuples strings of the tuple. -/
theorem takeData_wellTyped_iff (hparse : parse tokens = some description)
    (hanalyze : Analyze.analyze description = some protocol)
    (hdefine : define [] (generateDataTypes
      (collectMessages protocol)).definitions = some env)
    {info : ReadTransitionInfo}
    (hinfo : info ∈ (collectTransitions protocol).readTransitions) :
    (∀ assignment ∈ assignments (messageNameToIdentifier info.messageName)
        info.data info.actions, assignment.WellTyped
          (generateDataTypes (collectMessages protocol)).definitions) ↔
      ∀ action ∈ info.actions,
        action.FitsFields (declaredFields info.data) := by
  have hcollected := Analyze.collectedFrom_of_analyze hanalyze
  obtain ⟨message, hmessage, _, _, hdata, _⟩ := (hcollected.reads info).mp hinfo
  have hof := MessageInfo.of_mem _ (Assoc.mem_of_lookup hmessage)
  have hmem := (hcollected.messages _).mpr hof
  have hnodup := nodup_of_elaborate hdefine List.nodup_nil
  rw [names_of_define hdefine] at hnodup
  have hiff := assignments_wellTyped hnodup hmem
    (distinct_of_parse hparse hof) info.actions
  rw [hdata]
  exact hiff

/-- The parts of the list of headers read `header.key`, and the emitted parser
assigns it to a member `header`. -/
theorem takeData_wellTyped_iff_headers : ∃ protocol info,
    Analyze.analyze (.ofMessages [headersMessage]) = some protocol ∧
      info ∈ (collectTransitions protocol).readTransitions ∧
      ¬ ∀ assignment ∈ assignments (messageNameToIdentifier info.messageName)
        info.data info.actions, assignment.WellTyped
          (generateDataTypes (collectMessages protocol)).definitions := by
  obtain ⟨writeActions, hwrites⟩ := headersParts_writeActions
  have hanalyze := @analyze_singleton headersMessage _ _
    headersParts_readActions hwrites
  refine ⟨_, ⟨[104], "Open", "Closed", .server, headersMessage.data,
    headersActions⟩, hanalyze, List.mem_cons_self, ?_⟩
  intro hall
  have hfits := (takeData_wellTyped_iff parse_headersTokens hanalyze rfl
    List.mem_cons_self).mp hall
  obtain ⟨fields, hlookup, helements⟩ := hfits _ List.mem_cons_self
  have hdeclared : (declaredFields headersMessage.data).lookup "headers" =
      some (.list (.record [("key", .text), ("value", .text)])) := rfl
  obtain rfl : fields = [("key", .text), ("value", .text)] := by
    simpa using hlookup.symm.trans hdeclared
  have hheader := helements _ List.mem_cons_self
  rw [Action.FitsElement] at hheader
  contradiction

end Source

end GenerateParser

end NetworkProtocolDsl
