/-
The types of the members, by what is declared.

Where a type has a mapping the type of the member and the struct behind it
follow from the shape that is declared and the place of the member.
-/
import NetworkProtocolDsl.DataTypes

namespace NetworkProtocolDsl

open TypeMapping StructDefinition

namespace Shape

/-- The type of a member with the shape, at its place. -/
def memberType : Shape → String → MemberType
  | .unsigned bits, _ => .unsigned bits
  | .signed bits, _ => .signed bits
  | .text, _ => .string
  | .list element, structName =>
      .vector (element.memberType (structName ++ "Element"))
  | .record _, structName => .struct structName

def memberTypes (structName : String) (fields : List (String × Shape)) :
    List (String × MemberType) :=
  fields.map fun field =>
    (field.1, field.2.memberType (structName ++ "_" ++ field.1))

/-- The struct a member with the shape needs last. -/
def struct? : Shape → String → Option StructDefinition
  | .unsigned _, _ => none
  | .signed _, _ => none
  | .text, _ => none
  | .list element, structName => element.struct? (structName ++ "Element")
  | .record fields, structName =>
      some ⟨structName, memberTypes structName fields⟩

theorem lookup_memberTypes (structName name : String)
    (fields : List (String × Shape)) :
    (memberTypes structName fields).lookup name =
      (fields.lookup name).map
        fun shape => shape.memberType (structName ++ "_" ++ name) := by
  induction fields with
  | nil => rfl
  | cons field fields ih =>
      obtain ⟨other, shape⟩ := field
      by_cases hname : name = other
      · subst hname
        rw [memberTypes, List.map_cons, List.lookup_cons_self,
          List.lookup_cons_self]
        rfl
      · rw [memberTypes, List.map_cons, Assoc.lookup_cons_ne hname,
          Assoc.lookup_cons_ne hname]
        exact ih

theorem memberType_eq_string_iff {shape : Shape} {structName : String} :
    shape.memberType structName = .string ↔ shape = .text := by
  cases shape <;> simp [memberType]

/-- A vector of the structs of its elements. -/
theorem memberType_eq_vector_iff {shape : Shape} {structName : String} :
    shape.memberType structName =
        .vector (.struct (structName ++ "Element")) ↔
      ∃ fields, shape = .list (.record fields) := by
  cases shape with
  | list element => cases element <;> simp [memberType]
  | unsigned bits | signed bits | text | record fields => simp [memberType]

end Shape

namespace TypeMapping

/-- The type of the member and its struct are those of the shape. -/
def Emits (result : TypeMappingResult) (shape : Shape) (structName : String) :
    Prop :=
  result.cppType = shape.memberType structName ∧
    ∀ definition, shape.struct? structName = some definition →
      definition ∈ result.auxiliaryDefinitions

mutual

theorem typeToCpp_emits : ∀ (type : DataType) (structName : String)
    (result : TypeMappingResult), structName ≠ "" →
      typeToCpp type structName = some result →
      ∃ shape, type.shape? = some shape ∧ Emits result shape structName
  | .mk name parameters, structName, result, hstart, hresult => by
      cases mapped_of_typeToCpp hresult with
      | scalar hscalar hshape =>
          refine ⟨_, hshape, ?_, fun definition hstruct => ?_⟩
          · cases hscalar <;> rfl
          · cases hscalar <;> contradiction
      | @array element helement hshape =>
          obtain ⟨shape, helementShape, htype, hstruct⟩ :=
            elementToCpp_emits parameters _ element (by simp) helement
          refine ⟨.list shape, by rw [hshape, helementShape]; rfl, ?_, hstruct⟩
          exact congrArg MemberType.vector htype
      | @tuple members nested _ hfields hshape =>
          rw [tupleName, if_neg hstart] at hfields ⊢
          obtain ⟨fields, hshapes, hmembers⟩ :=
            fieldsToCpp_emits parameters structName members nested hfields
          refine ⟨.record fields, by rw [hshape, hshapes]; rfl, rfl, ?_⟩
          intro definition hdefinition
          obtain rfl := Option.some.inj hdefinition
          refine List.mem_append_right _ ?_
          rw [← hmembers]
          exact List.mem_cons_self

theorem elementToCpp_emits :
    ∀ (parameters : List (String × TypeParameterValue)) (structName : String)
      (result : TypeMappingResult), structName ≠ "" →
      elementToCpp parameters structName = some result →
      ∃ shape, elementShape? parameters = some shape ∧
        Emits result shape structName
  | [], _, _, _, hresult => by contradiction
  | (name, value) :: parameters, structName, result, hstart, hresult => by
      rw [elementToCpp] at hresult
      rw [elementShape?]
      by_cases hname : name = "element_type"
      · rw [if_pos hname] at hresult ⊢
        exact valueToCpp_emits value structName result hstart hresult
      · rw [if_neg hname] at hresult ⊢
        exact elementToCpp_emits parameters structName result hstart hresult

theorem valueToCpp_emits : ∀ (value : TypeParameterValue)
    (structName : String) (result : TypeMappingResult), structName ≠ "" →
      valueToCpp value structName = some result →
      ∃ shape, value.shape? = some shape ∧ Emits result shape structName
  | .type type, structName, result, hstart, hresult =>
      typeToCpp_emits type structName result hstart hresult
  | .boolean _, _, _, _, hresult => by contradiction
  | .integer _, _, _, _, hresult => by contradiction
  | .string _, _, _, _, hresult => by contradiction

theorem fieldsToCpp_emits :
    ∀ (parameters : List (String × TypeParameterValue)) (structName : String)
      (members : List (String × MemberType))
      (definitions : List StructDefinition),
      fieldsToCpp parameters structName = some (members, definitions) →
      ∃ fields, fieldShapes? parameters = some fields ∧
        members = Shape.memberTypes structName fields
  | [], _, _, _, hresult => by
      obtain ⟨rfl, _⟩ := Prod.mk.inj (Option.some.inj hresult)
      exact ⟨[], rfl, rfl⟩
  | (name, .type type) :: parameters, structName, members, definitions,
      hresult => by
      obtain ⟨mapping, hmapping, hresult⟩ :=
        Option.bind_eq_some_iff.mp hresult
      obtain ⟨⟨rest, nested⟩, hrest, hresult⟩ :=
        Option.map_eq_some_iff.mp hresult
      obtain ⟨rfl, _⟩ := Prod.mk.inj hresult
      obtain ⟨shape, hshape, htype, _⟩ :=
        typeToCpp_emits type _ mapping (by simp) hmapping
      obtain ⟨fields, hfields, hmembers⟩ :=
        fieldsToCpp_emits parameters structName rest nested hrest
      refine ⟨(name, shape) :: fields, ?_, ?_⟩
      · rw [fieldShapes?, hshape, hfields]
        rfl
      · rw [htype, hmembers]
        rfl
  | (_, .boolean _) :: parameters, structName, members, definitions, hresult =>
      fieldsToCpp_emits parameters structName members definitions hresult
  | (_, .integer _) :: parameters, structName, members, definitions, hresult =>
      fieldsToCpp_emits parameters structName members definitions hresult
  | (_, .string _) :: parameters, structName, members, definitions, hresult =>
      fieldsToCpp_emits parameters structName members definitions hresult

end

end TypeMapping

namespace GenerateDataTypes

open MessageInfo

variable {message : MessageInfo}

/-- The members of a message are its declared fields. -/
theorem fields_collectFields (data : MessageData) :
    (collectFields message data).fields = Shape.memberTypes
      (identifierText message.identifier) (declaredFields data) := by
  induction data with
  | nil => rfl
  | cons field data ih =>
      obtain ⟨name, type⟩ := field
      rw [collectFields]
      cases hmapping : typeToCpp type
          (fieldStructName message.identifier name) with
      | none =>
          have hshape := (typeToCpp_eq_none_iff type _).mp hmapping
          rw [declaredFields_cons_none hshape]
          exact ih
      | some mapping =>
          obtain ⟨shape, hshape, htype, _⟩ := typeToCpp_emits type _ mapping
            (by simp [fieldStructName]) hmapping
          rw [declaredFields_cons hshape, Shape.memberTypes, List.map_cons,
            ← Shape.memberTypes, ← ih]
          exact congrArg (fun type => (name, type) ::
            (collectFields message data).fields) htype

/-- The struct of a declared field is one of the message's. -/
theorem struct_mem_messageStructs {name : String} {shape : Shape}
    {definition : StructDefinition}
    (hfield : (name, shape) ∈ declaredFields message.data)
    (hstruct : shape.struct? (fieldStructName message.identifier name) =
      some definition) : definition ∈ messageStructs message := by
  refine List.mem_append_left _ ?_
  generalize message.data = data at hfield
  induction data with
  | nil => exact absurd hfield List.not_mem_nil
  | cons field data ih =>
      obtain ⟨other, type⟩ := field
      rw [collectFields]
      cases hmapping : typeToCpp type
          (fieldStructName message.identifier other) with
      | none =>
          have hshape := (typeToCpp_eq_none_iff type _).mp hmapping
          rw [declaredFields_cons_none hshape] at hfield
          exact ih hfield
      | some mapping =>
          obtain ⟨found, hshape, _, hemits⟩ := typeToCpp_emits type _ mapping
            (by simp [fieldStructName]) hmapping
          rw [declaredFields_cons hshape] at hfield
          rcases List.mem_cons.mp hfield with heq | hfield
          · obtain ⟨rfl, rfl⟩ := Prod.mk.inj heq
            exact List.mem_append_left _ (hemits definition hstruct)
          · exact List.mem_append_right _ (ih hfield)

end GenerateDataTypes

end NetworkProtocolDsl
