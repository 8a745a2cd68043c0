/-
What the emitted structs mean.

A declared type says what values a field can have, and so does the type of a
member where the structs it mentions are defined.  The emitted structs can be
defined one after another, and say what the declaration says.
-/
import NetworkProtocolDsl.DeclarationsKept
import NetworkProtocolDsl.IntegerConversion
import NetworkProtocolDsl.Library.Elaboration
import NetworkProtocolDsl.TypeMapping

namespace NetworkProtocolDsl

open Elaboration TypeMapping

/-- The values a field can have. -/
inductive Shape where
  | unsigned (bits : Nat)
  | signed (bits : Nat)
  | text
  | list (element : Shape)
  | record (fields : List (String × Shape))

def CppType.shape? : CppType → Option Shape
  | .unsigned bits => some (.unsigned bits)
  | .signed bits => some (.signed bits)
  | .other => none

mutual

/-- What the declaration says. -/
def DataType.shape? : DataType → Option Shape
  | .mk name parameters =>
      if name.name = "int" then
        (GenerateParser.mapIntType (.mk name parameters)).shape?
      else if name.name = "str" then some .text
      else if name.name = "array" then (elementShape? parameters).map .list
      else if name.name = "tuple" then
        if parameters.isEmpty then none
        else (fieldShapes? parameters).map .record
      else none

def elementShape? : List (String × TypeParameterValue) → Option Shape
  | [] => none
  | (name, value) :: parameters =>
      if name = "element_type" then value.shape? else elementShape? parameters

def fieldShapes? : List (String × TypeParameterValue) →
    Option (List (String × Shape))
  | [] => some []
  | (name, value) :: parameters =>
      match value with
      | .type type =>
          type.shape?.bind fun shape =>
            (fieldShapes? parameters).map ((name, shape) :: ·)
      | _ => fieldShapes? parameters

def TypeParameterValue.shape? : TypeParameterValue → Option Shape
  | .type type => type.shape?
  | .boolean _ => none
  | .integer _ => none
  | .string _ => none

end

namespace MemberType

/-- What the type of a member says where the structs are defined. -/
def shape? (env : List (String × Shape)) : MemberType → Option Shape
  | .unsigned bits => some (.unsigned bits)
  | .signed bits => some (.signed bits)
  | .string => some .text
  | .vector element => (element.shape? env).map .list
  | .struct name => env.lookup name

variable {env new : List (String × Shape)} {shape : Shape}

theorem shape?_append {type : MemberType} (h : type.shape? env = some shape) :
    type.shape? (env ++ new) = some shape := by
  induction type generalizing shape with
  | unsigned bits => exact h
  | signed bits => exact h
  | string => exact h
  | vector element ih =>
      obtain ⟨inner, hinner, rfl⟩ := Option.map_eq_some_iff.mp h
      rw [shape?, ih hinner]
      rfl
  | struct name =>
      have hlookup : env.lookup name = some shape := h
      rw [shape?, Assoc.lookup_append, hlookup]
      rfl

end MemberType

namespace StructDefinition

/-- A struct has no member twice. -/
def shape? (env : List (String × Shape)) (definition : StructDefinition) :
    Option Shape :=
  (elaborate Prod.fst (fun _ member => member.2.shape? env) []
    definition.members).map .record

/-- The structs that are known behind the definitions.  It is an error to
define a struct or a member twice, and to use a struct before its
definition. -/
def define (env : List (String × Shape)) (definitions : List StructDefinition) :
    Option (List (String × Shape)) :=
  elaborate name shape? env definitions

/-- The members have the shapes of the fields. -/
def MembersHave (env : List (String × Shape)) :
    List (String × MemberType) → List (String × Shape) → Prop :=
  List.Forall₂ fun member field =>
    member.1 = field.1 ∧ member.2.shape? env = some field.2

variable {env new : List (String × Shape)}
  {members : List (String × MemberType)} {fields : List (String × Shape)}
  {definitions : List StructDefinition}

theorem shape?_eq_record {name : String} (h : MembersHave env members fields)
    (hnodup : (members.map Prod.fst).Nodup) :
    shape? env ⟨name, members⟩ = some (.record fields) := by
  rw [shape?, elaborate_of_forall₂ h (by simpa using hnodup)]
  rfl

theorem define_nil : define env [] = some (env ++ []) := by
  rw [define, elaborate, List.append_nil]

/-- Structs behind other structs. -/
theorem define_append {others : List StructDefinition}
    {more : List (String × Shape)}
    (h : define env definitions = some (env ++ new))
    (hothers : define (env ++ new) others = some (env ++ new ++ more)) :
    define env (definitions ++ others) = some (env ++ (new ++ more)) := by
  rw [define] at h hothers
  rw [define, elaborate_append, h, Option.bind_some, hothers,
    List.append_assoc]

/-- A struct behind the ones it needs. -/
theorem define_snoc {name : String} (h : define env definitions = some new)
    (hmembers : MembersHave new members fields)
    (hnodup : (members.map Prod.fst).Nodup) (hnew : name ∉ new.map Prod.fst) :
    define env (definitions ++ [⟨name, members⟩]) =
      some (new ++ [(name, .record fields)]) := by
  rw [define] at h
  rw [define, elaborate_append, h, Option.bind_some,
    elaborate_cons_of_not_mem hnew, shape?_eq_record hmembers hnodup]
  rfl

end StructDefinition

namespace TypeMapping

open StructDefinition

theorem sublist_fieldsToCpp {structName : String}
    {members : List (String × MemberType)}
    {definitions : List StructDefinition} :
    ∀ parameters : List (String × TypeParameterValue),
      fieldsToCpp parameters structName = some (members, definitions) →
      (members.map Prod.fst).Sublist (parameters.map Prod.fst) := by
  intro parameters
  induction parameters generalizing members definitions with
  | nil =>
      intro h
      obtain ⟨rfl, rfl⟩ := Prod.mk.inj (Option.some.inj h)
      exact List.Sublist.refl _
  | cons parameter parameters ih =>
      obtain ⟨name, value⟩ := parameter
      intro h
      cases value with
      | type type =>
          obtain ⟨mapping, _, h⟩ := Option.bind_eq_some_iff.mp h
          obtain ⟨⟨rest, nested⟩, hrest, h⟩ := Option.map_eq_some_iff.mp h
          obtain ⟨rfl, rfl⟩ := Prod.mk.inj h
          exact (ih hrest).cons_cons name
      | boolean value => exact (ih h).cons name
      | integer value => exact (ih h).cons name
      | string value => exact (ih h).cons name

/-- Behind `env` the structs can be defined, and then a member of the type
means the declared type. -/
def Represents (env : List (String × Shape)) (result : TypeMappingResult)
    (shape : Shape) : Prop :=
  ∃ new, define env result.auxiliaryDefinitions = some (env ++ new) ∧
    result.cppType.shape? (env ++ new) = some shape

/-- The names that are defined and the ones of the structs are all
different. -/
def Fresh (env : List (String × Shape)) (definitions : List StructDefinition) :
    Prop :=
  (env.map Prod.fst ++ definitions.map StructDefinition.name).Nodup

variable {env new : List (String × Shape)}
  {definitions others : List StructDefinition}

theorem Fresh.left (h : Fresh env (definitions ++ others)) :
    Fresh env definitions := by
  rw [Fresh, List.map_append, ← List.append_assoc] at h
  exact (List.nodup_append.mp h).1

theorem names_of_define (h : define env definitions = some new) :
    new.map Prod.fst =
      env.map Prod.fst ++ definitions.map StructDefinition.name := by
  obtain ⟨defined, rfl, hnames⟩ := exists_of_elaborate h
  rw [List.map_append, hnames]

theorem Fresh.right (h : Fresh env (definitions ++ others))
    (hnew : define env definitions = some new) : Fresh new others := by
  rw [Fresh, List.map_append, ← List.append_assoc] at h
  rw [Fresh, names_of_define hnew]
  exact h

theorem Fresh.not_mem {definition : StructDefinition}
    (h : Fresh env (definitions ++ [definition]))
    (hnew : define env definitions = some new) :
    definition.name ∉ new.map Prod.fst := by
  have hfresh := h.right hnew
  rw [Fresh, List.nodup_append] at hfresh
  intro hmem
  exact hfresh.2.2 _ hmem _ List.mem_cons_self rfl

/-- The types without structs. -/
inductive Scalar : MemberType → Shape → Prop where
  | unsigned (bits : Nat) : Scalar (.unsigned bits) (.unsigned bits)
  | signed (bits : Nat) : Scalar (.signed bits) (.signed bits)
  | string : Scalar .string .text

/-- How a type is mapped, and what it says. -/
inductive Mapped (name : IdentifierReference)
    (parameters : List (String × TypeParameterValue)) (structName : String) :
    TypeMappingResult → Prop where
  | scalar {type : MemberType} {shape : Shape} (hscalar : Scalar type shape)
      (hshape : (DataType.mk name parameters).shape? = some shape) :
      Mapped name parameters structName ⟨type, []⟩
  | array {element : TypeMappingResult}
      (helement : elementToCpp parameters (structName ++ "Element") =
        some element)
      (hshape : (DataType.mk name parameters).shape? =
        (elementShape? parameters).map .list) :
      Mapped name parameters structName
        ⟨.vector element.cppType, element.auxiliaryDefinitions⟩
  | tuple {members : List (String × MemberType)}
      {nested : List StructDefinition} (hname : name.name = "tuple")
      (hfields : fieldsToCpp parameters (tupleName structName) =
        some (members, nested))
      (hshape : (DataType.mk name parameters).shape? =
        (fieldShapes? parameters).map .record) :
      Mapped name parameters structName ⟨.struct (tupleName structName),
        nested ++ [⟨tupleName structName, members⟩]⟩

theorem mapIntType_eq_some (type : DataType) : ∃ result shape,
    mapIntType type = some ⟨result, []⟩ ∧ Scalar result shape ∧
      (GenerateParser.mapIntType type).shape? = some shape := by
  rw [mapIntType]
  obtain ⟨bits, _, hunsigned | hsigned⟩ := mapIntType_eq type
  · rw [hunsigned]
    exact ⟨.unsigned bits, .unsigned bits, rfl, .unsigned bits, rfl⟩
  · rw [hsigned]
    exact ⟨.signed bits, .signed bits, rfl, .signed bits, rfl⟩

theorem mapped_of_typeToCpp {name : IdentifierReference}
    {parameters : List (String × TypeParameterValue)} {structName : String}
    {result : TypeMappingResult}
    (h : typeToCpp (.mk name parameters) structName = some result) :
    Mapped name parameters structName result := by
  rw [typeToCpp] at h
  by_cases hint : name.name = "int"
  · rw [if_pos hint] at h
    obtain ⟨type, shape, htype, hscalar, hshape⟩ :=
      mapIntType_eq_some (.mk name parameters)
    rw [htype] at h
    obtain rfl := Option.some.inj h
    exact .scalar hscalar (by rw [DataType.shape?, if_pos hint, hshape])
  · rw [if_neg hint] at h
    by_cases hstr : name.name = "str"
    · rw [if_pos hstr] at h
      obtain rfl := Option.some.inj h
      exact .scalar .string
        (by rw [DataType.shape?, if_neg hint, if_pos hstr])
    · rw [if_neg hstr] at h
      by_cases harray : name.name = "array"
      · rw [if_pos harray] at h
        obtain ⟨element, helement, rfl⟩ := Option.map_eq_some_iff.mp h
        exact .array helement
          (by rw [DataType.shape?, if_neg hint, if_neg hstr, if_pos harray])
      · rw [if_neg harray] at h
        by_cases htuple : name.name = "tuple"
        · rw [if_pos htuple] at h
          by_cases hempty : parameters.isEmpty = true
          · rw [if_pos hempty] at h
            contradiction
          · rw [if_neg hempty] at h
            obtain ⟨⟨members, nested⟩, hfields, rfl⟩ :=
              Option.map_eq_some_iff.mp h
            exact .tuple htuple hfields (by rw [DataType.shape?, if_neg hint,
              if_neg hstr, if_neg harray, if_pos htuple, if_neg hempty])
        · rw [if_neg htuple] at h
          contradiction

theorem Scalar.shape? {type : MemberType} {shape : Shape}
    (h : Scalar type shape) : type.shape? env = some shape := by
  cases h <;> rfl

theorem represents_nil {env : List (String × Shape)} {type : MemberType}
    {shape : Shape} (h : type.shape? env = some shape) :
    Represents env ⟨type, []⟩ shape := by
  refine ⟨[], ?_, ?_⟩
  · rw [define, elaborate, List.append_nil]
  · rw [List.append_nil]
    exact h

mutual

/-- The structs of a type and the type of the member say what is declared. -/
theorem typeToCpp_represents : ∀ (type : DataType) (structName : String)
    (result : TypeMappingResult) (env : List (String × Shape)), type.Distinct →
      typeToCpp type structName = some result →
      Fresh env result.auxiliaryDefinitions →
      ∃ shape, type.shape? = some shape ∧ Represents env result shape
  | .mk name parameters, structName, result, env, hdistinct, hresult,
      hfresh => by
      rw [DataType.Distinct] at hdistinct
      cases mapped_of_typeToCpp hresult with
      | scalar hscalar hshape =>
          exact ⟨_, hshape, represents_nil hscalar.shape?⟩
      | @array element helement hshape =>
          obtain ⟨shape, helementShape, new, hnew, htype⟩ :=
            elementToCpp_represents parameters _ element env hdistinct.2
              helement hfresh
          refine ⟨.list shape, by rw [hshape, helementShape]; rfl, new, hnew,
            ?_⟩
          rw [MemberType.shape?, htype]
          rfl
      | @tuple members nested _ hfields hshape =>
          obtain ⟨fields, new, hdeclared, hnested, hmembers⟩ :=
            fieldsToCpp_represents parameters _ members nested env
              hdistinct.2 hfields hfresh.left
          have hnodup := hdistinct.1.sublist
            (sublist_fieldsToCpp parameters hfields)
          have hnew := hfresh.not_mem hnested
          refine ⟨.record fields, by rw [hshape, hdeclared]; rfl,
            new ++ [(tupleName structName, .record fields)], ?_, ?_⟩
          · rw [← List.append_assoc]
            exact define_snoc hnested hmembers hnodup hnew
          · rw [MemberType.shape?, ← List.append_assoc,
              Assoc.lookup_append, Assoc.lookup_eq_none_of_not_mem hnew]
            exact List.lookup_cons_self

theorem elementToCpp_represents :
    ∀ (parameters : List (String × TypeParameterValue)) (structName : String)
      (result : TypeMappingResult) (env : List (String × Shape)),
      ParametersDistinct parameters →
      elementToCpp parameters structName = some result →
      Fresh env result.auxiliaryDefinitions →
      ∃ shape, elementShape? parameters = some shape ∧
        Represents env result shape
  | [], _, _, _, _, hresult, _ => by contradiction
  | (name, value) :: parameters, structName, result, env, hdistinct, hresult,
      hfresh => by
      rw [ParametersDistinct] at hdistinct
      rw [elementToCpp] at hresult
      rw [elementShape?]
      by_cases hname : name = "element_type"
      · rw [if_pos hname] at hresult ⊢
        exact valueToCpp_represents value structName result env hdistinct.1
          hresult hfresh
      · rw [if_neg hname] at hresult ⊢
        exact elementToCpp_represents parameters structName result env
          hdistinct.2 hresult hfresh

theorem valueToCpp_represents :
    ∀ (value : TypeParameterValue) (structName : String)
      (result : TypeMappingResult) (env : List (String × Shape)),
      value.Distinct → valueToCpp value structName = some result →
      Fresh env result.auxiliaryDefinitions →
      ∃ shape, value.shape? = some shape ∧ Represents env result shape
  | .type type, structName, result, env, hdistinct, hresult, hfresh =>
      typeToCpp_represents type structName result env hdistinct hresult hfresh
  | .boolean _, _, _, _, _, hresult, _ => by contradiction
  | .integer _, _, _, _, _, hresult, _ => by contradiction
  | .string _, _, _, _, _, hresult, _ => by contradiction

/-- The structs that the fields of a tuple need. -/
theorem fieldsToCpp_represents :
    ∀ (parameters : List (String × TypeParameterValue)) (structName : String)
      (members : List (String × MemberType))
      (definitions : List StructDefinition) (env : List (String × Shape)),
      ParametersDistinct parameters →
      fieldsToCpp parameters structName = some (members, definitions) →
      Fresh env definitions →
      ∃ fields new, fieldShapes? parameters = some fields ∧
        define env definitions = some (env ++ new) ∧
        MembersHave (env ++ new) members fields
  | [], _, _, _, env, _, hresult, _ => by
      obtain ⟨rfl, rfl⟩ := Prod.mk.inj (Option.some.inj hresult)
      exact ⟨[], [], rfl, define_nil, .nil⟩
  | (name, .type type) :: parameters, structName, members, definitions, env,
      hdistinct, hresult, hfresh => by
      rw [ParametersDistinct] at hdistinct
      obtain ⟨mapping, hmapping, hresult⟩ :=
        Option.bind_eq_some_iff.mp hresult
      obtain ⟨⟨rest, nested⟩, hrest, hresult⟩ :=
        Option.map_eq_some_iff.mp hresult
      obtain ⟨rfl, rfl⟩ := Prod.mk.inj hresult
      obtain ⟨shape, hshape, new, hnew, htype⟩ :=
        typeToCpp_represents type _ mapping env hdistinct.1 hmapping
          hfresh.left
      obtain ⟨fields, others, hfields, hothers, hmembers⟩ :=
        fieldsToCpp_represents parameters structName rest nested (env ++ new)
          hdistinct.2 hrest (hfresh.right hnew)
      refine ⟨(name, shape) :: fields, new ++ others, ?_, ?_, ?_⟩
      · rw [fieldShapes?, hshape, hfields]
        rfl
      · exact define_append hnew hothers
      · rw [← List.append_assoc]
        exact .cons ⟨rfl, MemberType.shape?_append htype⟩ hmembers
  | (_, .boolean _) :: parameters, structName, members, definitions, env,
      hdistinct, hresult, hfresh =>
      fieldsToCpp_represents parameters structName members definitions env
        hdistinct.2 hresult hfresh
  | (_, .integer _) :: parameters, structName, members, definitions, env,
      hdistinct, hresult, hfresh =>
      fieldsToCpp_represents parameters structName members definitions env
        hdistinct.2 hresult hfresh
  | (_, .string _) :: parameters, structName, members, definitions, env,
      hdistinct, hresult, hfresh =>
      fieldsToCpp_represents parameters structName members definitions env
        hdistinct.2 hresult hfresh

end

mutual

/-- A type has a mapping if it says something. -/
theorem isSome_typeToCpp : ∀ (type : DataType) (structName : String),
    (typeToCpp type structName).isSome = type.shape?.isSome
  | .mk name parameters, structName => by
      rw [typeToCpp, DataType.shape?]
      by_cases hint : name.name = "int"
      · rw [if_pos hint, if_pos hint]
        obtain ⟨type, shape, htype, _, hshape⟩ :=
          mapIntType_eq_some (.mk name parameters)
        rw [htype, hshape]
        rfl
      · rw [if_neg hint, if_neg hint]
        by_cases hstr : name.name = "str"
        · rw [if_pos hstr, if_pos hstr]
          rfl
        · rw [if_neg hstr, if_neg hstr]
          by_cases harray : name.name = "array"
          · rw [if_pos harray, if_pos harray, Option.isSome_map,
              Option.isSome_map]
            exact isSome_elementToCpp parameters _
          · rw [if_neg harray, if_neg harray]
            by_cases htuple : name.name = "tuple"
            · rw [if_pos htuple, if_pos htuple]
              by_cases hempty : parameters.isEmpty = true
              · rw [if_pos hempty, if_pos hempty]
                rfl
              · rw [if_neg hempty, if_neg hempty, Option.isSome_map,
                  Option.isSome_map]
                exact isSome_fieldsToCpp parameters _
            · rw [if_neg htuple, if_neg htuple]
              rfl

theorem isSome_elementToCpp :
    ∀ (parameters : List (String × TypeParameterValue)) (structName : String),
      (elementToCpp parameters structName).isSome =
        (elementShape? parameters).isSome
  | [], _ => rfl
  | (name, value) :: parameters, structName => by
      rw [elementToCpp, elementShape?]
      by_cases hname : name = "element_type"
      · rw [if_pos hname, if_pos hname]
        exact isSome_valueToCpp value structName
      · rw [if_neg hname, if_neg hname]
        exact isSome_elementToCpp parameters structName

theorem isSome_valueToCpp : ∀ (value : TypeParameterValue)
    (structName : String),
      (valueToCpp value structName).isSome = value.shape?.isSome
  | .type type, structName => isSome_typeToCpp type structName
  | .boolean _, _ => rfl
  | .integer _, _ => rfl
  | .string _, _ => rfl

theorem isSome_fieldsToCpp :
    ∀ (parameters : List (String × TypeParameterValue)) (structName : String),
      (fieldsToCpp parameters structName).isSome =
        (fieldShapes? parameters).isSome
  | [], _ => rfl
  | (name, .type type) :: parameters, structName => by
      have htype := isSome_typeToCpp type (structName ++ "_" ++ name)
      have hrest := isSome_fieldsToCpp parameters structName
      rw [fieldsToCpp, fieldShapes?]
      cases hmapping : typeToCpp type (structName ++ "_" ++ name) with
      | none =>
          rw [hmapping] at htype
          have hshape : type.shape? = none :=
            Option.isNone_iff_eq_none.mp
              (Option.isSome_eq_false_iff.mp htype.symm)
          rw [hshape]
          rfl
      | some mapping =>
          rw [hmapping] at htype
          obtain ⟨shape, hshape⟩ := Option.isSome_iff_exists.mp htype.symm
          rw [hshape, Option.bind_some, Option.bind_some, Option.isSome_map,
            Option.isSome_map]
          exact hrest
  | (_, .boolean _) :: parameters, structName =>
      isSome_fieldsToCpp parameters structName
  | (_, .integer _) :: parameters, structName =>
      isSome_fieldsToCpp parameters structName
  | (_, .string _) :: parameters, structName =>
      isSome_fieldsToCpp parameters structName

end

theorem typeToCpp_eq_none_iff (type : DataType) (structName : String) :
    typeToCpp type structName = none ↔ type.shape? = none := by
  rw [← Option.isNone_iff_eq_none, ← Option.isNone_iff_eq_none,
    ← Option.not_isSome, ← Option.not_isSome, isSome_typeToCpp]

end TypeMapping

theorem parametersDistinct_of_forall
    {parameters : List (String × TypeParameterValue)}
    (h : ∀ parameter ∈ parameters, parameter.2.Distinct) :
    ParametersDistinct parameters := by
  induction parameters with
  | nil => trivial
  | cons parameter parameters ih =>
      exact ⟨h parameter List.mem_cons_self,
        ih fun other hmem => h other (List.mem_cons_of_mem parameter hmem)⟩

mutual

/-- A type in the tree has every parameter once. -/
theorem DataType.distinct_collected : ∀ written : DataType,
    written.collected.Distinct
  | .mk name parameters => by
      rw [DataType.collected, DataType.Distinct]
      exact ⟨(Assoc.sorted_ofPairs _).nodup, parametersDistinct_of_forall
        fun parameter hmem =>
          distinct_collectedParameters parameters parameter
            (Assoc.mem_ofPairs hmem)⟩

theorem distinct_collectedParameters :
    ∀ (parameters : List (String × TypeParameterValue))
      (parameter : String × TypeParameterValue),
      parameter ∈ collectedParameters parameters → parameter.2.Distinct
  | [], _, hmem => absurd hmem List.not_mem_nil
  | (_, value) :: parameters, parameter, hmem => by
      rw [collectedParameters] at hmem
      rcases List.mem_cons.mp hmem with rfl | hmem
      · exact value.distinct_collected
      · exact distinct_collectedParameters parameters parameter hmem

theorem TypeParameterValue.distinct_collected :
    ∀ written : TypeParameterValue, written.collected.Distinct
  | .boolean _ => trivial
  | .integer _ => trivial
  | .string _ => trivial
  | .type written => by
      rw [TypeParameterValue.collected, TypeParameterValue.Distinct]
      exact written.distinct_collected

end

end NetworkProtocolDsl
