/-
The C++ types of the emitted data.

An integer or a string has a type of C++, an array is a vector of its elements,
and a tuple becomes a struct.  Structs are named by their place in the message:
a field behind an underscore, the elements of an array behind `Element`.
-/
import NetworkProtocolDsl.GeneratedNames
import NetworkProtocolDsl.GeneratedParser

namespace NetworkProtocolDsl

/-- The type of a member. -/
inductive MemberType where
  | unsigned (bits : Nat)
  | signed (bits : Nat)
  | string
  | vector (element : MemberType)
  | struct (name : String)
deriving DecidableEq, Repr

/-- `struct name { … };` -/
structure StructDefinition where
  name : String
  members : List (String × MemberType)
deriving DecidableEq, Repr

structure TypeMappingResult where
  cppType : MemberType
  auxiliaryDefinitions : List StructDefinition

namespace TypeMapping

/-- The eight integer types. -/
def integerType : CppType → Option MemberType
  | .unsigned bits => some (.unsigned bits)
  | .signed bits => some (.signed bits)
  | .other => none

def mapIntType (type : DataType) : Option TypeMappingResult :=
  (integerType (GenerateParser.mapIntType type)).map (⟨·, []⟩)

def mapStrType : Option TypeMappingResult :=
  some ⟨.string, []⟩

/-- The name of the struct for a tuple. -/
def tupleName (structName : String) : String :=
  if structName = "" then "TupleData" else structName

mutual

/-- `type_to_cpp`. -/
def typeToCpp : DataType → String → Option TypeMappingResult
  | .mk name parameters, structName =>
      if name.name = "int" then mapIntType (.mk name parameters)
      else if name.name = "str" then mapStrType
      else if name.name = "array" then
        (elementToCpp parameters (structName ++ "Element")).map fun element =>
          ⟨.vector element.cppType, element.auxiliaryDefinitions⟩
      else if name.name = "tuple" then
        if parameters.isEmpty then none
        else
          (fieldsToCpp parameters (tupleName structName)).map fun fields =>
            ⟨.struct (tupleName structName),
              fields.2 ++ [⟨tupleName structName, fields.1⟩]⟩
      else none

/-- The type of the parameter `element_type`. -/
def elementToCpp : List (String × TypeParameterValue) → String →
    Option TypeMappingResult
  | [], _ => none
  | (name, value) :: parameters, structName =>
      if name = "element_type" then valueToCpp value structName
      else elementToCpp parameters structName

def valueToCpp : TypeParameterValue → String → Option TypeMappingResult
  | .type type, structName => typeToCpp type structName
  | .boolean _, _ => none
  | .integer _, _ => none
  | .string _, _ => none

/-- The members of a struct and the structs they need; a parameter that is no
type is no field. -/
def fieldsToCpp : List (String × TypeParameterValue) → String →
    Option (List (String × MemberType) × List StructDefinition)
  | [], _ => some ([], [])
  | (name, value) :: parameters, structName =>
      match value with
      | .type type =>
          (typeToCpp type (structName ++ "_" ++ name)).bind fun mapping =>
            (fieldsToCpp parameters structName).map fun fields =>
              ((name, mapping.cppType) :: fields.1,
                mapping.auxiliaryDefinitions ++ fields.2)
      | _ => fieldsToCpp parameters structName

end

end TypeMapping

end NetworkProtocolDsl
