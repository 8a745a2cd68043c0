/-
The declarations of a protocol as they are written.

The grammar classes collect lists of pairs and then put them into maps.  The
parsers of this file stop before the maps; what the parser of the protocol
returns is what they return, collected.
-/
import NetworkProtocolDsl.Parse

namespace NetworkProtocolDsl

open RecursiveParser

namespace Written

section DataType

variable (dataType : Parser Token DataType)

/-- `TypeParameters` before the pairs are put into a map. -/
def typeParameters : Parser Token (List (String × TypeParameterValue))
  | .angleBracketOpen :: rest => do
      let (pairs, rest) ← atLeastOne (expect .comma)
        (Parse.typeParameter dataType) rest
      let rest ← expect .angleBracketClose rest
      return (pairs, rest)
  | _ => none

def dataTypeLayer : Parser Token DataType
  | .identifier name :: rest =>
      match maybe (typeParameters dataType) rest with
      | (some parameters, rest) => some (.mk (.mk name none) parameters, rest)
      | (none, rest) => some (.mk (.mk name none) [], rest)
  | _ => none

end DataType

/-- A type with its parameters in the order they are written. -/
def dataType : Parser Token DataType := fix dataTypeLayer

def messageDataPair : Parser Token (String × DataType)
  | .identifier name :: .keyValueSeparator :: rest => do
      let (type, rest) ← dataType rest
      let rest ← expect .statementEnd rest
      return ((name, type), rest)
  | _ => none

/-- `MessageData` before the fields are put into a map. -/
def messageData : Parser Token (List (String × DataType))
  | .identifier name :: .keyValueSeparator :: .curlyBraceOpen :: rest => do
      guard (name = "data")
      let (fields, rest) ← atLeastOne some messageDataPair rest
      let rest ← expect .curlyBraceClose rest
      return (fields, rest)
  | _ => none

end Written

/-- A message block: its attributes, and the message with the fields of its
data block in the order they are written. -/
structure WrittenMessage where
  attributes : List (String × DataType)
  message : Message

namespace Written

def message : Parser Token WrittenMessage
  | .keywordMessage :: rest => do
      let (name, rest) ← Parse.stringLiteral rest
      let rest ← expect .curlyBraceOpen rest
      let (attributes, rest) ← atLeastOne some messageDataPair rest
      match maybe messageData rest with
      | (none, rest) => do
          let rest ← expect .curlyBraceClose rest
          let message ← Parse.ofAttributes name attributes [] []
          return (⟨attributes, message⟩, rest)
      | (some data, rest) => do
          let (parts, rest) ← Parse.messageParts rest
          let rest ← expect .curlyBraceClose rest
          let message ← Parse.ofAttributes name attributes data parts
          return (⟨attributes, message⟩, rest)
  | _ => none

/-- The message blocks of a text that is one protocol. -/
def messages (tokens : List Token) : Option (List WrittenMessage) :=
  match atLeastOne some message tokens with
  | some (messages, []) => some messages
  | _ => none

end Written

mutual

/-- The parameters of the type, and of the types in them, put into maps. -/
def DataType.collected : DataType → DataType
  | .mk name parameters =>
      .mk name (Assoc.ofPairs (collectedParameters parameters))

def collectedParameters : List (String × TypeParameterValue) →
    List (String × TypeParameterValue)
  | [] => []
  | (name, value) :: parameters =>
      (name, value.collected) :: collectedParameters parameters

def TypeParameterValue.collected : TypeParameterValue → TypeParameterValue
  | .boolean value => .boolean value
  | .integer value => .integer value
  | .string value => .string value
  | .type type => .type type.collected

end

def collectedField (field : String × DataType) : String × DataType :=
  (field.1, field.2.collected)

/-- What the parser makes of a message block. -/
def WrittenMessage.tree (written : WrittenMessage) : Message :=
  { written.message with
    data := Assoc.ofPairs (written.message.data.map collectedField) }

theorem collectedParameters_eq
    (parameters : List (String × TypeParameterValue)) :
    collectedParameters parameters =
      parameters.map fun parameter => (parameter.1, parameter.2.collected) := by
  induction parameters with
  | nil => rfl
  | cons parameter parameters ih =>
      rw [collectedParameters, ih, List.map_cons]

section Collected

open Parse

theorem typeParameter_mapNode (item : Parser Token DataType) :
    typeParameter (mapNode DataType.collected item) =
      mapNode (fun parameter => (parameter.1, parameter.2.collected))
        (typeParameter item) := by
  have hvalue : typeParameterValue (mapNode DataType.collected item) =
      mapNode TypeParameterValue.collected (typeParameterValue item) := by
    rw [typeParameterValue, typeParameterValue, mapNode_anyOf]
    simp only [List.map_cons, List.map_nil, mapNode_mapNode]
    rfl
  funext input
  rw [mapNode]
  unfold typeParameter
  split
  · rename_i name rest
    rw [hvalue, mapNode]
    cases typeParameterValue item rest <;> rfl
  · rfl

theorem typeParameters_mapNode (item : Parser Token DataType) :
    typeParameters (mapNode DataType.collected item) =
      mapNode (fun parameters => Assoc.ofPairs (collectedParameters parameters))
        (Written.typeParameters item) := by
  funext input
  rw [mapNode]
  unfold typeParameters
  split
  · rename_i rest
    rw [Written.typeParameters, typeParameter_mapNode, atLeastOne_mapNode,
      mapNode]
    cases atLeastOne (expect .comma) (typeParameter item) rest with
    | none => rfl
    | some result =>
        simp only [Option.map_some, Option.bind_eq_bind, Option.bind_some]
        cases expect .angleBracketClose result.2 with
        | none => rfl
        | some rest =>
            simp [collectedParameters_eq]
  · rename_i hnot
    rw [Written.typeParameters]
    · rfl
    · exact hnot

theorem dataTypeLayer_mapNode (item : Parser Token DataType) :
    dataTypeLayer (mapNode DataType.collected item) =
      mapNode DataType.collected (Written.dataTypeLayer item) := by
  funext input
  rw [mapNode]
  unfold dataTypeLayer
  split
  · rename_i name rest
    rw [Written.dataTypeLayer, typeParameters_mapNode, maybe_mapNode]
    rcases maybe (Written.typeParameters item) rest with ⟨_ | parameters, rest⟩
    · rfl
    · rfl
  · rename_i hnot
    rw [Written.dataTypeLayer]
    · rfl
    · exact hnot

theorem guarded_writtenDataTypeLayer : Guarded Written.dataTypeLayer := by
  intro length left right h input hlength
  unfold Written.dataTypeLayer
  split
  · rename_i name rest
    have hparameters : Written.typeParameters left rest =
        Written.typeParameters right rest := by
      unfold Written.typeParameters
      split
      · rename_i rest
        have hitem := (guarded_typeParameter length left right h).atLeastOne
          (expect .comma)
        rw [hitem rest (by simp only [List.length_cons] at hlength; omega)]
      · rfl
    simp only [maybe, hparameters]
  · rfl

/-- A type is parsed to what is written, with its parameters in maps. -/
theorem dataType_eq_collected :
    dataType = mapNode DataType.collected Written.dataType := by
  have hwritten : Written.dataTypeLayer Written.dataType = Written.dataType :=
    funext fun tokens => (guarded_writtenDataTypeLayer.fix_eq tokens).symm
  refine (guarded_dataTypeLayer.fix_unique ?_).symm
  rw [dataTypeLayer_mapNode, hwritten]

theorem messageDataPair_eq_collected :
    messageDataPair = mapNode collectedField Written.messageDataPair := by
  funext input
  rw [mapNode]
  unfold messageDataPair
  split
  · rename_i name rest
    rw [Written.messageDataPair, dataType_eq_collected, mapNode]
    cases Written.dataType rest with
    | none => rfl
    | some result =>
        simp only [Option.map_some, Option.bind_eq_bind, Option.bind_some]
        cases expect .statementEnd result.2 <;> rfl
  · rename_i hnot
    rw [Written.messageDataPair]
    · rfl
    · exact hnot

theorem messageData_eq_collected :
    messageData = mapNode
      (fun fields => Assoc.ofPairs (fields.map collectedField))
        Written.messageData := by
  funext input
  rw [mapNode]
  unfold messageData
  split
  · rename_i name rest
    rw [Written.messageData, messageDataPair_eq_collected, atLeastOne_mapNode,
      mapNode]
    cases (guard (name = "data") : Option Unit) with
    | none => rfl
    | some _ =>
        simp only [Option.bind_eq_bind, Option.bind_some]
        cases atLeastOne some Written.messageDataPair rest with
        | none => rfl
        | some result =>
            simp only [Option.map_some, Option.bind_some]
            cases expect .curlyBraceClose result.2 <;> rfl
  · rename_i hnot
    rw [Written.messageData]
    · rfl
    · exact hnot

theorem name_collected (type : DataType) : type.collected.name = type.name := by
  cases type
  rfl

theorem lookup_map_collectedField (name : String)
    (fields : List (String × DataType)) :
    (fields.map collectedField).lookup name =
      (fields.lookup name).map DataType.collected := by
  induction fields with
  | nil => rfl
  | cons field fields ih =>
      rw [List.map_cons, collectedField, List.lookup_cons, List.lookup_cons]
      cases name == field.1 with
      | true => rfl
      | false => exact ih

/-- The attributes of a message are the names of their types. -/
theorem attribute?_map_collectedField (name : String)
    (attributes : List (String × DataType)) :
    attribute? name (attributes.map collectedField) =
      attribute? name attributes := by
  rw [attribute?, attribute?, ← List.map_reverse, lookup_map_collectedField,
    Option.map_map]
  congr 1
  funext type
  exact name_collected type

theorem ofAttributes_collected (name : Octets)
    (attributes data : List (String × DataType)) (parts : MessageSequence) :
    ofAttributes name (attributes.map collectedField)
        (Assoc.ofPairs (data.map collectedField)) parts =
      (ofAttributes name attributes data parts).map fun message =>
        { message with
          data := Assoc.ofPairs (message.data.map collectedField) } := by
  simp only [ofAttributes, attribute?_map_collectedField]
  cases attribute? "when" attributes with
  | none => rfl
  | some whenState =>
      cases attribute? "then" attributes with
      | none => rfl
      | some thenState => cases attribute? "agent" attributes <;> rfl

theorem message_eq_collected :
    Parse.message = mapNode WrittenMessage.tree Written.message := by
  funext input
  rw [mapNode]
  unfold Parse.message
  split
  · rename_i rest
    rw [Written.message, messageDataPair_eq_collected, atLeastOne_mapNode]
    cases stringLiteral rest with
    | none => rfl
    | some name =>
        simp only [Option.bind_eq_bind, Option.bind_some]
        cases expect .curlyBraceOpen name.2 with
        | none => rfl
        | some rest =>
            simp only [Option.bind_some, mapNode]
            cases atLeastOne some Written.messageDataPair rest with
            | none => rfl
            | some attributes =>
                simp only [Option.map_some, Option.bind_some,
                  messageData_eq_collected, maybe_mapNode]
                rcases maybe Written.messageData attributes.2 with
                  ⟨_ | data, rest⟩
                · simp only [Option.map_none]
                  cases expect .curlyBraceClose rest with
                  | none => rfl
                  | some rest =>
                      have h := ofAttributes_collected name.1 attributes.1 []
                        []
                      rw [List.map_nil, Assoc.ofPairs, List.foldl_nil] at h
                      simp only [Option.bind_some, h]
                      cases ofAttributes name.1 attributes.1 [] [] <;> rfl
                · simp only [Option.map_some]
                  cases messageParts rest with
                  | none => rfl
                  | some parts =>
                      simp only [Option.bind_some]
                      cases expect .curlyBraceClose parts.2 with
                      | none => rfl
                      | some rest =>
                          simp only [Option.bind_some, ofAttributes_collected]
                          cases ofAttributes name.1 attributes.1 data
                            parts.1 <;> rfl
  · rename_i hnot
    rw [Written.message]
    · rfl
    · exact hnot

end Collected

/-- What is written, with everything in maps. -/
def ProtocolDescription.ofWritten (messages : List WrittenMessage) :
    ProtocolDescription :=
  .ofMessages (messages.map WrittenMessage.tree)

/-- The parser returns what is written, with everything in maps. -/
theorem parse_eq_ofWritten (tokens : List Token) :
    parse tokens =
      (Written.messages tokens).map ProtocolDescription.ofWritten := by
  rw [parse, Parse.protocolDescription, Written.messages,
    message_eq_collected, atLeastOne_mapNode, mapNode]
  cases atLeastOne some Written.message tokens with
  | none => rfl
  | some result =>
      obtain ⟨messages, rest⟩ := result
      cases rest <;> rfl

end NetworkProtocolDsl
