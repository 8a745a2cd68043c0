/-
From the tokens of a protocol to its tree.

Every grammar class is one parser.  Where a class repeats another one, an
empty repetition reaches no overload, so the class fails; where it is optional,
the class goes on without it.
-/
import NetworkProtocolDsl.ProtocolDescription
import NetworkProtocolDsl.Library.Assoc
import NetworkProtocolDsl.Library.RecursiveParser

namespace NetworkProtocolDsl

open RecursiveParser

inductive Token where
  | identifier (name : String)
  | keywordFor
  | keywordIn
  | keywordMessage
  | keywordParts
  | keywordTerminator
  | keywordTokens
  | integer (value : Int)
  | string (value : Octets)
  | boolean (value : Bool)
  | angleBracketClose
  | angleBracketOpen
  | comma
  | dot
  | curlyBraceClose
  | curlyBraceOpen
  | equal
  | keyValueSeparator
  | statementEnd
deriving DecidableEq, Repr

/-- `tree::TokenSequenceOptionValue`. -/
inductive TokenSequenceOptionValue where
  | string (value : Octets)
  | escapeReplacement (value : EscapeInfo)
deriving DecidableEq, Repr

abbrev TokenSequenceOptionPair := String × TokenSequenceOptionValue

/-- A map, listed in the order of its keys. -/
abbrev TokenSequenceOptionsMap := List TokenSequenceOptionPair

/-- The messages by their names; of two with one name the first counts. -/
def ProtocolDescription.ofMessages (messages : List Message) :
    ProtocolDescription where
  messages := Assoc.ofPairs (messages.map fun message =>
    (message.name, message))
  nodup := (Assoc.sorted_ofPairs _).nodup

namespace TokenSequenceOptionsMap

/-- The terminator, unless the option holds an escape replacement. -/
def terminator (options : TokenSequenceOptionsMap) : Option Octets :=
  match options.lookup "terminator" with
  | some (.string value) => some value
  | _ => none

/-- The escape replacement, unless the option holds a string. -/
def escape (options : TokenSequenceOptionsMap) : Option EscapeInfo :=
  match options.lookup "escape" with
  | some (.escapeReplacement value) => some value
  | _ => none

end TokenSequenceOptionsMap

namespace Parse

def booleanLiteral : Parser Token Bool
  | .boolean value :: rest => some (value, rest)
  | _ => none

def integerLiteral : Parser Token Int
  | .integer value :: rest => some (value, rest)
  | _ => none

def stringLiteral : Parser Token Octets
  | .string value :: rest => some (value, rest)
  | _ => none

/-- A member access that is no reference is left to what follows. -/
def identifierReference : Parser Token IdentifierReference
  | .identifier name :: .dot :: rest =>
      match identifierReference rest with
      | some (member, rest) => some (.mk name (some member), rest)
      | none => some (.mk name none, .dot :: rest)
  | .identifier name :: rest => some (.mk name none, rest)
  | _ => none

theorem length_of_identifierReference {tokens rest : List Token}
    {reference : IdentifierReference}
    (h : identifierReference tokens = some (reference, rest)) :
    rest.length < tokens.length := by
  induction tokens using identifierReference.induct generalizing reference rest with
  | case1 name tail member after hmember ih =>
      have hlt := ih hmember
      rw [identifierReference, hmember] at h
      cases h
      simp only [List.length_cons]
      omega
  | case2 name tail hnone =>
      rw [identifierReference, hnone] at h
      cases h
      simp
  | case3 name tail hnot =>
      rw [identifierReference] at h
      · cases h
        simp
      · exact hnot
  | case4 tokens hdot hidentifier =>
      rw [identifierReference] at h
      · contradiction
      · exact hdot
      · exact hidentifier

section DataType

variable (dataType : Parser Token DataType)

def typeParameterValue : Parser Token TypeParameterValue :=
  anyOf [mapNode .type dataType, mapNode .boolean booleanLiteral,
    mapNode .string stringLiteral, mapNode .integer integerLiteral]

def typeParameter : Parser Token (String × TypeParameterValue)
  | .identifier name :: .equal :: rest => do
      let (value, rest) ← typeParameterValue dataType rest
      return ((name, value), rest)
  | _ => none

def typeParameters : Parser Token (List (String × TypeParameterValue))
  | .angleBracketOpen :: rest => do
      let (pairs, rest) ← atLeastOne (expect .comma) (typeParameter dataType) rest
      let rest ← expect .angleBracketClose rest
      return (Assoc.ofPairs pairs, rest)
  | _ => none

def dataTypeLayer : Parser Token DataType
  | .identifier name :: rest =>
      match maybe (typeParameters dataType) rest with
      | (some parameters, rest) => some (.mk (.mk name none) parameters, rest)
      | (none, rest) => some (.mk (.mk name none) [], rest)
  | _ => none

end DataType

/-- `grammar::Type`, whose parameters may be types. -/
def dataType : Parser Token DataType := fix dataTypeLayer

theorem guarded_typeParameter : Guarded typeParameter := by
  intro length left right h input hlength
  unfold typeParameter
  split
  · rename_i name rest
    have hrest : rest.length < length := by
      simp only [List.length_cons] at hlength
      omega
    have hvalue : AgreeBelow length (typeParameterValue left)
        (typeParameterValue right) :=
      AgreeBelow.anyOf (h.mapNode TypeParameterValue.type) fun _ _ => rfl
    rw [hvalue rest hrest]
  · rfl

theorem guarded_dataTypeLayer : Guarded dataTypeLayer := by
  intro length left right h input hlength
  unfold dataTypeLayer
  split
  · rename_i name rest
    have hparameters : typeParameters left rest = typeParameters right rest := by
      unfold typeParameters
      split
      · rename_i rest
        have hitem := (guarded_typeParameter length left right h).atLeastOne
          (expect .comma)
        rw [hitem rest (by simp only [List.length_cons] at hlength; omega)]
      · rfl
    simp only [maybe, hparameters]
  · rfl

theorem dataType_eq (tokens : List Token) :
    dataType tokens = dataTypeLayer dataType tokens :=
  guarded_dataTypeLayer.fix_eq tokens

def messageDataPair : Parser Token (String × DataType)
  | .identifier name :: .keyValueSeparator :: rest => do
      let (type, rest) ← dataType rest
      let rest ← expect .statementEnd rest
      return ((name, type), rest)
  | _ => none

def messageData : Parser Token MessageData
  | .identifier name :: .keyValueSeparator :: .curlyBraceOpen :: rest => do
      guard (name = "data")
      let (fields, rest) ← atLeastOne some messageDataPair rest
      let rest ← expect .curlyBraceClose rest
      return (Assoc.ofPairs fields, rest)
  | _ => none

def tokenPart : Parser Token TokenPart :=
  anyOf [mapNode .stringLiteral stringLiteral,
    mapNode .identifierReference identifierReference]

def escapeReplacement : Parser Token EscapeInfo
  | .identifier name :: .angleBracketOpen :: .string character :: .comma ::
      .string sequence :: .angleBracketClose :: rest => do
        guard (name = "replace")
        return (⟨character, sequence⟩, rest)
  | _ => none

def tokenSequenceOptionValue : Parser Token TokenSequenceOptionValue :=
  anyOf [mapNode .string stringLiteral,
    mapNode .escapeReplacement escapeReplacement]

def tokenSequenceOption : Parser Token TokenSequenceOptionPair
  | .identifier name :: .equal :: rest => do
      let (value, rest) ← tokenSequenceOptionValue rest
      return ((name, value), rest)
  | .keywordTerminator :: .equal :: rest => do
      let (value, rest) ← tokenSequenceOptionValue rest
      return (("terminator", value), rest)
  | _ => none

def tokenSequenceOptions : Parser Token TokenSequenceOptionsMap
  | .angleBracketOpen :: rest => do
      let (pairs, rest) ← atLeastOne (expect .comma) tokenSequenceOption rest
      let rest ← expect .angleBracketClose rest
      return (Assoc.ofPairs pairs, rest)
  | _ => none

def tokenSequence : Parser Token TokenSequence
  | .keywordTokens :: rest => do
      let (options, rest) := maybe tokenSequenceOptions rest
      let rest ← expect .curlyBraceOpen rest
      let (parts, rest) ← atLeastOne some tokenPart rest
      let rest ← expect .curlyBraceClose rest
      return (⟨parts, options.bind TokenSequenceOptionsMap.terminator,
        options.bind TokenSequenceOptionsMap.escape⟩, rest)
  | _ => none

def terminator : Parser Token Octets
  | .keywordTerminator :: .curlyBraceOpen :: rest => do
      let (value, rest) ← stringLiteral rest
      let rest ← expect .curlyBraceClose rest
      return (value, rest)
  | _ => none

section MessageSequence

variable (messageSequence : Parser Token MessageSequence)

def messageForLoop : Parser Token MessagePart
  | .keywordFor :: rest => do
      let (options, rest) := maybe tokenSequenceOptions rest
      -- the options are a pointer to const, the overloads for them take a
      -- pointer to a map that may change
      guard options.isNone
      let (loopVariable, rest) ← identifierReference rest
      let rest ← expect .keywordIn rest
      let (collection, rest) ← identifierReference rest
      let rest ← expect .curlyBraceOpen rest
      let (block, rest) ← messageSequence rest
      let rest ← expect .curlyBraceClose rest
      return (.messageForLoop loopVariable collection block none, rest)
  | _ => none

def messagePart : Parser Token MessagePart :=
  anyOf [mapNode .tokenSequence tokenSequence, mapNode .terminator terminator,
    messageForLoop messageSequence]

def messageSequenceLayer : Parser Token MessageSequence :=
  atLeastOne some (messagePart messageSequence)

end MessageSequence

/-- `grammar::MessageSequence`, whose loops contain sequences. -/
def messageSequence : Parser Token MessageSequence := fix messageSequenceLayer

theorem guarded_messageForLoop : Guarded messageForLoop := by
  intro length left right h input hlength
  unfold messageForLoop
  split
  · rename_i rest
    simp only [List.length_cons] at hlength
    cases hoptions : tokenSequenceOptions rest with
    | some options => rw [maybe_of_some hoptions]; rfl
    | none =>
        rw [maybe_of_none hoptions]
        refine Option.bind_congr fun _ _ => ?_
        refine Option.bind_congr fun variable₁ h₁ => ?_
        refine Option.bind_congr fun rest₂ h₂ => ?_
        refine Option.bind_congr fun collection h₃ => ?_
        refine Option.bind_congr fun rest₄ h₄ => ?_
        have hlt₁ := length_of_identifierReference h₁
        have hlt₂ := length_of_expect h₂
        have hlt₃ := length_of_identifierReference h₃
        have hlt₄ := length_of_expect h₄
        rw [h rest₄ (by omega)]
  · rfl

theorem guarded_messageSequenceLayer : Guarded messageSequenceLayer := by
  intro length left right h
  have hloop := guarded_messageForLoop length left right h
  have hpart : AgreeBelow (length + 1) (messagePart left)
      (messagePart right) := by
    unfold messagePart
    refine AgreeBelow.anyOf (fun _ _ => rfl) ?_
    refine AgreeBelow.anyOf (fun _ _ => rfl) ?_
    exact hloop.anyOf fun _ _ => rfl
  exact hpart.atLeastOne some

theorem messageSequence_eq (tokens : List Token) :
    messageSequence tokens =
      atLeastOne some (messagePart messageSequence) tokens :=
  guarded_messageSequenceLayer.fix_eq tokens

def messageParts : Parser Token MessageSequence
  | .keywordParts :: .curlyBraceOpen :: rest => do
      let (parts, rest) ← messageSequence rest
      let rest ← expect .curlyBraceClose rest
      return (parts, rest)
  | _ => none

/-- The value of an attribute is the name of its type; of several attributes
with one name the last counts. -/
def attribute? (name : String) (attributes : List (String × DataType)) :
    Option IdentifierReference :=
  (attributes.reverse.lookup name).map DataType.name

/-- All three attributes have to be there. -/
def ofAttributes (name : Octets) (attributes : List (String × DataType))
    (data : MessageData) (parts : MessageSequence) : Option Message := do
  let whenState ← attribute? "when" attributes
  let thenState ← attribute? "then" attributes
  let agent ← attribute? "agent" attributes
  return ⟨name, whenState, thenState, agent, data, parts⟩

def message : Parser Token Message
  | .keywordMessage :: rest => do
      let (name, rest) ← stringLiteral rest
      let rest ← expect .curlyBraceOpen rest
      let (attributes, rest) ← atLeastOne some messageDataPair rest
      match maybe messageData rest with
      | (none, rest) => do
          let rest ← expect .curlyBraceClose rest
          let message ← ofAttributes name attributes [] []
          return (message, rest)
      | (some data, rest) => do
          let (parts, rest) ← messageParts rest
          let rest ← expect .curlyBraceClose rest
          let message ← ofAttributes name attributes data parts
          return (message, rest)
  | _ => none

def protocolDescription : Parser Token ProtocolDescription := fun tokens => do
  let (messages, rest) ← atLeastOne some message tokens
  return (.ofMessages messages, rest)

end Parse

/-- The tree, if the whole text is one protocol. -/
def parse (tokens : List Token) : Option ProtocolDescription :=
  match Parse.protocolDescription tokens with
  | some (description, []) => some description
  | _ => none

end NetworkProtocolDsl
