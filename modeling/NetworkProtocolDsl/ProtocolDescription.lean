/-
The parsed text of a protocol.

Types are trees of named parameters; a message consists of token sequences,
terminators and loops over a collection.
-/
import NetworkProtocolDsl.Value

namespace NetworkProtocolDsl

inductive IdentifierReference where
  | mk (name : String) (member : Option IdentifierReference)

def IdentifierReference.name : IdentifierReference → String
  | .mk name _ => name

def IdentifierReference.member :
    IdentifierReference → Option IdentifierReference
  | .mk _ member => member

mutual

/-- `tree::Type`. -/
inductive DataType where
  | mk (name : IdentifierReference)
      (parameters : List (String × TypeParameterValue))

inductive TypeParameterValue where
  | boolean (value : Bool)
  | integer (value : Int)
  | string (value : Octets)
  | type (value : DataType)

end

def DataType.name : DataType → IdentifierReference
  | .mk name _ => name

def DataType.parameters : DataType → List (String × TypeParameterValue)
  | .mk _ parameters => parameters

/-- A map, listed in the order of its keys. -/
abbrev MessageData := List (String × DataType)

inductive TokenPart where
  | stringLiteral (value : Octets)
  | identifierReference (identifier : IdentifierReference)

/-- The options between `tokens` and the braces are kept with the tokens. -/
structure TokenSequence where
  tokens : List TokenPart
  terminator : Option Octets := none
  escape : Option EscapeInfo := none

inductive MessagePart where
  | tokenSequence (sequence : TokenSequence)
  | terminator (value : Octets)
  | messageForLoop (loopVariable collection : IdentifierReference)
      (block : List MessagePart) (terminator : Option Octets)

abbrev MessageSequence := List MessagePart

structure Message where
  name : Octets
  whenState : IdentifierReference
  thenState : IdentifierReference
  agent : IdentifierReference
  data : MessageData
  parts : MessageSequence

/-- A map from the names of the messages, listed in the order of its keys. -/
structure ProtocolDescription where
  messages : List (Octets × Message)
  nodup : (messages.map Prod.fst).Nodup

end NetworkProtocolDsl
