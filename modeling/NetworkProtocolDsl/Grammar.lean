/-
The documented grammar of the protocols.

A derivation of the grammar has one constructor for each production; it is
printed as the tokens it derives, and it stands for the tree that the grammar
classes are there to build.  The words `parts` and `terminator` are the
keywords the lexer makes of them; as the name of an option `terminator` may
also be an identifier.  A reference may name a member, which the grammar classes
read and the notes leave out.
-/
import NetworkProtocolDsl.Parse

namespace NetworkProtocolDsl

open RecursiveParser

def IdentifierReference.tokens : IdentifierReference → List Token
  | .mk name none => [.identifier name]
  | .mk name (some member) => .identifier name :: .dot :: member.tokens

def TokenPart.print : TokenPart → List Token
  | .stringLiteral value => [.string value]
  | .identifierReference reference => reference.tokens

def TokenSequenceOptionValue.tokens : TokenSequenceOptionValue → List Token
  | .string value => [.string value]
  | .escapeReplacement value =>
      [.identifier "replace", .angleBracketOpen, .string value.character,
        .comma, .string value.sequence, .angleBracketClose]

namespace Grammar

mutual

inductive DataType where
  | mk (name : String) (parameters : List (String × TypeParameterValue))

inductive TypeParameterValue where
  | boolean (value : Bool)
  | integer (value : Int)
  | string (value : Octets)
  | identifierReference (name : String)
  | type (value : DataType)

end

mutual

def DataType.tokens : DataType → List Token
  | .mk name [] => [.identifier name]
  | .mk name (parameter :: parameters) =>
      .identifier name :: .angleBracketOpen ::
        (typeParametersTokens (parameter :: parameters) ++
          [.angleBracketClose])

def typeParametersTokens : List (String × TypeParameterValue) → List Token
  | [] => []
  | [parameter] => typeParameterTokens parameter
  | parameter :: other :: parameters =>
      typeParameterTokens parameter ++
        .comma :: typeParametersTokens (other :: parameters)

def typeParameterTokens : String × TypeParameterValue → List Token
  | (name, value) => .identifier name :: .equal :: value.tokens

def TypeParameterValue.tokens : TypeParameterValue → List Token
  | .boolean value => [.boolean value]
  | .integer value => [.integer value]
  | .string value => [.string value]
  | .identifierReference name => [.identifier name]
  | .type value => value.tokens

end

mutual

def DataType.tree : DataType → NetworkProtocolDsl.DataType
  | .mk name parameters =>
      .mk (.mk name none) (Assoc.ofPairs (typeParametersTree parameters))

def typeParametersTree : List (String × TypeParameterValue) →
    List (String × NetworkProtocolDsl.TypeParameterValue)
  | [] => []
  | (name, value) :: parameters =>
      (name, value.tree) :: typeParametersTree parameters

def TypeParameterValue.tree :
    TypeParameterValue → NetworkProtocolDsl.TypeParameterValue
  | .boolean value => .boolean value
  | .integer value => .integer value
  | .string value => .string value
  | .identifierReference name => .type (.mk (.mk name none) [])
  | .type value => .type value.tree

end

/-- The options by the word that names them. -/
inductive OptionName where
  | keywordTerminator
  | terminator
  | escape
deriving DecidableEq, Repr

def OptionName.token : OptionName → Token
  | .keywordTerminator => .keywordTerminator
  | .terminator => .identifier "terminator"
  | .escape => .identifier "escape"

def OptionName.key : OptionName → String
  | .keywordTerminator | .terminator => "terminator"
  | .escape => "escape"

structure TokenSequenceOption where
  name : OptionName
  value : TokenSequenceOptionValue
deriving DecidableEq, Repr

def TokenSequenceOption.tokens (option : TokenSequenceOption) : List Token :=
  option.name.token :: .equal :: option.value.tokens

def TokenSequenceOption.pair (option : TokenSequenceOption) :
    TokenSequenceOptionPair :=
  (option.name.key, option.value)

/-- No options, or the block of them. -/
def optionsTokens (options : List TokenSequenceOption) : List Token :=
  if options.isEmpty then []
  else .angleBracketOpen ::
    (separated .comma TokenSequenceOption.tokens options ++
      [.angleBracketClose])

def optionsMap (options : List TokenSequenceOption) :
    TokenSequenceOptionsMap :=
  Assoc.ofPairs (options.map TokenSequenceOption.pair)

inductive MessagePart where
  | tokenSequence (options : List TokenSequenceOption)
      (parts : List TokenPart)
  | terminator (value : Octets)
  | messageForLoop (options : List TokenSequenceOption)
      (loopVariable collection : IdentifierReference)
      (block : List MessagePart)

mutual

def MessagePart.tokens : MessagePart → List Token
  | .tokenSequence options parts =>
      .keywordTokens :: (optionsTokens options ++
        .curlyBraceOpen :: (parts.flatMap TokenPart.print ++
          [.curlyBraceClose]))
  | .terminator value =>
      [.keywordTerminator, .curlyBraceOpen, .string value, .curlyBraceClose]
  | .messageForLoop options loopVariable collection block =>
      .keywordFor :: (optionsTokens options ++ (loopVariable.tokens ++
        .keywordIn :: (collection.tokens ++
          .curlyBraceOpen :: (messageSequenceTokens block ++
            [.curlyBraceClose]))))

def messageSequenceTokens : List MessagePart → List Token
  | [] => []
  | part :: parts => part.tokens ++ messageSequenceTokens parts

end

mutual

/-- A loop keeps the terminator of its options, as a token sequence does. -/
def MessagePart.tree : MessagePart → NetworkProtocolDsl.MessagePart
  | .tokenSequence options parts =>
      .tokenSequence ⟨parts, (optionsMap options).terminator,
        (optionsMap options).escape⟩
  | .terminator value => .terminator value
  | .messageForLoop options loopVariable collection block =>
      .messageForLoop loopVariable collection (messageSequenceTree block)
        (optionsMap options).terminator

def messageSequenceTree : List MessagePart → MessageSequence
  | [] => []
  | part :: parts => part.tree :: messageSequenceTree parts

end

inductive AttributeName where
  | whenState
  | thenState
  | agent
deriving DecidableEq, Repr

def AttributeName.key : AttributeName → String
  | .whenState => "when"
  | .thenState => "then"
  | .agent => "agent"

structure MessageAttribute where
  name : AttributeName
  value : String
deriving DecidableEq, Repr

def MessageAttribute.tokens (entry : MessageAttribute) : List Token :=
  [.identifier entry.name.key, .keyValueSeparator,
    .identifier entry.value, .statementEnd]

def messageDataFieldTokens (field : String × DataType) : List Token :=
  .identifier field.1 :: .keyValueSeparator ::
    (field.2.tokens ++ [.statementEnd])

structure Message where
  name : Octets
  attributes : List MessageAttribute
  data : List (String × DataType)
  parts : List MessagePart

def Message.tokens (message : Message) : List Token :=
  .keywordMessage :: .string message.name :: .curlyBraceOpen ::
    (message.attributes.flatMap MessageAttribute.tokens ++
      .identifier "data" :: .keyValueSeparator :: .curlyBraceOpen ::
        (message.data.flatMap messageDataFieldTokens ++
          .curlyBraceClose :: .keywordParts :: .curlyBraceOpen ::
            (messageSequenceTokens message.parts ++
              [.curlyBraceClose, .curlyBraceClose])))

/-- The last attribute with the name. -/
def Message.attribute? (message : Message) (name : AttributeName) :
    Option IdentifierReference :=
  (message.attributes.reverse.find? (·.name = name)).map (.mk ·.value none)

/-- What the message says, if it has all its attributes. -/
def Message.tree? (message : Message) : Option NetworkProtocolDsl.Message := do
  let whenState ← message.attribute? .whenState
  let thenState ← message.attribute? .thenState
  let agent ← message.attribute? .agent
  return ⟨message.name, whenState, thenState, agent,
    Assoc.ofPairs (message.data.map fun field => (field.1, field.2.tree)),
    messageSequenceTree message.parts⟩

/-- `<ProtocolDescription>`. -/
abbrev ProtocolDescription := List Message

def ProtocolDescription.tokens (description : ProtocolDescription) :
    List Token :=
  description.flatMap Message.tokens

/-- The messages by their names. -/
def ProtocolDescription.tree? (description : ProtocolDescription) :
    Option NetworkProtocolDsl.ProtocolDescription :=
  (description.mapM Message.tree?).map
    NetworkProtocolDsl.ProtocolDescription.ofMessages

end Grammar

end NetworkProtocolDsl
