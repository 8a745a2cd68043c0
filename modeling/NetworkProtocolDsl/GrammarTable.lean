/-
The grammar classes as the table of a recursive descent.

The overloads of a class say for what it has matched so far how it goes on:
one row for each of them, and nothing for any other list of arguments.
-/
import NetworkProtocolDsl.Library.Descent
import NetworkProtocolDsl.Parse

namespace NetworkProtocolDsl

open Descent

/-- The classes of the grammar. -/
inductive GrammarClass where
  | booleanLiteral
  | integerLiteral
  | stringLiteral
  | identifierMemberAccess
  | identifierReference
  | typeParameterValue
  | typeParameter
  | typeParameters
  | type
  | messageDataPair
  | messageData
  | tokenPart
  | escapeReplacement
  | tokenSequenceOptionValue
  | tokenSequenceOption
  | tokenSequenceOptions
  | tokenSequence
  | terminator
  | messageForLoop
  | messagePart
  | messageSequence
  | messageParts
  | message
  | protocolDescription
deriving DecidableEq, Repr

/-- `NodeVariant`. -/
inductive ParseNode where
  | booleanLiteral (value : Bool)
  | identifierReference (reference : IdentifierReference)
  | integerLiteral (value : Int)
  | stringLiteral (value : Octets)
  | type (type : DataType)
  | typeParameterPair (pair : String × TypeParameterValue)
  | typeParameterMap (parameters : List (String × TypeParameterValue))
  | tokenSequence (sequence : TokenSequence)
  | tokenPart (part : TokenPart)
  | escapeReplacement (value : EscapeInfo)
  | tokenSequenceOptionValue (value : TokenSequenceOptionValue)
  | tokenSequenceOptionPair (pair : TokenSequenceOptionPair)
  | tokenSequenceOptionsMap (options : TokenSequenceOptionsMap)
  | terminator (value : Octets)
  | protocolDescription (description : ProtocolDescription)
  | messageSequence (parts : MessageSequence)
  | messagePart (part : MessagePart)
  | messageForLoop (part : MessagePart)
  | messageDataPair (pair : String × DataType)
  | messageData (data : MessageData)
  | message (message : Message)

namespace ParseNode

/-- The node as an alternative of `tree::TypeParameterValue`. -/
def toTypeParameterValue : ParseNode → Option TypeParameterValue
  | .booleanLiteral value => some (.boolean value)
  | .integerLiteral value => some (.integer value)
  | .stringLiteral value => some (.string value)
  | .type value => some (.type value)
  | _ => none

/-- The node as an alternative of `tree::TokenPart`. -/
def toTokenPart : ParseNode → Option TokenPart
  | .stringLiteral value => some (.stringLiteral value)
  | .identifierReference reference => some (.identifierReference reference)
  | _ => none

/-- The node as an alternative of `tree::MessagePart`. -/
def toMessagePart : ParseNode → Option MessagePart
  | .tokenSequence sequence => some (.tokenSequence sequence)
  | .terminator value => some (.terminator value)
  | .messageForLoop part => some part
  | _ => none

def typeParameterPair? : ParseNode → Option (String × TypeParameterValue)
  | .typeParameterPair pair => some pair
  | _ => none

def messageDataPair? : ParseNode → Option (String × DataType)
  | .messageDataPair pair => some pair
  | _ => none

def tokenPart? : ParseNode → Option TokenPart
  | .tokenPart part => some part
  | _ => none

def tokenSequenceOptionPair? : ParseNode → Option TokenSequenceOptionPair
  | .tokenSequenceOptionPair pair => some pair
  | _ => none

def messagePart? : ParseNode → Option MessagePart
  | .messagePart part => some part
  | _ => none

def message? : ParseNode → Option Message
  | .message value => some value
  | _ => none

end ParseNode

/-- The vector of one type that a repetition hands on; a vector without nodes,
or of several types, is one of `ParseNode`. -/
def commonNodes {α : Type} (view : ParseNode → Option α)
    (nodes : List ParseNode) : Option (List α) :=
  if nodes.isEmpty then none else nodes.mapM view

namespace GrammarClass

abbrev Arguments := List (Matched Token ParseNode)

abbrev Overload := Rule GrammarClass Token ParseNode

/-- `match`, where the arguments have the types of its parameters. -/
def matchNode : Option ParseNode → Overload
  | some node => .done (some node)
  | none => .unknown

/-- `partial_match`, where they have. -/
def partialMatchIf (applies : Bool) : Overload :=
  if applies then .partialMatch else .unknown

def booleanLiteralRule : Arguments → Overload
  | [] => .partialMatch
  | [.token (.boolean value)] => .done (some (.booleanLiteral value))
  | _ => .unknown

def integerLiteralRule : Arguments → Overload
  | [] => .partialMatch
  | [.token (.integer value)] => .done (some (.integerLiteral value))
  | _ => .unknown

def stringLiteralRule : Arguments → Overload
  | [] => .partialMatch
  | [.token (.string value)] => .done (some (.stringLiteral value))
  | _ => .unknown

def identifierMemberAccessRule : Arguments → Overload
  | [] => .partialMatch
  | [.token .dot] => .recurseOne .identifierReference
  | [.token .dot, .node (.identifierReference member)] =>
      .done (some (.identifierReference member))
  | _ => .unknown

def identifierReferenceRule : Arguments → Overload
  | [] => .partialMatch
  | [.token (.identifier _)] => .recurseMaybe .identifierMemberAccess
  | [.token (.identifier name), .nothing] =>
      .done (some (.identifierReference (.mk name none)))
  | [.token (.identifier name), .node (.identifierReference member)] =>
      .done (some (.identifierReference (.mk name (some member))))
  | _ => .unknown

def typeParameterValueRule : Arguments → Overload
  | [] =>
      .recurseAny [.type, .booleanLiteral, .stringLiteral, .integerLiteral]
  | [.node node] => matchNode (node.toTypeParameterValue.map fun _ => node)
  | _ => .unknown

def typeParameterRule : Arguments → Overload
  | [] => .partialMatch
  | [.token (.identifier _)] => .partialMatch
  | [.token (.identifier _), .token .equal] => .recurseOne .typeParameterValue
  | [.token (.identifier name), .token .equal, .node node] =>
      matchNode (node.toTypeParameterValue.map fun value =>
        .typeParameterPair (name, value))
  | _ => .unknown

def typeParametersRule : Arguments → Overload
  | [] => .partialMatch
  | [.token .angleBracketOpen] =>
      .recurseMany .typeParameter (some (· = .comma))
  | [.token .angleBracketOpen, _] => .partialMatch
  | [.token .angleBracketOpen, .nodes nodes, .token .angleBracketClose] =>
      matchNode ((commonNodes ParseNode.typeParameterPair? nodes).map
        fun pairs => .typeParameterMap (Assoc.ofPairs pairs))
  | _ => .unknown

def typeRule : Arguments → Overload
  | [] => .partialMatch
  | [.token (.identifier _)] => .recurseMaybe .typeParameters
  | [.token (.identifier name), .nothing] =>
      .done (some (.type (.mk (.mk name none) [])))
  | [.token (.identifier name), .node (.typeParameterMap parameters)] =>
      .done (some (.type (.mk (.mk name none) parameters)))
  | _ => .unknown

def messageDataPairRule : Arguments → Overload
  | [] => .partialMatch
  | [.token (.identifier _)] => .partialMatch
  | [.token (.identifier _), .token .keyValueSeparator] => .recurseOne .type
  | [.token (.identifier _), .token .keyValueSeparator, .node (.type _)] =>
      .partialMatch
  | [.token (.identifier name), .token .keyValueSeparator, .node (.type value),
      .token .statementEnd] => .done (some (.messageDataPair (name, value)))
  | _ => .unknown

def messageDataRule : Arguments → Overload
  | [] => .partialMatch
  | [.token (.identifier name)] => .conditionalPartialMatch (name = "data")
  | [.token (.identifier _), .token .keyValueSeparator] => .partialMatch
  | [.token (.identifier _), .token .keyValueSeparator,
      .token .curlyBraceOpen] => .recurseMany .messageDataPair none
  | [.token (.identifier _), .token .keyValueSeparator, .token .curlyBraceOpen,
      .nodes nodes] =>
      partialMatchIf (commonNodes ParseNode.messageDataPair? nodes).isSome
  | [.token (.identifier _), .token .keyValueSeparator, .token .curlyBraceOpen,
      .nodes nodes, .token .curlyBraceClose] =>
      matchNode ((commonNodes ParseNode.messageDataPair? nodes).map
        fun fields => .messageData (Assoc.ofPairs fields))
  | _ => .unknown

def tokenPartRule : Arguments → Overload
  | [] => .recurseAny [.stringLiteral, .identifierReference]
  | [.node node] => matchNode (node.toTokenPart.map .tokenPart)
  | _ => .unknown

def escapeReplacementRule : Arguments → Overload
  | [] => .partialMatch
  | [.token (.identifier name)] => .conditionalPartialMatch (name = "replace")
  | [.token (.identifier _), .token .angleBracketOpen] => .partialMatch
  | [.token (.identifier _), .token .angleBracketOpen, .token (.string _)] =>
      .partialMatch
  | [.token (.identifier _), .token .angleBracketOpen, .token (.string _),
      .token .comma] => .partialMatch
  | [.token (.identifier _), .token .angleBracketOpen, .token (.string _),
      .token .comma, .token (.string _)] => .partialMatch
  | [.token (.identifier _), .token .angleBracketOpen,
      .token (.string character), .token .comma, .token (.string sequence),
      .token .angleBracketClose] =>
      .done (some (.escapeReplacement ⟨character, sequence⟩))
  | _ => .unknown

def tokenSequenceOptionValueRule : Arguments → Overload
  | [] => .recurseAny [.stringLiteral, .escapeReplacement]
  | [.node (.stringLiteral value)] =>
      .done (some (.tokenSequenceOptionValue (.string value)))
  | [.node (.escapeReplacement value)] =>
      .done (some (.tokenSequenceOptionValue (.escapeReplacement value)))
  | _ => .unknown

def tokenSequenceOptionRule : Arguments → Overload
  | [] => .partialMatch
  | [.token (.identifier _)] => .partialMatch
  | [.token (.identifier _), .token .equal] =>
      .recurseOne .tokenSequenceOptionValue
  | [.token (.identifier name), .token .equal,
      .node (.tokenSequenceOptionValue value)] =>
      .done (some (.tokenSequenceOptionPair (name, value)))
  | [.token .keywordTerminator] => .partialMatch
  | [.token .keywordTerminator, .token .equal] =>
      .recurseOne .tokenSequenceOptionValue
  | [.token .keywordTerminator, .token .equal,
      .node (.tokenSequenceOptionValue value)] =>
      .done (some (.tokenSequenceOptionPair ("terminator", value)))
  | _ => .unknown

def tokenSequenceOptionsRule : Arguments → Overload
  | [] => .partialMatch
  | [.token .angleBracketOpen] =>
      .recurseMany .tokenSequenceOption (some (· = .comma))
  | [.token .angleBracketOpen, _] => .partialMatch
  | [.token .angleBracketOpen, .nodes nodes, .token .angleBracketClose] =>
      matchNode ((commonNodes ParseNode.tokenSequenceOptionPair? nodes).map
        fun pairs => .tokenSequenceOptionsMap (Assoc.ofPairs pairs))
  | _ => .unknown

/-- Without options the sequence has no terminator and no escape of its own.
-/
def tokenSequenceRule : Arguments → Overload
  | [] => .partialMatch
  | [.token .keywordTokens] => .recurseMaybe .tokenSequenceOptions
  | [.token .keywordTokens, .nothing] => .partialMatch
  | [.token .keywordTokens, .nothing, .token .curlyBraceOpen] =>
      .recurseMany .tokenPart none
  | [.token .keywordTokens, .nothing, .token .curlyBraceOpen, .nodes nodes] =>
      partialMatchIf (commonNodes ParseNode.tokenPart? nodes).isSome
  | [.token .keywordTokens, .nothing, .token .curlyBraceOpen, .nodes nodes,
      .token .curlyBraceClose] =>
      matchNode ((commonNodes ParseNode.tokenPart? nodes).map fun parts =>
        .tokenSequence { tokens := parts })
  | [.token .keywordTokens, .node (.tokenSequenceOptionsMap _)] =>
      .partialMatch
  | [.token .keywordTokens, .node (.tokenSequenceOptionsMap _),
      .token .curlyBraceOpen] => .recurseMany .tokenPart none
  | [.token .keywordTokens, .node (.tokenSequenceOptionsMap _),
      .token .curlyBraceOpen, .nodes nodes] =>
      partialMatchIf (commonNodes ParseNode.tokenPart? nodes).isSome
  | [.token .keywordTokens, .node (.tokenSequenceOptionsMap options),
      .token .curlyBraceOpen, .nodes nodes, .token .curlyBraceClose] =>
      matchNode ((commonNodes ParseNode.tokenPart? nodes).map fun parts =>
        .tokenSequence ⟨parts, options.terminator, options.escape⟩)
  | _ => .unknown

def terminatorRule : Arguments → Overload
  | [] => .partialMatch
  | [.token .keywordTerminator] => .partialMatch
  | [.token .keywordTerminator, .token .curlyBraceOpen] =>
      .recurseOne .stringLiteral
  | [.token .keywordTerminator, .token .curlyBraceOpen,
      .node (.stringLiteral _)] => .partialMatch
  | [.token .keywordTerminator, .token .curlyBraceOpen,
      .node (.stringLiteral value), .token .curlyBraceClose] =>
      .done (some (.terminator value))
  | _ => .unknown

/-- The overloads with options take a pointer to a map that may change, which
the pointer to const of a node does not convert to. -/
def messageForLoopRule : Arguments → Overload
  | [] => .partialMatch
  | [.token .keywordFor] => .recurseMaybe .tokenSequenceOptions
  | [.token .keywordFor, .nothing] => .recurseOne .identifierReference
  | [.token .keywordFor, .nothing, .node (.identifierReference _)] =>
      .partialMatch
  | [.token .keywordFor, .nothing, .node (.identifierReference _),
      .token .keywordIn] => .recurseOne .identifierReference
  | [.token .keywordFor, .nothing, .node (.identifierReference _),
      .token .keywordIn, .node (.identifierReference _)] => .partialMatch
  | [.token .keywordFor, .nothing, .node (.identifierReference _),
      .token .keywordIn, .node (.identifierReference _),
      .token .curlyBraceOpen] => .recurseOne .messageSequence
  | [.token .keywordFor, .nothing, .node (.identifierReference _),
      .token .keywordIn, .node (.identifierReference _),
      .token .curlyBraceOpen, .node (.messageSequence _)] => .partialMatch
  | [.token .keywordFor, .nothing, .node (.identifierReference identifier1),
      .token .keywordIn, .node (.identifierReference identifier2),
      .token .curlyBraceOpen, .node (.messageSequence sequence),
      .token .curlyBraceClose] =>
      .done (some (.messageForLoop
        (.messageForLoop identifier1 identifier2 sequence none)))
  | _ => .unknown

def messagePartRule : Arguments → Overload
  | [] => .recurseAny [.tokenSequence, .terminator, .messageForLoop]
  | [.node node] => matchNode (node.toMessagePart.map .messagePart)
  | _ => .unknown

def messageSequenceRule : Arguments → Overload
  | [] => .recurseMany .messagePart none
  | [.nodes nodes] =>
      matchNode ((commonNodes ParseNode.messagePart? nodes).map
        .messageSequence)
  | _ => .unknown

def messagePartsRule : Arguments → Overload
  | [] => .partialMatch
  | [.token .keywordParts] => .partialMatch
  | [.token .keywordParts, .token .curlyBraceOpen] =>
      .recurseOne .messageSequence
  | [.token .keywordParts, .token .curlyBraceOpen,
      .node (.messageSequence _)] => .partialMatch
  | [.token .keywordParts, .token .curlyBraceOpen,
      .node (.messageSequence parts), .token .curlyBraceClose] =>
      .done (some (.messageSequence parts))
  | _ => .unknown

/-- Both `match` overloads fail unless the three attributes are there. -/
def messageRule : Arguments → Overload
  | [] => .partialMatch
  | [.token .keywordMessage] => .recurseOne .stringLiteral
  | [.token .keywordMessage, .node (.stringLiteral _)] => .partialMatch
  | [.token .keywordMessage, .node (.stringLiteral _),
      .token .curlyBraceOpen] => .recurseMany .messageDataPair none
  | [.token .keywordMessage, .node (.stringLiteral _), .token .curlyBraceOpen,
      .nodes nodes] =>
      if (commonNodes ParseNode.messageDataPair? nodes).isSome then
        .recurseMaybe .messageData
      else .unknown
  | [.token .keywordMessage, .node (.stringLiteral _), .token .curlyBraceOpen,
      .nodes nodes, .nothing] =>
      partialMatchIf (commonNodes ParseNode.messageDataPair? nodes).isSome
  | [.token .keywordMessage, .node (.stringLiteral name),
      .token .curlyBraceOpen, .nodes nodes, .nothing,
      .token .curlyBraceClose] =>
      match commonNodes ParseNode.messageDataPair? nodes with
      | some attributes =>
          .done ((Parse.ofAttributes name attributes [] []).map .message)
      | none => .unknown
  | [.token .keywordMessage, .node (.stringLiteral _), .token .curlyBraceOpen,
      .nodes nodes, .node (.messageData _)] =>
      if (commonNodes ParseNode.messageDataPair? nodes).isSome then
        .recurseOne .messageParts
      else .unknown
  | [.token .keywordMessage, .node (.stringLiteral _), .token .curlyBraceOpen,
      .nodes nodes, .node (.messageData _), .node (.messageSequence _)] =>
      partialMatchIf (commonNodes ParseNode.messageDataPair? nodes).isSome
  | [.token .keywordMessage, .node (.stringLiteral name),
      .token .curlyBraceOpen, .nodes nodes, .node (.messageData data),
      .node (.messageSequence parts), .token .curlyBraceClose] =>
      match commonNodes ParseNode.messageDataPair? nodes with
      | some attributes =>
          .done ((Parse.ofAttributes name attributes data parts).map .message)
      | none => .unknown
  | _ => .unknown

def protocolDescriptionRule : Arguments → Overload
  | [] => .recurseMany .message none
  | [.nodes nodes] =>
      matchNode ((commonNodes ParseNode.message? nodes).map fun messages =>
        .protocolDescription (.ofMessages messages))
  | _ => .unknown

/-- The overloads of each class. -/
def rule : Table GrammarClass Token ParseNode
  | .booleanLiteral => booleanLiteralRule
  | .integerLiteral => integerLiteralRule
  | .stringLiteral => stringLiteralRule
  | .identifierMemberAccess => identifierMemberAccessRule
  | .identifierReference => identifierReferenceRule
  | .typeParameterValue => typeParameterValueRule
  | .typeParameter => typeParameterRule
  | .typeParameters => typeParametersRule
  | .type => typeRule
  | .messageDataPair => messageDataPairRule
  | .messageData => messageDataRule
  | .tokenPart => tokenPartRule
  | .escapeReplacement => escapeReplacementRule
  | .tokenSequenceOptionValue => tokenSequenceOptionValueRule
  | .tokenSequenceOption => tokenSequenceOptionRule
  | .tokenSequenceOptions => tokenSequenceOptionsRule
  | .tokenSequence => tokenSequenceRule
  | .terminator => terminatorRule
  | .messageForLoop => messageForLoopRule
  | .messagePart => messagePartRule
  | .messageSequence => messageSequenceRule
  | .messageParts => messagePartsRule
  | .message => messageRule
  | .protocolDescription => protocolDescriptionRule

/-- A class that begins with another one stands above it. -/
def rank : GrammarClass → Nat
  | .typeParameterValue | .tokenPart | .tokenSequenceOptionValue
  | .messagePart | .protocolDescription => 1
  | .messageSequence => 2
  | _ => 0

/-- No class has an overload that begins with a step for which nothing was
consumed. -/
theorem rule_of_not_consumes (n : GrammarClass)
    {first : Matched Token ParseNode} (h : first.consumes = false)
    (matched : Arguments) : rule n (first :: matched) = .unknown := by
  cases first with
  | token _ | node _ => contradiction
  | nothing | endOfInput => cases n <;> rfl
  | nodes nodes =>
      cases nodes with
      | nil => cases n <;> cases matched <;> rfl
      | cons node nodes => contradiction

/-- Before it has matched anything a class takes a token, or recurses into
classes below it. -/
theorem rule_nil (n : GrammarClass) :
    (∀ node, rule n [] ≠ .done node) ∧
      ∀ item ∈ (rule n []).recurses, rank item < rank n := by
  cases n <;> simp [rule, booleanLiteralRule, integerLiteralRule,
    stringLiteralRule, identifierMemberAccessRule, identifierReferenceRule,
    typeParameterValueRule, typeParameterRule, typeParametersRule, typeRule,
    messageDataPairRule, messageDataRule, tokenPartRule, escapeReplacementRule,
    tokenSequenceOptionValueRule, tokenSequenceOptionRule,
    tokenSequenceOptionsRule, tokenSequenceRule, terminatorRule,
    messageForLoopRule, messagePartRule, messageSequenceRule, messagePartsRule,
    messageRule, protocolDescriptionRule, Rule.recurses, rank]

/-- The longest list of arguments after which a class goes on has seven. -/
theorem length_of_goesOn (n : GrammarClass) (matched : Arguments)
    (h : (rule n matched).goesOn = true) : matched.length < 8 := by
  cases n
  all_goals
    simp only [rule, booleanLiteralRule.eq_def, integerLiteralRule.eq_def,
      stringLiteralRule.eq_def, identifierMemberAccessRule.eq_def,
      identifierReferenceRule.eq_def, typeParameterValueRule.eq_def,
      typeParameterRule.eq_def, typeParametersRule.eq_def, typeRule.eq_def,
      messageDataPairRule.eq_def, messageDataRule.eq_def, tokenPartRule.eq_def,
      escapeReplacementRule.eq_def, tokenSequenceOptionValueRule.eq_def,
      tokenSequenceOptionRule.eq_def, tokenSequenceOptionsRule.eq_def,
      tokenSequenceRule.eq_def, terminatorRule.eq_def,
      messageForLoopRule.eq_def, messagePartRule.eq_def,
      messageSequenceRule.eq_def, messagePartsRule.eq_def, messageRule.eq_def,
      protocolDescriptionRule.eq_def] at h
    split at h <;> simp_all [Rule.goesOn]

/-- The descent through the grammar consumes what it has to. -/
theorem rule_ranked : Ranked rule rank 8 where
  lower n matched item hconsumed hitem := by
    cases matched with
    | nil => exact (rule_nil n).2 item hitem
    | cons first matched =>
        have hfirst := (Bool.or_eq_false_iff.mp hconsumed).1
        rw [rule_of_not_consumes n hfirst matched] at hitem
        contradiction
  consumes n matched node hdone := by
    cases matched with
    | nil => exact absurd hdone ((rule_nil n).1 (some node))
    | cons first matched =>
        by_contra hconsumed
        have hnone := Bool.eq_false_iff.mpr hconsumed
        have hfirst := (Bool.or_eq_false_iff.mp hnone).1
        rw [rule_of_not_consumes n hfirst matched] at hdone
        contradiction
  bounded := length_of_goesOn

end GrammarClass

end NetworkProtocolDsl
