/-
From the parts of a message to the actions that read or write it.

A read needs to know where every field ends, so an identifier is only accepted
before a literal, which becomes its terminator; a write takes the tokens one by
one.
-/
import NetworkProtocolDsl.ProtocolDescription

namespace NetworkProtocolDsl

inductive Action where
  | readStaticOctets (octets : Octets)
  | readOctetsUntilTerminator (terminator : Octets)
      (identifier : IdentifierReference) (escape : Option EscapeInfo)
  | writeFromIdentifier (identifier : IdentifierReference)
      (escape : Option EscapeInfo)
  | writeStaticOctets (octets : Octets)
  | loop (loopVariable collection : IdentifierReference)
      (terminator : Octets) (actions : List Action)

/-- Both versions of `apply_escape_to_actions`: the escape option reaches the
actions that read or write a field. -/
def Action.applyEscape (escape : Option EscapeInfo) : Action → Action
  | .readOctetsUntilTerminator terminator identifier escape' =>
      .readOctetsUntilTerminator terminator identifier (escape.or escape')
  | .writeFromIdentifier identifier escape' =>
      .writeFromIdentifier identifier (escape.or escape')
  | action => action

/-- The literal an embedded terminator stands for. -/
def TokenSequence.embeddedTerminator (sequence : TokenSequence) :
    List TokenPart :=
  match sequence.terminator with
  | some terminator => [.stringLiteral terminator]
  | none => []

namespace PartsToReadActions

/-- `IndividualTokenAction`, as often as it matches. -/
def individualTokenActions : List TokenPart → Option (List Action)
  | [] => some []
  | .stringLiteral value :: rest =>
      (individualTokenActions rest).map (.readStaticOctets value :: ·)
  | .identifierReference identifier :: .stringLiteral value :: rest =>
      (individualTokenActions rest).map
        (.readOctetsUntilTerminator value identifier none :: ·)
  | .identifierReference _ :: _ => none

/-- `TokenSequence::parse` with the escape option of the sequence: there has to
be a token, and all of them have to match. -/
def tokenSequence (tokens : List TokenPart) (escape : Option EscapeInfo) :
    Option (List Action) :=
  if tokens.isEmpty then none
  else (individualTokenActions tokens).map (·.map (Action.applyEscape escape))

/-- A token sequence is followed by its terminator or ends the message; both an
embedded and an explicit terminator are an error. -/
def partsToReadActions : MessageSequence → Option (List Action)
  | [] => some []
  | [.tokenSequence sequence] =>
      tokenSequence (sequence.tokens ++ sequence.embeddedTerminator)
        sequence.escape
  | .tokenSequence sequence :: .terminator value :: rest =>
      match sequence.terminator with
      | some _ => none
      | none => do
          let actions ← tokenSequence
            (sequence.tokens ++ [.stringLiteral value]) sequence.escape
          let others ← partsToReadActions rest
          return actions ++ others
  | .messageForLoop loopVariable collection block _ :: .terminator value ::
      rest => do
        let actions ← partsToReadActions block
        let others ← partsToReadActions rest
        return .loop loopVariable collection value actions :: others
  | _ => none

end PartsToReadActions

namespace PartsToWriteActions

def individualTokenAction : TokenPart → Action
  | .stringLiteral value => .writeStaticOctets value
  | .identifierReference identifier => .writeFromIdentifier identifier none

def tokenSequence (tokens : List TokenPart) (escape : Option EscapeInfo) :
    Option (List Action) :=
  if tokens.isEmpty then none
  else some (tokens.map fun token =>
    (individualTokenAction token).applyEscape escape)

def partsToWriteActions : MessageSequence → Option (List Action)
  | [] => some []
  | .tokenSequence sequence :: rest => do
      let actions ← tokenSequence
        (sequence.tokens ++ sequence.embeddedTerminator) sequence.escape
      let others ← partsToWriteActions rest
      return actions ++ others
  | .terminator value :: rest => do
      let others ← partsToWriteActions rest
      return .writeStaticOctets value :: others
  | .messageForLoop loopVariable collection block _ :: .terminator value ::
      rest => do
        let actions ← partsToWriteActions block
        let others ← partsToWriteActions rest
        return .loop loopVariable collection value actions :: others
  | .messageForLoop .. :: _ => none

end PartsToWriteActions

end NetworkProtocolDsl
