/-
The names in the emitted code.

A message is named after the words of its name, a state keeps the characters an
identifier may have.  The members of a message's parser are named after the
first names of what they keep; of a field of a loop variable that is the
variable.
-/
import Mathlib.Data.List.Dedup
import NetworkProtocolDsl.Analyze
import NetworkProtocolDsl.InputOutputOperation

namespace NetworkProtocolDsl

namespace TypeMapping

def isLetterByte (b : UInt8) : Bool :=
  65 ≤ b && b ≤ 90 || 97 ≤ b && b ≤ 122

/-- `std::isalnum` in the C locale. -/
def isAlnum (b : UInt8) : Bool :=
  isLetterByte b || isDigit b

/-- `std::toupper`. -/
def toUpper (b : UInt8) : UInt8 :=
  if 97 ≤ b ∧ b ≤ 122 then b - 32 else b

/-- A blank, a hyphen or an underscore. -/
def isSeparator (b : UInt8) : Bool :=
  b = 32 || b = 45 || b = 95

/-- The loop over the name of a message. -/
def appendCharacters : Bool → Octets → Octets
  | _, [] => []
  | capitalizeNext, c :: rest =>
      if isSeparator c then appendCharacters true rest
      else if isAlnum c then
        (if capitalizeNext then toUpper c else c) ::
          appendCharacters false rest
      else appendCharacters capitalizeNext rest

def messageNameToIdentifier (messageName : Octets) : Octets :=
  appendCharacters true messageName

/-- The characters that are kept of the name of a state. -/
def identifierCharacters (name : String) : List Char :=
  name.toList.filter fun c => c.isAlphanum || c = '_'

def startsWithDigit (characters : List Char) : Bool :=
  characters.head?.any Char.isDigit

def stateNameToIdentifier (stateName : String) : String :=
  let characters := identifierCharacters stateName
  if startsWithDigit characters then .ofList ('_' :: characters)
  else .ofList characters

end TypeMapping

namespace GenerateParser

/-- The members for the fields of an element of a loop. -/
def elementMemberNames (collection : String) : List Action → List String
  | [] => []
  | .readOctetsUntilTerminator _ identifier _ :: actions =>
      ("loop_" ++ collection ++ "_" ++ identifier.name ++ "_buffer_") ::
        elementMemberNames collection actions
  | _ :: actions => elementMemberNames collection actions

/-- The members that are declared for the actions of a message. -/
def memberNames : List Action → List String
  | [] => []
  | .readOctetsUntilTerminator _ identifier _ :: actions =>
      (identifier.name ++ "_buffer_") :: memberNames actions
  | .loop _ collection _ elements :: actions =>
      (collection.name ++ "_buffer_") ::
        ("loop_" ++ collection.name ++ "_stage_") ::
          (elementMemberNames collection.name elements ++ memberNames actions)
  | _ :: actions => memberNames actions

end GenerateParser

namespace Agent

def messageNames (agent : Agent) : List Octets :=
  agent.states.flatMap fun entry => entry.2.transitions.map Prod.fst

def stateNames (agent : Agent) : List String :=
  agent.states.flatMap fun entry =>
    entry.1 :: entry.2.transitions.map fun transition => transition.2.2

end Agent

namespace Protocol

/-- The names of `messages()`. -/
def messageNames (protocol : Protocol) : List Octets :=
  (protocol.client.messageNames ++ protocol.server.messageNames).dedup

/-- The names of `states()`. -/
def stateNames (protocol : Protocol) : List String :=
  (protocol.client.stateNames ++ protocol.server.stateNames).dedup

end Protocol

end NetworkProtocolDsl
