/-
The states and transitions of the two agents of a protocol.

An agent writes the messages it is named as the agent of and reads all others.
The maps list their entries in the order of insertion; the program's iterate in
an unspecified order.
-/
import NetworkProtocolDsl.Library.Assoc
import NetworkProtocolDsl.PartsToActions

namespace NetworkProtocolDsl

open PartsToReadActions PartsToWriteActions

inductive Transition where
  | readTransition (data : MessageData) (actions : List Action)
  | writeTransition (data : MessageData) (actions : List Action)

namespace Transition

def data : Transition → MessageData
  | .readTransition data _ => data
  | .writeTransition data _ => data

def actions : Transition → List Action
  | .readTransition _ actions => actions
  | .writeTransition _ actions => actions

end Transition

/-- The transitions by the name of their message, with the target state. -/
structure State where
  transitions : List (Octets × (Transition × String)) := []

structure Agent where
  states : List (String × State)

structure Protocol where
  client : Agent
  server : Agent

namespace Analyze

def analyzeWriteMessage (message : Message) : Option Transition :=
  (partsToWriteActions message.parts).map (.writeTransition message.data)

def analyzeReadMessage (message : Message) : Option Transition :=
  (partsToReadActions message.parts).map (.readTransition message.data)

def analyzeMessage (agentName : String) (message : Message) :
    Option Transition :=
  if message.agent.name = agentName then analyzeWriteMessage message
  else analyzeReadMessage message

def analyzeTransitions (protocol : ProtocolDescription) (agentName : String) :
    Option (List (Octets × Transition)) :=
  protocol.messages.mapM fun (name, message) =>
    (analyzeMessage agentName message).map (name, ·)

/-- Add the transition of one message to the states, creating both states it
names. -/
def addMessage (states : List (String × State)) (name : Octets)
    (message : Message) (transition : Transition) : List (String × State) :=
  let whenState := message.whenState.name
  let thenState := message.thenState.name
  let states := Assoc.insert thenState {} (Assoc.insert whenState {} states)
  let state := (states.lookup whenState).getD {}
  Assoc.assign whenState
    { transitions :=
        Assoc.overwrite name (transition, thenState) state.transitions }
    states

/-- The second loop over the messages; the transitions are those of the first,
in the same order. -/
def assemble : List (Octets × Message) → List (Octets × Transition) →
    List (String × State) → List (String × State)
  | (name, message) :: messages, (_, transition) :: transitions, states =>
      assemble messages transitions (addMessage states name message transition)
  | _, _, states => states

def analyzeAgent (protocol : ProtocolDescription) (agentName : String) :
    Option Agent := do
  let transitions ← analyzeTransitions protocol agentName
  return ⟨assemble protocol.messages transitions []⟩

def analyze (protocol : ProtocolDescription) : Option Protocol := do
  let client ← analyzeAgent protocol "Client"
  let server ← analyzeAgent protocol "Server"
  return ⟨client, server⟩

end Analyze

end NetworkProtocolDsl
