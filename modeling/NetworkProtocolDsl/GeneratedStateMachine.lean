/-
The state machines that the code generator emits.

An emitted machine has a parser for every message its agent reads and a
serializer for every message it writes.  `on_bytes_received` gives the bytes to
the parsers of the current state, one after the other.
-/
import NetworkProtocolDsl.GeneratedNames
import NetworkProtocolDsl.GeneratedSerializer

namespace NetworkProtocolDsl

open TypeMapping

/-- The agent a machine is emitted for. -/
inductive AgentName where
  | client
  | server
deriving DecidableEq, Repr

def AgentName.text : AgentName → String
  | .client => "Client"
  | .server => "Server"

structure MessageInfo where
  name : Octets
  identifier : Octets
  whenState : String
  thenState : String
  agent : AgentName
  data : MessageData

/-- `ReadTransitionInfo`. -/
structure ReadTransitionInfo where
  messageName : Octets
  whenState : String
  thenState : String
  agent : AgentName
  data : MessageData
  actions : List Action

/-- `WriteTransitionInfo`. -/
structure WriteTransitionInfo where
  messageName : Octets
  whenState : String
  thenState : String
  agent : AgentName
  data : MessageData
  actions : List Action

structure ProtocolInfo where
  states : List String := []
  messages : List MessageInfo := []
  readTransitions : List ReadTransitionInfo := []
  writeTransitions : List WriteTransitionInfo := []

namespace ProtocolInfo

/-- Of the transitions with the name of a message the first is kept. -/
def collectMessage (messages : List MessageInfo) (agent : AgentName)
    (whenState : String) (entry : Octets × (Transition × String)) :
    List MessageInfo :=
  if messages.any (·.name = entry.1) then messages
  else
    messages ++ [⟨entry.1, messageNameToIdentifier entry.1, whenState,
      entry.2.2, agent, entry.2.1.data⟩]

def processMessages (messages : List MessageInfo) (name : AgentName)
    (agent : Agent) : List MessageInfo :=
  agent.states.foldl (fun messages entry =>
    entry.2.transitions.foldl
      (fun messages transition =>
        collectMessage messages name entry.1 transition)
      messages) messages

/-- `messages()`. -/
def collectMessages (protocol : Protocol) : List MessageInfo :=
  processMessages (processMessages [] .client protocol.client) .server
    protocol.server

/-- `states()`, in the order of the set. -/
def collectStates (protocol : Protocol) : List String :=
  (Assoc.ofPairs (protocol.stateNames.map (·, ()))).map Prod.fst

/-- Of the transitions of one kind the first with the name of a message is
kept. -/
def collectTransition (info : ProtocolInfo) (agent : AgentName)
    (whenState : String) (entry : Octets × (Transition × String)) :
    ProtocolInfo :=
  match entry with
  | (name, .readTransition data actions, thenState) =>
      if info.readTransitions.any (·.messageName = name) then info
      else
        { info with readTransitions := info.readTransitions ++
            [⟨name, whenState, thenState, agent, data, actions⟩] }
  | (name, .writeTransition data actions, thenState) =>
      if info.writeTransitions.any (·.messageName = name) then info
      else
        { info with writeTransitions := info.writeTransitions ++
            [⟨name, whenState, thenState, agent, data, actions⟩] }

def processAgent (info : ProtocolInfo) (name : AgentName) (agent : Agent) :
    ProtocolInfo :=
  agent.states.foldl (fun info entry =>
    entry.2.transitions.foldl
      (fun info transition => info.collectTransition name entry.1 transition)
      info) info

/-- The transitions, collected after the states and the messages. -/
def collectTransitions (protocol : Protocol) : ProtocolInfo :=
  let info : ProtocolInfo :=
    { states := collectStates protocol, messages := collectMessages protocol }
  (info.processAgent .client protocol.client).processAgent .server
    protocol.server

end ProtocolInfo

/-- A read transition with the code of its parser. -/
structure MessageReader where
  info : ReadTransitionInfo
  stages : List ParseStage
  generated : GenerateParser.messageParser info.actions = some stages

/-- A write transition with the code of its serializer. -/
structure MessageWriter where
  info : WriteTransitionInfo
  stages : List SerializeStage
  generated : GenerateSerializer.messageSerializer info.data info.actions =
    some stages

/-- The code of the machine of one agent: its parsers and serializers, the
state it starts in, and the messages for which it has no send method, by the
state they leave. -/
structure StateMachineCode where
  readers : List MessageReader
  writers : List MessageWriter
  initialState : String := "Open"
  unsent : List (String × Octets) := []

namespace GenerateStateMachine

def reader (info : ReadTransitionInfo) : Option MessageReader :=
  match h : GenerateParser.messageParser info.actions with
  | some stages => some ⟨info, stages, h⟩
  | none => none

def writer (info : WriteTransitionInfo) : Option MessageWriter :=
  match h : GenerateSerializer.messageSerializer info.data info.actions with
  | some stages => some ⟨info, stages, h⟩
  | none => none

/-- `Open`, or the first state of a protocol that has none. -/
def initialState (states : List String) : String :=
  if "Open" ∈ states then "Open" else states.headD ""

/-- The messages whose data is not what a send method of the agent takes. -/
def unsent (info : ProtocolInfo) (agent : AgentName) :
    List (String × Octets) :=
  (info.messages.filter fun message =>
      info.writeTransitions.all fun transition =>
        transition.agent ≠ agent ||
          messageNameToIdentifier transition.messageName ≠ message.identifier).map
    fun message => (message.whenState, message.name)

/-- Both machines are emitted, with the parsers and serializers of both. -/
def generate (info : ProtocolInfo) (agent : AgentName) :
    Option StateMachineCode := do
  let readers ← info.readTransitions.mapM reader
  let writers ← info.writeTransitions.mapM writer
  return {
    readers := readers.filter (·.info.agent = agent)
    writers := writers.filter (·.info.agent = agent)
    initialState := initialState info.states
    unsent := unsent info agent }

end GenerateStateMachine

/-- The data of a message by its name. -/
structure ReceivedMessage where
  name : Octets
  fields : List (String × FieldData)
deriving DecidableEq, Repr

/-- The members of an emitted machine; the parsers by the name of the message,
the pending messages by the state they lead to.  Most protocols have a state
`Open`, in which the machine then starts. -/
structure GeneratedStateMachine where
  currentState : String := "Open"
  hasMessage : Bool := false
  hasError : Bool := false
  messageState : String := ""
  pending : String → Option ReceivedMessage := fun _ => none
  outputBuffer : Octets := []
  parsers : Octets → MessageParser := fun _ => .reset

namespace GeneratedStateMachine

/-- The machine as it is made. -/
def initial (code : StateMachineCode) : GeneratedStateMachine :=
  { currentState := code.initialState }

def isClosed (machine : GeneratedStateMachine) : Bool :=
  machine.currentState = "Closed"

def setParser (machine : GeneratedStateMachine) (name : Octets)
    (parser : MessageParser) : GeneratedStateMachine :=
  { machine with parsers := fun other =>
      if other = name then parser else machine.parsers other }

def resetParsers (machine : GeneratedStateMachine)
    (readers : List MessageReader) : GeneratedStateMachine :=
  { machine with parsers := fun other =>
      if readers.any (·.info.messageName = other) then .reset
      else machine.parsers other }

/-- What follows `Complete`. -/
def acceptMessage (machine : GeneratedStateMachine) (reader : MessageReader)
    (fields : List (String × FieldData)) : GeneratedStateMachine :=
  { machine with
    pending := fun state =>
      if state = reader.info.thenState then
        some ⟨reader.info.messageName, fields⟩
      else machine.pending state
    hasMessage := true
    messageState := reader.info.thenState
    currentState := reader.info.thenState }

end GeneratedStateMachine

namespace StateMachineCode

/-- The transitions of a state, in the order they are tried. -/
def readersAt (code : StateMachineCode) (state : String) :
    List MessageReader :=
  code.readers.filter (·.info.whenState = state)

def writersAt (code : StateMachineCode) (state : String) :
    List MessageWriter :=
  code.writers.filter (·.info.whenState = state)

end StateMachineCode

/-- Where a call of `on_bytes_received` stands: in the call of a parser, with
those that would be tried next, or behind the return, or an exception has left
it. -/
inductive ReceivePoint where
  | trying (reader : MessageReader) (later : List MessageReader)
      (parse : ParseCall)
  | returned (consumed : Nat)
  | thrown (error : ConversionError)

/-- A call of `on_bytes_received`. -/
structure ReceiveCall where
  machine : GeneratedStateMachine
  data : Octets
  readers : List MessageReader
  point : ReceivePoint

namespace ReceiveCall

/-- The end of the function: bytes that brought no parser on are an error. -/
def finish (call : ReceiveCall) (totalConsumed : Nat)
    (anyParserProgressed : Bool) : ReceiveCall :=
  let machine :=
    if call.data ≠ [] ∧ anyParserProgressed = false ∧ totalConsumed = 0 then
      { call.machine with hasError := true }
    else call.machine
  { call with machine := machine, point := .returned totalConsumed }

/-- What is done with the result of a parser. -/
def settle (call : ReceiveCall) (reader : MessageReader)
    (later : List MessageReader) (parse : ParseCall) (status : ParseStatus) :
    ReceiveCall :=
  let name := reader.info.messageName
  let machine := call.machine.setParser name parse.parser
  match status with
  | .complete =>
      match parse.parser.takeData reader.info.data reader.info.actions with
      | .error error =>
          { call with machine := machine, point := .thrown error }
      | .ok fields =>
          { call with machine := (machine.acceptMessage reader
              fields).resetParsers call.readers }.finish parse.totalConsumed
            true
  | .needMoreData =>
      { call with machine := machine.resetParsers later }.finish
        parse.totalConsumed true
  | .error =>
      match later with
      | next :: rest =>
          { call with
            machine := machine.setParser name .reset
            point := .trying next rest
              (.start (machine.parsers next.info.messageName) call.data) }
      | [] =>
          -- a single transition counts what it consumed, the last of several
          -- does not
          { call with machine := machine }.finish
            (if call.readers.length = 1 then parse.totalConsumed else 0) false

/-- One turn of the innermost loop. -/
def step (call : ReceiveCall) : Except Fault ReceiveCall :=
  match call.point with
  | .trying reader later parse =>
      match parse.point with
      | .returned status => .ok (call.settle reader later parse status)
      | _ =>
          (parse.step reader.stages).map fun parse =>
            { call with point := .trying reader later parse }
  | .returned _ | .thrown _ => .ok call

/-- `on_bytes_received(data)`. -/
def start (code : StateMachineCode) (machine : GeneratedStateMachine)
    (data : Octets) : ReceiveCall :=
  let readers := code.readersAt machine.currentState
  if data = [] ∨ machine.isClosed ∨ machine.hasError then
    ⟨machine, data, readers, .returned 0⟩
  else
    match readers with
    | [] => (ReceiveCall.mk machine data [] (.returned 0)).finish 0 false
    | reader :: later =>
        ⟨machine, data, readers, .trying reader later
          (.start (machine.parsers reader.info.messageName) data)⟩

end ReceiveCall

end NetworkProtocolDsl
