/-
The runner that the code generator emits around a state machine.

It gives the received bytes to the machine and then, as long as there is a
message, dispatches it: the handler of the state the message leads to answers,
and the answer is sent.
-/
import NetworkProtocolDsl.GeneratedStateMachine
import NetworkProtocolDsl.Library.Run

namespace NetworkProtocolDsl

open Run

/-- The output type of a state: the data of a message that leaves it.  Those of
the other agent are in the type as well, and no send method takes them. -/
inductive StateOutput (code : StateMachineCode) (state : String) where
  | sent (writer : MessageWriter) (writes : writer ∈ code.writersAt state)
      (fields : MessageFields)
  | unsent (name : Octets) (leaves : (state, name) ∈ code.unsent)
      (fields : MessageFields)

namespace StateMachineCode

/-- The states `dispatch_message` has a case for: targets of a message that is
read, with an output. -/
def dispatchCases (code : StateMachineCode) : List String :=
  (code.readers.map (·.info.thenState)).filter fun state =>
    (code.writersAt state).isEmpty = false

end StateMachineCode

/-- What the program's handler does at a call of the runner, for every state
with a case and for the start.  It is shared by all connections, so it may do
something else at the next call. -/
structure RunnerHandler (code : StateMachineCode) where
  on : (state : String) → state ∈ code.dispatchCases → ReceivedMessage →
    StateOutput code state
  onOpen : code.writersAt "Open" ≠ [] → StateOutput code "Open"

/-- Where a method of the runner stands: in a call of the machine, at the head
of its loop, in a send method, or behind the return. -/
inductive RunnerPoint where
  | receiving (call : ReceiveCall)
  | loopHead (consumed : Nat)
  | sending (consumed : Nat) (writer : MessageWriter) (call : SendCall)
  | returned (consumed : Nat)
  | thrown (error : ConversionError)

/-- A call of a method of the runner. -/
structure RunnerCall where
  machine : GeneratedStateMachine
  point : RunnerPoint

namespace GeneratedStateMachine

/-- `take_…_message` of a state, without the message. -/
def takeMessage (machine : GeneratedStateMachine) (state : String) :
    GeneratedStateMachine :=
  { machine with
    hasMessage := false
    pending := fun other =>
      if other = state then none else machine.pending other }

/-- `bytes_written`. -/
def bytesWritten (machine : GeneratedStateMachine) (count : Nat) :
    GeneratedStateMachine :=
  { machine with outputBuffer := machine.outputBuffer.drop count }

end GeneratedStateMachine

namespace RunnerCall

variable (code : StateMachineCode) (handler : RunnerHandler code)

/-- `dispatch_output`: the send method of the message works on the serializer,
the output buffer and the state of the machine; a message that has none is
dropped. -/
def dispatchOutput (machine : GeneratedStateMachine) (consumed : Nat)
    {state : String} : StateOutput code state → RunnerCall
  | .sent writer _ fields =>
      ⟨machine, .sending consumed writer
        (.start fields machine.outputBuffer machine.currentState)⟩
  | .unsent _ _ _ => ⟨machine, .loopHead consumed⟩

/-- `dispatch_message`: a state without a case does nothing. -/
def dispatchMessage (call : RunnerCall) (consumed : Nat) :
    Except Fault RunnerCall :=
  let state := call.machine.messageState
  if h : state ∈ code.dispatchCases then
    match call.machine.pending state with
    | none => .error .nullPointer
    | some message =>
        .ok (dispatchOutput code (call.machine.takeMessage state) consumed
          (handler.on state h message))
  else .ok call

/-- One turn of the innermost loop. -/
def step (call : RunnerCall) : Except Fault RunnerCall :=
  match call.point with
  | .receiving receive =>
      match receive.point with
      | .returned consumed => .ok ⟨receive.machine, .loopHead consumed⟩
      | .thrown error => .ok ⟨receive.machine, .thrown error⟩
      | .trying .. =>
          receive.step.map fun receive =>
            { call with point := .receiving receive }
  | .loopHead consumed =>
      if call.machine.hasMessage then
        call.dispatchMessage code handler consumed
      else .ok { call with point := .returned consumed }
  | .sending consumed writer send =>
      match send.point with
      | .returned =>
          .ok ⟨{ call.machine with
              currentState := send.currentState
              outputBuffer := send.outputBuffer }, .loopHead consumed⟩
      | _ =>
          (send.step writer.stages writer.info.thenState).map fun send =>
            { call with point := .sending consumed writer send }
  | .returned _ | .thrown _ => .ok call

/-- `on_bytes_received(data)`. -/
def start (machine : GeneratedStateMachine) (data : Octets) : RunnerCall :=
  ⟨machine, .receiving (.start code machine data)⟩

/-- The call returns and leaves the machine so. -/
def ReturnsWith (call : RunnerCall) (machine : GeneratedStateMachine) : Prop :=
  ∃ consumed, Reaches (step code handler) call ⟨machine, .returned consumed⟩

/-- The states of the machine between the calls of the runner's methods,
whatever the handler does at each of them. -/
inductive Reachable : GeneratedStateMachine → Prop where
  | initial : Reachable (.initial code)
  | started {machine machine' : GeneratedStateMachine}
      (handler : RunnerHandler code) (hopen : code.writersAt "Open" ≠ []) :
      Reachable machine →
      ReturnsWith code handler
        (dispatchOutput code machine 0 (handler.onOpen hopen)) machine' →
      Reachable machine'
  | bytesReceived {machine machine' : GeneratedStateMachine}
      (handler : RunnerHandler code) (data : Octets) :
      Reachable machine →
      ReturnsWith code handler (start code machine data) machine' →
      Reachable machine'
  | bytesWritten {machine : GeneratedStateMachine} (count : Nat) :
      Reachable machine → Reachable (machine.bytesWritten count)

end RunnerCall

end NetworkProtocolDsl
