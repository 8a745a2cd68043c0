/-
Two generated programs that talk over a connection.

Each program is its state machine operation, which waits for one callable after
the other.  A callable is evaluated on any part of the bytes in flight that has
arrived, a callback is answered by the application of the program, and what is
written is in flight to the other program.  Nothing is said about when.
-/
import NetworkProtocolDsl.GeneratedPeers
import NetworkProtocolDsl.PlainTransfer
import NetworkProtocolDsl.ProtocolGraph

namespace NetworkProtocolDsl

open Run RunnerState Generate OpTreeNode Analyze TransitionChoice
open TransitionLookahead
open NetworkProtocolDsl.Action
open Session (Side Dialogue Config)

/-- The program of each side; `log` has the name and the dictionary of every
transition it has completed. -/
structure Exchange where
  context : Side → ControlFlowOperationContext
  pad : Side → LexicalPad
  errno : Side → Errno
  channel : Side → Octets
  log : Side → List (Octets × Bindings)

/-- What the application of a side may answer to a callback: the key, the
dictionary it is given, and the answer. -/
abbrev Answers := Side → String → Value → Value → Prop

namespace Exchange

/-- The awaited callable returns a value, with what it leaves: the pad, `errno`,
the bytes in flight to the side, and the bytes it has written. -/
inductive Returns (application : Answers) (x : Exchange) (side : Side) :
    Value → LexicalPad → Errno → Octets → Octets → Prop where
  | evaluates {callable : Callable} {arrived later : Octets}
      {queue : List Octets} {value : Value} {w' : World} :
      (x.context side).callable = some (.callable callable) →
      x.channel side = arrived ++ later → Holds queue arrived →
      callable.Evaluates false (x.context side).accumulator
        ⟨x.pad side, x.errno side, queue, []⟩ value w' →
      Returns application x side value w'.pad w'.errno
        (w'.input.flatten ++ later) w'.output.flatten
  | answers {callable : Callable} {key : String} {dictionary value : Value} :
      (x.context side).callable = some (.callable callable) →
      callable.tree = stateCallback key →
      (x.context side).accumulator = [dictionary] →
      application side key dictionary value →
      Returns application x side value (x.pad side) (x.errno side)
        (x.channel side) []

/-- What the operation makes of the value. -/
def next (states : StateMap) (x : Exchange) (side : Side) (value : Value) :
    ControlFlowResult :=
  StateMachineOperation.apply states
    { x.context side with callableInvoked := true, value := some value }

/-- A transition that returns its dictionary is complete. -/
def completed (ctx : ControlFlowOperationContext) (value : Value) :
    List (Octets × Bindings) :=
  match ctx.additionalInfo, value with
  | some ⟨.transition, _, some (name, _), _⟩,
      .dynamicList [.dictionary members] => [(name, members)]
  | _, _ => []

def returned (x : Exchange) (side : Side) (value : Value)
    (ctx : ControlFlowOperationContext) (pad : LexicalPad) (errno : Errno)
    (channel emitted : Octets) : Exchange where
  context := Function.update x.context side ctx
  pad := Function.update x.pad side pad
  errno := Function.update x.errno side errno
  channel := Function.update (Function.update x.channel side channel)
    side.other (x.channel side.other ++ emitted)
  log := Function.update x.log side
    (x.log side ++ completed (x.context side) value)

/-- The callable of one side returns, and the machine goes on to the next one.
-/
inductive Step (machines : Side → StateMap) (application : Answers) :
    Exchange → Exchange → Prop where
  | returns {x : Exchange} {side : Side} {value : Value} {pad : LexicalPad}
      {errno : Errno} {channel emitted : Octets}
      {ctx : ControlFlowOperationContext} :
      x.Returns application side value pad errno channel emitted →
      x.next (machines side) side value =
        .ok (.blocked .waitingForCallableInvocation, ctx) →
      Step machines application x
        (x.returned side value ctx pad errno channel emitted)

/-- Both machines wait for the callback of their first state. -/
structure Starts (machines : Side → StateMap) (x : Exchange) : Prop where
  context : ∀ side, StateMachineOperation.apply (machines side) {} =
    .ok (.blocked .waitingForCallableInvocation, x.context side)
  channel : ∀ side, x.channel side = []
  log : ∀ side, x.log side = []

/-- The exchanges that steps lead to from a start. -/
def Reachable (machines : Side → StateMap) (application : Answers)
    (x : Exchange) : Prop :=
  ∃ start, Starts machines start ∧
    Relation.ReflTransGen (Step machines application) start x

section Fields

variable (x : Exchange) (side : Side) (value : Value)
  (ctx : ControlFlowOperationContext) (pad : LexicalPad) (errno : Errno)
  (channel emitted : Octets)

@[simp] theorem returned_context_self :
    (x.returned side value ctx pad errno channel emitted).context side =
      ctx :=
  Function.update_self ..

@[simp] theorem returned_context_other :
    (x.returned side value ctx pad errno channel emitted).context
      side.other = x.context side.other :=
  Function.update_of_ne side.other_ne ..

@[simp] theorem returned_channel_self :
    (x.returned side value ctx pad errno channel emitted).channel side =
      channel :=
  (Function.update_of_ne side.ne_other ..).trans (Function.update_self ..)

@[simp] theorem returned_channel_other :
    (x.returned side value ctx pad errno channel emitted).channel
      side.other = x.channel side.other ++ emitted :=
  Function.update_self ..

@[simp] theorem returned_log_self :
    (x.returned side value ctx pad errno channel emitted).log side =
      x.log side ++ completed (x.context side) value :=
  Function.update_self ..

@[simp] theorem returned_log_other :
    (x.returned side value ctx pad errno channel emitted).log side.other =
      x.log side.other :=
  Function.update_of_ne side.other_ne ..

end Fields

end Exchange

end NetworkProtocolDsl
