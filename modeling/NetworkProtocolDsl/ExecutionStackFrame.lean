/-
Execution frames: one operation, the values its children produced so far and
the context of the operation.
-/
import NetworkProtocolDsl.ControlFlowOperation
import NetworkProtocolDsl.InputOutputOperation

namespace NetworkProtocolDsl

structure CallbackOperationContext where
  value : Option Value := none
  callbackCalled : Bool := false

inductive OperationContext where
  | none
  | callback (ctx : CallbackOperationContext)
  | controlFlow (ctx : ControlFlowOperationContext)
  | inputOutput (ctx : InputOutputOperationContext)

namespace UnaryCallback

def apply (ctx : CallbackOperationContext) : OperationResult :=
  if ctx.callbackCalled then
    match ctx.value with
    | some value => .value value
    | none => .blocked .waitingCallbackData
  else .blocked .waitingForCallback

end UnaryCallback

namespace LexicalPadOperation

def arity : LexicalPadOperation → Nat
  | .lexicalPadGet _ | .lexicalPadAsDict => 0
  | _ => 1

def apply (operation : LexicalPadOperation) (args : List Value)
    (pad : LexicalPad) : Except Fault (Value × LexicalPad) :=
  match operation, args with
  | .lexicalPadGet name, _ => .ok (pad.get name, pad)
  | .lexicalPadInitialize name, value :: _ =>
      .ok (value, pad.initializeLocal name value)
  | .lexicalPadInitializeGlobal name, value :: _ =>
      .ok (value, pad.initializeGlobal name value)
  | .lexicalPadSet name, value :: _ => .ok (pad.set name value)
  | .lexicalPadAsDict, _ => .ok (pad.asDict, pad)
  | _, _ => .error .assertion

end LexicalPadOperation

namespace Operation

def initializeContext : Operation → OperationContext
  | .controlFlow _ => .controlFlow {}
  | .unaryCallback _ => .callback {}
  | .inputOutput _ => .inputOutput {}
  | _ => .none

/-- The size of the `Arguments` tuple; operations with dynamic input have
none. -/
def arity : Operation → Option Nat
  | .interpreted operation => some operation.arity
  | .controlFlow operation => some operation.arity
  | .unaryCallback _ => some 1
  | .inputOutput operation => some operation.arity
  | .lexicalPad operation => some operation.arity
  | .dynamicInput _ => none

end Operation

structure ExecutionStackFrame where
  optreenode : OpTreeNode
  accumulator : List Value
  ctx : OperationContext

/-- What executing a frame leaves. -/
structure Execution where
  result : OperationResult
  ctx : OperationContext
  pad : LexicalPad
  errno : Errno

namespace ExecutionStackFrame

/-- A frame for an operation none of whose children ran yet. -/
def new (node : OpTreeNode) : ExecutionStackFrame :=
  ⟨node, [], node.operation.initializeContext⟩

/-- An operation with dynamic input is ready as soon as its last value stops
it; every other one when its arguments are complete. -/
def hasArgumentsReady (frame : ExecutionStackFrame) : Bool :=
  match frame.optreenode.operation.arity with
  | some n => n ≤ frame.accumulator.length
  | none =>
      (frame.accumulator.getLast?.any Value.stops) ||
        frame.optreenode.children.length ≤ frame.accumulator.length

def execute (frame : ExecutionStackFrame) (pad : LexicalPad) (errno : Errno) :
    Except Fault Execution :=
  match frame.optreenode.operation, frame.ctx with
  | .interpreted operation, ctx =>
      (operation.apply frame.accumulator).map fun value =>
        ⟨.value value, ctx, pad, errno⟩
  | .controlFlow operation, .controlFlow ctx =>
      (operation.apply ctx frame.accumulator).map fun (result, ctx) =>
        ⟨result, .controlFlow ctx, pad, errno⟩
  | .unaryCallback _, .callback ctx =>
      .ok ⟨UnaryCallback.apply ctx, .callback ctx, pad, errno⟩
  | .inputOutput operation, .inputOutput ctx =>
      (operation.apply ctx frame.accumulator errno).map fun evaluation =>
        ⟨evaluation.result, .inputOutput evaluation.ctx, pad,
          evaluation.errno⟩
  | .lexicalPad operation, ctx =>
      (operation.apply frame.accumulator pad).map fun (value, pad) =>
        ⟨.value value, ctx, pad, errno⟩
  | .dynamicInput operation, ctx =>
      .ok ⟨.value (operation.apply frame.accumulator), ctx, pad, errno⟩
  | _, _ => .error .badVariantAccess

def pushBack (frame : ExecutionStackFrame) (value : Value) :
    ExecutionStackFrame :=
  { frame with accumulator := frame.accumulator ++ [value] }

/-- The child whose value the frame waits for. -/
def nextOp (frame : ExecutionStackFrame) : Except Fault OpTreeNode :=
  match frame.optreenode.children[frame.accumulator.length]? with
  | some child => .ok child
  | none => .error .assertion

end ExecutionStackFrame

end NetworkProtocolDsl
