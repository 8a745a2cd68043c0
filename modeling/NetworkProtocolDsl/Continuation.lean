/-
Continuations: a stack of frames over one lexical pad.
-/
import NetworkProtocolDsl.ExecutionStackFrame

namespace NetworkProtocolDsl

inductive ContinuationState where
  | missingArguments
  | ready
  | blocked
  | exited
deriving DecidableEq, Repr

/-- The frames, topmost first.  All frames of a continuation run over the same
pad, and `inheritsLexicalPad` records below which pad that one hangs. -/
structure Continuation where
  stack : List ExecutionStackFrame
  pad : LexicalPad
  result : OperationResult
  inheritsLexicalPad : Bool

/-- The frames that preparing a fresh frame of `node` leads to, topmost first:
the loop pushes the first child until a frame has all its arguments. -/
def OpTreeNode.descend : OpTreeNode → Except Fault (List ExecutionStackFrame)
  | .mk operation [] =>
      let frame := ExecutionStackFrame.new (.mk operation [])
      if frame.hasArgumentsReady then .ok [frame] else .error .assertion
  | .mk operation (child :: children) =>
      let frame := ExecutionStackFrame.new (.mk operation (child :: children))
      if frame.hasArgumentsReady then .ok [frame]
      else
        match child.descend with
        | .ok frames => .ok (frames ++ [frame])
        | .error fault => .error fault

namespace Continuation

def new (optree : OpTreeNode) (pad : LexicalPad) (inherits : Bool) :
    Continuation :=
  ⟨[ExecutionStackFrame.new optree], pad, .value (.bool false), inherits⟩

def prepare (c : Continuation) :
    Except Fault (ContinuationState × Continuation) :=
  match c.stack with
  | [] => .ok (.exited, c)
  | frame :: frames =>
      if frame.hasArgumentsReady then .ok (.ready, c)
      else
        match frame.nextOp with
        | .error fault => .error fault
        | .ok child =>
            match child.descend with
            | .error fault => .error fault
            | .ok pushed =>
                .ok (.ready, { c with stack := pushed ++ frame :: frames })

/-- Execute the topmost frame of a prepared stack. -/
def executeTop (c : Continuation) (errno : Errno) :
    Except Fault (ContinuationState × Continuation × Errno) :=
  match c.stack with
  | [] => .ok (.exited, c, errno)
  | frame :: frames =>
      match frame.execute c.pad errno with
      | .error fault => .error fault
      | .ok ⟨.blocked reason, ctx, pad, errno⟩ =>
          .ok (.blocked,
            { c with stack := { frame with ctx := ctx } :: frames, pad := pad
                     result := .blocked reason }, errno)
      | .ok ⟨.value value, _, pad, errno⟩ =>
          match frames with
          | [] =>
              .ok (.exited,
                { c with stack := [], pad := pad, result := .value value },
                errno)
          | parent :: frames =>
              .ok (.ready,
                { c with stack := parent.pushBack value :: frames, pad := pad
                         result := .value value }, errno)

def step (c : Continuation) (errno : Errno) :
    Except Fault (ContinuationState × Continuation × Errno) :=
  match c.prepare with
  | .error fault => .error fault
  | .ok (.ready, c) => c.executeTop errno
  | .ok (state, c) => .ok (state, c, errno)

/-- Change the context of the topmost frame when it belongs to a control flow
operation. -/
def modifyControlFlow (c : Continuation)
    (f : ControlFlowOperation → ControlFlowOperationContext →
      ControlFlowOperationContext) : Continuation :=
  match c.stack with
  | ⟨.mk (.controlFlow operation) children, accumulator,
        .controlFlow ctx⟩ :: frames =>
      { c with stack :=
          ⟨.mk (.controlFlow operation) children, accumulator,
            .controlFlow (f operation ctx)⟩ :: frames }
  | _ => c

def getCallable (c : Continuation) : Except Fault Value :=
  match c.stack with
  | ⟨.mk (.controlFlow operation) _, _, .controlFlow ctx⟩ :: _ =>
      operation.getCallable ctx
  | _ => .ok (.runtimeError .typeError)

def getArgumentList (c : Continuation) :
    Except Fault (Option (List Value)) :=
  match c.stack with
  | ⟨.mk (.controlFlow operation) _, _, .controlFlow ctx⟩ :: _ =>
      operation.getArgumentList ctx
  | _ => .ok (some [])

def setCallableInvoked (c : Continuation) : Continuation :=
  c.modifyControlFlow fun operation ctx => operation.setCallableInvoked ctx

def setCallableReturn (c : Continuation) (value : Value) : Continuation :=
  { c with result := .value value }.modifyControlFlow
    fun operation ctx => operation.setCallableReturn ctx value

/-- The topmost frame's input/output operation with its context, if it is
one. -/
def inputOutput? (c : Continuation) :
    Option (InputOutputOperation × InputOutputOperationContext) :=
  match c.stack with
  | ⟨.mk (.inputOutput operation) _, _, .inputOutput ctx⟩ :: _ =>
      some (operation, ctx)
  | _ => none

def setInputOutput (c : Continuation) (ctx : InputOutputOperationContext) :
    Continuation :=
  match c.stack with
  | frame :: frames =>
      { c with stack := { frame with ctx := .inputOutput ctx } :: frames }
  | [] => c

def handleRead (c : Continuation) (input : Octets) :
    Except Fault (Nat × Continuation) :=
  match c.inputOutput? with
  | none => .ok (0, c)
  | some (operation, ctx) =>
      match operation.handleRead ctx input with
      | .error fault => .error fault
      | .ok (consumed, ctx) => .ok (consumed, c.setInputOutput ctx)

def getWriteBuffer (c : Continuation) : Octets :=
  match c.inputOutput? with
  | none => []
  | some (operation, ctx) => operation.getWriteBuffer ctx

def handleWrite (c : Continuation) (s : Nat) : Nat × Continuation :=
  match c.inputOutput? with
  | none => (0, c)
  | some (operation, ctx) =>
      let (consumed, ctx) := operation.handleWrite ctx s
      (consumed, c.setInputOutput ctx)

def handleEof (c : Continuation) : Continuation :=
  match c.inputOutput? with
  | none => c
  | some (operation, ctx) => c.setInputOutput (operation.handleEof ctx)

def readyToEvaluate (c : Continuation) : Bool :=
  match c.inputOutput? with
  | none => true
  | some (operation, ctx) => operation.readyToEvaluate ctx

/-- The topmost frame's callback operation, if it is one. -/
def callback? (c : Continuation) :
    Option (String × CallbackOperationContext) :=
  match c.stack with
  | ⟨.mk (.unaryCallback key) _, _, .callback ctx⟩ :: _ => some (key, ctx)
  | _ => none

def setCallback (c : Continuation) (ctx : CallbackOperationContext) :
    Continuation :=
  match c.stack with
  | frame :: frames =>
      { c with stack := { frame with ctx := .callback ctx } :: frames }
  | [] => c

def getCallbackKey (c : Continuation) : String :=
  match c.callback? with
  | some (key, _) => key
  | none => "N/A"

def getCallbackArguments (c : Continuation) : List Value :=
  match c.stack with
  | frame :: _ => frame.accumulator
  | [] => []

def setCallbackCalled (c : Continuation) : Continuation :=
  match c.callback? with
  | some (_, ctx) => c.setCallback { ctx with callbackCalled := true }
  | none => c

def setCallbackReturn (c : Continuation) (value : Value) : Continuation :=
  match c.callback? with
  | some (_, ctx) => c.setCallback { ctx with value := some value }
  | none => c

end Continuation

end NetworkProtocolDsl
