/-
The runner's view of one interpreter: its buffers, its flags, and what one
pass of the interpreter loop does with it.
-/
import NetworkProtocolDsl.Interpreter

namespace NetworkProtocolDsl

/-- The queues hold their elements front first. -/
structure InterpreterContext where
  interpreter : Interpreter
  inputBuffer : List Octets := []
  outputBuffer : List Octets := []
  callbackRequestQueue : List (String × List Value) := []
  callbackResponseQueue : List Value := []
  interpreterResult : Option Value := none
  eof : Bool := false
  exited : Bool := false

inductive HandleBlockedResult where
  | stillBlocked
  | unblocked
  | needsRetry
deriving DecidableEq, Repr

namespace InterpreterContext

/-- Put back what was not consumed. -/
def pushFrontUnconsumed (input : Octets) (consumed : Nat)
    (queue : List Octets) : List Octets :=
  if consumed < input.length then input.drop consumed :: queue else queue

/-- The joining loop of `handle_read`: nothing of `joined` was consumed, so
the following buffers are appended until something is. -/
def joinBuffers (context : InterpreterContext) (joined : Octets)
    (didJoin : Bool) :
    List Octets → Except Fault (HandleBlockedResult × InterpreterContext)
  | [] =>
      let context := { context with inputBuffer := [joined] }
      if context.interpreter.top.readyToEvaluate then .ok (.unblocked, context)
      else if didJoin then .ok (.needsRetry, context)
      else .ok (.stillBlocked, context)
  | nextbuffer :: queue =>
      let joined := joined ++ nextbuffer
      match context.interpreter.handleRead joined with
      | .error fault => .error fault
      | .ok (consumed, interpreter) =>
          let context := { context with interpreter := interpreter }
          if consumed = 0 then joinBuffers context joined true queue
          else
            .ok (.unblocked, { context with
              inputBuffer := pushFrontUnconsumed joined consumed queue })

def handleRead (context : InterpreterContext) :
    Except Fault (HandleBlockedResult × InterpreterContext) :=
  match context.inputBuffer with
  | buffer :: queue =>
      match context.interpreter.handleRead buffer with
      | .error fault => .error fault
      | .ok (consumed, interpreter) =>
          let context := { context with interpreter := interpreter }
          if consumed = 0 then joinBuffers context buffer false queue
          else
            .ok (.unblocked, { context with
              inputBuffer := pushFrontUnconsumed buffer consumed queue })
  | [] =>
      if context.eof then
        .ok (.unblocked,
          { context with interpreter := context.interpreter.handleEof })
      else .ok (.stillBlocked, context)

def handleWrite (context : InterpreterContext) :
    HandleBlockedResult × InterpreterContext :=
  if context.eof then
    (.unblocked,
      { context with interpreter := context.interpreter.handleEof })
  else
    let buffer := context.interpreter.top.getWriteBuffer
    (.unblocked, { context with
      outputBuffer := context.outputBuffer ++ [buffer]
      interpreter := context.interpreter.handleWrite buffer.length })

def handleStartCallback (context : InterpreterContext) :
    HandleBlockedResult × InterpreterContext :=
  let top := context.interpreter.top
  (.unblocked, { context with
    callbackRequestQueue := context.callbackRequestQueue ++
      [(top.getCallbackKey, top.getCallbackArguments)]
    interpreter := { context.interpreter with top := top.setCallbackCalled } })

def handleFinishCallback (context : InterpreterContext) :
    HandleBlockedResult × InterpreterContext :=
  match context.callbackResponseQueue with
  | [] => (.stillBlocked, context)
  | value :: queue =>
      (.unblocked, { context with
        callbackResponseQueue := queue
        interpreter := { context.interpreter with
          top := context.interpreter.top.setCallbackReturn value } })

def handleBlockedInterpreter (context : InterpreterContext) :
    Except Fault (HandleBlockedResult × InterpreterContext) :=
  match context.interpreter.getResult with
  | .blocked .waitingForRead => context.handleRead
  | .blocked .waitingForWrite => .ok context.handleWrite
  | .blocked .waitingForCallback => .ok context.handleStartCallback
  | .blocked .waitingCallbackData => .ok context.handleFinishCallback
  | _ => .ok (.unblocked, context)

/-- What the pass reports of one context. -/
inductive Progress where
  | ready
  | blocked (result : HandleBlockedResult)
  | exited
deriving DecidableEq, Repr

/-- One pass of the interpreter loop over one context; `errno` is the
thread's. -/
def pass (context : InterpreterContext) (errno : Errno) :
    Except Fault (Progress × InterpreterContext × Errno) :=
  if context.exited then .ok (.exited, context, errno)
  else
    match context.interpreter.step errno with
    | .error fault => .error fault
    | .ok (.blocked, interpreter, errno) =>
        ({ context with
          interpreter := interpreter }.handleBlockedInterpreter).map
            fun (result, context) => (.blocked result, context, errno)
    | .ok (.exited, interpreter, errno) =>
        let result :=
          match interpreter.getResult with
          | .value value => some value
          | .blocked _ => none
        .ok (.exited, { context with interpreter := interpreter, exited := true
                                     interpreterResult := result }, errno)
    | .ok (_, interpreter, errno) =>
        .ok (.ready, { context with interpreter := interpreter }, errno)

end InterpreterContext

end NetworkProtocolDsl
