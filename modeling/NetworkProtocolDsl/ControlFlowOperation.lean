/-
Operations that invoke callables: function calls, loops, conditionals and the
state machine.

Each is resumed by the interpreter after every invocation; what it has to
remember stands in its context.
-/
import NetworkProtocolDsl.LexicalPad

namespace NetworkProtocolDsl

inductive ProcessingMode where
  | transition
  | state
deriving DecidableEq, Repr

structure ProcessingInfo where
  processingMode : ProcessingMode
  fromState : Option (String × StateInfo)
  transition : Option (Octets × TransitionInfo)
  toState : String × StateInfo

/-- `arglist` is a pointer and may be null; `additionalInfo` is the state
machine's. -/
structure ControlFlowOperationContext where
  callable : Option Value := none
  value : Option Value := none
  arglist : Option (List Value) := none
  accumulator : List Value := []
  callableInvoked : Bool := false
  additionalInfo : Option ProcessingInfo := none

/-- The result of an evaluation together with the context it leaves. -/
abbrev ControlFlowResult :=
  Except Fault (OperationResult × ControlFlowOperationContext)

namespace FunctionCall

def start (ctx : ControlFlowOperationContext) (callable arglist : Value) :
    ControlFlowResult :=
  match callable, arglist with
  | .callable c, .dynamicList values =>
      .ok (.blocked .waitingForCallableInvocation,
        { ctx with callable := some (.callable c), arglist := some values })
  | .callable _, .runtimeError e => .ok (.value (.runtimeError e), ctx)
  | _, _ => .ok (.value (.runtimeError .typeError), ctx)

def apply (ctx : ControlFlowOperationContext) (callable arglist : Value) :
    ControlFlowResult :=
  match ctx.callable with
  | some _ =>
      if ctx.callableInvoked then
        match ctx.value with
        | some value => .ok (.value value, ctx)
        | none => .ok (.blocked .waitingForCallableResult, ctx)
      else .ok (.blocked .waitingForCallableInvocation, ctx)
  | none => start ctx callable arglist

end FunctionCall

namespace FunctionCallForEach

/-- With a second argument that is not a list the overload taking a `Value`
is the only one in scope inside the visitor, and it calls itself. -/
def start (ctx : ControlFlowOperationContext) (callable arglist : Value) :
    ControlFlowResult :=
  match callable, arglist with
  | .callable c, .dynamicList values =>
      .ok (.blocked .waitingForCallableInvocation,
        { ctx with callable := some (.callable c), arglist := some values,
                   accumulator := [] })
  | .callable _, _ => .error .nonTermination
  | _, _ => .ok (.value (.runtimeError .typeError), ctx)

def apply (ctx : ControlFlowOperationContext) (callable arglist : Value) :
    ControlFlowResult :=
  match ctx.callable with
  | some _ =>
      if ctx.callableInvoked then
        match ctx.value with
        | some value =>
            let accumulator := ctx.accumulator ++ [value]
            if accumulator.length < (ctx.arglist.getD []).length then
              .ok (.blocked .waitingForCallableInvocation,
                { ctx with accumulator := accumulator, value := none,
                           callableInvoked := false })
            else
              .ok (.value (.dynamicList accumulator),
                { ctx with accumulator := accumulator })
        | none => .ok (.blocked .waitingForCallableResult, ctx)
      else .ok (.blocked .waitingForCallableInvocation, ctx)
  | none => start ctx callable arglist

def getArgumentList (elementIsSingleArgument : Bool)
    (ctx : ControlFlowOperationContext) :
    Except Fault (Option (List Value)) :=
  match ctx.arglist with
  | none => .error .nullPointer
  | some arglist =>
      match arglist[ctx.accumulator.length]? with
      | none => .error .outOfRange
      | some element =>
          if elementIsSingleArgument then .ok (some [element])
          else
            match element with
            | .dynamicList values => .ok (some values)
            | _ => .error .badVariantAccess

end FunctionCallForEach

namespace GenerateList

def apply (ctx : ControlFlowOperationContext) (callable : Value) :
    ControlFlowResult :=
  match ctx.callable with
  | some _ =>
      if ctx.callableInvoked then
        match ctx.value with
        | some (.controlFlowInstruction .interruptGenerator) =>
            .ok (.value (.dynamicList ctx.accumulator), ctx)
        | some (.runtimeError e) => .ok (.value (.runtimeError e), ctx)
        | some value =>
            .ok (.blocked .waitingForCallableInvocation,
              { ctx with accumulator := ctx.accumulator ++ [value],
                         callableInvoked := false, value := none })
        | none => .ok (.blocked .waitingForCallableResult, ctx)
      else .ok (.blocked .waitingForCallableInvocation, ctx)
  | none =>
      match callable with
      | .callable c =>
          .ok (.blocked .waitingForCallableInvocation,
            { ctx with callable := some (.callable c), accumulator := [] })
      | _ => .ok (.value (.runtimeError .typeError), ctx)

end GenerateList

namespace If

/-- The condition is looked at first, then the branches from left to right. -/
def start (ctx : ControlFlowOperationContext)
    (condition thenBranch elseBranch : Value) : ControlFlowResult :=
  match condition, thenBranch, elseBranch with
  | .runtimeError e, _, _ => .ok (.value (.runtimeError e), ctx)
  | .controlFlowInstruction i, _, _ =>
      .ok (.value (.controlFlowInstruction i), ctx)
  | .bool _, .runtimeError e, _ => .ok (.value (.runtimeError e), ctx)
  | .bool _, .controlFlowInstruction i, _ =>
      .ok (.value (.controlFlowInstruction i), ctx)
  | .bool _, .callable _, .runtimeError e =>
      .ok (.value (.runtimeError e), ctx)
  | .bool _, .callable _, .controlFlowInstruction i =>
      .ok (.value (.controlFlowInstruction i), ctx)
  | .bool b, .callable t, .callable e =>
      .ok (.blocked .waitingForCallableInvocation,
        { ctx with callable := some (.callable (if b then t else e)) })
  | _, _, _ => .ok (.value (.runtimeError .typeError), ctx)

def apply (ctx : ControlFlowOperationContext)
    (condition thenBranch elseBranch : Value) : ControlFlowResult :=
  match ctx.callable with
  | some _ =>
      if ctx.callableInvoked then
        match ctx.value with
        | some value => .ok (.value value, ctx)
        | none => .ok (.blocked .waitingForCallableResult, ctx)
      else .ok (.blocked .waitingForCallableInvocation, ctx)
  | none => start ctx condition thenBranch elseBranch

end If

namespace StateMachineOperation

/-- A name the dictionary does not hold is passed as `false`. -/
def extractArguments (names : List String)
    (members : List (String × Value)) : List Value :=
  names.map fun name => (members.lookup name).getD (.bool false)

def startStateCallback (ctx : ControlFlowOperationContext)
    (info : ProcessingInfo) : ControlFlowResult :=
  .ok (.blocked .waitingForCallableInvocation,
    { ctx with
      callable := some (.callable
        ⟨info.toState.2.callbackOptree, ["dictionary"], true⟩)
      value := none
      additionalInfo := some { info with processingMode := .state } })

def startTransitionCallback (ctx : ControlFlowOperationContext)
    (info : ProcessingInfo) : ControlFlowResult :=
  match info.transition with
  | none => .error .assertion
  | some (_, t) =>
      .ok (.blocked .waitingForCallableInvocation,
        { ctx with
          callable := some (.callable
            ⟨t.callbackOptree, t.argumentNames, true⟩)
          value := none
          additionalInfo := some { info with processingMode := .transition } })

def processStateReturnWithArgs (ctx : ControlFlowOperationContext)
    (states : StateMap) (info : ProcessingInfo) (t d : Value) :
    ControlFlowResult :=
  match t, d with
  | .octets name, .dictionary members =>
      if info.toState.1 = "Closed" then .ok (.value d, ctx)
      else
        let info := { info with fromState := some info.toState }
        let ctx := { ctx with additionalInfo := some info }
        match info.toState.2.transitions.lookup name with
        | none => .ok (.value (.runtimeError .nameError), ctx)
        | some transition =>
            match states.lookup transition.targetState with
            | none => .ok (.value (.runtimeError .nameError), ctx)
            | some target =>
                startTransitionCallback
                  { ctx with accumulator :=
                      extractArguments transition.argumentNames members }
                  { info with transition := some (name, transition)
                              toState := (transition.targetState, target) }
  | _, _ => .ok (.value (.runtimeError .typeError), ctx)

def processStateReturn (ctx : ControlFlowOperationContext)
    (states : StateMap) (info : ProcessingInfo) : Value → ControlFlowResult
  | .dynamicList [t, d] => processStateReturnWithArgs ctx states info t d
  | .runtimeError e => .ok (.value (.runtimeError e), ctx)
  | _ => .ok (.value (.runtimeError .typeError), ctx)

def processTransitionReturn (ctx : ControlFlowOperationContext)
    (info : ProcessingInfo) : Value → ControlFlowResult
  | .dynamicList [.dictionary members] =>
      startStateCallback { ctx with accumulator := [.dictionary members] } info
  | .dynamicList [.runtimeError e] => .ok (.value (.runtimeError e), ctx)
  | .runtimeError e => .ok (.value (.runtimeError e), ctx)
  | _ => .ok (.value (.runtimeError .typeError), ctx)

def apply (states : StateMap) (ctx : ControlFlowOperationContext) :
    ControlFlowResult :=
  match ctx.callable with
  | some _ =>
      if ctx.callableInvoked then
        match ctx.value, ctx.additionalInfo with
        | some value, some info =>
            match info.processingMode with
            | .transition =>
                match info.transition with
                | none => .ok (.value (.runtimeError .nameError), ctx)
                | some _ => processTransitionReturn ctx info value
            | .state => processStateReturn ctx states info value
        | some _, none => .error .badVariantAccess
        | none, _ => .ok (.blocked .waitingForCallableResult, ctx)
      else .ok (.blocked .waitingForCallableInvocation, ctx)
  | none =>
      match states.lookup "Open" with
      | none => .ok (.value (.runtimeError .nameError), ctx)
      | some state =>
          startStateCallback { ctx with accumulator := [.dictionary []] }
            ⟨.transition, none, none, ("Open", state)⟩

end StateMachineOperation

namespace ControlFlowOperation

def arity : ControlFlowOperation → Nat
  | .functionCall | .functionCallForEach _ => 2
  | .generateList => 1
  | .ifOperation => 3
  | .stateMachineOperation _ => 0

def apply (operation : ControlFlowOperation)
    (ctx : ControlFlowOperationContext) (args : List Value) :
    ControlFlowResult :=
  match operation, args with
  | .functionCall, callable :: arglist :: _ =>
      FunctionCall.apply ctx callable arglist
  | .functionCallForEach _, callable :: arglist :: _ =>
      FunctionCallForEach.apply ctx callable arglist
  | .generateList, callable :: _ => GenerateList.apply ctx callable
  | .ifOperation, condition :: thenBranch :: elseBranch :: _ =>
      If.apply ctx condition thenBranch elseBranch
  | .stateMachineOperation states, _ => StateMachineOperation.apply states ctx
  | _, _ => .error .assertion

def getCallable (_ : ControlFlowOperation)
    (ctx : ControlFlowOperationContext) : Except Fault Value :=
  match ctx.callable with
  | some callable => .ok callable
  | none => .error .assertion

/-- The state machine passes its accumulator, the loop over a list one element
of it, the others their argument list. -/
def getArgumentList (operation : ControlFlowOperation)
    (ctx : ControlFlowOperationContext) :
    Except Fault (Option (List Value)) :=
  match operation with
  | .functionCallForEach elementIsSingleArgument =>
      FunctionCallForEach.getArgumentList elementIsSingleArgument ctx
  | .stateMachineOperation _ => .ok (some ctx.accumulator)
  | _ => .ok ctx.arglist

def setCallableInvoked (_ : ControlFlowOperation)
    (ctx : ControlFlowOperationContext) : ControlFlowOperationContext :=
  { ctx with callableInvoked := true }

def setCallableReturn (_ : ControlFlowOperation)
    (ctx : ControlFlowOperationContext) (value : Value) :
    ControlFlowOperationContext :=
  { ctx with value := some value }

end ControlFlowOperation

end NetworkProtocolDsl
