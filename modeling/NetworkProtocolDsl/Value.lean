/-
The values of the interpreter and the tree of operations that computes them.

Operations are grouped by the concept that dispatches them, as the execution
frame does: interpreted, control flow, callback, input/output, lexical pad and
dynamic input operations.  A string that travels on the wire is a list of
octets; an identifier of the protocol text is a `String`.
-/
namespace NetworkProtocolDsl

/-- The bytes of a `std::string` that is data. -/
abbrev Octets := List UInt8

inductive RuntimeError where
  | typeError
  | nameError
  | protocolMismatchError
deriving DecidableEq, Repr

inductive ControlFlowInstruction where
  | interruptGenerator
deriving DecidableEq, Repr

/-- What the captured value holds, and what appears on the wire for it. -/
structure EscapeInfo where
  character : Octets
  sequence : Octets
deriving DecidableEq, Repr

/-- One condition of a transition lookahead. -/
inductive TransitionCondition where
  | eofCondition
  | matchUntilTerminator (terminator : Octets)
  | static (octets : Octets)
deriving DecidableEq, Repr

inductive InputOutputOperation where
  | readInt32Native
  | readIntFromAscii
  | readOctetsUntilTerminator (terminator : Octets)
      (escape : Option EscapeInfo)
  | readStaticOctets (contents : Octets)
  | terminateListIfReadAhead (terminator : Octets)
  | transitionLookahead (conditions : List (TransitionCondition × Octets))
  | writeInt32Native
  | writeOctets
  | writeOctetsWithEscape (escape : EscapeInfo)
  | writeStaticOctets (contents : Octets)
deriving DecidableEq

inductive LexicalPadOperation where
  | lexicalPadGet (name : String)
  | lexicalPadInitialize (name : String)
  | lexicalPadInitializeGlobal (name : String)
  | lexicalPadSet (name : String)
  | lexicalPadAsDict
deriving DecidableEq

inductive DynamicInputOperation where
  | dynamicList
  | opSequence
deriving DecidableEq

mutual

inductive InterpretedOperation where
  | add
  | eq
  | int32Literal (value : Int32)
  | intToAscii
  | lesserEqual
  | multiply
  | subtract
  | staticCallable (optree : OpTreeNode) (argumentNames : List String)
      (inheritsLexicalPad : Bool)
  | dictionaryInitialize
  | dictionarySet (key : String)
  | dictionaryGet (key : String)

inductive ControlFlowOperation where
  | functionCall
  | functionCallForEach (elementIsSingleArgument : Bool)
  | generateList
  | ifOperation
  | stateMachineOperation (states : List (String × StateInfo))

inductive Operation where
  | interpreted (operation : InterpretedOperation)
  | controlFlow (operation : ControlFlowOperation)
  | unaryCallback (key : String)
  | inputOutput (operation : InputOutputOperation)
  | lexicalPad (operation : LexicalPadOperation)
  | dynamicInput (operation : DynamicInputOperation)

/-- A node in the operation tree. -/
inductive OpTreeNode where
  | mk (operation : Operation) (children : List OpTreeNode)

inductive TransitionInfo where
  | mk (callbackOptree : OpTreeNode) (argumentNames : List String)
      (targetState : String)

inductive StateInfo where
  | mk (callbackOptree : OpTreeNode)
      (transitions : List (Octets × TransitionInfo))

end

abbrev StateMap := List (String × StateInfo)

def OpTreeNode.operation : OpTreeNode → Operation
  | .mk operation _ => operation

def OpTreeNode.children : OpTreeNode → List OpTreeNode
  | .mk _ children => children

def TransitionInfo.callbackOptree : TransitionInfo → OpTreeNode
  | .mk callbackOptree _ _ => callbackOptree

def TransitionInfo.argumentNames : TransitionInfo → List String
  | .mk _ argumentNames _ => argumentNames

def TransitionInfo.targetState : TransitionInfo → String
  | .mk _ _ targetState => targetState

def StateInfo.callbackOptree : StateInfo → OpTreeNode
  | .mk callbackOptree _ => callbackOptree

def StateInfo.transitions : StateInfo → List (Octets × TransitionInfo)
  | .mk _ transitions => transitions

/-- A body to run, the names its arguments are bound to, and whether its pad
hangs below the pad of whoever invokes it or below the root pad. -/
structure Callable where
  tree : OpTreeNode
  argumentNames : List String
  inheritsLexicalPad : Bool

inductive Value where
  | bool (value : Bool)
  | int32 (value : Int32)
  | dictionary (members : List (String × Value))
  | callable (callable : Callable)
  | runtimeError (error : RuntimeError)
  | controlFlowInstruction (instruction : ControlFlowInstruction)
  | dynamicList (values : List Value)
  | octets (data : Octets)

/-- The values that stop an operation with dynamic input. -/
def Value.stops : Value → Bool
  | .runtimeError _ => true
  | .controlFlowInstruction _ => true
  | _ => false

/-- The ways the interpreter can leave its defined behaviour: a failed
assertion, a variant or container accessed out of its bounds, a null list, or
a loop that makes no progress. -/
inductive Fault where
  | assertion
  | badVariantAccess
  | outOfRange
  | nullPointer
  | nonTermination
deriving DecidableEq, Repr

theorem map_eq_ok {ε α β : Type} {f : α → β} {e : Except ε α} {b : β}
    (h : e.map f = .ok b) : ∃ a, e = .ok a ∧ f a = b := by
  cases e with
  | error fault => contradiction
  | ok a => exact ⟨a, rfl, Except.ok.inj h⟩

inductive ReasonForBlockedOperation where
  | waitingForCallback
  | waitingCallbackData
  | waitingForRead
  | waitingForWrite
  | waitingForCallableInvocation
  | waitingForCallableResult
deriving DecidableEq, Repr

/-- Whether an operation could be executed or had to be suspended. -/
inductive OperationResult where
  | value (value : Value)
  | blocked (reason : ReasonForBlockedOperation)

end NetworkProtocolDsl
