/-
The interpreter: a stack of continuations, one for each active invocation.
-/
import NetworkProtocolDsl.Continuation

namespace NetworkProtocolDsl

/-- The active continuation and the ones waiting for it to return. -/
structure Interpreter where
  top : Continuation
  suspended : List Continuation

namespace Interpreter

def new (optree : OpTreeNode) (rootpad : LexicalPad) : Interpreter :=
  ⟨Continuation.new optree rootpad true, []⟩

/-- `InterpretedProgram::get_instance`. -/
def getInstance (optree : OpTreeNode) (arglist : Option Value) : Interpreter :=
  match arglist with
  | none => new optree (.root [])
  | some argv =>
      new optree (LexicalPad.initializeGlobal "argv" argv (.root []))

def getResult (i : Interpreter) : OperationResult :=
  i.top.result

/-- The pad of a callee: below the invoker's pad or below the interpreter's
root pad, which is where the invoker's chain of pads ends: an instance starts
with a pad that has no parent (`getInstance`), and every pad of a callee is a
child of one of its chain. -/
def calleePad (callable : Callable) (invoker : LexicalPad)
    (arglist : List Value) : LexicalPad :=
  LexicalPad.bindArguments callable.argumentNames arglist
    (.child [] (if callable.inheritsLexicalPad then invoker
      else invoker.rootPad))

/-- Push the continuation of the callable the active one wants to invoke. -/
def invoke (i : Interpreter) :
    Except Fault (ContinuationState × Interpreter) :=
  match i.top.getCallable with
  | .error fault => .error fault
  | .ok (.callable callable) =>
      let invoker := i.top.setCallableInvoked
      match invoker.getArgumentList with
      | .error fault => .error fault
      | .ok arglist =>
          if arglist.isNone ∧ callable.argumentNames ≠ [] then
            .error .nullPointer
          else
            let callee := Continuation.new callable.tree
              (calleePad callable invoker.pad (arglist.getD []))
              callable.inheritsLexicalPad
            match callee.prepare with
            | .error fault => .error fault
            | .ok (state, callee) =>
                .ok (state, ⟨callee, invoker :: i.suspended⟩)
  | .ok _ => .error .badVariantAccess

/-- Pop the active continuation, which exited with `value`. -/
def returnTo (i : Interpreter) (value : Value) (invoker : Continuation)
    (suspended : List Continuation) :
    Except Fault (ContinuationState × Interpreter) :=
  let pad := LexicalPad.afterCall i.top.inheritsLexicalPad invoker.pad
    i.top.pad
  match ({ invoker with pad := pad }.setCallableReturn value).prepare with
  | .error fault => .error fault
  | .ok (state, invoker) => .ok (state, ⟨invoker, suspended⟩)

def step (i : Interpreter) (errno : Errno) :
    Except Fault (ContinuationState × Interpreter × Errno) :=
  match i.top.step errno with
  | .error fault => .error fault
  | .ok (.blocked, top, errno) =>
      match top.result with
      | .blocked .waitingForCallableInvocation =>
          (invoke ⟨top, i.suspended⟩).map fun (state, i) => (state, i, errno)
      | _ => .ok (.blocked, ⟨top, i.suspended⟩, errno)
  | .ok (.exited, top, errno) =>
      match top.result with
      | .blocked _ => .error .badVariantAccess
      | .value value =>
          match i.suspended with
          | [] => .ok (.exited, ⟨top, []⟩, errno)
          | invoker :: suspended =>
              (returnTo ⟨top, i.suspended⟩ value invoker suspended).map
                fun (state, i) => (state, i, errno)
  | .ok (state, top, errno) => .ok (state, ⟨top, i.suspended⟩, errno)

def handleRead (i : Interpreter) (input : Octets) :
    Except Fault (Nat × Interpreter) :=
  (i.top.handleRead input).map fun (consumed, top) =>
    (consumed, { i with top := top })

def handleWrite (i : Interpreter) (s : Nat) : Interpreter :=
  { i with top := (i.top.handleWrite s).2 }

def handleEof (i : Interpreter) : Interpreter :=
  { i with top := i.top.handleEof }

end Interpreter

end NetworkProtocolDsl
