/-
Programs that consist of one operation that takes no arguments.

Such a program waits until the operation is ready, offering it the input, and
exits with what the operation yields.
-/
import NetworkProtocolDsl.Reader

namespace NetworkProtocolDsl

open Run

/-- An operation that is run on its own. -/
structure ReadProgram where
  operation : InputOutputOperation
  arity : operation.arity = 0
  errno : Errno

namespace ReadProgram

def start (p : ReadProgram) : RunnerState :=
  .start (.mk (.inputOutput p.operation) []) none p.errno

/-- The program while its operation is not evaluated yet. -/
def reader (p : ReadProgram) (eof : Bool) : Reader where
  operation := p.operation
  children := []
  accumulator := []
  frames := []
  base := { p.start.context with eof := eof }
  ready := Nat.le_of_eq p.arity
  running := rfl

/-- The operation is not evaluated yet. -/
def Reading (p : ReadProgram) (ctx : InputOutputOperationContext)
    (queue : List Octets) (eof : Bool) (s : RunnerState) : Prop :=
  ∃ result, s = ⟨(p.reader eof).context ctx queue result, p.errno⟩

/-- The program exited with `value`. -/
def Done (value : Value) (s : RunnerState) : Prop :=
  s.context.exited = true ∧ s.context.interpreterResult = some value

variable {p : ReadProgram} {ctx : InputOutputOperationContext}
  {queue : List Octets} {eof : Bool} {s : RunnerState}

theorem start_reading (p : ReadProgram) : p.Reading {} [] false p.start :=
  ⟨_, rfl⟩

theorem Reading.push (h : p.Reading ctx queue eof s) (data : Octets) :
    p.Reading ctx (queue ++ [data]) eof (s.push data) := by
  obtain ⟨result, rfl⟩ := h
  exact ⟨result, rfl⟩

theorem Reading.endOfInput (h : p.Reading ctx queue eof s) :
    p.Reading ctx queue true
      { s with context := { s.context with eof := true } } := by
  obtain ⟨result, rfl⟩ := h
  exact ⟨result, rfl⟩

theorem Reading.not_exited (h : p.Reading ctx queue eof s) :
    s.context.exited = false ∧ s.context.interpreterResult = none := by
  obtain ⟨result, rfl⟩ := h
  exact ⟨rfl, rfl⟩

theorem Done.push {value : Value} (h : Done value s) (data : Octets) :
    Done value (s.push data) := h

theorem Done.pass {value : Value} (h : Done value s) : s.pass = .ok s := by
  simp only [RunnerState.pass, InterpreterContext.pass, h.1, ↓reduceIte,
    Except.map]

/-- An operation that yields a value ends the program. -/
theorem Reading.context_pass_value (h : p.Reading ctx queue eof s)
    {value : Value} {ctx' : InputOutputOperationContext} {errno' : Errno}
    (happly : p.operation.apply ctx [] p.errno =
      .ok ⟨.value value, ctx', errno'⟩) :
    ∃ context, s.context.pass s.errno = .ok (.exited, context, errno') ∧
      Done value ⟨context, errno'⟩ := by
  obtain ⟨result, rfl⟩ := h
  have hexecute : ((p.reader eof).top ctx result).executeTop p.errno =
      .ok (.exited, { (p.reader eof).top ctx result with
        stack := [], result := .value value }, errno') := by
    simp only [Continuation.executeTop, Reader.top, Reader.frame, reader,
      ExecutionStackFrame.execute, OpTreeNode.operation, happly, Except.map]
  have hstep : ((p.reader eof).context ctx queue
      result).interpreter.step p.errno = .ok (.exited,
        ⟨{ (p.reader eof).top ctx result with
          stack := [], result := .value value }, []⟩, errno') := by
    simp only [Interpreter.step, Reader.context, Continuation.step,
      Reader.prepare_top, hexecute]
    rfl
  refine ⟨{ (p.reader eof).context ctx queue result with
    interpreter := ⟨{ (p.reader eof).top ctx result with
      stack := [], result := .value value }, []⟩
    exited := true
    interpreterResult := some value }, ?_, rfl, rfl⟩
  unfold InterpreterContext.pass
  rw [if_neg (by simp [Reader.context, (p.reader eof).running]), hstep]
  rfl

theorem Reading.pass_value (h : p.Reading ctx queue eof s)
    {value : Value} {ctx' : InputOutputOperationContext} {errno' : Errno}
    (happly : p.operation.apply ctx [] p.errno =
      .ok ⟨.value value, ctx', errno'⟩) :
    ∃ t, s.pass = .ok t ∧ Done value t := by
  obtain ⟨context, hcontext, hdone⟩ := h.context_pass_value happly
  refine ⟨⟨context, errno'⟩, ?_, hdone⟩
  rw [RunnerState.pass, hcontext]
  rfl

/-- While the operation waits a pass offers it the queue. -/
theorem Reading.context_pass_waiting (h : p.Reading ctx queue eof s)
    (hwait : p.operation.readyToEvaluate ctx = false)
    {report : HandleBlockedResult} {ctx' : InputOutputOperationContext}
    {queue' : List Octets}
    (hread : p.operation.readQueue ctx eof queue =
      .ok (report, ctx', queue')) :
    ∃ context, s.context.pass s.errno = .ok (.blocked report, context, p.errno) ∧
      p.Reading ctx' queue' eof ⟨context, p.errno⟩ := by
  obtain ⟨result, rfl⟩ := h
  have hpass := (p.reader eof).pass_eq p.errno queue result hwait
  have hread' : (p.reader eof).operation.readQueue ctx
      (p.reader eof).base.eof queue = .ok (report, ctx', queue') := hread
  rw [hread'] at hpass
  exact ⟨_, hpass, _, rfl⟩

theorem Reading.pass_waiting (h : p.Reading ctx queue eof s)
    (hwait : p.operation.readyToEvaluate ctx = false)
    {report : HandleBlockedResult} {ctx' : InputOutputOperationContext}
    {queue' : List Octets}
    (hread : p.operation.readQueue ctx eof queue =
      .ok (report, ctx', queue')) :
    ∃ t, s.pass = .ok t ∧ p.Reading ctx' queue' eof t := by
  obtain ⟨context, hcontext, hreading⟩ := h.context_pass_waiting hwait hread
  refine ⟨⟨context, p.errno⟩, ?_, hreading⟩
  rw [RunnerState.pass, hcontext]
  rfl

end ReadProgram

end NetworkProtocolDsl
