/-
Contexts whose active frame reads.

While an operation waits for input, a pass of the interpreter loop evaluates
it and, when it is still blocked, offers it the input queue.  Nothing else of
the context changes, so such a pass is described by what it does to the
operation's own context and to the queue.
-/
import NetworkProtocolDsl.RunnerState
import NetworkProtocolDsl.WaitingForRead

namespace NetworkProtocolDsl

namespace InputOutputOperation

/-- The joining loop as the waiting operation sees it. -/
def joinQueue (operation : InputOutputOperation)
    (ctx : InputOutputOperationContext) (joined : Octets) (didJoin : Bool) :
    List Octets → Except Fault
      (HandleBlockedResult × InputOutputOperationContext × List Octets)
  | [] =>
      if operation.readyToEvaluate ctx then .ok (.unblocked, ctx, [joined])
      else if didJoin then .ok (.needsRetry, ctx, [joined])
      else .ok (.stillBlocked, ctx, [joined])
  | nextbuffer :: queue =>
      match operation.handleRead ctx (joined ++ nextbuffer) with
      | .error fault => .error fault
      | .ok (consumed, ctx) =>
          if consumed = 0 then
            operation.joinQueue ctx (joined ++ nextbuffer) true queue
          else
            .ok (.unblocked, ctx, InterpreterContext.pushFrontUnconsumed
              (joined ++ nextbuffer) consumed queue)

/-- `handle_read` as the waiting operation sees it. -/
def readQueue (operation : InputOutputOperation)
    (ctx : InputOutputOperationContext) (eof : Bool) :
    List Octets → Except Fault
      (HandleBlockedResult × InputOutputOperationContext × List Octets)
  | [] =>
      if eof then .ok (.unblocked, operation.handleEof ctx, [])
      else .ok (.stillBlocked, ctx, [])
  | buffer :: queue =>
      match operation.handleRead ctx buffer with
      | .error fault => .error fault
      | .ok (consumed, ctx) =>
          if consumed = 0 then operation.joinQueue ctx buffer false queue
          else
            .ok (.unblocked, ctx, InterpreterContext.pushFrontUnconsumed
              buffer consumed queue)

/-- What the joining loop did to a waiting operation.  Either every chunk was
joined and offered and none of it was consumed, or some joined prefix of the
queue was.  The invariant speaks of the chunks offered so far. -/
theorem joinQueue_cases {operation : InputOutputOperation}
    {invariant : List Octets → InputOutputOperationContext → Prop}
    {offered queue : List Octets}
    (hkeep : ∀ before next after ctx ctx',
      offered ++ queue = before ++ next :: after → invariant before ctx →
      operation.handleRead ctx (before.flatten ++ next) = .ok (0, ctx') →
      invariant (before ++ [next]) ctx')
    {ctx ctx' : InputOutputOperationContext} (hctx : invariant offered ctx)
    {didJoin : Bool} {queue' : List Octets} {report : HandleBlockedResult}
    (h : operation.joinQueue ctx offered.flatten didJoin queue =
      .ok (report, ctx', queue')) :
    (queue' = [(offered ++ queue).flatten] ∧
      invariant (offered ++ queue) ctx' ∧
      (report = .unblocked ↔ operation.readyToEvaluate ctx' = true) ∧
      (report = .stillBlocked ↔ operation.readyToEvaluate ctx' = false ∧
        didJoin = false ∧ queue = [])) ∨
    report = .unblocked ∧ ∃ before next after middle consumed,
      offered ++ queue = before ++ next :: after ∧ invariant before middle ∧
      operation.handleRead middle (before.flatten ++ next) =
        .ok (consumed, ctx') ∧ 0 < consumed ∧
      queue' = InterpreterContext.pushFrontUnconsumed
        (before.flatten ++ next) consumed after := by
  induction queue generalizing offered ctx didJoin with
  | nil =>
      left
      simp only [joinQueue] at h
      cases hready : operation.readyToEvaluate ctx <;>
        cases didJoin <;>
        simp only [hready, Bool.false_eq_true, ↓reduceIte, Except.ok.injEq,
          Prod.mk.injEq] at h <;>
        obtain ⟨rfl, rfl, rfl⟩ := h <;>
        simp [hctx, hready]
  | cons next queue ih =>
      simp only [joinQueue] at h
      cases hread : operation.handleRead ctx (offered.flatten ++ next) with
      | error fault => simp [hread] at h
      | ok answer =>
          obtain ⟨consumed, middle⟩ := answer
          simp only [hread] at h
          by_cases hzero : consumed = 0
          · subst hzero
            have hmiddle := hkeep offered next queue ctx middle rfl hctx hread
            have hflatten : offered.flatten ++ next =
                (offered ++ [next]).flatten := by simp
            rw [if_pos rfl, hflatten] at h
            have happend : offered ++ [next] ++ queue =
                offered ++ next :: queue := by simp
            rw [← happend] at hkeep ⊢
            rcases ih hkeep hmiddle h with
              ⟨hqueue, hinv, hready, hstill⟩ | hconsumed
            · refine Or.inl ⟨hqueue, hinv, hready, ?_⟩
              simpa using hstill
            · exact Or.inr hconsumed
          · rw [if_neg hzero] at h
            simp only [Except.ok.injEq, Prod.mk.injEq] at h
            obtain ⟨rfl, rfl, rfl⟩ := h
            exact Or.inr ⟨rfl, offered, next, queue, ctx, consumed, rfl,
              hctx, hread, by omega, rfl⟩

/-- What `handle_read` did to a waiting operation with a non-empty queue. -/
theorem readQueue_cases {operation : InputOutputOperation}
    (invariant : List Octets → InputOutputOperationContext → Prop)
    {queue : List Octets}
    (hkeep : ∀ before next after ctx ctx',
      queue = before ++ next :: after → invariant before ctx →
      operation.handleRead ctx (before.flatten ++ next) = .ok (0, ctx') →
      invariant (before ++ [next]) ctx')
    {ctx ctx' : InputOutputOperationContext} (hctx : invariant [] ctx)
    {eof : Bool} {queue' : List Octets} (hqueue : queue ≠ [])
    {report : HandleBlockedResult}
    (h : operation.readQueue ctx eof queue = .ok (report, ctx', queue')) :
    (queue' = [queue.flatten] ∧ invariant queue ctx' ∧
      (report = .unblocked ↔ operation.readyToEvaluate ctx' = true) ∧
      (report = .stillBlocked ↔ operation.readyToEvaluate ctx' = false ∧
        queue.length = 1)) ∨
    report = .unblocked ∧ ∃ before next after middle consumed,
      queue = before ++ next :: after ∧ invariant before middle ∧
      operation.handleRead middle (before.flatten ++ next) =
        .ok (consumed, ctx') ∧ 0 < consumed ∧
      queue' = InterpreterContext.pushFrontUnconsumed
        (before.flatten ++ next) consumed after := by
  cases queue with
  | nil => exact absurd rfl hqueue
  | cons buffer queue =>
      simp only [readQueue] at h
      cases hread : operation.handleRead ctx buffer with
      | error fault => simp [hread] at h
      | ok answer =>
          obtain ⟨consumed, middle⟩ := answer
          simp only [hread] at h
          by_cases hzero : consumed = 0
          · subst hzero
            have hmiddle : invariant [buffer] middle :=
              hkeep [] buffer queue ctx middle rfl hctx (by simpa using hread)
            have hjoin : operation.joinQueue middle [buffer].flatten false
                queue = .ok (report, ctx', queue') := by
              simpa using h
            rcases joinQueue_cases hkeep hmiddle hjoin with
              ⟨hq, hinv, hready, hstill⟩ | hconsumed
            · refine Or.inl ⟨hq, hinv, hready, ?_⟩
              simpa using hstill
            · exact Or.inr hconsumed
          · rw [if_neg hzero] at h
            simp only [Except.ok.injEq, Prod.mk.injEq] at h
            obtain ⟨rfl, rfl, rfl⟩ := h
            exact Or.inr ⟨rfl, [], buffer, queue, ctx, consumed, rfl, hctx,
              by simpa using hread, by omega, by simp⟩

/-- The loop fails only where an offer fails. -/
theorem joinQueue_total {operation : InputOutputOperation}
    (htotal : ∀ ctx input, ∃ answer,
      operation.handleRead ctx input = .ok answer)
    (ctx : InputOutputOperationContext) (joined : Octets) (didJoin : Bool)
    (queue : List Octets) :
    ∃ answer, operation.joinQueue ctx joined didJoin queue = .ok answer := by
  induction queue generalizing ctx joined didJoin with
  | nil =>
      simp only [joinQueue]
      cases operation.readyToEvaluate ctx <;> cases didJoin <;> simp
  | cons next queue ih =>
      obtain ⟨⟨consumed, ctx'⟩, hread⟩ := htotal ctx (joined ++ next)
      simp only [joinQueue, hread]
      split
      · exact ih _ _ _
      · exact ⟨_, rfl⟩

theorem readQueue_total {operation : InputOutputOperation}
    (htotal : ∀ ctx input, ∃ answer,
      operation.handleRead ctx input = .ok answer)
    (ctx : InputOutputOperationContext) (eof : Bool) (queue : List Octets) :
    ∃ answer, operation.readQueue ctx eof queue = .ok answer := by
  cases queue with
  | nil => cases eof <;> simp [readQueue]
  | cons buffer queue =>
      obtain ⟨⟨consumed, ctx'⟩, hread⟩ := htotal ctx buffer
      simp only [readQueue, hread]
      split
      · exact joinQueue_total htotal _ _ _ _
      · exact ⟨_, rfl⟩

end InputOutputOperation

namespace InterpreterContext

theorem handleRead_nil {context : InterpreterContext}
    (h : context.inputBuffer = []) :
    context.handleRead =
      if context.eof then
        .ok (.unblocked,
          { context with interpreter := context.interpreter.handleEof })
      else .ok (.stillBlocked, context) := by
  cases context
  subst h
  rfl

theorem handleRead_cons {context : InterpreterContext} {buffer : Octets}
    {queue : List Octets} (h : context.inputBuffer = buffer :: queue) :
    context.handleRead =
      match context.interpreter.handleRead buffer with
      | .error fault => .error fault
      | .ok (consumed, interpreter) =>
          if consumed = 0 then
            { context with interpreter := interpreter }.joinBuffers buffer
              false queue
          else
            .ok (.unblocked, { context with
              interpreter := interpreter
              inputBuffer := pushFrontUnconsumed buffer consumed queue }) := by
  cases context
  subst h
  rfl

/-- A pass whose step blocks on input. -/
theorem pass_blocked {context : InterpreterContext} {errno errno' : Errno}
    {interpreter : Interpreter} (hrunning : context.exited = false)
    (hstep : context.interpreter.step errno =
      .ok (.blocked, interpreter, errno')) :
    context.pass errno =
      ({ context with
        interpreter := interpreter }.handleBlockedInterpreter).map
          fun (result, context) => (.blocked result, context, errno') := by
  unfold pass
  rw [if_neg (by simp [hrunning]), hstep]

end InterpreterContext

/-- What stays the same while the operation of the active frame reads. -/
structure Reader where
  operation : InputOutputOperation
  children : List OpTreeNode
  accumulator : List Value
  frames : List ExecutionStackFrame
  base : InterpreterContext
  ready : operation.arity ≤ accumulator.length
  running : base.exited = false

namespace Reader

def frame (r : Reader) (ctx : InputOutputOperationContext) :
    ExecutionStackFrame :=
  ⟨.mk (.inputOutput r.operation) r.children, r.accumulator,
    .inputOutput ctx⟩

def top (r : Reader) (ctx : InputOutputOperationContext)
    (result : OperationResult) : Continuation :=
  { r.base.interpreter.top with
    stack := r.frame ctx :: r.frames, result := result }

def context (r : Reader) (ctx : InputOutputOperationContext)
    (queue : List Octets) (result : OperationResult) : InterpreterContext :=
  { r.base with
    interpreter := ⟨r.top ctx result, r.base.interpreter.suspended⟩
    inputBuffer := queue }

@[simp] theorem frame_hasArgumentsReady (r : Reader)
    (ctx : InputOutputOperationContext) :
    (r.frame ctx).hasArgumentsReady = true := by
  simp only [frame, ExecutionStackFrame.hasArgumentsReady,
    OpTreeNode.operation, Operation.arity]
  exact decide_eq_true r.ready

@[simp] theorem top_inputOutput (r : Reader)
    (ctx : InputOutputOperationContext) (result : OperationResult) :
    (r.top ctx result).inputOutput? = some (r.operation, ctx) := rfl

@[simp] theorem top_setInputOutput (r : Reader)
    (ctx ctx' : InputOutputOperationContext) (result : OperationResult) :
    (r.top ctx result).setInputOutput ctx' = r.top ctx' result := rfl

theorem interpreter_handleRead (r : Reader)
    (ctx : InputOutputOperationContext) (queue : List Octets)
    (result : OperationResult) (input : Octets) :
    (r.context ctx queue result).interpreter.handleRead input =
      (r.operation.handleRead ctx input).map fun (consumed, ctx') =>
        (consumed, (r.context ctx' queue result).interpreter) := by
  simp only [context, Interpreter.handleRead, Continuation.handleRead,
    top_inputOutput, top_setInputOutput]
  cases r.operation.handleRead ctx input <;> rfl

theorem joinBuffers_eq (r : Reader) (ctx : InputOutputOperationContext)
    (before queue : List Octets) (result : OperationResult) (joined : Octets)
    (didJoin : Bool) :
    (r.context ctx before result).joinBuffers joined didJoin queue =
      (r.operation.joinQueue ctx joined didJoin queue).map
        fun (report, ctx', queue') =>
          (report, r.context ctx' queue' result) := by
  induction queue generalizing ctx joined didJoin with
  | nil =>
      have hready : (r.context ctx before result).interpreter.top.readyToEvaluate
          = r.operation.readyToEvaluate ctx := rfl
      have hcontext : { r.context ctx before result with
          inputBuffer := [joined] } = r.context ctx [joined] result := rfl
      simp only [InterpreterContext.joinBuffers,
        InputOutputOperation.joinQueue, hcontext, hready]
      cases r.operation.readyToEvaluate ctx <;> cases didJoin <;> rfl
  | cons nextbuffer queue ih =>
      simp only [InterpreterContext.joinBuffers,
        InputOutputOperation.joinQueue, interpreter_handleRead]
      cases r.operation.handleRead ctx (joined ++ nextbuffer) with
      | error fault => rfl
      | ok answer =>
          obtain ⟨consumed, ctx'⟩ := answer
          have hcontext : { r.context ctx before result with
              interpreter := (r.context ctx' before result).interpreter } =
              r.context ctx' before result := rfl
          simp only [Except.map, hcontext]
          split
          · rw [ih]
            rfl
          · rfl

theorem handleRead_eq (r : Reader) (ctx : InputOutputOperationContext)
    (queue : List Octets) (result : OperationResult) :
    (r.context ctx queue result).handleRead =
      (r.operation.readQueue ctx r.base.eof queue).map
        fun (report, ctx', queue') =>
          (report, r.context ctx' queue' result) := by
  cases queue with
  | nil =>
      rw [InterpreterContext.handleRead_nil rfl,
        InputOutputOperation.readQueue]
      cases heof : r.base.eof with
      | false =>
          rw [if_neg (by simpa [context] using heof), if_neg (by simp)]
          rfl
      | true =>
          rw [if_pos (by simpa [context] using heof), if_pos rfl]
          rfl
  | cons buffer queue =>
      rw [InterpreterContext.handleRead_cons rfl,
        InputOutputOperation.readQueue, interpreter_handleRead]
      cases r.operation.handleRead ctx buffer with
      | error fault => rfl
      | ok answer =>
          obtain ⟨consumed, ctx'⟩ := answer
          have hcontext : { r.context ctx (buffer :: queue) result with
              interpreter :=
                (r.context ctx' (buffer :: queue) result).interpreter } =
              r.context ctx' (buffer :: queue) result := rfl
          simp only [Except.map]
          rw [hcontext]
          split
          · rw [joinBuffers_eq]
            rfl
          · rfl

theorem prepare_top (r : Reader) (ctx : InputOutputOperationContext)
    (result : OperationResult) :
    (r.top ctx result).prepare = .ok (.ready, r.top ctx result) :=
  Continuation.prepare_of_ready rfl (r.frame_hasArgumentsReady ctx)

theorem step_eq (r : Reader) {ctx : InputOutputOperationContext}
    {errno : Errno} (queue : List Octets) (result : OperationResult)
    (hready : r.operation.readyToEvaluate ctx = false) :
    (r.context ctx queue result).interpreter.step errno =
      .ok (.blocked,
        (r.context ctx queue (.blocked .waitingForRead)).interpreter,
        errno) := by
  have h : r.operation.apply ctx r.accumulator errno =
      .ok ⟨.blocked .waitingForRead, ctx, errno⟩ :=
    InputOutputOperation.apply_waitingForRead_iff.mpr ⟨hready, rfl, rfl⟩
  have hexecute : (r.top ctx result).executeTop errno =
      .ok (.blocked, r.top ctx (.blocked .waitingForRead), errno) := by
    simp only [Continuation.executeTop, top, frame, ExecutionStackFrame.execute,
      OpTreeNode.operation, h, Except.map]
  simp only [Interpreter.step, context, Continuation.step, prepare_top,
    hexecute]
  rfl

/-- A pass over a context whose active operation is still blocked. -/
theorem pass_eq (r : Reader) {ctx : InputOutputOperationContext}
    (errno : Errno) (queue : List Octets) (result : OperationResult)
    (hready : r.operation.readyToEvaluate ctx = false) :
    (r.context ctx queue result).pass errno =
      (r.operation.readQueue ctx r.base.eof queue).map
        fun (report, ctx', queue') =>
          (.blocked report,
            r.context ctx' queue' (.blocked .waitingForRead), errno) := by
  have hrunning : (r.context ctx queue result).exited = false := r.running
  have hblocked : { r.context ctx queue result with
      interpreter := (r.context ctx queue
        (.blocked .waitingForRead)).interpreter }.handleBlockedInterpreter =
      (r.context ctx queue (.blocked .waitingForRead)).handleRead := rfl
  rw [InterpreterContext.pass_blocked hrunning (r.step_eq queue result hready),
    hblocked, r.handleRead_eq]
  cases r.operation.readQueue ctx r.base.eof queue <;> rfl

theorem waitsForRead (r : Reader) {ctx : InputOutputOperationContext}
    (queue : List Octets) (result : OperationResult) (errno : Errno)
    (hready : r.operation.readyToEvaluate ctx = false) :
    (RunnerState.mk (r.context ctx queue result) errno).WaitsForRead :=
  ⟨r.running, _, errno, r.step_eq queue result hready, rfl⟩

end Reader

theorem Continuation.step_waitingForRead {c c' : Continuation}
    {errno errno' : Errno} (h : c.step errno = .ok (.blocked, c', errno'))
    (hresult : c'.result = .blocked .waitingForRead) :
    ∃ operation children accumulator ctx frames,
      c.prepare = .ok (.ready, { c with
        stack := ⟨.mk (.inputOutput operation) children, accumulator,
          .inputOutput ctx⟩ :: frames }) ∧
      operation.arity ≤ accumulator.length ∧
      operation.readyToEvaluate ctx = false := by
  cases hprepare : c.prepare with
  | error fault => simp [step, hprepare] at h
  | ok answer =>
      obtain ⟨state, prepared⟩ := answer
      rcases prepare_ready hprepare with
        ⟨_, rfl, _⟩ | ⟨frame, frames, rfl, rfl, hready⟩
      · simp [step, hprepare] at h
      · simp only [step, hprepare, executeTop] at h
        split at h
        · contradiction
        · rename_i hexecute
          simp only [Except.ok.injEq, Prod.mk.injEq, true_and] at h
          obtain ⟨rfl, rfl⟩ := h
          obtain rfl := OperationResult.blocked.inj hresult
          obtain ⟨operation, children, ctx, hframe, hblocked⟩ :=
            ExecutionStackFrame.execute_waitingForRead hexecute
          rw [hframe] at hready ⊢
          refine ⟨operation, children, _, ctx, frames, rfl, ?_, hblocked⟩
          exact of_decide_eq_true hready
        · split at h <;> simp at h

/-- A step that ends up blocked was made by the active continuation. -/
theorem Interpreter.step_blocked {i i' : Interpreter}
    {errno errno' : Errno} (h : i.step errno = .ok (.blocked, i', errno')) :
    i.top.step errno = .ok (.blocked, i'.top, errno') ∧
      i'.suspended = i.suspended := by
  have hprepared : ∀ {c c' : Continuation} {state : ContinuationState},
      c.prepare = .ok (state, c') → state ≠ .blocked := by
    intro c c' state hprepare
    rcases Continuation.prepare_ready hprepare with
      ⟨_, rfl, _⟩ | ⟨_, _, rfl, _⟩ <;> simp
  simp only [step] at h
  split at h
  · contradiction
  · rename_i top errno'' hstep
    split at h
    · obtain ⟨⟨state, callee⟩, hinvoke, heq⟩ := map_eq_ok h
      simp only [Prod.mk.injEq] at heq
      simp only [invoke] at hinvoke
      split at hinvoke
      · contradiction
      · split at hinvoke
        · contradiction
        · split at hinvoke
          · contradiction
          · split at hinvoke
            · contradiction
            · rename_i hprepare
              simp only [Except.ok.injEq, Prod.mk.injEq] at hinvoke
              exact absurd (hinvoke.1.trans heq.1) (hprepared hprepare)
      · contradiction
    · simp only [Except.ok.injEq, Prod.mk.injEq, true_and] at h
      obtain ⟨rfl, rfl⟩ := h
      exact ⟨hstep, rfl⟩
  · split at h
    · contradiction
    · split at h
      · simp at h
      · obtain ⟨⟨state, invoker⟩, hreturn, heq⟩ := map_eq_ok h
        simp only [Prod.mk.injEq] at heq
        simp only [returnTo] at hreturn
        split at hreturn
        · contradiction
        · rename_i hprepare
          simp only [Except.ok.injEq, Prod.mk.injEq] at hreturn
          exact absurd (hreturn.1.trans heq.1) (hprepared hprepare)
  · rename_i hnotblocked _ _
    simp only [Except.ok.injEq, Prod.mk.injEq] at h
    obtain ⟨rfl, rfl, rfl⟩ := h
    exact (hnotblocked rfl).elim

/-- A state that waits for input is one whose active frame reads and is not
ready. -/
theorem RunnerState.WaitsForRead.exists_reader {s : RunnerState}
    (h : s.WaitsForRead) :
    ∃ (r : Reader) (ctx : InputOutputOperationContext),
      r.base = s.context ∧ r.operation.readyToEvaluate ctx = false ∧
      s.context.interpreter.top.prepare =
        .ok (.ready, r.top ctx s.context.interpreter.top.result) := by
  obtain ⟨hrunning, interpreter, errno, hstep, hresult⟩ := h
  obtain ⟨operation, children, accumulator, ctx, frames, hprepare, harity,
    hready⟩ := Continuation.step_waitingForRead
      (Interpreter.step_blocked hstep).1 hresult
  exact ⟨⟨operation, children, accumulator, frames, s.context, harity,
    hrunning⟩, ctx, rfl, hready, hprepare⟩

/-- A context and the same context with its stack prepared pass alike. -/
theorem InterpreterContext.pass_eq_of_prepare {context : InterpreterContext}
    {top : Continuation} (hrunning : context.exited = false)
    (h : context.interpreter.top.prepare = .ok (.ready, top)) (errno : Errno) :
    context.pass errno =
      ({ context with
        interpreter := ⟨top, context.interpreter.suspended⟩ }.pass errno) := by
  have hstep : context.interpreter.step errno =
      Interpreter.step ⟨top, context.interpreter.suspended⟩ errno := by
    simp only [Interpreter.step, Continuation.step_eq_of_prepare h]
  unfold pass
  rw [if_neg (by simp [hrunning]), if_neg (by simp [hrunning]), hstep]

/-- The operation of the active frame once the stack is prepared. -/
def InterpreterContext.activeRead (context : InterpreterContext) :
    Option (InputOutputOperation × InputOutputOperationContext) :=
  match context.interpreter.top.prepare with
  | .ok (_, top) => top.inputOutput?
  | .error _ => none

theorem Reader.activeRead_eq (r : Reader) (ctx : InputOutputOperationContext)
    (queue : List Octets) (result : OperationResult) :
    (r.context ctx queue result).activeRead = some (r.operation, ctx) := by
  simp only [InterpreterContext.activeRead, context, prepare_top,
    top_inputOutput]

/-- The active operation of a state that waits, and what a pass does. -/
theorem RunnerState.WaitsForRead.pass_eq {s : RunnerState}
    (h : s.WaitsForRead) :
    ∃ (r : Reader) (ctx : InputOutputOperationContext),
      s.context.activeRead = some (r.operation, ctx) ∧
      r.operation.readyToEvaluate ctx = false ∧
      r.base = s.context ∧
      s.pass = (r.operation.readQueue ctx s.context.eof
        s.context.inputBuffer).map fun (_, ctx', queue') =>
          ⟨r.context ctx' queue' (.blocked .waitingForRead), s.errno⟩ := by
  obtain ⟨r, ctx, hbase, hready, hprepare⟩ := h.exists_reader
  refine ⟨r, ctx, ?_, hready, hbase, ?_⟩
  · simp only [InterpreterContext.activeRead, hprepare,
      Reader.top_inputOutput]
  · have hcontext : { s.context with interpreter :=
        ⟨r.top ctx s.context.interpreter.top.result,
          s.context.interpreter.suspended⟩ } =
        r.context ctx s.context.inputBuffer
          s.context.interpreter.top.result := by
      rw [Reader.context, hbase]
    rw [RunnerState.pass,
      InterpreterContext.pass_eq_of_prepare h.1 hprepare, hcontext,
      r.pass_eq _ _ _ hready, hbase]
    cases r.operation.readQueue ctx s.context.eof s.context.inputBuffer <;> rfl

theorem Reader.waitsForRead_iff (r : Reader)
    (ctx : InputOutputOperationContext) (queue : List Octets)
    (result : OperationResult) (errno : Errno) :
    (RunnerState.mk (r.context ctx queue result) errno).WaitsForRead ↔
      r.operation.readyToEvaluate ctx = false := by
  constructor
  · intro h
    obtain ⟨r', ctx', hactive, hready, _, _⟩ := h.pass_eq
    rw [r.activeRead_eq] at hactive
    obtain ⟨hop, rfl⟩ := Prod.mk.inj (Option.some.inj hactive)
    rw [hop]
    exact hready
  · exact r.waitsForRead queue result errno

end NetworkProtocolDsl
