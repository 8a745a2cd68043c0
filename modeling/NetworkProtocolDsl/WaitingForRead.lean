/-
What waiting for input means.

An evaluation blocks on input only at an operation that reads, and exactly if
that operation is not ready to evaluate.
-/
import NetworkProtocolDsl.ExecutionStackFrame

namespace NetworkProtocolDsl

theorem writeContents_not_waitingForRead (contents : Octets)
    (ctx : InputOutputOperationContext) :
    (writeContents contents ctx).1 ≠ .blocked .waitingForRead := by
  grind [writeContents]

theorem WriteOctets.apply_not_waitingForRead
    (ctx : InputOutputOperationContext) (value : Value) :
    (WriteOctets.apply ctx value).1 ≠ .blocked .waitingForRead := by
  have hcontents := writeContents_not_waitingForRead
  cases value <;> grind [WriteOctets.apply]

theorem WriteOctetsWithEscape.apply_not_waitingForRead (escape : EscapeInfo)
    (ctx ctx' : InputOutputOperationContext) (value : Value) :
    WriteOctetsWithEscape.apply escape ctx value ≠
      .ok (.blocked .waitingForRead, ctx') := by
  have hcontents := writeContents_not_waitingForRead
  cases value <;> grind [WriteOctetsWithEscape.apply]

theorem WriteInt32Native.apply_not_waitingForRead
    (ctx ctx' : InputOutputOperationContext) (value : Value) :
    WriteInt32Native.apply ctx value ≠
      .ok (.blocked .waitingForRead, ctx') := by
  have hcontents := writeContents_not_waitingForRead
  cases value <;> grind [WriteInt32Native.apply]

/-- The lookahead waits exactly if no condition holds and some condition may
still come to hold. -/
theorem TransitionLookahead.select_blocked_iff
    (ctx : InputOutputOperationContext)
    (conditions : List (TransitionCondition × Octets)) (invalid : Bool) :
    select ctx conditions invalid = .blocked .waitingForRead ↔
      (conditions.any fun condition => (matchCondition ctx condition.1).1) =
          false ∧
        (invalid && conditions.all fun condition =>
          (matchCondition ctx condition.1).2) = false := by
  induction conditions generalizing invalid with
  | nil => cases invalid <;> simp [select]
  | cons condition conditions ih =>
      obtain ⟨condition, target⟩ := condition
      cases hvalid : (matchCondition ctx condition).1 <;>
        simp [select, hvalid, ih, Bool.and_assoc]

theorem TransitionLookahead.apply_blocked_iff
    (conditions : List (TransitionCondition × Octets))
    (ctx : InputOutputOperationContext) :
    apply conditions ctx = .blocked .waitingForRead ↔
      readyToEvaluate conditions ctx = false := by
  simp [apply, readyToEvaluate, select_blocked_iff]

/-- `ready_to_evaluate` tells whether an evaluation would wait for input, and
an evaluation that waits leaves the context and `errno` alone. -/
theorem InputOutputOperation.apply_waitingForRead_iff
    {operation : InputOutputOperation}
    {ctx ctx' : InputOutputOperationContext} {args : List Value}
    {errno errno' : Errno} :
    operation.apply ctx args errno =
        .ok ⟨.blocked .waitingForRead, ctx', errno'⟩ ↔
      operation.readyToEvaluate ctx = false ∧ ctx' = ctx ∧ errno' = errno := by
  cases operation with
  | readInt32Native =>
      grind [apply, readyToEvaluate, ReadInt32Native.apply,
        ReadInt32Native.readyToEvaluate]
  | readOctetsUntilTerminator terminator escape =>
      grind [apply, readyToEvaluate, ReadOctetsUntilTerminator.apply,
        ReadOctetsUntilTerminator.readyToEvaluate]
  | readStaticOctets contents =>
      grind [apply, readyToEvaluate, ReadStaticOctets.apply,
        ReadStaticOctets.readyToEvaluate]
  | terminateListIfReadAhead terminator =>
      grind [apply, readyToEvaluate, TerminateListIfReadAhead.apply,
        TerminateListIfReadAhead.readyToEvaluate]
  | transitionLookahead conditions =>
      have hselect := TransitionLookahead.apply_blocked_iff conditions ctx
      grind [apply, readyToEvaluate]
  | readIntFromAscii =>
      grind [apply, readyToEvaluate, ReadIntFromAscii.apply,
        ReadIntFromAscii.readyToEvaluate]
  | writeInt32Native =>
      have hnot := WriteInt32Native.apply_not_waitingForRead ctx
      refine ⟨fun h => ?_, by simp [readyToEvaluate]⟩
      cases args with
      | nil => simp [apply] at h
      | cons value args =>
          obtain ⟨⟨result, after⟩, heq, hanswer⟩ := map_eq_ok h
          obtain ⟨rfl, rfl, rfl⟩ := Evaluation.mk.inj hanswer
          exact absurd heq (hnot _ value)
  | writeOctets =>
      have hnot := WriteOctets.apply_not_waitingForRead ctx
      refine ⟨fun h => ?_, by simp [readyToEvaluate]⟩
      cases args with
      | nil => simp [apply] at h
      | cons value args =>
          simp only [apply, Except.ok.injEq, Evaluation.mk.injEq] at h
          exact absurd h.1 (hnot value)
  | writeOctetsWithEscape escape =>
      have hnot := WriteOctetsWithEscape.apply_not_waitingForRead escape ctx
      refine ⟨fun h => ?_, by simp [readyToEvaluate]⟩
      cases args with
      | nil => simp [apply] at h
      | cons value args =>
          obtain ⟨⟨result, after⟩, heq, hanswer⟩ := map_eq_ok h
          obtain ⟨rfl, rfl, rfl⟩ := Evaluation.mk.inj hanswer
          exact absurd heq (hnot _ value)
  | writeStaticOctets contents =>
      have hnot := writeContents_not_waitingForRead contents ctx
      refine ⟨fun h => ?_, by simp [readyToEvaluate]⟩
      simp only [apply, Except.ok.injEq, Evaluation.mk.injEq] at h
      exact absurd h.1 hnot

theorem TransitionLookahead.select_eq (ctx : InputOutputOperationContext)
    (conditions : List (TransitionCondition × Octets)) (invalid : Bool) :
    (∃ value, TransitionLookahead.select ctx conditions invalid =
      .value value) ∨
      TransitionLookahead.select ctx conditions invalid =
        .blocked .waitingForRead := by
  induction conditions generalizing invalid with
  | nil => cases invalid <;> simp [TransitionLookahead.select]
  | cons condition conditions ih =>
      obtain ⟨condition, target⟩ := condition
      cases hvalid : (TransitionLookahead.matchCondition ctx condition).1 with
      | true =>
          left
          exact ⟨.octets target, by
            simp [TransitionLookahead.select, hvalid]⟩
      | false =>
          simpa [TransitionLookahead.select, hvalid] using ih _

namespace InputOutputOperation

/-- The operation reads, and takes no arguments. -/
def Reads : InputOutputOperation → Prop
  | .readInt32Native | .readIntFromAscii | .readOctetsUntilTerminator _ _
  | .readStaticOctets _ | .terminateListIfReadAhead _
  | .transitionLookahead _ => True
  | .writeInt32Native | .writeOctets | .writeOctetsWithEscape _
  | .writeStaticOctets _ => False

instance : DecidablePred Reads := fun operation => by
  cases operation <;> dsimp only [Reads] <;> infer_instance

variable {operation : InputOutputOperation}

theorem Reads.arity (h : operation.Reads) : operation.arity = 0 := by
  cases operation <;> first | rfl | exact h.elim

/-- A read yields a value or waits for input. -/
theorem Reads.apply_eq (h : operation.Reads) (ctx : InputOutputOperationContext)
    (args : List Value) (errno : Errno) :
    ∃ result errno', operation.apply ctx args errno =
        .ok ⟨result, ctx, errno'⟩ ∧
      ((∃ value, result = .value value) ∨
        result = .blocked .waitingForRead) := by
  cases operation with
  | readInt32Native =>
      refine ⟨_, errno, rfl, ?_⟩
      grind [ReadInt32Native.apply]
  | readIntFromAscii =>
      refine ⟨(ReadIntFromAscii.apply ctx errno).1,
        (ReadIntFromAscii.apply ctx errno).2, rfl, ?_⟩
      grind [ReadIntFromAscii.apply]
  | readOctetsUntilTerminator terminator escape =>
      refine ⟨_, errno, rfl, ?_⟩
      grind [ReadOctetsUntilTerminator.apply]
  | readStaticOctets contents =>
      refine ⟨_, errno, rfl, ?_⟩
      grind [ReadStaticOctets.apply]
  | terminateListIfReadAhead terminator =>
      refine ⟨_, errno, rfl, ?_⟩
      grind [TerminateListIfReadAhead.apply]
  | transitionLookahead conditions =>
      exact ⟨_, errno, rfl, TransitionLookahead.select_eq ctx conditions true⟩
  | writeInt32Native | writeOctets | writeOctetsWithEscape _
  | writeStaticOctets _ => exact h.elim

/-- A read that is ready yields a value. -/
theorem Reads.apply_ready (h : operation.Reads)
    {ctx : InputOutputOperationContext}
    (hready : operation.readyToEvaluate ctx = true) (args : List Value)
    (errno : Errno) : ∃ value errno', operation.apply ctx args errno =
      .ok ⟨.value value, ctx, errno'⟩ := by
  obtain ⟨result, errno', happly, hvalue | rfl⟩ := h.apply_eq ctx args errno
  · obtain ⟨value, rfl⟩ := hvalue
    exact ⟨value, errno', happly⟩
  · rw [(apply_waitingForRead_iff.mp happly).1] at hready
    contradiction

/-- A read is ready exactly if evaluating it does not wait for input,
whatever it has been handed and whether or not the input has ended. -/
theorem Reads.readyToEvaluate_iff (h : operation.Reads)
    (ctx : InputOutputOperationContext) (args : List Value) (errno : Errno) :
    ∃ result errno', operation.apply ctx args errno =
        .ok ⟨result, ctx, errno'⟩ ∧
      (operation.readyToEvaluate ctx = true ↔
        result ≠ .blocked .waitingForRead) := by
  obtain ⟨result, errno', happly, hresult⟩ := h.apply_eq ctx args errno
  refine ⟨result, errno', happly, fun hready hwaits => ?_, fun hdone => ?_⟩
  · rw [hwaits] at happly
    have hnot := (apply_waitingForRead_iff.mp happly).1
    rw [hnot] at hready
    contradiction
  · cases hready : operation.readyToEvaluate ctx with
    | true => rfl
    | false =>
        have hwaits : operation.apply ctx args errno =
            .ok ⟨.blocked .waitingForRead, ctx, errno⟩ :=
          apply_waitingForRead_iff.mpr ⟨hready, rfl, rfl⟩
        rw [hwaits] at happly
        obtain ⟨hresult, _⟩ := Evaluation.mk.inj (Except.ok.inj happly)
        exact absurd hresult.symm hdone

theorem readyToEvaluate_iff_tag :
    ∃ result errno', (readStaticOctets [0, 1]).apply
        { buffer := [0, 1], eof := false } [] 0 =
        .ok ⟨result, { buffer := [0, 1], eof := false }, errno'⟩ ∧
      ((readStaticOctets [0, 1]).readyToEvaluate
          { buffer := [0, 1], eof := false } = true ↔
        result ≠ .blocked .waitingForRead) :=
  Reads.readyToEvaluate_iff
    (show (readStaticOctets [0, 1]).Reads from trivial) _ [] 0

end InputOutputOperation

theorem FunctionCall.start_not_waitingForRead
    (ctx ctx' : ControlFlowOperationContext) (callable arglist : Value) :
    start ctx callable arglist ≠ .ok (.blocked .waitingForRead, ctx') := by
  unfold start
  split <;> simp

theorem FunctionCallForEach.start_not_waitingForRead
    (ctx ctx' : ControlFlowOperationContext) (callable arglist : Value) :
    start ctx callable arglist ≠ .ok (.blocked .waitingForRead, ctx') := by
  unfold start
  split <;> simp

theorem GenerateList.apply_not_waitingForRead
    (ctx ctx' : ControlFlowOperationContext) (callable : Value) :
    apply ctx callable ≠ .ok (.blocked .waitingForRead, ctx') := by
  unfold apply
  split
  · split
    · split <;> simp
    · simp
  · split <;> simp

theorem If.start_not_waitingForRead (ctx ctx' : ControlFlowOperationContext)
    (condition thenBranch elseBranch : Value) :
    start ctx condition thenBranch elseBranch ≠
      .ok (.blocked .waitingForRead, ctx') := by
  unfold start
  split <;> simp

theorem StateMachineOperation.startTransitionCallback_not_waitingForRead
    (ctx ctx' : ControlFlowOperationContext) (info : ProcessingInfo) :
    startTransitionCallback ctx info ≠
      .ok (.blocked .waitingForRead, ctx') := by
  unfold startTransitionCallback
  split <;> simp

theorem StateMachineOperation.processStateReturn_not_waitingForRead
    (states : StateMap) (ctx ctx' : ControlFlowOperationContext)
    (info : ProcessingInfo) (value : Value) :
    processStateReturn ctx states info value ≠
      .ok (.blocked .waitingForRead, ctx') := by
  have hstart := startTransitionCallback_not_waitingForRead
  unfold processStateReturn
  split
  · unfold processStateReturnWithArgs
    split
    · split
      · simp
      · dsimp only
        split
        · simp
        · split
          · simp
          · exact hstart _ _ _
    · simp
  · simp
  · simp

theorem StateMachineOperation.processTransitionReturn_not_waitingForRead
    (ctx ctx' : ControlFlowOperationContext) (info : ProcessingInfo)
    (value : Value) :
    processTransitionReturn ctx info value ≠
      .ok (.blocked .waitingForRead, ctx') := by
  unfold processTransitionReturn
  split <;> simp [startStateCallback]

theorem StateMachineOperation.apply_not_waitingForRead (states : StateMap)
    (ctx ctx' : ControlFlowOperationContext) :
    apply states ctx ≠ .ok (.blocked .waitingForRead, ctx') := by
  unfold apply
  split
  · split
    · split
      · split
        · split
          · simp
          · exact processTransitionReturn_not_waitingForRead _ _ _ _
        · exact processStateReturn_not_waitingForRead _ _ _ _ _
      · simp
      · simp
    · simp
  · split <;> simp [startStateCallback]

/-- An operation that invokes callables waits for nothing else. -/
theorem ControlFlowOperation.apply_not_waitingForRead
    (operation : ControlFlowOperation) (ctx ctx' : ControlFlowOperationContext)
    (args : List Value) :
    operation.apply ctx args ≠ .ok (.blocked .waitingForRead, ctx') := by
  unfold apply
  split
  · have hstart := FunctionCall.start_not_waitingForRead ctx
    grind [FunctionCall.apply]
  · have hstart := FunctionCallForEach.start_not_waitingForRead ctx
    grind [FunctionCallForEach.apply]
  · exact GenerateList.apply_not_waitingForRead ctx ctx' _
  · have hstart := If.start_not_waitingForRead ctx
    grind [If.apply]
  · exact StateMachineOperation.apply_not_waitingForRead _ ctx ctx'
  · simp

/-- Only a frame that reads can wait for input. -/
theorem ExecutionStackFrame.execute_waitingForRead {frame : ExecutionStackFrame}
    {pad pad' : LexicalPad} {errno errno' : Errno} {ctx' : OperationContext}
    (h : frame.execute pad errno =
      .ok ⟨.blocked .waitingForRead, ctx', pad', errno'⟩) :
    ∃ operation children ctx,
      frame = ⟨.mk (.inputOutput operation) children, frame.accumulator,
        .inputOutput ctx⟩ ∧
      operation.readyToEvaluate ctx = false := by
  obtain ⟨⟨operation, children⟩, accumulator, ctx⟩ := frame
  simp only [execute, OpTreeNode.operation] at h
  split at h
  · obtain ⟨value, _, heq⟩ := map_eq_ok h
    simp at heq
  · obtain ⟨⟨result, after⟩, heq, hexecution⟩ := map_eq_ok h
    simp only [Execution.mk.injEq] at hexecution
    obtain ⟨rfl, _⟩ := hexecution
    exact absurd heq
      (ControlFlowOperation.apply_not_waitingForRead _ _ _ _)
  · grind [UnaryCallback.apply]
  · obtain ⟨⟨result, after, errno''⟩, heq, hexecution⟩ := map_eq_ok h
    simp only [Execution.mk.injEq] at hexecution
    obtain ⟨rfl, _⟩ := hexecution
    exact ⟨_, _, _, rfl,
      (InputOutputOperation.apply_waitingForRead_iff.mp heq).1⟩
  · obtain ⟨value, _, heq⟩ := map_eq_ok h
    simp at heq
  · simp at h
  · simp at h

end NetworkProtocolDsl
