/-
The evaluation rules of the single operations.

A read is described on an input queue of one chunk, a write with the end of the
input not announced; an invocation evaluates the callable's tree over its own
pad.
-/
import NetworkProtocolDsl.Evaluation

namespace NetworkProtocolDsl

open Run RunnerState

/-- The queue is one chunk with these bytes, or empty when there are none. -/
def Holds (queue : List Octets) (bytes : Octets) : Prop :=
  queue = [bytes] ∨ queue = [] ∧ bytes = []

namespace Holds

variable {queue : List Octets} {bytes : Octets}

theorem flatten (h : Holds queue bytes) : queue.flatten = bytes := by
  rcases h with rfl | ⟨rfl, rfl⟩ <;> simp

theorem of_ne_nil (h : Holds queue bytes) (hne : bytes ≠ []) :
    queue = [bytes] := by
  rcases h with h | ⟨_, h⟩
  · exact h
  · exact absurd h hne

theorem pushFrontUnconsumed (bytes : Octets) (consumed : Nat) :
    Holds (InterpreterContext.pushFrontUnconsumed bytes consumed [])
      (bytes.drop consumed) := by
  unfold InterpreterContext.pushFrontUnconsumed
  split
  · exact Or.inl rfl
  · exact Or.inr ⟨rfl, List.drop_of_length_le (by omega)⟩

end Holds

theorem strncmpEqual_self (n : Nat) (s : Octets) : strncmpEqual n s s = true := by
  induction n generalizing s with
  | zero => rfl
  | succ n ih =>
      cases s with
      | nil => rfl
      | cons a s => simp [strncmpEqual, ih]

namespace OpTreeNode

variable {eof : Bool} {children : List OpTreeNode} {child : OpTreeNode}
  {w w₁ w' : World} {value : Value}

theorem evaluates_interpreted {operation : InterpretedOperation}
    (harity : operation.arity = 0) (h : operation.apply [] = .ok value) :
    (OpTreeNode.mk (.interpreted operation) children).Evaluates eof w value
      w := by
  have hready : (ExecutionStackFrame.new
      (.mk (.interpreted operation) children)).hasArgumentsReady = true := by
    simp [ExecutionStackFrame.hasArgumentsReady, ExecutionStackFrame.new,
      OpTreeNode.operation, Operation.arity, harity]
  refine .leaf hready
    (.of_execute .none hready ?_ eof)
  simp only [ExecutionStackFrame.execute, ExecutionStackFrame.new,
    OpTreeNode.operation, Operation.initializeContext, h, Except.map]

theorem evaluates_interpreted_unary {operation : InterpretedOperation}
    (harity : operation.arity = 1) {argument : Value}
    (hchild : child.Evaluates eof w argument w')
    (h : operation.apply [argument] = .ok value) :
    (OpTreeNode.mk (.interpreted operation) [child]).Evaluates eof w value
      w' := by
  refine .unary (by rw [Operation.arity, harity]) hchild
    (.of_execute .none ?_ ?_ eof)
  · simp [ExecutionStackFrame.hasArgumentsReady, OpTreeNode.operation,
      Operation.arity, harity]
  · simp only [ExecutionStackFrame.execute, OpTreeNode.operation,
      Operation.initializeContext, h, Except.map]

theorem evaluates_interpreted_binary (operation : InterpretedOperation)
    (harity : operation.arity = 2) {first second : OpTreeNode}
    {lhs rhs : Value} (hfirst : first.Evaluates eof w lhs w₁)
    (hsecond : second.Evaluates eof w₁ rhs w')
    (h : operation.apply [lhs, rhs] = .ok value) :
    (OpTreeNode.mk (.interpreted operation) [first, second]).Evaluates eof w
      value w' := by
  refine .binary (by rw [Operation.arity, harity]) hfirst hsecond
    (.of_execute .none ?_ ?_ eof)
  · simp [ExecutionStackFrame.hasArgumentsReady, OpTreeNode.operation,
      Operation.arity, harity]
  · simp only [ExecutionStackFrame.execute, OpTreeNode.operation,
      Operation.initializeContext, h, Except.map]

theorem evaluates_lexicalPadGet (name : String) :
    (OpTreeNode.mk (.lexicalPad (.lexicalPadGet name)) children).Evaluates eof
      w (w.pad.get name) w :=
  .leaf rfl (.of_execute _ rfl rfl eof)

theorem evaluates_lexicalPadAsDict :
    (OpTreeNode.mk (.lexicalPad .lexicalPadAsDict) children).Evaluates eof w
      w.pad.asDict w :=
  .leaf rfl (.of_execute _ rfl rfl eof)

theorem evaluates_lexicalPadInitialize (name : String)
    (hchild : child.Evaluates eof w value w') :
    (OpTreeNode.mk (.lexicalPad (.lexicalPadInitialize name))
      [child]).Evaluates eof w value
      { w' with pad := w'.pad.initializeLocal name value } :=
  .unary rfl hchild (.of_execute _ rfl rfl eof)

/-- Storing yields the value the name had before. -/
theorem evaluates_lexicalPadSet (name : String)
    (hchild : child.Evaluates eof w value w') :
    (OpTreeNode.mk (.lexicalPad (.lexicalPadSet name)) [child]).Evaluates eof w
      (w'.pad.set name value).1
      { w' with pad := (w'.pad.set name value).2 } :=
  .unary rfl hchild (.of_execute _ rfl rfl eof)

/-- A reading operation that need not wait. -/
theorem evaluates_ready {operation : InputOutputOperation}
    (harity : operation.arity = 0) {ctx : InputOutputOperationContext}
    {errno : Errno} (happly : operation.apply {} [] w.errno =
      .ok ⟨.value value, ctx, errno⟩) :
    (OpTreeNode.mk (.inputOutput operation) children).Evaluates eof w value
      { w with errno := errno } := by
  have hready : (ExecutionStackFrame.new
      (.mk (.inputOutput operation) children)).hasArgumentsReady = true := by
    simp [ExecutionStackFrame.hasArgumentsReady, ExecutionStackFrame.new,
      OpTreeNode.operation, Operation.arity, harity]
  refine .leaf hready (.of_execute (.inputOutput ctx) hready ?_ eof)
  simp only [ExecutionStackFrame.execute, ExecutionStackFrame.new,
    OpTreeNode.operation, Operation.initializeContext, happly, Except.map]

/-- A reading operation that waits and has a value for what one look at the
queue leaves. -/
theorem evaluates_readQueue {operation : InputOutputOperation}
    (harity : operation.arity = 0)
    (hwaits : operation.readyToEvaluate {} = false)
    {report : HandleBlockedResult} {ctx ctx' : InputOutputOperationContext}
    {input : List Octets}
    (hqueue : operation.readQueue {} eof w.input = .ok (report, ctx, input))
    {errno : Errno} (happly : operation.apply ctx [] w.errno =
      .ok ⟨.value value, ctx', errno⟩) :
    (OpTreeNode.mk (.inputOutput operation) children).Evaluates eof w value
      { w with input := input, errno := errno } := by
  have hframe : ∀ ctx, (Site.inputOutputFrame operation children []
      ctx).hasArgumentsReady = true := by
    intro ctx
    simp [ExecutionStackFrame.hasArgumentsReady, Site.inputOutputFrame,
      OpTreeNode.operation, Operation.arity, harity]
  refine .leaf (hframe {}) fun site heof frames result => ?_
  rw [← heof] at hqueue
  have hle : operation.arity ≤ ([] : List Value).length := by
    rw [harity]
    exact Nat.le_refl 0
  have hstep := site.pass_waiting result children hle hwaits frames hqueue
  refine ⟨_, _, _, Leads.single hstep.pass, hframe ctx,
    ⟨.inputOutput ctx', ?_⟩, rfl, rfl⟩
  simp only [Site.inputOutputFrame, ExecutionStackFrame.execute,
    OpTreeNode.operation, happly, Except.map]

/-- A reading operation that waits and is ready once it is offered the only
chunk of the queue. -/
theorem evaluates_read {operation : InputOutputOperation}
    (harity : operation.arity = 0) {bytes : Octets} (hw : w.input = [bytes])
    (hwaits : operation.readyToEvaluate {} = false) {consumed : Nat}
    {ctx ctx' : InputOutputOperationContext}
    (hread : operation.handleRead {} bytes = .ok (consumed, ctx))
    (hready : operation.readyToEvaluate ctx = true) {errno : Errno}
    (happly : operation.apply ctx [] w.errno =
      .ok ⟨.value value, ctx', errno⟩) :
    ∃ input, Holds input (bytes.drop consumed) ∧
      (OpTreeNode.mk (.inputOutput operation) children).Evaluates eof w value
        { w with input := input, errno := errno } := by
  have hqueue : ∃ report input, Holds input (bytes.drop consumed) ∧
      operation.readQueue {} eof w.input = .ok (report, ctx, input) := by
    rw [hw]
    simp only [InputOutputOperation.readQueue, hread]
    by_cases hzero : consumed = 0
    · subst hzero
      simp only [↓reduceIte, InputOutputOperation.joinQueue, hready]
      exact ⟨_, _, Or.inl rfl, rfl⟩
    · rw [if_neg hzero]
      exact ⟨_, _, Holds.pushFrontUnconsumed bytes consumed, rfl⟩
  obtain ⟨report, input, hholds, hqueue⟩ := hqueue
  exact ⟨input, hholds, evaluates_readQueue harity hwaits hqueue happly⟩

/-- A static piece is read where it stands. -/
theorem evaluates_readStaticOctets {contents rest : Octets}
    (hw : Holds w.input (contents ++ rest)) :
    ∃ input, Holds input rest ∧
      (OpTreeNode.mk (.inputOutput (.readStaticOctets contents))
        children).Evaluates eof w (.bool true) { w with input := input } := by
  have hvalue : ∀ buffer : Octets, buffer = contents →
      ReadStaticOctets.apply contents { buffer := buffer } =
        .value (.bool true) := by
    rintro buffer rfl
    rw [ReadStaticOctets.apply, if_neg (Nat.lt_irrefl _),
      if_pos (strncmpEqual_self _ _)]
  by_cases hne : contents = []
  · subst hne
    have happly : (InputOutputOperation.readStaticOctets []).apply {} []
        w.errno = .ok ⟨.value (.bool true), {}, w.errno⟩ := by
      simp only [InputOutputOperation.apply, hvalue [] rfl]
    exact ⟨w.input, by simpa using hw, evaluates_ready rfl happly⟩
  · have hlength := List.length_pos_of_ne_nil hne
    have hqueue := hw.of_ne_nil (by simp [hne])
    have hread : (InputOutputOperation.readStaticOctets contents).handleRead {}
        (contents ++ rest) =
          .ok (contents.length, { buffer := contents }) := by
      simp only [InputOutputOperation.handleRead, ReadStaticOctets.handleRead]
      rw [if_neg (by simp), List.take_left']
      rfl
    have hwaits : (InputOutputOperation.readStaticOctets
        contents).readyToEvaluate {} = false := by
      simp only [InputOutputOperation.readyToEvaluate,
        ReadStaticOctets.readyToEvaluate, List.length_nil, Bool.or_false]
      exact decide_eq_false (by omega)
    have hready : (InputOutputOperation.readStaticOctets
        contents).readyToEvaluate { buffer := contents } = true := by
      simp [InputOutputOperation.readyToEvaluate,
        ReadStaticOctets.readyToEvaluate]
    have happly : (InputOutputOperation.readStaticOctets contents).apply
        { buffer := contents } [] w.errno =
        .ok ⟨.value (.bool true), { buffer := contents }, w.errno⟩ := by
      simp only [InputOutputOperation.apply, hvalue contents rfl]
    obtain ⟨input, hholds, hevaluates⟩ := evaluates_read rfl hqueue hwaits
      hread hready happly
    rw [List.drop_left] at hholds
    exact ⟨input, hholds, hevaluates⟩

/-- A value is read up to its terminator, which is consumed. -/
theorem evaluates_readOctetsUntilTerminator {value terminator rest : Octets}
    (hfirst : Occurrence.first terminator (value ++ terminator) =
      some value.length)
    (hw : w.input = [value ++ terminator ++ rest]) :
    ∃ input, Holds input rest ∧
      (OpTreeNode.mk (.inputOutput (.readOctetsUntilTerminator terminator
        none)) children).Evaluates eof w (.octets value)
        { w with input := input } := by
  have hfirst' := Occurrence.first_append hfirst rest
  have hread : (InputOutputOperation.readOctetsUntilTerminator terminator
      none).handleRead {} (value ++ terminator ++ rest) =
        .ok (value.length + terminator.length,
          { buffer := value, ready := true }) := by
    simp only [InputOutputOperation.handleRead,
      ReadOctetsUntilTerminator.handleRead, hfirst']
    rw [List.append_assoc, List.take_left']
    rfl
  obtain ⟨input, hholds, hevaluates⟩ := evaluates_read rfl hw rfl hread
    rfl rfl
  rw [← List.length_append, List.drop_left] at hholds
  exact ⟨input, hholds, hevaluates⟩

end OpTreeNode

/-- What a write adds to the output: nothing, or one buffer. -/
def emitted (contents : Octets) : List Octets :=
  if contents = [] then [] else [contents]

@[simp] theorem emitted_flatten (contents : Octets) :
    (emitted contents).flatten = contents := by
  unfold emitted
  split
  · rename_i h
    rw [h]
    rfl
  · exact List.flatten_singleton

namespace InputOutputOperation

/-- The operations whose buffer is output. -/
def writes : InputOutputOperation → Bool
  | .writeInt32Native | .writeOctets | .writeOctetsWithEscape _
  | .writeStaticOctets _ => true
  | _ => false

theorem getWriteBuffer_of_writes {operation : InputOutputOperation}
    (h : operation.writes = true) (ctx : InputOutputOperationContext) :
    operation.getWriteBuffer ctx = ctx.buffer.drop ctx.it := by
  cases operation <;> first | rfl | contradiction

theorem handleWrite_of_writes {operation : InputOutputOperation}
    (h : operation.writes = true) (ctx : InputOutputOperationContext)
    (s : Nat) :
    operation.handleWrite ctx s =
      (min s (ctx.buffer.length - ctx.it),
        { ctx with it := ctx.it + min s (ctx.buffer.length - ctx.it) }) := by
  cases operation <;> first | rfl | contradiction

end InputOutputOperation

/-- A pass over a state whose topmost operation wants to write. -/
theorem Site.pass_writing (site : Site) {w : World} (result : OperationResult)
    {operation : InputOutputOperation} (children : List OpTreeNode)
    {accumulator : List Value} (harity : operation.arity ≤ accumulator.length)
    {ctx ctx' : InputOutputOperationContext}
    (happly : operation.apply ctx accumulator w.errno =
      .ok ⟨.blocked .waitingForWrite, ctx', w.errno⟩)
    (hopen : site.base.eof = false) (frames : List ExecutionStackFrame) :
    (site.state (inputOutputFrame operation children accumulator ctx :: frames)
        w result).Steps (.blocked .unblocked)
      (site.state (inputOutputFrame operation children accumulator
          (operation.handleWrite ctx'
            (operation.getWriteBuffer ctx').length).2 :: frames)
        { w with output := w.output ++ [operation.getWriteBuffer ctx'] }
        (.blocked .waitingForWrite)) := by
  have hready : (inputOutputFrame operation children accumulator
      ctx).hasArgumentsReady = true := by
    simp only [ExecutionStackFrame.hasArgumentsReady, inputOutputFrame,
      OpTreeNode.operation, Operation.arity]
    exact decide_eq_true harity
  have hprepare := site.prepare_top (w := w) result hready frames
  have hexecute : (inputOutputFrame operation children accumulator
      ctx).execute w.pad w.errno = .ok ⟨.blocked .waitingForWrite,
        .inputOutput ctx', w.pad, w.errno⟩ := by
    simp only [inputOutputFrame, ExecutionStackFrame.execute,
      OpTreeNode.operation, happly, Except.map]
  have hstep : (site.state
      (inputOutputFrame operation children accumulator ctx :: frames) w
        result).context.interpreter.step w.errno =
      .ok (.blocked, (site.state
        (inputOutputFrame operation children accumulator ctx' :: frames) w
        (.blocked .waitingForWrite)).context.interpreter, w.errno) := by
    simp only [top] at hprepare
    simp only [state, top, Interpreter.step, Continuation.step, hprepare,
      Continuation.executeTop, hexecute]
    rfl
  have hrunning : (site.state
      (inputOutputFrame operation children accumulator ctx :: frames) w
        result).context.exited = false := site.running
  have hpass := InterpreterContext.pass_blocked hrunning hstep
  have hblocked : { (site.state
      (inputOutputFrame operation children accumulator ctx :: frames) w
        result).context with interpreter := (site.state
        (inputOutputFrame operation children accumulator ctx' :: frames) w
        (.blocked .waitingForWrite)).context.interpreter
      }.handleBlockedInterpreter = .ok (site.state
        (inputOutputFrame operation children accumulator ctx' :: frames) w
        (.blocked .waitingForWrite)).context.handleWrite := rfl
  have hwrite : (site.state
      (inputOutputFrame operation children accumulator ctx' :: frames) w
        (.blocked .waitingForWrite)).context.handleWrite = (.unblocked,
      (site.state (inputOutputFrame operation children accumulator
          (operation.handleWrite ctx'
            (operation.getWriteBuffer ctx').length).2 :: frames)
        { w with output := w.output ++ [operation.getWriteBuffer ctx'] }
        (.blocked .waitingForWrite)).context) := by
    have heof : (site.state
        (inputOutputFrame operation children accumulator ctx' :: frames) w
          (.blocked .waitingForWrite)).context.eof = false := hopen
    rw [InterpreterContext.handleWrite, if_neg (by simp [heof])]
    rfl
  rw [hblocked, hwrite] at hpass
  exact hpass

/-- A writing frame emits its contents and yields zero. -/
theorem ExecutionStackFrame.finishes_write (operation : InputOutputOperation)
    (hwrites : operation.writes = true) (children : List OpTreeNode)
    (accumulator : List Value) (harity : operation.arity ≤ accumulator.length)
    (w : World) (contents : Octets)
    (happly : ∀ ctx : InputOutputOperationContext,
      ctx = {} ∨ ctx.buffer = contents ∧ contents ≠ [] →
      operation.apply ctx accumulator w.errno =
        .ok ⟨(writeContents contents ctx).1, (writeContents contents ctx).2,
          w.errno⟩) :
    (Site.inputOutputFrame operation children accumulator {}).Finishes false w
      (.int32 0) { w with output := w.output ++ emitted contents } := by
  have hready : ∀ ctx, (Site.inputOutputFrame operation children accumulator
      ctx).hasArgumentsReady = true := by
    intro ctx
    simp only [ExecutionStackFrame.hasArgumentsReady, Site.inputOutputFrame,
      OpTreeNode.operation, Operation.arity]
    exact decide_eq_true harity
  by_cases hne : contents = []
  · subst hne
    have hfirst := happly {} (Or.inl rfl)
    have hfinishes : (Site.inputOutputFrame operation children accumulator
        {}).Finishes false w (.int32 0) w := by
      refine .of_execute (.inputOutput {}) (hready {}) ?_ false
      simp only [Site.inputOutputFrame, ExecutionStackFrame.execute,
        OpTreeNode.operation, hfirst, Except.map]
      rfl
    simpa [emitted] using hfinishes
  · intro site heof frames result
    have hlength := List.length_pos_of_ne_nil hne
    have hfirst : operation.apply {} accumulator w.errno =
        .ok ⟨.blocked .waitingForWrite, { buffer := contents }, w.errno⟩ := by
      rw [happly {} (Or.inl rfl)]
      simp only [writeContents, List.length_nil, ↓reduceIte]
      rw [if_pos (by omega), if_neg (by simp)]
    have hbuffer : operation.getWriteBuffer { buffer := contents } =
        contents := operation.getWriteBuffer_of_writes hwrites _
    have hafter : (operation.handleWrite { buffer := contents }
        contents.length).2 =
        { buffer := contents, it := contents.length } := by
      rw [InputOutputOperation.handleWrite_of_writes hwrites]
      simp
    have hstep := site.pass_writing result children harity hfirst
      heof frames
    rw [hbuffer, hafter] at hstep
    have hemitted : emitted contents = [contents] := if_neg hne
    refine ⟨_, _, _, Leads.single hstep.pass, hready _,
      ⟨.inputOutput { buffer := contents, it := contents.length }, ?_⟩, rfl,
      by rw [hemitted]⟩
    have hsecond := happly { buffer := contents, it := contents.length }
      (Or.inr ⟨rfl, hne⟩)
    have hdone : writeContents contents
        { buffer := contents, it := contents.length } =
        (.value (.int32 0), { buffer := contents, it := contents.length }) := by
      simp [writeContents, hne]
    rw [hdone] at hsecond
    simp only [Site.inputOutputFrame, ExecutionStackFrame.execute,
      OpTreeNode.operation, hsecond, Except.map]

namespace OpTreeNode

variable {eof : Bool} {children : List OpTreeNode} {child : OpTreeNode}
  {w w₁ w' : World} {value : Value}

theorem evaluates_writeStaticOctets (contents : Octets) :
    (OpTreeNode.mk (.inputOutput (.writeStaticOctets contents))
      children).Evaluates false w (.int32 0)
      { w with output := w.output ++ emitted contents } := by
  refine .leaf rfl (ExecutionStackFrame.finishes_write _ rfl children
    [] (Nat.zero_le _) w contents fun ctx _ => ?_)
  rfl

theorem evaluates_writeOctets {data : Octets}
    (hchild : child.Evaluates false w (.octets data) w') :
    (OpTreeNode.mk (.inputOutput .writeOctets) [child]).Evaluates false w
      (.int32 0) { w' with output := w'.output ++ emitted data } := by
  refine .unary rfl hchild (ExecutionStackFrame.finishes_write
    .writeOctets rfl [child] [.octets data] (Nat.le_refl 1)
    w' data fun ctx hctx => ?_)
  have happly : WriteOctets.apply ctx (.octets data) =
      writeContents data ctx := by
    by_cases hne : data = []
    · subst hne
      rcases hctx with rfl | ⟨_, hne⟩
      · rfl
      · exact absurd rfl hne
    · have hlength := List.length_pos_of_ne_nil hne
      rw [WriteOctets.apply, if_neg (by omega)]
  simp only [InputOutputOperation.apply, happly]

theorem evaluates_writeOctetsWithEscape {escape : EscapeInfo}
    {data escaped : Octets}
    (hescaped : WriteOctetsWithEscape.applyEscapeReplacement data escape =
      .ok escaped)
    (hchild : child.Evaluates false w (.octets data) w') :
    (OpTreeNode.mk (.inputOutput (.writeOctetsWithEscape escape))
      [child]).Evaluates false w (.int32 0)
      { w' with output := w'.output ++ emitted escaped } := by
  refine .unary rfl hchild (ExecutionStackFrame.finishes_write
    (.writeOctetsWithEscape escape) rfl [child] [.octets data] (Nat.le_refl 1)
    w' escaped fun ctx hctx => ?_)
  have happly : WriteOctetsWithEscape.apply escape ctx (.octets data) =
      .ok (writeContents escaped ctx) := by
    by_cases hne : data = []
    · subst hne
      have hnil : escaped = [] := (Except.ok.inj hescaped).symm
      subst hnil
      rcases hctx with rfl | ⟨_, hne⟩
      · rfl
      · exact absurd rfl hne
    · have hlength := List.length_pos_of_ne_nil hne
      rw [WriteOctetsWithEscape.apply, if_neg (by omega)]
      rcases hctx with rfl | ⟨hbuffer, hne'⟩
      · simp only [List.length_nil, ↓reduceIte, hescaped]
      · have hlength' := List.length_pos_of_ne_nil hne'
        rw [hbuffer, if_neg (by omega)]
  simp only [InputOutputOperation.apply, happly, Except.map]

end OpTreeNode

end NetworkProtocolDsl
