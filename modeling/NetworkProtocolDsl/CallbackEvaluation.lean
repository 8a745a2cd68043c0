/-
The frames of `UnaryCallback` during the passes over one interpreter.

A callback is only ever asked by the topmost frame of the active continuation:
every other callback frame has not been asked yet.  A pass leaves it that way,
and only `set_callback_called` and `set_callback_return` change the frame.
-/
import NetworkProtocolDsl.InterpreterExits

namespace NetworkProtocolDsl

/-- A callback frame that has neither called its callback nor got a value. -/
def ExecutionStackFrame.Unasked (frame : ExecutionStackFrame) : Prop :=
  ∀ key, frame.optreenode.operation = .unaryCallback key →
    frame.ctx = .callback {}

def Continuation.Unasked (c : Continuation) : Prop :=
  ∀ frame ∈ c.stack, frame.Unasked

def Interpreter.Unasked (i : Interpreter) : Prop :=
  i.top.Unasked ∧ ∀ c ∈ i.suspended, c.Unasked

/-- The topmost frame evaluates a callback with these arguments; all others are
unasked. -/
def Interpreter.Evaluates (i : Interpreter) (key : String) (args : List Value)
    (ctx : CallbackOperationContext) : Prop :=
  ∃ children frames,
    i.top.stack =
        ⟨.mk (.unaryCallback key) children, args, .callback ctx⟩ :: frames ∧
      args ≠ [] ∧ (∀ frame ∈ frames, frame.Unasked) ∧
      ∀ c ∈ i.suspended, c.Unasked

theorem ExecutionStackFrame.new_unasked (node : OpTreeNode) :
    (ExecutionStackFrame.new node).Unasked := by
  intro key hkey
  simp only [ExecutionStackFrame.new] at hkey ⊢
  rw [hkey]
  rfl

theorem OpTreeNode.descend_unasked {node : OpTreeNode}
    {frames : List ExecutionStackFrame} (h : node.descend = .ok frames) :
    ∀ frame ∈ frames, frame.Unasked := by
  match node, h with
  | .mk operation [], h =>
      simp only [OpTreeNode.descend] at h
      split at h
      · obtain rfl := Except.ok.inj h
        exact List.forall_mem_singleton.mpr (ExecutionStackFrame.new_unasked _)
      · contradiction
  | .mk operation (child :: children), h =>
      simp only [OpTreeNode.descend] at h
      split at h
      · obtain rfl := Except.ok.inj h
        exact List.forall_mem_singleton.mpr (ExecutionStackFrame.new_unasked _)
      · split at h
        · rename_i pushed hchild
          obtain rfl := Except.ok.inj h
          intro frame hframe
          rcases List.mem_append.mp hframe with hframe | hframe
          · exact OpTreeNode.descend_unasked hchild frame hframe
          · rw [List.mem_singleton.mp hframe]
            exact ExecutionStackFrame.new_unasked _
        · contradiction

namespace Continuation

theorem new_unasked (optree : OpTreeNode) (pad : LexicalPad)
    (inherits : Bool) : (Continuation.new optree pad inherits).Unasked :=
  List.forall_mem_singleton.mpr (ExecutionStackFrame.new_unasked optree)

theorem prepare_unasked {c c' : Continuation} {state : ContinuationState}
    (hc : c.Unasked) (h : c.prepare = .ok (state, c')) : c'.Unasked := by
  unfold prepare at h
  split at h
  · obtain ⟨_, rfl⟩ := Prod.mk.inj (Except.ok.inj h)
    exact hc
  · rename_i frame frames hstack
    split at h
    · obtain ⟨_, rfl⟩ := Prod.mk.inj (Except.ok.inj h)
      exact hc
    · split at h
      · contradiction
      · split at h
        · contradiction
        · rename_i pushed hdescend
          obtain ⟨_, rfl⟩ := Prod.mk.inj (Except.ok.inj h)
          intro other hother
          rcases List.mem_append.mp hother with hother | hother
          · exact OpTreeNode.descend_unasked hdescend other hother
          · exact hc other (by rw [hstack]; exact hother)

end Continuation

/-- A result that does not wait for a callback. -/
def OperationResult.NoCallback (result : OperationResult) : Prop :=
  result ≠ .blocked .waitingForCallback ∧
    result ≠ .blocked .waitingCallbackData

theorem writeContents_noCallback (contents : Octets)
    (ctx : InputOutputOperationContext) :
    (writeContents contents ctx).1.NoCallback := by
  grind [writeContents, OperationResult.NoCallback]

theorem WriteOctets.apply_noCallback (ctx : InputOutputOperationContext)
    (value : Value) : (WriteOctets.apply ctx value).1.NoCallback := by
  have hcontents := writeContents_noCallback
  cases value <;> grind [WriteOctets.apply, OperationResult.NoCallback]

theorem WriteOctetsWithEscape.apply_noCallback {escape : EscapeInfo}
    {ctx ctx' : InputOutputOperationContext} {value : Value}
    {result : OperationResult}
    (h : WriteOctetsWithEscape.apply escape ctx value = .ok (result, ctx')) :
    result.NoCallback := by
  have hcontents := writeContents_noCallback
  cases value <;>
    grind [WriteOctetsWithEscape.apply, OperationResult.NoCallback]

theorem WriteInt32Native.apply_noCallback
    {ctx ctx' : InputOutputOperationContext} {value : Value}
    {result : OperationResult}
    (h : WriteInt32Native.apply ctx value = .ok (result, ctx')) :
    result.NoCallback := by
  have hcontents := writeContents_noCallback
  cases value <;> grind [WriteInt32Native.apply, OperationResult.NoCallback]

theorem TransitionLookahead.select_noCallback
    (ctx : InputOutputOperationContext)
    (conditions : List (TransitionCondition × Octets)) (invalid : Bool) :
    (select ctx conditions invalid).NoCallback := by
  induction conditions generalizing invalid with
  | nil => grind [select, OperationResult.NoCallback]
  | cons condition conditions ih =>
      unfold select
      simp only
      split
      · grind [OperationResult.NoCallback]
      · exact ih _

theorem InputOutputOperation.apply_noCallback
    {operation : InputOutputOperation} {ctx : InputOutputOperationContext}
    {args : List Value} {errno : Errno} {evaluation : Evaluation}
    (h : operation.apply ctx args errno = .ok evaluation) :
    evaluation.result.NoCallback := by
  unfold apply at h
  split at h
  · obtain rfl := Except.ok.inj h
    grind [ReadInt32Native.apply, OperationResult.NoCallback]
  · obtain rfl := Except.ok.inj h
    grind [ReadIntFromAscii.apply, OperationResult.NoCallback]
  · obtain rfl := Except.ok.inj h
    grind [ReadOctetsUntilTerminator.apply, OperationResult.NoCallback]
  · obtain rfl := Except.ok.inj h
    grind [ReadStaticOctets.apply, OperationResult.NoCallback]
  · obtain rfl := Except.ok.inj h
    grind [TerminateListIfReadAhead.apply, OperationResult.NoCallback]
  · obtain rfl := Except.ok.inj h
    exact TransitionLookahead.select_noCallback ctx _ true
  · obtain ⟨⟨result, after⟩, happly, rfl⟩ := map_eq_ok h
    exact WriteInt32Native.apply_noCallback happly
  · obtain rfl := Except.ok.inj h
    exact WriteOctets.apply_noCallback ctx _
  · obtain ⟨⟨result, after⟩, happly, rfl⟩ := map_eq_ok h
    exact WriteOctetsWithEscape.apply_noCallback happly
  · obtain rfl := Except.ok.inj h
    exact writeContents_noCallback _ ctx
  · contradiction

/-- What a control flow operation answers does not wait for a callback. -/
def ControlFlowResult.NoCallback (answer : ControlFlowResult) : Prop :=
  ∀ result ctx, answer = .ok (result, ctx) → result.NoCallback

theorem ControlFlowResult.noCallback_ok {result : OperationResult}
    (ctx : ControlFlowOperationContext) (h : result.NoCallback) :
    ControlFlowResult.NoCallback (.ok (result, ctx)) := by
  rintro _ _ heq
  rw [← (Prod.mk.inj (Except.ok.inj heq)).1]
  exact h

theorem ControlFlowResult.noCallback_error (fault : Fault) :
    ControlFlowResult.NoCallback (.error fault) := by
  rintro _ _ heq
  contradiction

theorem OperationResult.noCallback_value (value : Value) :
    (OperationResult.value value).NoCallback :=
  ⟨by simp, by simp⟩

theorem OperationResult.noCallback_invocation :
    (OperationResult.blocked .waitingForCallableInvocation).NoCallback :=
  ⟨by simp, by simp⟩

theorem OperationResult.noCallback_result :
    (OperationResult.blocked .waitingForCallableResult).NoCallback :=
  ⟨by simp, by simp⟩

attribute [simp] ControlFlowResult.noCallback_ok
  ControlFlowResult.noCallback_error OperationResult.noCallback_value
  OperationResult.noCallback_invocation OperationResult.noCallback_result

theorem FunctionCall.apply_noCallback (ctx : ControlFlowOperationContext)
    (callable arglist : Value) : (apply ctx callable arglist).NoCallback := by
  unfold apply start
  split
  · split
    · split <;> simp
    · simp
  · split <;> simp

theorem FunctionCallForEach.apply_noCallback
    (ctx : ControlFlowOperationContext) (callable arglist : Value) :
    (apply ctx callable arglist).NoCallback := by
  unfold apply start
  split
  · split
    · split
      · simp only
        split <;> simp
      · simp
    · simp
  · split <;> simp

theorem GenerateList.apply_noCallback (ctx : ControlFlowOperationContext)
    (callable : Value) : (apply ctx callable).NoCallback := by
  unfold apply
  split
  · split
    · split <;> simp
    · simp
  · split <;> simp

theorem If.apply_noCallback (ctx : ControlFlowOperationContext)
    (condition thenBranch elseBranch : Value) :
    (apply ctx condition thenBranch elseBranch).NoCallback := by
  unfold apply start
  split
  · split
    · split <;> simp
    · simp
  · split <;> simp

theorem StateMachineOperation.startTransitionCallback_noCallback
    (ctx : ControlFlowOperationContext) (info : ProcessingInfo) :
    (startTransitionCallback ctx info).NoCallback := by
  unfold startTransitionCallback
  split <;> simp

theorem StateMachineOperation.processStateReturn_noCallback
    (ctx : ControlFlowOperationContext) (states : StateMap)
    (info : ProcessingInfo) (value : Value) :
    (processStateReturn ctx states info value).NoCallback := by
  have hstart := startTransitionCallback_noCallback
  unfold processStateReturn
  split
  · unfold processStateReturnWithArgs
    split
    · split
      · simp
      · simp only
        split
        · simp
        · split
          · simp
          · exact hstart _ _
    · simp
  · simp
  · simp

theorem StateMachineOperation.processTransitionReturn_noCallback
    (ctx : ControlFlowOperationContext) (info : ProcessingInfo)
    (value : Value) : (processTransitionReturn ctx info value).NoCallback := by
  unfold processTransitionReturn
  split <;> simp [startStateCallback]

theorem StateMachineOperation.apply_noCallback (states : StateMap)
    (ctx : ControlFlowOperationContext) : (apply states ctx).NoCallback := by
  unfold apply
  split
  · split
    · split
      · split
        · split
          · simp
          · exact processTransitionReturn_noCallback _ _ _
        · exact processStateReturn_noCallback _ _ _ _
      · simp
      · simp
    · simp
  · split <;> simp [startStateCallback]

theorem ControlFlowOperation.apply_noCallback
    (operation : ControlFlowOperation) (ctx : ControlFlowOperationContext)
    (args : List Value) : (operation.apply ctx args).NoCallback := by
  unfold apply
  split
  · exact FunctionCall.apply_noCallback ctx _ _
  · exact FunctionCallForEach.apply_noCallback ctx _ _
  · exact GenerateList.apply_noCallback ctx _
  · exact If.apply_noCallback ctx _ _ _
  · exact StateMachineOperation.apply_noCallback _ ctx
  · simp

/-- Only a callback waits for one. -/
theorem ExecutionStackFrame.execute_callback {frame : ExecutionStackFrame}
    {pad : LexicalPad} {errno : Errno} {execution : Execution}
    (h : frame.execute pad errno = .ok execution) :
    (∃ key, frame.optreenode.operation = .unaryCallback key) ∨
      execution.result.NoCallback := by
  unfold execute at h
  split at h
  · obtain ⟨value, _, rfl⟩ := map_eq_ok h
    exact Or.inr ⟨by simp, by simp⟩
  · obtain ⟨⟨result, after⟩, happly, rfl⟩ := map_eq_ok h
    exact Or.inr (ControlFlowOperation.apply_noCallback _ _ _ _ _ happly)
  · rename_i key ctx hoperation hctx
    exact Or.inl ⟨key, hoperation⟩
  · obtain ⟨evaluation, happly, rfl⟩ := map_eq_ok h
    exact Or.inr (InputOutputOperation.apply_noCallback happly)
  · obtain ⟨value, _, rfl⟩ := map_eq_ok h
    exact Or.inr ⟨by simp, by simp⟩
  · obtain rfl := Except.ok.inj h
    exact Or.inr ⟨by simp, by simp⟩
  · contradiction

/-- Executing a callback frame leaves its context as it is. -/
theorem ExecutionStackFrame.execute_unaryCallback
    {frame : ExecutionStackFrame} {key : String}
    (hframe : frame.optreenode.operation = .unaryCallback key)
    {pad : LexicalPad} {errno : Errno} {execution : Execution}
    (h : frame.execute pad errno = .ok execution) :
    ∃ ctx, frame.ctx = .callback ctx ∧
      execution = ⟨UnaryCallback.apply ctx, .callback ctx, pad, errno⟩ := by
  unfold execute at h
  rw [hframe] at h
  split at h <;> simp_all

theorem ExecutionStackFrame.unasked_of_execute {frame : ExecutionStackFrame}
    (hframe : frame.Unasked) {pad : LexicalPad} {errno : Errno}
    {execution : Execution} (h : frame.execute pad errno = .ok execution) :
    ExecutionStackFrame.Unasked { frame with ctx := execution.ctx } := by
  intro key hkey
  have hoperation : frame.optreenode.operation = .unaryCallback key := hkey
  obtain ⟨ctx, hctx, rfl⟩ := execute_unaryCallback hoperation h
  have hfresh := hframe key hoperation
  rw [hctx] at hfresh
  exact hfresh

theorem ExecutionStackFrame.pushBack_unasked {frame : ExecutionStackFrame}
    (hframe : frame.Unasked) (value : Value) :
    (frame.pushBack value).Unasked :=
  hframe

namespace Continuation

variable {c c' : Continuation} {state : ContinuationState}
  {errno errno' : Errno}

/-- The topmost frame evaluates a callback. -/
def Evaluates (c : Continuation) (key : String) (args : List Value)
    (ctx : CallbackOperationContext) : Prop :=
  ∃ children frames,
    c.stack =
        ⟨.mk (.unaryCallback key) children, args, .callback ctx⟩ :: frames ∧
      args ≠ [] ∧ ∀ frame ∈ frames, frame.Unasked

/-- Executing an unasked stack leaves it unasked; it waits for a callback only
to call it. -/
theorem executeTop_unasked (hc : c.Unasked)
    (hready : ∀ frame frames, c.stack = frame :: frames →
      frame.hasArgumentsReady = true)
    (h : c.executeTop errno = .ok (state, c', errno')) :
    c'.Unasked ∧ (state = .blocked → c'.result.NoCallback ∨
      c'.result = .blocked .waitingForCallback ∧
        ∃ key args, c'.Evaluates key args {}) := by
  unfold executeTop at h
  split at h
  · obtain ⟨rfl, rfl, _⟩ := by simpa using h
    exact ⟨hc, by simp⟩
  · rename_i frame frames hstack
    have hframe := hc frame (by rw [hstack]; exact List.mem_cons_self)
    have hframes : ∀ other ∈ frames, other.Unasked :=
      fun other hother => hc other (by
        rw [hstack]
        exact List.mem_cons_of_mem frame hother)
    split at h
    · contradiction
    · rename_i reason ctx pad errno'' hexecute
      have hunasked := ExecutionStackFrame.unasked_of_execute hframe hexecute
      obtain ⟨rfl, rfl, _⟩ := by simpa using h
      refine ⟨List.forall_mem_cons.mpr ⟨hunasked, hframes⟩, fun _ => ?_⟩
      rcases ExecutionStackFrame.execute_callback hexecute with
        ⟨key, hkey⟩ | hno
      · right
        obtain ⟨ctx', hctx', heq⟩ :=
          ExecutionStackFrame.execute_unaryCallback hkey hexecute
        have hfresh := hframe key hkey
        rw [hctx'] at hfresh
        obtain rfl := OperationContext.callback.inj hfresh
        obtain ⟨hreason, rfl, _⟩ := Execution.mk.inj heq
        refine ⟨hreason, key, frame.accumulator, ?_⟩
        obtain ⟨⟨operation, children⟩, accumulator, ctx⟩ := frame
        obtain rfl : operation = .unaryCallback key := hkey
        refine ⟨children, frames, rfl, ?_, hframes⟩
        have harguments := hready _ _ hstack
        rintro rfl
        simp [ExecutionStackFrame.hasArgumentsReady, OpTreeNode.operation,
          Operation.arity] at harguments
      · exact Or.inl hno
    · rename_i value ctx pad errno'' hexecute
      split at h
      · obtain ⟨rfl, rfl, _⟩ := by simpa using h
        exact ⟨fun _ h => absurd h List.not_mem_nil, by simp⟩
      · rename_i parent rest
        obtain ⟨rfl, rfl, _⟩ := by simpa using h
        obtain ⟨hparent, hrest⟩ := List.forall_mem_cons.mp hframes
        exact ⟨List.forall_mem_cons.mpr
          ⟨ExecutionStackFrame.pushBack_unasked hparent value, hrest⟩,
          by simp⟩

theorem prepare_hasArgumentsReady
    (h : c.prepare = .ok (.ready, c')) :
    ∀ frame frames, c'.stack = frame :: frames →
      frame.hasArgumentsReady = true := by
  intro frame frames hstack
  rcases prepare_ready h with ⟨_, hstate, _⟩ | ⟨top, below, _, rfl, hready⟩
  · contradiction
  · obtain ⟨rfl, rfl⟩ := List.cons.inj hstack
    exact hready

theorem step_unasked (hc : c.Unasked)
    (h : c.step errno = .ok (state, c', errno')) :
    c'.Unasked ∧ (state = .blocked → c'.result.NoCallback ∨
      c'.result = .blocked .waitingForCallback ∧
        ∃ key args, c'.Evaluates key args {}) := by
  unfold step at h
  split at h
  · contradiction
  · rename_i hprepare
    exact executeTop_unasked (prepare_unasked hc hprepare)
      (prepare_hasArgumentsReady hprepare) h
  · rename_i hnot hprepare
    obtain ⟨rfl, rfl, _⟩ := by simpa using h
    refine ⟨prepare_unasked hc hprepare, fun hblocked => ?_⟩
    rcases prepare_ready hprepare with ⟨_, hexited, _⟩ | ⟨_, _, hready, _, _⟩
    · simp [hexited] at hblocked
    · simp [hready] at hblocked

theorem modifyControlFlow_unasked (hc : c.Unasked)
    (f : ControlFlowOperation → ControlFlowOperationContext →
      ControlFlowOperationContext) : (c.modifyControlFlow f).Unasked := by
  unfold modifyControlFlow
  split
  · rename_i operation children accumulator ctx frames hstack
    intro frame hframe
    rcases List.mem_cons.mp hframe with rfl | hframe
    · intro key hkey
      simp [OpTreeNode.operation] at hkey
    · exact hc frame (by rw [hstack]; exact List.mem_cons_of_mem _ hframe)
  · exact hc

theorem setInputOutput_unasked (hc : c.Unasked)
    {operation : InputOutputOperation} {old : InputOutputOperationContext}
    (hio : c.inputOutput? = some (operation, old))
    (ctx : InputOutputOperationContext) : (c.setInputOutput ctx).Unasked := by
  unfold inputOutput? at hio
  split at hio
  · rename_i operation' children accumulator ctx' frames hstack
    unfold setInputOutput
    rw [hstack]
    intro frame hframe
    rcases List.mem_cons.mp hframe with rfl | hframe
    · intro key hkey
      simp [OpTreeNode.operation] at hkey
    · exact hc frame (by rw [hstack]; exact List.mem_cons_of_mem _ hframe)
  · contradiction

theorem handleRead_unasked (hc : c.Unasked) {input : Octets} {consumed : Nat}
    (h : c.handleRead input = .ok (consumed, c')) : c'.Unasked := by
  unfold handleRead at h
  split at h
  · obtain ⟨_, rfl⟩ := Prod.mk.inj (Except.ok.inj h)
    exact hc
  · rename_i operation ctx hio
    split at h
    · contradiction
    · obtain ⟨_, rfl⟩ := Prod.mk.inj (Except.ok.inj h)
      exact setInputOutput_unasked hc hio _

theorem handleWrite_unasked (hc : c.Unasked) (s : Nat) :
    (c.handleWrite s).2.Unasked := by
  unfold handleWrite
  split
  · exact hc
  · rename_i operation ctx hio
    exact setInputOutput_unasked hc hio _

theorem handleEof_unasked (hc : c.Unasked) : c.handleEof.Unasked := by
  unfold handleEof
  split
  · exact hc
  · rename_i operation ctx hio
    exact setInputOutput_unasked hc hio _

end Continuation

namespace Interpreter

variable {i i' : Interpreter} {state : ContinuationState}
  {errno errno' : Errno} {key : String} {args : List Value} {value : Value}

theorem getInstance_unasked (optree : OpTreeNode) (arglist : Option Value) :
    (getInstance optree arglist).Unasked := by
  cases arglist with
  | none => exact ⟨Continuation.new_unasked _ _ _, by simp [getInstance, new]⟩
  | some argv =>
      exact ⟨Continuation.new_unasked _ _ _, by simp [getInstance, new]⟩

theorem invoke_unasked (hi : i.Unasked) (h : i.invoke = .ok (state, i')) :
    i'.Unasked ∧ state ≠ .blocked := by
  have hinvoker : i.top.setCallableInvoked.Unasked :=
    Continuation.modifyControlFlow_unasked hi.1 _
  unfold invoke at h
  split at h
  · contradiction
  · simp only at h
    split at h
    · contradiction
    · split at h
      · contradiction
      · split at h
        · contradiction
        · rename_i hprepare
          obtain ⟨rfl, rfl⟩ := Prod.mk.inj (Except.ok.inj h)
          have hcallee := Continuation.prepare_unasked
            (Continuation.new_unasked _ _ _) hprepare
          constructor
          · exact ⟨hcallee, List.forall_mem_cons.mpr ⟨hinvoker, hi.2⟩⟩
          · rcases Continuation.prepare_ready hprepare with
              ⟨_, hstate, _⟩ | ⟨_, _, hstate, _⟩
            · simp [hstate]
            · simp [hstate]
  · contradiction

theorem returnTo_unasked {invoker : Continuation}
    {suspended : List Continuation} (hinvoker : invoker.Unasked)
    (hsuspended : ∀ c ∈ suspended, c.Unasked)
    (h : i.returnTo value invoker suspended = .ok (state, i')) :
    i'.Unasked ∧ state ≠ .blocked := by
  unfold returnTo at h
  simp only at h
  split at h
  · contradiction
  · rename_i hprepare
    obtain ⟨rfl, rfl⟩ := Prod.mk.inj (Except.ok.inj h)
    have htop := Continuation.prepare_unasked
      (Continuation.modifyControlFlow_unasked
        (c := { invoker with
          pad := LexicalPad.afterCall i.top.inheritsLexicalPad invoker.pad
            i.top.pad, result := .value value }) hinvoker _) hprepare
    constructor
    · exact ⟨htop, hsuspended⟩
    · rcases Continuation.prepare_ready hprepare with
        ⟨_, hstate, _⟩ | ⟨_, _, hstate, _⟩
      · simp [hstate]
      · simp [hstate]

/-- What a step of the topmost continuation makes a step of the interpreter
do. -/
theorem step_of_top {top : Continuation} {state₁ : ContinuationState}
    (htop : i.top.step errno = .ok (state₁, top, errno'))
    (hunasked : Interpreter.Unasked ⟨top, i.suspended⟩)
    {errno'' : Errno} (h : i.step errno = .ok (state, i', errno'')) :
    i'.Unasked ∧ (state = .blocked → state₁ = .blocked ∧
      i' = ⟨top, i.suspended⟩) := by
  unfold step at h
  rw [htop] at h
  split at h
  · contradiction
  · rename_i heq
    obtain ⟨rfl, hpair⟩ := Prod.mk.inj (Except.ok.inj heq)
    obtain ⟨rfl, rfl⟩ := Prod.mk.inj hpair
    split at h
    · obtain ⟨⟨state', i''⟩, hinvoke, heq'⟩ := map_eq_ok h
      obtain ⟨rfl, hpair'⟩ := Prod.mk.inj heq'
      obtain ⟨rfl, _⟩ := Prod.mk.inj hpair'
      obtain ⟨hkept, hstate⟩ := invoke_unasked hunasked hinvoke
      exact ⟨hkept, fun hblocked => absurd hblocked hstate⟩
    · obtain ⟨rfl, hpair'⟩ := Prod.mk.inj (Except.ok.inj h)
      obtain ⟨rfl, _⟩ := Prod.mk.inj hpair'
      exact ⟨hunasked, fun _ => ⟨rfl, rfl⟩⟩
  · rename_i heq
    obtain ⟨rfl, hpair⟩ := Prod.mk.inj (Except.ok.inj heq)
    obtain ⟨rfl, rfl⟩ := Prod.mk.inj hpair
    split at h
    · contradiction
    · split at h
      · obtain ⟨rfl, hpair'⟩ := Prod.mk.inj (Except.ok.inj h)
        obtain ⟨rfl, _⟩ := Prod.mk.inj hpair'
        exact ⟨⟨hunasked.1, by simp⟩, by simp⟩
      · rename_i invoker suspended hsuspended
        obtain ⟨⟨state', i''⟩, hreturn, heq'⟩ := map_eq_ok h
        obtain ⟨rfl, hpair'⟩ := Prod.mk.inj heq'
        obtain ⟨rfl, _⟩ := Prod.mk.inj hpair'
        have hall := hunasked.2
        rw [hsuspended] at hall
        obtain ⟨hinvoker, hrest⟩ := List.forall_mem_cons.mp hall
        obtain ⟨hkept, hstate⟩ := returnTo_unasked hinvoker hrest hreturn
        exact ⟨hkept, fun hblocked => absurd hblocked hstate⟩
  · rename_i hnotBlocked _ heq
    obtain ⟨rfl, hpair⟩ := Prod.mk.inj (Except.ok.inj heq)
    obtain ⟨rfl, rfl⟩ := Prod.mk.inj hpair
    obtain ⟨rfl, hpair'⟩ := Prod.mk.inj (Except.ok.inj h)
    obtain ⟨rfl, _⟩ := Prod.mk.inj hpair'
    exact ⟨hunasked, fun hblocked => ⟨hblocked, rfl⟩⟩

/-- A step leaves unasked callbacks unasked; it waits for a callback only to
call it. -/
theorem step_unasked (hi : i.Unasked)
    (h : i.step errno = .ok (state, i', errno')) :
    i'.Unasked ∧ (state = .blocked → i'.getResult.NoCallback ∨
      i'.getResult = .blocked .waitingForCallback ∧
        ∃ key args, i'.Evaluates key args {}) := by
  cases htop : i.top.step errno with
  | error fault =>
      unfold step at h
      rw [htop] at h
      contradiction
  | ok answer =>
      obtain ⟨state₁, top, errno₁⟩ := answer
      obtain ⟨hkept, hresult⟩ := Continuation.step_unasked hi.1 htop
      obtain ⟨hunasked, hblocked⟩ := step_of_top htop ⟨hkept, hi.2⟩ h
      refine ⟨hunasked, fun hstate => ?_⟩
      obtain ⟨hstate₁, rfl⟩ := hblocked hstate
      rcases hresult hstate₁ with hno | ⟨hwaits, key, args, hevaluates⟩
      · exact Or.inl hno
      · obtain ⟨children, frames, hstack, hargs, hframes⟩ := hevaluates
        exact Or.inr ⟨hwaits, key, args, children, frames, hstack, hargs,
          hframes, hi.2⟩

/-- The stack of an evaluation is prepared. -/
theorem Evaluates.prepare {ctx : CallbackOperationContext}
    (h : i.Evaluates key args ctx) : i.top.prepare = .ok (.ready, i.top) := by
  obtain ⟨children, frames, hstack, hargs, _⟩ := h
  refine Continuation.prepare_of_ready hstack ?_
  have hlength := List.length_pos_of_ne_nil hargs
  simp only [ExecutionStackFrame.hasArgumentsReady, OpTreeNode.operation,
    Operation.arity]
  exact decide_eq_true hlength

/-- Without the value a step only waits for it. -/
theorem Evaluates.step_waiting (h : i.Evaluates key args ⟨none, true⟩)
    (errno : Errno) :
    ∃ i', i.step errno = .ok (.blocked, i', errno) ∧
      i'.getResult = .blocked .waitingCallbackData ∧
      i'.Evaluates key args ⟨none, true⟩ := by
  have hprepare := h.prepare
  obtain ⟨children, frames, hstack, hargs, hframes, hsuspended⟩ := h
  have htop : i.top.step errno = .ok (.blocked,
      { i.top with result := .blocked .waitingCallbackData }, errno) := by
    rw [Continuation.step, hprepare]
    simp only [Continuation.executeTop, hstack]
    rfl
  refine ⟨{ i with
    top := { i.top with result := .blocked .waitingCallbackData } }, ?_, rfl,
    children, frames, hstack, hargs, hframes, hsuspended⟩
  unfold step
  rw [htop]

/-- With the value a step ends the evaluation. -/
theorem Evaluates.step_answered (hevaluates : i.Evaluates key args
    ⟨some value, true⟩) (h : i.step errno = .ok (state, i', errno')) :
    i'.Unasked ∧ state ≠ .blocked := by
  have hprepare := hevaluates.prepare
  obtain ⟨children, frames, hstack, _, hframes, hsuspended⟩ := hevaluates
  have hexecute (top : Continuation) (state₁ : ContinuationState)
      (hkept : top.Unasked) (hstate₁ : state₁ ≠ .blocked)
      (htop : i.top.step errno = .ok (state₁, top, errno)) :
      i'.Unasked ∧ state ≠ .blocked := by
    obtain ⟨hunasked, hblocked⟩ := step_of_top htop ⟨hkept, hsuspended⟩ h
    exact ⟨hunasked, fun hstate => absurd (hblocked hstate).1 hstate₁⟩
  cases frames with
  | nil =>
      refine hexecute { i.top with stack := [], result := .value value }
        .exited (fun _ hmem => absurd hmem List.not_mem_nil) (by simp) ?_
      rw [Continuation.step, hprepare]
      simp only [Continuation.executeTop, hstack]
      rfl
  | cons parent frames =>
      obtain ⟨hparent, hrest⟩ := List.forall_mem_cons.mp hframes
      refine hexecute { i.top with
        stack := parent.pushBack value :: frames, result := .value value }
        .ready (List.forall_mem_cons.mpr
          ⟨ExecutionStackFrame.pushBack_unasked hparent value, hrest⟩)
        (by simp) ?_
      rw [Continuation.step, hprepare]
      simp only [Continuation.executeTop, hstack]
      rfl

/-- The callback on top of the stack that has got its value: its key, its
arguments and the value. -/
def callbackValue? (i : Interpreter) :
    Option ((String × List Value) × Value) :=
  match i.top.callback? with
  | none => none
  | some (key, ctx) =>
      match UnaryCallback.apply ctx with
      | .value value => some ((key, i.top.getCallbackArguments), value)
      | .blocked _ => none

theorem Unasked.callbackValue? (h : i.Unasked) : i.callbackValue? = none := by
  unfold Interpreter.callbackValue? Continuation.callback?
  cases hstack : i.top.stack with
  | nil => rfl
  | cons frame frames =>
      have hframe := h.1 frame (by rw [hstack]; exact List.mem_cons_self)
      obtain ⟨⟨operation, children⟩, accumulator, ctx⟩ := frame
      split
      · rfl
      · rename_i key ctx' heq
        split at heq
        · rename_i hcons
          obtain ⟨hnode, _⟩ := List.cons.inj hcons
          simp only [ExecutionStackFrame.mk.injEq, OpTreeNode.mk.injEq]
            at hnode
          obtain ⟨⟨hoperation, _⟩, _, hctx⟩ := hnode
          have hfresh := hframe _ hoperation
          simp only [hctx, OperationContext.callback.injEq] at hfresh
          obtain ⟨_, rfl⟩ := Prod.mk.inj (Option.some.inj heq)
          rw [hfresh]
          rfl
        · contradiction

theorem Evaluates.request {ctx : CallbackOperationContext}
    (h : i.Evaluates key args ctx) :
    i.top.getCallbackKey = key ∧ i.top.getCallbackArguments = args := by
  obtain ⟨children, frames, hstack, _⟩ := h
  simp [Continuation.getCallbackKey, Continuation.callback?,
    Continuation.getCallbackArguments, hstack]

theorem Evaluates.callbackValue?
    (h : i.Evaluates key args ⟨some value, true⟩) :
    i.callbackValue? = some ((key, args), value) := by
  obtain ⟨children, frames, hstack, _⟩ := h
  simp [Interpreter.callbackValue?, Continuation.callback?,
    Continuation.getCallbackArguments, hstack, UnaryCallback.apply]

theorem Evaluates.setCallbackCalled {ctx : CallbackOperationContext}
    (h : i.Evaluates key args ctx) :
    Evaluates { i with top := i.top.setCallbackCalled } key args
      { ctx with callbackCalled := true } := by
  obtain ⟨children, frames, hstack, hargs, hframes, hsuspended⟩ := h
  refine ⟨children, frames, ?_, hargs, hframes, hsuspended⟩
  simp [Continuation.setCallbackCalled, Continuation.callback?,
    Continuation.setCallback, hstack]

theorem Evaluates.setCallbackReturn {ctx : CallbackOperationContext}
    (h : i.Evaluates key args ctx) (value : Value) :
    Evaluates { i with top := i.top.setCallbackReturn value } key args
      { ctx with value := some value } := by
  obtain ⟨children, frames, hstack, hargs, hframes, hsuspended⟩ := h
  refine ⟨children, frames, ?_, hargs, hframes, hsuspended⟩
  simp [Continuation.setCallbackReturn, Continuation.callback?,
    Continuation.setCallback, hstack]

theorem handleRead_unasked (hi : i.Unasked) {input : Octets} {consumed : Nat}
    (h : i.handleRead input = .ok (consumed, i')) : i'.Unasked := by
  obtain ⟨⟨consumed', top⟩, hread, heq⟩ := map_eq_ok h
  obtain ⟨_, rfl⟩ := Prod.mk.inj heq
  exact ⟨Continuation.handleRead_unasked hi.1 hread, hi.2⟩

theorem handleWrite_unasked (hi : i.Unasked) (s : Nat) :
    (i.handleWrite s).Unasked :=
  ⟨Continuation.handleWrite_unasked hi.1 s, hi.2⟩

theorem handleEof_unasked (hi : i.Unasked) : i.handleEof.Unasked :=
  ⟨Continuation.handleEof_unasked hi.1, hi.2⟩

end Interpreter

end NetworkProtocolDsl
