/-
Evaluating a node.

A node evaluates to a value if, at every site, passes lead from its fresh
frame to one that is about to yield that value.  The rules follow the
operations: the children of a frame are evaluated in order, and an operation
that invokes a callable is resumed with what the callable evaluates to.
-/
import NetworkProtocolDsl.EvaluationSite

namespace NetworkProtocolDsl

open Run RunnerState

/-- The next execution of the frame yields the value. -/
structure ExecutionStackFrame.Yields (frame : ExecutionStackFrame) (w : World)
    (value : Value) (w' : World) : Prop where
  ready : frame.hasArgumentsReady = true
  execute : ∃ ctx, frame.execute w.pad w.errno =
    .ok ⟨.value value, ctx, w'.pad, w'.errno⟩
  input : w'.input = w.input
  output : w'.output = w.output

/-- With this end-of-input flag passes lead from the frame to one that is about
to yield the value. -/
def ExecutionStackFrame.Finishes (eof : Bool) (frame : ExecutionStackFrame)
    (w : World) (value : Value) (w' : World) : Prop :=
  ∀ site : Site, site.base.eof = eof → ∀ frames result,
    ∃ last middle result',
      (site.state (frame :: frames) w result).Leads
        (site.state (last :: frames) middle result') ∧
      last.Yields middle value w'

theorem ExecutionStackFrame.Yields.finishes {frame : ExecutionStackFrame}
    {w w' : World} {value : Value} (h : frame.Yields w value w')
    (eof : Bool) : frame.Finishes eof w value w' :=
  fun _ _ _ result => ⟨frame, w, result, Leads.refl _, h⟩

theorem ExecutionStackFrame.Finishes.of_execute {frame : ExecutionStackFrame}
    (ctx : OperationContext) (hready : frame.hasArgumentsReady = true)
    {w : World} {value : Value} {pad : LexicalPad} {errno : Errno}
    (hexecute : frame.execute w.pad w.errno =
      .ok ⟨.value value, ctx, pad, errno⟩) (eof : Bool) :
    frame.Finishes eof w value { w with pad := pad, errno := errno } := by
  have hyields : frame.Yields w value { w with pad := pad, errno := errno } :=
    ⟨hready, ⟨ctx, hexecute⟩, rfl, rfl⟩
  exact hyields.finishes eof

/-- The node evaluates to the value and turns the first world into the second.
-/
def OpTreeNode.Evaluates (eof : Bool) (node : OpTreeNode) (w : World)
    (value : Value) (w' : World) : Prop :=
  (∃ pushed, node.descend = .ok pushed) ∧
    (ExecutionStackFrame.new node).Finishes eof w value w'

namespace Site

variable (site : Site) {frame : ExecutionStackFrame} {w w' : World}
  {value : Value}

theorem pass_yields (h : frame.Yields w value w')
    (result : OperationResult) (parent : ExecutionStackFrame)
    (frames : List ExecutionStackFrame) :
    (site.state (frame :: parent :: frames) w result).Steps .ready
      (site.state (parent.pushBack value :: frames) w' (.value value)) := by
  obtain ⟨hready, ⟨ctx, hexecute⟩, hinput, houtput⟩ := h
  have hstep := site.pass_value result hready hexecute parent
    frames
  have hworld : { w with pad := w'.pad, errno := w'.errno } = w' := by
    rw [← hinput, ← houtput]
  rwa [hworld] at hstep

theorem exit_yields (h : frame.Yields w value w') (result : OperationResult)
    (hlast : site.suspended = []) :
    (site.state [frame] w result).Steps .exited (site.exited w' value) := by
  obtain ⟨hready, ⟨ctx, hexecute⟩, hinput, houtput⟩ := h
  have hstep := site.pass_exit result hready hexecute hlast
  have hworld : { w with pad := w'.pad, errno := w'.errno } = w' := by
    rw [← hinput, ← houtput]
  rwa [hworld] at hstep

/-- A frame gets the value of its next child. -/
theorem leads_child (hready : frame.hasArgumentsReady = false)
    {child : OpTreeNode} (hchild : frame.nextOp = .ok child)
    (h : child.Evaluates site.base.eof w value w')
    (frames : List ExecutionStackFrame) (result : OperationResult) :
    (site.state (frame :: frames) w result).Leads
      (site.state (frame.pushBack value :: frames) w' (.value value)) := by
  obtain ⟨⟨pushed, hdescend⟩, hfinishes⟩ := h
  obtain ⟨last, middle, result', hlast, hyields⟩ :=
    hfinishes site rfl (frame :: frames) result
  have halike := site.alike_child (w := w) result hready hchild
    hdescend frames
  have hnew := site.alike_new (w := w) result hdescend
    (frame :: frames)
  exact ((Leads.of_alike (halike.trans hnew.symm)).trans hlast).step
    (site.pass_yields hyields result' frame frames).pass

/-- A program that is just started runs to its end. -/
theorem passes_exited {node : OpTreeNode}
    (h : node.Evaluates site.base.eof w value w')
    (hlast : site.suspended = []) (result : OperationResult) :
    (site.state [ExecutionStackFrame.new node] w result).Passes
      (site.exited w' value) := by
  obtain ⟨last, middle, result', hrun, hyields⟩ := h.2 site rfl [] result
  exact (hrun.step (site.exit_yields hyields result' hlast).pass
    ).passes_of_exited rfl

end Site

namespace OpTreeNode

variable {eof : Bool} {operation : Operation} {children : List OpTreeNode}
  {child : OpTreeNode} {w w' w₁ : World} {value : Value}

theorem descend_of_ready
    (h : (ExecutionStackFrame.new (.mk operation children)).hasArgumentsReady =
      true) :
    (OpTreeNode.mk operation children).descend =
      .ok [ExecutionStackFrame.new (.mk operation children)] := by
  cases children <;> rw [descend, if_pos h]

theorem descend_of_child {pushed : List ExecutionStackFrame}
    (hready : (ExecutionStackFrame.new
      (.mk operation (child :: children))).hasArgumentsReady = false)
    (h : child.descend = .ok pushed) :
    (OpTreeNode.mk operation (child :: children)).descend =
      .ok (pushed ++
        [ExecutionStackFrame.new (.mk operation (child :: children))]) := by
  rw [descend, if_neg (Bool.eq_false_iff.mp hready), h]

/-- From one accumulator the frame of the node gets to another. -/
def Fills (eof : Bool) (node : OpTreeNode) (accumulator : List Value)
    (w : World) (accumulator' : List Value) (w' : World) : Prop :=
  ∀ site : Site, site.base.eof = eof → ∀ ctx frames result, ∃ result',
    (site.state (⟨node, accumulator, ctx⟩ :: frames) w result).Leads
      (site.state (⟨node, accumulator', ctx⟩ :: frames) w' result')

namespace Fills

variable {node : OpTreeNode} {before after last : List Value}

theorem refl (accumulator : List Value) (w : World) :
    node.Fills eof accumulator w accumulator w :=
  fun _ _ _ _ result => ⟨result, Leads.refl _⟩

theorem trans (h : node.Fills eof before w after w₁)
    (h' : node.Fills eof after w₁ last w') :
    node.Fills eof before w last w' := by
  intro site heof ctx frames result
  obtain ⟨result₁, hleads⟩ := h site heof ctx frames result
  obtain ⟨result₂, hleads'⟩ := h' site heof ctx frames result₁
  exact ⟨result₂, hleads.trans hleads'⟩

theorem next (hready : ∀ ctx,
      (ExecutionStackFrame.mk node before ctx).hasArgumentsReady = false)
    {child : OpTreeNode}
    (hchild : node.children[before.length]? = some child)
    (h : child.Evaluates eof w value w') :
    node.Fills eof before w (before ++ [value]) w' := by
  intro site heof ctx frames result
  subst heof
  refine ⟨_, site.leads_child (hready ctx) ?_ h frames result⟩
  simp only [ExecutionStackFrame.nextOp, hchild]

end Fills

/-- A node evaluates to what its frame finishes with once the children are
there. -/
theorem Evaluates.of_fills {node : OpTreeNode}
    {pushed : List ExecutionStackFrame} (hdescend : node.descend = .ok pushed)
    {accumulator : List Value} (hfills : node.Fills eof [] w accumulator w₁)
    (hfinishes : (ExecutionStackFrame.mk node accumulator
      node.operation.initializeContext).Finishes eof w₁ value w') :
    node.Evaluates eof w value w' := by
  refine ⟨⟨pushed, hdescend⟩, fun site heof frames result => ?_⟩
  obtain ⟨result', hleads⟩ := hfills site heof
    node.operation.initializeContext frames result
  obtain ⟨last, middle, result'', hlast, hyields⟩ :=
    hfinishes site heof frames result'
  exact ⟨last, middle, result'', hleads.trans hlast, hyields⟩

/-- An operation without arguments. -/
theorem Evaluates.leaf
    (hready : (ExecutionStackFrame.new
      (.mk operation children)).hasArgumentsReady = true)
    (h : (ExecutionStackFrame.new (.mk operation children)).Finishes eof w
      value w') :
    (OpTreeNode.mk operation children).Evaluates eof w value w' :=
  ⟨⟨_, descend_of_ready hready⟩, h⟩

/-- An operation with one argument. -/
theorem Evaluates.unary {argument : Value} (harity : operation.arity = some 1)
    (hchild : child.Evaluates eof w argument w₁)
    (hfinishes : (ExecutionStackFrame.mk (.mk operation [child]) [argument]
      operation.initializeContext).Finishes eof w₁ value w') :
    (OpTreeNode.mk operation [child]).Evaluates eof w value w' := by
  have hready : ∀ ctx, (ExecutionStackFrame.mk (.mk operation [child]) []
      ctx).hasArgumentsReady = false := by
    intro ctx
    simp [ExecutionStackFrame.hasArgumentsReady, OpTreeNode.operation, harity]
  obtain ⟨pushed, hdescend⟩ := hchild.1
  exact .of_fills (descend_of_child (hready _) hdescend)
    (Fills.next hready rfl hchild) hfinishes

theorem binary_not_ready (first second : OpTreeNode)
    (harity : operation.arity = some 2) (accumulator : List Value)
    (ctx : OperationContext) (hlt : accumulator.length < 2) :
    (ExecutionStackFrame.mk (.mk operation [first, second]) accumulator
      ctx).hasArgumentsReady = false := by
  simp only [ExecutionStackFrame.hasArgumentsReady, OpTreeNode.operation,
    harity]
  exact decide_eq_false (by omega)

/-- An operation with two arguments. -/
theorem Evaluates.binary {first second : OpTreeNode} {lhs rhs : Value}
    {w₂ : World} (harity : operation.arity = some 2)
    (hfirst : first.Evaluates eof w lhs w₁)
    (hsecond : second.Evaluates eof w₁ rhs w₂)
    (hfinishes : (ExecutionStackFrame.mk (.mk operation [first, second])
      [lhs, rhs] operation.initializeContext).Finishes eof w₂ value w') :
    (OpTreeNode.mk operation [first, second]).Evaluates eof w value w' := by
  have hready := binary_not_ready first second harity
  obtain ⟨pushed, hdescend⟩ := hfirst.1
  exact .of_fills (descend_of_child (hready [] _ (by simp)) hdescend)
    ((Fills.next (fun ctx => hready [] ctx (by simp)) rfl hfirst).trans
      (Fills.next (fun ctx => hready _ ctx (by simp)) rfl hsecond)) hfinishes

/-- The nodes evaluate one after the other, until a value stops them. -/
inductive EvaluateInOrder (eof : Bool) :
    List OpTreeNode → World → List Value → World → Prop where
  | nil (w : World) : EvaluateInOrder eof [] w [] w
  | stop {node : OpTreeNode} {rest : List OpTreeNode} {w w' : World}
      {value : Value} : node.Evaluates eof w value w' →
      value.stops = true → EvaluateInOrder eof (node :: rest) w [value] w'
  | cons {node : OpTreeNode} {rest : List OpTreeNode} {w w₁ w' : World}
      {value : Value} {values : List Value} :
      node.Evaluates eof w value w₁ → value.stops = false →
      EvaluateInOrder eof rest w₁ values w' →
      EvaluateInOrder eof (node :: rest) w (value :: values) w'

namespace EvaluateInOrder

variable {nodes rest : List OpTreeNode} {values values' : List Value}

/-- No value stopped the nodes. -/
abbrev RunsThrough (values : List Value) : Prop :=
  ∀ value ∈ values, value.stops = false

theorem opSequence_apply_goes {values : List Value}
    (hthrough : RunsThrough values) :
    (DynamicInputOperation.opSequence.apply values).stops = false := by
  cases hlast : values.getLast? with
  | none => simp [DynamicInputOperation.apply, hlast, Value.stops]
  | some last =>
      simp only [DynamicInputOperation.apply, hlast]
      exact hthrough last (List.mem_of_getLast? hlast)

/-- A frame with dynamic input waits for its next node. -/
theorem dynamicInput_not_ready (dynamic : DynamicInputOperation)
    (node : OpTreeNode) (rest : List OpTreeNode) {before : List OpTreeNode}
    {accumulator : List Value} (hlength : accumulator.length = before.length)
    (hgoes : RunsThrough accumulator) (ctx : OperationContext) :
    (ExecutionStackFrame.mk (.mk (.dynamicInput dynamic)
      (before ++ node :: rest)) accumulator ctx).hasArgumentsReady = false := by
  have hlast : accumulator.getLast?.any Value.stops = false := by
    cases hlast : accumulator.getLast? with
    | none => rfl
    | some last => exact hgoes last (List.mem_of_getLast? hlast)
  simp only [ExecutionStackFrame.hasArgumentsReady, OpTreeNode.operation,
    Operation.arity, OpTreeNode.children, hlast, Bool.false_or,
    List.length_append, List.length_cons]
  exact decide_eq_false (by omega)

/-- A frame with dynamic input takes its values from left to right. -/
theorem fills (dynamic : DynamicInputOperation)
    (h : EvaluateInOrder eof rest w values w')
    (before : List OpTreeNode) (accumulator : List Value)
    (hlength : accumulator.length = before.length)
    (hgoes : RunsThrough accumulator) :
    (OpTreeNode.mk (.dynamicInput dynamic) (before ++ rest)).Fills eof
      accumulator w (accumulator ++ values) w' := by
  induction h generalizing before accumulator with
  | nil w =>
      simp only [List.append_nil]
      exact Fills.refl accumulator w
  | @stop node rest w w' value hnode hstops =>
      refine Fills.next (dynamicInput_not_ready dynamic node rest hlength
        hgoes) ?_ hnode
      simp [OpTreeNode.children, hlength]
  | @cons node rest w w₁ w' value values hnode hvalue _ ih =>
      have hfirst : (OpTreeNode.mk (.dynamicInput dynamic)
          (before ++ node :: rest)).Fills eof accumulator w
          (accumulator ++ [value]) w₁ := by
        refine Fills.next (dynamicInput_not_ready dynamic node rest hlength
          hgoes) ?_ hnode
        simp [OpTreeNode.children, hlength]
      have hrest := ih (before ++ [node]) (accumulator ++ [value])
        (by simp [hlength]) (by
          intro v hv
          rcases List.mem_append.mp hv with hv | hv
          · exact hgoes v hv
          · rw [List.mem_singleton.mp hv]
            exact hvalue)
      rw [List.append_assoc, List.append_assoc] at hrest
      exact hfirst.trans hrest

/-- The values are complete or the last one stopped the nodes. -/
theorem ready (h : EvaluateInOrder eof nodes w values w') :
    values.getLast?.any Value.stops = true ∨
      values.length = nodes.length := by
  induction h with
  | nil w => exact Or.inr rfl
  | stop _ hstops => exact Or.inl hstops
  | @cons node rest w w₁ w' value values hnode hgoes hrest ih =>
      rcases ih with hlast | hlength
      · left
        cases values with
        | nil => simp at hlast
        | cons next values => rwa [List.getLast?_cons_cons]
      · right
        rw [List.length_cons, List.length_cons, hlength]

theorem descend (dynamic : DynamicInputOperation)
    (h : EvaluateInOrder eof nodes w values w') :
    ∃ pushed, (OpTreeNode.mk (.dynamicInput dynamic) nodes).descend =
      .ok pushed := by
  have hchild : ∀ {node : OpTreeNode} {rest : List OpTreeNode} {w w' : World}
      {value : Value}, node.Evaluates eof w value w' →
      ∃ pushed, (OpTreeNode.mk (.dynamicInput dynamic)
        (node :: rest)).descend = .ok pushed := by
    rintro node rest w w' value ⟨⟨pushed, hdescend⟩, _⟩
    exact ⟨_, descend_of_child rfl hdescend⟩
  cases h with
  | nil => exact ⟨_, rfl⟩
  | stop hnode _ => exact hchild hnode
  | cons hnode _ _ => exact hchild hnode

/-- An operation with dynamic input is applied to the values. -/
theorem evaluates (dynamic : DynamicInputOperation)
    (h : EvaluateInOrder eof nodes w values w') :
    (OpTreeNode.mk (.dynamicInput dynamic) nodes).Evaluates eof w
      (dynamic.apply values) w' := by
  obtain ⟨pushed, hdescend⟩ := h.descend dynamic
  have hfills := h.fills dynamic [] [] rfl
    (fun _ hv => absurd hv List.not_mem_nil)
  refine .of_fills hdescend hfills (.of_execute _ ?_ rfl eof)
  simp only [ExecutionStackFrame.hasArgumentsReady, OpTreeNode.operation,
    Operation.arity, OpTreeNode.children, List.nil_append]
  rcases h.ready with hlast | hlength
  · simp [hlast]
  · simp [hlength]

end EvaluateInOrder

end OpTreeNode

/-- A program that is just started over this world. -/
def RunnerState.evaluating (optree : OpTreeNode) (w : World) (eof : Bool) :
    RunnerState :=
  ⟨{ interpreter := Interpreter.new optree w.pad
     inputBuffer := w.input
     outputBuffer := w.output
     eof := eof }, w.errno⟩

/-- The program exited with the value and left this world. -/
structure RunnerState.Finished (s : RunnerState) (value : Value) (w : World) :
    Prop where
  exited : s.context.exited = true
  result : s.context.interpreterResult = some value
  pad : s.context.interpreter.top.pad = w.pad
  errno : s.errno = w.errno
  input : s.context.inputBuffer = w.input
  output : s.context.outputBuffer = w.output

/-- Passes alone bring a program started over `w` to its end. -/
def OpTreeNode.RunsTo (eof : Bool) (optree : OpTreeNode) (w : World)
    (value : Value) (w' : World) : Prop :=
  ∃ s, (evaluating optree w eof).Passes s ∧ s.Finished value w'

namespace OpTreeNode

variable {eof : Bool} {optree : OpTreeNode} {w w' w'' : World}
  {value value' : Value}

/-- What a node evaluates to, a program that consists of it runs to. -/
theorem Evaluates.runsTo (h : optree.Evaluates eof w value w') :
    optree.RunsTo eof w value w' := by
  let site : Site :=
    ⟨(RunnerState.evaluating optree w eof).context, true, [], rfl⟩
  exact ⟨site.exited w' value, site.passes_exited h rfl (.value (.bool false)),
    rfl, rfl, rfl, rfl, rfl, rfl⟩

/-- A program runs to one end only. -/
theorem RunsTo.unique (h : optree.RunsTo eof w value w')
    (h' : optree.RunsTo eof w value' w'') : value = value' ∧ w' = w'' := by
  obtain ⟨s, hs, hfinished⟩ := h
  obtain ⟨s', hs', hfinished'⟩ := h'
  have heq := hs.eq_of_exited hfinished.exited hs'
    (pass_of_exited hfinished'.exited)
  subst heq
  have hvalue := hfinished.result.symm.trans hfinished'.result
  refine ⟨Option.some.inj hvalue, ?_⟩
  cases w'
  cases w''
  obtain ⟨_, _, hpad, herrno, hinput, houtput⟩ := hfinished
  obtain ⟨_, _, hpad', herrno', hinput', houtput'⟩ := hfinished'
  simp only at hpad herrno hinput houtput hpad' herrno' hinput' houtput'
  rw [World.mk.injEq]
  exact ⟨hpad.symm.trans hpad', herrno.symm.trans herrno',
    hinput.symm.trans hinput', houtput.symm.trans houtput'⟩

theorem Evaluates.unique (h : optree.Evaluates eof w value w')
    (h' : optree.Evaluates eof w value' w'') : value = value' ∧ w' = w'' :=
  h.runsTo.unique h'.runsTo

end OpTreeNode

end NetworkProtocolDsl
