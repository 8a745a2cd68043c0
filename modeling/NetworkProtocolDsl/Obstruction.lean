/-
Evaluations that come to a state of some kind.

Where a child or a callee comes to such a state, the node above it does: all
that runs before it leads there.  A program that comes to a state whose next
pass fails never exits.
-/
import NetworkProtocolDsl.Invocation

namespace NetworkProtocolDsl

open Run RunnerState

namespace RunnerState

/-- The next pass fails. -/
def Faulty (s : RunnerState) : Prop :=
  ∃ fault, s.pass = .error fault

/-- The next pass yields an error or a control flow instruction. -/
def Stumbles (s : RunnerState) : Prop :=
  ∃ t value, s.pass = .ok t ∧
    t.context.interpreter.getResult = .value value ∧ value.stops = true

/-- No pass ends the program. -/
def NeverExits (s : RunnerState) : Prop :=
  ∀ t, s.Passes t → t.context.exited = false

theorem Faulty.neverExits {s : RunnerState} (h : s.Faulty) :
    s.NeverExits := by
  obtain ⟨fault, hfault⟩ := h
  intro t ht
  rcases Relation.ReflTransGen.cases_head ht with rfl | ⟨u, hu, _⟩
  · by_contra hexited
    rw [pass_of_exited ((Bool.not_eq_false _).mp hexited)] at hfault
    contradiction
  · rw [hfault] at hu
    contradiction

/-- What leads to a state passes to one with the same next pass. -/
theorem Leads.passes {s t : RunnerState} (h : Leads s t) :
    ∃ s', Passes s s' ∧ s'.pass = t.pass := by
  obtain ⟨s', hpasses, halike⟩ := h
  exact ⟨s', hpasses, halike.pass_eq⟩

end RunnerState

/-- With this end-of-input flag passes lead from the frame to such a state. -/
def ExecutionStackFrame.Meets (eof : Bool) (kind : RunnerState → Prop)
    (frame : ExecutionStackFrame) (w : World) : Prop :=
  ∀ site : Site, site.base.eof = eof → ∀ frames result, ∃ t,
    (site.state (frame :: frames) w result).Leads t ∧ kind t

/-- The evaluation of the node comes to such a state. -/
def OpTreeNode.Meets (eof : Bool) (kind : RunnerState → Prop)
    (node : OpTreeNode) (w : World) : Prop :=
  (∃ pushed, node.descend = .ok pushed) ∧
    (ExecutionStackFrame.new node).Meets eof kind w

/-- A frame meets what its next child meets. -/
theorem ExecutionStackFrame.Meets.of_child {eof : Bool}
    {kind : RunnerState → Prop} {frame : ExecutionStackFrame}
    {child : OpTreeNode} {w : World} (hready : frame.hasArgumentsReady = false)
    (hchild : frame.nextOp = .ok child) (h : child.Meets eof kind w) :
    frame.Meets eof kind w := by
  intro site heof frames result
  obtain ⟨⟨pushed, hdescend⟩, hmeets⟩ := h
  obtain ⟨t, ht, hkind⟩ := hmeets site heof (frame :: frames) result
  have halike := site.alike_child (w := w) result hready hchild
    hdescend frames
  have hnew := site.alike_new (w := w) result hdescend
    (frame :: frames)
  exact ⟨t, (Leads.of_alike (halike.trans hnew.symm)).trans ht, hkind⟩

/-- A frame that invokes a callable meets what the callee meets. -/
theorem ExecutionStackFrame.Meets.of_callee {eof : Bool}
    {kind : RunnerState → Prop} {operation : ControlFlowOperation}
    (children : List OpTreeNode) {accumulator : List Value}
    (harity : operation.arity ≤ accumulator.length)
    {ctx ctx' : ControlFlowOperationContext}
    (happly : operation.apply ctx accumulator =
      .ok (.blocked .waitingForCallableInvocation, ctx'))
    {callable : Callable} (hcallable : ctx'.callable = some (.callable callable))
    {arglist : Option (List Value)}
    (hargs : operation.getArgumentList (operation.setCallableInvoked ctx') =
      .ok arglist)
    (hnames : arglist.isSome ∨ callable.argumentNames = []) {w : World}
    (h : callable.tree.Meets eof kind { w with
      pad := Interpreter.calleePad callable w.pad (arglist.getD []) }) :
    (Site.controlFlowFrame operation children accumulator ctx).Meets eof kind
      w := by
  intro site heof frames result
  obtain ⟨⟨pushed, hdescend⟩, hmeets⟩ := h
  obtain ⟨t, hinvoke, halike⟩ := site.pass_invoke (w := w) result operation
    children accumulator harity happly hcallable hargs hnames hdescend frames
  obtain ⟨u, hu, hkind⟩ := hmeets (site.callee callable (site.invoker
    (Site.controlFlowFrame operation children accumulator
      { ctx' with callableInvoked := true }) frames w.pad)) heof []
    (.value (.bool false))
  exact ⟨u, (Leads.single hinvoke.pass).trans
    ((Leads.of_alike halike).trans hu), hkind⟩

namespace OpTreeNode

variable {eof : Bool} {kind : RunnerState → Prop} {operation : Operation}
  {children : List OpTreeNode} {child node : OpTreeNode}
  {w w₁ w₂ w' : World} {value : Value}

theorem Meets.mono (h : node.Meets eof kind w)
    {kind' : RunnerState → Prop} (hkind : ∀ s, kind s → kind' s) :
    node.Meets eof kind' w := by
  refine ⟨h.1, fun site heof frames result => ?_⟩
  obtain ⟨t, ht, hmet⟩ := h.2 site heof frames result
  exact ⟨t, ht, hkind t hmet⟩

theorem Meets.of_fills {pushed : List ExecutionStackFrame}
    (hdescend : node.descend = .ok pushed) {accumulator : List Value}
    (hfills : node.Fills eof [] w accumulator w₁)
    (hmeets : (ExecutionStackFrame.mk node accumulator
      node.operation.initializeContext).Meets eof kind w₁) :
    node.Meets eof kind w := by
  refine ⟨⟨pushed, hdescend⟩, fun site heof frames result => ?_⟩
  obtain ⟨result', hleads⟩ := hfills site heof
    node.operation.initializeContext frames result
  obtain ⟨t, ht, hkind⟩ := hmeets site heof frames result'
  exact ⟨t, hleads.trans ht, hkind⟩

/-- An operation with one argument meets what its argument meets. -/
theorem Meets.unary (harity : operation.arity = some 1)
    (h : child.Meets eof kind w) :
    (OpTreeNode.mk operation [child]).Meets eof kind w := by
  have hready : (ExecutionStackFrame.new
      (.mk operation [child])).hasArgumentsReady = false := by
    simp [ExecutionStackFrame.hasArgumentsReady, ExecutionStackFrame.new,
      OpTreeNode.operation, harity]
  obtain ⟨pushed, hdescend⟩ := h.1
  exact .of_fills (descend_of_child hready hdescend) (Fills.refl [] w)
    (.of_child hready rfl h)

/-- An operation with two arguments meets what its frame meets. -/
theorem Meets.binary {first second : OpTreeNode} {lhs rhs : Value}
    (harity : operation.arity = some 2)
    (hfirst : first.Evaluates eof w lhs w₁)
    (hsecond : second.Evaluates eof w₁ rhs w₂)
    (hmeets : (ExecutionStackFrame.mk (.mk operation [first, second])
      [lhs, rhs] operation.initializeContext).Meets eof kind w₂) :
    (OpTreeNode.mk operation [first, second]).Meets eof kind w := by
  obtain ⟨pushed, hdescend⟩ := hfirst.1
  have hready := binary_not_ready first second harity
  exact .of_fills (descend_of_child (hready [] _ (by simp)) hdescend)
    ((Fills.next (fun ctx => hready [] ctx (by simp)) rfl hfirst).trans
      (Fills.next (fun ctx => hready _ ctx (by simp)) rfl hsecond)) hmeets

/-- Some node meets the state once the ones before it are evaluated. -/
inductive MeetsInOrder (eof : Bool) (kind : RunnerState → Prop) :
    List OpTreeNode → World → Prop where
  | here {node : OpTreeNode} {rest : List OpTreeNode} {w : World} :
      node.Meets eof kind w → MeetsInOrder eof kind (node :: rest) w
  | later {node : OpTreeNode} {rest : List OpTreeNode} {w w₁ : World}
      {value : Value} : node.Evaluates eof w value w₁ →
      value.stops = false → MeetsInOrder eof kind rest w₁ →
      MeetsInOrder eof kind (node :: rest) w

namespace MeetsInOrder

variable {nodes rest : List OpTreeNode} {values : List Value}

/-- A frame with dynamic input meets what one of its nodes meets. -/
theorem frame_meets (dynamic : DynamicInputOperation)
    (h : MeetsInOrder eof kind rest w) (before : List OpTreeNode)
    (accumulator : List Value) (hlength : accumulator.length = before.length)
    (hgoes : EvaluateInOrder.RunsThrough accumulator)
    (ctx : OperationContext) :
    (ExecutionStackFrame.mk (.mk (.dynamicInput dynamic) (before ++ rest))
      accumulator ctx).Meets eof kind w := by
  induction h generalizing before accumulator with
  | @here node rest w hnode =>
      refine .of_child (EvaluateInOrder.dynamicInput_not_ready dynamic node
        rest hlength hgoes ctx) ?_ hnode
      simp [ExecutionStackFrame.nextOp, OpTreeNode.children, hlength]
  | @later node rest w w₁ value hnode hvalue _ ih =>
      have hready := EvaluateInOrder.dynamicInput_not_ready dynamic node rest
        hlength hgoes ctx
      have hnext := ih (before ++ [node]) (accumulator ++ [value])
        (by simp [hlength]) (by
          intro v hv
          rcases List.mem_append.mp hv with hv | hv
          · exact hgoes v hv
          · rw [List.mem_singleton.mp hv]
            exact hvalue)
      rw [List.append_assoc, List.singleton_append] at hnext
      intro site heof frames result
      subst heof
      have hleads := site.leads_child hready (by
        simp [ExecutionStackFrame.nextOp, OpTreeNode.children, hlength]) hnode
        frames result
      obtain ⟨t, ht, hkind⟩ := hnext site rfl frames (.value value)
      exact ⟨t, hleads.trans ht, hkind⟩

/-- An operation with dynamic input meets what one of its nodes meets. -/
theorem meets (dynamic : DynamicInputOperation)
    (h : MeetsInOrder eof kind nodes w) :
    (OpTreeNode.mk (.dynamicInput dynamic) nodes).Meets eof kind w := by
  have hmeets := h.frame_meets dynamic [] [] rfl
    (fun _ hv => absurd hv List.not_mem_nil) .none
  refine ⟨?_, hmeets⟩
  cases h with
  | here hnode =>
      obtain ⟨pushed, hdescend⟩ := hnode.1
      exact ⟨_, descend_of_child rfl hdescend⟩
  | later hnode _ _ =>
      obtain ⟨pushed, hdescend⟩ := hnode.1
      exact ⟨_, descend_of_child rfl hdescend⟩

end MeetsInOrder

/-- A loop over no element asks for its first element. -/
theorem functionCallForEach_meets_faulty {eof : Bool} {first second : OpTreeNode}
    {callable : Callable} {w w₁ w₂ : World}
    (hfirst : first.Evaluates eof w (.callable callable) w₁)
    (hsecond : second.Evaluates eof w₁ (.dynamicList []) w₂) :
    (OpTreeNode.mk (.controlFlow (.functionCallForEach true))
      [first, second]).Meets eof Faulty w := by
  refine .binary rfl hfirst hsecond fun site _ frames result => ?_
  let frame := Site.controlFlowFrame (.functionCallForEach true)
    [first, second] [.callable callable, .dynamicList []] {}
  have hready : frame.hasArgumentsReady = true :=
    Site.controlFlowFrame_ready (.functionCallForEach true) [first, second]
      [.callable callable, .dynamicList []] (Nat.le_refl 2) {}
  have hprepare := site.prepare_top (w := w₂) result hready frames
  have hrunning : (site.state (frame :: frames) w₂ result).context.exited =
      false := site.running
  have hstep : (site.state (frame :: frames) w₂
      result).context.interpreter.step w₂.errno = .error .outOfRange := by
    simp only [Site.top] at hprepare
    simp only [Site.state, Site.top, Interpreter.step, Continuation.step,
      hprepare, Continuation.executeTop]
    rfl
  refine ⟨_, Leads.refl _, .outOfRange, ?_⟩
  have herrno : (site.state (frame :: frames) w₂ result).errno = w₂.errno :=
    rfl
  change (InterpreterContext.pass (site.state (frame :: frames) w₂
    result).context (site.state (frame :: frames) w₂ result).errno).map _ = _
  rw [InterpreterContext.pass, if_neg (by simp [hrunning]), herrno, hstep]
  rfl

/-- A program that meets a state passes through one with the same next pass. -/
theorem Meets.passes (h : node.Meets eof kind w) :
    ∃ s t, (RunnerState.evaluating node w eof).Passes s ∧ s.pass = t.pass ∧
      kind t := by
  let site : Site :=
    ⟨(RunnerState.evaluating node w eof).context, true, [], rfl⟩
  obtain ⟨t, ht, hkind⟩ := h.2 site rfl [] (.value (.bool false))
  obtain ⟨s, hs, hpass⟩ := ht.passes
  exact ⟨s, t, hs, hpass, hkind⟩

/-- No pass of a program that runs to its end fails. -/
theorem RunsTo.not_faulty (h : node.RunsTo eof w value w') {s : RunnerState}
    (hs : (RunnerState.evaluating node w eof).Passes s) : ¬ s.Faulty := by
  rintro ⟨fault, hfault⟩
  obtain ⟨u, hu, hfinished⟩ := h
  have hfixed := pass_of_exited hfinished.exited
  have hreach := Reaches.of_fixed hfixed hu hs
  rcases Relation.ReflTransGen.cases_head hreach with rfl | ⟨s', hstep, _⟩
  · rw [hfault] at hfixed
    contradiction
  · rw [hfault] at hstep
    contradiction

/-- A program that comes to where it never exits runs to nothing. -/
theorem Meets.not_runsTo_of_neverExits (h : node.Meets eof NeverExits w) :
    ¬ node.RunsTo eof w value w' := by
  rintro ⟨u, hu, hfinished⟩
  obtain ⟨s, t, hs, hpass, hnever⟩ := h.passes
  have hfixed := pass_of_exited hfinished.exited
  have hreach := Reaches.of_fixed hfixed hu hs
  have hend : t.Passes u := by
    rcases Relation.ReflTransGen.cases_head hreach with rfl | ⟨s', hstep, hrest⟩
    · exact Reaches.single (hpass.symm.trans hfixed)
    · exact Reaches.head (hpass.symm.trans hstep) hrest
  have hrunning := hnever u hend
  rw [hfinished.exited] at hrunning
  contradiction

/-- A program that comes to a fault runs to nothing. -/
theorem Meets.not_runsTo (h : node.Meets eof Faulty w) :
    ¬ node.RunsTo eof w value w' := by
  intro hruns
  obtain ⟨s, t, hs, hpass, fault, hfault⟩ := h.passes
  exact hruns.not_faulty hs ⟨fault, hpass.trans hfault⟩

end OpTreeNode

end NetworkProtocolDsl
