/-
Invoking a callable.

An operation that invokes a callable suspends its continuation; the callee runs
over a pad of its own and hands the chain below it back with its value.
-/
import NetworkProtocolDsl.Evaluation

namespace NetworkProtocolDsl

open Run RunnerState

/-- Invoked with these arguments the callable evaluates to the value. -/
def Callable.Evaluates (eof : Bool) (callable : Callable)
    (arguments : List Value) (w : World) (value : Value) (w' : World) : Prop :=
  ∃ w₁, callable.tree.Evaluates eof
      { w with pad := Interpreter.calleePad callable w.pad arguments } value
      w₁ ∧
    w' = { w₁ with
      pad := LexicalPad.afterCall callable.inheritsLexicalPad w.pad w₁.pad }

/-- A pass whose step goes on. -/
theorem InterpreterContext.pass_ready {context : InterpreterContext}
    {errno errno' : Errno} {interpreter : Interpreter}
    (hrunning : context.exited = false)
    (hstep : context.interpreter.step errno =
      .ok (.ready, interpreter, errno')) :
    context.pass errno =
      .ok (.ready, { context with interpreter := interpreter }, errno') := by
  unfold pass
  rw [if_neg (by simp [hrunning]), hstep]

theorem Continuation.setCallableReturn_result (c : Continuation)
    (value : Value) : (c.setCallableReturn value).result = .value value := by
  unfold setCallableReturn modifyControlFlow
  split <;> rfl

namespace RunnerState

variable {s : RunnerState}

theorem pass_of_fault (hrunning : s.context.exited = false) {fault : Fault}
    (hstep : s.context.interpreter.step s.errno = .error fault) :
    s.pass = .error fault := by
  rw [RunnerState.pass, InterpreterContext.pass, if_neg (by simp [hrunning]),
    hstep]
  rfl

theorem pass_of_step (hrunning : s.context.exited = false)
    {state : ContinuationState} {i : Interpreter} {errno : Errno}
    (hstep : s.context.interpreter.step s.errno = .ok (state, i, errno))
    (hstate : state ≠ .blocked) :
    ∃ t, s.pass = .ok t ∧ t.context.interpreter = i := by
  rw [RunnerState.pass, InterpreterContext.pass, if_neg (by simp [hrunning]),
    hstep]
  cases state with
  | blocked => contradiction
  | missingArguments | ready | exited => exact ⟨_, rfl, rfl⟩

end RunnerState

namespace Site

/-- The frame of an operation that invokes callables. -/
def controlFlowFrame (operation : ControlFlowOperation)
    (children : List OpTreeNode) (accumulator : List Value)
    (ctx : ControlFlowOperationContext) : ExecutionStackFrame :=
  ⟨.mk (.controlFlow operation) children, accumulator, .controlFlow ctx⟩

theorem controlFlowFrame_ready (operation : ControlFlowOperation)
    (children : List OpTreeNode) (accumulator : List Value)
    (harity : operation.arity ≤ accumulator.length)
    (ctx : ControlFlowOperationContext) :
    (controlFlowFrame operation children accumulator
      ctx).hasArgumentsReady = true := by
  simp only [ExecutionStackFrame.hasArgumentsReady, controlFlowFrame,
    OpTreeNode.operation, Operation.arity]
  exact decide_eq_true harity

variable (site : Site) {w : World} (result : OperationResult)
  (operation : ControlFlowOperation) (children : List OpTreeNode)
  (accumulator : List Value)

/-- The continuation that waits for its callee. -/
def invoker (frame : ExecutionStackFrame) (frames : List ExecutionStackFrame)
    (pad : LexicalPad) : Continuation :=
  ⟨frame :: frames, pad, .blocked .waitingForCallableInvocation,
    site.inherits⟩

/-- Where the callee runs. -/
def callee (callable : Callable) (invoker : Continuation) : Site :=
  { site with inherits := callable.inheritsLexicalPad
              suspended := invoker :: site.suspended }

/-- The pass that invokes the callable. -/
theorem pass_invoke (harity : operation.arity ≤ accumulator.length)
    {ctx ctx' : ControlFlowOperationContext}
    (happly : operation.apply ctx accumulator =
      .ok (.blocked .waitingForCallableInvocation, ctx'))
    {callable : Callable} (hcallable : ctx'.callable = some (.callable callable))
    {arglist : Option (List Value)}
    (hargs : operation.getArgumentList (operation.setCallableInvoked ctx') =
      .ok arglist)
    (hnames : arglist.isSome ∨ callable.argumentNames = [])
    {pushed : List ExecutionStackFrame}
    (hdescend : callable.tree.descend = .ok pushed)
    (frames : List ExecutionStackFrame) :
    ∃ t, (site.state
        (controlFlowFrame operation children accumulator ctx :: frames) w
        result).Steps .ready t ∧
      t.Alike ((site.callee callable (site.invoker
          (controlFlowFrame operation children accumulator
            { ctx' with callableInvoked := true }) frames w.pad)).state
        [ExecutionStackFrame.new callable.tree]
        { w with
          pad := Interpreter.calleePad callable w.pad (arglist.getD []) }
        (.value (.bool false))) := by
  have hready := controlFlowFrame_ready operation children accumulator harity
    ctx
  have hprepare := site.prepare_top (w := w) result hready frames
  have hexecute : (controlFlowFrame operation children accumulator ctx).execute
      w.pad w.errno = .ok ⟨.blocked .waitingForCallableInvocation,
        .controlFlow ctx', w.pad, w.errno⟩ := by
    simp only [controlFlowFrame, ExecutionStackFrame.execute,
      OpTreeNode.operation, happly, Except.map]
  let inner := site.callee callable (site.invoker
    (controlFlowFrame operation children accumulator
      { ctx' with callableInvoked := true }) frames w.pad)
  let w₁ : World := { w with
    pad := Interpreter.calleePad callable w.pad (arglist.getD []) }
  have halike := inner.alike_new (w := w₁) (.value (.bool false)) hdescend []
  obtain ⟨first, below, rfl, hfirst⟩ := OpTreeNode.descend_ready hdescend
  refine ⟨inner.state (first :: below ++ []) w₁ (.value (.bool false)), ?_,
    halike.symm⟩
  have hcallee : (Continuation.new callable.tree w₁.pad
      callable.inheritsLexicalPad).prepare = .ok (.ready,
        inner.top (first :: below ++ []) w₁ (.value (.bool false))) := by
    rcases halike with heq | ⟨_, top, hnew, hpushed, _⟩
    · have hstack : ExecutionStackFrame.new callable.tree :: [] =
          first :: below ++ [] :=
        congrArg (fun s => s.context.interpreter.top.stack) heq
      rw [← hstack]
      rw [List.cons_append, List.cons.injEq] at hstack
      exact inner.prepare_top (w := w₁) _ (hstack.1 ▸ hfirst) []
    · have hself := inner.prepare_top (w := w₁) (.value (.bool false)) hfirst
        (below ++ [])
      have heq := Except.ok.inj (hpushed.symm.trans hself)
      rw [← List.cons_append] at heq
      rw [(Prod.mk.inj heq).2] at hnew
      exact hnew
  have hnone : ¬ (arglist.isNone = true ∧ callable.argumentNames ≠ []) := by
    rintro ⟨hnone, hne⟩
    rcases hnames with hsome | hnil
    · rw [Option.isNone_iff_eq_none] at hnone
      simp [hnone] at hsome
    · exact hne hnil
  have hgetCallable : operation.getCallable ctx' =
      .ok (.callable callable) := by
    simp only [ControlFlowOperation.getCallable, hcallable]
  have hinvoke : Interpreter.invoke ⟨site.top
      (controlFlowFrame operation children accumulator ctx' :: frames) w
      (.blocked .waitingForCallableInvocation), site.suspended⟩ =
      .ok (.ready, (inner.state (first :: below ++ []) w₁
        (.value (.bool false))).context.interpreter) := by
    simp only [Interpreter.invoke, Continuation.getCallable, top,
      controlFlowFrame, hgetCallable, Continuation.setCallableInvoked,
      Continuation.modifyControlFlow, Continuation.getArgumentList, hargs]
    rw [if_neg hnone]
    simp only [w₁] at hcallee
    simp only [hcallee]
    rfl
  have hstep : (site.state
      (controlFlowFrame operation children accumulator ctx :: frames) w
        result).context.interpreter.step w.errno = .ok (.ready,
      (inner.state (first :: below ++ []) w₁
        (.value (.bool false))).context.interpreter, w.errno) := by
    simp only [top] at hprepare
    simp only [state, top, Interpreter.step, Continuation.step, hprepare,
      Continuation.executeTop, hexecute]
    exact congrArg (Except.map _) hinvoke
  have hrunning : (site.state
      (controlFlowFrame operation children accumulator ctx :: frames) w
        result).context.exited = false := site.running
  exact InterpreterContext.pass_ready hrunning hstep

/-- The pass in which the callee returns. -/
theorem pass_return (harity : operation.arity ≤ accumulator.length)
    (ctx : ControlFlowOperationContext) (frames : List ExecutionStackFrame)
    (pad : LexicalPad) (callable : Callable) {frame : ExecutionStackFrame}
    {value : Value} {w' : World} (h : frame.Yields w value w') :
    ((site.callee callable (site.invoker
        (controlFlowFrame operation children accumulator ctx) frames
          pad)).state [frame] w result).Steps .ready
      (site.state (controlFlowFrame operation children accumulator
          { ctx with value := some value } :: frames)
        { w' with pad := LexicalPad.afterCall callable.inheritsLexicalPad pad
                    w'.pad } (.value value)) := by
  obtain ⟨hready, ⟨ctx', hexecute⟩, hinput, houtput⟩ := h
  let inner := site.callee callable (site.invoker
    (controlFlowFrame operation children accumulator ctx) frames pad)
  have hprepare := inner.prepare_top (w := w) result hready []
  let outer := site.state (controlFlowFrame operation children accumulator
      { ctx with value := some value } :: frames)
    { w' with pad := LexicalPad.afterCall callable.inheritsLexicalPad pad
                w'.pad } (.value value)
  have hreturned : Continuation.prepare outer.context.interpreter.top =
      .ok (.ready, outer.context.interpreter.top) :=
    site.prepare_top _ (controlFlowFrame_ready operation children accumulator
      harity _) frames
  have hreturn : Interpreter.returnTo ⟨inner.top [] w' (.value value),
      inner.suspended⟩ value (site.invoker
        (controlFlowFrame operation children accumulator ctx) frames pad)
      site.suspended = .ok (.ready, outer.context.interpreter) := by
    have hprepared : (Continuation.setCallableReturn
        { site.invoker (controlFlowFrame operation children accumulator ctx)
            frames pad with
          pad := LexicalPad.afterCall callable.inheritsLexicalPad pad
            w'.pad } value).prepare =
        .ok (.ready, outer.context.interpreter.top) := hreturned
    simp only [Interpreter.returnTo]
    rw [show LexicalPad.afterCall (inner.top [] w' (.value
      value)).inheritsLexicalPad (site.invoker (controlFlowFrame operation
        children accumulator ctx) frames pad).pad
      (inner.top [] w' (.value value)).pad = LexicalPad.afterCall
        callable.inheritsLexicalPad pad w'.pad from rfl, hprepared]
    rfl
  have hstep : (inner.state [frame] w result).context.interpreter.step
      w.errno = .ok (.ready, outer.context.interpreter, w'.errno) := by
    simp only [top] at hprepare
    simp only [state, top, Interpreter.step, Continuation.step, hprepare,
      Continuation.executeTop, hexecute]
    exact congrArg (Except.map _) hreturn
  have hrunning : (inner.state [frame] w result).context.exited = false :=
    site.running
  have hpass := InterpreterContext.pass_ready hrunning hstep
  have hcontext : { (inner.state [frame] w result).context with
      interpreter := outer.context.interpreter } = outer.context := by
    simp only [outer, state, hinput, houtput]
    rfl
  rw [hcontext] at hpass
  exact hpass

/-- A frame that invokes a callable is resumed with what the callable
evaluates to. -/
theorem leads_invocation (harity : operation.arity ≤ accumulator.length)
    {ctx ctx' : ControlFlowOperationContext}
    (happly : operation.apply ctx accumulator =
      .ok (.blocked .waitingForCallableInvocation, ctx'))
    {callable : Callable} (hcallable : ctx'.callable = some (.callable callable))
    {arglist : Option (List Value)}
    (hargs : operation.getArgumentList (operation.setCallableInvoked ctx') =
      .ok arglist)
    (hnames : arglist.isSome ∨ callable.argumentNames = [])
    {value : Value} {w' : World}
    (h : callable.Evaluates site.base.eof (arglist.getD []) w value w')
    (frames : List ExecutionStackFrame) (result : OperationResult) :
    (site.state
        (controlFlowFrame operation children accumulator ctx :: frames) w
        result).Leads
      (site.state (controlFlowFrame operation children accumulator
          { ctx' with callableInvoked := true, value := some value } :: frames)
        w' (.value value)) := by
  obtain ⟨w₁, ⟨⟨pushed, hdescend⟩, hfinishes⟩, rfl⟩ := h
  obtain ⟨t, hinvoke, halike⟩ := site.pass_invoke (w := w) result operation
    children accumulator harity happly hcallable hargs hnames hdescend frames
  obtain ⟨last, middle, result', hleads, hyields⟩ := hfinishes
    (site.callee callable (site.invoker
      (controlFlowFrame operation children accumulator
        { ctx' with callableInvoked := true }) frames w.pad)) rfl []
    (.value (.bool false))
  have hreturn := site.pass_return result' operation children accumulator
    harity
    { ctx' with callableInvoked := true } frames w.pad callable hyields
  exact ((Leads.single hinvoke.pass).trans
    ((Leads.of_alike halike).trans hleads)).step hreturn.pass

end Site

/-- A frame that invokes a callable finishes with what it makes of the value of
the callable. -/
theorem ExecutionStackFrame.Finishes.of_invocation {eof : Bool}
    (operation : ControlFlowOperation) (children : List OpTreeNode)
    (accumulator : List Value) (harity : operation.arity ≤ accumulator.length)
    {ctx ctx' : ControlFlowOperationContext}
    (happly : operation.apply ctx accumulator =
      .ok (.blocked .waitingForCallableInvocation, ctx'))
    {callable : Callable} (hcallable : ctx'.callable = some (.callable callable))
    {arglist : Option (List Value)}
    (hargs : operation.getArgumentList (operation.setCallableInvoked ctx') =
      .ok arglist)
    (hnames : arglist.isSome ∨ callable.argumentNames = [])
    {value result : Value} {w w₁ w' : World}
    (h : callable.Evaluates eof (arglist.getD []) w value w₁)
    (hrest : (Site.controlFlowFrame operation children accumulator
      { ctx' with callableInvoked := true, value := some value }).Finishes eof
        w₁ result w') :
    (Site.controlFlowFrame operation children accumulator ctx).Finishes eof w
      result w' := by
  intro site heof frames result'
  subst heof
  have hleads := site.leads_invocation operation children accumulator harity
    happly hcallable hargs hnames h frames result'
  obtain ⟨last, middle, result'', hlast, hyields⟩ :=
    hrest site rfl frames (.value value)
  exact ⟨last, middle, result'', hleads.trans hlast, hyields⟩

/-- Invoked over and over the callable yields these values before it interrupts
the generator. -/
inductive Callable.Generates (eof : Bool) (callable : Callable) :
    World → List Value → World → Prop where
  | interrupt {w w' : World} :
      callable.Evaluates eof [] w
        (.controlFlowInstruction .interruptGenerator) w' →
      Generates eof callable w [] w'
  | next {w w₁ w' : World} {value : Value} {values : List Value} :
      callable.Evaluates eof [] w value w₁ → value.stops = false →
      Generates eof callable w₁ values w' →
      Generates eof callable w (value :: values) w'

/-- Invoked over and over the callable yields these values, and then one that
stops a generator. -/
inductive Callable.Rounds (eof : Bool) (callable : Callable) :
    World → List Value → Value → World → Prop where
  | last {w w' : World} {stop : Value} :
      callable.Evaluates eof [] w stop w' → stop.stops = true →
      Rounds eof callable w [] stop w'
  | next {w w₁ w' : World} {value stop : Value} {values : List Value} :
      callable.Evaluates eof [] w value w₁ → value.stops = false →
      Rounds eof callable w₁ values stop w' →
      Rounds eof callable w (value :: values) stop w'

theorem Callable.Generates.rounds {eof : Bool} {callable : Callable}
    {w w' : World} {values : List Value}
    (h : callable.Generates eof w values w') :
    callable.Rounds eof w values (.controlFlowInstruction .interruptGenerator)
      w' := by
  induction h with
  | interrupt hvalue => exact .last hvalue rfl
  | next hvalue hgoes _ ih => exact .next hvalue hgoes ih

/-- What a generator yields once its callable stopped it. -/
def GenerateList.outcome (values : List Value) : Value → Value
  | .runtimeError e => .runtimeError e
  | _ => .dynamicList values

/-- Invoked with each argument in turn the callable yields these values. -/
inductive Callable.MapsTo (eof : Bool) (callable : Callable) :
    List Value → World → List Value → World → Prop where
  | nil (w : World) : MapsTo eof callable [] w [] w
  | cons {w w₁ w' : World} {argument value : Value}
      {arguments values : List Value} :
      callable.Evaluates eof [argument] w value w₁ →
      MapsTo eof callable arguments w₁ values w' →
      MapsTo eof callable (argument :: arguments) w (value :: values) w'

/-- The argument after those that were mapped. -/
theorem FunctionCallForEach.getArgumentList_next
    {before arguments accumulator : List Value} {argument : Value}
    (hlength : accumulator.length = before.length) (callable : Value) :
    (ControlFlowOperation.functionCallForEach true).getArgumentList
      ((ControlFlowOperation.functionCallForEach true).setCallableInvoked
        { callable := some callable
          arglist := some (before ++ argument :: arguments)
          accumulator := accumulator }) = .ok (some [argument]) := by
  simp [ControlFlowOperation.getArgumentList,
    FunctionCallForEach.getArgumentList,
    ControlFlowOperation.setCallableInvoked, hlength]

namespace OpTreeNode

variable {eof : Bool} {w w₁ w₂ w' : World} {callable : Callable}

theorem finishes_rounds (children : List OpTreeNode)
    (accumulator : List Value) (hnames : callable.argumentNames = [])
    {values : List Value} {stop : Value}
    (h : callable.Rounds eof w values stop w')
    {ctx : ControlFlowOperationContext}
    (happly : GenerateList.apply ctx (.callable callable) =
      .ok (.blocked .waitingForCallableInvocation,
        { callable := some (.callable callable)
          accumulator := accumulator })) :
    (Site.controlFlowFrame .generateList children [.callable callable]
      ctx).Finishes eof w (GenerateList.outcome (accumulator ++ values) stop)
        w' := by
  have hready := Site.controlFlowFrame_ready .generateList children
    [.callable callable] (Nat.le_refl 1)
  induction h generalizing ctx accumulator with
  | @last w w' stop hvalue hstops =>
      rw [List.append_nil]
      let returned : ControlFlowOperationContext :=
        { callable := some (.callable callable)
          value := some stop
          accumulator := accumulator
          callableInvoked := true }
      have hfinal : GenerateList.apply returned (.callable callable) =
          .ok (.value (GenerateList.outcome accumulator stop), returned) := by
        cases stop with
        | runtimeError e => rfl
        | controlFlowInstruction instruction =>
            cases instruction
            rfl
        | bool _ | int32 _ | octets _ | dynamicList _ | dictionary _
        | callable _ => contradiction
      have hexecute : (Site.controlFlowFrame .generateList children
          [.callable callable] returned).execute w'.pad w'.errno =
            .ok ⟨.value (GenerateList.outcome accumulator stop),
              .controlFlow returned, w'.pad, w'.errno⟩ := by
        simp only [Site.controlFlowFrame, ExecutionStackFrame.execute,
          OpTreeNode.operation, ControlFlowOperation.apply, hfinal,
          Except.map]
      exact .of_invocation .generateList children [.callable callable]
        (Nat.le_refl 1) happly rfl rfl (Or.inr hnames) hvalue
        (.of_execute _ (hready _) hexecute eof)
  | @next w w₁ w' value stop values hvalue hgoes _ ih =>
      have hagain : GenerateList.apply
          { callable := some (.callable callable)
            value := some value
            accumulator := accumulator
            callableInvoked := true } (.callable callable) =
          .ok (.blocked .waitingForCallableInvocation,
            { callable := some (.callable callable)
              accumulator := accumulator ++ [value] }) := by
        cases value <;> first | rfl | contradiction
      have hrest := ih _ hagain
      rw [List.append_assoc] at hrest
      exact .of_invocation .generateList children [.callable callable]
        (Nat.le_refl 1) happly rfl rfl (Or.inr hnames) hvalue hrest

theorem evaluates_generateList {child : OpTreeNode} {values : List Value}
    (hnames : callable.argumentNames = [])
    (hchild : child.Evaluates eof w (.callable callable) w₁)
    (h : callable.Generates eof w₁ values w') :
    (OpTreeNode.mk (.controlFlow .generateList) [child]).Evaluates eof w
      (.dynamicList values) w' :=
  .unary rfl hchild (finishes_rounds [child] [] hnames h.rounds rfl)

theorem finishes_functionCallForEach (children : List OpTreeNode)
    (list : Value) (before accumulator : List Value)
    {arguments values : List Value} {argument : Value}
    (h : callable.MapsTo eof (argument :: arguments) w values w')
    {ctx : ControlFlowOperationContext}
    (hlength : accumulator.length = before.length)
    (happly : FunctionCallForEach.apply ctx (.callable callable) list =
      .ok (.blocked .waitingForCallableInvocation,
        { callable := some (.callable callable)
          arglist := some (before ++ argument :: arguments)
          accumulator := accumulator })) :
    (Site.controlFlowFrame (.functionCallForEach true) children
      [.callable callable, list] ctx).Finishes eof w
        (.dynamicList (accumulator ++ values)) w' := by
  have hready := Site.controlFlowFrame_ready (.functionCallForEach true)
    children [.callable callable, list] (Nat.le_refl 2)
  induction arguments generalizing w argument values ctx accumulator
      before with
  | nil =>
      rcases h with _ | ⟨hvalue, hrest⟩
      cases hrest
      rename_i value
      let returned : ControlFlowOperationContext :=
        { callable := some (.callable callable)
          value := some value
          arglist := some (before ++ [argument])
          accumulator := accumulator
          callableInvoked := true }
      have hexecute : (Site.controlFlowFrame (.functionCallForEach true)
          children [.callable callable, list] returned).execute w'.pad
            w'.errno = .ok ⟨.value (.dynamicList (accumulator ++ [value])),
              .controlFlow { returned with
                accumulator := accumulator ++ [value] }, w'.pad, w'.errno⟩ := by
        simp [returned, Site.controlFlowFrame, ExecutionStackFrame.execute,
          OpTreeNode.operation, ControlFlowOperation.apply,
          FunctionCallForEach.apply, hlength, Except.map]
      exact .of_invocation (.functionCallForEach true) children
        [.callable callable, list] (Nat.le_refl 2) happly rfl
        (FunctionCallForEach.getArgumentList_next hlength _) (Or.inl rfl)
        hvalue (.of_execute _ (hready _) hexecute eof)
  | cons next arguments ih =>
      rcases h with _ | ⟨hvalue, hrest⟩
      rename_i w₁ value values
      have hagain : FunctionCallForEach.apply
          { callable := some (.callable callable)
            value := some value
            arglist := some (before ++ argument :: next :: arguments)
            accumulator := accumulator
            callableInvoked := true } (.callable callable) list =
          .ok (.blocked .waitingForCallableInvocation,
            { callable := some (.callable callable)
              arglist := some ((before ++ [argument]) ++ next :: arguments)
              accumulator := accumulator ++ [value] }) := by
        simp only [FunctionCallForEach.apply, ↓reduceIte, Option.getD_some,
          List.length_append, List.length_cons, List.length_nil,
          List.append_assoc, List.singleton_append]
        rw [if_pos (by omega)]
      have hnext := ih (before ++ [argument]) (accumulator ++ [value]) hrest
        (by simp [hlength]) hagain
      rw [List.append_assoc] at hnext
      exact .of_invocation (.functionCallForEach true) children
        [.callable callable, list] (Nat.le_refl 2) happly rfl
        (FunctionCallForEach.getArgumentList_next hlength _) (Or.inl rfl)
        hvalue hnext

theorem evaluates_functionCallForEach {first second : OpTreeNode}
    {arguments values : List Value} (hne : arguments ≠ [])
    (hfirst : first.Evaluates eof w (.callable callable) w₁)
    (hsecond : second.Evaluates eof w₁ (.dynamicList arguments) w₂)
    (h : callable.MapsTo eof arguments w₂ values w') :
    (OpTreeNode.mk (.controlFlow (.functionCallForEach true))
      [first, second]).Evaluates eof w (.dynamicList values) w' := by
  obtain ⟨argument, arguments, rfl⟩ := List.exists_cons_of_ne_nil hne
  exact .binary rfl hfirst hsecond (finishes_functionCallForEach
    [first, second] (.dynamicList (argument :: arguments)) [] [] h rfl rfl)

end OpTreeNode

end NetworkProtocolDsl
