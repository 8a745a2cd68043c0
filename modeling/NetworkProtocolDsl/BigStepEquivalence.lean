/-
The steps of the interpreter compute the meaning of the tree.

A tree that has a meaning is stepped to its value, by induction on the fuel of
the recursive evaluation.  A run that exits went through the evaluation of the
tree, by induction on its length: what a child or a callee still has to run is
a part of the run.
-/
import NetworkProtocolDsl.InterpreterExits

namespace NetworkProtocolDsl

open RunnerState

namespace BigStep

/-- With this memory steps lead from the frame to one that is about to yield
the value. -/
def Finishes (frame : ExecutionStackFrame) (m : Memory) (value : Value)
    (m' : Memory) : Prop :=
  ∀ (site : Site) frames result, ∃ last middle result',
    (site.state (frame :: frames) m.world result).Continues
      (site.state (last :: frames) (Memory.world middle) result') ∧
    last.Yields (Memory.world middle) value m'.world

theorem finishes_of_execute {frame : ExecutionStackFrame}
    (ctx : OperationContext) (hready : frame.hasArgumentsReady = true)
    {m : Memory} {value : Value} {pad : LexicalPad} {errno : Errno}
    (hexecute : frame.execute m.pad m.errno =
      .ok ⟨.value value, ctx, pad, errno⟩) :
    Finishes frame m value ⟨pad, errno⟩ :=
  fun _ _ result => ⟨frame, m, result, Continues.refl _,
    hready, ⟨ctx, hexecute⟩, rfl, rfl⟩

/-- The steps of the interpreter follow the evaluator. -/
def Followed (evaluator : Evaluator) : Prop :=
  ∀ node m value m', evaluator node m = some (value, m') →
    (∃ pushed, node.descend = .ok pushed) ∧
      Finishes (ExecutionStackFrame.new node) m value m'

section Followed

variable {evaluator : Evaluator} (hfollowed : Followed evaluator)

include hfollowed

/-- A frame gets the value of its next child. -/
theorem continues_child (site : Site) {frame : ExecutionStackFrame}
    (hready : frame.hasArgumentsReady = false) {child : OpTreeNode}
    (hchild : frame.nextOp = .ok child) {m m' : Memory} {value : Value}
    (h : evaluator child m = some (value, m'))
    (frames : List ExecutionStackFrame) (result : OperationResult) :
    (site.state (frame :: frames) m.world result).Continues
      (site.state (frame.pushBack value :: frames) m'.world
        (.value value)) := by
  obtain ⟨⟨pushed, hdescend⟩, hfinishes⟩ := hfollowed child m value m' h
  obtain ⟨last, middle, result', hlast, hyields⟩ :=
    hfinishes site (frame :: frames) result
  have halike := site.alike_child (w := m.world) result hready hchild hdescend
    frames
  have hnew := site.alike_new (w := m.world) result hdescend (frame :: frames)
  exact ((Continues.of_alike (halike.trans hnew.symm)).trans hlast).trans
    (.of_steps (site.pass_yields hyields result' frame frames))

/-- A frame collects the values of its children. -/
theorem continues_collect (site : Site) {operation : Operation}
    {children before rest : List OpTreeNode} (ctx : OperationContext)
    (hchildren : children = before ++ rest) {values values' : List Value}
    (hlength : values.length = before.length) {m m' : Memory}
    (h : collect evaluator operation children.length values rest m =
      some (values', m'))
    (frames : List ExecutionStackFrame) (result : OperationResult) :
    Filled operation children.length values' = true ∧ ∃ result',
      (site.state (⟨.mk operation children, values, ctx⟩ :: frames) m.world
        result).Continues
      (site.state (⟨.mk operation children, values', ctx⟩ :: frames) m'.world
        result') := by
  induction rest generalizing before values m result with
  | nil =>
      unfold collect at h
      by_cases hfilled : Filled operation children.length values = true
      · rw [if_pos hfilled] at h
        obtain ⟨rfl, rfl⟩ := Prod.mk.inj (Option.some.inj h)
        exact ⟨hfilled, result, Continues.refl _⟩
      · rw [if_neg hfilled] at h
        contradiction
  | cons node rest ih =>
      unfold collect at h
      by_cases hfilled : Filled operation children.length values = true
      · rw [if_pos hfilled] at h
        obtain ⟨rfl, rfl⟩ := Prod.mk.inj (Option.some.inj h)
        exact ⟨hfilled, result, Continues.refl _⟩
      · rw [if_neg hfilled] at h
        simp only at h
        cases hnode : evaluator node m with
        | none =>
            rw [hnode] at h
            contradiction
        | some first =>
            rw [hnode] at h
            have hnext : (ExecutionStackFrame.mk (.mk operation children)
                values ctx).nextOp = .ok node := by
              simp [ExecutionStackFrame.nextOp, OpTreeNode.children,
                hchildren, hlength]
            have hwaits : (ExecutionStackFrame.mk (.mk operation children)
                values ctx).hasArgumentsReady = false :=
              Bool.eq_false_iff.mpr hfilled
            have hfirst := continues_child hfollowed site hwaits hnext hnode
              frames result
            have happend : children = (before ++ [node]) ++ rest := by
              simp [hchildren]
            obtain ⟨hready, result', hrest⟩ :=
              ih happend (by simp [hlength]) h (.value first.1)
            exact ⟨hready, result', hfirst.trans hrest⟩

theorem descend_of_collect {operation : Operation}
    {children : List OpTreeNode} {m : Memory}
    {result : List Value × Memory}
    (h : collect evaluator operation children.length [] children m =
      some result) :
    ∃ pushed, (OpTreeNode.mk operation children).descend = .ok pushed := by
  by_cases hfilled : Filled operation children.length [] = true
  · exact ⟨_, OpTreeNode.descend_of_ready hfilled⟩
  · cases children with
    | nil =>
        rw [collect, if_neg hfilled] at h
        contradiction
    | cons child children =>
        rw [collect, if_neg hfilled] at h
        cases hchild : evaluator child m with
        | none =>
            rw [hchild] at h
            contradiction
        | some first =>
            obtain ⟨⟨pushed, hdescend⟩, _⟩ := hfollowed _ _ _ _ hchild
            exact ⟨_, OpTreeNode.descend_of_child
              (Bool.eq_false_iff.mpr hfilled) hdescend⟩

/-- A frame that invokes a callable is resumed with its value. -/
theorem continues_call (site : Site) (operation : ControlFlowOperation)
    (children : List OpTreeNode) {args : List Value}
    (harity : operation.arity ≤ args.length)
    {ctx ctx' : ControlFlowOperationContext}
    (happly : operation.apply ctx args =
      .ok (.blocked .waitingForCallableInvocation, ctx'))
    {callable : Callable}
    (hcallable : ctx'.callable = some (.callable callable))
    {arglist : Option (List Value)}
    (hargs : operation.getArgumentList (operation.setCallableInvoked ctx') =
      .ok arglist)
    {m m' : Memory} {value : Value}
    (h : call evaluator callable arglist m = some (value, m'))
    (frames : List ExecutionStackFrame) (result : OperationResult) :
    (site.state (Site.controlFlowFrame operation children args ctx :: frames)
        m.world result).Continues
      (site.state (Site.controlFlowFrame operation children args
          { ctx' with callableInvoked := true, value := some value } :: frames)
        m'.world (.value value)) := by
  unfold call at h
  split at h
  · contradiction
  · rename_i hsupplied
    obtain ⟨inner, hinner, heq⟩ := Option.map_eq_some_iff.mp h
    obtain ⟨rfl, rfl⟩ := Prod.mk.inj heq
    have hnames : arglist.isSome ∨ callable.argumentNames = [] := by
      cases arglist with
      | some _ => exact Or.inl rfl
      | none => exact Or.inr (by simpa using hsupplied)
    obtain ⟨⟨pushed, hdescend⟩, hfinishes⟩ := hfollowed _ _ _ _ hinner
    obtain ⟨t, hinvoke, halike⟩ := site.pass_invoke (w := m.world) result
      operation children args harity happly hcallable hargs hnames hdescend
      frames
    obtain ⟨last, middle, result', hlast, hyields⟩ := hfinishes
      (site.callee callable (site.invoker
        (Site.controlFlowFrame operation children args
          { ctx' with callableInvoked := true }) frames m.pad)) []
      (.value (.bool false))
    have hreturn := site.pass_return result' operation children args harity
      { ctx' with callableInvoked := true } frames m.pad callable hyields
    exact (((Continues.of_steps hinvoke).trans (.of_alike halike)).trans
      hlast).trans (.of_steps hreturn)

theorem finishes_resume (operation : ControlFlowOperation)
    (children : List OpTreeNode) {args : List Value}
    (harity : operation.arity ≤ args.length) {n : Nat}
    {ctx : ControlFlowOperationContext} {m m' : Memory} {value : Value}
    (h : resume evaluator operation args n ctx m = some (value, m')) :
    Finishes (Site.controlFlowFrame operation children args ctx) m value
      m' := by
  induction n generalizing ctx m with
  | zero => contradiction
  | succ n ih =>
      rw [resume] at h
      split at h
      · rename_i value' ctx' happly
        obtain ⟨rfl, rfl⟩ := Prod.mk.inj (Option.some.inj h)
        refine finishes_of_execute (.controlFlow ctx')
          (Site.controlFlowFrame_ready operation children args harity ctx) ?_
        simp only [Site.controlFlowFrame, ExecutionStackFrame.execute,
          OpTreeNode.operation, happly, Except.map]
      · rename_i ctx' happly
        split at h
        · rename_i callable arglist hcallable hargs
          cases hcall : call evaluator callable arglist m with
          | none =>
              rw [hcall] at h
              contradiction
          | some inner =>
              rw [hcall] at h
              intro site frames result
              have hfirst := continues_call hfollowed site operation children
                harity happly hcallable hargs hcall frames result
              obtain ⟨last, middle, result', hlast, hyields⟩ :=
                ih h site frames (.value inner.1)
              exact ⟨last, middle, result', hfirst.trans hlast, hyields⟩
        · contradiction
      · contradiction

/-- A frame that has its arguments ready computes the operation. -/
theorem finishes_operate (operation : Operation) (children : List OpTreeNode)
    {args : List Value}
    (hfilled : Filled operation children.length args = true) {n : Nat}
    {m m' : Memory} {value : Value}
    (h : operate evaluator n operation args m = some (value, m')) :
    Finishes ⟨.mk operation children, args, operation.initializeContext⟩ m
      value m' := by
  have hready : (ExecutionStackFrame.mk (.mk operation children) args
      operation.initializeContext).hasArgumentsReady = true := hfilled
  cases operation with
  | interpreted operation =>
      simp only [operate] at h
      split at h
      · rename_i value' happly
        obtain ⟨rfl, rfl⟩ := Prod.mk.inj (Option.some.inj h)
        refine finishes_of_execute .none hready ?_
        simp only [ExecutionStackFrame.execute, OpTreeNode.operation,
          Operation.initializeContext, happly, Except.map]
      · contradiction
  | lexicalPad operation =>
      simp only [operate] at h
      split at h
      · rename_i value' pad happly
        obtain ⟨rfl, rfl⟩ := Prod.mk.inj (Option.some.inj h)
        refine finishes_of_execute .none hready ?_
        simp only [ExecutionStackFrame.execute, OpTreeNode.operation,
          Operation.initializeContext, happly, Except.map]
      · contradiction
  | inputOutput operation =>
      simp only [operate] at h
      split at h
      · rename_i value' ctx errno happly
        obtain ⟨rfl, rfl⟩ := Prod.mk.inj (Option.some.inj h)
        refine finishes_of_execute (.inputOutput ctx) hready ?_
        simp only [ExecutionStackFrame.execute, OpTreeNode.operation,
          Operation.initializeContext, happly, Except.map]
      · contradiction
  | controlFlow operation =>
      have harity : operation.arity ≤ args.length := by
        simpa [Filled, Operation.arity] using hfilled
      obtain ⟨k, hresume⟩ := resume_of_controlFlow h
      exact finishes_resume hfollowed operation children harity hresume
  | unaryCallback _ => contradiction
  | dynamicInput operation =>
      obtain ⟨rfl, rfl⟩ := Prod.mk.inj (Option.some.inj h)
      exact finishes_of_execute .none hready rfl

end Followed

theorem followed_evaluate (n : Nat) : Followed (evaluate n) := by
  induction n with
  | zero =>
      intro node m value m' h
      contradiction
  | succ n ih =>
      intro node m value m' h
      obtain ⟨operation, children⟩ := node
      rw [evaluate] at h
      cases hoperands : operands (evaluate n) operation children m with
      | none =>
          rw [hoperands] at h
          contradiction
      | some operands =>
          rw [hoperands] at h
          rw [operands_eq_collect] at hoperands
          refine ⟨descend_of_collect ih hoperands, ?_⟩
          intro site frames result
          obtain ⟨hfilled, result', hargs⟩ := continues_collect ih site
            operation.initializeContext (List.nil_append children).symm rfl
            hoperands frames result
          obtain ⟨last, middle, result'', hlast, hyields⟩ :=
            finishes_operate ih operation children hfilled h site frames
              result'
          exact ⟨last, middle, result'', hargs.trans hlast, hyields⟩

/-- The steps of the interpreter compute the meaning of the tree. -/
theorem exits_of_bigStep {optree : OpTreeNode} {m m' : Memory} {value : Value}
    (h : optree.BigStep m value m') :
    ∃ n, (Interpreter.new optree m.pad).Exits n m.errno value m' := by
  obtain ⟨n, hevaluate⟩ := h
  let site : Site :=
    ⟨(RunnerState.evaluating optree m.world false).context, true, [], rfl⟩
  obtain ⟨_, hfinishes⟩ := followed_evaluate n _ _ _ _ hevaluate
  obtain ⟨last, middle, result, ⟨k, hlast⟩, hyields⟩ :=
    hfinishes site [] (.value (.bool false))
  have hexit := (site.exit_yields hyields result rfl).interpreter_exited
    site.running
  exact ⟨0 + k, hlast 0 value m' ⟨_, hexit, rfl, rfl⟩⟩

/-- A run that exits in at most so many steps from the fresh frame of the node
went through its evaluation. -/
def Found (n : Nat) (node : OpTreeNode) : Prop :=
  ∀ (site : Site) frames m result value m₁,
    (site.state (ExecutionStackFrame.new node :: frames) (Memory.world m)
      result).Exits n value m₁ →
    ∃ fuel value' m' last middle result' j,
      evaluate fuel node m = some (value', m') ∧
      last.Yields (Memory.world middle) value' m'.world ∧ j ≤ n ∧
      (site.state (last :: frames) (Memory.world middle) result').Exits j value
        m₁

section Found

variable {site : Site} {frames : List ExecutionStackFrame} {n : Nat}
  {value : Value} {m m₁ : Memory} {result : OperationResult}

/-- A run that exits collects the values of the children. -/
theorem collect_of_exits {operation : Operation}
    {children before rest : List OpTreeNode} {ctx : OperationContext}
    (hchildren : children = before ++ rest) {values : List Value}
    (hlength : values.length = before.length)
    (hfound : ∀ child ∈ rest, ∀ j ≤ n, Found j child)
    (h : (site.state (⟨.mk operation children, values, ctx⟩ :: frames)
      m.world result).Exits n value m₁) :
    ∃ fuel values' m' result' j,
      collect (evaluate fuel) operation children.length values rest m =
        some (values', m') ∧
      Filled operation children.length values' = true ∧ j ≤ n ∧
      (site.state (⟨.mk operation children, values', ctx⟩ :: frames)
        m'.world result').Exits j value m₁ := by
  have hready : ∀ {values : List Value},
      ¬ Filled operation children.length values = true →
      (ExecutionStackFrame.mk (.mk operation children) values
        ctx).hasArgumentsReady = false := Bool.eq_false_iff.mpr
  induction rest generalizing before values m n result with
  | nil =>
      by_cases hfilled : Filled operation children.length values = true
      · refine ⟨0, values, m, result, n, ?_, hfilled, Nat.le_refl n, h⟩
        rw [collect, if_pos hfilled]
      · obtain ⟨child, _, hnext, _⟩ :=
          nextOp_of_exits (hready hfilled) h
        simp [ExecutionStackFrame.nextOp, OpTreeNode.children, hchildren,
          hlength] at hnext
  | cons node rest ih =>
      by_cases hfilled : Filled operation children.length values = true
      · refine ⟨0, values, m, result, n, ?_, hfilled, Nat.le_refl n, h⟩
        rw [collect, if_pos hfilled]
      · have hwaits := hready hfilled
        obtain ⟨child, pushed, hnext, hdescend⟩ := nextOp_of_exits hwaits h
        have hnode : child = node := by
          have hnode : (ExecutionStackFrame.mk (.mk operation children) values
              ctx).nextOp = .ok node := by
            simp [ExecutionStackFrame.nextOp, OpTreeNode.children, hchildren,
              hlength]
          exact Except.ok.inj (hnext.symm.trans hnode)
        subst hnode
        have halike := (site.alike_child (w := m.world) result hwaits hnext
          hdescend frames).trans (site.alike_new (w := m.world) result
            hdescend (_ :: frames)).symm
        obtain ⟨fuel, first, m', last, middle, result', j, hevaluate, hyields,
          hle, hexits⟩ := hfound child List.mem_cons_self n (Nat.le_refl n)
            site _ m result value m₁ (halike.exits_iff.mp h)
        obtain ⟨j', rfl, hexits'⟩ :=
          (site.pass_yields hyields result' _ frames).exits_iff.mp hexits
        have happend : children = (before ++ [child]) ++ rest := by
          simp [hchildren]
        obtain ⟨fuel', values', m'', result'', k, hcollect, hfull, hle',
          hrest⟩ := ih happend (by simp [hlength])
            (fun c hc i hi => hfound c (List.mem_cons_of_mem _ hc) i
              (by omega)) hexits'
        refine ⟨max fuel fuel', values', m'', result'', k, ?_, hfull,
          by omega, hrest⟩
        rw [collect, if_neg hfilled]
        simp only [evaluate_mono (Nat.le_max_left fuel fuel') _ _ _ hevaluate]
        exact collect_below (evaluate_mono (Nat.le_max_right fuel fuel'))
          hcollect

/-- A run that exits resumes the topmost operation with the values of its
callees. -/
theorem resume_of_exits {operation : ControlFlowOperation}
    {children : List OpTreeNode} {args : List Value}
    (harity : operation.arity ≤ args.length)
    {ctx : ControlFlowOperationContext}
    (hfound : ∀ j < n, ∀ node, Found j node)
    (h : (site.state (Site.controlFlowFrame operation children args ctx ::
      frames) m.world result).Exits n value m₁) :
    ∃ fuel k value' m' last middle result' j,
      resume (evaluate fuel) operation args k ctx m = some (value', m') ∧
      last.Yields (Memory.world middle) value' m'.world ∧ j ≤ n ∧
      (site.state (last :: frames) (Memory.world middle) result').Exits j value
        m₁ := by
  induction n using Nat.strong_induction_on generalizing ctx m result with
  | _ n ih =>
      rcases apply_of_exits harity h with ⟨value', ctx', happly⟩ |
        ⟨ctx', callable, arglist, pushed, happly, hcallable, hargs, hnames,
          hdescend⟩
      · refine ⟨0, 1, value', m, _, m, result, n, ?_,
          ⟨Site.controlFlowFrame_ready operation children args harity ctx,
            ⟨.controlFlow ctx', ?_⟩, rfl, rfl⟩, Nat.le_refl n, h⟩
        · rw [resume, happly]
        · simp only [Site.controlFlowFrame, ExecutionStackFrame.execute,
            OpTreeNode.operation, happly, Except.map]
      · obtain ⟨t, hinvoke, halike⟩ := site.pass_invoke (w := m.world) result
          operation children args harity happly hcallable hargs hnames
          hdescend frames
        obtain ⟨i, rfl, hcallee⟩ := hinvoke.exits_iff.mp h
        obtain ⟨fuel, first, inner, last, middle, result', j, hevaluate,
          hyields, hle, hexits⟩ := hfound i (by omega) callable.tree
            (site.callee callable (site.invoker
              (Site.controlFlowFrame operation children args
                { ctx' with callableInvoked := true }) frames m.pad)) []
            { m with pad := Interpreter.calleePad callable m.pad
                      (arglist.getD []) } _ value m₁
            (halike.exits_iff.mp hcallee)
        have hreturn := site.pass_return result' operation children args
          harity { ctx' with callableInvoked := true } frames m.pad callable
          hyields
        obtain ⟨j', rfl, hexits'⟩ := hreturn.exits_iff.mp hexits
        let after : Memory := { inner with
          pad := LexicalPad.afterCall callable.inheritsLexicalPad m.pad
            inner.pad }
        have hresumed : (site.state (Site.controlFlowFrame operation children
            args { ctx' with callableInvoked := true, value := some first } ::
              frames) after.world (.value first)).Exits j' value m₁ := hexits'
        obtain ⟨fuel', k, value', m', last', middle', result'', j'', hresume,
          hyields', hle', hrest⟩ := ih j' (by omega)
            (fun c hc => hfound c (by omega)) hresumed
        have hcall : call (evaluate (max fuel fuel')) callable arglist m =
            some (first, after) := by
          have hsupplied : ¬ (arglist.isNone = true ∧
              callable.argumentNames ≠ []) := by
            rintro ⟨hnone, hne⟩
            rcases hnames with hsome | hnil
            · rw [Option.isNone_iff_eq_none] at hnone
              simp [hnone] at hsome
            · exact hne hnil
          rw [call, if_neg hsupplied,
            evaluate_mono (Nat.le_max_left fuel fuel') _ _ _ hevaluate]
          rfl
        refine ⟨max fuel fuel', k + 1, value', m', last', middle', result'',
          j'', ?_, hyields', by omega, hrest⟩
        rw [resume, happly]
        simp only [hargs]
        split
        · rename_i held _ hheld heq
          obtain rfl := Except.ok.inj heq
          obtain rfl := Value.callable.inj
            (Option.some.inj (hheld.symm.trans hcallable))
          rw [hcall]
          exact resume_below (evaluate_mono (Nat.le_max_right fuel fuel'))
            (Nat.le_refl k) hresume
        · rename_i hnot
          exact absurd rfl (hnot _ _ hcallable)

/-- What a frame yields that has its arguments ready, its operation computes.
-/
theorem operate_of_execute {operation : Operation}
    {children : List OpTreeNode} {args : List Value}
    (hoperation : ∀ control, operation ≠ .controlFlow control)
    {ctx : OperationContext} {pad : LexicalPad} {errno : Errno}
    (h : (ExecutionStackFrame.mk (.mk operation children) args
      operation.initializeContext).execute m.pad m.errno =
        .ok ⟨.value value, ctx, pad, errno⟩)
    (evaluator : Evaluator) (k : Nat) :
    operate evaluator k operation args m = some (value, ⟨pad, errno⟩) := by
  cases operation with
  | interpreted operation =>
      obtain ⟨value', happly, heq⟩ := map_eq_ok h
      simp only [Execution.mk.injEq, OperationResult.value.injEq] at heq
      obtain ⟨rfl, _, rfl, rfl⟩ := heq
      simp only [operate, happly]
  | lexicalPad operation =>
      obtain ⟨⟨value', pad'⟩, happly, heq⟩ := map_eq_ok h
      simp only [Execution.mk.injEq, OperationResult.value.injEq] at heq
      obtain ⟨rfl, _, rfl, rfl⟩ := heq
      simp only [operate, happly]
  | inputOutput operation =>
      obtain ⟨⟨outcome, ctx', errno'⟩, happly, heq⟩ := map_eq_ok h
      simp only [Execution.mk.injEq] at heq
      obtain ⟨rfl, _, rfl, rfl⟩ := heq
      simp only [operate, happly]
  | controlFlow operation => exact absurd rfl (hoperation operation)
  | unaryCallback _ =>
      obtain ⟨hresult, _⟩ := Execution.mk.inj (Except.ok.inj h)
      contradiction
  | dynamicInput operation =>
      have heq := Except.ok.inj h
      simp only [Execution.mk.injEq, OperationResult.value.injEq] at heq
      obtain ⟨rfl, _, rfl, rfl⟩ := heq
      rfl

theorem operate_of_exits {operation : Operation}
    {children : List OpTreeNode} {args : List Value}
    (hfilled : Filled operation children.length args = true)
    (hfound : ∀ j < n, ∀ node, Found j node)
    (h : (site.state (⟨.mk operation children, args,
      operation.initializeContext⟩ :: frames) m.world result).Exits n value
        m₁) :
    ∃ fuel k value' m' last middle result' j,
      operate (evaluate fuel) k operation args m = some (value', m') ∧
      last.Yields (Memory.world middle) value' m'.world ∧ j ≤ n ∧
      (site.state (last :: frames) (Memory.world middle) result').Exits j value
        m₁ := by
  have hready : (ExecutionStackFrame.mk (.mk operation children) args
      operation.initializeContext).hasArgumentsReady = true := hfilled
  by_cases hcontrol : ∃ control, operation = .controlFlow control
  · obtain ⟨control, rfl⟩ := hcontrol
    have harity : control.arity ≤ args.length := by
      simpa [Filled, Operation.arity] using hfilled
    obtain ⟨fuel, k, value', m', last, middle, result', j, hresume, hrest⟩ :=
      resume_of_exits harity hfound h
    exact ⟨fuel, k, value', m', last, middle, result', j,
      controlFlow_of_resume hresume, hrest⟩
  · have hoperation : ∀ control, operation ≠ .controlFlow control :=
      fun control heq => hcontrol ⟨control, heq⟩
    obtain ⟨value', ctx, pad, errno, hexecute⟩ :=
      execute_of_exits hready hoperation h
    exact ⟨0, 0, value', ⟨pad, errno⟩, _, m, result, n,
      operate_of_execute hoperation hexecute _ _,
      ⟨hready, ⟨ctx, hexecute⟩, rfl, rfl⟩, Nat.le_refl n, h⟩

end Found

/-- Every run that exits went through the evaluation of the node on top. -/
theorem found (n : Nat) (node : OpTreeNode) : Found n node := by
  match node with
  | .mk operation children =>
      intro site frames m result value m₁ h
      obtain ⟨fuel, args, m', result', j, hcollect, hfilled, hle, hexits⟩ :=
        collect_of_exits (List.nil_append children).symm rfl
          (fun child hchild j hle => found j child) h
      obtain ⟨fuel', k, value', m'', last, middle, result'', i, hoperate,
        hyields, hle', hrest⟩ := operate_of_exits hfilled
          (fun j' hlt node => found j' node) hexits
      refine ⟨max (max fuel fuel') k + 1, value', m'', last, middle, result'',
        i, ?_, hyields, by omega, hrest⟩
      rw [evaluate, operands_eq_collect,
        collect_below (evaluate_mono (by omega)) hcollect]
      exact operate_below (evaluate_mono (by omega)) (by omega) hoperate
termination_by (n, sizeOf node)
decreasing_by
  · have hsize := List.sizeOf_lt_of_mem hchild
    rcases Nat.lt_or_eq_of_le hle with hlt | rfl
    · exact Prod.Lex.left _ _ hlt
    · apply Prod.Lex.right
      simp
      omega
  · exact Prod.Lex.left _ _ (by omega)

/-- What the interpreter exits with is the meaning of the tree. -/
theorem bigStep_of_exits {optree : OpTreeNode} {m m' : Memory} {value : Value}
    {n : Nat} (h : (Interpreter.new optree m.pad).Exits n m.errno value m') :
    optree.BigStep m value m' := by
  let site : Site :=
    ⟨(RunnerState.evaluating optree m.world false).context, true, [], rfl⟩
  obtain ⟨fuel, value', m'', last, middle, result, j, hevaluate, hyields, _,
    hrest⟩ := found n optree site [] m (.value (.bool false)) value m' h
  have hexit := (site.exit_yields hyields result rfl).interpreter_exited
    site.running
  cases j with
  | zero =>
      obtain ⟨i, hstep, hresult, hpad⟩ := hrest
      rw [hexit] at hstep
      obtain ⟨_, hpair⟩ := Prod.mk.inj (Except.ok.inj hstep)
      obtain ⟨rfl, herrno⟩ := Prod.mk.inj hpair
      have hvalue : value' = value := OperationResult.value.inj hresult
      have hmemory : m'' = m' := by
        cases m''
        cases m'
        exact Memory.mk.injEq _ _ _ _ ▸ ⟨hpad, herrno⟩
      subst hvalue
      subst hmemory
      exact ⟨fuel, hevaluate⟩
  | succ j =>
      obtain ⟨i, errno, hstep, _⟩ := hrest
      rw [hexit] at hstep
      obtain ⟨hstate, _⟩ := Prod.mk.inj (Except.ok.inj hstep)
      contradiction

/-- The interpreter exits with a value exactly if the recursive evaluation of
the tree gives it, and leaves the same bindings. -/
theorem exits_iff_bigStep (optree : OpTreeNode) (m : Memory) (value : Value)
    (m' : Memory) :
    (∃ n, (Interpreter.new optree m.pad).Exits n m.errno value m') ↔
      optree.BigStep m value m' :=
  ⟨fun ⟨_, h⟩ => bigStep_of_exits h, exits_of_bigStep⟩

/-- A recursive function, bound globally by the program that calls it. -/
def factorial : OpTreeNode :=
  let i : OpTreeNode := .mk (.lexicalPad (.lexicalPadGet "i")) []
  let one : OpTreeNode := .mk (.interpreted (.int32Literal 1)) []
  let less : OpTreeNode := .mk (.interpreted .subtract) [i, one]
  let again : OpTreeNode := .mk (.controlFlow .functionCall)
    [.mk (.lexicalPad (.lexicalPadGet "factorial")) [],
      .mk (.dynamicInput .dynamicList) [less]]
  .mk (.controlFlow .ifOperation)
    [.mk (.interpreted .lesserEqual) [i, one],
      .mk (.interpreted (.staticCallable i [] true)) [],
      .mk (.interpreted (.staticCallable
        (.mk (.interpreted .multiply) [i, again]) [] true)) []]

def factorialOf (n : Int32) : OpTreeNode :=
  .mk (.dynamicInput .opSequence)
    [.mk (.lexicalPad (.lexicalPadInitializeGlobal "factorial"))
        [.mk (.interpreted (.staticCallable factorial ["i"] false)) []],
      .mk (.controlFlow .functionCall)
        [.mk (.lexicalPad (.lexicalPadGet "factorial")) [],
          .mk (.dynamicInput .dynamicList)
            [.mk (.interpreted (.int32Literal n)) []]]]

example : (evaluate 40 (factorialOf 5) ⟨.root [], 0⟩).map Prod.fst =
    some (.int32 120) := rfl

end BigStep

end NetworkProtocolDsl
