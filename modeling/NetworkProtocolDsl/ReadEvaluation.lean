/-
Runs of reads that end.

A run from the fresh frame of a node that only reads goes, if it ends, through
an evaluation of the node.  The proof is by induction on the passes that are
left: what a child or the body of a generator still has to run is a part of the
run.
-/
import NetworkProtocolDsl.EvaluationRules
import NetworkProtocolDsl.Generate
import NetworkProtocolDsl.Invocation
import NetworkProtocolDsl.Library.Endings

namespace NetworkProtocolDsl

open Run RunnerState Generate

namespace OpTreeNode

/-- A tree of reads: what it calls are the bodies of generators. -/
inductive OnlyReads : OpTreeNode → Prop where
  | interpreted {operation : InterpretedOperation} {children : List OpTreeNode}
      (harity : operation.arity ≤ children.length)
      (hchildren : ∀ child ∈ children, OnlyReads child) :
      OnlyReads (.mk (.interpreted operation) children)
  | lexicalPad {operation : LexicalPadOperation} {children : List OpTreeNode}
      (harity : operation.arity ≤ children.length)
      (hchildren : ∀ child ∈ children, OnlyReads child) :
      OnlyReads (.mk (.lexicalPad operation) children)
  | dynamicInput {operation : DynamicInputOperation}
      {children : List OpTreeNode}
      (hchildren : ∀ child ∈ children, OnlyReads child) :
      OnlyReads (.mk (.dynamicInput operation) children)
  | read {operation : InputOutputOperation} {children : List OpTreeNode}
      (hreads : operation.Reads) :
      OnlyReads (.mk (.inputOutput operation) children)
  | generateList {tree : OpTreeNode} (htree : OnlyReads tree) :
      OnlyReads (.mk (.controlFlow .generateList) [staticCallable tree []])

/-- A frame that waits has a child left to run. -/
def HasRoom (operation : Operation) (children : List OpTreeNode) : Prop :=
  ∀ values ctx, (ExecutionStackFrame.mk (.mk operation children) values
    ctx).hasArgumentsReady = false → values.length < children.length

variable {operation : Operation} {children : List OpTreeNode}

theorem hasRoom_of_arity {arity : Nat} (harity : operation.arity = some arity)
    (hle : arity ≤ children.length) : HasRoom operation children := by
  intro values ctx hready
  simp only [ExecutionStackFrame.hasArgumentsReady, OpTreeNode.operation,
    harity, decide_eq_false_iff_not] at hready
  omega

theorem hasRoom_of_dynamicInput (dynamic : DynamicInputOperation)
    (children : List OpTreeNode) :
    HasRoom (.dynamicInput dynamic) children := by
  intro values ctx hready
  simp only [ExecutionStackFrame.hasArgumentsReady, OpTreeNode.operation,
    Operation.arity, OpTreeNode.children, Bool.or_eq_false_iff] at hready
  exact Nat.lt_of_not_le (of_decide_eq_false hready.2)

theorem HasRoom.descend (hroom : HasRoom operation children)
    (hchildren : ∀ child ∈ children, ∃ pushed, child.descend = .ok pushed) :
    ∃ pushed, (OpTreeNode.mk operation children).descend = .ok pushed := by
  cases hready : (ExecutionStackFrame.new
      (.mk operation children)).hasArgumentsReady with
  | true => exact ⟨_, descend_of_ready hready⟩
  | false =>
      have hlt := hroom [] _ hready
      cases children with
      | nil => exact absurd hlt (Nat.lt_irrefl 0)
      | cons child children =>
          obtain ⟨pushed, hpushed⟩ := hchildren child List.mem_cons_self
          exact ⟨_, descend_of_child hready hpushed⟩

theorem OnlyReads.descend {node : OpTreeNode} (h : node.OnlyReads) :
    ∃ pushed, node.descend = .ok pushed := by
  induction h with
  | interpreted harity _ ih => exact (hasRoom_of_arity rfl harity).descend ih
  | lexicalPad harity _ ih => exact (hasRoom_of_arity rfl harity).descend ih
  | dynamicInput _ ih => exact (hasRoom_of_dynamicInput _ _).descend ih
  | read hreads =>
      refine ⟨_, descend_of_ready ?_⟩
      simp [ExecutionStackFrame.hasArgumentsReady, ExecutionStackFrame.new,
        OpTreeNode.operation, Operation.arity, hreads.arity]
  | generateList _ _ => exact ⟨_, rfl⟩

end OpTreeNode

namespace RunnerState

/-- So many passes bring the program to its exit. -/
abbrev ExitsIn : Nat → RunnerState → RunnerState → Prop :=
  EndsIn pass fun s => s.context.exited = true

namespace ExitsIn

variable {s t last : RunnerState} {n : Nat}

theorem alike (h : ExitsIn n s last) (halike : Alike s t) :
    ExitsIn n t last := by
  rcases halike with rfl | hother
  · exact h
  · have hrunning : ¬ s.context.exited = true := by
      rw [hother.1]
      exact Bool.false_ne_true
    have halike : Alike s t := Or.inr hother
    exact h.of_step_eq hrunning (halike.exited_eq ▸ hrunning) halike.pass_eq

/-- What a run leads to exits no later. -/
theorem leads (h : ExitsIn n s last) (hleads : Leads s t) :
    ∃ m ≤ n, ExitsIn m t last := by
  obtain ⟨s', hpasses, halike⟩ := hleads
  obtain ⟨m, hle, hm⟩ := h.reached (fun _ => pass_of_exited) hpasses
  exact ⟨m, hle, ExitsIn.alike hm halike⟩

end ExitsIn

end RunnerState

/-- A run that exits in so many passes from a fresh frame of the node goes
through an evaluation of it. -/
def OpTreeNode.Recovers (n : Nat) (node : OpTreeNode) : Prop :=
  ∀ (site : Site) frames w result last,
    ExitsIn n (site.state (ExecutionStackFrame.new node :: frames) w result)
      last →
    ∃ value w', node.Evaluates site.base.eof w value w'

namespace Site

variable {site : Site} {operation : Operation}
  {children before rest : List OpTreeNode} {ctx : OperationContext}
  {frames : List ExecutionStackFrame} {w : World} {result : OperationResult}
  {last : RunnerState} {n : Nat} {values : List Value}

theorem not_exited (site : Site) (stack : List ExecutionStackFrame) (w : World)
    (result : OperationResult) :
    ¬ (site.state stack w result).context.exited = true := by
  have hrunning : (site.state stack w result).context.exited = false :=
    site.running
  rw [hrunning]
  exact Bool.false_ne_true

/-- The next child of a frame that waits is evaluated, and the run goes on
behind it. -/
theorem recovers_child {child : OpTreeNode}
    (hready : (ExecutionStackFrame.mk (.mk operation children) values
      ctx).hasArgumentsReady = false)
    (hchild : children[values.length]? = some child)
    (hdescend : ∃ pushed, child.descend = .ok pushed)
    (hrecovers : child.Recovers n)
    (h : ExitsIn n (site.state (⟨.mk operation children, values, ctx⟩ ::
      frames) w result) last) :
    ∃ value w', child.Evaluates site.base.eof w value w' ∧
      ∃ m ≤ n, ExitsIn m (site.state (⟨.mk operation children,
        values ++ [value], ctx⟩ :: frames) w' (.value value)) last := by
  have hnext : (ExecutionStackFrame.mk (.mk operation children) values
      ctx).nextOp = .ok child := by
    simp only [ExecutionStackFrame.nextOp, OpTreeNode.children, hchild]
  obtain ⟨pushed, hpushed⟩ := hdescend
  have halike := (site.alike_child (w := w) result hready hnext hpushed
    frames).trans (site.alike_new (w := w) result hpushed (_ :: frames)).symm
  obtain ⟨value, w', hevaluates⟩ := hrecovers site _ w result last
    (ExitsIn.alike h halike)
  have hleads := site.leads_child hready hnext hevaluates frames result
  exact ⟨value, w', hevaluates, ExitsIn.leads h hleads⟩

/-- A run that exits fills the frame of an operation with its arguments. -/
theorem fills_of_exitsIn (hroom : OpTreeNode.HasRoom operation children)
    (hdescend : ∀ child ∈ rest, ∃ pushed, child.descend = .ok pushed)
    (hrecovers : ∀ child ∈ rest, ∀ m ≤ n, child.Recovers m)
    (hchildren : children = before ++ rest)
    (hlength : values.length = before.length)
    (h : ExitsIn n (site.state (⟨.mk operation children, values, ctx⟩ ::
      frames) w result) last) :
    ∃ values' w' result', (OpTreeNode.mk operation children).Fills
        site.base.eof values w values' w' ∧
      (ExecutionStackFrame.mk (.mk operation children) values'
        ctx).hasArgumentsReady = true ∧
      ∃ m ≤ n, ExitsIn m (site.state (⟨.mk operation children, values', ctx⟩ ::
        frames) w' result') last := by
  induction rest generalizing before values w result n with
  | nil =>
      cases hready : (ExecutionStackFrame.mk (.mk operation children) values
          ctx).hasArgumentsReady with
      | true =>
          exact ⟨values, w, result, OpTreeNode.Fills.refl _ _, hready, n,
            Nat.le_refl n, h⟩
      | false =>
          have hlt := hroom _ _ hready
          rw [hchildren, List.append_nil, hlength] at hlt
          exact absurd hlt (Nat.lt_irrefl _)
  | cons child rest ih =>
      cases hready : (ExecutionStackFrame.mk (.mk operation children) values
          ctx).hasArgumentsReady with
      | true =>
          exact ⟨values, w, result, OpTreeNode.Fills.refl _ _, hready, n,
            Nat.le_refl n, h⟩
      | false =>
          have hnext : children[values.length]? = some child := by
            simp [hchildren, hlength]
          obtain ⟨value, w₁, hevaluates, m, hle, hm⟩ := recovers_child hready
            hnext (hdescend child List.mem_cons_self)
            (hrecovers child List.mem_cons_self n (Nat.le_refl n)) h
          have happend : children = (before ++ [child]) ++ rest := by
            simp [hchildren]
          obtain ⟨values', w', result', hfills, hfull, k, hle', hk⟩ := ih
            (fun c hc => hdescend c (List.mem_cons_of_mem child hc))
            (fun c hc j hj => hrecovers c (List.mem_cons_of_mem child hc) j
              (hj.trans hle)) happend (by simp [hlength]) hm
          have hfirst : (OpTreeNode.mk operation children).Fills site.base.eof
              values w (values ++ [value]) w₁ :=
            .next (fun ctx => hready) hnext hevaluates
          exact ⟨values', w', result', hfirst.trans hfills, hfull, k,
            hle'.trans hle, hk⟩

/-- A run that exits evaluates nodes one after the other until one stops them.
-/
theorem inOrder_of_exitsIn {dynamic : DynamicInputOperation}
    (hdescend : ∀ child ∈ rest, ∃ pushed, child.descend = .ok pushed)
    (hrecovers : ∀ child ∈ rest, ∀ m ≤ n, child.Recovers m)
    (hlength : values.length = before.length)
    (hgoes : OpTreeNode.EvaluateInOrder.RunsThrough values)
    (h : ExitsIn n (site.state (⟨.mk (.dynamicInput dynamic) (before ++ rest),
      values, ctx⟩ :: frames) w result) last) :
    ∃ values' w', OpTreeNode.EvaluateInOrder site.base.eof rest w values'
      w' := by
  induction rest generalizing before values w result n with
  | nil => exact ⟨[], w, .nil w⟩
  | cons child rest ih =>
      have hready := OpTreeNode.EvaluateInOrder.dynamicInput_not_ready dynamic
        child rest hlength hgoes ctx
      have hnext : (before ++ child :: rest)[values.length]? = some child := by
        simp [hlength]
      obtain ⟨value, w₁, hevaluates, m, hle, hm⟩ := recovers_child hready
        hnext (hdescend child List.mem_cons_self)
        (hrecovers child List.mem_cons_self n (Nat.le_refl n)) h
      cases hstops : value.stops with
      | true => exact ⟨[value], w₁, .stop hevaluates hstops⟩
      | false =>
          have hthrough : OpTreeNode.EvaluateInOrder.RunsThrough
              (values ++ [value]) := by
            intro other hother
            rcases List.mem_append.mp hother with hother | hother
            · exact hgoes other hother
            · rw [List.mem_singleton.mp hother]
              exact hstops
          rw [List.append_cons] at hm
          obtain ⟨values', w', hrest⟩ := ih
            (fun c hc => hdescend c (List.mem_cons_of_mem child hc))
            (fun c hc j hj => hrecovers c (List.mem_cons_of_mem child hc) j
              (hj.trans hle)) (by simp [hlength]) hthrough hm
          exact ⟨value :: values', w', .cons hevaluates hstops hrest⟩

/-- A run that exits executes the topmost frame. -/
theorem execute_of_exitsIn {frame : ExecutionStackFrame}
    (hready : frame.hasArgumentsReady = true)
    (h : ExitsIn n (site.state (frame :: frames) w result) last) :
    ∃ execution, frame.execute w.pad w.errno = .ok execution := by
  obtain ⟨t, hpass⟩ := h.exists_step (site.not_exited _ _ _)
  cases hexecute : frame.execute w.pad w.errno with
  | ok execution => exact ⟨execution, rfl⟩
  | error fault =>
      have hprepare := site.prepare_top (w := w) result hready frames
      have hrunning := site.running
      simp only [Site.top] at hprepare
      simp only [RunnerState.pass, InterpreterContext.pass, Site.state,
        Site.top, hrunning, Bool.false_eq_true, ↓reduceIte, Interpreter.step,
        Continuation.step, hprepare, Continuation.executeTop, hexecute,
        Except.map] at hpass
      contradiction

/-- A run that exits ends what a read waits for; the read leaves the pad and
yields what it is executed to. -/
theorem finishes_read {operation : InputOutputOperation}
    (hreads : operation.Reads) {ctx : InputOutputOperationContext}
    (h : ExitsIn n (site.state (inputOutputFrame operation children values
      ctx :: frames) w result) last) :
    ∃ value w', w'.pad = w.pad ∧
      (∃ ctx' errno, operation.apply ctx' values errno =
        .ok ⟨.value value, ctx', w'.errno⟩) ∧
      (inputOutputFrame operation children values ctx).Finishes site.base.eof w
        value w' := by
  have harity : operation.arity ≤ values.length := by
    rw [hreads.arity]
    exact Nat.zero_le _
  have hready : ∀ ctx, (inputOutputFrame operation children values
      ctx).hasArgumentsReady = true := by
    intro ctx
    simp only [ExecutionStackFrame.hasArgumentsReady, inputOutputFrame,
      OpTreeNode.operation, Operation.arity]
    exact decide_eq_true harity
  induction n generalizing ctx w result with
  | zero =>
      obtain ⟨rfl, hexited⟩ := h
      exact absurd hexited (site.not_exited _ _ _)
  | succ n ih =>
      cases hwaits : operation.readyToEvaluate ctx with
      | true =>
          obtain ⟨value, errno, happly⟩ := hreads.apply_ready hwaits values
            w.errno
          have hexecute : (inputOutputFrame operation children values
              ctx).execute w.pad w.errno =
                .ok ⟨.value value, .inputOutput ctx, w.pad, errno⟩ := by
            simp only [inputOutputFrame, ExecutionStackFrame.execute,
              OpTreeNode.operation, happly, Except.map]
          exact ⟨value, { w with errno := errno }, rfl, ⟨ctx, w.errno, happly⟩,
            .of_execute _ (hready ctx) hexecute _⟩
      | false =>
          cases hqueue : operation.readQueue ctx site.base.eof w.input with
          | error fault =>
              obtain ⟨t, hpass⟩ := h.exists_step (site.not_exited _ _ _)
              let r : Reader := ⟨operation, children, values, frames,
                (site.state [] w result).context, harity, site.running⟩
              have hcontext := r.pass_eq w.errno w.input result hwaits
              have heof : r.base.eof = site.base.eof := rfl
              rw [heof, hqueue] at hcontext
              have hfault : (site.state (inputOutputFrame operation children
                  values ctx :: frames) w result).pass = .error fault :=
                congrArg (Except.map _) hcontext
              rw [hfault] at hpass
              contradiction
          | ok answer =>
              obtain ⟨report, ctx', queue⟩ := answer
              have hstep := site.pass_waiting (w := w) result children harity
                hwaits frames hqueue
              obtain ⟨m, hm, hrest⟩ := h.tail (site.not_exited _ _ _)
                hstep.pass
              obtain rfl : n = m := by omega
              obtain ⟨value, w', hpad, happlied, hfinishes⟩ := ih hrest
              refine ⟨value, w', hpad, happlied,
                fun site' heof frames' result' => ?_⟩
              rw [← heof] at hqueue
              have hstep' := site'.pass_waiting (w := w) result' children
                harity hwaits frames' hqueue
              obtain ⟨final, middle, result'', hleads, hyields⟩ :=
                hfinishes site' heof frames' (.blocked .waitingForRead)
              exact ⟨final, middle, result'',
                (Leads.single hstep'.pass).trans hleads, hyields⟩

/-- A generator whose body does not stop it invokes it again. -/
theorem generateList_again (callable : Callable) (accumulator : List Value)
    {value : Value} (hgoes : value.stops = false) :
    GenerateList.apply
      { callable := some (.callable callable), value := some value
        accumulator := accumulator, callableInvoked := true }
      (.callable callable) = .ok (.blocked .waitingForCallableInvocation,
        { callable := some (.callable callable)
          accumulator := accumulator ++ [value] }) := by
  cases value with
  | runtimeError _ | controlFlowInstruction _ => contradiction
  | bool _ | int32 _ | octets _ | dynamicList _ | dictionary _ | callable _ =>
      rfl

/-- A run that exits ends the rounds of the generator. -/
theorem rounds_of_exitsIn {tree : OpTreeNode}
    (hdescend : ∃ pushed, tree.descend = .ok pushed)
    (hrecovers : ∀ m < n, tree.Recovers m) (accumulator : List Value)
    {ctx : ControlFlowOperationContext}
    (happly : GenerateList.apply ctx (.callable ⟨tree, [], true⟩) =
      .ok (.blocked .waitingForCallableInvocation,
        { callable := some (.callable ⟨tree, [], true⟩)
          accumulator := accumulator }))
    (h : ExitsIn n (site.state (controlFlowFrame .generateList children
      [.callable ⟨tree, [], true⟩] ctx :: frames) w result) last) :
    ∃ values stop w',
      Callable.Rounds site.base.eof ⟨tree, [], true⟩ w values stop w' := by
  induction n using Nat.strong_induction_on generalizing ctx accumulator w
      result with
  | _ n ih =>
      obtain ⟨pushed, hpushed⟩ := hdescend
      obtain ⟨t, hinvoke, halike⟩ := site.pass_invoke (w := w) result
        .generateList children [.callable ⟨tree, [], true⟩] (Nat.le_refl 1)
        happly rfl rfl (Or.inr rfl) hpushed frames
      obtain ⟨i, rfl, hi⟩ := h.tail (site.not_exited _ _ _) hinvoke.pass
      obtain ⟨value, w₁, hbody⟩ := hrecovers i (Nat.lt_succ_self i) _ _ _ _ _
        (ExitsIn.alike hi halike)
      let w₂ : World := { w₁ with
        pad := LexicalPad.afterCall true w.pad w₁.pad }
      have hvalue : Callable.Evaluates site.base.eof ⟨tree, [], true⟩ [] w
          value w₂ := ⟨w₁, hbody, rfl⟩
      obtain ⟨final, middle, result', hleads, hyields⟩ := hbody.2 _ rfl []
        (.value (.bool false))
      have hreturn := site.pass_return result' .generateList children
        [.callable ⟨tree, [], true⟩] (Nat.le_refl 1)
        { callable := some (.callable ⟨tree, [], true⟩)
          accumulator := accumulator
          callableInvoked := true } frames w.pad ⟨tree, [], true⟩ hyields
      obtain ⟨m, hle, hm⟩ := ExitsIn.leads hi
        (((Leads.of_alike halike).trans hleads).step hreturn.pass)
      cases hstops : value.stops with
      | true => exact ⟨[], value, w₂, .last hvalue hstops⟩
      | false =>
          obtain ⟨values, stop, w', hrest⟩ := ih m (by omega)
            (fun j hj => hrecovers j (by omega)) _
            (generateList_again ⟨tree, [], true⟩ accumulator hstops) hm
          exact ⟨value :: values, stop, w', .next hvalue hstops hrest⟩

end Site

namespace OpTreeNode

/-- A filled frame that yields a value whenever it is executed. -/
theorem Evaluates.of_fills_execute {operation : Operation}
    {children : List OpTreeNode} {eof : Bool} {values : List Value}
    {w w₁ : World} (hdescend : ∃ pushed, (OpTreeNode.mk operation
      children).descend = .ok pushed)
    (hfills : (OpTreeNode.mk operation children).Fills eof [] w values w₁)
    (hready : (ExecutionStackFrame.mk (.mk operation children) values
      operation.initializeContext).hasArgumentsReady = true)
    {value : Value} {ctx : OperationContext} {pad : LexicalPad} {errno : Errno}
    (hexecute : (ExecutionStackFrame.mk (.mk operation children) values
      operation.initializeContext).execute w₁.pad w₁.errno =
        .ok ⟨.value value, ctx, pad, errno⟩) :
    (OpTreeNode.mk operation children).Evaluates eof w value
      { w₁ with pad := pad, errno := errno } := by
  obtain ⟨pushed, hpushed⟩ := hdescend
  exact .of_fills hpushed hfills (.of_execute ctx hready hexecute eof)

/-- Every run of a tree of reads that exits goes through an evaluation. -/
theorem OnlyReads.recovers {node : OpTreeNode} (h : node.OnlyReads) (n : Nat) :
    node.Recovers n := by
  induction h generalizing n with
  | @interpreted operation children harity hchildren ih =>
      intro site frames w result last hexits
      have hroom : HasRoom (.interpreted operation) children :=
        hasRoom_of_arity rfl harity
      have hdescend := fun c hc => (hchildren c hc).descend
      obtain ⟨values, w', result', hfills, hready, m, hle, hm⟩ :=
        Site.fills_of_exitsIn hroom hdescend (fun c hc j hj => ih c hc j)
          (List.nil_append children).symm rfl hexits
      obtain ⟨execution, hexecute⟩ := Site.execute_of_exitsIn hready hm
      obtain ⟨value, _, rfl⟩ := map_eq_ok hexecute
      exact ⟨value, _, .of_fills_execute (hroom.descend hdescend) hfills
        hready hexecute⟩
  | @lexicalPad operation children harity hchildren ih =>
      intro site frames w result last hexits
      have hroom : HasRoom (.lexicalPad operation) children :=
        hasRoom_of_arity rfl harity
      have hdescend := fun c hc => (hchildren c hc).descend
      obtain ⟨values, w', result', hfills, hready, m, hle, hm⟩ :=
        Site.fills_of_exitsIn hroom hdescend (fun c hc j hj => ih c hc j)
          (List.nil_append children).symm rfl hexits
      obtain ⟨execution, hexecute⟩ := Site.execute_of_exitsIn hready hm
      obtain ⟨⟨value, pad⟩, _, rfl⟩ := map_eq_ok hexecute
      exact ⟨value, _, .of_fills_execute (hroom.descend hdescend) hfills
        hready hexecute⟩
  | @dynamicInput operation children hchildren ih =>
      intro site frames w result last hexits
      have hsite : ExitsIn n (site.state
          (⟨.mk (.dynamicInput operation) ([] ++ children), [], .none⟩ ::
            frames) w result) last := hexits
      obtain ⟨values, w', horder⟩ := Site.inOrder_of_exitsIn
        (fun c hc => (hchildren c hc).descend) (fun c hc j _ => ih c hc j) rfl
        (fun _ hv => absurd hv List.not_mem_nil) hsite
      exact ⟨_, w', horder.evaluates operation⟩
  | read hreads =>
      intro site frames w result last hexits
      obtain ⟨value, w', _, _, hfinishes⟩ := Site.finishes_read hreads hexits
      exact ⟨value, w', (OnlyReads.read hreads).descend, hfinishes⟩
  | @generateList tree htree ih =>
      intro site frames w result last hexits
      have hcallable : (staticCallable tree []).Evaluates site.base.eof w
          (.callable ⟨tree, [], true⟩) w := evaluates_interpreted rfl rfl
      obtain ⟨value, w₁, hvalue, m, hle, hm⟩ := Site.recovers_child rfl rfl
        ⟨_, rfl⟩ (fun site' frames' w' _ _ _ => ⟨.callable ⟨tree, [], true⟩,
          w', evaluates_interpreted rfl rfl⟩) hexits
      obtain ⟨rfl, rfl⟩ := hcallable.unique hvalue
      obtain ⟨values, stop, w', hrounds⟩ := Site.rounds_of_exitsIn
        htree.descend (fun j hj => ih j) [] rfl hm
      exact ⟨_, w', .unary rfl hcallable (finishes_rounds _ [] rfl hrounds
        rfl)⟩

/-- A tree of reads runs to what it evaluates to. -/
theorem OnlyReads.runsTo_iff_evaluates {eof : Bool} {node : OpTreeNode}
    (h : node.OnlyReads) {w w' : World} {value : Value} :
    node.RunsTo eof w value w' ↔ node.Evaluates eof w value w' := by
  constructor
  · intro hruns
    obtain ⟨s, hpasses, hfinished⟩ := hruns
    obtain ⟨n, hn⟩ := EndsIn.of_reaches (fun _ => pass_of_exited) hpasses
      hfinished.exited
    let site : Site :=
      ⟨(RunnerState.evaluating node w eof).context, true, [], rfl⟩
    obtain ⟨value', w'', hevaluates⟩ := h.recovers n site [] w
      (.value (.bool false)) s hn
    obtain ⟨rfl, rfl⟩ := RunsTo.unique ⟨s, hpasses, hfinished⟩
      hevaluates.runsTo
    exact hevaluates
  · exact Evaluates.runsTo

/-- A program that evaluates to something exits. -/
theorem Evaluates.exitsIn {eof : Bool} {node : OpTreeNode} {w w' : World}
    {value : Value} (h : node.Evaluates eof w value w') :
    ∃ (site : Site) (n : Nat) (last : RunnerState), site.base.eof = eof ∧
      ExitsIn n (site.state [ExecutionStackFrame.new node] w
        (.value (.bool false))) last := by
  obtain ⟨s, hpasses, hfinished⟩ := h.runsTo
  obtain ⟨n, hn⟩ := EndsIn.of_reaches (fun _ => pass_of_exited) hpasses
    hfinished.exited
  exact ⟨⟨(RunnerState.evaluating node w eof).context, true, [], rfl⟩, n, s,
    rfl, hn⟩

/-- A read leaves the pad alone. -/
theorem read_pad {eof : Bool} {operation : InputOutputOperation}
    (hreads : operation.Reads) {children : List OpTreeNode} {w w' : World}
    {value : Value}
    (h : (OpTreeNode.mk (.inputOutput operation) children).Evaluates eof w
      value w') : w'.pad = w.pad := by
  obtain ⟨site, n, last, rfl, hexits⟩ := h.exitsIn
  obtain ⟨value', w'', hpad, _, hfinishes⟩ := Site.finishes_read hreads hexits
  obtain ⟨_, rfl⟩ := h.unique ⟨h.1, hfinishes⟩
  exact hpad

/-- The value of a read is what the operation was executed to. -/
theorem read_applied {eof : Bool} {operation : InputOutputOperation}
    (hreads : operation.Reads) {children : List OpTreeNode} {w w' : World}
    {value : Value}
    (h : (OpTreeNode.mk (.inputOutput operation) children).Evaluates eof w
      value w') :
    ∃ ctx errno, operation.apply ctx [] errno =
      .ok ⟨.value value, ctx, w'.errno⟩ := by
  obtain ⟨site, n, last, rfl, hexits⟩ := h.exitsIn
  obtain ⟨value', w'', _, happlied, hfinishes⟩ :=
    Site.finishes_read hreads hexits
  obtain ⟨rfl, rfl⟩ := h.unique ⟨h.1, hfinishes⟩
  exact happlied

/-- The argument of an operation was evaluated. -/
theorem OnlyReads.argument {eof : Bool} {operation : Operation}
    {child : OpTreeNode} (harity : operation.arity = some 1)
    (hchild : child.OnlyReads) {w w' : World} {value : Value}
    (h : (OpTreeNode.mk operation [child]).Evaluates eof w value w') :
    ∃ argument w₁, child.Evaluates eof w argument w₁ := by
  have hready : (ExecutionStackFrame.new
      (.mk operation [child])).hasArgumentsReady = false := by
    simp [ExecutionStackFrame.hasArgumentsReady, ExecutionStackFrame.new,
      OpTreeNode.operation, harity]
  obtain ⟨site, n, last, rfl, hexits⟩ := h.exitsIn
  obtain ⟨argument, w₁, hargument, _⟩ := Site.recovers_child hready rfl
    hchild.descend (hchild.recovers n) hexits
  exact ⟨argument, w₁, hargument⟩

/-- The second argument of an operation was evaluated behind the first. -/
theorem OnlyReads.second {eof : Bool} {operation : Operation}
    {first child : OpTreeNode} (harity : operation.arity = some 2)
    {w w₁ w' : World} {lhs value : Value}
    (hfirst : first.Evaluates eof w lhs w₁) (hchild : child.OnlyReads)
    (h : (OpTreeNode.mk operation [first, child]).Evaluates eof w value w') :
    ∃ rhs w₂, child.Evaluates eof w₁ rhs w₂ := by
  have hready := fun values hlt => binary_not_ready first child harity values
    operation.initializeContext hlt
  obtain ⟨site, n, last, rfl, hexits⟩ := h.exitsIn
  have hleads := site.leads_child (hready [] (by simp)) rfl hfirst []
    (.value (.bool false))
  obtain ⟨m, _, hm⟩ := ExitsIn.leads hexits hleads
  obtain ⟨rhs, w₂, hsecond, _⟩ := Site.recovers_child
    (hready [lhs] (by simp)) rfl hchild.descend (hchild.recovers m) hm
  exact ⟨rhs, w₂, hsecond⟩

/-- A generator of reads goes round until its body stops it. -/
theorem OnlyReads.rounds {eof : Bool} {tree : OpTreeNode} (h : tree.OnlyReads)
    {w w' : World} {value : Value}
    (hvalue : (OpTreeNode.mk (.controlFlow .generateList)
      [staticCallable tree []]).Evaluates eof w value w') :
    ∃ values stop, Callable.Rounds eof ⟨tree, [], true⟩ w values stop w' ∧
      value = GenerateList.outcome values stop := by
  have hcallable : (staticCallable tree []).Evaluates eof w
      (.callable ⟨tree, [], true⟩) w := evaluates_interpreted rfl rfl
  have hready : (ExecutionStackFrame.new (.mk (.controlFlow .generateList)
      [staticCallable tree []])).hasArgumentsReady = false := rfl
  obtain ⟨site, n, last, rfl, hexits⟩ := hvalue.exitsIn
  have hleads := site.leads_child hready rfl hcallable []
    (.value (.bool false))
  obtain ⟨m, _, hm⟩ := ExitsIn.leads hexits hleads
  obtain ⟨values, stop, w₁, hrounds⟩ := Site.rounds_of_exitsIn h.descend
    (fun j _ => h.recovers j) [] rfl hm
  obtain ⟨rfl, rfl⟩ := hvalue.unique (.unary rfl hcallable
    (finishes_rounds _ [] rfl hrounds rfl))
  exact ⟨values, stop, hrounds, rfl⟩

/-- A sequence of reads evaluates its children in order. -/
theorem OnlyReads.inOrder {eof : Bool} {dynamic : DynamicInputOperation}
    {children : List OpTreeNode} (h : ∀ child ∈ children, child.OnlyReads)
    {w w' : World} {value : Value}
    (hruns : (OpTreeNode.mk (.dynamicInput dynamic) children).RunsTo eof w value
      w') :
    ∃ values, EvaluateInOrder eof children w values w' ∧
      value = dynamic.apply values := by
  obtain ⟨s, hpasses, hfinished⟩ := hruns
  obtain ⟨n, hn⟩ := EndsIn.of_reaches (fun _ => pass_of_exited) hpasses
    hfinished.exited
  let site : Site := ⟨(RunnerState.evaluating (.mk (.dynamicInput dynamic)
    children) w eof).context, true, [], rfl⟩
  have hsite : ExitsIn n (site.state (⟨.mk (.dynamicInput dynamic)
      ([] ++ children), [], .none⟩ :: []) w (.value (.bool false))) s := hn
  obtain ⟨values, w'', horder⟩ := Site.inOrder_of_exitsIn
    (fun c hc => (h c hc).descend) (fun c hc j _ => (h c hc).recovers j) rfl
    (fun _ hv => absurd hv List.not_mem_nil) hsite
  obtain ⟨rfl, rfl⟩ := RunsTo.unique ⟨s, hpasses, hfinished⟩
    (horder.evaluates dynamic).runsTo
  exact ⟨values, horder, rfl⟩

end OpTreeNode

end NetworkProtocolDsl
