/-
Frames of well-scoped trees.

The pad binds the names in scope of the frame's next child, and an operation
invokes only the callable the tree holds.  Evaluating such a frame fails no
assertion and leaves another one.
-/
import NetworkProtocolDsl.LexicalScope
import NetworkProtocolDsl.WellScoped

namespace NetworkProtocolDsl

open Run Generate TransitionChoice

/-- Between two invocations the state machine holds the callback of the state
it is in, or of the transition it follows. -/
def HoldsCallback (states : StateMap) (ctx : ControlFlowOperationContext)
    (value : Value) : Prop :=
  ∃ info, ctx.additionalInfo = some info ∧ info.toState ∈ states ∧
    (info.processingMode = .state ∧ ctx.accumulator.length = 1 ∧
        value = .callable
          ⟨info.toState.2.callbackOptree, ["dictionary"], true⟩ ∨
      info.processingMode = .transition ∧ ∃ source ∈ states,
        ∃ transition ∈ source.2.transitions, info.transition = some transition ∧
          ctx.accumulator.length = transition.2.argumentNames.length ∧
          value = .callable ⟨transition.2.callbackOptree,
            transition.2.argumentNames, true⟩)

/-- What an operation is about to invoke is its own: the state machine's
callback or the callable a loop has as its first child. -/
def HoldsOwnCallable : OpTreeNode → OperationContext → Prop
  | .mk (.controlFlow (.stateMachineOperation states)) _, .controlFlow ctx =>
      ∀ value, ctx.callable = some value → HoldsCallback states ctx value
  | .mk (.controlFlow _) (first :: _), .controlFlow ctx =>
      ∀ value, ctx.callable = some value → ∃ tree names,
        first = staticCallable tree names ∧
          value = .callable ⟨tree, names, true⟩
  | _, _ => True

/-- The pad binds the names of the frame's next child, and the callables among
the values of its children are the children's own. -/
structure ScopedFrame (pad : LexicalPad) (frame : ExecutionStackFrame) :
    Prop where
  scope : ∃ place scope, WellScoped place scope frame.optreenode ∧
    ∀ name ∈ scopeAt scope frame.optreenode.children frame.accumulator.length,
      pad.Binds name
  callables : ∀ (k : Nat) tree names (value : Value),
    frame.optreenode.children[k]? = some (staticCallable tree names) →
    frame.accumulator[k]? = some value → value = .callable ⟨tree, names, true⟩
  context : HoldsOwnCallable frame.optreenode frame.ctx

theorem ExecutionStackFrame.nextOp_eq_ok {frame : ExecutionStackFrame}
    {child : OpTreeNode} (h : frame.nextOp = .ok child) :
    frame.optreenode.children[frame.accumulator.length]? = some child := by
  rw [ExecutionStackFrame.nextOp] at h
  split at h
  · rename_i other hother
    rw [hother, Except.ok.inj h]
  · contradiction

theorem holdsOwnCallable_new (node : OpTreeNode) :
    HoldsOwnCallable node node.operation.initializeContext := by
  obtain ⟨operation, children⟩ := node
  cases operation with
  | controlFlow operation =>
      cases operation with
      | stateMachineOperation states =>
          intro value hvalue
          cases hvalue
      | functionCall | functionCallForEach _ | generateList | ifOperation =>
          cases children with
          | nil => trivial
          | cons first rest =>
              intro value hvalue
              cases hvalue
  | interpreted _ | unaryCallback _ | inputOutput _ | lexicalPad _
  | dynamicInput _ => trivial

/-- It depends on the callable and on what the state machine remembers. -/
theorem HoldsOwnCallable.congr {node : OpTreeNode}
    {ctx ctx' : ControlFlowOperationContext}
    (h : HoldsOwnCallable node (.controlFlow ctx))
    (hcallable : ctx'.callable = ctx.callable)
    (hinfo : ctx'.additionalInfo = ctx.additionalInfo)
    (haccumulator : ctx'.accumulator = ctx.accumulator) :
    HoldsOwnCallable node (.controlFlow ctx') := by
  obtain ⟨operation, children⟩ := node
  cases operation with
  | interpreted _ | unaryCallback _ | inputOutput _ | lexicalPad _
  | dynamicInput _ => trivial
  | controlFlow operation =>
      cases operation with
      | stateMachineOperation states =>
          intro value hvalue
          have hcallback := h value (hcallable ▸ hvalue)
          rw [HoldsCallback, hinfo, haccumulator]
          exact hcallback
      | functionCall | functionCallForEach _ | generateList | ifOperation =>
          cases children with
          | nil => trivial
          | cons first rest =>
              intro value hvalue
              exact h value (hcallable ▸ hvalue)

section StateMachine

open StateMachineOperation

variable {states : StateMap} {ctx ctx' : ControlFlowOperationContext}
  {info : ProcessingInfo} {result : OperationResult}

theorem holdsCallback_startState (htarget : info.toState ∈ states)
    (hlength : ctx.accumulator.length = 1)
    (h : startStateCallback ctx info = .ok (result, ctx')) :
    ∃ value, ctx'.callable = some value ∧
      HoldsCallback states ctx' value := by
  obtain ⟨_, rfl⟩ := Prod.mk.inj (Except.ok.inj h)
  exact ⟨_, rfl, _, rfl, htarget, Or.inl ⟨rfl, hlength, rfl⟩⟩

theorem holdsCallback_startTransition (htarget : info.toState ∈ states)
    {source : String × StateInfo} (hsource : source ∈ states)
    {transition : Octets × TransitionInfo}
    (hmem : transition ∈ source.2.transitions)
    (htransition : info.transition = some transition)
    (hlength : ctx.accumulator.length = transition.2.argumentNames.length)
    (h : startTransitionCallback ctx info = .ok (result, ctx')) :
    ∃ value, ctx'.callable = some value ∧
      HoldsCallback states ctx' value := by
  simp only [startTransitionCallback, htransition] at h
  obtain ⟨_, rfl⟩ := Prod.mk.inj (Except.ok.inj h)
  exact ⟨_, rfl, _, rfl, htarget,
    Or.inr ⟨rfl, source, hsource, transition, hmem, rfl, hlength, rfl⟩⟩

/-- An evaluation that does not end follows a state or a transition of the
map. -/
theorem holdsCallback_apply
    (hholds : ∀ value, ctx.callable = some value →
      HoldsCallback states ctx value)
    {reason : ReasonForBlockedOperation}
    (h : StateMachineOperation.apply states ctx = .ok (.blocked reason, ctx')) :
    ∃ value, ctx'.callable = some value ∧
      HoldsCallback states ctx' value := by
  cases hcallable : ctx.callable with
  | none =>
      simp only [StateMachineOperation.apply, hcallable] at h
      split at h
      · cases h
      · rename_i state hopen
        exact holdsCallback_startState (Assoc.mem_of_lookup hopen) rfl h
  | some callable =>
      obtain ⟨info, hinfo, htarget, _⟩ := hholds callable hcallable
      simp only [StateMachineOperation.apply, hcallable, hinfo] at h
      split at h
      · cases hvalue : ctx.value with
        | none =>
            simp only [hvalue] at h
            obtain ⟨_, rfl⟩ := Prod.mk.inj (Except.ok.inj h)
            exact ⟨callable, hcallable, hholds callable hcallable⟩
        | some value =>
            simp only [hvalue] at h
            cases hmode : info.processingMode with
            | transition =>
                simp only [hmode] at h
                split at h
                · cases h
                · unfold processTransitionReturn at h
                  split at h
                  · exact holdsCallback_startState htarget rfl h
                  · cases h
                  · cases h
                  · cases h
            | state =>
                simp only [hmode] at h
                unfold processStateReturn at h
                split at h
                · unfold processStateReturnWithArgs at h
                  split at h
                  · split at h
                    · cases h
                    · simp only at h
                      split at h
                      · cases h
                      · rename_i transition hlookup
                        split at h
                        · cases h
                        · rename_i target hstate
                          exact holdsCallback_startTransition
                            (Assoc.mem_of_lookup hstate) htarget
                            (Assoc.mem_of_lookup hlookup) rfl (by
                              simp [extractArguments]) h
                  · cases h
                · cases h
                · cases h
      · obtain ⟨_, rfl⟩ := Prod.mk.inj (Except.ok.inj h)
        exact ⟨callable, hcallable, hholds callable hcallable⟩

end StateMachine

namespace ScopedFrame

variable {pad pad' : LexicalPad} {frame : ExecutionStackFrame}

theorem new {place : Place} {scope : List String} {node : OpTreeNode}
    (h : WellScoped place scope node)
    (hnames : ∀ name ∈ scope, pad.Binds name) :
    ScopedFrame pad (ExecutionStackFrame.new node) where
  scope := ⟨place, scope, h, hnames⟩
  callables := fun _ _ _ _ _ hvalue => by cases hvalue
  context := holdsOwnCallable_new node

theorem grows (h : ScopedFrame pad frame) (hgrows : pad.Grows pad') :
    ScopedFrame pad' frame where
  scope := by
    obtain ⟨place, scope, hscoped, hnames⟩ := h.scope
    exact ⟨place, scope, hscoped, fun name hname =>
      hgrows.binds (hnames name hname)⟩
  callables := h.callables
  context := h.context

/-- A frame that waits has a next child, whose names are bound. -/
theorem nextOp (h : ScopedFrame pad frame)
    (hready : frame.hasArgumentsReady = false) :
    ∃ child place scope, frame.nextOp = .ok child ∧
      WellScoped place scope child ∧ ∀ name ∈ scope, pad.Binds name := by
  obtain ⟨place, scope, hscoped, hnames⟩ := h.scope
  have hlength : frame.accumulator.length <
      frame.optreenode.children.length := by
    rw [ExecutionStackFrame.hasArgumentsReady] at hready
    split at hready
    · rename_i n harity
      have hle := hscoped.arity_le harity
      have hlt : ¬ n ≤ frame.accumulator.length := by simpa using hready
      omega
    · obtain ⟨_, hlt⟩ := (Bool.or_eq_false_iff).mp hready
      simpa using hlt
  have hchild := List.getElem?_eq_getElem hlength
  have hnext : frame.nextOp =
      .ok frame.optreenode.children[frame.accumulator.length] := by
    simp only [ExecutionStackFrame.nextOp, hchild]
  rcases hscoped.child hchild with hscoped' | ⟨conditions, _, _, hlookahead⟩
  · exact ⟨_, .action, _, hnext, hscoped', hnames⟩
  · rw [hlookahead] at hnext
    exact ⟨_, .lookahead, _, hnext, .lookahead conditions, hnames⟩

/-- The value of the next child. -/
theorem pushBack (h : ScopedFrame pad frame) {child : OpTreeNode}
    (hnext : frame.nextOp = .ok child) {value : Value}
    (hgrows : pad.Grows pad')
    (hnames : ∀ name ∈ child.operation.initializes, pad'.Binds name)
    (hcallable : ∀ tree names, child = staticCallable tree names →
      value = .callable ⟨tree, names, true⟩) :
    ScopedFrame pad' (frame.pushBack value) := by
  have hchild := ExecutionStackFrame.nextOp_eq_ok hnext
  obtain ⟨place, scope, hscoped, hbound⟩ := h.scope
  constructor
  · refine ⟨place, scope, hscoped, fun name hname => ?_⟩
    simp only [ExecutionStackFrame.pushBack, List.length_append,
      List.length_singleton] at hname
    rcases mem_scopeAt_succ hchild hname with hnew | hname
    · exact hnames name hnew
    · exact hgrows.binds (hbound name hname)
  · intro k tree names held hat hheld
    simp only [ExecutionStackFrame.pushBack] at hat hheld
    rcases Nat.lt_trichotomy k frame.accumulator.length with hlt | heq | hgt
    · rw [List.getElem?_append_left hlt] at hheld
      exact h.callables k tree names held hat hheld
    · subst heq
      rw [List.getElem?_concat_length] at hheld
      rw [hchild] at hat
      rw [← Option.some.inj hheld]
      exact hcallable tree names (Option.some.inj hat)
    · rw [List.getElem?_eq_none (by simp; omega)] at hheld
      contradiction
  · exact h.context

end ScopedFrame

theorem FunctionCallForEach.apply_callable {callable arglist : Value}
    {ctx ctx' : ControlFlowOperationContext} {result : OperationResult}
    (h : FunctionCallForEach.apply ctx callable arglist = .ok (result, ctx')) :
    ctx'.callable = ctx.callable ∨ ctx'.callable = some callable := by
  cases hcallable : ctx.callable with
  | none =>
      simp only [apply, hcallable, start] at h
      split at h
      · obtain ⟨_, rfl⟩ := Prod.mk.inj (Except.ok.inj h)
        exact Or.inr rfl
      · contradiction
      · obtain ⟨_, rfl⟩ := Prod.mk.inj (Except.ok.inj h)
        exact Or.inl hcallable
  | some held =>
      left
      simp only [apply, hcallable] at h
      split at h
      · split at h
        · split at h
          · obtain ⟨_, rfl⟩ := Prod.mk.inj (Except.ok.inj h)
            rfl
          · obtain ⟨_, rfl⟩ := Prod.mk.inj (Except.ok.inj h)
            rfl
        · obtain ⟨_, rfl⟩ := Prod.mk.inj (Except.ok.inj h)
          exact hcallable
      · obtain ⟨_, rfl⟩ := Prod.mk.inj (Except.ok.inj h)
        exact hcallable

theorem GenerateList.apply_callable {callable : Value}
    {ctx ctx' : ControlFlowOperationContext} {result : OperationResult}
    (h : GenerateList.apply ctx callable = .ok (result, ctx')) :
    ctx'.callable = ctx.callable ∨ ctx'.callable = some callable := by
  cases hcallable : ctx.callable with
  | none =>
      simp only [apply, hcallable] at h
      split at h
      · obtain ⟨_, rfl⟩ := Prod.mk.inj (Except.ok.inj h)
        exact Or.inr rfl
      · obtain ⟨_, rfl⟩ := Prod.mk.inj (Except.ok.inj h)
        exact Or.inl hcallable
  | some held =>
      left
      simp only [apply, hcallable] at h
      split at h
      · split at h
        · obtain ⟨_, rfl⟩ := Prod.mk.inj (Except.ok.inj h)
          exact hcallable
        · obtain ⟨_, rfl⟩ := Prod.mk.inj (Except.ok.inj h)
          exact hcallable
        · obtain ⟨_, rfl⟩ := Prod.mk.inj (Except.ok.inj h)
          rfl
        · obtain ⟨_, rfl⟩ := Prod.mk.inj (Except.ok.inj h)
          exact hcallable
      · obtain ⟨_, rfl⟩ := Prod.mk.inj (Except.ok.inj h)
        exact hcallable

namespace ExecutionStackFrame

variable {frame : ExecutionStackFrame} {pad : LexicalPad} {errno : Errno}
  {execution : Execution}

theorem execute_grows (h : frame.execute pad errno = .ok execution) :
    pad.Grows execution.pad := by
  unfold execute at h
  split at h
  · obtain ⟨_, _, rfl⟩ := map_eq_ok h
    exact .refl pad
  · obtain ⟨_, _, rfl⟩ := map_eq_ok h
    exact .refl pad
  · obtain rfl := Except.ok.inj h
    exact .refl pad
  · obtain ⟨_, _, rfl⟩ := map_eq_ok h
    exact .refl pad
  · obtain ⟨⟨value, pad'⟩, happly, rfl⟩ := map_eq_ok h
    exact LexicalPadOperation.apply_grows happly
  · obtain rfl := Except.ok.inj h
    exact .refl pad
  · contradiction

/-- After the operation the name it initialises is bound. -/
theorem execute_binds (h : frame.execute pad errno = .ok execution)
    {name : String} (hname : name ∈ frame.optreenode.operation.initializes) :
    execution.pad.Binds name := by
  unfold execute at h
  split at h
  · rename_i hoperation
    rw [hoperation] at hname
    cases hname
  · rename_i hoperation _
    rw [hoperation] at hname
    cases hname
  · rename_i hoperation _
    rw [hoperation] at hname
    cases hname
  · rename_i hoperation _
    rw [hoperation] at hname
    cases hname
  · rename_i operation hoperation
    obtain ⟨⟨value, pad'⟩, happly, rfl⟩ := map_eq_ok h
    rw [hoperation] at hname
    cases operation with
    | lexicalPadInitialize initialized =>
        obtain rfl := List.mem_singleton.mp hname
        cases hargs : frame.accumulator with
        | nil =>
            rw [hargs] at happly
            contradiction
        | cons value args =>
            rw [hargs] at happly
            obtain ⟨_, rfl⟩ := Prod.mk.inj (Except.ok.inj happly)
            exact LexicalPad.binds_initializeLocal name value pad
    | lexicalPadGet _ | lexicalPadInitializeGlobal _ | lexicalPadSet _
    | lexicalPadAsDict => cases hname
  · rename_i hoperation
    rw [hoperation] at hname
    cases hname
  · contradiction

theorem execute_staticCallable {tree : OpTreeNode} {names : List String}
    (hnode : frame.optreenode = staticCallable tree names)
    (h : frame.execute pad errno = .ok execution) :
    execution.result = .value (.callable ⟨tree, names, true⟩) := by
  obtain ⟨node, accumulator, ctx⟩ := frame
  obtain rfl : node = staticCallable tree names := hnode
  simp only [execute, staticCallable, OpTreeNode.operation] at h
  obtain ⟨value, hvalue, rfl⟩ := map_eq_ok h
  rw [← Except.ok.inj hvalue]

end ExecutionStackFrame

namespace ScopedFrame

variable {pad : LexicalPad} {frame : ExecutionStackFrame}

/-- A frame that is left blocked still holds its own callable. -/
theorem execute_blocked (h : ScopedFrame pad frame) {errno : Errno}
    {execution : Execution}
    (hexecute : frame.execute pad errno = .ok execution)
    {reason : ReasonForBlockedOperation}
    (hresult : execution.result = .blocked reason) :
    ScopedFrame execution.pad { frame with ctx := execution.ctx } := by
  have hgrows := ExecutionStackFrame.execute_grows hexecute
  refine ⟨(h.grows hgrows).scope, h.callables, ?_⟩
  obtain ⟨⟨operation, children⟩, accumulator, ctx⟩ := frame
  cases operation with
  | interpreted _ | unaryCallback _ | inputOutput _ | lexicalPad _
  | dynamicInput _ => trivial
  | controlFlow operation =>
      cases ctx with
      | none | callback _ | inputOutput _ => contradiction
      | controlFlow ctx =>
          obtain ⟨⟨result, ctx'⟩, happly, rfl⟩ := map_eq_ok hexecute
          obtain rfl : result = .blocked reason := hresult
          obtain ⟨place, scope, hscoped, _⟩ := h.scope
          have hholds := h.context
          cases hscoped with
          | machine _ _ =>
              intro value hvalue
              obtain ⟨held, hheld, hcallback⟩ :=
                holdsCallback_apply hholds happly
              rw [← Option.some.inj (hheld.symm.trans hvalue)]
              exact hcallback
          | plain hplain _ _ _ => cases hplain
          | @forEach _ name tree collection _ _ =>
              rcases accumulator with _ | ⟨first, _ | ⟨second, rest⟩⟩
              · cases happly
              · cases happly
              · intro value hvalue
                rcases FunctionCallForEach.apply_callable happly with hsame |
                  hfirst
                · exact hholds value (hsame ▸ hvalue)
                · obtain rfl := Option.some.inj (hfirst.symm.trans hvalue)
                  exact ⟨tree, [name], rfl, h.callables 0 _ _ _ rfl rfl⟩
          | @generateList _ tree _ =>
              rcases accumulator with _ | ⟨first, rest⟩
              · cases happly
              · intro value hvalue
                rcases GenerateList.apply_callable happly with hsame | hfirst
                · exact hholds value (hsame ▸ hvalue)
                · obtain rfl := Option.some.inj (hfirst.symm.trans hvalue)
                  exact ⟨tree, [], rfl, h.callables 0 _ _ _ rfl rfl⟩

end ScopedFrame

section Assertions

theorem exists_two_arguments {args : List Value} (h : 2 ≤ args.length) :
    ∃ first second rest, args = first :: second :: rest := by
  rcases args with _ | ⟨first, _ | ⟨second, rest⟩⟩
  · cases h
  · simp at h
  · exact ⟨first, second, rest, rfl⟩

theorem InterpretedOperation.apply_of_arity {operation : InterpretedOperation}
    {args : List Value} (h : operation.arity ≤ args.length) :
    ∃ value, operation.apply args = .ok value := by
  cases operation with
  | int32Literal _ | staticCallable _ _ _ | dictionaryInitialize =>
      exact ⟨_, rfl⟩
  | intToAscii | dictionaryGet _ =>
      obtain ⟨first, rest, rfl⟩ := List.exists_cons_of_length_pos h
      exact ⟨_, rfl⟩
  | add | eq | lesserEqual | multiply | subtract | dictionarySet _ =>
      obtain ⟨first, second, rest, rfl⟩ := exists_two_arguments h
      exact ⟨_, rfl⟩

theorem LexicalPadOperation.apply_of_arity {operation : LexicalPadOperation}
    {args : List Value} (h : operation.arity ≤ args.length)
    (pad : LexicalPad) : ∃ result, operation.apply args pad = .ok result := by
  cases operation with
  | lexicalPadGet _ | lexicalPadAsDict => exact ⟨_, rfl⟩
  | lexicalPadInitialize _ | lexicalPadInitializeGlobal _ | lexicalPadSet _ =>
      obtain ⟨first, rest, rfl⟩ := List.exists_cons_of_length_pos h
      exact ⟨_, rfl⟩

/-- Replacing can only fail to end. -/
theorem WriteOctetsWithEscape.replaceFrom_ne_assertion (escape : EscapeInfo)
    (fuel : Nat) (rest result : Octets) :
    replaceFrom escape fuel rest result ≠ .error .assertion := by
  induction fuel generalizing rest result with
  | zero =>
      intro h
      cases h
  | succ fuel ih =>
      unfold replaceFrom
      split
      · intro h
        cases h
      · split
        · intro h
          cases h
        · exact ih _ _

theorem WriteOctetsWithEscape.apply_ne_assertion (escape : EscapeInfo)
    (ctx : InputOutputOperationContext) (value : Value) :
    apply escape ctx value ≠ .error .assertion := by
  unfold apply
  split
  · split
    · intro h
      cases h
    · split
      · split
        · intro h
          cases h
        · rename_i hreplace
          intro h
          rw [Except.error.inj h] at hreplace
          exact replaceFrom_ne_assertion _ _ _ _ hreplace
      · intro h
        cases h
  · intro h
    cases h
  · intro h
    cases h
  · intro h
    cases h

theorem map_ne_error {α β : Type} {f : α → β} {e : Except Fault α}
    {fault : Fault} (h : e ≠ .error fault) : e.map f ≠ .error fault := by
  cases e with
  | error other =>
      intro heq
      exact h (congrArg _ (Except.error.inj heq))
  | ok a =>
      intro h
      cases h

theorem InputOutputOperation.apply_ne_assertion
    {operation : InputOutputOperation} {args : List Value}
    (h : operation.arity ≤ args.length) (ctx : InputOutputOperationContext)
    (errno : Errno) : operation.apply ctx args errno ≠ .error .assertion := by
  cases operation with
  | readInt32Native | readIntFromAscii | readOctetsUntilTerminator _ _
  | readStaticOctets _ | terminateListIfReadAhead _ | transitionLookahead _
  | writeStaticOctets _ =>
      intro h
      cases h
  | writeOctets =>
      obtain ⟨value, rest, rfl⟩ := List.exists_cons_of_length_pos h
      intro h
      cases h
  | writeInt32Native =>
      obtain ⟨value, rest, rfl⟩ := List.exists_cons_of_length_pos h
      refine map_ne_error ?_
      unfold WriteInt32Native.apply
      split
      · split
        · intro h
          cases h
        · intro h
          cases h
      · intro h
        cases h
  | writeOctetsWithEscape escape =>
      obtain ⟨value, rest, rfl⟩ := List.exists_cons_of_length_pos h
      exact map_ne_error
        (WriteOctetsWithEscape.apply_ne_assertion escape ctx value)

theorem StateMachineOperation.apply_ne_assertion (states : StateMap)
    (ctx : ControlFlowOperationContext) :
    StateMachineOperation.apply states ctx ≠ .error .assertion := by
  unfold apply
  split
  · split
    · split
      · split
        · split
          · intro h
            cases h
          · unfold processTransitionReturn
            split
            all_goals
              intro h
              cases h
        · unfold processStateReturn
          split
          · unfold processStateReturnWithArgs
            split
            · split
              · intro h
                cases h
              · simp only
                split
                · intro h
                  cases h
                · split
                  all_goals
                    intro h
                    cases h
            · intro h
              cases h
          · intro h
            cases h
          · intro h
            cases h
      · intro h
        cases h
      · intro h
        cases h
    · intro h
      cases h
  · split
    · intro h
      cases h
    · intro h
      cases h

theorem FunctionCallForEach.apply_ne_assertion
    (ctx : ControlFlowOperationContext) (callable arglist : Value) :
    FunctionCallForEach.apply ctx callable arglist ≠ .error .assertion := by
  unfold apply
  split
  · split
    · split
      · simp only
        split
        · intro h
          cases h
        · intro h
          cases h
      · intro h
        cases h
    · intro h
      cases h
  · unfold start
    split
    all_goals
      intro h
      cases h

theorem GenerateList.apply_ne_assertion (ctx : ControlFlowOperationContext)
    (callable : Value) :
    GenerateList.apply ctx callable ≠ .error .assertion := by
  unfold apply
  split
  · split
    · split
      all_goals
        intro h
        cases h
    · intro h
      cases h
  · split
    all_goals
      intro h
      cases h

/-- No assertion fails in the evaluation of a frame that has its arguments. -/
theorem ScopedFrame.execute_ne_assertion {pad : LexicalPad}
    {frame : ExecutionStackFrame} (h : ScopedFrame pad frame)
    (hready : frame.hasArgumentsReady = true) (errno : Errno) :
    frame.execute pad errno ≠ .error .assertion := by
  obtain ⟨⟨operation, children⟩, accumulator, ctx⟩ := frame
  have harity : ∀ n, operation.arity = some n → n ≤ accumulator.length := by
    intro n hn
    simp only [ExecutionStackFrame.hasArgumentsReady, OpTreeNode.operation,
      hn] at hready
    exact of_decide_eq_true hready
  cases operation with
  | interpreted operation =>
      obtain ⟨value, hvalue⟩ :=
        InterpretedOperation.apply_of_arity (harity _ rfl)
      refine map_ne_error ?_
      rw [hvalue]
      intro h
      cases h
  | lexicalPad operation =>
      obtain ⟨result, hresult⟩ :=
        LexicalPadOperation.apply_of_arity (harity _ rfl) pad
      refine map_ne_error ?_
      rw [hresult]
      intro h
      cases h
  | dynamicInput operation =>
      intro h
      cases h
  | unaryCallback key =>
      cases ctx with
      | callback ctx =>
          intro h
          cases h
      | none | controlFlow _ | inputOutput _ =>
          intro h
          cases h
  | inputOutput operation =>
      cases ctx with
      | inputOutput ctx =>
          exact map_ne_error (InputOutputOperation.apply_ne_assertion
            (harity _ rfl) ctx errno)
      | none | callback _ | controlFlow _ =>
          intro h
          cases h
  | controlFlow operation =>
      cases ctx with
      | none | callback _ | inputOutput _ =>
          intro h
          cases h
      | controlFlow ctx =>
          refine map_ne_error ?_
          obtain ⟨place, scope, hscoped, _⟩ := h.scope
          have hlength := harity _ rfl
          cases hscoped with
          | @machine _ states _ _ =>
              exact StateMachineOperation.apply_ne_assertion states ctx
          | plain hplain _ _ _ => cases hplain
          | forEach _ _ =>
              obtain ⟨first, second, rest, rfl⟩ := exists_two_arguments hlength
              exact FunctionCallForEach.apply_ne_assertion ctx first second
          | generateList _ =>
              obtain ⟨first, rest, rfl⟩ :=
                List.exists_cons_of_length_pos hlength
              exact GenerateList.apply_ne_assertion ctx first

end Assertions

section Invocation

theorem staticCallable_inj {tree tree' : OpTreeNode}
    {names names' : List String}
    (h : staticCallable tree names = staticCallable tree' names') :
    tree = tree' ∧ names = names' := by
  simpa [staticCallable] using h

theorem FunctionCallForEach.getArgumentList_single
    {ctx : ControlFlowOperationContext} {arglist : Option (List Value)}
    (h : FunctionCallForEach.getArgumentList true ctx = .ok arglist) :
    ∃ element, arglist = some [element] := by
  unfold FunctionCallForEach.getArgumentList at h
  split at h
  · contradiction
  · split at h
    · contradiction
    · exact ⟨_, (Except.ok.inj h).symm⟩

theorem FunctionCallForEach.apply_holdsCallable {callable arglist : Value}
    {ctx ctx' : ControlFlowOperationContext}
    {reason : ReasonForBlockedOperation}
    (h : FunctionCallForEach.apply ctx callable arglist =
      .ok (.blocked reason, ctx')) : ctx'.callable.isSome = true := by
  cases hcallable : ctx.callable with
  | none =>
      simp only [apply, hcallable, start] at h
      split at h
      · obtain ⟨_, rfl⟩ := Prod.mk.inj (Except.ok.inj h)
        rfl
      · contradiction
      · cases h
  | some held =>
      rcases apply_callable h with hsame | hfirst
      · rw [hsame, hcallable]
        rfl
      · rw [hfirst]
        rfl

theorem GenerateList.apply_holdsCallable {callable : Value}
    {ctx ctx' : ControlFlowOperationContext}
    {reason : ReasonForBlockedOperation}
    (h : GenerateList.apply ctx callable = .ok (.blocked reason, ctx')) :
    ctx'.callable.isSome = true := by
  cases hcallable : ctx.callable with
  | none =>
      simp only [apply, hcallable] at h
      split at h
      · obtain ⟨_, rfl⟩ := Prod.mk.inj (Except.ok.inj h)
        rfl
      · cases h
  | some held =>
      rcases apply_callable h with hsame | hfirst
      · rw [hsame, hcallable]
        rfl
      · rw [hfirst]
        rfl

namespace ScopedFrame

variable {pad : LexicalPad} {operation : ControlFlowOperation}
  {children : List OpTreeNode} {args : List Value}
  {ctx ctx' : ControlFlowOperationContext}

/-- An operation that is left blocked has something to invoke. -/
theorem holdsCallable
    (h : ScopedFrame pad
      ⟨.mk (.controlFlow operation) children, args, .controlFlow ctx⟩)
    {reason : ReasonForBlockedOperation}
    (happly : operation.apply ctx args = .ok (.blocked reason, ctx')) :
    ctx'.callable.isSome = true := by
  obtain ⟨place, scope, hscoped, _⟩ := h.scope
  have hholds := h.context
  cases hscoped with
  | machine _ _ =>
      obtain ⟨held, hheld, _⟩ := holdsCallback_apply hholds happly
      rw [hheld]
      rfl
  | plain hplain _ _ _ => cases hplain
  | forEach _ _ =>
      rcases args with _ | ⟨first, _ | ⟨second, rest⟩⟩
      · cases happly
      · cases happly
      · exact FunctionCallForEach.apply_holdsCallable happly
  | generateList _ =>
      rcases args with _ | ⟨first, rest⟩
      · cases happly
      · exact GenerateList.apply_holdsCallable happly

/-- The tree of a callable that is invoked is well scoped where its arguments
and the names of the pad are bound, and it gets a value for each argument. -/
theorem callable_wellScoped
    (h : ScopedFrame pad
      ⟨.mk (.controlFlow operation) children, args, .controlFlow ctx⟩)
    {callable : Callable}
    (hcallable : ctx.callable = some (.callable callable)) :
    callable.inheritsLexicalPad = true ∧
      (∃ place scope, WellScoped place scope callable.tree ∧
        ∀ name ∈ scope, name ∈ callable.argumentNames ∨ pad.Binds name) ∧
      ∀ arglist, operation.getArgumentList ctx = .ok arglist →
        callable.argumentNames.length ≤ (arglist.getD []).length := by
  obtain ⟨place, scope, hscoped, hnames⟩ := h.scope
  have hholds := h.context
  cases hscoped with
  | plain hplain _ _ _ => cases hplain
  | @machine _ states hstate htransition =>
      obtain ⟨info, _, htarget, ⟨_, hlength, hvalue⟩ |
        ⟨_, source, hsource, transition, hmem, _, hlength, hvalue⟩⟩ :=
        hholds _ hcallable
      · obtain rfl := Value.callable.inj hvalue
        refine ⟨rfl, ⟨_, _, hstate _ htarget, fun name hname => Or.inl hname⟩,
          fun arglist hargs => ?_⟩
        rw [← Except.ok.inj hargs]
        exact hlength.ge
      · obtain rfl := Value.callable.inj hvalue
        refine ⟨rfl, ⟨_, _, htransition _ hsource _ hmem,
          fun name hname => Or.inl hname⟩, fun arglist hargs => ?_⟩
        rw [← Except.ok.inj hargs]
        exact hlength.ge
  | @forEach _ name tree collection htree _ =>
      obtain ⟨tree', names, hfirst, hvalue⟩ := hholds _ hcallable
      obtain rfl := Value.callable.inj hvalue
      obtain ⟨rfl, rfl⟩ := staticCallable_inj hfirst
      refine ⟨rfl, ⟨_, _, htree, fun other hother => ?_⟩,
        fun arglist hargs => ?_⟩
      · rcases List.mem_cons.mp hother with rfl | hother
        · exact Or.inl List.mem_cons_self
        · exact Or.inr (hnames other (mem_scopeAt hother _ _))
      · obtain ⟨element, rfl⟩ :=
          FunctionCallForEach.getArgumentList_single hargs
        exact Nat.le_refl 1
  | @generateList _ tree htree =>
      obtain ⟨tree', names, hfirst, hvalue⟩ := hholds _ hcallable
      obtain rfl := Value.callable.inj hvalue
      obtain ⟨rfl, rfl⟩ := staticCallable_inj hfirst
      exact ⟨rfl, ⟨_, _, htree, fun other hother =>
        Or.inr (hnames other (mem_scopeAt hother _ _))⟩,
        fun _ _ => Nat.zero_le _⟩

end ScopedFrame

end Invocation

end NetworkProtocolDsl
