/-
What becomes of a protocol mismatch.

The error of the lookahead is the last value of the state callback's list, so
the list ends with it and has one element.  The state machine expects two: the
mismatch leaves the program as a type error.
-/
import NetworkProtocolDsl.ScopedExecution

namespace NetworkProtocolDsl

open Run Generate TransitionChoice TransitionLookahead

namespace ScopedFrame

variable {pad : LexicalPad} {operation : ControlFlowOperation}
  {children : List OpTreeNode} {args : List Value}
  {ctx : ControlFlowOperationContext}

/-- What is invoked is part of an action, unless the state machine invokes the
callback of a state. -/
theorem invokes_action_or_state
    (h : ScopedFrame pad
      ⟨.mk (.controlFlow operation) children, args, .controlFlow ctx⟩)
    {callable : Callable}
    (hcallable : ctx.callable = some (.callable callable)) :
    (∃ scope, WellScoped .action scope callable.tree) ∨
      ∃ states info, operation = .stateMachineOperation states ∧
        children = [] ∧ ctx.additionalInfo = some info ∧
        info.processingMode = .state ∧
        WellScoped .stateCallback ["dictionary"] callable.tree := by
  obtain ⟨place, scope, hscoped, _⟩ := h.scope
  have hholds := h.context
  cases hscoped with
  | plain hplain _ _ _ => cases hplain
  | @machine _ states hstate htransition =>
      obtain ⟨info, hinfo, htarget, ⟨hmode, _, hvalue⟩ |
        ⟨_, source, hsource, transition, hmem, _, _, hvalue⟩⟩ :=
        hholds _ hcallable
      · obtain rfl := Value.callable.inj hvalue
        exact Or.inr ⟨states, info, rfl, rfl, hinfo, hmode, hstate _ htarget⟩
      · obtain rfl := Value.callable.inj hvalue
        exact Or.inl ⟨_, htransition _ hsource _ hmem⟩
  | @forEach _ name tree collection htree _ =>
      obtain ⟨tree', names, hfirst, hvalue⟩ := hholds _ hcallable
      obtain rfl := Value.callable.inj hvalue
      obtain ⟨rfl, rfl⟩ := staticCallable_inj hfirst
      exact Or.inl ⟨_, htree⟩
  | @generateList _ tree htree =>
      obtain ⟨tree', names, hfirst, hvalue⟩ := hholds _ hcallable
      obtain rfl := Value.callable.inj hvalue
      obtain ⟨rfl, rfl⟩ := staticCallable_inj hfirst
      exact Or.inl ⟨_, htree⟩

end ScopedFrame

namespace Stacked

variable {pad : LexicalPad} {node : OpTreeNode}
  {frame : ExecutionStackFrame} {frames : List ExecutionStackFrame}

/-- A tree that is no part of an action and no lookahead has no frame below
its own. -/
theorem bottom_of_place (h : Stacked pad node (frame :: frames))
    (haction : ∀ scope, ¬ WellScoped .action scope frame.optreenode)
    (hlookahead : ∀ conditions, frame.optreenode ≠
      .mk (.inputOutput (.transitionLookahead conditions)) []) :
    frames = [] ∧ frame.optreenode = node := by
  cases h with
  | bottom hnode _ => exact ⟨rfl, hnode⟩
  | @push _ parent frames hbelow _ hnext _ =>
      obtain ⟨place, scope, hscoped, _⟩ :=
        (hbelow.scopedFrame List.mem_cons_self).scope
      rcases hscoped.child (ExecutionStackFrame.nextOp_eq_ok hnext) with
        haction' | ⟨conditions, _, _, heq⟩
      · exact absurd haction' (haction _)
      · exact absurd heq (hlookahead conditions)

end Stacked

/-- The state machine called the callback of a state. -/
def Continuation.AwaitsState (c : Continuation) : Prop :=
  ∃ states args ctx callable info, c.stack =
      [⟨.mk (.controlFlow (.stateMachineOperation states)) [], args,
        .controlFlow ctx⟩] ∧
    ctx.callable = some callable ∧ ctx.callableInvoked = true ∧
    ctx.additionalInfo = some info ∧ info.processingMode = .state

namespace Active

variable {program : OpTreeNode} {c : Continuation}
  {suspended : List Continuation}

/-- What runs is the program, part of an action or the callback of a state. -/
theorem cases_node (h : Active program c suspended) :
    ∃ node, Stacked c.pad node c.stack ∧
      (node = program ∧ suspended = [] ∨
        (∃ scope, WellScoped .action scope node) ∨
        WellScoped .stateCallback ["dictionary"] node ∧
          ∃ invoker rest states args ctx callable info below,
            suspended = invoker :: rest ∧ Active program invoker rest ∧
            invoker.stack = ⟨.mk (.controlFlow (.stateMachineOperation states))
              [], args, .controlFlow ctx⟩ :: below ∧
            ctx.callable = some callable ∧ ctx.callableInvoked = true ∧
            ctx.additionalInfo = some info ∧ info.processingMode = .state) := by
  cases h with
  | program hstacked => exact ⟨program, hstacked, Or.inl ⟨rfl, rfl⟩⟩
  | @callee _ invoker rest callable hinvoker hinvoked _ hstacked =>
      obtain ⟨operation, children, args, ctx, below, hstack, hcallable,
        hcalled⟩ := hinvoked
      have hframe := hinvoker.scopedFrame List.mem_cons_self
        (hstack ▸ List.mem_cons_self)
      refine ⟨_, hstacked, Or.inr ?_⟩
      rcases hframe.invokes_action_or_state hcallable with haction |
        ⟨states, info, rfl, rfl, hinfo, hmode, hscoped⟩
      · exact Or.inl haction
      · exact Or.inr ⟨hscoped, invoker, rest, states, args, ctx, _, info,
          below, rfl, hinvoker, hstack, hcallable, hcalled, hinfo, hmode⟩

/-- Below the state machine's frame there is nothing. -/
theorem machine_last (h : Active program c suspended) {states : StateMap}
    {args : List Value} {ctx : OperationContext}
    {below : List ExecutionStackFrame}
    (hstack : c.stack = ⟨.mk (.controlFlow (.stateMachineOperation states)) [],
      args, ctx⟩ :: below) : below = [] ∧ suspended = [] := by
  obtain ⟨node, hstacked, hnode⟩ := h.cases_node
  rw [hstack] at hstacked
  obtain ⟨hbelow, hmachine⟩ := hstacked.bottom_of_place
    (fun scope hscoped => by cases hscoped.place_of_machine.1)
    (fun conditions heq => by cases heq)
  refine ⟨hbelow, ?_⟩
  rcases hnode with ⟨_, hsuspended⟩ | ⟨scope, hscoped⟩ | ⟨hscoped, _⟩
  · exact hsuspended
  · rw [← hmachine] at hscoped
    cases hscoped.place_of_machine.1
  · rw [← hmachine] at hscoped
    cases hscoped.place_of_machine.1

/-- A lookahead runs below the callback of a state the state machine called. -/
theorem lookahead_shape (h : Active program c suspended)
    (hprogram : WellScoped .machine [] program)
    {conditions : List (TransitionCondition × Octets)}
    {children : List OpTreeNode} {args : List Value} {ctx : OperationContext}
    {frames : List ExecutionStackFrame}
    (hstack : c.stack =
      ⟨.mk (.inputOutput (.transitionLookahead conditions)) children, args,
        ctx⟩ :: frames) :
    children = [] ∧
      (∃ ctx', frames = [⟨lookaheadCallback conditions, [], ctx'⟩]) ∧
      ∃ invoker, suspended = [invoker] ∧ invoker.AwaitsState := by
  obtain ⟨node, hstacked, hnode⟩ := h.cases_node
  rw [hstack] at hstacked
  obtain ⟨place, scope, hscoped, _⟩ :=
    (hstacked.scopedFrame List.mem_cons_self).scope
  obtain ⟨_, rfl⟩ := hscoped.place_of_lookahead
  refine ⟨rfl, ?_⟩
  cases hstacked with
  | bottom hbottom _ =>
      have hbottom' : node =
          .mk (.inputOutput (.transitionLookahead conditions)) [] :=
        hbottom.symm
      rcases hnode with ⟨rfl, _⟩ | ⟨scope, hscoped⟩ | ⟨hscoped, _⟩
      · rw [hbottom'] at hprogram
        cases hprogram.place_of_lookahead.1
      · rw [hbottom'] at hscoped
        cases hscoped.place_of_lookahead.1
      · rw [hbottom'] at hscoped
        cases hscoped.place_of_lookahead.1
  | @push _ parent frames hbelow _ hnext _ =>
      obtain ⟨place', scope', hparent, _⟩ :=
        (hbelow.scopedFrame List.mem_cons_self).scope
      rcases hparent.child (ExecutionStackFrame.nextOp_eq_ok hnext) with
        haction | ⟨conditions', hcallback, hfirst, heq⟩
      · cases haction.place_of_lookahead.1
      · obtain rfl : conditions = conditions' := by
          simpa using heq
        obtain ⟨rfl, hnode'⟩ := hbelow.bottom_of_place
          (fun scope hscoped => by
            rw [hcallback] at hscoped
            cases hscoped.place_of_lookaheadCallback)
          (fun conditions heq => by
            rw [hcallback] at heq
            cases heq)
        rw [hcallback] at hnode'
        obtain ⟨optree, accumulator, ctx'⟩ := parent
        obtain rfl : optree = lookaheadCallback conditions := hcallback
        obtain rfl := List.length_eq_zero_iff.mp hfirst
        refine ⟨⟨ctx', rfl⟩, ?_⟩
        rcases hnode with ⟨rfl, _⟩ | ⟨scope, hscoped⟩ |
          ⟨_, invoker, rest, states, args, machine, callable, info, below,
            hsuspended, hinvoker, hmachine, hrest⟩
        · rw [← hnode'] at hprogram
          cases hprogram.place_of_lookaheadCallback
        · rw [← hnode'] at hscoped
          cases hscoped.place_of_lookaheadCallback
        · obtain ⟨rfl, rfl⟩ := hinvoker.machine_last hmachine
          exact ⟨invoker, hsuspended, states, args, machine, callable, info,
            hmachine, hrest⟩

end Active

namespace RunnerState

/-- The state machine waits for the callback of a state and nothing else. -/
def InStateCallback (s : RunnerState) : Prop :=
  s.context.exited = false ∧ ∃ invoker,
    s.context.interpreter.suspended = [invoker] ∧ invoker.AwaitsState

/-- The lookahead of a state is next; `ctx` is what it has seen. -/
def Looking (conditions : List (TransitionCondition × Octets))
    (ctx : InputOutputOperationContext) (s : RunnerState) : Prop :=
  s.InStateCallback ∧ ∃ top args ctx',
    s.context.interpreter.top.prepare = .ok (.ready, top) ∧
    top.stack =
      [⟨.mk (.inputOutput (.transitionLookahead conditions)) [], args,
          .inputOutput ctx⟩,
        ⟨lookaheadCallback conditions, [], ctx'⟩]

/-- The lookahead yielded this value. -/
def Looked (conditions : List (TransitionCondition × Octets)) (value : Value)
    (s : RunnerState) : Prop :=
  s.InStateCallback ∧ ∃ ctx', s.context.interpreter.top.stack =
    [⟨lookaheadCallback conditions, [value], ctx'⟩]

/-- The callback of the state returned this value. -/
def CallbackReturned (value : Value) (s : RunnerState) : Prop :=
  s.context.exited = false ∧ s.context.interpreter.suspended = [] ∧
    s.context.interpreter.top.AwaitsState ∧
    ∃ node args ctx below, s.context.interpreter.top.stack =
      ⟨node, args, .controlFlow ctx⟩ :: below ∧ ctx.value = some value

variable {conditions : List (TransitionCondition × Octets)}
  {ctx : InputOutputOperationContext} {s t : RunnerState}

/-- A state that starts to look. -/
theorem looking_of_activeRead {program : OpTreeNode} (h : InScope program s)
    (hprogram : WellScoped .machine [] program)
    (hrunning : s.context.exited = false)
    (hactive : s.context.activeRead =
      some (.transitionLookahead conditions, ctx)) :
    Looking conditions ctx s := by
  rcases h with hexited | h
  · rw [hrunning] at hexited
    contradiction
  · obtain ⟨node, hstacked⟩ := h.stacked
    obtain ⟨frame, frames, hprepare, _, hkeeps⟩ :=
      Continuation.prepare_of_stacked hstacked
    simp only [InterpreterContext.activeRead, hprepare] at hactive
    unfold Continuation.inputOutput? at hactive
    split at hactive
    · rename_i operation children args ctx' below hstack
      obtain ⟨rfl, rfl⟩ := Prod.mk.inj (Option.some.inj hactive)
      have hprepared : Active program { s.context.interpreter.top with
          stack := frame :: frames } s.context.interpreter.suspended :=
        h.keeps hkeeps
      obtain ⟨rfl, ⟨ctx'', rfl⟩, invoker, hsuspended, hawaits⟩ :=
        hprepared.lookahead_shape hprogram hstack
      exact ⟨⟨hrunning, invoker, hsuspended, hawaits⟩, _, args, ctx'',
        hprepare, hstack⟩
    · contradiction

/-- A pass whose step leaves the program ready. -/
theorem pass_of_step_ready {s : RunnerState}
    (hrunning : s.context.exited = false) {interpreter : Interpreter}
    {errno : Errno}
    (hstep : s.context.interpreter.step s.errno =
      .ok (.ready, interpreter, errno)) :
    s.pass =
      .ok ⟨{ s.context with interpreter := interpreter }, errno⟩ := by
  simp only [RunnerState.pass, InterpreterContext.pass, hrunning,
    Bool.false_eq_true, ↓reduceIte, hstep, Except.map]

/-- What the lookahead yields ends up in the callback's list. -/
theorem Looking.pass_value (h : Looking conditions ctx s) {value : Value}
    (happly : TransitionLookahead.apply conditions ctx = .value value) :
    ∃ t, s.pass = .ok t ∧ Looked conditions value t := by
  obtain ⟨⟨hrunning, hinvoker⟩, top, args, ctx', hprepare, hstack⟩ := h
  have hexecute : top.executeTop s.errno = .ok (.ready, { top with
      stack := [⟨lookaheadCallback conditions, [value], ctx'⟩]
      result := .value value }, s.errno) := by
    simp only [Continuation.executeTop, hstack, ExecutionStackFrame.execute,
      OpTreeNode.operation, InputOutputOperation.apply, happly, Except.map,
      ExecutionStackFrame.pushBack, List.nil_append]
  have hstep : s.context.interpreter.step s.errno = .ok (.ready, ⟨{ top with
      stack := [⟨lookaheadCallback conditions, [value], ctx'⟩]
      result := .value value }, s.context.interpreter.suspended⟩,
      s.errno) := by
    simp only [Interpreter.step, Continuation.step, hprepare, hexecute]
  exact ⟨_, pass_of_step_ready hrunning hstep, ⟨hrunning, hinvoker⟩, ctx', rfl⟩

/-- An error ends the callback's list. -/
theorem Looked.pass_error {error : RuntimeError}
    (h : Looked conditions (.runtimeError error) s) :
    ∃ t, s.pass = .ok t ∧
      CallbackReturned (.dynamicList [.runtimeError error]) t := by
  obtain ⟨⟨hrunning, invoker, hsuspended, states, args, machine, callable,
    info, hinvoker, hcallable, hinvoked, hinfo, hmode⟩, ctx', hstack⟩ := h
  let frame : ExecutionStackFrame :=
    ⟨lookaheadCallback conditions, [.runtimeError error], ctx'⟩
  let value : Value := .dynamicList [.runtimeError error]
  have hprepare := Continuation.prepare_of_ready hstack rfl
  have hexecute : s.context.interpreter.top.executeTop s.errno =
      .ok (.exited, { s.context.interpreter.top with
        stack := [], result := .value value }, s.errno) := by
    simp only [Continuation.executeTop, hstack]
    rfl
  have htop : s.context.interpreter.top.step s.errno =
      .ok (.exited, { s.context.interpreter.top with
        stack := [], result := .value value }, s.errno) := by
    simp only [Continuation.step, hprepare, hexecute]
  have hreturn : ∃ top, Interpreter.returnTo
      ⟨{ s.context.interpreter.top with
        stack := [], result := .value value }, [invoker]⟩ value invoker [] =
        .ok (.ready, ⟨top, []⟩) ∧ top.stack =
        [⟨.mk (.controlFlow (.stateMachineOperation states)) [], args,
          .controlFlow { machine with value := some value }⟩] := by
    obtain ⟨stack, pad, result, inherits⟩ := invoker
    obtain rfl : stack = _ := hinvoker
    exact ⟨_, rfl, rfl⟩
  obtain ⟨top, hreturn, hstack'⟩ := hreturn
  have hstep : s.context.interpreter.step s.errno =
      .ok (.ready, ⟨top, []⟩, s.errno) := by
    simp only [Interpreter.step, htop, hsuspended, hreturn, Except.map]
  exact ⟨_, pass_of_step_ready hrunning hstep, hrunning, rfl,
    ⟨states, args, _, callable, info, hstack', hcallable, hinvoked, hinfo,
      hmode⟩, _, _, _, _, hstack', rfl⟩

/-- A list of one element is no answer to the state machine. -/
theorem CallbackReturned.pass_error {error : RuntimeError}
    (h : CallbackReturned (.dynamicList [.runtimeError error]) s) :
    ∃ t, s.pass = .ok t ∧ t.context.exited = true ∧
      t.context.interpreterResult = some (.runtimeError .typeError) := by
  obtain ⟨hrunning, hsuspended, ⟨states, args, machine, callable, info,
    hstack, hcallable, hinvoked, hinfo, hmode⟩, node, args', ctx', below,
    hstack', hvalue⟩ := h
  obtain ⟨hframe, _⟩ := List.cons.inj (hstack.symm.trans hstack')
  obtain ⟨_, _, hctx⟩ := ExecutionStackFrame.mk.inj hframe
  obtain rfl := OperationContext.controlFlow.inj hctx
  have happly : StateMachineOperation.apply states machine =
      .ok (.value (.runtimeError .typeError), machine) := by
    simp only [StateMachineOperation.apply, hcallable, hinvoked, hvalue, hinfo,
      hmode, ↓reduceIte, StateMachineOperation.processStateReturn]
  have hprepare := Continuation.prepare_of_ready hstack rfl
  have hexecute : s.context.interpreter.top.executeTop s.errno =
      .ok (.exited, { s.context.interpreter.top with
        stack := [], result := .value (.runtimeError .typeError) },
        s.errno) := by
    simp only [Continuation.executeTop, hstack, ExecutionStackFrame.execute,
      OpTreeNode.operation, ControlFlowOperation.apply, happly, Except.map]
  have hstep : s.context.interpreter.step s.errno =
      .ok (.exited, ⟨{ s.context.interpreter.top with
        stack := [], result := .value (.runtimeError .typeError) }, []⟩,
        s.errno) := by
    simp only [Interpreter.step, Continuation.step, hprepare, hexecute,
      hsuspended]
  refine ⟨⟨{ s.context with
    interpreter := ⟨{ s.context.interpreter.top with
      stack := [], result := .value (.runtimeError .typeError) }, []⟩
    exited := true
    interpreterResult := some (.runtimeError .typeError) }, s.errno⟩, ?_, rfl,
    rfl⟩
  simp only [RunnerState.pass, InterpreterContext.pass, hrunning,
    Bool.false_eq_true, ↓reduceIte, hstep, Except.map, Interpreter.getResult]

/-- A lookahead that has not decided is shown all the input there is, or its
end where there is none. -/
theorem Looking.pass_waiting (h : Looking conditions ctx s)
    (hwait : readyToEvaluate conditions ctx = false) (hpass : s.pass = .ok t) :
    ∃ ctx', Looking conditions ctx' t ∧
      t.context.inputBuffer.flatten = s.context.inputBuffer.flatten ∧
      t.context.eof = s.context.eof ∧
      (ctx' = ctx ∨
        s.context.inputBuffer = [] ∧ s.context.eof = true ∧
          ctx' = { ctx with eof := true } ∨
        ctx' = { ctx with buffer := s.context.inputBuffer.flatten }) := by
  obtain ⟨⟨hrunning, invoker, hsuspended, hawaits⟩, top, args, callback,
    hprepare, hstack⟩ := h
  let r : Reader := ⟨.transitionLookahead conditions, [], args,
    [⟨lookaheadCallback conditions, [], callback⟩],
    { s.context with
      interpreter := ⟨top, s.context.interpreter.suspended⟩ },
    Nat.zero_le _, hrunning⟩
  have hlooking : ∀ ctx' queue, Looking conditions ctx'
      ⟨r.context ctx' queue (.blocked .waitingForRead), s.errno⟩ :=
    fun ctx' queue => ⟨⟨hrunning, invoker, hsuspended, hawaits⟩, _, args,
      callback, r.prepare_top ctx' (.blocked .waitingForRead), rfl⟩
  have hcontext : { s.context with
      interpreter := ⟨top, s.context.interpreter.suspended⟩ } =
      r.context ctx s.context.inputBuffer top.result := by
    obtain ⟨stack, pad, result, inherits⟩ := top
    obtain rfl : stack = _ := hstack
    rfl
  have hread : ∃ report ctx' queue, r.operation.readQueue ctx r.base.eof
      s.context.inputBuffer = .ok (report, ctx', queue) ∧
      queue.flatten = s.context.inputBuffer.flatten ∧
      (ctx' = ctx ∨
        s.context.inputBuffer = [] ∧ s.context.eof = true ∧
          ctx' = { ctx with eof := true } ∨
        ctx' = { ctx with buffer := s.context.inputBuffer.flatten }) := by
    by_cases hempty : s.context.inputBuffer = []
    · rw [hempty]
      cases heof : s.context.eof with
      | true =>
          exact ⟨_, _, _, rfl, rfl, Or.inr (Or.inl ⟨rfl, rfl, rfl⟩)⟩
      | false =>
          exact ⟨_, _, _, rfl, rfl, Or.inl rfl⟩
    · obtain ⟨report, heq, _⟩ := readQueue_eq conditions ctx r.base.eof hempty
      exact ⟨report, _, _, heq, by simp, Or.inr (Or.inr rfl)⟩
  obtain ⟨report, ctx', queue, hread, hflatten, hcases⟩ := hread
  rw [RunnerState.pass,
    InterpreterContext.pass_eq_of_prepare hrunning hprepare, hcontext,
    r.pass_eq _ _ _ hwait, hread] at hpass
  obtain rfl := Except.ok.inj hpass
  exact ⟨ctx', hlooking ctx' queue, hflatten, rfl, hcases⟩

/-- The mismatch was found and is not answered for yet, or the program has
exited with a type error. -/
def Mismatched (s : RunnerState) : Prop :=
  (∃ conditions, Looked conditions (.runtimeError .protocolMismatchError) s) ∨
    CallbackReturned (.dynamicList [.runtimeError .protocolMismatchError]) s ∨
    s.context.exited = true ∧
      s.context.interpreterResult = some (.runtimeError .typeError)

theorem Mismatched.event {event : RunnerEvent} (h : Mismatched s)
    (hevent : RunnerState.event event s = .ok t) : Mismatched t := by
  cases event with
  | chunk data =>
      obtain rfl := Except.ok.inj hevent
      exact h
  | endOfInput =>
      obtain rfl := Except.ok.inj hevent
      exact h
  | callbackResponse value =>
      obtain rfl := Except.ok.inj hevent
      exact h
  | pass =>
      rcases h with ⟨conditions, hlooked⟩ | hreturned | ⟨hexited, hresult⟩
      · obtain ⟨u, hu, hreturned⟩ := hlooked.pass_error
        obtain rfl := Except.ok.inj (hu.symm.trans hevent)
        exact Or.inr (Or.inl hreturned)
      · obtain ⟨u, hu, hexited⟩ := hreturned.pass_error
        obtain rfl := Except.ok.inj (hu.symm.trans hevent)
        exact Or.inr (Or.inr hexited)
      · obtain rfl := Except.ok.inj ((pass_of_exited hexited).symm.trans hevent)
        exact Or.inr (Or.inr ⟨hexited, hresult⟩)

/-- Whatever arrives after a mismatch, the result is a type error. -/
theorem Mismatched.result {events : List RunnerEvent} (h : Mismatched s)
    (hrun : run RunnerState.event events s = .ok t) {value : Value}
    (hdone : ReadProgram.Done value t) : value = .runtimeError .typeError := by
  have hmismatched : Mismatched t :=
    run_invariant (fun _ _ _ _ hs hevent => Mismatched.event hs hevent)
      (fun _ _ => True.intro) h hrun
  obtain ⟨hexited, hresult⟩ := hdone
  rcases hmismatched with ⟨_, ⟨hrunning, _⟩, _⟩ | ⟨hrunning, _⟩ | ⟨_, htype⟩
  · rw [hrunning] at hexited
    contradiction
  · rw [hrunning] at hexited
    contradiction
  · exact Option.some.inj (hresult.symm.trans htype)

end RunnerState

/-- From a state in which the end of the input was announced or not the events
deliver these bytes, and nothing after the end. -/
inductive Brings : Bool → List RunnerEvent → Octets → Bool → Prop where
  | nil (eof : Bool) : Brings eof [] [] eof
  | chunk {events : List RunnerEvent} {stream : Octets} {ended : Bool}
      (data : Octets) (h : Brings false events stream ended) :
      Brings false (.chunk data :: events) (data ++ stream) ended
  | endOfInput {eof : Bool} {events : List RunnerEvent}
      (h : Brings true events [] true) :
      Brings eof (.endOfInput :: events) [] true
  | callbackResponse {eof : Bool} {events : List RunnerEvent}
      {stream : Octets} {ended : Bool} (value : Value)
      (h : Brings eof events stream ended) :
      Brings eof (.callbackResponse value :: events) stream ended
  | pass {eof : Bool} {events : List RunnerEvent} {stream : Octets}
      {ended : Bool} (h : Brings eof events stream ended) :
      Brings eof (.pass :: events) stream ended

theorem Brings.of_ended {eof : Bool} {events : List RunnerEvent}
    {stream : Octets} {ended : Bool} (h : Brings eof events stream ended)
    (heof : eof = true) : stream = [] ∧ ended = true := by
  induction h with
  | nil eof => exact ⟨rfl, heof⟩
  | chunk data _ _ => contradiction
  | endOfInput _ _ => exact ⟨rfl, rfl⟩
  | callbackResponse _ _ ih => exact ih heof
  | pass _ ih => exact ih heof

/-- No condition fits these bytes, whatever may still follow them. -/
def CannotMatch (conditions : List (TransitionCondition × Octets))
    (stream : Octets) (ended : Bool) : Prop :=
  ∀ more ended', (ended = true → more = [] ∧ ended' = true) →
    ∀ entry ∈ conditions, ¬ Fits (stream ++ more) ended' entry.1

theorem CannotMatch.not_fits
    {conditions : List (TransitionCondition × Octets)} {stream : Octets}
    {ended : Bool} (h : CannotMatch conditions stream ended) :
    ∀ entry ∈ conditions, ¬ Fits stream ended entry.1 := by
  have hnow := h [] ended fun hended => ⟨rfl, hended⟩
  rwa [List.append_nil] at hnow

namespace RunnerState

variable {conditions : List (TransitionCondition × Octets)}
  {ctx : InputOutputOperationContext} {s t : RunnerState}

/-- A lookahead that is shown a stream no condition fits can yield nothing but
the mismatch. -/
theorem Looking.result {eof : Bool} {events : List RunnerEvent}
    {stream : Octets} {ended : Bool} (hbrings : Brings eof events stream ended)
    (heof : s.context.eof = eof) (h : Looking conditions ctx s)
    (hlater : Later ctx (seen (s.context.inputBuffer.flatten ++ stream) ended))
    (hnone : ∀ entry ∈ conditions,
      ¬ Fits (s.context.inputBuffer.flatten ++ stream) ended entry.1)
    (hrun : run RunnerState.event events s = .ok t) {value : Value}
    (hdone : ReadProgram.Done value t) :
    value = .runtimeError .typeError := by
  induction hbrings generalizing s ctx with
  | nil eof =>
      obtain rfl := Except.ok.inj hrun
      obtain ⟨⟨hrunning, _⟩, _⟩ := h
      rw [hdone.1] at hrunning
      contradiction
  | @chunk events stream ended data hbrings ih =>
      have hstream : (s.push data).context.inputBuffer.flatten ++ stream =
          s.context.inputBuffer.flatten ++ (data ++ stream) := by
        simp [push]
      rw [← hstream] at hlater hnone
      exact ih (s := s.push data) heof h hlater hnone hrun
  | endOfInput hbrings ih =>
      exact ih (s := ⟨{ s.context with eof := true }, s.errno⟩) rfl h hlater
        hnone hrun
  | callbackResponse response hbrings ih =>
      exact ih (s := ⟨{ s.context with callbackResponseQueue :=
        s.context.callbackResponseQueue ++ [response] }, s.errno⟩) heof h
        hlater hnone hrun
  | @pass eof events stream ended hbrings ih =>
      obtain ⟨u, hu, hrest⟩ := run_cons_eq_ok hrun
      rcases apply_cases conditions ctx with
        ⟨before, condition, target, after, hconditions, _, hfits, _⟩ |
          ⟨_, ⟨_, hvalue⟩ | ⟨_, hblocked⟩⟩
      · have hmem : (condition, target) ∈ conditions := by simp [hconditions]
        exact absurd (fits_seen.mp (hlater.fits hfits)) (hnone _ hmem)
      · obtain ⟨u', hu', hlooked⟩ := h.pass_value hvalue
        obtain rfl := Except.ok.inj (hu'.symm.trans hu)
        exact Mismatched.result (Or.inl ⟨conditions, hlooked⟩) hrest hdone
      · have hwait := (apply_blocked_iff conditions ctx).mp hblocked
        obtain ⟨ctx', hlooking, hflatten, heof', hcases⟩ :=
          h.pass_waiting hwait hu
        refine ih (heof'.trans heof) hlooking ?_ (hflatten ▸ hnone) hrest
        rw [hflatten]
        rcases hcases with rfl | ⟨hempty, hended, rfl⟩ | rfl
        · exact hlater
        · obtain ⟨rfl, rfl⟩ := hbrings.of_ended (heof.symm.trans hended)
          exact ⟨hlater.buffer, fun _ => by simp [seen, hempty], hlater.ended⟩
        · exact ⟨List.prefix_append _ _, hlater.eof, hlater.ended⟩

end RunnerState

/-- A protocol mismatch is never reported as one: a program that ends after it
ends with a type error. -/
theorem mismatch_not_reported {protocol : Protocol} {optree : OpTreeNode}
    (h : client protocol = .ok optree ∨ server protocol = .ok optree)
    (arglist : Option Value) (errno : Errno) (before : List RunnerEvent)
    (s : RunnerState)
    (hbefore : run RunnerState.event before
      (RunnerState.start optree arglist errno) = .ok s)
    (hrunning : s.context.exited = false)
    (conditions : List (TransitionCondition × Octets))
    (hread : s.context.activeRead =
      some (.transitionLookahead conditions, {}))
    (events : List RunnerEvent) (stream : Octets) (ended : Bool)
    (hbrings : Brings s.context.eof events stream ended)
    (hmismatch : CannotMatch conditions
      (s.context.inputBuffer.flatten ++ stream) ended)
    (t : RunnerState) (hrun : run RunnerState.event events s = .ok t) :
    ¬ ReadProgram.Done (.runtimeError .protocolMismatchError) t ∧
      ∀ value, ReadProgram.Done value t →
        value = .runtimeError .typeError := by
  have hscoped : WellScoped .machine [] optree := by
    rcases h with h | h
    · exact wellScoped_generateAgent h
    · exact wellScoped_generateAgent h
  have hscope := RunnerState.inScope_run hscoped arglist errno hbefore
  have hlooking := RunnerState.looking_of_activeRead hscope hscoped hrunning
    hread
  have hresult : ∀ value, ReadProgram.Done value t →
      value = .runtimeError .typeError :=
    fun value hdone => hlooking.result hbrings rfl (later_seen _ _)
      hmismatch.not_fits hrun hdone
  refine ⟨fun hdone => ?_, hresult⟩
  have heq := hresult _ hdone
  cases heq

section Overlapping

theorem cannotMatch_overlapping :
    CannotMatch overlappingConditions [67] false := by
  intro more ended' _ entry hentry
  simp only [overlappingConditions, List.mem_cons, List.not_mem_nil,
    or_false] at hentry
  rcases hentry with rfl | rfl
  · simp [Fits]
  · simp [Fits]

/-- A client that reads a byte no message starts with. -/
def overlappingClient (transitions : List (Octets × TransitionInfo)) :
    OpTreeNode :=
  .mk (.controlFlow (.stateMachineOperation
    [("Open", .mk (lookaheadCallback overlappingConditions) transitions)])) []

theorem overlappingClient_runs
    (transitions : List (Octets × TransitionInfo)) :
    ∃ s t, run RunnerState.event [.pass]
        (RunnerState.start (overlappingClient transitions) none 0) = .ok s ∧
      s.context.exited = false ∧ s.context.activeRead =
        some (.transitionLookahead overlappingConditions, {}) ∧
      s.context.eof = false ∧ s.context.inputBuffer = [] ∧
      run RunnerState.event [.chunk [67], .pass, .pass, .pass, .pass] s =
        .ok t ∧ ReadProgram.Done (.runtimeError .typeError) t :=
  ⟨_, _, rfl, rfl, rfl, rfl, rfl, rfl, rfl, rfl⟩

theorem brings_overlapping :
    Brings false [.chunk [67], .pass, .pass, .pass, .pass] [67] false :=
  .chunk [67] (.pass (.pass (.pass (.pass (.nil false)))))

/-- The byte arrives and the client ends. -/
theorem mismatch_not_reported_overlapping : ∃ t,
    ReadProgram.Done (.runtimeError .typeError) t ∧
    ¬ ReadProgram.Done (.runtimeError .protocolMismatchError) t := by
  obtain ⟨protocol, transitions, _, hclient⟩ := client_overlapping
  obtain ⟨s, t, hbefore, hrunning, hread, heof, hempty, hrun, hdone⟩ :=
    overlappingClient_runs transitions
  refine ⟨t, hdone, (mismatch_not_reported (Or.inl hclient) none 0 [.pass] s
    hbefore hrunning overlappingConditions hread _ [67] false ?_ ?_ t hrun).1⟩
  · rw [heof]
    exact brings_overlapping
  · rw [hempty]
    exact cannotMatch_overlapping

/-- A mismatch can end a client with another error. -/
theorem mismatch_is_type_error :
    ¬ ∀ protocol optree,
      (client protocol = .ok optree ∨ server protocol = .ok optree) →
      ∀ arglist errno before s,
        run RunnerState.event before
          (RunnerState.start optree arglist errno) = .ok s →
        s.context.exited = false →
        ∀ conditions, s.context.activeRead =
            some (.transitionLookahead conditions, {}) →
          ∀ events stream ended, Brings s.context.eof events stream ended →
            CannotMatch conditions
              (s.context.inputBuffer.flatten ++ stream) ended →
            ∀ t, run RunnerState.event events s = .ok t → t.Settled →
              ReadProgram.Done (.runtimeError .protocolMismatchError) t := by
  intro hall
  obtain ⟨protocol, transitions, _, hclient⟩ := client_overlapping
  obtain ⟨s, t, hbefore, hrunning, hread, heof, hempty, hrun, hdone⟩ :=
    overlappingClient_runs transitions
  have hmismatch := hall protocol _ (Or.inl hclient) none 0 [.pass] s hbefore
    hrunning overlappingConditions hread _ [67] false
    (heof ▸ brings_overlapping) (hempty ▸ cannotMatch_overlapping) t hrun
    (Or.inl hdone.1)
  have heq := Option.some.inj (hdone.2.symm.trans hmismatch.2)
  cases heq

end Overlapping

end NetworkProtocolDsl
