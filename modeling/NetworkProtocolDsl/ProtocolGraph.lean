/-
The state machine operation follows the protocol graph.

The operation is driven by the values its callables return: it hands out a
callable with an argument list, is resumed with the value, and hands out the
next one until it yields a value of its own.  The graph has its own
description, in which a state waits for the name of a transition and a
transition for a dictionary.
-/
import NetworkProtocolDsl.Invocation

namespace NetworkProtocolDsl

/-- A callable that was invoked, with the arguments it was given. -/
structure Invoked where
  callable : Callable
  arguments : List Value

namespace StateMachineOperation

/-- The operation waits for the invocation of a callable; it is resumed with
each of the returned values until there is none left or it yields a value. -/
def resume (states : StateMap) :
    List Value → ControlFlowOperationContext →
      Except Fault (List Invoked × Option Value)
  | returns, ctx =>
      let operation := ControlFlowOperation.stateMachineOperation states
      match operation.getCallable ctx,
        operation.getArgumentList (operation.setCallableInvoked ctx) with
      | .ok (.callable callable), .ok (some arguments) =>
          match returns with
          | [] => .ok ([⟨callable, arguments⟩], none)
          | value :: returns =>
              let ctx := operation.setCallableReturn
                (operation.setCallableInvoked ctx) value
              match operation.apply ctx [] with
              | .error fault => .error fault
              | .ok (.value result, _) =>
                  .ok ([⟨callable, arguments⟩], some result)
              | .ok (.blocked .waitingForCallableInvocation, ctx) =>
                  (resume states returns ctx).map fun (invoked, result) =>
                    (⟨callable, arguments⟩ :: invoked, result)
              | .ok (.blocked _, _) => .error .assertion
      | .error fault, _ => .error fault
      | _, .error fault => .error fault
      | _, _ => .error .badVariantAccess

/-- The callables a fresh operation invokes when they return these values, and
the value it ends with. -/
def drive (states : StateMap) (returns : List Value) :
    Except Fault (List Invoked × Option Value) :=
  match (ControlFlowOperation.stateMachineOperation states).apply {} [] with
  | .error fault => .error fault
  | .ok (.value result, _) => .ok ([], some result)
  | .ok (.blocked .waitingForCallableInvocation, ctx) =>
      resume states returns ctx
  | .ok (.blocked _, _) => .error .assertion

end StateMachineOperation

/-- The callables, invoked one after the other, return these values. -/
inductive Return (eof : Bool) :
    List Invoked → List Value → World → World → Prop where
  | nil (w : World) : Return eof [] [] w w
  | cons {callable : Callable} {arguments : List Value} {value : Value}
      {w w₁ w' : World} {invoked : List Invoked} {returns : List Value} :
      callable.Evaluates eof arguments w value w₁ →
      Return eof invoked returns w₁ w' →
      Return eof (⟨callable, arguments⟩ :: invoked) (value :: returns) w w'

/-- The callback of a state, invoked with the dictionary carried into it. -/
def StateInfo.invoked (state : StateInfo) (dictionary : Value) : Invoked :=
  ⟨⟨state.callbackOptree, ["dictionary"], true⟩, [dictionary]⟩

/-- The callable of a transition, invoked with the members it asks for; one
that is missing is `false`. -/
def TransitionInfo.invoked (transition : TransitionInfo)
    (members : List (String × Value)) : Invoked :=
  ⟨⟨transition.callbackOptree, transition.argumentNames, true⟩,
    transition.argumentNames.map fun name =>
      (members.lookup name).getD (.bool false)⟩

/-- The transition is registered for the state under the name, and its target
is a state. -/
def StateInfo.Leads (state : StateInfo) (states : StateMap) (name : Octets)
    (transition : TransitionInfo) (target : StateInfo) : Prop :=
  state.transitions.lookup name = some transition ∧
    states.lookup transition.targetState = some target

/-- What the callback of a state may return: a name and a dictionary, and
outside of `Closed` the name of a transition. -/
def StateInfo.Accepts (state : StateInfo) (states : StateMap) (name : String)
    (value : Value) : Prop :=
  ∃ transitionName members,
    value = .dynamicList [.octets transitionName, .dictionary members] ∧
      (name = "Closed" ∨ ∃ transition target,
        state.Leads states transitionName transition target)

/-- `invoked` are the callables invoked from the state `name` on, when the
callables return `returns`; `result` is what the operation ends with. -/
inductive FollowsGraph (states : StateMap) :
    (name : String) → (state : StateInfo) → (dictionary : Value) →
      (returns : List Value) → (invoked : List Invoked) →
        (result : Option Value) → Prop where
  | stateWaits {name : String} {state : StateInfo} {dictionary : Value} :
      FollowsGraph states name state dictionary [] [state.invoked dictionary]
        none
  | closed {state : StateInfo} {dictionary : Value} {transitionName : Octets}
      {members : List (String × Value)} {returns : List Value} :
      FollowsGraph states "Closed" state dictionary
        (.dynamicList [.octets transitionName, .dictionary members] :: returns)
        [state.invoked dictionary] (some (.dictionary members))
  | stateRefused {name : String} {state : StateInfo} {dictionary : Value}
      {value : Value} {returns : List Value} {error : RuntimeError} :
      ¬ state.Accepts states name value →
      FollowsGraph states name state dictionary (value :: returns)
        [state.invoked dictionary] (some (.runtimeError error))
  | transitionWaits {name : String} {state target : StateInfo}
      {dictionary : Value} {transitionName : Octets}
      {members : List (String × Value)} {transition : TransitionInfo} :
      name ≠ "Closed" →
      state.Leads states transitionName transition target →
      FollowsGraph states name state dictionary
        [.dynamicList [.octets transitionName, .dictionary members]]
        [state.invoked dictionary, transition.invoked members] none
  | transitionRefused {name : String} {state target : StateInfo}
      {dictionary : Value} {transitionName : Octets}
      {members : List (String × Value)} {transition : TransitionInfo}
      {value : Value} {returns : List Value} {error : RuntimeError} :
      name ≠ "Closed" →
      state.Leads states transitionName transition target →
      (∀ next, value ≠ .dynamicList [.dictionary next]) →
      FollowsGraph states name state dictionary
        (.dynamicList [.octets transitionName, .dictionary members] ::
          value :: returns)
        [state.invoked dictionary, transition.invoked members]
        (some (.runtimeError error))
  | moves {name : String} {state target : StateInfo} {dictionary : Value}
      {transitionName : Octets} {members next : List (String × Value)}
      {transition : TransitionInfo} {returns : List Value}
      {invoked : List Invoked} {result : Option Value} :
      name ≠ "Closed" →
      state.Leads states transitionName transition target →
      FollowsGraph states transition.targetState target (.dictionary next)
        returns invoked result →
      FollowsGraph states name state dictionary
        (.dynamicList [.octets transitionName, .dictionary members] ::
          .dynamicList [.dictionary next] :: returns)
        (state.invoked dictionary :: transition.invoked members :: invoked)
        result

namespace StateMachineOperation

/-- The context in which the callback of a state is invoked. -/
def stateContext (ctx : ControlFlowOperationContext) (info : ProcessingInfo)
    (dictionary : Value) : ControlFlowOperationContext :=
  { ctx with
    callable := some (.callable
      ⟨info.toState.2.callbackOptree, ["dictionary"], true⟩)
    value := none
    accumulator := [dictionary]
    additionalInfo := some { info with processingMode := .state } }

/-- The context in which the callable of a transition is invoked. -/
def transitionContext (ctx : ControlFlowOperationContext)
    (info : ProcessingInfo) (transition : TransitionInfo)
    (members : List (String × Value)) : ControlFlowOperationContext :=
  { ctx with
    callable := some (.callable
      ⟨transition.callbackOptree, transition.argumentNames, true⟩)
    value := none
    accumulator := extractArguments transition.argumentNames members
    additionalInfo := some { info with processingMode := .transition } }

theorem processStateReturn_refused {states : StateMap}
    {ctx : ControlFlowOperationContext} (info : ProcessingInfo) {value : Value}
    (h : ¬ info.toState.2.Accepts states info.toState.1 value) :
    ∃ error ctx', processStateReturn ctx states info value =
      .ok (.value (.runtimeError error), ctx') := by
  unfold processStateReturn
  split
  · rename_i t d
    unfold processStateReturnWithArgs
    split
    · rename_i name members
      by_cases hclosed : info.toState.1 = "Closed"
      · exact absurd ⟨name, members, rfl, Or.inl hclosed⟩ h
      · rw [if_neg hclosed]
        simp only
        cases hlookup : info.toState.2.transitions.lookup name with
        | none => exact ⟨_, _, rfl⟩
        | some transition =>
            cases htarget : states.lookup transition.targetState with
            | none => exact ⟨.nameError, _, by simp only [htarget]; rfl⟩
            | some target =>
                exact absurd ⟨name, members, rfl,
                  Or.inr ⟨transition, target, hlookup, htarget⟩⟩ h
    · exact ⟨_, _, rfl⟩
  · exact ⟨_, _, rfl⟩
  · exact ⟨_, _, rfl⟩

theorem processStateReturn_closed {states : StateMap}
    {ctx : ControlFlowOperationContext} (info : ProcessingInfo)
    (h : info.toState.1 = "Closed") (name : Octets)
    (members : List (String × Value)) :
    processStateReturn ctx states info
        (.dynamicList [.octets name, .dictionary members]) =
      .ok (.value (.dictionary members), ctx) := by
  rw [processStateReturn, processStateReturnWithArgs, if_pos h]

theorem processStateReturn_leads {states : StateMap}
    {ctx : ControlFlowOperationContext} (info : ProcessingInfo) {name : Octets}
    {transition : TransitionInfo} {target : StateInfo}
    (hopen : info.toState.1 ≠ "Closed")
    (h : info.toState.2.Leads states name transition target)
    (members : List (String × Value)) :
    processStateReturn ctx states info
        (.dynamicList [.octets name, .dictionary members]) =
      .ok (.blocked .waitingForCallableInvocation, transitionContext ctx
        ⟨info.processingMode, some info.toState, some (name, transition),
          (transition.targetState, target)⟩ transition members) := by
  obtain ⟨hlookup, htarget⟩ := h
  rw [processStateReturn, processStateReturnWithArgs, if_neg hopen]
  simp only [hlookup, htarget, startTransitionCallback, transitionContext]

theorem processTransitionReturn_refused {ctx : ControlFlowOperationContext}
    {info : ProcessingInfo} {value : Value}
    (h : ∀ next, value ≠ .dynamicList [.dictionary next]) :
    ∃ error ctx', processTransitionReturn ctx info value =
      .ok (.value (.runtimeError error), ctx') := by
  unfold processTransitionReturn
  split
  · rename_i members
    exact absurd rfl (h members)
  · exact ⟨_, _, rfl⟩
  · exact ⟨_, _, rfl⟩
  · exact ⟨_, _, rfl⟩

section Resume

variable {states : StateMap} {ctx ctx' : ControlFlowOperationContext}
  {callable : Callable} {value result : Value} {returns : List Value}

theorem getCallable_eq_ok (operation : ControlFlowOperation)
    (hcallable : ctx.callable = some (.callable callable)) :
    operation.getCallable ctx = .ok (.callable callable) := by
  simp only [ControlFlowOperation.getCallable, hcallable]

theorem resume_nil (hcallable : ctx.callable = some (.callable callable)) :
    resume states [] ctx = .ok ([⟨callable, ctx.accumulator⟩], none) := by
  rw [resume]
  simp only [getCallable_eq_ok _ hcallable,
    ControlFlowOperation.getArgumentList,
    ControlFlowOperation.setCallableInvoked]

/-- The operation ends: it yields a value for what its callable returned. -/
theorem resume_of_value (hcallable : ctx.callable = some (.callable callable))
    (happly : apply states
      { ctx with callableInvoked := true, value := some value } =
        .ok (.value result, ctx')) :
    resume states (value :: returns) ctx =
      .ok ([⟨callable, ctx.accumulator⟩], some result) := by
  rw [resume]
  simp only [getCallable_eq_ok _ hcallable,
    ControlFlowOperation.getArgumentList, ControlFlowOperation.apply,
    ControlFlowOperation.setCallableInvoked,
    ControlFlowOperation.setCallableReturn, happly]

/-- The operation goes on to the next callable. -/
theorem resume_of_blocked
    (hcallable : ctx.callable = some (.callable callable))
    (happly : apply states
      { ctx with callableInvoked := true, value := some value } =
        .ok (.blocked .waitingForCallableInvocation, ctx'))
    {invoked : List Invoked} {last : Option Value}
    (hrest : resume states returns ctx' = .ok (invoked, last)) :
    resume states (value :: returns) ctx =
      .ok (⟨callable, ctx.accumulator⟩ :: invoked, last) := by
  rw [resume]
  simp only [getCallable_eq_ok _ hcallable,
    ControlFlowOperation.getArgumentList, ControlFlowOperation.apply,
    ControlFlowOperation.setCallableInvoked,
    ControlFlowOperation.setCallableReturn, happly, hrest, Except.map]

end Resume

theorem apply_stateContext (states : StateMap)
    (ctx : ControlFlowOperationContext) (info : ProcessingInfo)
    (dictionary value : Value) :
    apply states { stateContext ctx info dictionary with
        callableInvoked := true, value := some value } =
      processStateReturn { stateContext ctx info dictionary with
        callableInvoked := true, value := some value } states
        { info with processingMode := .state } value :=
  rfl

theorem apply_transitionContext (states : StateMap)
    (ctx : ControlFlowOperationContext) (info : ProcessingInfo)
    {pair : Octets × TransitionInfo} (hinfo : info.transition = some pair)
    (transition : TransitionInfo) (members : List (String × Value))
    (value : Value) :
    apply states { transitionContext ctx info transition members with
        callableInvoked := true, value := some value } =
      processTransitionReturn { transitionContext ctx info transition members
        with callableInvoked := true, value := some value }
        { info with processingMode := .transition } value := by
  simp only [apply, transitionContext, ↓reduceIte, hinfo]

/-- From the callback of a state on. -/
theorem resume_followsGraph (states : StateMap) (n : Nat)
    (ctx : ControlFlowOperationContext) (info : ProcessingInfo)
    (dictionary : Value) (returns : List Value) (hn : returns.length ≤ n) :
    ∃ invoked result,
      resume states returns (stateContext ctx info dictionary) =
        .ok (invoked, result) ∧
      FollowsGraph states info.toState.1 info.toState.2 dictionary returns
        invoked result := by
  induction n using Nat.strongRecOn generalizing ctx info dictionary
      returns with
  | ind n ih =>
      cases returns with
      | nil => exact ⟨_, _, resume_nil rfl, .stateWaits⟩
      | cons value returns =>
          by_cases haccepts :
              info.toState.2.Accepts states info.toState.1 value
          · obtain ⟨name, members, rfl, hname⟩ := haccepts
            by_cases hclosed : info.toState.1 = "Closed"
            · have hyields := (apply_stateContext states ctx info dictionary
                _).trans (processStateReturn_closed
                  { info with processingMode := .state } hclosed
                  name members)
              refine ⟨_, _, resume_of_value rfl hyields, ?_⟩
              rw [hclosed]
              exact .closed
            · obtain ⟨transition, target, hleads⟩ :=
                hname.resolve_left hclosed
              have hgoes := (apply_stateContext states ctx info dictionary
                _).trans (processStateReturn_leads
                  { info with processingMode := .state } hclosed
                  hleads members)
              cases returns with
              | nil =>
                  exact ⟨_, _, resume_of_blocked rfl hgoes (resume_nil rfl),
                    .transitionWaits hclosed hleads⟩
              | cons value returns =>
                  have happly := apply_transitionContext states
                    { stateContext ctx info dictionary with
                      callableInvoked := true
                      value := some (.dynamicList
                        [.octets name, .dictionary members]) }
                    ⟨.state, some info.toState,
                      some (name, transition),
                      (transition.targetState, target)⟩ rfl transition
                    members value
                  by_cases hnext : ∃ next,
                      value = .dynamicList [.dictionary next]
                  · obtain ⟨next, rfl⟩ := hnext
                    obtain ⟨invoked, result, hrest, hfollows⟩ := ih
                      returns.length (by simp only [List.length_cons] at hn
                                         omega)
                      _ _ (.dictionary next) returns (Nat.le_refl _)
                    exact ⟨_, _, resume_of_blocked rfl hgoes
                      (resume_of_blocked rfl happly hrest),
                      .moves hclosed hleads hfollows⟩
                  · have hnext' := not_exists.mp hnext
                    obtain ⟨error, ctx', hrefused⟩ :=
                      processTransitionReturn_refused hnext'
                    exact ⟨_, _, resume_of_blocked rfl hgoes
                      (resume_of_value rfl (happly.trans hrefused)),
                      .transitionRefused hclosed hleads hnext'⟩
          · obtain ⟨error, ctx', hrefused⟩ :=
              processStateReturn_refused
                { info with processingMode := .state } haccepts
            exact ⟨_, _, resume_of_value rfl ((apply_stateContext states ctx
              info dictionary value).trans hrefused), .stateRefused haccepts⟩

/-- For every state map and whatever the callables return, the operation
follows the graph from the state `Open` on; without that state it fails. -/
theorem drive_followsGraph (states : StateMap) (returns : List Value) :
    (states.lookup "Open" = none ∧
      drive states returns = .ok ([], some (.runtimeError .nameError))) ∨
    ∃ state invoked result, states.lookup "Open" = some state ∧
      drive states returns = .ok (invoked, result) ∧
      FollowsGraph states "Open" state (.dictionary []) returns invoked
        result := by
  cases hopen : states.lookup "Open" with
  | none =>
      refine Or.inl ⟨rfl, ?_⟩
      simp only [drive, ControlFlowOperation.apply, apply, hopen]
  | some state =>
      obtain ⟨invoked, result, hresume, hfollows⟩ :=
        resume_followsGraph states returns.length {}
          ⟨.transition, none, none, ("Open", state)⟩ (.dictionary []) returns
          (Nat.le_refl _)
      refine Or.inr ⟨state, invoked, result, rfl, ?_, hfollows⟩
      rw [← hresume]
      simp only [drive, ControlFlowOperation.apply, apply, hopen,
        startStateCallback]
      rfl

theorem resume_cons_cases {states : StateMap} {value result : Value}
    {returns : List Value} {ctx : ControlFlowOperationContext}
    {invoked : List Invoked}
    (h : resume states (value :: returns) ctx = .ok (invoked, some result)) :
    ∃ callable, ctx.callable = some (.callable callable) ∧
      ((∃ ctx', apply states { ctx with
          callableInvoked := true, value := some value } =
            .ok (.value result, ctx') ∧
          invoked = [⟨callable, ctx.accumulator⟩]) ∨
        ∃ ctx' rest, apply states { ctx with
          callableInvoked := true, value := some value } =
            .ok (.blocked .waitingForCallableInvocation, ctx') ∧
          resume states returns ctx' = .ok (rest, some result) ∧
          invoked = ⟨callable, ctx.accumulator⟩ :: rest) := by
  rw [resume] at h
  split at h
  · rename_i callable arguments hcallable harguments
    obtain rfl : ctx.accumulator = arguments :=
      Option.some.inj (Except.ok.inj harguments)
    simp only [ControlFlowOperation.getCallable] at hcallable
    split at hcallable
    · rename_i value' hctx
      obtain rfl := Except.ok.inj hcallable
      refine ⟨callable, hctx, ?_⟩
      simp only [ControlFlowOperation.apply,
        ControlFlowOperation.setCallableInvoked,
        ControlFlowOperation.setCallableReturn] at h
      split at h
      · contradiction
      · rename_i ctx' happly
        obtain ⟨rfl, hresult⟩ := Prod.mk.inj (Except.ok.inj h)
        obtain rfl := Option.some.inj hresult
        exact Or.inl ⟨_, happly, rfl⟩
      · rename_i ctx' happly
        cases hrest : resume states returns ctx' with
        | error fault => simp [hrest, Except.map] at h
        | ok answer =>
            obtain ⟨rest, last⟩ := answer
            rw [hrest] at h
            obtain ⟨rfl, rfl⟩ := Prod.mk.inj (Except.ok.inj h)
            exact Or.inr ⟨ctx', rest, happly, hrest, rfl⟩
      · contradiction
    · contradiction
  all_goals contradiction

/-- The frame that waits for its callable finishes when the callables return
these values. -/
theorem finishes_of_resume {eof : Bool} {states : StateMap} {result : Value}
    {invoked : List Invoked} {returns : List Value} {w w' : World}
    (hreturn : Return eof invoked returns w w')
    {ctx ctx' : ControlFlowOperationContext}
    (happly : apply states ctx =
      .ok (.blocked .waitingForCallableInvocation, ctx'))
    (h : resume states returns ctx' = .ok (invoked, some result)) :
    (Site.controlFlowFrame (.stateMachineOperation states) [] []
      ctx).Finishes eof w result w' := by
  have hready := Site.controlFlowFrame_ready (.stateMachineOperation states)
    [] [] (Nat.le_refl 0)
  induction hreturn generalizing ctx ctx' with
  | nil w =>
      rw [resume] at h
      split at h <;> simp at h
  | @cons callable arguments value w w₁ w' invoked returns hvalue hrest ih =>
      intro site heof frames result'
      subst heof
      obtain ⟨callable', hcallable, ⟨last, hlast, hinvoked⟩ |
        ⟨next, rest, hnext, hresume, hinvoked⟩⟩ := resume_cons_cases h
      · obtain ⟨hhead, rfl⟩ := List.cons.inj hinvoked
        obtain ⟨rfl, rfl⟩ := Invoked.mk.inj hhead
        cases hrest
        have hleads := site.leads_invocation (.stateMachineOperation states)
          [] [] (Nat.le_refl 0) happly hcallable rfl (Or.inl rfl) hvalue
          frames result'
        refine ⟨_, w₁, _, hleads, hready _, ⟨.controlFlow last, ?_⟩, rfl,
          rfl⟩
        simp only [Site.controlFlowFrame, ExecutionStackFrame.execute,
          OpTreeNode.operation, ControlFlowOperation.apply, hlast,
          Except.map]
      · obtain ⟨hhead, rfl⟩ := List.cons.inj hinvoked
        obtain ⟨rfl, rfl⟩ := Invoked.mk.inj hhead
        have hleads := site.leads_invocation (.stateMachineOperation states)
          [] [] (Nat.le_refl 0) happly hcallable rfl (Or.inl rfl) hvalue
          frames result'
        obtain ⟨last, middle, result'', hlast, hyields⟩ := ih hnext hresume
          site rfl frames (.value value)
        exact ⟨last, middle, result'', hleads.trans hlast, hyields⟩

end StateMachineOperation

/-- Driven by what its callables evaluate to, the state machine evaluates to
what the graph ends with. -/
theorem OpTreeNode.evaluates_stateMachineOperation {eof : Bool}
    {states : StateMap} {result : Value} {invoked : List Invoked}
    {returns : List Value} {w w' : World}
    (h : StateMachineOperation.drive states returns =
      .ok (invoked, some result))
    (hreturn : Return eof invoked returns w w') :
    (OpTreeNode.mk (.controlFlow (.stateMachineOperation states))
      []).Evaluates eof w result w' := by
  refine .leaf rfl ?_
  unfold StateMachineOperation.drive at h
  split at h
  · contradiction
  · rename_i yielded ctx happly
    obtain ⟨rfl, hresult⟩ := Prod.mk.inj (Except.ok.inj h)
    rw [Option.some.inj hresult] at happly
    cases hreturn
    have hexecute : (ExecutionStackFrame.new (.mk (.controlFlow
        (.stateMachineOperation states)) [])).execute w.pad w.errno =
        .ok ⟨.value result, .controlFlow ctx, w.pad, w.errno⟩ := by
      simp only [ExecutionStackFrame.new, ExecutionStackFrame.execute,
        OpTreeNode.operation, Operation.initializeContext, happly, Except.map]
    exact .of_execute _ rfl hexecute eof
  · rename_i ctx happly
    exact StateMachineOperation.finishes_of_resume hreturn happly h
  · contradiction

end NetworkProtocolDsl
