/-
Runs of the interpreter that exit.

The steps are those of the runner's passes that neither wait nor stop; states
that differ only by preparing the stack run alike.  A run that exits never met
a fault, so the frame on top has what its operation needs.
-/
import NetworkProtocolDsl.BigStep
import NetworkProtocolDsl.Invocation

namespace NetworkProtocolDsl

open RunnerState

/-- So many steps are ready, and the next one exits with the value. -/
def Interpreter.Exits : Nat → Interpreter → Errno → Value → Memory → Prop
  | 0, i, errno, value, m =>
      ∃ i', i.step errno = .ok (.exited, i', m.errno) ∧
        i'.getResult = .value value ∧ i'.top.pad = m.pad
  | n + 1, i, errno, value, m =>
      ∃ i' errno', i.step errno = .ok (.ready, i', errno') ∧
        Exits n i' errno' value m

theorem Continuation.step_state {c c' : Continuation} {errno errno' : Errno}
    {state : ContinuationState} (h : c.step errno = .ok (state, c', errno')) :
    state ≠ .missingArguments := by
  unfold step at h
  split at h
  · contradiction
  · unfold executeTop at h
    split at h
    · obtain ⟨rfl, _⟩ := Prod.mk.inj (Except.ok.inj h)
      decide
    · split at h
      · contradiction
      · obtain ⟨rfl, _⟩ := Prod.mk.inj (Except.ok.inj h)
        decide
      · split at h
        · obtain ⟨rfl, _⟩ := Prod.mk.inj (Except.ok.inj h)
          decide
        · obtain ⟨rfl, _⟩ := Prod.mk.inj (Except.ok.inj h)
          decide
  · rename_i hprepare
    obtain ⟨rfl, _⟩ := Prod.mk.inj (Except.ok.inj h)
    rcases prepare_ready hprepare with ⟨_, rfl, _⟩ | ⟨_, _, rfl, _⟩
    · decide
    · decide

theorem Continuation.prepare_state {c c' : Continuation}
    {state : ContinuationState} (h : c.prepare = .ok (state, c')) :
    state ≠ .missingArguments := by
  rcases prepare_ready h with ⟨_, rfl, _⟩ | ⟨_, _, rfl, _⟩
  · decide
  · decide

theorem Interpreter.invoke_state {i i' : Interpreter}
    {state : ContinuationState} (h : i.invoke = .ok (state, i')) :
    state ≠ .missingArguments := by
  unfold invoke at h
  split at h
  · contradiction
  · simp only at h
    split at h
    · contradiction
    · split at h
      · contradiction
      · split at h
        · contradiction
        · rename_i hprepare
          obtain ⟨rfl, _⟩ := Prod.mk.inj (Except.ok.inj h)
          exact Continuation.prepare_state hprepare
  · contradiction

theorem Interpreter.returnTo_state {i i' : Interpreter} {value : Value}
    {invoker : Continuation} {suspended : List Continuation}
    {state : ContinuationState}
    (h : i.returnTo value invoker suspended = .ok (state, i')) :
    state ≠ .missingArguments := by
  unfold returnTo at h
  simp only at h
  split at h
  · contradiction
  · rename_i hprepare
    obtain ⟨rfl, _⟩ := Prod.mk.inj (Except.ok.inj h)
    exact Continuation.prepare_state hprepare

/-- A step leaves the stack prepared, is blocked or exits. -/
theorem Interpreter.step_state {i i' : Interpreter} {errno errno' : Errno}
    {state : ContinuationState} (h : i.step errno = .ok (state, i', errno')) :
    state ≠ .missingArguments := by
  unfold step at h
  split at h
  · contradiction
  · split at h
    · obtain ⟨⟨state', i''⟩, hinvoke, heq⟩ := map_eq_ok h
      obtain ⟨rfl, _⟩ := Prod.mk.inj heq
      exact invoke_state hinvoke
    · obtain ⟨rfl, _⟩ := Prod.mk.inj (Except.ok.inj h)
      decide
  · split at h
    · contradiction
    · split at h
      · obtain ⟨rfl, _⟩ := Prod.mk.inj (Except.ok.inj h)
        decide
      · obtain ⟨⟨state', i''⟩, hreturn, heq⟩ := map_eq_ok h
        obtain ⟨rfl, _⟩ := Prod.mk.inj heq
        exact returnTo_state hreturn
  · rename_i hstep
    obtain ⟨rfl, _⟩ := Prod.mk.inj (Except.ok.inj h)
    exact Continuation.step_state hstep

/-- What an evaluation can change, without the buffers of the runner. -/
def Memory.world (m : Memory) : World :=
  ⟨m.pad, m.errno, [], []⟩

namespace RunnerState

abbrev Exits (s : RunnerState) (n : Nat) (value : Value) (m : Memory) : Prop :=
  Interpreter.Exits n s.context.interpreter s.errno value m

variable {s t u : RunnerState} {n : Nat} {value : Value} {m : Memory}

theorem Steps.interpreter_ready (h : s.Steps .ready t) :
    s.context.interpreter.step s.errno =
      .ok (.ready, t.context.interpreter, t.errno) := by
  unfold Steps InterpreterContext.pass at h
  split at h
  · obtain ⟨hprogress, _⟩ := Prod.mk.inj (Except.ok.inj h)
    contradiction
  · split at h
    · contradiction
    · cases hblocked : InterpreterContext.handleBlockedInterpreter _ with
      | error fault =>
          rw [hblocked] at h
          contradiction
      | ok result =>
          rw [hblocked] at h
          obtain ⟨hprogress, _⟩ := Prod.mk.inj (Except.ok.inj h)
          contradiction
    · obtain ⟨hprogress, _⟩ := Prod.mk.inj (Except.ok.inj h)
      contradiction
    · rename_i state interpreter errno hblocked hexited hstep
      obtain ⟨_, hpair⟩ := Prod.mk.inj (Except.ok.inj h)
      obtain ⟨hcontext, herrno⟩ := Prod.mk.inj hpair
      have hstate := Interpreter.step_state hstep
      have hready : state = .ready := by
        cases state with
        | missingArguments => exact absurd rfl hstate
        | ready => rfl
        | blocked => exact absurd rfl hblocked
        | exited => exact absurd rfl hexited
      rw [hstep, ← hcontext, ← herrno, hready]

theorem Steps.interpreter_exited (h : s.Steps .exited t)
    (hrunning : s.context.exited = false) :
    s.context.interpreter.step s.errno =
      .ok (.exited, t.context.interpreter, t.errno) := by
  unfold Steps InterpreterContext.pass at h
  rw [if_neg (by simp [hrunning])] at h
  split at h
  · contradiction
  · cases hblocked : InterpreterContext.handleBlockedInterpreter _ with
    | error fault =>
        rw [hblocked] at h
        contradiction
    | ok result =>
        rw [hblocked] at h
        obtain ⟨hprogress, _⟩ := Prod.mk.inj (Except.ok.inj h)
        contradiction
  · rename_i hstep
    obtain ⟨_, hpair⟩ := Prod.mk.inj (Except.ok.inj h)
    obtain ⟨hcontext, herrno⟩ := Prod.mk.inj hpair
    rw [hstep, ← hcontext, ← herrno]
  · obtain ⟨hprogress, _⟩ := Prod.mk.inj (Except.ok.inj h)
    contradiction

/-- A ready step is one step of the run. -/
theorem Steps.exits_iff (h : s.Steps .ready t) :
    s.Exits n value m ↔ ∃ j, n = j + 1 ∧ t.Exits j value m := by
  have hstep := h.interpreter_ready
  cases n with
  | zero =>
      constructor
      · rintro ⟨i', hexit, _⟩
        rw [hstep] at hexit
        obtain ⟨hstate, _⟩ := Prod.mk.inj (Except.ok.inj hexit)
        contradiction
      · rintro ⟨j, hj, _⟩
        omega
  | succ n =>
      constructor
      · rintro ⟨i', errno', hready, hrest⟩
        rw [hstep] at hready
        obtain ⟨_, hpair⟩ := Prod.mk.inj (Except.ok.inj hready)
        obtain ⟨rfl, rfl⟩ := Prod.mk.inj hpair
        exact ⟨n, rfl, hrest⟩
      · rintro ⟨j, hj, hrest⟩
        obtain rfl : n = j := by omega
        exact ⟨_, _, hstep, hrest⟩

theorem Alike.step_eq (h : Alike s t) :
    s.context.interpreter.step s.errno =
      t.context.interpreter.step t.errno ∨ s = t := by
  rcases h with rfl | ⟨_, top, hs, ht, heq⟩
  · exact Or.inr rfl
  · left
    have hstep : s.context.interpreter.top.step s.errno =
        t.context.interpreter.top.step t.errno := by
      rw [Continuation.step_eq_of_prepare hs, Continuation.step_eq_of_prepare ht,
        heq]
    have hsuspended : s.context.interpreter.suspended =
        t.context.interpreter.suspended := by rw [heq]
    unfold Interpreter.step
    rw [hstep, hsuspended]

theorem Alike.exits_iff (h : Alike s t) :
    s.Exits n value m ↔ t.Exits n value m := by
  rcases h.step_eq with hstep | rfl
  · cases n with
    | zero => simp only [Exits, Interpreter.Exits, hstep]
    | succ n => simp only [Exits, Interpreter.Exits, hstep]
  · exact Iff.rfl

/-- A run from the second state continues one from the first. -/
def Continues (s t : RunnerState) : Prop :=
  ∃ k, ∀ n value m, t.Exits n value m → s.Exits (n + k) value m

namespace Continues

theorem of_alike (h : Alike s t) : Continues s t :=
  ⟨0, fun _ _ _ ht => h.exits_iff.mpr ht⟩

theorem of_steps (h : s.Steps .ready t) : Continues s t :=
  ⟨1, fun n _ _ ht => h.exits_iff.mpr ⟨n, rfl, ht⟩⟩

theorem refl (s : RunnerState) : Continues s s :=
  of_alike (Alike.refl s)

theorem trans (h : Continues s t) (h' : Continues t u) : Continues s u := by
  obtain ⟨k, hk⟩ := h
  obtain ⟨k', hk'⟩ := h'
  refine ⟨k' + k, fun n value m hu => ?_⟩
  rw [← Nat.add_assoc]
  exact hk _ _ _ (hk' _ _ _ hu)

end Continues

section Exits

variable {site : Site} {frame : ExecutionStackFrame}
  {frames : List ExecutionStackFrame} {w : World} {result : OperationResult}
  {n : Nat} {value : Value} {m m₁ : Memory}

/-- The step of a run that exits is ready or exits. -/
theorem step_of_exits {s : RunnerState} (h : s.Exits n value m₁) :
    ∃ state i errno, s.context.interpreter.step s.errno =
      .ok (state, i, errno) ∧ (state = .ready ∨ state = .exited) := by
  cases n with
  | zero =>
      obtain ⟨i, hstep, _⟩ := h
      exact ⟨_, _, _, hstep, Or.inr rfl⟩
  | succ n =>
      obtain ⟨i, errno, hstep, _⟩ := h
      exact ⟨_, _, _, hstep, Or.inl rfl⟩

/-- A frame that waits has a next child that can be prepared. -/
theorem nextOp_of_exits (hready : frame.hasArgumentsReady = false)
    (h : (site.state (frame :: frames) w result).Exits n value m₁) :
    ∃ child pushed, frame.nextOp = .ok child ∧ child.descend = .ok pushed := by
  obtain ⟨state, i, errno, hstep, _⟩ := step_of_exits h
  simp only [Site.state, Site.top, Interpreter.step, Continuation.step,
    Continuation.prepare, hready, Bool.false_eq_true, ↓reduceIte] at hstep
  cases hnext : frame.nextOp with
  | error fault =>
      simp only [hnext] at hstep
      contradiction
  | ok child =>
      simp only [hnext] at hstep
      cases hdescend : child.descend with
      | error fault =>
          simp only [hdescend] at hstep
          contradiction
      | ok pushed => exact ⟨child, pushed, rfl, hdescend⟩

/-- Where the topmost operation invokes no callables, the step of a run that
exits yields a value. -/
theorem execute_of_exits (hready : frame.hasArgumentsReady = true)
    (hoperation : ∀ operation, frame.optreenode.operation ≠
      .controlFlow operation)
    (h : (site.state (frame :: frames) w result).Exits n value m₁) :
    ∃ value' ctx pad errno, frame.execute w.pad w.errno =
      .ok ⟨.value value', ctx, pad, errno⟩ := by
  obtain ⟨state, i, errno, hstep, hstate⟩ := step_of_exits h
  have hprepare := site.prepare_top (w := w) result hready frames
  simp only [Site.top] at hprepare
  simp only [Site.state, Site.top, Interpreter.step, Continuation.step,
    hprepare, Continuation.executeTop] at hstep
  cases hexecute : frame.execute w.pad w.errno with
  | error fault =>
      simp only [hexecute] at hstep
      contradiction
  | ok execution =>
      obtain ⟨outcome, ctx, pad, errno'⟩ := execution
      cases outcome with
      | value value' => exact ⟨value', ctx, pad, errno', rfl⟩
      | blocked reason =>
          simp only [hexecute] at hstep
          cases reason with
          | waitingForCallableInvocation =>
              obtain ⟨⟨operation, children⟩, values, ctx'⟩ := frame
              cases operation with
              | controlFlow operation => exact absurd rfl (hoperation operation)
              | interpreted _ | unaryCallback _ | inputOutput _ | lexicalPad _
              | dynamicInput _ => contradiction
          | waitingForCallback | waitingCallbackData | waitingForRead
          | waitingForWrite | waitingForCallableResult =>
              obtain ⟨rfl, _⟩ := Prod.mk.inj (Except.ok.inj hstep)
              rcases hstate with hstate | hstate
              · contradiction
              · contradiction

theorem descend_of_prepare {node : OpTreeNode} {pad : LexicalPad}
    {inherits : Bool} {r : ContinuationState × Continuation}
    (h : (Continuation.new node pad inherits).prepare = .ok r) :
    ∃ pushed, node.descend = .ok pushed := by
  obtain ⟨operation, children⟩ := node
  simp only [Continuation.prepare, Continuation.new] at h
  split at h
  · rename_i hready
    exact ⟨_, OpTreeNode.descend_of_ready hready⟩
  · rename_i hready
    cases children with
    | nil => contradiction
    | cons child children =>
        cases hchild : child.descend with
        | error fault =>
            simp only [ExecutionStackFrame.nextOp, ExecutionStackFrame.new,
              OpTreeNode.children, List.length_nil, List.getElem?_cons_zero,
              hchild] at h
            contradiction
        | ok pushed =>
            exact ⟨_, OpTreeNode.descend_of_child
              (Bool.eq_false_iff.mpr hready) hchild⟩

/-- What the topmost operation has to hold for an invocation. -/
theorem invoke_eq_ok {operation : ControlFlowOperation}
    {children : List OpTreeNode} {args : List Value}
    {ctx : ControlFlowOperationContext} {pad : LexicalPad}
    {outcome : OperationResult} {inherits : Bool}
    {suspended : List Continuation} {r : ContinuationState × Interpreter}
    (h : Interpreter.invoke ⟨⟨Site.controlFlowFrame operation children args
      ctx :: frames, pad, outcome, inherits⟩, suspended⟩ = .ok r) :
    ∃ callable arglist pushed, ctx.callable = some (.callable callable) ∧
      operation.getArgumentList (operation.setCallableInvoked ctx) =
        .ok arglist ∧
      (arglist.isSome ∨ callable.argumentNames = []) ∧
      callable.tree.descend = .ok pushed := by
  simp only [Interpreter.invoke, Continuation.getCallable,
    Site.controlFlowFrame, ControlFlowOperation.getCallable,
    Continuation.setCallableInvoked, Continuation.modifyControlFlow,
    Continuation.getArgumentList] at h
  split at h
  · contradiction
  · rename_i callable hcallable
    split at hcallable
    · rename_i held hheld
      obtain rfl := Except.ok.inj hcallable
      split at h
      · contradiction
      · rename_i arglist hargs
        split at h
        · contradiction
        · rename_i hsupplied
          split at h
          · contradiction
          · rename_i hprepare
            obtain ⟨pushed, hdescend⟩ := descend_of_prepare hprepare
            refine ⟨callable, arglist, pushed, hheld, hargs, ?_, hdescend⟩
            cases arglist with
            | some _ => exact Or.inl rfl
            | none => exact Or.inr (by simpa using hsupplied)
    · contradiction
  · contradiction

/-- What the topmost operation that invokes callables has to yield in a run
that exits. -/
theorem apply_of_exits {operation : ControlFlowOperation}
    {children : List OpTreeNode} {args : List Value}
    (harity : operation.arity ≤ args.length)
    {ctx : ControlFlowOperationContext}
    (h : (site.state (Site.controlFlowFrame operation children args ctx ::
      frames) w result).Exits n value m₁) :
    (∃ value' ctx', operation.apply ctx args = .ok (.value value', ctx')) ∨
      ∃ ctx' callable arglist pushed,
        operation.apply ctx args =
          .ok (.blocked .waitingForCallableInvocation, ctx') ∧
        ctx'.callable = some (.callable callable) ∧
        operation.getArgumentList (operation.setCallableInvoked ctx') =
          .ok arglist ∧
        (arglist.isSome ∨ callable.argumentNames = []) ∧
        callable.tree.descend = .ok pushed := by
  obtain ⟨state, i, errno, hstep, hstate⟩ := step_of_exits h
  have hready := Site.controlFlowFrame_ready operation children args harity ctx
  have hprepare := site.prepare_top (w := w) result hready frames
  simp only [Site.top] at hprepare
  simp only [Site.state, Site.top, Interpreter.step, Continuation.step,
    hprepare, Continuation.executeTop] at hstep
  simp only [Site.controlFlowFrame, ExecutionStackFrame.execute,
    OpTreeNode.operation] at hstep
  cases happly : operation.apply ctx args with
  | error fault =>
      simp only [happly, Except.map] at hstep
      contradiction
  | ok outcome =>
      obtain ⟨outcome, ctx'⟩ := outcome
      simp only [happly, Except.map] at hstep
      cases outcome with
      | value value' => exact Or.inl ⟨value', ctx', rfl⟩
      | blocked reason =>
          right
          cases reason with
          | waitingForCallableInvocation =>
              obtain ⟨r, hinvoke, _⟩ := map_eq_ok hstep
              obtain ⟨callable, arglist, pushed, hheld⟩ := invoke_eq_ok hinvoke
              exact ⟨ctx', callable, arglist, pushed, rfl, hheld⟩
          | waitingForCallback | waitingCallbackData | waitingForRead
          | waitingForWrite | waitingForCallableResult =>
              obtain ⟨rfl, _⟩ := Prod.mk.inj (Except.ok.inj hstep)
              rcases hstate with hstate | hstate
              · contradiction
              · contradiction

end Exits

end RunnerState

end NetworkProtocolDsl
