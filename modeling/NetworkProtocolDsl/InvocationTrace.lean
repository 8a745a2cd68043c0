/-
What an operation that invokes callables does over a run.

While its frame stays the operation is either about to be evaluated, or it
waits for the callee that it invoked, which runs on the continuations above its
own.  The passes of a run show when it invokes, when the callee returns and
what the operation yields.
-/
import NetworkProtocolDsl.InterpreterExits

namespace NetworkProtocolDsl

open Run

/-- The continuation goes on as soon as a callee returns to it. -/
def Continuation.Resumable (c : Continuation) : Prop :=
  ∃ frame frames, c.stack = frame :: frames ∧
    frame.hasArgumentsReady = true

namespace Continuation

variable {c c' : Continuation}

theorem Resumable.prepare (h : c.Resumable) : c.prepare = .ok (.ready, c) := by
  obtain ⟨frame, frames, hstack, hready⟩ := h
  exact prepare_of_ready hstack hready

theorem Resumable.modifyControlFlow (h : c.Resumable)
    (f : ControlFlowOperation → ControlFlowOperationContext →
      ControlFlowOperationContext) : (c.modifyControlFlow f).Resumable := by
  unfold Continuation.modifyControlFlow
  split
  · rename_i operation children accumulator ctx frames hstack
    obtain ⟨frame, below, hframe, hready⟩ := h
    rw [hstack] at hframe
    obtain ⟨hsame, _⟩ := List.cons.inj hframe
    rw [← hsame] at hready
    exact ⟨_, _, rfl, hready⟩
  · exact h

/-- A blocked continuation is resumable. -/
theorem resumable_of_step {errno errno' : Errno}
    (h : c.step errno = .ok (.blocked, c', errno')) : c'.Resumable := by
  unfold step at h
  split at h
  · contradiction
  · rename_i prepared hprepare
    rcases prepare_ready hprepare with ⟨_, hstate, _⟩ |
      ⟨frame, frames, _, hstack, hready⟩
    · contradiction
    · rw [hstack] at h
      simp only [executeTop] at h
      split at h
      · contradiction
      · obtain ⟨_, hpair⟩ := Prod.mk.inj (Except.ok.inj h)
        obtain ⟨hc', _⟩ := Prod.mk.inj hpair
        rw [← hc']
        exact ⟨_, _, rfl, hready⟩
      · split at h
        · obtain ⟨hstate, _⟩ := Prod.mk.inj (Except.ok.inj h)
          contradiction
        · obtain ⟨hstate, _⟩ := Prod.mk.inj (Except.ok.inj h)
          contradiction
  · rename_i state prepared hnot hprepare
    rcases prepare_ready hprepare with ⟨_, hstate, _⟩ |
      ⟨_, _, hstate, _, _⟩
    · obtain ⟨hblocked, _⟩ := Prod.mk.inj (Except.ok.inj h)
      rw [hstate] at hblocked
      contradiction
    · exact absurd hstate (by simpa using hnot)

end Continuation

namespace Interpreter

/-- A step keeps the continuations that wait, pushes another one, or returns
to the first of them. -/
inductive Moves (suspended : List Continuation) (i' : Interpreter) :
    ContinuationState → Prop where
  | keep {state : ContinuationState} (hsame : i'.suspended = suspended)
      (hexit : state = .exited → suspended = []) : Moves suspended i' state
  | push {invoker : Continuation} (hresumable : invoker.Resumable)
      (hpush : i'.suspended = invoker :: suspended) : Moves suspended i' .ready
  | pop {invoker : Continuation} {rest : List Continuation} (value : Value)
      (pad : LexicalPad) (hpop : suspended = invoker :: rest)
      (hi' : i' = ⟨Continuation.setCallableReturn
        { invoker with pad := pad } value, rest⟩) : Moves suspended i' .ready

variable {i i' : Interpreter} {state : ContinuationState}
  {errno errno' : Errno}

theorem moves_invoke (hresumable : i.top.Resumable)
    (h : i.invoke = .ok (state, i')) : Moves i.suspended i' state := by
  unfold invoke at h
  split at h
  · contradiction
  · simp only at h
    split at h
    · contradiction
    · split at h
      · contradiction
      · split at h
        · contradiction
        · rename_i callee hprepare
          obtain ⟨hstate, hi'⟩ := Prod.mk.inj (Except.ok.inj h)
          rcases Continuation.prepare_ready hprepare with ⟨hnil, _, _⟩ |
            ⟨_, _, hready, _, _⟩
          · contradiction
          · rw [← hstate, hready, ← hi']
            exact .push (hresumable.modifyControlFlow _) rfl
  · contradiction

/-- A continuation that can be resumed is, with the value of the callee. -/
theorem returnTo_of_resumable {invoker : Continuation} (value : Value)
    (suspended : List Continuation) (hresumable : invoker.Resumable) :
    i.returnTo value invoker suspended = .ok (.ready,
      ⟨Continuation.setCallableReturn { invoker with
        pad := LexicalPad.afterCall i.top.inheritsLexicalPad invoker.pad i.top.pad
      } value, suspended⟩) := by
  let pad := LexicalPad.afterCall i.top.inheritsLexicalPad invoker.pad
    i.top.pad
  let resumed := Continuation.setCallableReturn { invoker with pad := pad }
    value
  have hset : Continuation.Resumable
      { invoker with pad := pad, result := .value value } := hresumable
  have hprepare : resumed.prepare = .ok (.ready, resumed) :=
    (hset.modifyControlFlow _).prepare
  simp only [resumed, pad] at hprepare
  simp only [returnTo, hprepare]

theorem moves_returnTo {invoker : Continuation}
    {suspended : List Continuation} {value : Value}
    (hresumable : invoker.Resumable)
    (h : i.returnTo value invoker suspended = .ok (state, i')) :
    Moves (invoker :: suspended) i' state := by
  have hreturn := returnTo_of_resumable (i := i) value suspended hresumable
  rw [hreturn] at h
  obtain ⟨hstate, hi'⟩ := Prod.mk.inj (Except.ok.inj h)
  rw [← hstate, ← hi']
  exact .pop value _ rfl rfl

/-- What a step does to the continuations that wait. -/
theorem moves_of_step (hresumable : ∀ c ∈ i.suspended, c.Resumable)
    (h : i.step errno = .ok (state, i', errno')) :
    Moves i.suspended i' state := by
  unfold step at h
  split at h
  · contradiction
  · rename_i top errno₁ htop
    split at h
    · obtain ⟨⟨state', i''⟩, hinvoke, heq⟩ := map_eq_ok h
      obtain ⟨hstate, hpair⟩ := Prod.mk.inj heq
      obtain ⟨hi', _⟩ := Prod.mk.inj hpair
      rw [← hstate, ← hi']
      exact @moves_invoke ⟨top, i.suspended⟩ _ _
        (Continuation.resumable_of_step htop) hinvoke
    · obtain ⟨hstate, hpair⟩ := Prod.mk.inj (Except.ok.inj h)
      obtain ⟨hi', _⟩ := Prod.mk.inj hpair
      rw [← hstate, ← hi']
      exact .keep rfl fun hexit => by contradiction
  · split at h
    · contradiction
    · split at h
      · rename_i hnil
        obtain ⟨hstate, hpair⟩ := Prod.mk.inj (Except.ok.inj h)
        obtain ⟨hi', _⟩ := Prod.mk.inj hpair
        rw [← hi']
        exact .keep hnil.symm fun _ => hnil
      · rename_i invoker suspended hsuspended
        obtain ⟨⟨state', i''⟩, hreturn, heq⟩ := map_eq_ok h
        obtain ⟨hstate, hpair⟩ := Prod.mk.inj heq
        obtain ⟨hi', _⟩ := Prod.mk.inj hpair
        rw [← hstate, ← hi', hsuspended]
        exact moves_returnTo (hresumable invoker (by simp [hsuspended]))
          hreturn
  · rename_i state' top errno₁ hnotBlocked hnotExited htop
    obtain ⟨hstate, hpair⟩ := Prod.mk.inj (Except.ok.inj h)
    obtain ⟨hi', _⟩ := Prod.mk.inj hpair
    rw [← hstate, ← hi']
    exact .keep rfl fun hexit => absurd hexit hnotExited

end Interpreter

namespace InterpreterContext

variable {context context' : InterpreterContext}

/-- Serving a blocked operation changes at most the continuation on top. -/
def Serves (context context' : InterpreterContext) : Prop :=
  context'.interpreter.suspended = context.interpreter.suspended ∧
    context'.exited = context.exited

theorem serves_handleRead {input : Octets} {consumed : Nat}
    {interpreter : Interpreter}
    (h : context.interpreter.handleRead input = .ok (consumed, interpreter)) :
    interpreter.suspended = context.interpreter.suspended := by
  obtain ⟨⟨consumed', top⟩, _, heq⟩ := map_eq_ok h
  obtain ⟨_, hi⟩ := Prod.mk.inj heq
  rw [← hi]

theorem serves_joinBuffers {joined : Octets} {didJoin : Bool}
    {queue : List Octets} {result : HandleBlockedResult}
    (h : context.joinBuffers joined didJoin queue = .ok (result, context')) :
    context.Serves context' := by
  induction queue generalizing context joined didJoin with
  | nil =>
      unfold joinBuffers at h
      simp only at h
      split at h
      · obtain ⟨_, rfl⟩ := Prod.mk.inj (Except.ok.inj h)
        exact ⟨rfl, rfl⟩
      · split at h
        · obtain ⟨_, rfl⟩ := Prod.mk.inj (Except.ok.inj h)
          exact ⟨rfl, rfl⟩
        · obtain ⟨_, rfl⟩ := Prod.mk.inj (Except.ok.inj h)
          exact ⟨rfl, rfl⟩
  | cons buffer queue ih =>
      unfold joinBuffers at h
      simp only at h
      split at h
      · contradiction
      · rename_i consumed interpreter hread
        have hsame := serves_handleRead hread
        split at h
        · obtain ⟨hsuspended, hexited⟩ := ih h
          exact ⟨hsuspended.trans hsame, hexited⟩
        · obtain ⟨_, rfl⟩ := Prod.mk.inj (Except.ok.inj h)
          exact ⟨hsame, rfl⟩

theorem serves_handleBlocked {result : HandleBlockedResult}
    (h : context.handleBlockedInterpreter = .ok (result, context')) :
    context.Serves context' := by
  unfold handleBlockedInterpreter at h
  split at h
  · unfold handleRead at h
    split at h
    · split at h
      · contradiction
      · rename_i consumed interpreter hread
        have hsame := serves_handleRead hread
        simp only at h
        split at h
        · obtain ⟨hsuspended, hexited⟩ := serves_joinBuffers h
          exact ⟨hsuspended.trans hsame, hexited⟩
        · obtain ⟨_, rfl⟩ := Prod.mk.inj (Except.ok.inj h)
          exact ⟨hsame, rfl⟩
    · split at h
      · obtain ⟨_, rfl⟩ := Prod.mk.inj (Except.ok.inj h)
        exact ⟨rfl, rfl⟩
      · obtain ⟨_, rfl⟩ := Prod.mk.inj (Except.ok.inj h)
        exact ⟨rfl, rfl⟩
  · have hwrite : context.handleWrite.2 = context' :=
      congrArg Prod.snd (Except.ok.inj h)
    rw [← hwrite]
    unfold handleWrite
    split
    · exact ⟨rfl, rfl⟩
    · exact ⟨rfl, rfl⟩
  · obtain ⟨_, rfl⟩ := Prod.mk.inj (Except.ok.inj h)
    exact ⟨rfl, rfl⟩
  · have hfinish : context.handleFinishCallback.2 = context' :=
      congrArg Prod.snd (Except.ok.inj h)
    rw [← hfinish]
    unfold handleFinishCallback
    split
    · exact ⟨rfl, rfl⟩
    · exact ⟨rfl, rfl⟩
  · obtain ⟨_, rfl⟩ := Prod.mk.inj (Except.ok.inj h)
    exact ⟨rfl, rfl⟩

end InterpreterContext

namespace RunnerState

variable {s t : RunnerState}

/-- The continuations that wait can all be resumed. -/
def Resumable (s : RunnerState) : Prop :=
  ∀ c ∈ s.context.interpreter.suspended, c.Resumable

/-- What a pass of a program that runs does to the continuations that wait. -/
inductive Moves (s t : RunnerState) : Prop where
  | keep (hsame : t.context.interpreter.suspended =
        s.context.interpreter.suspended)
      (hexit : t.context.exited = true →
        s.context.interpreter.suspended = [])
  | push {invoker : Continuation} (hresumable : invoker.Resumable)
      (hpush : t.context.interpreter.suspended =
        invoker :: s.context.interpreter.suspended)
      (hrunning : t.context.exited = false)
  | pop {invoker : Continuation} {rest : List Continuation} (value : Value)
      (pad : LexicalPad)
      (hpop : s.context.interpreter.suspended = invoker :: rest)
      (htop : t.context.interpreter = ⟨Continuation.setCallableReturn
        { invoker with pad := pad } value, rest⟩)
      (hrunning : t.context.exited = false)

theorem moves_of_pass (hrunning : s.context.exited = false)
    (hresumable : s.Resumable) (h : s.pass = .ok t) : s.Moves t := by
  obtain ⟨⟨progress, context, errno⟩, hpass, ht⟩ := map_eq_ok h
  rw [← ht]
  unfold InterpreterContext.pass at hpass
  rw [if_neg (by simp [hrunning])] at hpass
  split at hpass
  · contradiction
  · rename_i i' errno' hstep
    obtain ⟨⟨result, served⟩, hserve, heq⟩ := map_eq_ok hpass
    obtain ⟨_, hpair⟩ := Prod.mk.inj heq
    obtain ⟨hcontext, _⟩ := Prod.mk.inj hpair
    obtain ⟨hsuspended, hexited⟩ :=
      InterpreterContext.serves_handleBlocked hserve
    rw [← hcontext]
    have hmoves := Interpreter.moves_of_step hresumable hstep
    cases hmoves with
    | keep hsame _ =>
        refine .keep (hsuspended.trans hsame) fun hexit => ?_
        rw [hexited] at hexit
        rw [hrunning] at hexit
        contradiction
  · rename_i i' errno' hstep
    obtain ⟨_, hpair⟩ := Prod.mk.inj (Except.ok.inj hpass)
    obtain ⟨hcontext, _⟩ := Prod.mk.inj hpair
    rw [← hcontext]
    have hmoves := Interpreter.moves_of_step hresumable hstep
    cases hmoves with
    | keep hsame hexit => exact .keep hsame fun _ => hexit rfl
  · rename_i state i' errno' hnotBlocked hnotExited hstep
    obtain ⟨_, hpair⟩ := Prod.mk.inj (Except.ok.inj hpass)
    obtain ⟨hcontext, _⟩ := Prod.mk.inj hpair
    rw [← hcontext]
    have hmoves := Interpreter.moves_of_step hresumable hstep
    cases hmoves with
    | keep hsame _ =>
        refine .keep hsame fun hexit => ?_
        rw [show _ = false from hrunning] at hexit
        contradiction
    | push hinvoker hpush => exact .push hinvoker hpush hrunning
    | pop value pad hpop hi' => exact .pop value pad hpop hi' hrunning

theorem Moves.resumable (h : s.Moves t) (hresumable : s.Resumable) :
    t.Resumable := by
  cases h with
  | keep hsame _ =>
      intro c hc
      rw [hsame] at hc
      exact hresumable c hc
  | push hinvoker hpush _ =>
      intro c hc
      rw [hpush] at hc
      rcases List.mem_cons.mp hc with hfirst | hrest
      · rw [hfirst]
        exact hinvoker
      · exact hresumable c hrest
  | pop value pad hpop htop _ =>
      intro c hc
      rw [htop] at hc
      exact hresumable c (by
        rw [hpop]
        exact List.mem_cons_of_mem _ hc)

theorem resumable_event {e : RunnerEvent} (hresumable : s.Resumable)
    (h : event e s = .ok t) : t.Resumable := by
  cases e with
  | chunk data =>
      rw [← Except.ok.inj h]
      exact hresumable
  | endOfInput =>
      rw [← Except.ok.inj h]
      exact hresumable
  | callbackResponse value =>
      rw [← Except.ok.inj h]
      exact hresumable
  | pass =>
      cases hrunning : s.context.exited with
      | true =>
          have hsame := (pass_of_exited hrunning).symm.trans h
          rw [← Except.ok.inj hsame]
          exact hresumable
      | false => exact (moves_of_pass hrunning hresumable h).resumable hresumable

/-- In every run the continuations that wait can be resumed. -/
theorem resumable_run {optree : OpTreeNode} {arglist : Option Value}
    {errno : Errno} {events : List RunnerEvent}
    (h : run event events (start optree arglist errno) = .ok s) :
    s.Resumable := by
  have hstart : (start optree arglist errno).Resumable := by
    intro c hc
    cases arglist with
    | none => exact absurd hc List.not_mem_nil
    | some argv => exact absurd hc List.not_mem_nil
  exact run_invariant (fun _ _ _ _ hs hevent => resumable_event hs hevent)
    (fun _ _ => trivial) hstart h

end RunnerState

/-- What a run shows of an operation that invokes callables. -/
inductive Happening where
  | invoked (callable : Callable) (args : List Value)
  | returned (value : Value)
  | yielded (value : Value)

namespace RunnerState

/-- How many continuations wait for a callee. -/
def depth (s : RunnerState) : Nat :=
  s.context.interpreter.suspended.length

/-- The callable and the arguments that the interpreter reads of the operation
that wants to invoke in the next step. -/
def invocation (s : RunnerState) : List Happening :=
  match s.context.interpreter.top.step s.errno with
  | .ok (.blocked, top, _) =>
      match top.getCallable, top.setCallableInvoked.getArgumentList with
      | .ok (.callable callable), .ok args =>
          [.invoked callable (args.getD [])]
      | _, _ => []
  | _ => []

/-- What a pass shows of the operation whose continuation is at this depth: it
invokes when one more continuation waits, its callee returns when there are as
many again, and any other pass of its own yields what its result is. -/
def shows (depth : Nat) (s t : RunnerState) : List Happening :=
  if s.depth = depth then
    if t.depth = depth + 1 then s.invocation
    else
      match t.context.interpreter.getResult with
      | .value value => [.yielded value]
      | .blocked _ => []
  else if t.depth = depth then
    match t.context.interpreter.getResult with
    | .value value => [.returned value]
    | .blocked _ => []
  else []

/-- What a run shows of the operation at this depth, until it yields. -/
inductive Observes (depth : Nat) (s : RunnerState) :
    List Happening → RunnerState → Prop where
  | start : Observes depth s [] s
  | arrives {log : List Happening} {t u : RunnerState} {e : RunnerEvent}
      (hlog : Observes depth s log t) (harrives : e ≠ .pass)
      (hevent : event e t = .ok u) : Observes depth s log u
  | pass {log : List Happening} {t u : RunnerState}
      (hlog : Observes depth s log t)
      (hstays : ∀ value, .yielded value ∉ log) (hpass : t.pass = .ok u) :
      Observes depth s (log ++ t.shows depth u) u

theorem Alike.suspended_eq {s t : RunnerState} (h : Alike s t) :
    s.context.interpreter.suspended = t.context.interpreter.suspended := by
  rcases h with rfl | ⟨_, _, _, _, heq⟩
  · rfl
  · rw [heq]

section Operation

variable {operation : ControlFlowOperation} {children : List OpTreeNode}
  {args : List Value} {frames : List ExecutionStackFrame}
  {suspended : List Continuation}
  {ctx ctx' : ControlFlowOperationContext} {s t : RunnerState}

/-- The frame of the operation is on top, next to be evaluated. -/
structure Idle (operation : ControlFlowOperation) (children : List OpTreeNode)
    (args : List Value) (frames : List ExecutionStackFrame)
    (suspended : List Continuation) (ctx : ControlFlowOperationContext)
    (s : RunnerState) : Prop where
  running : s.context.exited = false
  stack : s.context.interpreter.top.stack =
    Site.controlFlowFrame operation children args ctx :: frames
  suspended_eq : s.context.interpreter.suspended = suspended
  resumable : s.Resumable

/-- The continuation of the operation waits for the callee that it invoked. -/
structure Busy (operation : ControlFlowOperation) (children : List OpTreeNode)
    (args : List Value) (frames : List ExecutionStackFrame)
    (suspended : List Continuation) (ctx : ControlFlowOperationContext)
    (s : RunnerState) : Prop where
  running : s.context.exited = false
  waits : ∃ above invoker, s.context.interpreter.suspended =
      above ++ invoker :: suspended ∧
    invoker.stack =
      Site.controlFlowFrame operation children args ctx :: frames
  resumable : s.Resumable

/-- The state as one of an evaluation. -/
theorem Idle.eq_state
    (h : Idle operation children args frames suspended ctx s) :
    ∃ (site : Site) (w : World) (result : OperationResult),
      site.suspended = suspended ∧
      s = site.state (Site.controlFlowFrame operation children args ctx ::
        frames) w result := by
  refine ⟨⟨s.context, s.context.interpreter.top.inheritsLexicalPad,
    s.context.interpreter.suspended, h.running⟩,
    ⟨s.context.interpreter.top.pad, s.errno, s.context.inputBuffer,
      s.context.outputBuffer⟩, s.context.interpreter.top.result,
    h.suspended_eq, ?_⟩
  rw [← h.stack]
  rfl

/-- What the interpreter reads of the operation once an evaluation blocked. -/
theorem invocation_eq {site : Site} {w : World} {result : OperationResult}
    (harity : operation.arity ≤ args.length)
    (happly : operation.apply ctx args =
      .ok (.blocked .waitingForCallableInvocation, ctx'))
    {callable : Callable} (hcallable : ctx'.callable = some (.callable callable))
    {arglist : Option (List Value)}
    (hargs : operation.getArgumentList (operation.setCallableInvoked ctx') =
      .ok arglist) :
    (site.state (Site.controlFlowFrame operation children args ctx :: frames) w
      result).invocation = [.invoked callable (arglist.getD [])] := by
  have hready := Site.controlFlowFrame_ready operation children args harity ctx
  have hprepare := site.prepare_top (w := w) result hready frames
  have hexecute : (Site.controlFlowFrame operation children args ctx).execute
      w.pad w.errno = .ok ⟨.blocked .waitingForCallableInvocation,
        .controlFlow ctx', w.pad, w.errno⟩ := by
    simp only [Site.controlFlowFrame, ExecutionStackFrame.execute,
      OpTreeNode.operation, happly, Except.map]
  have hstep : (site.top (Site.controlFlowFrame operation children args ctx ::
      frames) w result).step w.errno = .ok (.blocked, site.top
        (Site.controlFlowFrame operation children args ctx' :: frames) w
        (.blocked .waitingForCallableInvocation), w.errno) := by
    simp only [Continuation.step, hprepare]
    simp only [Site.top, Continuation.executeTop, hexecute]
    rfl
  have hgetCallable : operation.getCallable ctx' =
      .ok (.callable callable) := by
    simp only [ControlFlowOperation.getCallable, hcallable]
  simp only [invocation, Site.state, hstep]
  simp only [Site.top, Site.controlFlowFrame, Continuation.getCallable,
    hgetCallable, Continuation.setCallableInvoked,
    Continuation.modifyControlFlow, Continuation.getArgumentList, hargs]

/-- The pass that invokes. -/
theorem Idle.pass_invoke
    (h : Idle operation children args frames suspended ctx s)
    (harity : operation.arity ≤ args.length)
    (happly : operation.apply ctx args =
      .ok (.blocked .waitingForCallableInvocation, ctx'))
    {callable : Callable} (hcallable : ctx'.callable = some (.callable callable))
    {arglist : Option (List Value)}
    (hargs : operation.getArgumentList (operation.setCallableInvoked ctx') =
      .ok arglist)
    (hnames : arglist.isSome ∨ callable.argumentNames = [])
    {pushed : List ExecutionStackFrame}
    (hdescend : callable.tree.descend = .ok pushed) :
    ∃ t, s.pass = .ok t ∧
      Busy operation children args frames suspended
        (operation.setCallableInvoked ctx') t ∧
      s.shows suspended.length t = [.invoked callable (arglist.getD [])] := by
  have hresumable := h.resumable
  obtain ⟨site, w, result, hsuspended, hs⟩ := h.eq_state
  obtain ⟨t, hsteps, halike⟩ := site.pass_invoke (w := w) result operation
    children args harity happly hcallable hargs hnames hdescend frames
  rw [← hs] at hsteps
  have hpass := hsteps.pass
  have hwaits : t.context.interpreter.suspended =
      site.invoker (Site.controlFlowFrame operation children args
        (operation.setCallableInvoked ctx')) frames w.pad :: suspended := by
    rw [halike.suspended_eq, ← hsuspended]
    rfl
  have hrunning : t.context.exited = false := by
    rw [halike.exited_eq]
    exact site.running
  refine ⟨t, hpass, ⟨hrunning, ⟨[], _, hwaits, rfl⟩,
    resumable_event (e := .pass) hresumable hpass⟩, ?_⟩
  have hdepth : s.depth = suspended.length := by
    rw [hs, ← hsuspended]
    rfl
  have hdepth' : t.depth = suspended.length + 1 := by
    simp [depth, hwaits]
  rw [shows, if_pos hdepth, if_pos hdepth', hs]
  exact invocation_eq harity happly hcallable hargs

/-- A pass in which the step yields this result, one continuation lower at
most. -/
theorem shows_yielded {value : Value}
    (hdepth : s.depth = suspended.length)
    (hlower : t.depth ≤ suspended.length)
    (hresult : t.context.interpreter.getResult = .value value) :
    s.shows suspended.length t = [.yielded value] := by
  have hnot : ¬ t.depth = suspended.length + 1 := by omega
  rw [shows, if_pos hdepth, if_neg hnot]
  simp only [hresult]

/-- The pass in which the operation yields a value. -/
theorem Idle.pass_yield
    (h : Idle operation children args frames suspended ctx s)
    (harity : operation.arity ≤ args.length) {value : Value}
    (happly : operation.apply ctx args = .ok (.value value, ctx')) :
    ∃ t, s.pass = .ok t ∧
      s.shows suspended.length t = [.yielded value] := by
  have hresumable := h.resumable
  have hdepth : s.depth = suspended.length := by
    rw [depth, h.suspended_eq]
  obtain ⟨site, w, result, hsuspended, hs⟩ := h.eq_state
  have hready := Site.controlFlowFrame_ready operation children args harity ctx
  have hexecute : (Site.controlFlowFrame operation children args ctx).execute
      w.pad w.errno = .ok ⟨.value value, .controlFlow ctx', w.pad,
        w.errno⟩ := by
    simp only [Site.controlFlowFrame, ExecutionStackFrame.execute,
      OpTreeNode.operation, happly, Except.map]
  have hyields : (Site.controlFlowFrame operation children args ctx).Yields w
      value w := ⟨hready, ⟨_, hexecute⟩, rfl, rfl⟩
  cases frames with
  | cons parent frames =>
      have hpass := (site.pass_yields hyields result parent frames).pass
      rw [← hs] at hpass
      refine ⟨_, hpass, shows_yielded hdepth ?_ rfl⟩
      rw [← hsuspended]
      exact Nat.le_refl _
  | nil =>
      cases hwaits : site.suspended with
      | nil =>
          have hpass := (site.exit_yields hyields result hwaits).pass
          rw [← hs] at hpass
          exact ⟨_, hpass, shows_yielded hdepth (Nat.zero_le _) rfl⟩
      | cons invoker rest =>
          have hinvoker : invoker.Resumable := by
            refine hresumable invoker ?_
            rw [h.suspended_eq, ← hsuspended, hwaits]
            exact List.mem_cons_self
          have hprepare := site.prepare_top (w := w) result hready []
          have hstep : s.context.interpreter.step s.errno = .ok (.ready,
              ⟨Continuation.setCallableReturn { invoker with
                pad := LexicalPad.afterCall site.inherits invoker.pad w.pad
              } value, rest⟩, w.errno) := by
            simp only [Site.top] at hprepare
            rw [hs]
            simp only [Site.state, Site.top, Interpreter.step,
              Continuation.step, hprepare, Continuation.executeTop, hexecute,
              hwaits]
            rw [Interpreter.returnTo_of_resumable value rest hinvoker]
            rfl
          obtain ⟨t, hpass, ht⟩ := pass_of_step h.running hstep
            (fun hblocked => by contradiction)
          refine ⟨t, hpass, shows_yielded hdepth ?_ ?_⟩
          · rw [depth, ht, ← hsuspended, hwaits]
            exact Nat.le_succ _
          · rw [ht]
            exact Continuation.setCallableReturn_result _ value

/-- A pass that succeeds evaluates the operation, which yields or invokes. -/
theorem Idle.pass_cases
    (h : Idle operation children args frames suspended ctx s)
    (harity : operation.arity ≤ args.length) (hpass : s.pass = .ok t) :
    (∃ value ctx', operation.apply ctx args = .ok (.value value, ctx') ∧
      s.shows suspended.length t = [.yielded value]) ∨
    (∃ ctx' callable arglist,
      operation.apply ctx args =
        .ok (.blocked .waitingForCallableInvocation, ctx') ∧
      ctx'.callable = some (.callable callable) ∧
      operation.getArgumentList (operation.setCallableInvoked ctx') =
        .ok arglist ∧
      Busy operation children args frames suspended
        (operation.setCallableInvoked ctx') t ∧
      s.shows suspended.length t = [.invoked callable (arglist.getD [])]) ∨
    ∃ reason ctx', reason ≠ .waitingForCallableInvocation ∧
      operation.apply ctx args = .ok (.blocked reason, ctx') := by
  obtain ⟨site, w, result, hsuspended, hs⟩ := h.eq_state
  have hready := Site.controlFlowFrame_ready operation children args harity ctx
  have hprepare := site.prepare_top (w := w) result hready frames
  have hstep : s.context.interpreter.step s.errno =
      (site.state (Site.controlFlowFrame operation children args ctx ::
        frames) w result).context.interpreter.step w.errno := by
    rw [hs]
    rfl
  simp only [Site.top] at hprepare
  simp only [Site.state, Site.top, Interpreter.step, Continuation.step,
    hprepare, Continuation.executeTop] at hstep
  simp only [Site.controlFlowFrame, ExecutionStackFrame.execute,
    OpTreeNode.operation] at hstep
  cases happly : operation.apply ctx args with
  | error fault =>
      simp only [happly, Except.map] at hstep
      rw [pass_of_fault h.running hstep] at hpass
      contradiction
  | ok outcome =>
      obtain ⟨outcome, ctx'⟩ := outcome
      cases outcome with
      | value value =>
          obtain ⟨t', hpass', hshows⟩ := h.pass_yield harity happly
          rw [hpass] at hpass'
          rw [← Except.ok.inj hpass'] at hshows
          exact Or.inl ⟨value, ctx', rfl, hshows⟩
      | blocked reason =>
          right
          by_cases hreason : reason = .waitingForCallableInvocation
          · left
            subst hreason
            simp only [happly, Except.map] at hstep
            cases hinvoke : Interpreter.invoke ⟨⟨Site.controlFlowFrame operation
                children args ctx' :: frames, w.pad,
                .blocked .waitingForCallableInvocation, site.inherits⟩,
                site.suspended⟩ with
            | error fault =>
                simp only [Site.controlFlowFrame] at hinvoke
                simp only [hinvoke] at hstep
                rw [pass_of_fault h.running hstep] at hpass
                contradiction
            | ok r =>
                obtain ⟨callable, arglist, pushed, hcallable, hargs, hnames,
                  hdescend⟩ := invoke_eq_ok hinvoke
                obtain ⟨t', hpass', hbusy, hshows⟩ := h.pass_invoke harity
                  happly hcallable hargs hnames hdescend
                rw [hpass] at hpass'
                rw [← Except.ok.inj hpass'] at hbusy hshows
                exact ⟨ctx', callable, arglist, rfl, hcallable, hargs, hbusy,
                  hshows⟩
          · exact Or.inr ⟨reason, ctx', hreason, rfl⟩

/-- While the callee runs a pass shows nothing, until the callee returns. -/
theorem Busy.pass_cases
    (h : Busy operation children args frames suspended ctx s)
    (hpass : s.pass = .ok t) :
    (Busy operation children args frames suspended ctx t ∧
      s.shows suspended.length t = []) ∨
    ∃ value, Idle operation children args frames suspended
        (operation.setCallableReturn ctx value) t ∧
      s.shows suspended.length t = [.returned value] := by
  have hmoves := moves_of_pass h.running h.resumable hpass
  have hresumable := hmoves.resumable h.resumable
  obtain ⟨above, invoker, hwaits, hstack⟩ := h.waits
  have hdepth : ¬ s.depth = suspended.length := by
    rw [depth, hwaits, List.length_append, List.length_cons]
    omega
  cases hmoves with
  | keep hsame hexit =>
      have hwaits' := hsame.trans hwaits
      have hrunning : t.context.exited = false := by
        cases hexited : t.context.exited with
        | false => rfl
        | true =>
            have hnil := hexit hexited
            rw [hwaits] at hnil
            simp at hnil
      have hdepth' : ¬ t.depth = suspended.length := by
        rw [depth, hsame]
        exact hdepth
      refine Or.inl ⟨⟨hrunning, ⟨above, invoker, hwaits', hstack⟩,
        hresumable⟩, ?_⟩
      rw [shows, if_neg hdepth, if_neg hdepth']
  | @push callee hcallee hpush hrunning =>
      rw [hwaits, ← List.cons_append] at hpush
      have hdepth' : ¬ t.depth = suspended.length := by
        rw [depth, hpush]
        simp only [List.length_append, List.length_cons]
        omega
      refine Or.inl ⟨⟨hrunning, ⟨_, invoker, hpush, hstack⟩,
        hresumable⟩, ?_⟩
      rw [shows, if_neg hdepth, if_neg hdepth']
  | @pop first rest value pad hpop htop hrunning =>
      rw [hwaits] at hpop
      cases above with
      | nil =>
          obtain ⟨hinvoker, hrest⟩ := List.cons.inj hpop
          right
          have hdepth' : t.depth = suspended.length := by
            rw [depth, htop, hrest]
          have hresult : t.context.interpreter.getResult = .value value := by
            rw [htop]
            exact Continuation.setCallableReturn_result _ value
          have hreturned : t.context.interpreter.top.stack =
              Site.controlFlowFrame operation children args
                (operation.setCallableReturn ctx value) :: frames := by
            rw [htop, ← hinvoker]
            simp only [Continuation.setCallableReturn,
              Continuation.modifyControlFlow, hstack, Site.controlFlowFrame]
          refine ⟨value, ⟨hrunning, hreturned, ?_, hresumable⟩, ?_⟩
          · rw [htop, hrest]
          · rw [shows, if_neg hdepth, if_pos hdepth']
            simp only [hresult]
      | cons next above =>
          obtain ⟨_, hrest⟩ := List.cons.inj hpop
          have hwaits' : t.context.interpreter.suspended =
              above ++ invoker :: suspended := by
            rw [htop, ← hrest]
            rfl
          have hdepth' : ¬ t.depth = suspended.length := by
            rw [depth, hwaits', List.length_append, List.length_cons]
            omega
          refine Or.inl ⟨⟨hrunning, ⟨above, invoker, hwaits', hstack⟩,
            hresumable⟩, ?_⟩
          rw [shows, if_neg hdepth, if_neg hdepth']

/-- What arrives from outside leaves the operation as it is. -/
theorem Idle.arrives {e : RunnerEvent}
    (h : Idle operation children args frames suspended ctx s)
    (harrives : e ≠ .pass) (hevent : event e s = .ok t) :
    Idle operation children args frames suspended ctx t := by
  have hresumable := resumable_event h.resumable hevent
  cases e with
  | chunk data | endOfInput | callbackResponse value =>
      rw [← Except.ok.inj hevent] at hresumable ⊢
      exact ⟨h.running, h.stack, h.suspended_eq, hresumable⟩
  | pass => exact absurd rfl harrives

theorem Busy.arrives {e : RunnerEvent}
    (h : Busy operation children args frames suspended ctx s)
    (harrives : e ≠ .pass) (hevent : event e s = .ok t) :
    Busy operation children args frames suspended ctx t := by
  have hresumable := resumable_event h.resumable hevent
  cases e with
  | chunk data | endOfInput | callbackResponse value =>
      rw [← Except.ok.inj hevent] at hresumable ⊢
      exact ⟨h.running, h.waits, hresumable⟩
  | pass => exact absurd rfl harrives

/-- What holds of the log while the operation is next to be evaluated, while it
waits for its callee and once it has yielded. -/
structure Script (operation : ControlFlowOperation) (args : List Value)
    (idle busy : List Happening → ControlFlowOperationContext → Prop)
    (left : List Happening → Prop) : Prop where
  evaluates {log : List Happening} {ctx ctx' : ControlFlowOperationContext}
    {reason : ReasonForBlockedOperation} (hidle : idle log ctx)
    (happly : operation.apply ctx args = .ok (.blocked reason, ctx')) :
    reason = .waitingForCallableInvocation
  invokes {log : List Happening} {ctx ctx' : ControlFlowOperationContext}
    {callable : Callable} {arglist : Option (List Value)}
    (hidle : idle log ctx)
    (happly : operation.apply ctx args =
      .ok (.blocked .waitingForCallableInvocation, ctx'))
    (hcallable : ctx'.callable = some (.callable callable))
    (hargs : operation.getArgumentList (operation.setCallableInvoked ctx') =
      .ok arglist) :
    busy (log ++ [.invoked callable (arglist.getD [])])
      (operation.setCallableInvoked ctx')
  returns {log : List Happening} {ctx : ControlFlowOperationContext}
    (hbusy : busy log ctx) (value : Value) :
    idle (log ++ [.returned value]) (operation.setCallableReturn ctx value)
  yields {log : List Happening} {ctx ctx' : ControlFlowOperationContext}
    {value : Value} (hidle : idle log ctx)
    (happly : operation.apply ctx args = .ok (.value value, ctx')) :
    left (log ++ [.yielded value])

/-- Every run follows the script of the operation. -/
theorem Observes.follows {idle busy : List Happening →
      ControlFlowOperationContext → Prop} {left : List Happening → Prop}
    (hscript : Script operation args idle busy left)
    (harity : operation.arity ≤ args.length)
    (hstart : Idle operation children args frames suspended ctx s)
    (hidle : idle [] ctx) {log : List Happening}
    (h : Observes suspended.length s log t) :
    (∃ ctx', Idle operation children args frames suspended ctx' t ∧
      idle log ctx') ∨
    (∃ ctx', Busy operation children args frames suspended ctx' t ∧
      busy log ctx') ∨
    left log ∧ ∃ value, .yielded value ∈ log := by
  induction h with
  | start => exact Or.inl ⟨ctx, hstart, hidle⟩
  | arrives _ harrives hevent ih =>
      rcases ih with ⟨ctx', hstate, hlog⟩ | ⟨ctx', hstate, hlog⟩ | hleft
      · exact Or.inl ⟨ctx', hstate.arrives harrives hevent, hlog⟩
      · exact Or.inr (Or.inl ⟨ctx', hstate.arrives harrives hevent, hlog⟩)
      · exact Or.inr (Or.inr hleft)
  | pass _ hstays hpass ih =>
      rcases ih with ⟨ctx', hstate, hlog⟩ | ⟨ctx', hstate, hlog⟩ |
        ⟨_, value, hyielded⟩
      · rcases hstate.pass_cases harity hpass with
          ⟨value, after, happly, hshows⟩ |
          ⟨after, callable, arglist, happly, hcallable, hargs, hbusy,
            hshows⟩ |
          ⟨reason, after, hreason, happly⟩
        · rw [hshows]
          exact Or.inr (Or.inr ⟨hscript.yields hlog happly, value,
            by simp⟩)
        · rw [hshows]
          exact Or.inr (Or.inl ⟨_, hbusy,
            hscript.invokes hlog happly hcallable hargs⟩)
        · exact absurd (hscript.evaluates hlog happly) hreason
      · rcases hstate.pass_cases hpass with ⟨hbusy, hshows⟩ |
          ⟨value, hreturned, hshows⟩
        · rw [hshows, List.append_nil]
          exact Or.inr (Or.inl ⟨ctx', hbusy, hlog⟩)
        · rw [hshows]
          exact Or.inl ⟨_, hreturned, hscript.returns hlog value⟩
      · exact absurd hyielded (hstays value)

end Operation

end RunnerState

end NetworkProtocolDsl
