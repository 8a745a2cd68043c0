/-
The loops over lists.

One operation calls its callable with each element of a list, the other calls
it until it interrupts.  Over every run the invocations come one after the
other, each after the one before it returned, and the operation ends with the
values that were returned, in their order.
-/
import NetworkProtocolDsl.InvocationTrace

namespace NetworkProtocolDsl

open Run RunnerState

/-- Invocations that have returned, with their arguments and values. -/
def rounds (callable : Callable) (calls : List (List Value × Value)) :
    List Happening :=
  calls.flatMap fun call => [.invoked callable call.1, .returned call.2]

theorem rounds_concat (callable : Callable) (calls : List (List Value × Value))
    (args : List Value) (value : Value) :
    rounds callable (calls ++ [(args, value)]) =
      rounds callable calls ++ [.invoked callable args] ++
        [.returned value] := by
  simp [rounds]

/-- The frame of the operation is on top of a program that runs, with its
arguments and not yet evaluated. -/
def RunnerState.Starts (operation : ControlFlowOperation) (args : List Value)
    (s : RunnerState) : Prop :=
  s.context.exited = false ∧ ∃ children frames,
    s.context.interpreter.top.stack =
      Site.controlFlowFrame operation children args {} :: frames

namespace FunctionCallForEach

/-- What an element of the list is handed over as: as the single argument, or
as the list of the arguments. -/
def argumentsOf (elementIsSingleArgument : Bool) (element : Value) :
    Option (List Value) :=
  if elementIsSingleArgument then some [element]
  else
    match element with
    | .dynamicList values => some values
    | _ => none

variable {flag : Bool} {callable : Callable}
  {elements before rest results : List Value} {arglist : Option (List Value)}

/-- The arguments of the next invocation are those of the next element. -/
theorem getArgumentList_eq_ok {ctx : ControlFlowOperationContext}
    (hlist : ctx.arglist = some (before ++ rest))
    (hlength : ctx.accumulator.length = before.length)
    (h : getArgumentList flag ctx = .ok arglist) :
    ∃ element rest' args, rest = element :: rest' ∧
      argumentsOf flag element = some args ∧ arglist = some args := by
  cases rest with
  | nil =>
      simp [getArgumentList, hlist, hlength] at h
  | cons element rest' =>
      simp only [getArgumentList, hlist, hlength, List.getElem?_append_right
        (Nat.le_refl _), Nat.sub_self, List.getElem?_cons_zero] at h
      cases flag with
      | true =>
          exact ⟨element, rest', [element], rfl, rfl, (Except.ok.inj h).symm⟩
      | false =>
          cases element with
          | dynamicList values =>
              exact ⟨_, rest', values, rfl, rfl, (Except.ok.inj h).symm⟩
          | bool _ | int32 _ | octets _ | dictionary _ | callable _
          | runtimeError _ | controlFlowInstruction _ => contradiction

theorem getArgumentList_of_argumentsOf {ctx : ControlFlowOperationContext}
    {element : Value} {args : List Value}
    (hlist : ctx.arglist = some (before ++ element :: rest))
    (hlength : ctx.accumulator.length = before.length)
    (h : argumentsOf flag element = some args) :
    getArgumentList flag ctx = .ok (some args) := by
  simp only [getArgumentList, hlist, hlength, List.getElem?_append_right
    (Nat.le_refl _), Nat.sub_self, List.getElem?_cons_zero]
  cases flag with
  | true => rw [← Option.some.inj h]; rfl
  | false =>
      cases element with
      | dynamicList values => rw [← Option.some.inj h]; rfl
      | bool _ | int32 _ | octets _ | dictionary _ | callable _
      | runtimeError _ | controlFlowInstruction _ => contradiction

/-- The elements in front of the rest have been handed over, and these were the
calls. -/
structure Called (flag : Bool) (callable : Callable) (elements : List Value)
    (before rest : List Value) (calls : List (List Value × Value))
    (log : List Happening) : Prop where
  split : elements = before ++ rest
  arguments : before.map (argumentsOf flag) = calls.map fun call => some call.1
  log_eq : log = rounds callable calls

/-- The context of the operation: what it was started with, the results that it
has collected and the value that its callee returned. -/
def context (callable : Callable) (elements results : List Value)
    (value : Option Value) : ControlFlowOperationContext :=
  { callable := some (.callable callable), value := value
    arglist := some elements, accumulator := results
    callableInvoked := true }

/-- The operation has not been evaluated yet, or its callee has returned. -/
def IdleLog (flag : Bool) (callable : Callable) (elements : List Value)
    (log : List Happening) (ctx : ControlFlowOperationContext) : Prop :=
  ∃ before rest calls, Called flag callable elements before rest calls log ∧
    (calls = [] ∧ ctx = {} ∨
      ∃ earlier args value, calls = earlier ++ [(args, value)] ∧
        ctx = context callable elements (earlier.map Prod.snd) (some value))

/-- The callee runs with the arguments of the next element. -/
def BusyLog (flag : Bool) (callable : Callable) (elements : List Value)
    (log : List Happening) (ctx : ControlFlowOperationContext) : Prop :=
  ∃ before element rest calls args soFar,
    Called flag callable elements before (element :: rest) calls soFar ∧
    argumentsOf flag element = some args ∧
    log = soFar ++ [.invoked callable args] ∧
    ctx = context callable elements (calls.map Prod.snd) none

/-- The operation has yielded the results of all the calls. -/
def LeftLog (flag : Bool) (callable : Callable) (elements : List Value)
    (log : List Happening) : Prop :=
  ∃ calls soFar, Called flag callable elements elements [] calls soFar ∧
    log = soFar ++ [.yielded (.dynamicList (calls.map Prod.snd))]

variable {calls : List (List Value × Value)} {log : List Happening}
  {ctx ctx' : ControlFlowOperationContext}

theorem Called.length_eq (h : Called flag callable elements before rest calls
    log) : (calls.map Prod.snd).length = before.length := by
  have hlength := congrArg List.length h.arguments
  simpa using hlength.symm

theorem apply_more {value : Value}
    (hmore : (results ++ [value]).length < elements.length)
    (first second : Value) :
    apply (context callable elements results (some value)) first second =
      .ok (.blocked .waitingForCallableInvocation,
        { callable := some (.callable callable)
          arglist := some elements
          accumulator := results ++ [value] }) :=
  if_pos hmore

theorem apply_last {value : Value}
    (hlast : ¬ (results ++ [value]).length < elements.length)
    (first second : Value) :
    apply (context callable elements results (some value)) first second =
      .ok (.value (.dynamicList (results ++ [value])),
        context callable elements (results ++ [value]) (some value)) :=
  if_neg hlast

/-- With elements left an evaluation wants to invoke; with none left the
operation yields, but not at its start. -/
theorem apply_of_idle
    (hcalled : Called flag callable elements before rest calls log)
    (hctx : calls = [] ∧ ctx = {} ∨
      ∃ earlier args value, calls = earlier ++ [(args, value)] ∧
        ctx = context callable elements (earlier.map Prod.snd) (some value)) :
    (∃ ctx', apply ctx (.callable callable) (.dynamicList elements) =
        .ok (.blocked .waitingForCallableInvocation, ctx') ∧
      (ControlFlowOperation.functionCallForEach flag).setCallableInvoked ctx' =
        context callable elements (calls.map Prod.snd) none ∧
      (rest = [] → elements = [])) ∨
    ∃ ctx', apply ctx (.callable callable) (.dynamicList elements) =
        .ok (.value (.dynamicList (calls.map Prod.snd)), ctx') ∧ rest = [] := by
  have hlength := hcalled.length_eq
  rcases hctx with ⟨hnil, hctx⟩ | ⟨earlier, args, value, hcalls, hctx⟩
  · left
    rw [hctx, hnil]
    refine ⟨_, rfl, rfl, fun hrest => ?_⟩
    have hbefore : before = [] := by
      rw [hnil] at hlength
      exact List.length_eq_zero_iff.mp hlength.symm
    rw [hcalled.split, hbefore, hrest]
    rfl
  · have hresults : calls.map Prod.snd = earlier.map Prod.snd ++ [value] := by
      rw [hcalls]
      simp
    rw [hresults] at hlength ⊢
    have hsplit := congrArg List.length hcalled.split
    rw [List.length_append] at hsplit
    rw [hctx]
    by_cases hmore : (earlier.map Prod.snd ++ [value]).length <
        elements.length
    · left
      refine ⟨_, apply_more hmore _ _, rfl, fun hrest => ?_⟩
      rw [hrest] at hsplit
      simp only [List.length_nil] at hsplit
      omega
    · right
      refine ⟨_, apply_last hmore _ _, List.length_eq_zero_iff.mp ?_⟩
      omega

/-- The callee that returns completes a call. -/
theorem Called.concat {element : Value} {args : List Value}
    (h : Called flag callable elements before (element :: rest) calls log)
    (hargs : argumentsOf flag element = some args) (value : Value) :
    Called flag callable elements (before ++ [element]) rest
      (calls ++ [(args, value)])
      (log ++ [.invoked callable args] ++ [.returned value]) where
  split := by
    rw [h.split, List.append_cons]
  arguments := by
    rw [List.map_append, List.map_append, h.arguments]
    simp [hargs]
  log_eq := by
    rw [rounds_concat, h.log_eq]

theorem script (flag : Bool) (callable : Callable) (elements : List Value) :
    Script (.functionCallForEach flag)
      [.callable callable, .dynamicList elements]
      (IdleLog flag callable elements) (BusyLog flag callable elements)
      (LeftLog flag callable elements) where
  evaluates hidle happly := by
    obtain ⟨before, rest, calls, hcalled, hctx⟩ := hidle
    rcases apply_of_idle hcalled hctx with ⟨ctx', happly', _⟩ |
      ⟨ctx', happly', _⟩
    · have heq := Except.ok.inj (happly.symm.trans happly')
      exact OperationResult.blocked.inj (Prod.mk.inj heq).1
    · have heq := Except.ok.inj (happly.symm.trans happly')
      exact absurd (Prod.mk.inj heq).1 (by simp)
  invokes hidle happly hcallable hargs := by
    obtain ⟨before, rest, calls, hcalled, hctx⟩ := hidle
    rcases apply_of_idle hcalled hctx with ⟨ctx', happly', hinvoked, _⟩ |
      ⟨ctx', happly', _⟩
    · have heq := Except.ok.inj (happly.symm.trans happly')
      have hsame := (Prod.mk.inj heq).2
      rw [hsame] at hcallable hargs ⊢
      have hheld : ctx'.callable = some (.callable callable) :=
        congrArg ControlFlowOperationContext.callable hinvoked
      have hcallable' := hcallable.symm.trans hheld
      have hsameCallable := Value.callable.inj (Option.some.inj hcallable')
      rw [hinvoked] at hargs ⊢
      have hlist : (context callable elements (calls.map Prod.snd)
          none).arglist = some (before ++ rest) :=
        congrArg some hcalled.split
      obtain ⟨element, rest', args, hrest, helement, harglist⟩ :=
        getArgumentList_eq_ok hlist hcalled.length_eq hargs
      rw [hrest] at hcalled
      rw [hsameCallable, harglist]
      exact ⟨before, element, rest', calls, args, _, hcalled, helement, rfl,
        rfl⟩
    · have heq := Except.ok.inj (happly.symm.trans happly')
      exact absurd (Prod.mk.inj heq).1 (by simp)
  returns hbusy value := by
    obtain ⟨before, element, rest, calls, args, soFar, hcalled, hargs, hlog,
      hctx⟩ := hbusy
    rw [hlog, hctx]
    exact ⟨before ++ [element], rest, calls ++ [(args, value)],
      hcalled.concat hargs value, Or.inr ⟨calls, args, value, rfl, rfl⟩⟩
  yields hidle happly := by
    obtain ⟨before, rest, calls, hcalled, hctx⟩ := hidle
    rcases apply_of_idle hcalled hctx with ⟨ctx', happly', _⟩ |
      ⟨ctx', happly', hrest⟩
    · have heq := Except.ok.inj (happly.symm.trans happly')
      exact absurd (Prod.mk.inj heq).1 (by simp)
    · have heq := Except.ok.inj (happly.symm.trans happly')
      have hvalue := OperationResult.value.inj (Prod.mk.inj heq).1
      have hbefore : elements = before := by
        rw [hcalled.split, hrest, List.append_nil]
      rw [hrest, ← hbefore] at hcalled
      rw [hvalue]
      exact ⟨calls, _, hcalled, rfl⟩

/-- At every point of every run the operation has called the callable with some
of the elements, one after the other.  Either the callable runs on the next
element; or none is left and the operation has yielded the list of the results;
or the operation is up, and its evaluation succeeds: it yields that list if no
element is left, and else invokes the callable with the next element, where
that can be handed over and the callable can be started. -/
def MapsOver (flag : Bool) (callable : Callable) (elements : List Value)
    (s : RunnerState) : Prop :=
  ∀ log t, Observes s.depth s log t → ∃ before rest calls,
    elements = before ++ rest ∧
    before.map (argumentsOf flag) = calls.map (fun call => some call.1) ∧
    ((log = rounds callable calls ∧
      (rest = [] → ∃ u, t.pass = .ok u ∧ t.shows s.depth u =
        [.yielded (.dynamicList (calls.map Prod.snd))]) ∧
      ∀ element rest' args, rest = element :: rest' →
        argumentsOf flag element = some args →
        (∃ pushed, callable.tree.descend = .ok pushed) →
        ∃ u, t.pass = .ok u ∧
          t.shows s.depth u = [.invoked callable args]) ∨
    (∃ element rest' args, rest = element :: rest' ∧
      argumentsOf flag element = some args ∧
      log = rounds callable calls ++ [.invoked callable args]) ∨
    (rest = [] ∧ log = rounds callable calls ++
      [.yielded (.dynamicList (calls.map Prod.snd))]))

variable {children : List OpTreeNode} {frames : List ExecutionStackFrame}
  {suspended : List Continuation} {s t : RunnerState}

/-- The evaluation that is up invokes the callable with the next element. -/
theorem pass_next {element : Value} {args : List Value}
    (hidle : Idle (.functionCallForEach flag) children
      [.callable callable, .dynamicList elements] frames suspended ctx t)
    (hcalled : Called flag callable elements before (element :: rest) calls log)
    (hctx : calls = [] ∧ ctx = {} ∨
      ∃ earlier args value, calls = earlier ++ [(args, value)] ∧
        ctx = context callable elements (earlier.map Prod.snd) (some value))
    (hargs : argumentsOf flag element = some args)
    (hdescend : ∃ pushed, callable.tree.descend = .ok pushed) :
    ∃ u, t.pass = .ok u ∧
      t.shows suspended.length u = [.invoked callable args] := by
  obtain ⟨pushed, hpushed⟩ := hdescend
  rcases apply_of_idle hcalled hctx with ⟨ctx', happly, hinvoked, _⟩ |
    ⟨ctx', _, hrest⟩
  · have hcallable : ctx'.callable = some (.callable callable) :=
      congrArg ControlFlowOperationContext.callable hinvoked
    have hlist : (context callable elements (calls.map Prod.snd)
        none).arglist = some (before ++ element :: rest) :=
      congrArg some hcalled.split
    have harglist : (ControlFlowOperation.functionCallForEach
        flag).getArgumentList ((ControlFlowOperation.functionCallForEach
          flag).setCallableInvoked ctx') = .ok (some args) := by
      rw [hinvoked]
      exact getArgumentList_of_argumentsOf hlist hcalled.length_eq hargs
    obtain ⟨u, hpass, _, hshows⟩ := hidle.pass_invoke (Nat.le_refl 2) happly
      hcallable harglist (Or.inl rfl) hpushed
    exact ⟨u, hpass, hshows⟩
  · contradiction

/-- `FunctionCallForEach` maps over the list, over every run and whatever its
callable does, exactly if the list is not empty: for the empty one it asks for
the argument list of an element that is not there. -/
theorem mapsOver_iff {optree : OpTreeNode} {arglist : Option Value}
    {errno : Errno} {events : List RunnerEvent}
    (hrun : run event events (RunnerState.start optree arglist errno) = .ok s)
    (hstarts : s.Starts (.functionCallForEach flag)
      [.callable callable, .dynamicList elements]) :
    MapsOver flag callable elements s ↔ elements ≠ [] := by
  obtain ⟨hrunning, children, frames, hstack⟩ := hstarts
  have hidle : Idle (.functionCallForEach flag) children
      [.callable callable, .dynamicList elements] frames
      s.context.interpreter.suspended {} s :=
    ⟨hrunning, hstack, rfl, resumable_run hrun⟩
  have hcalled : Called flag callable elements [] elements [] [] :=
    ⟨rfl, rfl, rfl⟩
  constructor
  · rintro hmaps rfl
    obtain ⟨before, rest, calls, hsplit, harguments, hcases⟩ :=
      hmaps [] s .start
    obtain ⟨hbefore, hrest⟩ := List.append_eq_nil_iff.mp hsplit.symm
    rcases hcases with ⟨_, hyields, _⟩ | ⟨_, _, _, hmore, _⟩ | ⟨_, hlog⟩
    · obtain ⟨u, hpass, _⟩ := hyields hrest
      rcases hidle.pass_cases (Nat.le_refl 2) hpass with
        ⟨value, ctx', happly, _⟩ |
        ⟨ctx', callable', arglist', happly, _, hargs, _⟩ |
        ⟨reason, ctx', hreason, happly⟩
      · have heq := Except.ok.inj happly
        exact absurd (Prod.mk.inj heq).1 (by simp)
      · have hctx' := (Prod.mk.inj (Except.ok.inj happly)).2
        rw [← hctx'] at hargs
        contradiction
      · have heq := (Prod.mk.inj (Except.ok.inj happly)).1
        exact hreason (OperationResult.blocked.inj heq).symm
    · rw [hrest] at hmore
      contradiction
    · exact absurd hlog.symm (by simp)
  · intro hne log t hobserves
    rcases hobserves.follows (script flag callable elements) (Nat.le_refl 2)
      hidle ⟨[], elements, [], hcalled, Or.inl ⟨rfl, rfl⟩⟩ with
      ⟨ctx', hup, before, rest, calls, hlog, hctx⟩ |
      ⟨ctx', _, before, element, rest, calls, args, soFar, hsoFar, hargs,
        hlog, _⟩ |
      ⟨⟨calls, soFar, hsoFar, hlog⟩, _⟩
    · refine ⟨before, rest, calls, hlog.split, hlog.arguments,
        Or.inl ⟨hlog.log_eq, fun hrest => ?_,
          fun element rest' args hrest hargs hdescend => ?_⟩⟩
      · rcases apply_of_idle hlog hctx with ⟨_, _, _, hempty⟩ |
          ⟨ctx'', happly, _⟩
        · exact absurd (hempty hrest) hne
        · exact hup.pass_yield (Nat.le_refl 2) happly
      · rw [hrest] at hlog
        exact pass_next hup hlog hctx hargs hdescend
    · refine ⟨before, element :: rest, calls, hsoFar.split, hsoFar.arguments,
        Or.inr (Or.inl ⟨element, rest, args, rfl, hargs, ?_⟩)⟩
      rw [hlog, hsoFar.log_eq]
    · refine ⟨elements, [], calls, hsoFar.split, hsoFar.arguments,
        Or.inr (Or.inr ⟨rfl, ?_⟩)⟩
      rw [hlog, hsoFar.log_eq]

/-- A callable that returns its argument. -/
def echo : Callable :=
  ⟨.mk (.lexicalPad (.lexicalPadGet "x")) [], ["x"], true⟩

/-- A program that calls it with each of these numbers. -/
def echoEach (numbers : List Int32) : OpTreeNode :=
  .mk (.controlFlow (.functionCallForEach true))
    [.mk (.interpreted (.staticCallable echo.tree ["x"] true)) [],
      .mk (.dynamicInput .dynamicList) (numbers.map fun n =>
        .mk (.interpreted (.int32Literal n)) [])]

/-- Four passes reach the first evaluation, five more call with both numbers
and return what came back. -/
theorem mapsOver_echo : ∃ s t,
    run event (List.replicate 4 .pass)
      (RunnerState.start (echoEach [7, 8]) none 0) = .ok s ∧
    MapsOver true echo [.int32 7, .int32 8] s ∧
    run event (List.replicate 5 .pass) s = .ok t ∧
    t.context.interpreterResult = some (.dynamicList [.int32 7, .int32 8]) := by
  have hrun : run event (List.replicate 4 .pass)
      (RunnerState.start (echoEach [7, 8]) none 0) = .ok _ := rfl
  exact ⟨_, _, hrun, (mapsOver_iff hrun ⟨rfl, _, _, rfl⟩).mpr
    (List.cons_ne_nil _ _), rfl, rfl⟩

/-- Over the empty list the element at position 0 is asked for. -/
theorem empty_list_faults : ∃ s,
    run event [.pass, .pass] (RunnerState.start (echoEach []) none 0) =
      .ok s ∧
    s.Starts (.functionCallForEach true) [.callable echo, .dynamicList []] ∧
    s.pass = .error .outOfRange ∧
    ¬ MapsOver true echo [] s := by
  refine ⟨_, rfl, ⟨rfl, _, _, rfl⟩, rfl, fun hmaps => ?_⟩
  obtain ⟨before, rest, calls, hsplit, _, hcases⟩ := hmaps [] _ .start
  have hrest : rest = [] := (List.append_eq_nil_iff.mp hsplit.symm).2
  rcases hcases with ⟨_, hyields, _⟩ | ⟨_, _, _, hmore, _⟩ | ⟨_, hlog⟩
  · obtain ⟨u, hpass, _⟩ := hyields hrest
    cases hpass
  · rw [hrest] at hmore
    contradiction
  · exact absurd hlog.symm (by simp)

end FunctionCallForEach

namespace GenerateList

/-- The invocations that returned these values; none of them has arguments. -/
def generated (callable : Callable) (values : List Value) : List Happening :=
  rounds callable (values.map fun value => ([], value))

theorem generated_concat (callable : Callable) (values : List Value)
    (value : Value) :
    generated callable (values ++ [value]) =
      generated callable values ++ [.invoked callable []] ++
        [.returned value] := by
  rw [generated, List.map_append]
  exact rounds_concat callable _ [] value

/-- What ends the list, after these values, and what the operation yields. -/
inductive Ends (values : List Value) : Value → Value → Prop where
  | interrupt : Ends values (.controlFlowInstruction .interruptGenerator)
      (.dynamicList values)
  | error (e : RuntimeError) : Ends values (.runtimeError e) (.runtimeError e)

variable {callable : Callable} {values : List Value} {value result : Value}
  {log : List Happening} {ctx : ControlFlowOperationContext}

theorem exists_ends (values : List Value) (h : value.stops = true) :
    ∃ result, Ends values value result := by
  cases value with
  | runtimeError e => exact ⟨_, .error e⟩
  | controlFlowInstruction instruction =>
      cases instruction
      exact ⟨_, .interrupt⟩
  | bool _ | int32 _ | octets _ | dynamicList _ | dictionary _ | callable _ =>
      contradiction

/-- The context of the operation: the values that it has collected and the one
that its callee returned. -/
def context (callable : Callable) (values : List Value)
    (value : Option Value) : ControlFlowOperationContext :=
  { callable := some (.callable callable), value := value
    accumulator := values, callableInvoked := true }

theorem apply_ends (h : Ends values value result) (first : Value) :
    apply (context callable values (some value)) first =
      .ok (.value result, context callable values (some value)) := by
  cases h <;> rfl

theorem apply_again (h : value.stops = false) (first : Value) :
    apply (context callable values (some value)) first =
      .ok (.blocked .waitingForCallableInvocation,
        { callable := some (.callable callable)
          accumulator := values ++ [value] }) := by
  cases value with
  | runtimeError _ | controlFlowInstruction _ => contradiction
  | bool _ | int32 _ | octets _ | dynamicList _ | dictionary _ | callable _ =>
      rfl

/-- No value of the list ends it. -/
def Ordinary (values : List Value) : Prop :=
  ∀ value ∈ values, value.stops = false

theorem Ordinary.concat (h : Ordinary values) (hvalue : value.stops = false) :
    Ordinary (values ++ [value]) := by
  intro other hother
  rcases List.mem_append.mp hother with hbefore | hlast
  · exact h other hbefore
  · rw [List.mem_singleton.mp hlast]
    exact hvalue

/-- The operation has not been evaluated yet, or its callee has returned. -/
def IdleLog (callable : Callable) (log : List Happening)
    (ctx : ControlFlowOperationContext) : Prop :=
  log = [] ∧ ctx = {} ∨ ∃ values last, Ordinary values ∧
    log = generated callable (values ++ [last]) ∧
    ctx = context callable values (some last)

/-- The callee runs once more. -/
def BusyLog (callable : Callable) (log : List Happening)
    (ctx : ControlFlowOperationContext) : Prop :=
  ∃ values, Ordinary values ∧
    log = generated callable values ++ [.invoked callable []] ∧
    ctx = context callable values none

/-- The operation has ended its list. -/
def LeftLog (callable : Callable) (log : List Happening) : Prop :=
  ∃ values stop result, Ordinary values ∧ Ends values stop result ∧
    log = generated callable (values ++ [stop]) ++ [.yielded result]

/-- An evaluation invokes the callable with nothing, or ends the list. -/
theorem apply_of_idle (h : IdleLog callable log ctx) :
    (∃ values ctx', Ordinary values ∧ log = generated callable values ∧
      apply ctx (.callable callable) =
        .ok (.blocked .waitingForCallableInvocation, ctx') ∧
      ctx'.callable = some (.callable callable) ∧
      ControlFlowOperation.generateList.setCallableInvoked ctx' =
        context callable values none) ∨
    ∃ values stop result ctx', Ordinary values ∧ Ends values stop result ∧
      log = generated callable (values ++ [stop]) ∧
      apply ctx (.callable callable) = .ok (.value result, ctx') := by
  rcases h with ⟨hlog, hctx⟩ | ⟨values, last, hordinary, hlog, hctx⟩
  · left
    rw [hlog, hctx]
    exact ⟨[], _, fun _ hmem => absurd hmem List.not_mem_nil, rfl, rfl, rfl,
      rfl⟩
  · rw [hlog, hctx]
    cases hstops : last.stops with
    | false =>
        exact Or.inl ⟨values ++ [last], _, hordinary.concat hstops, rfl,
          apply_again hstops _, rfl, rfl⟩
    | true =>
        obtain ⟨result, hends⟩ := exists_ends values hstops
        exact Or.inr ⟨values, last, result, _, hordinary, hends, rfl,
          apply_ends hends _⟩

theorem script (callable : Callable) :
    Script .generateList [.callable callable] (IdleLog callable)
      (BusyLog callable) (LeftLog callable) where
  evaluates hidle happly := by
    rcases apply_of_idle hidle with ⟨_, ctx', _, _, happly', _⟩ |
      ⟨_, _, _, ctx', _, _, _, happly'⟩
    · have heq := Except.ok.inj (happly.symm.trans happly')
      exact OperationResult.blocked.inj (Prod.mk.inj heq).1
    · have heq := Except.ok.inj (happly.symm.trans happly')
      exact absurd (Prod.mk.inj heq).1 (by simp)
  invokes hidle happly hcallable hargs := by
    rcases apply_of_idle hidle with
      ⟨values, ctx', hordinary, hlog, happly', hheld, hinvoked⟩ |
      ⟨_, _, _, ctx', _, _, _, happly'⟩
    · have heq := Except.ok.inj (happly.symm.trans happly')
      have hsame := (Prod.mk.inj heq).2
      rw [hsame] at hcallable hargs ⊢
      have hsameCallable := Value.callable.inj
        (Option.some.inj (hcallable.symm.trans hheld))
      rw [hinvoked] at hargs ⊢
      have harglist := Except.ok.inj hargs
      rw [hsameCallable, ← harglist, hlog]
      exact ⟨values, hordinary, rfl, rfl⟩
    · have heq := Except.ok.inj (happly.symm.trans happly')
      exact absurd (Prod.mk.inj heq).1 (by simp)
  returns hbusy value := by
    obtain ⟨values, hordinary, hlog, hctx⟩ := hbusy
    rw [hlog, hctx, ← generated_concat]
    exact Or.inr ⟨values, value, hordinary, rfl, rfl⟩
  yields hidle happly := by
    rcases apply_of_idle hidle with ⟨_, ctx', _, _, happly', _⟩ |
      ⟨values, stop, result, ctx', hordinary, hends, hlog, happly'⟩
    · have heq := Except.ok.inj (happly.symm.trans happly')
      exact absurd (Prod.mk.inj heq).1 (by simp)
    · have heq := Except.ok.inj (happly.symm.trans happly')
      have hvalue := OperationResult.value.inj (Prod.mk.inj heq).1
      rw [hvalue, hlog]
      exact ⟨values, stop, result, hordinary, hends, rfl⟩

/-- At every point of every run the callable has returned ordinary values, one
invocation after the other.  Either it runs once more, or the operation is up
and invokes it again, where it has no argument names and can be started; or it
has returned what ends the list, and the operation yields, in its next pass,
the values in their order for an interrupt and the error for an error. -/
def Collects (callable : Callable) (s : RunnerState) : Prop :=
  ∀ log t, Observes s.depth s log t → ∃ values, Ordinary values ∧
    ((log = generated callable values ∧
      (callable.argumentNames = [] →
        (∃ pushed, callable.tree.descend = .ok pushed) →
        ∃ u, t.pass = .ok u ∧
          t.shows s.depth u = [.invoked callable []])) ∨
    log = generated callable values ++ [.invoked callable []] ∨
    ∃ stop result, Ends values stop result ∧
      ((log = generated callable (values ++ [stop]) ∧
        ∃ u, t.pass = .ok u ∧ t.shows s.depth u = [.yielded result]) ∨
      log = generated callable (values ++ [stop]) ++ [.yielded result]))

/-- `GenerateList` collects exactly the values of its body. -/
theorem collects {s : RunnerState} {optree : OpTreeNode}
    {arglist : Option Value} {errno : Errno} {events : List RunnerEvent}
    (hrun : run event events (RunnerState.start optree arglist errno) = .ok s)
    (hstarts : s.Starts .generateList [.callable callable]) :
    Collects callable s := by
  obtain ⟨hrunning, children, frames, hstack⟩ := hstarts
  have hidle : Idle .generateList children [.callable callable] frames
      s.context.interpreter.suspended {} s :=
    ⟨hrunning, hstack, rfl, resumable_run hrun⟩
  intro log t hobserves
  rcases hobserves.follows (script callable) (Nat.le_refl 1) hidle
    (Or.inl ⟨rfl, rfl⟩) with
    ⟨ctx, hup, hlog⟩ | ⟨ctx, _, values, hordinary, hlog, _⟩ |
    ⟨⟨values, stop, result, hordinary, hends, hlog⟩, _⟩
  · rcases apply_of_idle hlog with
      ⟨values, ctx', hordinary, hvalues, happly, hcallable, hinvoked⟩ |
      ⟨values, stop, result, ctx', hordinary, hends, hvalues, happly⟩
    · refine ⟨values, hordinary, Or.inl ⟨hvalues, fun hnames hdescend => ?_⟩⟩
      obtain ⟨pushed, hpushed⟩ := hdescend
      have hargs : ControlFlowOperation.generateList.getArgumentList
          (ControlFlowOperation.generateList.setCallableInvoked ctx') =
            .ok none := by
        rw [hinvoked]
        rfl
      obtain ⟨u, hpass, _, hshows⟩ := hup.pass_invoke (Nat.le_refl 1) happly
        hcallable hargs (Or.inr hnames) hpushed
      exact ⟨u, hpass, hshows⟩
    · exact ⟨values, hordinary, Or.inr (Or.inr ⟨stop, result, hends,
        Or.inl ⟨hvalues, hup.pass_yield (Nat.le_refl 1) happly⟩⟩)⟩
  · exact ⟨values, hordinary, Or.inr (Or.inl hlog)⟩
  · exact ⟨values, hordinary, Or.inr (Or.inr ⟨stop, result, hends,
      Or.inr hlog⟩)⟩

/-- A callable that reads a line, and interrupts in front of a dot. -/
def lineOrDot : Callable :=
  ⟨.mk (.dynamicInput .opSequence)
    [.mk (.inputOutput (.terminateListIfReadAhead [46])) [],
      .mk (.inputOutput (.readOctetsUntilTerminator [10] none)) []], [], true⟩

/-- A program that lists the lines. -/
def lineList : OpTreeNode :=
  .mk (.controlFlow .generateList)
    [.mk (.interpreted (.staticCallable lineOrDot.tree [] true)) []]

/-- The lines `a` and `bc` are collected. -/
theorem collects_lines : ∃ s t,
    run event [.pass] (RunnerState.start lineList none 0) = .ok s ∧
    Collects lineOrDot s ∧
    run event (.chunk [97, 10, 98, 99, 10, 46] :: List.replicate 17 .pass) s =
      .ok t ∧
    t.context.interpreterResult =
      some (.dynamicList [.octets [97], .octets [98, 99]]) := by
  have hrun : run event [.pass] (RunnerState.start lineList none 0) =
      .ok _ := rfl
  exact ⟨_, _, hrun, collects hrun ⟨rfl, _, _, rfl⟩, rfl, rfl⟩

end GenerateList

end NetworkProtocolDsl
