/-
The interpreter loop and the callback loop.

The two threads share the queues of every interpreter and take one access at a
time: the interpreter thread pushes a request and then marks its operation, or
pops a response and then gives it to its operation; the callback thread loads
`exited`, pops a request, calls and pushes the response.  Either thread may come
to any interpreter next, whatever the collection.
-/
import NetworkProtocolDsl.CallbackEvaluation
import NetworkProtocolDsl.ConcurrentRead

namespace NetworkProtocolDsl

open Run InterpreterContext

/-- The key of the callback and its arguments. -/
abbrev CallbackRequest := String × List Value

/-- What the interpreter thread has in hand for one interpreter. -/
inductive InterpreterWork where
  | starting
  | finishing (value : Value)

/-- What the callback thread has in hand for one interpreter. -/
inductive CallbackWork where
  | popping
  | calling (request : CallbackRequest)
  | pushing (value : Value)

/-- `requested`, `answered` and `received` record what was pushed as a request,
what its callback returned and what evaluations of callbacks gave. -/
structure CallbackLog where
  requested : List CallbackRequest := []
  answered : List (CallbackRequest × Value) := []
  received : List (CallbackRequest × Value) := []

/-- `callbacks` tells the keys a callback is registered for. -/
structure CallbackLoops (ι : Type) where
  contexts : ι → ConcurrentState
  errno : Errno
  callbacks : String → Bool
  interpreterThread : Option (ι × InterpreterWork) := none
  callbackThread : Option (ι × CallbackWork) := none
  log : ι → CallbackLog := fun _ => {}

/-- The steps the scheduler may choose; the callback loop's brings the value a
callback returns. -/
inductive CallbackEvent (ι : Type) where
  | chunk (i : ι) (data : Octets)
  | endOfInput (i : ι)
  | interpreterLoop (i : ι)
  | callbackLoop (i : ι) (value : Value)

namespace ConcurrentState

/-- The callback reason a step of the interpreter is blocked for. -/
def callbackWait? (s : ConcurrentState) :
    Option (ReasonForBlockedOperation × Interpreter × Errno) :=
  if s.phase.isOutside = false ∨ s.context.exited = true then none
  else
    match s.context.interpreter.step s.errno with
    | .ok (.blocked, interpreter, errno) =>
        match interpreter.getResult with
        | .blocked .waitingForCallback =>
            some (.waitingForCallback, interpreter, errno)
        | .blocked .waitingCallbackData =>
            some (.waitingCallbackData, interpreter, errno)
        | _ => none
    | _ => none

/-- What the next step of the thread evaluates a callback to. -/
def evaluatedCallback (s : ConcurrentState) :
    List (CallbackRequest × Value) :=
  if s.phase.isOutside = true ∧ s.context.exited = false then
    s.context.interpreter.callbackValue?.toList
  else []

end ConcurrentState

namespace CallbackLoops

variable {ι : Type} [DecidableEq ι]

def setContext (s : CallbackLoops ι) (i : ι) (context : ConcurrentState) :
    CallbackLoops ι :=
  { s with contexts := Function.update s.contexts i context }

def setLog (s : CallbackLoops ι) (i : ι) (log : CallbackLog) :
    CallbackLoops ι :=
  { s with log := Function.update s.log i log }

/-- `handle_start_callback` up to the push. -/
def startCallback (s : CallbackLoops ι) (i : ι) (entered : ConcurrentState)
    (interpreter : Interpreter) (errno : Errno) : CallbackLoops ι :=
  let request := (interpreter.top.getCallbackKey,
    interpreter.top.getCallbackArguments)
  let context := { entered.context with
    interpreter := interpreter
    callbackRequestQueue := entered.context.callbackRequestQueue ++ [request] }
  let log := s.log i
  { (s.setContext i { entered with
      context := context
      errno := errno }).setLog i { log with
        requested := log.requested ++ [request] } with
    errno := errno
    interpreterThread := some (i, .starting) }

/-- `handle_finish_callback` up to the pop. -/
def finishCallback (s : CallbackLoops ι) (i : ι) (entered : ConcurrentState)
    (interpreter : Interpreter) (errno : Errno) : CallbackLoops ι :=
  let context := { entered.context with interpreter := interpreter }
  match context.callbackResponseQueue with
  | [] =>
      { s.setContext i { entered with
          context := context
          errno := errno
          phase := .outside (.blocked .stillBlocked) } with
        errno := errno }
  | value :: queue =>
      { s.setContext i { entered with
          context := { context with callbackResponseQueue := queue }
          errno := errno } with
        errno := errno
        interpreterThread := some (i, .finishing value) }

/-- A step of the interpreter thread that waits for no callback. -/
def stepThread (s : CallbackLoops ι) (i : ι) (entered : ConcurrentState) :
    Except Fault (CallbackLoops ι) :=
  let log := s.log i
  entered.threadStep.map fun context =>
    { (s.setContext i context).setLog i { log with
        received := log.received ++ entered.evaluatedCallback } with
      errno := context.errno }

/-- The topmost operation of an interpreter is told about its callback. -/
def tell (s : CallbackLoops ι) (i : ι) (f : Continuation → Continuation) :
    CallbackLoops ι :=
  let state := s.contexts i
  let interpreter := state.context.interpreter
  { s.setContext i { state with
      context := { state.context with
        interpreter := { interpreter with top := f interpreter.top } }
      phase := .outside (.blocked .unblocked) } with
    interpreterThread := none }

def interpreterStep (s : CallbackLoops ι) (i : ι) :
    Except Fault (CallbackLoops ι) :=
  match s.interpreterThread with
  | some (j, .starting) => .ok (s.tell j Continuation.setCallbackCalled)
  | some (j, .finishing value) =>
      .ok (s.tell j fun top => top.setCallbackReturn value)
  | none =>
      let entered := { s.contexts i with errno := s.errno }
      match entered.callbackWait? with
      | some (.waitingForCallback, interpreter, errno) =>
          .ok (s.startCallback i entered interpreter errno)
      | some (_, interpreter, errno) =>
          .ok (s.finishCallback i entered interpreter errno)
      | none => s.stepThread i entered

/-- The pop of the callback loop. -/
def popRequest (s : CallbackLoops ι) (i : ι) : CallbackLoops ι :=
  let state := s.contexts i
  match state.context.callbackRequestQueue with
  | [] => { s with callbackThread := none }
  | request :: queue =>
      { s.setContext i { state with
          context := { state.context with callbackRequestQueue := queue } } with
        callbackThread := some (i, .calling request) }

/-- The callback returns `value`; a key nothing is registered for is answered
in its place. -/
def answerRequest (s : CallbackLoops ι) (i : ι) (request : CallbackRequest)
    (value : Value) : CallbackLoops ι :=
  let value :=
    if s.callbacks request.1 then value else .runtimeError .typeError
  let log := s.log i
  { s.setLog i { log with answered := log.answered ++ [(request, value)] } with
    callbackThread := some (i, .pushing value) }

def pushResponse (s : CallbackLoops ι) (i : ι) (value : Value) :
    CallbackLoops ι :=
  let state := s.contexts i
  { s.setContext i { state with
      context := { state.context with
        callbackResponseQueue :=
          state.context.callbackResponseQueue ++ [value] } } with
    callbackThread := none }

def callbackStep (s : CallbackLoops ι) (i : ι) (value : Value) :
    CallbackLoops ι :=
  match s.callbackThread with
  | none =>
      if (s.contexts i).context.exited then s
      else { s with callbackThread := some (i, .popping) }
  | some (j, .popping) => s.popRequest j
  | some (j, .calling request) => s.answerRequest j request value
  | some (j, .pushing value) => s.pushResponse j value

def event : CallbackEvent ι → CallbackLoops ι →
    Except Fault (CallbackLoops ι)
  | .chunk i data, s =>
      (ConcurrentState.event (.chunk data) (s.contexts i)).map (s.setContext i)
  | .endOfInput i, s =>
      (ConcurrentState.event .endOfInput (s.contexts i)).map (s.setContext i)
  | .interpreterLoop i, s => s.interpreterStep i
  | .callbackLoop i value, s => .ok (s.callbackStep i value)

/-- The programs the interpreters run, before either loop. -/
def start (programs : ι → OpTreeNode × Option Value) (errno : Errno)
    (callbacks : String → Bool) : CallbackLoops ι where
  contexts := fun i =>
    ConcurrentState.start (programs i).1 (programs i).2 errno
  errno := errno
  callbacks := callbacks

/-- The requests and responses of one interpreter that are on their way. -/
def outstanding (s : CallbackLoops ι) (i : ι) : Nat :=
  (s.contexts i).context.callbackRequestQueue.length +
    (s.contexts i).context.callbackResponseQueue.length +
    match s.callbackThread with
    | some (j, .calling _) | some (j, .pushing _) => if j = i then 1 else 0
    | _ => 0

/-- Evaluations, calls and requests agree in their order: the n-th value an
evaluation got is what the callback returned for the n-th request, and at most
the last request is not answered or not received yet.  A request that is not
answered is still on its way. -/
structure Paired (s : CallbackLoops ι) (i : ι) : Prop where
  outstanding : s.outstanding i ≤ 1
  received : (s.log i).received <+: (s.log i).answered
  answered : (s.log i).answered.map Prod.fst <+: (s.log i).requested
  requested : (s.log i).requested.length ≤ (s.log i).received.length + 1
  unanswered : (s.log i).answered.length < (s.log i).requested.length →
    s.outstanding i = 1

end CallbackLoops

/-- What both threads have to do with one interpreter. -/
structure CallbackView where
  interpreter : Interpreter
  outside : Bool
  requests : List CallbackRequest
  responses : List Value
  interpreterWork : Option InterpreterWork
  callbackWork : Option CallbackWork
  log : CallbackLog

/-- The work of a thread for one interpreter. -/
def workFor {ι ω : Type} [DecidableEq ι] (work : Option (ι × ω)) (i : ι) :
    Option ω :=
  match work with
  | some (j, w) => if j = i then some w else none
  | none => none

@[simp] theorem workFor_none {ι ω : Type} [DecidableEq ι] (i : ι) :
    workFor (none : Option (ι × ω)) i = none :=
  rfl

@[simp] theorem workFor_self {ι ω : Type} [DecidableEq ι] (i : ι) (w : ω) :
    workFor (some (i, w)) i = some w := by
  simp [workFor]

@[simp] theorem workFor_other {ι ω : Type} [DecidableEq ι] {i j : ι} (w : ω)
    (h : i ≠ j) : workFor (some (i, w)) j = none := by
  simp [workFor, h]

namespace CallbackWork

/-- The requests and responses the callback thread holds. -/
def held : Option CallbackWork → Nat
  | some (.calling _) | some (.pushing _) => 1
  | some .popping | none => 0

end CallbackWork

namespace CallbackView

def outstanding (v : CallbackView) : Nat :=
  v.requests.length + v.responses.length + CallbackWork.held v.callbackWork

/-- Where the one request is, or its response. -/
inductive InFlight (v : CallbackView) (request : CallbackRequest) : Prop where
  | queued (hrequests : v.requests = [request]) (hresponses : v.responses = [])
      (hheld : CallbackWork.held v.callbackWork = 0)
      (hanswered : v.log.answered = v.log.received)
  | called (hrequests : v.requests = []) (hresponses : v.responses = [])
      (hcallback : v.callbackWork = some (.calling request))
      (hanswered : v.log.answered = v.log.received)
  | returned (value : Value) (hrequests : v.requests = [])
      (hresponses : v.responses = [])
      (hcallback : v.callbackWork = some (.pushing value))
      (hanswered : v.log.answered = v.log.received ++ [(request, value)])
  | pushed (value : Value) (hrequests : v.requests = [])
      (hresponses : v.responses = [value])
      (hheld : CallbackWork.held v.callbackWork = 0)
      (hanswered : v.log.answered = v.log.received ++ [(request, value)])

def Quiet (v : CallbackView) : Prop :=
  v.requests = [] ∧ v.responses = [] ∧ CallbackWork.held v.callbackWork = 0

/-- How far the evaluation of a callback is. -/
inductive Stage (v : CallbackView) : Prop where
  | idle (hunasked : v.interpreter.Unasked) (hwork : v.interpreterWork = none)
      (hquiet : v.Quiet)
      (hrequested : v.log.requested = v.log.received.map Prod.fst)
      (hanswered : v.log.answered = v.log.received)
  | starting (request : CallbackRequest)
      (hevaluates : v.interpreter.Evaluates request.1 request.2 {})
      (houtside : v.outside = true)
      (hwork : v.interpreterWork = some .starting)
      (hflight : v.InFlight request)
      (hrequested : v.log.requested =
        v.log.received.map Prod.fst ++ [request])
  | waiting (request : CallbackRequest)
      (hevaluates : v.interpreter.Evaluates request.1 request.2 ⟨none, true⟩)
      (houtside : v.outside = true) (hwork : v.interpreterWork = none)
      (hflight : v.InFlight request)
      (hrequested : v.log.requested =
        v.log.received.map Prod.fst ++ [request])
  | finishing (request : CallbackRequest) (value : Value)
      (hevaluates : v.interpreter.Evaluates request.1 request.2 ⟨none, true⟩)
      (houtside : v.outside = true)
      (hwork : v.interpreterWork = some (.finishing value)) (hquiet : v.Quiet)
      (hrequested : v.log.requested =
        v.log.received.map Prod.fst ++ [request])
      (hanswered : v.log.answered = v.log.received ++ [(request, value)])
  | answered (request : CallbackRequest) (value : Value)
      (hevaluates : v.interpreter.Evaluates request.1 request.2
        ⟨some value, true⟩)
      (houtside : v.outside = true) (hwork : v.interpreterWork = none)
      (hquiet : v.Quiet)
      (hrequested : v.log.requested =
        v.log.received.map Prod.fst ++ [request])
      (hanswered : v.log.answered = v.log.received ++ [(request, value)])

/-- The interpreter thread has taken one step, which evaluated these
callbacks. -/
def stepped (v : CallbackView) (state : ConcurrentState)
    (values : List (CallbackRequest × Value)) : CallbackView :=
  { v with
    interpreter := state.context.interpreter
    outside := state.phase.isOutside
    requests := state.context.callbackRequestQueue
    responses := state.context.callbackResponseQueue
    log := { v.log with received := v.log.received ++ values } }

/-- A step of the callback thread, as one interpreter sees it. -/
inductive Moves (v : CallbackView) : CallbackView → Prop where
  | turns (work : Option CallbackWork)
      (hheld : CallbackWork.held v.callbackWork = 0)
      (hwork : CallbackWork.held work = 0) :
      Moves v { v with callbackWork := work }
  | pops (request : CallbackRequest) (queue : List CallbackRequest)
      (hheld : CallbackWork.held v.callbackWork = 0)
      (hrequests : v.requests = request :: queue) :
      Moves v { v with
        requests := queue
        callbackWork := some (.calling request) }
  | answers (request : CallbackRequest) (value : Value)
      (hcallback : v.callbackWork = some (.calling request)) :
      Moves v { v with
        callbackWork := some (.pushing value)
        log := { v.log with
          answered := v.log.answered ++ [(request, value)] } }
  | pushes (value : Value)
      (hcallback : v.callbackWork = some (.pushing value)) :
      Moves v { v with
        responses := v.responses ++ [value]
        callbackWork := none }

variable {v w : CallbackView} {request : CallbackRequest}

/-- What a step of the callback thread leaves alone. -/
theorem Moves.frame (h : v.Moves w) :
    w.interpreter = v.interpreter ∧ w.outside = v.outside ∧
      w.interpreterWork = v.interpreterWork ∧
      w.log.requested = v.log.requested ∧
      w.log.received = v.log.received := by
  cases h <;> exact ⟨rfl, rfl, rfl, rfl, rfl⟩

/-- With nothing on its way the callback thread does nothing. -/
theorem Quiet.moves (hv : v.Quiet) (h : v.Moves w) :
    w.Quiet ∧ w.log.answered = v.log.answered := by
  obtain ⟨hrequests, hresponses, hheld⟩ := hv
  cases h with
  | turns work _ hwork => exact ⟨⟨hrequests, hresponses, hwork⟩, rfl⟩
  | pops request queue _ hqueue =>
      rw [hrequests] at hqueue
      contradiction
  | answers request value hcallback =>
      rw [hcallback] at hheld
      contradiction
  | pushes value hcallback =>
      rw [hcallback] at hheld
      contradiction

/-- The callback thread takes the one request through its stations. -/
theorem InFlight.moves (hv : v.InFlight request) (h : v.Moves w) :
    w.InFlight request := by
  cases h with
  | turns work hheld' hwork =>
      cases hv with
      | queued hrequests hresponses hheld hanswered =>
          exact .queued hrequests hresponses hwork hanswered
      | called hrequests hresponses hcallback hanswered =>
          rw [hcallback] at hheld'
          contradiction
      | returned value hrequests hresponses hcallback hanswered =>
          rw [hcallback] at hheld'
          contradiction
      | pushed value hrequests hresponses hheld hanswered =>
          exact .pushed value hrequests hresponses hwork hanswered
  | pops other queue hheld' hqueue =>
      cases hv with
      | queued hrequests hresponses hheld hanswered =>
          rw [hrequests] at hqueue
          obtain ⟨rfl, rfl⟩ := List.cons.inj hqueue
          exact .called rfl hresponses rfl hanswered
      | called hrequests hresponses hcallback hanswered =>
          rw [hrequests] at hqueue
          contradiction
      | returned value hrequests hresponses hcallback hanswered =>
          rw [hrequests] at hqueue
          contradiction
      | pushed value hrequests hresponses hheld hanswered =>
          rw [hrequests] at hqueue
          contradiction
  | answers other value hcallback' =>
      cases hv with
      | queued hrequests hresponses hheld hanswered =>
          rw [hcallback'] at hheld
          contradiction
      | called hrequests hresponses hcallback hanswered =>
          rw [hcallback'] at hcallback
          obtain rfl := CallbackWork.calling.inj (Option.some.inj hcallback)
          refine .returned value hrequests hresponses rfl ?_
          simp only
          rw [hanswered]
      | returned value' hrequests hresponses hcallback hanswered =>
          rw [hcallback'] at hcallback
          simp at hcallback
      | pushed value' hrequests hresponses hheld hanswered =>
          rw [hcallback'] at hheld
          contradiction
  | pushes value hcallback' =>
      cases hv with
      | queued hrequests hresponses hheld hanswered =>
          rw [hcallback'] at hheld
          contradiction
      | called hrequests hresponses hcallback hanswered =>
          rw [hcallback'] at hcallback
          simp at hcallback
      | returned value' hrequests hresponses hcallback hanswered =>
          rw [hcallback'] at hcallback
          obtain rfl := CallbackWork.pushing.inj (Option.some.inj hcallback)
          refine .pushed value hrequests ?_ rfl hanswered
          simp only
          rw [hresponses, List.nil_append]
      | pushed value' hrequests hresponses hheld hanswered =>
          rw [hcallback'] at hheld
          contradiction

theorem Stage.moves (hv : v.Stage) (h : v.Moves w) : w.Stage := by
  obtain ⟨hinterpreter, houtside', hwork', hrequested', hreceived'⟩ := h.frame
  cases hv with
  | idle hunasked hwork hquiet hrequested hanswered =>
      obtain ⟨hquiet', hanswered'⟩ := hquiet.moves h
      refine .idle ?_ ?_ hquiet' ?_ ?_
      · rwa [hinterpreter]
      · rwa [hwork']
      · rwa [hrequested', hreceived']
      · rwa [hanswered', hreceived']
  | starting request hevaluates houtside hwork hflight hrequested =>
      refine .starting request ?_ ?_ ?_ (hflight.moves h) ?_
      · rwa [hinterpreter]
      · rwa [houtside']
      · rwa [hwork']
      · rwa [hrequested', hreceived']
  | waiting request hevaluates houtside hwork hflight hrequested =>
      refine .waiting request ?_ ?_ ?_ (hflight.moves h) ?_
      · rwa [hinterpreter]
      · rwa [houtside']
      · rwa [hwork']
      · rwa [hrequested', hreceived']
  | finishing request value hevaluates houtside hwork hquiet hrequested
      hanswered =>
      obtain ⟨hquiet', hanswered'⟩ := hquiet.moves h
      refine .finishing request value ?_ ?_ ?_ hquiet' ?_ ?_
      · rwa [hinterpreter]
      · rwa [houtside']
      · rwa [hwork']
      · rwa [hrequested', hreceived']
      · rwa [hanswered', hreceived']
  | answered request value hevaluates houtside hwork hquiet hrequested
      hanswered =>
      obtain ⟨hquiet', hanswered'⟩ := hquiet.moves h
      refine .answered request value ?_ ?_ ?_ hquiet' ?_ ?_
      · rwa [hinterpreter]
      · rwa [houtside']
      · rwa [hwork']
      · rwa [hrequested', hreceived']
      · rwa [hanswered', hreceived']

end CallbackView

namespace CallbackLoops

variable {ι : Type} [DecidableEq ι]

def view (s : CallbackLoops ι) (i : ι) : CallbackView where
  interpreter := (s.contexts i).context.interpreter
  outside := (s.contexts i).phase.isOutside
  requests := (s.contexts i).context.callbackRequestQueue
  responses := (s.contexts i).context.callbackResponseQueue
  interpreterWork := workFor s.interpreterThread i
  callbackWork := workFor s.callbackThread i
  log := s.log i

variable {s t : CallbackLoops ι} {i j : ι}

/-- A step of the callback thread leaves an interpreter alone or is one it
sees. -/
theorem callbackStep_moves (s : CallbackLoops ι) (i : ι) (value : Value)
    (j : ι) : (s.callbackStep i value).view j = s.view j ∨
      (s.view j).Moves ((s.callbackStep i value).view j) := by
  unfold callbackStep
  split
  · rename_i hthread
    split
    · exact Or.inl rfl
    · by_cases hij : i = j
      · subst hij
        have hmoves := CallbackView.Moves.turns (v := s.view i)
          (some .popping) (by simp [view, hthread, CallbackWork.held]) rfl
        exact Or.inr (by simpa [view] using hmoves)
      · exact Or.inl (by simp [view, hthread, hij])
  · rename_i i' hthread
    by_cases hij : i' = j
    · subst hij
      have hwork : (s.view i').callbackWork = some .popping := by
        simp [view, hthread]
      have hheld : CallbackWork.held (s.view i').callbackWork = 0 := by
        rw [hwork]
        rfl
      right
      unfold popRequest
      simp only
      split
      · exact CallbackView.Moves.turns (v := s.view i') none hheld rfl
      · rename_i request queue hqueue
        have hmoves := CallbackView.Moves.pops (v := s.view i') request queue
          hheld hqueue
        simpa [view, setContext] using hmoves
    · left
      unfold popRequest
      simp only
      split
      · simp [view, hthread, hij]
      · simp [view, setContext, hthread, hij, Ne.symm hij]
  · rename_i i' request hthread
    by_cases hij : i' = j
    · subst hij
      have hmoves := CallbackView.Moves.answers (v := s.view i') request
        (if s.callbacks request.1 then value else .runtimeError .typeError)
        (by simp [view, hthread])
      exact Or.inr (by simpa [view, answerRequest, setLog] using hmoves)
    · exact Or.inl (by
        simp [view, answerRequest, setLog, hthread, hij, Ne.symm hij])
  · rename_i i' value hthread
    by_cases hij : i' = j
    · subst hij
      have hmoves := CallbackView.Moves.pushes (v := s.view i') value
        (by simp [view, hthread])
      exact Or.inr (by simpa [view, pushResponse, setContext] using hmoves)
    · exact Or.inl (by
        simp [view, pushResponse, setContext, hthread, hij, Ne.symm hij])

end CallbackLoops

namespace InterpreterContext

/-- The callbacks of a context: nothing is asked, and the queues stay. -/
structure KeepsCallbacks (context context' : InterpreterContext) : Prop where
  unasked : context'.interpreter.Unasked
  requests : context'.callbackRequestQueue = context.callbackRequestQueue
  responses : context'.callbackResponseQueue = context.callbackResponseQueue

variable {context context' : InterpreterContext}

theorem handleBlockedInterpreter_keepsCallbacks {result : HandleBlockedResult}
    (hunasked : context.interpreter.Unasked)
    (hno : context.interpreter.getResult.NoCallback)
    (hread : context.interpreter.getResult ≠ .blocked .waitingForRead)
    (h : context.handleBlockedInterpreter = .ok (result, context')) :
    context.KeepsCallbacks context' := by
  unfold handleBlockedInterpreter at h
  split at h
  · rename_i hresult
    exact absurd hresult hread
  · simp only [handleWrite] at h
    split at h
    · obtain ⟨_, rfl⟩ := Prod.mk.inj (Except.ok.inj h)
      exact ⟨Interpreter.handleEof_unasked hunasked, rfl, rfl⟩
    · obtain ⟨_, rfl⟩ := Prod.mk.inj (Except.ok.inj h)
      exact ⟨Interpreter.handleWrite_unasked hunasked _, rfl, rfl⟩
  · rename_i hresult
    exact absurd hresult hno.1
  · rename_i hresult
    exact absurd hresult hno.2
  · obtain ⟨_, rfl⟩ := Prod.mk.inj (Except.ok.inj h)
    exact ⟨hunasked, rfl, rfl⟩

theorem pass_keepsCallbacks {errno errno' : Errno} {progress : Progress}
    (hrunning : context.exited = false)
    (hstep : ∀ state interpreter errno',
      context.interpreter.step errno = .ok (state, interpreter, errno') →
        interpreter.Unasked ∧ (state = .blocked →
          interpreter.getResult.NoCallback ∧
            interpreter.getResult ≠ .blocked .waitingForRead))
    (h : context.pass errno = .ok (progress, context', errno')) :
    context.KeepsCallbacks context' := by
  unfold InterpreterContext.pass at h
  rw [if_neg (by simp [hrunning])] at h
  split at h
  · contradiction
  · rename_i interpreter errno₁ heq
    obtain ⟨hunasked, hblocked⟩ := hstep _ _ _ heq
    obtain ⟨hno, hread⟩ := hblocked rfl
    obtain ⟨⟨result, context₁⟩, hhandle, hpair⟩ := map_eq_ok h
    obtain ⟨_, hrest⟩ := Prod.mk.inj hpair
    obtain ⟨rfl, _⟩ := Prod.mk.inj hrest
    have hkeeps : InterpreterContext.KeepsCallbacks
        { context with interpreter := interpreter } context₁ :=
      handleBlockedInterpreter_keepsCallbacks hunasked hno hread hhandle
    exact ⟨hkeeps.unasked, hkeeps.requests, hkeeps.responses⟩
  · rename_i interpreter errno₁ heq
    obtain ⟨_, hrest⟩ := Prod.mk.inj (Except.ok.inj h)
    obtain ⟨rfl, _⟩ := Prod.mk.inj hrest
    exact ⟨(hstep _ _ _ heq).1, rfl, rfl⟩
  · rename_i interpreter errno₁ _ _ heq
    obtain ⟨_, hrest⟩ := Prod.mk.inj (Except.ok.inj h)
    obtain ⟨rfl, _⟩ := Prod.mk.inj hrest
    exact ⟨(hstep _ _ _ heq).1, rfl, rfl⟩

end InterpreterContext

namespace ConcurrentState

variable {s t : ConcurrentState}

theorem stepOutside_exited (hexited : s.context.exited = true)
    (h : s.stepOutside = .ok t) :
    t.context = s.context ∧ t.phase.isOutside = true := by
  unfold stepOutside at h
  simp only [hexited, if_true] at h
  rw [InterpreterContext.pass, if_pos hexited] at h
  obtain rfl := Except.ok.inj h
  exact ⟨rfl, rfl⟩

theorem stepOutside_keepsCallbacks (hrunning : s.context.exited = false)
    (hstep : ∀ state interpreter errno',
      s.context.interpreter.step s.errno = .ok (state, interpreter, errno') →
        interpreter.Unasked ∧
          (state = .blocked → interpreter.getResult.NoCallback))
    (h : s.stepOutside = .ok t) : s.context.KeepsCallbacks t.context := by
  have hpass (hread : ∀ interpreter errno',
        s.context.interpreter.step s.errno =
          .ok (.blocked, interpreter, errno') →
        interpreter.getResult ≠ .blocked .waitingForRead)
      (hmap : ((s.context.pass s.errno).map
        fun r => { s with context := r.2.1, errno := r.2.2
                          phase := .outside r.1 }) = .ok t) :
      s.context.KeepsCallbacks t.context := by
    obtain ⟨⟨progress, context, errno⟩, hrun, rfl⟩ := map_eq_ok hmap
    refine pass_keepsCallbacks hrunning ?_ hrun
    intro state interpreter errno' heq
    obtain ⟨hunasked, hno⟩ := hstep _ _ _ heq
    refine ⟨hunasked, ?_⟩
    rintro rfl
    exact ⟨hno rfl, hread _ _ heq⟩
  unfold stepOutside at h
  simp only [hrunning, Bool.false_eq_true, if_false] at h
  split at h
  · rename_i interpreter errno heq
    split at h
    · obtain rfl := Except.ok.inj h
      exact ⟨(hstep _ _ _ heq).1, rfl, rfl⟩
    · rename_i hresult
      refine hpass ?_ h
      intro interpreter' errno' heq'
      obtain ⟨_, hrest⟩ := Prod.mk.inj (Except.ok.inj (heq.symm.trans heq'))
      obtain ⟨rfl, _⟩ := Prod.mk.inj hrest
      exact hresult
  · rename_i hnot
    exact hpass (fun interpreter errno' heq =>
      absurd heq (hnot interpreter errno')) h

/-- The steps of `handle_read` ask nothing. -/
theorem threadStep_keepsCallbacks (hunasked : s.context.interpreter.Unasked)
    (hinside : s.phase.isOutside = false) (h : s.threadStep = .ok t) :
    s.context.KeepsCallbacks t.context := by
  unfold threadStep at h
  split at h
  · rename_i hphase
    rw [hphase] at hinside
    contradiction
  · split at h
    · obtain rfl := Except.ok.inj h
      exact ⟨hunasked, rfl, rfl⟩
    · obtain rfl := Except.ok.inj h
      exact ⟨hunasked, rfl, rfl⟩
  · split at h
    · obtain rfl := Except.ok.inj h
      exact ⟨Interpreter.handleEof_unasked hunasked, rfl, rfl⟩
    · obtain rfl := Except.ok.inj h
      exact ⟨hunasked, rfl, rfl⟩
  · unfold offer at h
    split at h
    · contradiction
    · rename_i hread
      obtain rfl := Except.ok.inj h
      exact ⟨Interpreter.handleRead_unasked hunasked hread, rfl, rfl⟩
  · split at h
    · obtain rfl := Except.ok.inj h
      exact ⟨hunasked, rfl, rfl⟩
    · obtain rfl := Except.ok.inj h
      exact ⟨hunasked, rfl, rfl⟩
  · obtain rfl := Except.ok.inj h
    exact ⟨hunasked, rfl, rfl⟩
  · obtain rfl := Except.ok.inj h
    exact ⟨hunasked, rfl, rfl⟩

theorem threadStep_of_outside (houtside : s.phase.isOutside = true) :
    s.threadStep = s.stepOutside := by
  unfold threadStep
  cases hphase : s.phase with
  | outside progress => rfl
  | popping | loading | offering _ _ | joining _ _ | pushingBack _ _
  | pushingRest _ =>
      rw [hphase] at houtside
      contradiction

theorem callbackWait?_eq_some {reason : ReasonForBlockedOperation}
    {interpreter : Interpreter} {errno : Errno}
    (h : s.callbackWait? = some (reason, interpreter, errno)) :
    s.phase.isOutside = true ∧ s.context.exited = false ∧
      s.context.interpreter.step s.errno =
        .ok (.blocked, interpreter, errno) ∧
      interpreter.getResult = .blocked reason ∧
      (reason = .waitingForCallback ∨ reason = .waitingCallbackData) := by
  unfold callbackWait? at h
  split at h
  · contradiction
  · rename_i hentered
    simp only [not_or, Bool.not_eq_false, Bool.not_eq_true] at hentered
    split at h
    · rename_i hstep
      split at h
      · rename_i hresult
        obtain ⟨rfl, hpair⟩ := Prod.mk.inj (Option.some.inj h)
        obtain ⟨rfl, rfl⟩ := Prod.mk.inj hpair
        exact ⟨hentered.1, hentered.2, hstep, hresult, Or.inl rfl⟩
      · rename_i hresult
        obtain ⟨rfl, hpair⟩ := Prod.mk.inj (Option.some.inj h)
        obtain ⟨rfl, rfl⟩ := Prod.mk.inj hpair
        exact ⟨hentered.1, hentered.2, hstep, hresult, Or.inr rfl⟩
      · contradiction
    · contradiction

theorem callbackWait?_eq_none (h : s.callbackWait? = none)
    (houtside : s.phase.isOutside = true)
    (hrunning : s.context.exited = false) {interpreter : Interpreter}
    {errno : Errno} (hstep : s.context.interpreter.step s.errno =
      .ok (.blocked, interpreter, errno)) :
    interpreter.getResult.NoCallback := by
  unfold callbackWait? at h
  rw [if_neg (by simp [houtside, hrunning]), hstep] at h
  simp only at h
  constructor
  · intro hresult
    rw [hresult] at h
    contradiction
  · intro hresult
    rw [hresult] at h
    contradiction

theorem evaluatedCallback_exited (h : s.context.exited = true) :
    s.evaluatedCallback = [] := by
  simp [evaluatedCallback, h]

theorem evaluatedCallback_unasked (h : s.context.interpreter.Unasked) :
    s.evaluatedCallback = [] := by
  simp [evaluatedCallback, h.callbackValue?]

/-- A step that waits for no callback, with no callback asked. -/
theorem threadStep_unasked (hunasked : s.context.interpreter.Unasked)
    (hwait : s.callbackWait? = none) (h : s.threadStep = .ok t) :
    s.context.KeepsCallbacks t.context := by
  cases houtside : s.phase.isOutside with
  | false => exact threadStep_keepsCallbacks hunasked houtside h
  | true =>
      rw [threadStep_of_outside houtside] at h
      cases hexited : s.context.exited with
      | true =>
          rw [(stepOutside_exited hexited h).1]
          exact ⟨hunasked, rfl, rfl⟩
      | false =>
          refine stepOutside_keepsCallbacks hexited ?_ h
          intro state interpreter errno' hstep
          refine ⟨(Interpreter.step_unasked hunasked hstep).1, ?_⟩
          rintro rfl
          exact callbackWait?_eq_none hwait houtside hexited hstep

end ConcurrentState

namespace CallbackLoops

variable {ι : Type} [DecidableEq ι] {s t : CallbackLoops ι} {i j : ι}

/-- What the interpreter thread finds when it comes to an interpreter. -/
abbrev entered (s : CallbackLoops ι) (i : ι) : ConcurrentState :=
  { s.contexts i with errno := s.errno }

theorem view_startCallback (s : CallbackLoops ι) (i : ι)
    (interpreter : Interpreter) (errno : Errno) {request : CallbackRequest}
    (hrequest : (interpreter.top.getCallbackKey,
      interpreter.top.getCallbackArguments) = request) :
    (s.startCallback i (s.entered i) interpreter errno).view i =
      { s.view i with
        interpreter := interpreter
        requests := (s.view i).requests ++ [request]
        interpreterWork := some .starting
        log := { (s.view i).log with
          requested := (s.view i).log.requested ++ [request] } } := by
  subst hrequest
  simp [view, startCallback, setContext, setLog]

theorem view_finishCallback_nil (interpreter : Interpreter) (errno : Errno)
    (hresponses : (s.view i).responses = []) :
    (s.finishCallback i (s.entered i) interpreter errno).view i =
      { s.view i with interpreter := interpreter, outside := true } := by
  simp only [view] at hresponses
  simp [view, finishCallback, hresponses, setContext, ReadPhase.isOutside]

theorem view_finishCallback_cons (interpreter : Interpreter) (errno : Errno)
    {value : Value} {queue : List Value}
    (hresponses : (s.view i).responses = value :: queue) :
    (s.finishCallback i (s.entered i) interpreter errno).view i =
      { s.view i with
        interpreter := interpreter
        responses := queue
        interpreterWork := some (.finishing value) } := by
  simp only [view] at hresponses
  simp [view, finishCallback, hresponses, setContext]

theorem view_tell (s : CallbackLoops ι) (i : ι)
    (f : Continuation → Continuation) :
    (s.tell i f).view i = { s.view i with
      interpreter := { (s.view i).interpreter with
        top := f (s.view i).interpreter.top }
      outside := true
      interpreterWork := none } := by
  simp [view, tell, setContext, ReadPhase.isOutside]

theorem view_stepThread {context : ConcurrentState}
    (hstep : (s.entered i).threadStep = .ok context)
    (h : s.stepThread i (s.entered i) = .ok t) :
    t.view i =
      (s.view i).stepped context (s.entered i).evaluatedCallback := by
  obtain ⟨context', hstep', rfl⟩ := map_eq_ok h
  obtain rfl := Except.ok.inj (hstep'.symm.trans hstep)
  simp [view, CallbackView.stepped, setContext, setLog]

/-- The request is pushed. -/
theorem stage_startCallback {interpreter : Interpreter} {errno : Errno}
    (hfree : s.interpreterThread = none) (hstage : (s.view i).Stage)
    (hwait : (s.entered i).callbackWait? =
      some (.waitingForCallback, interpreter, errno)) :
    ((s.startCallback i (s.entered i) interpreter errno).view i).Stage := by
  obtain ⟨houtside, hrunning, hstep, hresult, _⟩ :=
    ConcurrentState.callbackWait?_eq_some hwait
  cases hstage with
  | idle hunasked hwork hquiet hrequested hanswered =>
      obtain ⟨_, hblocked⟩ := Interpreter.step_unasked hunasked hstep
      obtain ⟨_, key, args, hevaluates⟩ :=
        (hblocked rfl).resolve_left fun hno => hno.1 hresult
      obtain ⟨hkey, hargs⟩ := hevaluates.request
      obtain ⟨hrequests, hresponses, hheld⟩ := hquiet
      rw [view_startCallback s i interpreter errno
        (Prod.ext hkey hargs : _ = (key, args))]
      refine .starting (key, args) hevaluates houtside rfl
        (.queued ?_ hresponses hheld hanswered) ?_
      · simp only
        rw [hrequests, List.nil_append]
      · simp only
        rw [hrequested]
  | starting request hevaluates houtside hwork hflight hrequested =>
      simp [view, hfree] at hwork
  | waiting request hevaluates houtside hwork hflight hrequested =>
      obtain ⟨interpreter', hstep', hresult', _⟩ :=
        hevaluates.step_waiting s.errno
      have heq := hstep'.symm.trans hstep
      obtain ⟨_, hpair⟩ := Prod.mk.inj (Except.ok.inj heq)
      obtain ⟨rfl, _⟩ := Prod.mk.inj hpair
      rw [hresult] at hresult'
      simp at hresult'
  | finishing request value hevaluates houtside hwork hquiet hrequested
      hanswered => simp [view, hfree] at hwork
  | answered request value hevaluates houtside hwork hquiet hrequested
      hanswered => exact absurd rfl (hevaluates.step_answered hstep).2

/-- The response is popped, if it is there. -/
theorem stage_finishCallback {interpreter : Interpreter} {errno : Errno}
    (hfree : s.interpreterThread = none) (hstage : (s.view i).Stage)
    (hwait : (s.entered i).callbackWait? =
      some (.waitingCallbackData, interpreter, errno)) :
    ((s.finishCallback i (s.entered i) interpreter errno).view i).Stage := by
  obtain ⟨houtside, hrunning, hstep, hresult, _⟩ :=
    ConcurrentState.callbackWait?_eq_some hwait
  cases hstage with
  | idle hunasked hwork hquiet hrequested hanswered =>
      obtain ⟨_, hblocked⟩ := Interpreter.step_unasked hunasked hstep
      rcases hblocked rfl with hno | ⟨hresult', _⟩
      · exact absurd hresult hno.2
      · rw [hresult] at hresult'
        simp at hresult'
  | starting request hevaluates houtside hwork hflight hrequested =>
      simp [view, hfree] at hwork
  | waiting request hevaluates _ hwork hflight hrequested =>
      obtain ⟨interpreter', hstep', _, hevaluates'⟩ :=
        hevaluates.step_waiting s.errno
      have heq := hstep'.symm.trans hstep
      obtain ⟨_, hpair⟩ := Prod.mk.inj (Except.ok.inj heq)
      obtain ⟨rfl, _⟩ := Prod.mk.inj hpair
      cases hflight with
      | queued hrequests hresponses hheld hanswered =>
          rw [view_finishCallback_nil interpreter' errno hresponses]
          exact .waiting request hevaluates' rfl hwork
            (.queued hrequests hresponses hheld hanswered) hrequested
      | called hrequests hresponses hcallback hanswered =>
          rw [view_finishCallback_nil interpreter' errno hresponses]
          exact .waiting request hevaluates' rfl hwork
            (.called hrequests hresponses hcallback hanswered) hrequested
      | returned value hrequests hresponses hcallback hanswered =>
          rw [view_finishCallback_nil interpreter' errno hresponses]
          exact .waiting request hevaluates' rfl hwork
            (.returned value hrequests hresponses hcallback hanswered)
            hrequested
      | pushed value hrequests hresponses hheld hanswered =>
          rw [view_finishCallback_cons interpreter' errno hresponses]
          exact .finishing request value hevaluates' houtside rfl
            ⟨hrequests, rfl, hheld⟩ hrequested hanswered
  | finishing request value hevaluates houtside hwork hquiet hrequested
      hanswered => simp [view, hfree] at hwork
  | answered request value hevaluates houtside hwork hquiet hrequested
      hanswered => exact absurd rfl (hevaluates.step_answered hstep).2

/-- A step that waits for no callback ends the evaluation that has its value,
or there is none. -/
theorem stage_stepThread (hfree : s.interpreterThread = none)
    (hstage : (s.view i).Stage) (hwait : (s.entered i).callbackWait? = none)
    (h : s.stepThread i (s.entered i) = .ok t) : (t.view i).Stage := by
  obtain ⟨context, hstep, _⟩ := map_eq_ok h
  rw [view_stepThread hstep h]
  -- an interpreter that has exited is passed over
  have hpassed (houtside : (s.view i).outside = true)
      (hexited : (s.entered i).context.exited = true) :
      ((s.view i).stepped context
        (s.entered i).evaluatedCallback).Stage := by
    rw [ConcurrentState.threadStep_of_outside (s := s.entered i) houtside]
      at hstep
    obtain ⟨hsame, hout⟩ :=
      ConcurrentState.stepOutside_exited hexited hstep
    rw [ConcurrentState.evaluatedCallback_exited hexited,
      CallbackView.stepped, hsame, hout, List.append_nil, ← houtside]
    exact hstage
  cases hstage with
  | idle hunasked hwork hquiet hrequested hanswered =>
      obtain ⟨hrequests, hresponses, hheld⟩ := hquiet
      have hkeeps := ConcurrentState.threadStep_unasked
        (s := s.entered i) hunasked hwait hstep
      rw [ConcurrentState.evaluatedCallback_unasked (s := s.entered i)
        hunasked, CallbackView.stepped, List.append_nil, hkeeps.requests,
        hkeeps.responses]
      exact .idle hkeeps.unasked hwork ⟨hrequests, hresponses, hheld⟩
        hrequested hanswered
  | starting request hevaluates houtside hwork hflight hrequested =>
      simp [view, hfree] at hwork
  | waiting request hevaluates houtside hwork hflight hrequested =>
      cases hexited : (s.entered i).context.exited with
      | true => exact hpassed houtside hexited
      | false =>
          obtain ⟨interpreter, hstep', hresult, _⟩ :=
            hevaluates.step_waiting s.errno
          have hno := ConcurrentState.callbackWait?_eq_none hwait houtside
            hexited hstep'
          exact absurd hresult hno.2
  | finishing request value hevaluates houtside hwork hquiet hrequested
      hanswered => simp [view, hfree] at hwork
  | answered request value hevaluates houtside hwork hquiet hrequested
      hanswered =>
      cases hexited : (s.entered i).context.exited with
      | true => exact hpassed houtside hexited
      | false =>
          have houtside' : (s.entered i).phase.isOutside = true := houtside
          rw [ConcurrentState.threadStep_of_outside houtside'] at hstep
          have hkeeps := ConcurrentState.stepOutside_keepsCallbacks hexited
            (fun state interpreter errno' heq =>
              have hended := hevaluates.step_answered heq
              ⟨hended.1, fun hblocked => absurd hblocked hended.2⟩) hstep
          have hvalue : (s.entered i).evaluatedCallback =
              [(request, value)] := by
            unfold ConcurrentState.evaluatedCallback
            rw [if_pos ⟨houtside', hexited⟩]
            have hgot : (s.entered i).context.interpreter.callbackValue? =
                some (request, value) := hevaluates.callbackValue?
            rw [hgot]
            rfl
          obtain ⟨hrequests, hresponses, hheld⟩ := hquiet
          rw [hvalue, CallbackView.stepped, hkeeps.requests, hkeeps.responses]
          refine .idle hkeeps.unasked hwork ⟨hrequests, hresponses, hheld⟩ ?_
            hanswered
          simp only
          rw [hrequested, List.map_append]
          rfl

/-- The operation is told about its callback. -/
theorem stage_tell (hstage : (s.view i).Stage)
    {work : InterpreterWork} (hbusy : s.interpreterThread = some (i, work)) :
    (work = .starting →
      ((s.tell i Continuation.setCallbackCalled).view i).Stage) ∧
    ∀ value, work = .finishing value →
      ((s.tell i fun top => top.setCallbackReturn value).view i).Stage := by
  have hview : (s.view i).interpreterWork = some work := by
    simp [view, hbusy]
  constructor
  · rintro rfl
    rw [view_tell]
    cases hstage with
    | starting request hevaluates houtside hwork hflight hrequested =>
        refine .waiting request hevaluates.setCallbackCalled rfl rfl ?_
          hrequested
        cases hflight with
        | queued hrequests hresponses hheld hanswered =>
            exact .queued hrequests hresponses hheld hanswered
        | called hrequests hresponses hcallback hanswered =>
            exact .called hrequests hresponses hcallback hanswered
        | returned value hrequests hresponses hcallback hanswered =>
            exact .returned value hrequests hresponses hcallback hanswered
        | pushed value hrequests hresponses hheld hanswered =>
            exact .pushed value hrequests hresponses hheld hanswered
    | idle hunasked hwork hquiet hrequested hanswered => simp_all
    | waiting request hevaluates houtside hwork hflight hrequested => simp_all
    | finishing request value hevaluates houtside hwork hquiet hrequested
        hanswered => simp_all
    | answered request value hevaluates houtside hwork hquiet hrequested
        hanswered => simp_all
  · rintro value rfl
    rw [view_tell]
    cases hstage with
    | finishing request value' hevaluates houtside hwork hquiet hrequested
        hanswered =>
        rw [hview] at hwork
        obtain rfl := InterpreterWork.finishing.inj (Option.some.inj hwork)
        exact .answered request value (hevaluates.setCallbackReturn value) rfl
          rfl hquiet hrequested hanswered
    | idle hunasked hwork hquiet hrequested hanswered => simp_all
    | starting request hevaluates houtside hwork hflight hrequested => simp_all
    | waiting request hevaluates houtside hwork hflight hrequested => simp_all
    | answered request value hevaluates houtside hwork hquiet hrequested
        hanswered => simp_all

/-- A step of the interpreter thread is one over a single interpreter. -/
theorem interpreterStep_frame (h : s.interpreterStep i = .ok t) :
    ∃ k, (∀ j, k ≠ j → t.view j = s.view j) ∧
      ((s.view k).Stage → (t.view k).Stage) := by
  unfold interpreterStep at h
  split at h
  · rename_i k hbusy
    obtain rfl := Except.ok.inj h
    refine ⟨k, ?_, fun hstage => (stage_tell hstage hbusy).1 rfl⟩
    intro j hkj
    simp [view, tell, setContext, hbusy, hkj, Ne.symm hkj]
  · rename_i k value hbusy
    obtain rfl := Except.ok.inj h
    refine ⟨k, ?_, fun hstage => (stage_tell hstage hbusy).2 value rfl⟩
    intro j hkj
    simp [view, tell, setContext, hbusy, hkj, Ne.symm hkj]
  · rename_i hfree
    refine ⟨i, ?_, ?_⟩
    · intro j hij
      simp only at h
      split at h
      · obtain rfl := Except.ok.inj h
        simp [view, startCallback, setContext, setLog, hfree, hij, Ne.symm hij]
      · obtain rfl := Except.ok.inj h
        unfold finishCallback
        simp only
        split
        · simp [view, setContext, Ne.symm hij]
        · simp [view, setContext, hfree, hij, Ne.symm hij]
      · obtain ⟨context, _, rfl⟩ := map_eq_ok h
        simp [view, setContext, setLog, Ne.symm hij]
    · intro hstage
      simp only at h
      split at h
      · rename_i hwait
        obtain rfl := Except.ok.inj h
        exact stage_startCallback hfree hstage hwait
      · rename_i hother hwait
        obtain rfl := Except.ok.inj h
        obtain ⟨_, _, _, _, rfl | rfl⟩ :=
          ConcurrentState.callbackWait?_eq_some hwait
        · exact absurd rfl hother
        · exact stage_finishCallback hfree hstage hwait
      · rename_i hwait
        exact stage_stepThread hfree hstage hwait h

/-- Every step keeps every interpreter at a stage. -/
theorem stage_event {e : CallbackEvent ι} (hs : ∀ i, (s.view i).Stage)
    (h : event e s = .ok t) (j : ι) : (t.view j).Stage := by
  cases e with
  | chunk i data =>
      obtain rfl := Except.ok.inj h
      by_cases hij : i = j
      · subst hij
        simpa [view, setContext] using hs i
      · simpa [view, setContext, Ne.symm hij] using hs j
  | endOfInput i =>
      obtain rfl := Except.ok.inj h
      by_cases hij : i = j
      · subst hij
        simpa [view, setContext] using hs i
      · simpa [view, setContext, Ne.symm hij] using hs j
  | interpreterLoop i =>
      obtain ⟨k, hframe, hstage⟩ := interpreterStep_frame h
      by_cases hkj : k = j
      · subst hkj
        exact hstage (hs k)
      · rw [hframe j hkj]
        exact hs j
  | callbackLoop i value =>
      obtain rfl := Except.ok.inj h
      rcases s.callbackStep_moves i value j with hsame | hmoves
      · rw [hsame]
        exact hs j
      · exact (hs j).moves hmoves

theorem stage_start (programs : ι → OpTreeNode × Option Value) (errno : Errno)
    (callbacks : String → Bool) (i : ι) :
    ((start programs errno callbacks).view i).Stage :=
  .idle (Interpreter.getInstance_unasked _ _) rfl ⟨rfl, rfl, rfl⟩ rfl rfl

theorem outstanding_eq (s : CallbackLoops ι) (i : ι) :
    s.outstanding i = (s.view i).outstanding := by
  unfold outstanding CallbackView.outstanding view workFor
  congr 1
  split
  · rename_i k request hthread
    rw [hthread]
    by_cases hki : k = i <;> simp [hki, CallbackWork.held]
  · rename_i k value hthread
    rw [hthread]
    by_cases hki : k = i <;> simp [hki, CallbackWork.held]
  · rename_i hcalling hpushing
    rcases hthread : s.callbackThread with _ | ⟨k, work⟩
    · rfl
    · cases work with
      | popping => by_cases hki : k = i <;> simp [hki, CallbackWork.held]
      | calling request => exact absurd hthread (hcalling k request)
      | pushing value => exact absurd hthread (hpushing k value)

end CallbackLoops

namespace CallbackView

variable {v : CallbackView} {request : CallbackRequest}

theorem Quiet.outstanding (h : v.Quiet) : v.outstanding = 0 := by
  obtain ⟨hrequests, hresponses, hheld⟩ := h
  simp [CallbackView.outstanding, hrequests, hresponses, hheld]

/-- Exactly one request is on its way, and its answer comes last. -/
theorem InFlight.paired (h : v.InFlight request) :
    v.outstanding = 1 ∧ (v.log.answered = v.log.received ∨
      ∃ value, v.log.answered = v.log.received ++ [(request, value)]) := by
  cases h with
  | queued hrequests hresponses hheld hanswered =>
      exact ⟨by simp [outstanding, hrequests, hresponses, hheld],
        Or.inl hanswered⟩
  | called hrequests hresponses hcallback hanswered =>
      exact ⟨by simp [outstanding, hrequests, hresponses, hcallback,
        CallbackWork.held], Or.inl hanswered⟩
  | returned value hrequests hresponses hcallback hanswered =>
      exact ⟨by simp [outstanding, hrequests, hresponses, hcallback,
        CallbackWork.held], Or.inr ⟨value, hanswered⟩⟩
  | pushed value hrequests hresponses hheld hanswered =>
      exact ⟨by simp [outstanding, hrequests, hresponses, hheld],
        Or.inr ⟨value, hanswered⟩⟩

/-- What the stages have in common. -/
theorem Stage.paired (h : v.Stage) :
    v.outstanding ≤ 1 ∧ (v.log.requested = v.log.received.map Prod.fst ∧
        v.log.answered = v.log.received ∨
      ∃ request, v.log.requested =
          v.log.received.map Prod.fst ++ [request] ∧
        (v.log.answered = v.log.received ∧ v.outstanding = 1 ∨
          ∃ value, v.log.answered =
            v.log.received ++ [(request, value)])) := by
  cases h with
  | idle hunasked hwork hquiet hrequested hanswered =>
      exact ⟨by simp [hquiet.outstanding], Or.inl ⟨hrequested, hanswered⟩⟩
  | starting request hevaluates houtside hwork hflight hrequested =>
      obtain ⟨hone, hanswer⟩ := hflight.paired
      exact ⟨hone.le, Or.inr ⟨request, hrequested,
        hanswer.imp_left fun heq => ⟨heq, hone⟩⟩⟩
  | waiting request hevaluates houtside hwork hflight hrequested =>
      obtain ⟨hone, hanswer⟩ := hflight.paired
      exact ⟨hone.le, Or.inr ⟨request, hrequested,
        hanswer.imp_left fun heq => ⟨heq, hone⟩⟩⟩
  | finishing request value hevaluates houtside hwork hquiet hrequested
      hanswered =>
      exact ⟨by simp [hquiet.outstanding],
        Or.inr ⟨request, hrequested, Or.inr ⟨value, hanswered⟩⟩⟩
  | answered request value hevaluates houtside hwork hquiet hrequested
      hanswered =>
      exact ⟨by simp [hquiet.outstanding],
        Or.inr ⟨request, hrequested, Or.inr ⟨value, hanswered⟩⟩⟩

end CallbackView

namespace CallbackLoops

variable {ι : Type} [DecidableEq ι] {s : CallbackLoops ι} {i : ι}

theorem paired_of_stage (h : (s.view i).Stage) : s.Paired i := by
  obtain ⟨hone, hlog⟩ := h.paired
  rw [← outstanding_eq] at hone hlog
  have hview : (s.view i).log = s.log i := rfl
  rw [hview] at hlog
  rcases hlog with ⟨hrequested, hanswered⟩ |
    ⟨request, hrequested, ⟨hanswered, hpending⟩ | ⟨value, hanswered⟩⟩
  · exact ⟨hone, by rw [hanswered], by rw [hanswered, hrequested],
      by simp [hrequested], by simp [hanswered, hrequested]⟩
  · exact ⟨hone, by rw [hanswered],
      by rw [hanswered, hrequested]; exact List.prefix_append _ _,
      by simp [hrequested], fun _ => hpending⟩
  · exact ⟨hone, by rw [hanswered]; exact List.prefix_append _ _,
      by rw [hanswered, hrequested, List.map_append]; rfl,
      by simp [hrequested], by simp [hanswered, hrequested]⟩

/-- Every request is paired with its own response: in every state of every
run, whatever the programs, the callbacks and the values they return. -/
theorem always_paired (programs : ι → OpTreeNode × Option Value)
    (errno : Errno) (callbacks : String → Bool)
    (events : List (CallbackEvent ι)) :
    Always event (fun s => ∀ i, s.Paired i) events
      (start programs errno callbacks) := by
  intro before after s _ hrun i
  have hstages : ∀ i, (s.view i).Stage :=
    run_invariant (fun e s t _ hs hstep => stage_event hs hstep)
      (fun _ _ => trivial) (stage_start programs errno callbacks) hrun
  exact paired_of_stage (hstages i)

end CallbackLoops

end NetworkProtocolDsl
