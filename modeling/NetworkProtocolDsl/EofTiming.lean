/-
What is written does not depend on when the threads run.

The input/output thread pushes the chunks and then sets the flag, the callback
thread answers requests, and the interpreter thread does one access at a time.
Where no write meets the flag, no flag overtakes a chunk, and an operation that
reads decides on the bytes at hand as it would on all that are to come, every
run follows the program over its whole input.
-/
import NetworkProtocolDsl.Analyze
import NetworkProtocolDsl.CallbackEvaluation
import NetworkProtocolDsl.ConcurrentEof
import NetworkProtocolDsl.Generate
import NetworkProtocolDsl.StreamProgram

namespace NetworkProtocolDsl

open Run PartsToReadActions PartsToWriteActions

namespace InputOutputOperation

/-- Both contexts evaluate to the same value. -/
def YieldsAlike (operation : InputOutputOperation)
    (ctx ctx' : InputOutputOperationContext) : Prop :=
  ∀ args errno, ∃ value errno',
    operation.apply ctx args errno = .ok ⟨.value value, ctx, errno'⟩ ∧
      operation.apply ctx' args errno = .ok ⟨.value value, ctx', errno'⟩

/-- What the operation decides on this input it decides on all of it, and
where it takes nothing it can be offered the whole later on. -/
def Foresees (operation : InputOutputOperation)
    (ctx : InputOutputOperationContext) (input all : Octets) : Prop :=
  ∀ consumed ctx', operation.handleRead ctx input = .ok (consumed, ctx') →
    (operation.readyToEvaluate ctx' = true →
      ∃ ctx'', operation.handleRead ctx all = .ok (consumed, ctx'') ∧
        operation.YieldsAlike ctx' ctx'') ∧
    (operation.readyToEvaluate ctx' = false → consumed = 0) ∧
    (consumed = 0 → operation.handleRead ctx' all =
      operation.handleRead ctx all)

theorem readyToEvaluate_of_yieldsAlike {operation : InputOutputOperation}
    {ctx ctx' : InputOutputOperationContext}
    (h : operation.YieldsAlike ctx ctx') :
    operation.readyToEvaluate ctx' = true := by
  by_contra hnot
  obtain ⟨value, errno', _, hvalue⟩ := h [] 0
  have hwaits : operation.apply ctx' [] 0 =
      .ok ⟨.blocked .waitingForRead, ctx', 0⟩ :=
    apply_waitingForRead_iff.mpr ⟨Bool.eq_false_iff.mpr hnot, rfl, rfl⟩
  rw [hvalue] at hwaits
  cases hwaits

theorem joinQueue_not_stillBlocked {operation : InputOutputOperation}
    {ctx ctx' : InputOutputOperationContext} {joined : Octets}
    {queue queue' : List Octets} :
    operation.joinQueue ctx joined true queue ≠
      .ok (.stillBlocked, ctx', queue') := by
  induction queue generalizing ctx joined with
  | nil =>
      intro h
      rw [joinQueue] at h
      split at h <;> cases h
  | cons next queue ih =>
      intro h
      rw [joinQueue] at h
      split at h
      · contradiction
      · split at h
        · exact ih h
        · cases h

/-- At the end of the input a reader stays blocked with one chunk that it
cannot use. -/
theorem readQueue_stillBlocked {operation : InputOutputOperation}
    {ctx ctx' : InputOutputOperationContext} {queue queue' : List Octets}
    (h : operation.readQueue ctx true queue =
      .ok (.stillBlocked, ctx', queue')) :
    ∃ buffer, queue = [buffer] ∧
      operation.handleRead ctx buffer = .ok (0, ctx') ∧
      operation.readyToEvaluate ctx' = false := by
  cases queue with
  | nil => cases h
  | cons buffer queue =>
      rw [readQueue] at h
      split at h
      · contradiction
      · rename_i consumed ctx₁ hread
        split at h
        · rename_i hzero
          subst hzero
          cases queue with
          | nil =>
              rw [joinQueue] at h
              split at h
              · cases h
              · rename_i hready
                cases h
                exact ⟨buffer, rfl, hread, Bool.eq_false_iff.mpr hready⟩
          | cons next queue =>
              rw [joinQueue] at h
              split at h
              · contradiction
              · split at h
                · exact absurd h joinQueue_not_stillBlocked
                · cases h
        · cases h

/-- What offering parts of the input has made of a context that waits. -/
structure Offered (operation : InputOutputOperation)
    (ctx ctx' : InputOutputOperationContext) (consumed : Nat)
    (all : Octets) : Prop where
  unread : consumed = 0 →
    operation.handleRead ctx' all = operation.handleRead ctx all
  untouched : all = [] → ctx' = ctx
  waiting : operation.readyToEvaluate ctx' = false → consumed = 0
  yields : operation.readyToEvaluate ctx' = true →
    ∃ ctx'', operation.handleRead ctx all = .ok (consumed, ctx'') ∧
      operation.YieldsAlike ctx' ctx''

theorem Offered.refl {operation : InputOutputOperation}
    {ctx : InputOutputOperationContext}
    (hwaits : operation.readyToEvaluate ctx = false) (all : Octets) :
    operation.Offered ctx ctx 0 all where
  unread _ := rfl
  untouched _ := rfl
  waiting _ := rfl
  yields hready := by
    rw [hwaits] at hready
    contradiction

theorem Offered.offer {operation : InputOutputOperation}
    {ctx ctx₁ ctx₂ : InputOutputOperationContext} {consumed : Nat}
    {input all : Octets} (h : operation.Offered ctx ctx₁ 0 all)
    (hforesees : operation.Foresees ctx₁ input all) (hall : all ≠ [])
    (hread : operation.handleRead ctx₁ input = .ok (consumed, ctx₂)) :
    operation.Offered ctx ctx₂ consumed all := by
  obtain ⟨hready, hwaiting, hunread⟩ := hforesees consumed ctx₂ hread
  rw [h.unread rfl] at hready hunread
  exact ⟨hunread, fun hnil => absurd hnil hall, hwaiting, hready⟩

end InputOutputOperation

namespace Reader

/-- The interpreter that waits with this context. -/
def waiting (r : Reader) (ctx : InputOutputOperationContext) : Interpreter :=
  ⟨r.top ctx (.blocked .waitingForRead), r.base.interpreter.suspended⟩

variable (r : Reader) {ctx ctx' : InputOutputOperationContext}

theorem waiting_step (hwaits : r.operation.readyToEvaluate ctx = false)
    (errno : Errno) :
    (r.waiting ctx).step errno = .ok (.blocked, r.waiting ctx, errno) :=
  r.step_eq [] (.blocked .waitingForRead) hwaits

theorem waiting_handleRead (ctx : InputOutputOperationContext)
    (input : Octets) :
    (r.waiting ctx).handleRead input =
      (r.operation.handleRead ctx input).map fun (consumed, ctx') =>
        (consumed, r.waiting ctx') :=
  r.interpreter_handleRead ctx [] (.blocked .waitingForRead) input

theorem handleRead_waiting {context : InterpreterContext}
    (hrunning : context.exited = false)
    (h : context.interpreter = r.waiting ctx) :
    context.handleRead =
      (r.operation.readQueue ctx context.eof context.inputBuffer).map
        fun (report, ctx', queue') => (report, { context with
          interpreter := r.waiting ctx'
          inputBuffer := queue' }) := by
  let r' : Reader := { r with base := context, running := hrunning }
  have hwaiting : ∀ ctx, r'.waiting ctx = r.waiting ctx := by
    intro ctx
    simp only [waiting, top, r', h]
    rfl
  have hcontext : r'.context ctx context.inputBuffer
      (.blocked .waitingForRead) = context := by
    have hinterpreter := (hwaiting ctx).trans h.symm
    change { context with interpreter := r'.waiting ctx } = context
    rw [hinterpreter]
  have hread := r'.handleRead_eq ctx context.inputBuffer
    (.blocked .waitingForRead)
  rw [hcontext] at hread
  rw [hread]
  change (r.operation.readQueue ctx context.eof context.inputBuffer).map _ = _
  congr 1
  funext answer
  change (answer.1, { context with
    interpreter := r'.waiting answer.2.1
    inputBuffer := answer.2.2 }) = _
  rw [hwaiting]

/-- A value takes the frame with its context off the stack. -/
theorem top_step_of_value {value : Value} {errno errno' : Errno}
    (h : r.operation.apply ctx r.accumulator errno =
      .ok ⟨.value value, ctx, errno'⟩) :
    (r.waiting ctx).top.step errno =
      match r.frames with
      | [] => .ok (.exited, { r.base.interpreter.top with
          stack := [], result := .value value }, errno')
      | parent :: frames => .ok (.ready, { r.base.interpreter.top with
          stack := parent.pushBack value :: frames
          result := .value value }, errno') := by
  rw [waiting, Continuation.step, prepare_top]
  cases hframes : r.frames <;>
    simp [Continuation.executeTop, top, frame, ExecutionStackFrame.execute,
      OpTreeNode.operation, h, Except.map, hframes]

theorem waiting_step_alike (h : r.operation.YieldsAlike ctx ctx')
    (errno : Errno) :
    (r.waiting ctx).step errno = (r.waiting ctx').step errno := by
  obtain ⟨value, errno', hctx, hctx'⟩ := h r.accumulator errno
  simp only [Interpreter.step, r.top_step_of_value hctx,
    r.top_step_of_value hctx']
  rfl

theorem waiting_step_not_blocked (h : r.operation.YieldsAlike ctx ctx')
    {errno errno' : Errno} {interpreter : Interpreter} :
    (r.waiting ctx).step errno ≠ .ok (.blocked, interpreter, errno') := by
  intro hblocked
  obtain ⟨value, errno'', hctx, _⟩ := h r.accumulator errno
  have htop := (Interpreter.step_blocked hblocked).1
  rw [r.top_step_of_value hctx] at htop
  split at htop <;> cases htop

/-- A step that waits for input leaves the operation that reads on top. -/
theorem exists_waiting {i i' : Interpreter} {errno errno' : Errno}
    (h : i.step errno = .ok (.blocked, i', errno'))
    (hresult : i'.getResult = .blocked .waitingForRead) :
    ∃ (r : Reader) (ctx : InputOutputOperationContext), i' = r.waiting ctx ∧
      errno' = errno ∧ r.operation.readyToEvaluate ctx = false := by
  obtain ⟨operation, children, accumulator, ctx, frames, hprepare, harity,
    hwaits⟩ := Continuation.step_waitingForRead (Interpreter.step_blocked h).1
      hresult
  let r : Reader := ⟨operation, children, accumulator, frames,
    { interpreter := i }, harity, rfl⟩
  have hstep : i.step errno =
      Interpreter.step ⟨r.top ctx i.top.result, i.suspended⟩ errno := by
    simp only [Interpreter.step, Continuation.step_eq_of_prepare hprepare]
    rfl
  have hwaiting : Interpreter.step ⟨r.top ctx i.top.result, i.suspended⟩
      errno = .ok (.blocked, r.waiting ctx, errno) :=
    r.step_eq [] i.top.result hwaits
  rw [hstep, hwaiting] at h
  obtain ⟨_, hpair⟩ := Prod.mk.inj (Except.ok.inj h)
  obtain ⟨rfl, rfl⟩ := Prod.mk.inj hpair
  exact ⟨r, ctx, rfl, rfl, hwaits⟩

end Reader

/-- An evaluation that waits for the value of its callback goes on waiting. -/
theorem Continuation.step_waitingCallbackData {c c' : Continuation}
    {errno errno' : Errno} (h : c.step errno = .ok (.blocked, c', errno'))
    (hresult : c'.result = .blocked .waitingCallbackData) :
    c'.step errno' = .ok (.blocked, c', errno') := by
  cases hprepare : c.prepare with
  | error fault => simp [step, hprepare] at h
  | ok answer =>
      obtain ⟨state, prepared⟩ := answer
      rcases prepare_ready hprepare with
        ⟨_, rfl, _⟩ | ⟨frame, frames, rfl, rfl, hready⟩
      · simp [step, hprepare] at h
      · simp only [step, hprepare, executeTop] at h
        split at h
        · contradiction
        · rename_i hexecute
          simp only [Except.ok.injEq, Prod.mk.injEq, true_and] at h
          obtain ⟨rfl, rfl⟩ := h
          obtain rfl := OperationResult.blocked.inj hresult
          rcases ExecutionStackFrame.execute_callback hexecute with
            ⟨key, hkey⟩ | hno
          · obtain ⟨ctx, hctx, heq⟩ :=
              ExecutionStackFrame.execute_unaryCallback hkey hexecute
            simp only [Execution.mk.injEq] at heq
            obtain ⟨happly, rfl, rfl, rfl⟩ := heq
            have hframe : { frame with ctx := .callback ctx } = frame := by
              rw [← hctx]
            rw [hframe]
            have hself : Continuation.prepare { c with
                stack := frame :: frames
                result := .blocked .waitingCallbackData } =
                .ok (.ready, { c with
                  stack := frame :: frames
                  result := .blocked .waitingCallbackData }) :=
              prepare_of_ready rfl hready
            simp only [step, hself, executeTop, hexecute, hframe]
          · exact absurd rfl hno.2
        · split at h <;> simp at h

theorem Interpreter.step_waitingCallbackData {i i' : Interpreter}
    {errno errno' : Errno} (h : i.step errno = .ok (.blocked, i', errno'))
    (hresult : i'.getResult = .blocked .waitingCallbackData) :
    i'.step errno' = .ok (.blocked, i', errno') := by
  have hresult' : i'.top.result = .blocked .waitingCallbackData := hresult
  have htop := Continuation.step_waitingCallbackData (step_blocked h).1 hresult
  simp only [step, htop, hresult']

/-- What the threads of one connection do. -/
inductive ThreadEvent where
  | chunk (data : Octets)
  | endOfInput
  | answer
  | pass

/-- A connection and the state of the application that answers it. -/
structure Served (γ : Type) where
  connection : ConcurrentState
  application : γ

namespace ConcurrentState

/-- What was pushed to the output buffer. -/
def written (s : ConcurrentState) : Octets :=
  s.context.outputBuffer.flatten

/-- The result, if the interpreter has exited. -/
def outcome (s : ConcurrentState) : Option (Option Value) :=
  if s.context.exited then some s.context.interpreterResult else none

/-- The bytes at hand and those that did not arrive yet. -/
def toCome (stream : Octets) (s : ConcurrentState) : Octets :=
  s.phase.held ++ s.context.inputBuffer.flatten ++
    stream.drop s.pushed.length

/-- The next step of the thread is `handle_write`. -/
def HandlesWrite (s : ConcurrentState) : Prop :=
  s.phase.isOutside = true ∧ s.context.exited = false ∧
    ∃ interpreter errno,
      s.context.interpreter.step s.errno =
          .ok (.blocked, interpreter, errno) ∧
        interpreter.getResult = .blocked .waitingForWrite

/-- The thread offers an operation no bytes on which it decides otherwise than
on all of the stream. -/
def OffersEnough (stream : Octets) (s : ConcurrentState) : Prop :=
  ∀ joined didJoin operation ctx, s.phase = .offering joined didJoin →
    s.context.interpreter.top.inputOutput? = some (operation, ctx) →
    operation.Foresees ctx joined (s.toCome stream)

end ConcurrentState

namespace Served

variable {γ : Type} (app : Application γ)

def start (optree : OpTreeNode) (arglist : Option Value) (errno : Errno)
    (application : γ) : Served γ :=
  ⟨.start optree arglist errno, application⟩

/-- The callback thread pops a request, calls, and pushes the response. -/
def answer (s : Served γ) : Served γ :=
  let context := s.connection.context
  match context.callbackRequestQueue with
  | [] => s
  | request :: queue =>
      let (value, application) := app s.application request
      ⟨{ s.connection with
          context := { context with
            callbackRequestQueue := queue
            callbackResponseQueue :=
              context.callbackResponseQueue ++ [value] } }, application⟩

def event : ThreadEvent → Served γ → Except Fault (Served γ)
  | .chunk data, s =>
      (ConcurrentState.event (.chunk data) s.connection).map
        fun connection => { s with connection := connection }
  | .endOfInput, s =>
      (ConcurrentState.event .endOfInput s.connection).map
        fun connection => { s with connection := connection }
  | .answer, s => .ok (s.answer app)
  | .pass, s =>
      s.connection.threadStep.map
        fun connection => { s with connection := connection }

/-- The input/output thread pushes the stream, in chunks that are not empty,
and then sets the flag. -/
def Delivers (stream : Octets) (event : ThreadEvent) (s : Served γ) : Prop :=
  match event with
  | .chunk data => data ≠ [] ∧ s.connection.pushed ++ data <+: stream
  | .endOfInput => s.connection.pushed = stream
  | _ => True

instance (stream : Octets) (event : ThreadEvent) (s : Served γ) :
    Decidable (Delivers stream event s) := by
  cases event <;> dsimp only [Delivers] <;> infer_instance

/-- No write meets the flag, no flag overtakes a chunk, and no operation is
offered too little to decide. -/
def Timely (stream : Octets) (event : ThreadEvent) (s : Served γ) : Prop :=
  match event with
  | .pass =>
      (s.connection.HandlesWrite → s.connection.context.eof = false) ∧
        s.connection.EofAfterData ∧ s.connection.OffersEnough stream
  | _ => True

/-- The run has come to its end: the interpreter has exited, or all was
delivered and answered and the interpreter is still blocked. -/
def AtRest (stream : Octets) (s : Served γ) : Prop :=
  s.connection.context.exited = true ∨
    s.connection.phase.isOutside = true ∧ s.connection.pushed = stream ∧
      s.connection.context.eof = true ∧
      s.connection.context.callbackRequestQueue = [] ∧
      RunnerState.Settled ⟨s.connection.context, s.connection.errno⟩

end Served

/-- What holds of the queue and the flag in every run that delivers the
stream. -/
structure Received (stream : Octets) (s : ConcurrentState) : Prop where
  pushed : s.pushed <+: stream
  complete : s.context.eof = true → s.pushed = stream
  chunks : ∀ chunk ∈ s.context.inputBuffer, chunk ≠ []
  held : s.phase.held = [] → s.phase.isOutside = true ∨ s.phase = .popping ∨
    s.phase = .loading

namespace Received

variable {stream : Octets} {s t : ConcurrentState}

theorem held_ne_nil (hs : Received stream s)
    (houtside : s.phase.isOutside = false) (hpopping : s.phase ≠ .popping)
    (hloading : s.phase ≠ .loading) : s.phase.held ≠ [] := by
  intro hheld
  rcases hs.held hheld with h | h | h
  · rw [houtside] at h
    contradiction
  · exact hpopping h
  · exact hloading h

theorem offer {joined : Octets} {didJoin : Bool} (hs : Received stream s)
    (hne : joined ≠ []) (h : s.offer joined didJoin = .ok t) :
    Received stream t := by
  unfold ConcurrentState.offer at h
  split at h
  · contradiction
  · rename_i consumed interpreter hread
    obtain rfl := Except.ok.inj h
    refine ⟨hs.pushed, hs.complete, hs.chunks, ?_⟩
    simp only
    split
    · intro hheld
      exact absurd hheld hne
    · split
      · rename_i hlt
        intro hheld
        have hlength := congrArg List.length hheld
        simp only [ReadPhase.held, List.length_drop, List.length_nil]
          at hlength
        omega
      · intro _
        exact Or.inl rfl

theorem threadStep (hs : Received stream s) (h : s.threadStep = .ok t) :
    Received stream t := by
  unfold ConcurrentState.threadStep at h
  split at h
  · rcases ConcurrentState.stepOutside_cases h with ⟨_, _, rfl⟩ |
      ⟨_, _, _, rfl, hbuffer, heof⟩
    · exact ⟨hs.pushed, hs.complete, hs.chunks, fun _ => Or.inr (Or.inl rfl)⟩
    · exact ⟨hs.pushed, by rw [heof]; exact hs.complete,
        by rw [hbuffer]; exact hs.chunks, fun _ => Or.inl rfl⟩
  · split at h <;> rename_i hbuffer <;> obtain rfl := Except.ok.inj h
    · have hchunks := hs.chunks
      rw [hbuffer] at hchunks
      obtain ⟨hne, hqueue⟩ := List.forall_mem_cons.mp hchunks
      exact ⟨hs.pushed, hs.complete, hqueue, fun hheld => absurd hheld hne⟩
    · exact ⟨hs.pushed, hs.complete, hs.chunks, fun _ => Or.inr (Or.inr rfl)⟩
  · split at h <;> obtain rfl := Except.ok.inj h <;>
      exact ⟨hs.pushed, hs.complete, hs.chunks, fun _ => Or.inl rfl⟩
  · rename_i joined didJoin hphase
    have hne : joined ≠ [] := by
      simpa [hphase, ReadPhase.isOutside, ReadPhase.held] using hs.held_ne_nil
    exact hs.offer hne h
  · rename_i joined didJoin hphase
    have hne : joined ≠ [] := by
      simpa [hphase, ReadPhase.isOutside, ReadPhase.held] using hs.held_ne_nil
    split at h <;> rename_i hbuffer <;> obtain rfl := Except.ok.inj h
    · have hchunks := hs.chunks
      rw [hbuffer] at hchunks
      exact ⟨hs.pushed, hs.complete, (List.forall_mem_cons.mp hchunks).2,
        fun hheld => absurd (List.append_eq_nil_iff.mp hheld).1 hne⟩
    · exact ⟨hs.pushed, hs.complete, hs.chunks, fun hheld => absurd hheld hne⟩
  · rename_i joined didJoin hphase
    have hne : joined ≠ [] := by
      simpa [hphase, ReadPhase.isOutside, ReadPhase.held] using hs.held_ne_nil
    obtain rfl := Except.ok.inj h
    exact ⟨hs.pushed, hs.complete,
      List.forall_mem_cons.mpr ⟨hne, hs.chunks⟩, fun _ => Or.inl rfl⟩
  · rename_i rest hphase
    have hne : rest ≠ [] := by
      simpa [hphase, ReadPhase.isOutside, ReadPhase.held] using hs.held_ne_nil
    obtain rfl := Except.ok.inj h
    exact ⟨hs.pushed, hs.complete,
      List.forall_mem_cons.mpr ⟨hne, hs.chunks⟩, fun _ => Or.inl rfl⟩

end Received

section Following

variable {γ : Type} {app : Application γ} {stream : Octets} {s t : Served γ}
  {c : StreamState γ}

/-- What a connection shares with the program over its whole input. -/
structure Shares (app : Application γ) (s : Served γ) (c : StreamState γ) :
    Prop where
  written : s.connection.written = c.written
  answers : c.answers = s.connection.context.callbackResponseQueue ++
    (app.answers s.application s.connection.context.callbackRequestQueue).1
  application : c.application =
    (app.answers s.application s.connection.context.callbackRequestQueue).2

/-- Both wait for input, and of what the program will be given the connection
was offered some. -/
structure Waits (app : Application γ) (stream : Octets) (s : Served γ)
    (c : StreamState γ) (r : Reader) (ctx ctx' : InputOutputOperationContext)
    (consumed : Nat) : Prop where
  shares : Shares app s c
  running : s.connection.context.exited = false
  outcome : c.outcome = none
  blocked : c.interpreter.step c.errno =
    .ok (.blocked, r.waiting ctx, c.errno)
  waits : r.operation.readyToEvaluate ctx = false
  interpreter : s.connection.context.interpreter = r.waiting ctx'
  errno : s.connection.errno = c.errno
  offered : r.operation.Offered ctx ctx' consumed c.rest
  toCome : s.connection.toCome stream = c.rest.drop consumed

/-- A connection that is as far as the program over its whole input: both have
exited, both step alike, or both wait for input, of which the connection may
have read already what the program will. -/
inductive Follows (app : Application γ) (stream : Octets) (s : Served γ)
    (c : StreamState γ) : Prop
  | exited (hshares : Shares app s c)
      (houtside : s.connection.phase.isOutside = true)
      (hexited : s.connection.context.exited = true)
      (houtcome : c.outcome = some s.connection.context.interpreterResult)
  | between (hshares : Shares app s c)
      (houtside : s.connection.phase.isOutside = true)
      (hrunning : s.connection.context.exited = false)
      (houtcome : c.outcome = none)
      (hstep : s.connection.context.interpreter.step s.connection.errno =
        c.interpreter.step c.errno)
      (hrest : s.connection.toCome stream = c.rest)
  | reading (r : Reader) (ctx ctx' : InputOutputOperationContext)
      (consumed : Nat) (hwaits : Waits app stream s c r ctx ctx' consumed)
      (hphase : consumed = 0 ∨ s.connection.phase.isOutside = true ∨
        ∃ rest, s.connection.phase = .pushingRest rest)

theorem Follows.shares (h : Follows app stream s c) : Shares app s c := by
  cases h with
  | exited hshares => exact hshares
  | between hshares => exact hshares
  | reading _ _ _ _ hwaits => exact hwaits.shares

theorem Follows.outcome (h : Follows app stream s c) :
    s.connection.outcome = c.outcome := by
  unfold ConcurrentState.outcome
  cases h with
  | exited _ _ hexited houtcome => rw [if_pos hexited, houtcome]
  | between _ _ hrunning houtcome =>
      rw [if_neg (by simp [hrunning]), houtcome]
  | reading _ _ _ _ hwaits =>
      rw [if_neg (by simp [hwaits.running]), hwaits.outcome]

section Waits

variable {r : Reader} {ctx ctx' : InputOutputOperationContext} {consumed : Nat}

/-- An operation that has read goes on with the program that reads all. -/
theorem Waits.of_ready (h : Waits app stream s c r ctx ctx' consumed)
    (hready : r.operation.readyToEvaluate ctx' = true) :
    ∃ c', c.step app = .ok c' ∧ c'.outcome = none ∧
      Shares app s c' ∧
      s.connection.context.interpreter.step s.connection.errno =
        c'.interpreter.step c'.errno ∧
      s.connection.toCome stream = c'.rest := by
  obtain ⟨ctx'', hread, halike⟩ := h.offered.yields hready
  have hne : c.rest ≠ [] := by
    intro hnil
    rw [h.offered.untouched hnil, h.waits] at hready
    contradiction
  refine ⟨{ c with interpreter := r.waiting ctx''
                   rest := c.rest.drop consumed }, ?_, h.outcome,
    ⟨h.shares.written, h.shares.answers, h.shares.application⟩, ?_, h.toCome⟩
  · have hready'' : (r.waiting ctx'').top.readyToEvaluate = true :=
      InputOutputOperation.readyToEvaluate_of_yieldsAlike halike
    have hresult : (r.waiting ctx).getResult = .blocked .waitingForRead := rfl
    simp only [StreamState.step, h.outcome, Option.isSome_none,
      Bool.false_eq_true, ↓reduceIte, h.blocked, StreamState.unblock, hresult,
      StreamState.read, hne, r.waiting_handleRead, hread, Except.map, hready'']
  · rw [h.interpreter, h.errno]
    exact r.waiting_step_alike halike c.errno

/-- The thread moves bytes between the queue and its hands. -/
theorem Waits.moves (h : Waits app stream s c r ctx ctx' consumed)
    {phase : ReadPhase} {queue : List Octets}
    (hphase : consumed = 0 ∨ phase.isOutside = true ∨
      ∃ rest, phase = .pushingRest rest)
    (hbytes : phase.held ++ queue.flatten = s.connection.phase.held ++
      s.connection.context.inputBuffer.flatten) :
    Follows app stream { s with connection := { s.connection with
      context := { s.connection.context with inputBuffer := queue }
      phase := phase } } c := by
  refine .reading r ctx ctx' consumed ⟨⟨h.shares.written, h.shares.answers,
    h.shares.application⟩, h.running, h.outcome, h.blocked, h.waits,
    h.interpreter, h.errno, h.offered, ?_⟩ hphase
  rw [← h.toCome]
  simp only [ConcurrentState.toCome, hbytes]

/-- The end of the input is delivered to the operation, as the program delivers
it: nothing is to come. -/
theorem Waits.handleEof (h : Waits app stream s c r ctx ctx' 0)
    (hloading : s.connection.phase = .loading)
    (hbuffer : s.connection.context.inputBuffer = [])
    (hpushed : s.connection.pushed = stream) :
    ∃ c', c.step app = .ok c' ∧
      Follows app stream { s with connection := { s.connection with
        context := { s.connection.context with
          interpreter := s.connection.context.interpreter.handleEof }
        phase := .outside (.blocked .unblocked) } } c' := by
  have hrest := h.toCome
  simp only [ConcurrentState.toCome, hloading, ReadPhase.held] at hrest
  have hnil : c.rest = [] := by
    rw [hbuffer, hpushed] at hrest
    simpa using hrest.symm
  obtain rfl := h.offered.untouched hnil
  have hresult : (r.waiting ctx').getResult = .blocked .waitingForRead := rfl
  have hc : c.step app = .ok { c with
      interpreter := (r.waiting ctx').handleEof } := by
    simp only [StreamState.step, h.outcome, Option.isSome_none,
      Bool.false_eq_true, ↓reduceIte, h.blocked, StreamState.unblock, hresult,
      StreamState.read, hnil]
  refine ⟨_, hc, .between
    ⟨h.shares.written, h.shares.answers, h.shares.application⟩ rfl h.running
    h.outcome ?_ hrest⟩
  simp only [h.interpreter, h.errno]

/-- The operation is offered bytes on which it decides as on all of them. -/
theorem Waits.offer (h : Waits app stream s c r ctx ctx' 0) {joined : Octets}
    {didJoin : Bool} (hoffering : s.connection.phase = .offering joined didJoin)
    (hne : joined ≠ []) (hoffers : s.connection.OffersEnough stream)
    {connection : ConcurrentState}
    (hstep : s.connection.offer joined didJoin = .ok connection) :
    Follows app stream { s with connection := connection } c := by
  have hforesees := hoffers joined didJoin r.operation ctx' hoffering
    (by rw [h.interpreter]; rfl)
  rw [h.toCome, List.drop_zero] at hforesees
  have hrest := h.toCome
  simp only [ConcurrentState.toCome, hoffering, ReadPhase.held,
    List.drop_zero] at hrest
  have hall : c.rest ≠ [] := by
    rw [← hrest]
    simp [hne]
  unfold ConcurrentState.offer at hstep
  split at hstep
  · contradiction
  · rename_i count interpreter hread
    obtain rfl := Except.ok.inj hstep
    rw [h.interpreter, r.waiting_handleRead] at hread
    obtain ⟨⟨count', ctx''⟩, hhandle, heq⟩ := map_eq_ok hread
    obtain ⟨rfl, rfl⟩ := Prod.mk.inj heq
    have hle := InputOutputOperation.handleRead_le hhandle
    refine .reading r ctx ctx'' count' ⟨⟨h.shares.written, h.shares.answers,
      h.shares.application⟩, h.running, h.outcome, h.blocked, h.waits, rfl,
      h.errno, h.offered.offer hforesees hall hhandle, ?_⟩ ?_
    · rw [← hrest, List.append_assoc, List.drop_append_of_le_length hle,
        ← List.append_assoc]
      simp only [ConcurrentState.toCome]
      congr 2
      split
      · rename_i hcount
        rw [hcount]
        rfl
      · split
        · rfl
        · exact (List.drop_of_length_le (by omega)).symm
    · simp only
      split
      · exact Or.inl ‹_›
      · right
        split
        · exact Or.inr ⟨_, rfl⟩
        · exact Or.inl rfl

/-- A step inside of `handle_read` is none of the program's, until the end of
the input is delivered. -/
theorem Waits.read (h : Waits app stream s c r ctx ctx' consumed)
    (hphase : consumed = 0 ∨ s.connection.phase.isOutside = true ∨
      ∃ rest, s.connection.phase = .pushingRest rest)
    (hreceived : Received stream s.connection)
    (htimely : Served.Timely stream .pass s)
    (hinside : s.connection.phase.isOutside = false)
    {connection : ConcurrentState}
    (hstep : s.connection.threadStep = .ok connection) :
    ∃ c', Reaches (StreamState.step app) c c' ∧
      Follows app stream { s with connection := connection } c' := by
  obtain ⟨_, heof, hoffers⟩ := htimely
  -- only what is left of the bytes may still be put back
  have hzero : (∀ rest, s.connection.phase ≠ .pushingRest rest) →
      consumed = 0 := by
    intro hnot
    rcases hphase with hzero | houtside | ⟨rest, hpushing⟩
    · exact hzero
    · rw [hinside] at houtside
      contradiction
    · exact absurd hpushing (hnot rest)
  unfold ConcurrentState.threadStep at hstep
  cases hs : s.connection.phase with
  | outside progress =>
      rw [hs] at hinside
      contradiction
  | popping =>
      simp only [hs] at hstep
      obtain rfl := hzero (by simp [hs])
      split at hstep <;> rename_i hbuffer <;> obtain rfl := Except.ok.inj hstep
      · exact ⟨c, Reaches.refl c, h.moves (Or.inl rfl)
          (by simp [hs, hbuffer, ReadPhase.held])⟩
      · exact ⟨c, Reaches.refl c, h.moves (Or.inl rfl)
          (by simp [hs, ReadPhase.held])⟩
  | loading =>
      simp only [hs] at hstep
      obtain rfl := hzero (by simp [hs])
      split at hstep <;> rename_i hflag <;> obtain rfl := Except.ok.inj hstep
      · obtain ⟨c', hc, hfollows⟩ := h.handleEof hs (heof ⟨hs, hflag⟩)
          (hreceived.complete hflag)
        exact ⟨c', Reaches.single hc, hfollows⟩
      · exact ⟨c, Reaches.refl c, h.moves (Or.inl rfl)
          (by simp [hs, ReadPhase.held])⟩
  | offering joined didJoin =>
      simp only [hs] at hstep
      obtain rfl := hzero (by simp [hs])
      have hne : joined ≠ [] := by
        simpa [hs, ReadPhase.isOutside, ReadPhase.held] using
          hreceived.held_ne_nil
      exact ⟨c, Reaches.refl c, h.offer hs hne hoffers hstep⟩
  | joining joined didJoin =>
      simp only [hs] at hstep
      obtain rfl := hzero (by simp [hs])
      split at hstep <;> rename_i hbuffer <;> obtain rfl := Except.ok.inj hstep
      · exact ⟨c, Reaches.refl c, h.moves (Or.inl rfl)
          (by simp [hs, hbuffer, ReadPhase.held])⟩
      · exact ⟨c, Reaches.refl c, h.moves (Or.inl rfl)
          (by simp [hs, ReadPhase.held])⟩
  | pushingBack joined didJoin | pushingRest rest =>
      simp only [hs] at hstep
      obtain rfl := Except.ok.inj hstep
      exact ⟨c, Reaches.refl c, h.moves (Or.inr (Or.inl rfl))
        (by simp [hs, ReadPhase.held])⟩

end Waits

theorem held_of_outside {s : ConcurrentState}
    (h : s.phase.isOutside = true) : s.phase.held = [] := by
  cases hphase : s.phase <;> simp_all [ReadPhase.isOutside, ReadPhase.held]

/-- A pass over a blocked interpreter that does not wait for input gives it
what the program would get, or leaves it waiting for the callback. -/
theorem Follows.handleBlocked (hshares : Shares app s c)
    (hrunning : s.connection.context.exited = false)
    (houtcome : c.outcome = none) {interpreter : Interpreter} {errno : Errno}
    (hs : s.connection.context.interpreter.step s.connection.errno =
      .ok (.blocked, interpreter, errno))
    (hc : c.interpreter.step c.errno = .ok (.blocked, interpreter, errno))
    (hread : interpreter.getResult ≠ .blocked .waitingForRead)
    (hwrite : interpreter.getResult = .blocked .waitingForWrite →
      s.connection.context.eof = false)
    (hrest : s.connection.toCome stream = c.rest)
    (hheld : s.connection.phase.held = [])
    {result : HandleBlockedResult} {context : InterpreterContext}
    (h : { s.connection.context with
      interpreter := interpreter }.handleBlockedInterpreter =
        .ok (result, context)) :
    ∃ c', Reaches (StreamState.step app) c c' ∧
      Follows app stream { s with connection := { s.connection with
        context := context
        errno := errno
        phase := .outside (.blocked result) } } c' := by
  obtain ⟨hwritten, hanswers, happlication⟩ := hshares
  simp only [ConcurrentState.toCome, hheld] at hrest
  have hstep : c.step app = c.unblock app interpreter errno := by
    rw [StreamState.step, if_neg (by simp [houtcome]), hc]
  unfold InterpreterContext.handleBlockedInterpreter at h
  split at h
  · rename_i hresult
    exact absurd hresult hread
  · rename_i hresult
    have heof := hwrite hresult
    change interpreter.getResult = _ at hresult
    rw [StreamState.unblock, hresult] at hstep
    simp only [InterpreterContext.handleWrite, heof, Bool.false_eq_true,
      ↓reduceIte] at h
    obtain ⟨rfl, rfl⟩ := Prod.mk.inj (Except.ok.inj h)
    refine ⟨_, Reaches.single hstep, .between ⟨?_, hanswers, happlication⟩ rfl
      hrunning houtcome rfl hrest⟩
    simp only [ConcurrentState.written] at hwritten
    simp [ConcurrentState.written, StreamState.write, hwritten]
  · rename_i hresult
    change interpreter.getResult = _ at hresult
    rw [StreamState.unblock, hresult] at hstep
    obtain ⟨rfl, rfl⟩ := Prod.mk.inj (Except.ok.inj h)
    refine ⟨_, Reaches.single hstep, .between ⟨hwritten, ?_, ?_⟩ rfl
      hrunning houtcome rfl hrest⟩
    · simp [StreamState.call, app.answers_append, Application.answers,
        hanswers, happlication]
    · simp [StreamState.call, app.answers_append, Application.answers,
        happlication]
  · rename_i hresult
    change interpreter.getResult = _ at hresult
    rw [StreamState.unblock, hresult] at hstep
    unfold InterpreterContext.handleFinishCallback at h
    split at h
    · rename_i hresponses
      obtain ⟨rfl, rfl⟩ := Prod.mk.inj (Except.ok.inj h)
      have hagain := Interpreter.step_waitingCallbackData hs hresult
      exact ⟨c, Reaches.refl c, .between ⟨hwritten, hanswers, happlication⟩ rfl
        hrunning houtcome (hagain.trans hc.symm) hrest⟩
    · rename_i value queue hresponses
      change s.connection.context.callbackResponseQueue = _ at hresponses
      obtain ⟨rfl, rfl⟩ := Prod.mk.inj (Except.ok.inj h)
      rw [hresponses, List.cons_append] at hanswers
      rw [StreamState.answer, hanswers] at hstep
      exact ⟨_, Reaches.single hstep, .between ⟨hwritten, rfl, happlication⟩
        rfl hrunning houtcome rfl hrest⟩
  · rename_i hwrites hcalls hanswersData
    obtain ⟨rfl, rfl⟩ := Prod.mk.inj (Except.ok.inj h)
    have hother : c.unblock app interpreter errno =
        .ok { c with interpreter := interpreter, errno := errno } := by
      unfold StreamState.unblock
      split
      · contradiction
      · contradiction
      · contradiction
      · contradiction
      · rfl
    exact ⟨_, Reaches.single (hstep.trans hother), .between
      ⟨hwritten, hanswers, happlication⟩ rfl hrunning houtcome rfl hrest⟩

/-- A step outside of `handle_read` is one of the program, or none. -/
theorem Follows.stepOutside (hshares : Shares app s c)
    (houtside : s.connection.phase.isOutside = true)
    (hrunning : s.connection.context.exited = false)
    (houtcome : c.outcome = none)
    (hstep : s.connection.context.interpreter.step s.connection.errno =
      c.interpreter.step c.errno)
    (hrest : s.connection.toCome stream = c.rest)
    (hwrites : s.connection.HandlesWrite → s.connection.context.eof = false)
    {connection : ConcurrentState}
    (h : s.connection.stepOutside = .ok connection) :
    ∃ c', Reaches (StreamState.step app) c c' ∧
      Follows app stream { s with connection := connection } c' := by
  have hheld := held_of_outside houtside
  have hafter := hrest
  simp only [ConcurrentState.toCome, hheld] at hafter
  rw [ConcurrentState.stepOutside, if_neg (by simp [hrunning])] at h
  unfold InterpreterContext.pass at h
  rw [if_neg (by simp [hrunning])] at h
  cases hs : s.connection.context.interpreter.step s.connection.errno with
  | error fault =>
      rw [hs] at h
      contradiction
  | ok outcome =>
      obtain ⟨state, interpreter, errno⟩ := outcome
      rw [hs] at hstep h
      cases state with
      | missingArguments =>
          have hc : c.step app =
              .ok { c with interpreter := interpreter, errno := errno } := by
            rw [StreamState.step, if_neg (by simp [houtcome]), ← hstep]
          obtain rfl := Except.ok.inj h
          exact ⟨_, Reaches.single hc, .between
            ⟨hshares.written, hshares.answers, hshares.application⟩ rfl
            hrunning houtcome rfl hafter⟩
      | ready =>
          have hc : c.step app =
              .ok { c with interpreter := interpreter, errno := errno } := by
            rw [StreamState.step, if_neg (by simp [houtcome]), ← hstep]
          obtain rfl := Except.ok.inj h
          exact ⟨_, Reaches.single hc, .between
            ⟨hshares.written, hshares.answers, hshares.application⟩ rfl
            hrunning houtcome rfl hafter⟩
      | exited =>
          refine ⟨_, Reaches.single (by
            rw [StreamState.step, if_neg (by simp [houtcome]), ← hstep]), ?_⟩
          obtain rfl := Except.ok.inj h
          exact .exited
            ⟨hshares.written, hshares.answers, hshares.application⟩ rfl rfl rfl
      | blocked =>
          by_cases hresult : interpreter.getResult = .blocked .waitingForRead
          · obtain ⟨r, ctx, rfl, rfl, hwaits⟩ :=
              Reader.exists_waiting hstep.symm hresult
            simp only [hresult] at h
            obtain rfl := Except.ok.inj h
            exact ⟨c, Reaches.refl c, .reading r ctx ctx 0
              ⟨⟨hshares.written, hshares.answers, hshares.application⟩,
                hrunning, houtcome, hstep.symm, hwaits, rfl, rfl,
                InputOutputOperation.Offered.refl hwaits _, hafter⟩
              (Or.inl rfl)⟩
          · have hwrite : interpreter.getResult = .blocked .waitingForWrite →
                s.connection.context.eof = false := fun hwaiting =>
              hwrites ⟨houtside, hrunning, interpreter, errno, hs, hwaiting⟩
            have hpass : (({ s.connection.context with
                interpreter := interpreter }.handleBlockedInterpreter).map
                  fun (handled : HandleBlockedResult × InterpreterContext) =>
                  { s.connection with
                    context := handled.2
                    errno := errno
                    phase := .outside (.blocked handled.1) }) =
                .ok connection := by
              simp only at h
              rw [← h]
              cases { s.connection.context with
                interpreter := interpreter }.handleBlockedInterpreter <;> rfl
            obtain ⟨⟨result, context⟩, hblocked, rfl⟩ := map_eq_ok hpass
            exact Follows.handleBlocked hshares hrunning houtcome hs
              hstep.symm hresult hwrite hrest hheld hblocked

theorem threadStep_of_outside {s : ConcurrentState}
    (h : s.phase.isOutside = true) : s.threadStep = s.stepOutside := by
  unfold ConcurrentState.threadStep
  cases hphase : s.phase <;> simp_all [ReadPhase.isOutside]

/-- A step of the interpreter thread. -/
theorem Follows.pass (hfollows : Follows app stream s c)
    (hreceived : Received stream s.connection)
    (htimely : Served.Timely stream .pass s) {connection : ConcurrentState}
    (h : s.connection.threadStep = .ok connection) :
    ∃ c', Reaches (StreamState.step app) c c' ∧
      Follows app stream { s with connection := connection } c' := by
  cases hfollows with
  | exited hshares houtside hexited houtcome =>
      rw [threadStep_of_outside houtside, ConcurrentState.stepOutside,
        if_pos hexited, InterpreterContext.pass, if_pos hexited] at h
      obtain rfl := Except.ok.inj h
      exact ⟨c, Reaches.refl c, .exited
        ⟨hshares.written, hshares.answers, hshares.application⟩ rfl hexited
        houtcome⟩
  | between hshares houtside hrunning houtcome hstep hrest =>
      rw [threadStep_of_outside houtside] at h
      exact Follows.stepOutside hshares houtside hrunning houtcome hstep hrest
        htimely.1 h
  | reading r ctx ctx' consumed hwaits hphase =>
      cases hside : s.connection.phase.isOutside with
      | false => exact hwaits.read hphase hreceived htimely hside h
      | true =>
          rw [threadStep_of_outside hside] at h
          cases hready : r.operation.readyToEvaluate ctx' with
          | true =>
              obtain ⟨c', hc', houtcome', hshares', hstep', hrest'⟩ :=
                hwaits.of_ready hready
              obtain ⟨c'', hreach, hfollows⟩ := Follows.stepOutside hshares'
                hside hwaits.running houtcome' hstep' hrest' htimely.1 h
              exact ⟨c'', Reaches.head hc' hreach, hfollows⟩
          | false =>
              obtain rfl := hwaits.offered.waiting hready
              have hrest := hwaits.toCome
              simp only [ConcurrentState.toCome, held_of_outside hside] at hrest
              have hresult : (r.waiting ctx').getResult =
                  .blocked .waitingForRead := rfl
              rw [ConcurrentState.stepOutside,
                if_neg (by simp [hwaits.running]), hwaits.interpreter,
                r.waiting_step hready] at h
              simp only [hresult] at h
              obtain rfl := Except.ok.inj h
              have hshares := hwaits.shares
              exact ⟨c, Reaches.refl c, .reading r ctx ctx' 0
                ⟨⟨hshares.written, hshares.answers, hshares.application⟩,
                  hwaits.running, hwaits.outcome, hwaits.blocked, hwaits.waits,
                  rfl, hwaits.errno, hwaits.offered, hrest⟩ (Or.inl rfl)⟩

/-- What arrives, and what is answered, moves neither. -/
theorem Follows.of_same (hfollows : Follows app stream s c)
    (hphase : t.connection.phase = s.connection.phase)
    (herrno : t.connection.errno = s.connection.errno)
    (hinterpreter : t.connection.context.interpreter =
      s.connection.context.interpreter)
    (hexited : t.connection.context.exited = s.connection.context.exited)
    (hresult : t.connection.context.interpreterResult =
      s.connection.context.interpreterResult)
    (hrest : t.connection.toCome stream = s.connection.toCome stream)
    (hshares : Shares app t c) : Follows app stream t c := by
  cases hfollows with
  | exited _ houtside hexited' houtcome =>
      exact .exited hshares (by rw [hphase, houtside])
        (by rw [hexited, hexited']) (by rw [hresult, houtcome])
  | between _ houtside hrunning houtcome hstep hrest' =>
      exact .between hshares (by rw [hphase, houtside])
        (by rw [hexited, hrunning]) houtcome
        (by rw [hinterpreter, herrno, hstep]) (by rw [hrest, hrest'])
  | reading r ctx ctx' consumed hwaits hphase' =>
      exact .reading r ctx ctx' consumed
        ⟨hshares, hexited.trans hwaits.running, hwaits.outcome, hwaits.blocked,
          hwaits.waits, hinterpreter.trans hwaits.interpreter,
          herrno.trans hwaits.errno, hwaits.offered, hrest.trans hwaits.toCome⟩
        (by rw [hphase]; exact hphase')

/-- The response of the callback thread is the one the program got. -/
theorem Follows.answer (hfollows : Follows app stream s c) :
    Follows app stream (s.answer app) c := by
  obtain ⟨hwritten, hanswers, happlication⟩ := hfollows.shares
  cases hqueue : s.connection.context.callbackRequestQueue with
  | nil =>
      have hsame : s.answer app = s := by
        simp only [Served.answer, hqueue]
      rw [hsame]
      exact hfollows
  | cons request queue =>
      have hanswer : s.answer app =
          ⟨{ s.connection with
            context := { s.connection.context with
              callbackRequestQueue := queue
              callbackResponseQueue :=
                s.connection.context.callbackResponseQueue ++
                  [(app s.application request).1] } },
            (app s.application request).2⟩ := by
        simp only [Served.answer, hqueue]
      rw [hqueue] at hanswers happlication
      rw [hanswer]
      refine hfollows.of_same rfl rfl rfl rfl rfl rfl ⟨hwritten, ?_, ?_⟩
      · simpa [Application.answers] using hanswers
      · simpa [Application.answers] using happlication

theorem Received.answer (h : Received stream s.connection) :
    Received stream (s.answer app).connection := by
  cases hqueue : s.connection.context.callbackRequestQueue with
  | nil =>
      have hsame : s.answer app = s := by
        simp only [Served.answer, hqueue]
      rw [hsame]
      exact h
  | cons request queue =>
      simp only [Served.answer, hqueue]
      exact ⟨h.pushed, h.complete, h.chunks, h.held⟩

/-- The invariant of every run: the connection follows the program. -/
def Tracks (app : Application γ) (stream : Octets) (initial : StreamState γ)
    (s : Served γ) : Prop :=
  Received stream s.connection ∧
    ∃ c, Reaches (StreamState.step app) initial c ∧ Follows app stream s c

theorem Tracks.step {initial : StreamState γ} {event : ThreadEvent}
    (hs : Tracks app stream initial s)
    (hcondition : Served.Delivers stream event s ∧
      Served.Timely stream event s)
    (h : s.event app event = .ok t) : Tracks app stream initial t := by
  obtain ⟨hdelivers, htimely⟩ := hcondition
  obtain ⟨hreceived, c, hreach, hfollows⟩ := hs
  have hshares := hfollows.shares
  cases event with
  | chunk data =>
      obtain rfl := Except.ok.inj h
      obtain ⟨hne, hstarts⟩ := hdelivers
      refine ⟨⟨hstarts, fun heof => ?_, fun chunk hchunk => ?_,
        hreceived.held⟩, c, hreach,
        hfollows.of_same rfl rfl rfl rfl rfl ?_
          ⟨hshares.written, hshares.answers, hshares.application⟩⟩
      · have hlength := hstarts.length_le
        rw [hreceived.complete heof, List.length_append] at hlength
        have hpos := List.length_pos_of_ne_nil hne
        omega
      · rcases List.mem_append.mp hchunk with hchunk | hchunk
        · exact hreceived.chunks chunk hchunk
        · rw [List.mem_singleton.mp hchunk]
          exact hne
      · obtain ⟨rest, rfl⟩ := hstarts
        simp [ConcurrentState.toCome, List.append_assoc]
  | endOfInput =>
      obtain rfl := Except.ok.inj h
      exact ⟨⟨hreceived.pushed, fun _ => hdelivers, hreceived.chunks,
        hreceived.held⟩, c, hreach, hfollows.of_same rfl rfl rfl rfl rfl rfl
          ⟨hshares.written, hshares.answers, hshares.application⟩⟩
  | answer =>
      obtain rfl := Except.ok.inj h
      exact ⟨hreceived.answer, c, hreach, hfollows.answer⟩
  | pass =>
      obtain ⟨connection, hstep, rfl⟩ := map_eq_ok h
      obtain ⟨c', hmoves, hfollows'⟩ := hfollows.pass hreceived htimely hstep
      exact ⟨hreceived.threadStep hstep, c', hreach.trans hmoves, hfollows'⟩

/-- A pass after which the interpreter is still blocked at the end of the
input waits for more input, or for a callback without a response. -/
theorem Settled.blocked {s : ConcurrentState}
    (hrunning : s.context.exited = false) (heof : s.context.eof = true)
    (h : RunnerState.Settled ⟨s.context, s.errno⟩) :
    ∃ interpreter errno, s.context.interpreter.step s.errno =
        .ok (.blocked, interpreter, errno) ∧
      (interpreter.getResult = .blocked .waitingCallbackData ∧
          s.context.callbackResponseQueue = [] ∨
        interpreter.getResult = .blocked .waitingForRead ∧
          ∀ (r : Reader) ctx, interpreter = r.waiting ctx →
            ∃ buffer ctx', s.context.inputBuffer = [buffer] ∧
              r.operation.handleRead ctx buffer = .ok (0, ctx') ∧
              r.operation.readyToEvaluate ctx' = false) := by
  rcases h with hexited | ⟨context, errno, hpass⟩
  · exact absurd (hrunning.symm.trans hexited) (by simp)
  · simp only at hpass
    unfold InterpreterContext.pass at hpass
    rw [if_neg (by simp [hrunning])] at hpass
    cases hs : s.context.interpreter.step s.errno with
    | error fault =>
        rw [hs] at hpass
        contradiction
    | ok outcome =>
        obtain ⟨state, interpreter, errno'⟩ := outcome
        rw [hs] at hpass
        cases state with
        | missingArguments => cases hpass
        | ready => cases hpass
        | exited => cases hpass
        | blocked =>
            refine ⟨interpreter, errno', rfl, ?_⟩
            obtain ⟨⟨result, context'⟩, hblocked, heq⟩ := map_eq_ok hpass
            cases heq
            unfold InterpreterContext.handleBlockedInterpreter at hblocked
            split at hblocked
            · rename_i hresult
              refine Or.inr ⟨hresult, fun r ctx hwaiting => ?_⟩
              have hread : InterpreterContext.handleRead { s.context with
                  interpreter := interpreter } = _ :=
                r.handleRead_waiting hrunning hwaiting
              rw [hread] at hblocked
              obtain ⟨⟨report, ctx', queue'⟩, hqueue, hanswer⟩ :=
                map_eq_ok hblocked
              obtain ⟨rfl, _⟩ := Prod.mk.inj hanswer
              simp only [heof] at hqueue
              obtain ⟨buffer, hbuffer, hoffer, hready⟩ :=
                InputOutputOperation.readQueue_stillBlocked hqueue
              exact ⟨buffer, ctx', hbuffer, hoffer, hready⟩
            · simp only [InterpreterContext.handleWrite, heof, ↓reduceIte]
                at hblocked
              cases hblocked
            · cases hblocked
            · rename_i hresult
              refine Or.inl ⟨hresult, ?_⟩
              unfold InterpreterContext.handleFinishCallback at hblocked
              split at hblocked
              · rename_i hresponses
                exact hresponses
              · cases hblocked
            · cases hblocked

/-- A program that wants more than all of its input stands still. -/
theorem stands_waiting {r : Reader} {ctx ctx₁ ctx' :
      InputOutputOperationContext}
    (houtcome : c.outcome = none)
    (hstep : c.interpreter.step c.errno =
      .ok (.blocked, r.waiting ctx, c.errno))
    (hne : c.rest ≠ [])
    (hunread : r.operation.handleRead ctx₁ c.rest =
      r.operation.handleRead ctx c.rest)
    (hread : r.operation.handleRead ctx₁ c.rest = .ok (0, ctx'))
    (hwaits : r.operation.readyToEvaluate ctx' = false) :
    c.step app = .ok c := by
  have hresult : (r.waiting ctx).getResult = .blocked .waitingForRead := rfl
  have hready : (r.waiting ctx').top.readyToEvaluate = false := hwaits
  rw [hunread] at hread
  simp only [StreamState.step, houtcome, Option.isSome_none,
    Bool.false_eq_true, ↓reduceIte, hstep, StreamState.unblock, hresult,
    StreamState.read, hne, r.waiting_handleRead, hread, Except.map, hready]

/-- Where the connection has come to its end the program stands still. -/
theorem Follows.stands (hfollows : Follows app stream s c)
    (hreceived : Received stream s.connection) (hend : s.AtRest stream) :
    c.step app = .ok c := by
  have hone : ∀ {buffer rest : Octets},
      s.connection.phase.isOutside = true → s.connection.pushed = stream →
      s.connection.context.inputBuffer = [buffer] →
      s.connection.toCome stream = rest → rest = buffer ∧ rest ≠ [] := by
    intro buffer rest houtside hpushed hbuffer hrest
    have hne := hreceived.chunks buffer (by rw [hbuffer]; simp)
    have heq : rest = buffer := by
      simpa [ConcurrentState.toCome, held_of_outside houtside, hpushed,
        hbuffer] using hrest.symm
    exact ⟨heq, by rw [heq]; exact hne⟩
  cases hfollows with
  | exited _ _ _ houtcome =>
      exact StreamState.step_of_exited app (by rw [houtcome]; rfl)
  | between hshares houtside hrunning houtcome hstep hrest =>
      rcases hend with hexited | ⟨_, hpushed, heof, hrequests, hsettled⟩
      · exact absurd (hrunning.symm.trans hexited) (by simp)
      · obtain ⟨interpreter, errno, hs, hcases⟩ :=
          Settled.blocked hrunning heof hsettled
        have hc := hstep.symm.trans hs
        rcases hcases with ⟨hresult, hresponses⟩ | ⟨hresult, hread⟩
        · have hanswers : c.answers = [] := by
            rw [hshares.answers, hresponses, hrequests]
            rfl
          simp only [StreamState.step, houtcome, Option.isSome_none,
            Bool.false_eq_true, ↓reduceIte, hc, StreamState.unblock, hresult,
            StreamState.answer, hanswers]
        · obtain ⟨r, ctx, rfl, rfl, _⟩ := Reader.exists_waiting hc hresult
          obtain ⟨buffer, ctx', hbuffer, hoffer, hready⟩ := hread r ctx rfl
          obtain ⟨hall, hne⟩ := hone houtside hpushed hbuffer hrest
          rw [← hall] at hoffer
          exact stands_waiting houtcome hc hne rfl hoffer hready
  | reading r ctx ctx₁ consumed hwaits _ =>
      rcases hend with hexited | ⟨houtside, hpushed, heof, hrequests, hsettled⟩
      · exact absurd (hwaits.running.symm.trans hexited) (by simp)
      · obtain ⟨interpreter, errno, hs, hcases⟩ :=
          Settled.blocked hwaits.running heof hsettled
        rw [hwaits.interpreter] at hs
        cases hready₁ : r.operation.readyToEvaluate ctx₁ with
        | true =>
            obtain ⟨_, _, halike⟩ := hwaits.offered.yields hready₁
            exact absurd hs (r.waiting_step_not_blocked halike)
        | false =>
            obtain rfl := hwaits.offered.waiting hready₁
            rw [r.waiting_step hready₁] at hs
            cases hs
            rcases hcases with ⟨hresult, _⟩ | ⟨_, hread⟩
            · cases hresult
            · obtain ⟨buffer, ctx', hbuffer, hoffer, hready⟩ :=
                hread r ctx₁ rfl
              obtain ⟨hall, hne⟩ := hone houtside hpushed hbuffer
                hwaits.toCome
              rw [List.drop_zero] at hall hne
              rw [← hall] at hoffer
              exact stands_waiting hwaits.outcome hwaits.blocked hne
                (hwaits.offered.unread rfl) hoffer hready

/-- Every run follows the program over the whole stream. -/
theorem tracks_of_run {optree : OpTreeNode} {arglist : Option Value}
    {errno : Errno} {application : γ} {events : List ThreadEvent}
    (hrun : run (Served.event app) events
      (Served.start optree arglist errno application) = .ok s)
    (hdelivers : EachStep (Served.event app) (Served.Delivers stream) events
      (Served.start optree arglist errno application))
    (htimely : EachStep (Served.event app) (Served.Timely stream) events
      (Served.start optree arglist errno application)) :
    Tracks app stream
      (StreamState.start optree arglist errno application stream) s := by
  have hstart : Tracks app stream
      (StreamState.start optree arglist errno application stream)
      (Served.start optree arglist errno application) := by
    refine ⟨⟨List.nil_prefix, fun heof => ?_, fun chunk hchunk => ?_,
      fun _ => Or.inl rfl⟩, _, Reaches.refl _,
      .between ⟨rfl, rfl, rfl⟩ rfl rfl rfl rfl rfl⟩
    · contradiction
    · cases hchunk
  have halways : Always (Served.event app) (Tracks app stream
      (StreamState.start optree arglist errno application stream)) events
      (Served.start optree arglist errno application) := by
    refine always_of_eachStep (fun event u v hcondition hu huv =>
      hu.step hcondition huv) (fun _ h => h) hstart ?_
    exact fun before event after u happend hu =>
      ⟨hdelivers before event after u happend hu,
        htimely before event after u happend hu⟩
  exact halways events [] s (List.append_nil events).symm hrun

end Following

/-- Both connections serve the same program and are given the same stream.
What they have written agrees as far as both have come, and at their ends they
have written the same and exited with the same result. -/
theorem output_agrees {γ : Type} (app : Application γ) (optree : OpTreeNode)
    (arglist : Option Value) (errno : Errno) (application : γ)
    (stream : Octets) {events events' : List ThreadEvent} {s s' : Served γ}
    (hrun : run (Served.event app) events
      (Served.start optree arglist errno application) = .ok s)
    (hrun' : run (Served.event app) events'
      (Served.start optree arglist errno application) = .ok s')
    (hdelivers : EachStep (Served.event app) (Served.Delivers stream) events
      (Served.start optree arglist errno application))
    (hdelivers' : EachStep (Served.event app) (Served.Delivers stream) events'
      (Served.start optree arglist errno application))
    (htimely : EachStep (Served.event app) (Served.Timely stream) events
      (Served.start optree arglist errno application))
    (htimely' : EachStep (Served.event app) (Served.Timely stream) events'
      (Served.start optree arglist errno application)) :
    (s.connection.written <+: s'.connection.written ∨
        s'.connection.written <+: s.connection.written) ∧
      (s.AtRest stream → s'.AtRest stream →
        s.connection.written = s'.connection.written ∧
          s.connection.outcome = s'.connection.outcome) := by
  obtain ⟨hreceived, c, hc, hfollows⟩ := tracks_of_run hrun hdelivers htimely
  obtain ⟨hreceived', c', hc', hfollows'⟩ :=
    tracks_of_run hrun' hdelivers' htimely'
  have hwritten := hfollows.shares.written
  have hwritten' := hfollows'.shares.written
  have hlinear := Reaches.linear hc hc'
  constructor
  · rw [hwritten, hwritten']
    exact hlinear.imp StreamState.written_of_reaches
      StreamState.written_of_reaches
  · intro hend hend'
    have hstands := hfollows.stands hreceived hend
    have hstands' := hfollows'.stands hreceived' hend'
    have hsame : c = c' := by
      rcases hlinear with hreach | hreach
      · exact (Reaches.eq_of_fixed hstands hreach).symm
      · exact Reaches.eq_of_fixed hstands' hreach
    rw [hwritten, hwritten', hfollows.outcome, hfollows'.outcome, hsame]
    exact ⟨rfl, rfl⟩

namespace InputOutputOperation

/-- Whether a read decides on an input that is all of what is to come. -/
def decides (operation : InputOutputOperation)
    (ctx : InputOutputOperationContext) (all : Octets) : Bool :=
  match operation.handleRead ctx all with
  | .ok (consumed, ctx') =>
      (operation.readyToEvaluate ctx' || consumed == 0) &&
        (consumed != 0 ||
          match operation.handleRead ctx' all with
          | .ok result => result == (0, ctx')
          | .error _ => false)
  | .error _ => false

theorem Reads.foresees {operation : InputOutputOperation}
    {ctx : InputOutputOperationContext} {all : Octets}
    (hreads : operation.Reads) (h : operation.decides ctx all = true) :
    operation.Foresees ctx all all := by
  intro consumed ctx' hread
  simp only [decides, hread, Bool.and_eq_true, Bool.or_eq_true,
    beq_iff_eq, bne_iff_ne] at h
  obtain ⟨hready, hagain⟩ := h
  refine ⟨fun hready => ⟨ctx', hread, fun args errno => ?_⟩,
    fun hwaits => hready.resolve_left (by simp [hwaits]), fun hzero => ?_⟩
  · obtain ⟨value, errno', hvalue⟩ := hreads.apply_ready hready args errno
    exact ⟨value, errno', hvalue, hvalue⟩
  · have hsame := hagain.resolve_left (by simp [hzero])
    rw [hread, hzero]
    cases hnext : operation.handleRead ctx' all with
    | error fault => simp [hnext] at hsame
    | ok result =>
        simp only [hnext, beq_iff_eq] at hsame
        rw [hsame]

end InputOutputOperation

namespace ConcurrentState

def handlesWrite (s : ConcurrentState) : Bool :=
  s.phase.isOutside && !s.context.exited &&
    match s.context.interpreter.step s.errno with
    | .ok (.blocked, interpreter, _) =>
        match interpreter.getResult with
        | .blocked .waitingForWrite => true
        | _ => false
    | _ => false

theorem handlesWrite_of (s : ConcurrentState) (h : s.HandlesWrite) :
    s.handlesWrite = true := by
  obtain ⟨houtside, hexited, interpreter, errno, hstep, hresult⟩ := h
  simp only [handlesWrite, houtside, hexited, hstep, hresult]
  rfl

/-- What is offered is all of what is to come, and the operation decides. -/
def offersAll (stream : Octets) (s : ConcurrentState) : Bool :=
  match s.phase, s.context.interpreter.top.inputOutput? with
  | .offering joined _, some (operation, ctx) =>
      joined == s.toCome stream && decide operation.Reads &&
        operation.decides ctx joined
  | _, _ => true

theorem offersEnough_of_offersAll {stream : Octets} {s : ConcurrentState}
    (h : s.offersAll stream = true) : s.OffersEnough stream := by
  intro joined didJoin operation ctx hphase hio
  simp only [offersAll, hphase, hio, Bool.and_eq_true, beq_iff_eq,
    decide_eq_true_eq] at h
  obtain ⟨⟨hall, hreads⟩, hdecides⟩ := h
  rw [← hall]
  exact hreads.foresees hdecides

end ConcurrentState

namespace Served

variable {γ : Type} {stream : Octets} {event : ThreadEvent} {s : Served γ}

/-- A pass after which `Timely` holds, by evaluation. -/
def timely (stream : Octets) : ThreadEvent → Served γ → Bool
  | .pass, s =>
      (!s.connection.context.eof ||
        s.connection.phase.isOutside && !s.connection.handlesWrite) &&
        s.connection.offersAll stream
  | _, _ => true

theorem timely_sound (h : timely stream event s = true) :
    Timely stream event s := by
  cases event with
  | pass =>
      simp only [timely, Bool.and_eq_true, Bool.or_eq_true,
        Bool.not_eq_true'] at h
      obtain ⟨heof, hoffers⟩ := h
      refine ⟨fun hwrite => ?_, fun hdelivers => ?_,
        ConcurrentState.offersEnough_of_offersAll hoffers⟩
      · refine heof.resolve_right fun hnot => ?_
        rw [ConcurrentState.handlesWrite_of _ hwrite] at hnot
        exact Bool.noConfusion hnot.2
      · obtain ⟨hphase, hset⟩ := hdelivers
        rcases heof with hopen | ⟨houtside, _⟩
        · rw [hset] at hopen
          contradiction
        · rw [hphase] at houtside
          contradiction
  | chunk _ | endOfInput | answer => trivial

end Served

/-- The client asks with a word, and the server replies. -/
def askMessage : Message :=
  ⟨[65], .mk "Open" none, .mk "Asked" none, .mk "Client" none,
    [("word", .mk (.mk "str" none) [])],
    [.tokenSequence ⟨[.stringLiteral [81],
      .identifierReference (.mk "word" none), .stringLiteral [10]], none,
      none⟩]⟩

def replyMessage : Message :=
  ⟨[66], .mk "Asked" none, .mk "Closed" none, .mk "Server" none, [],
    [.tokenSequence { tokens := [.stringLiteral [82]] }]⟩

def asking : ProtocolDescription :=
  ⟨[([65], askMessage), ([66], replyMessage)], by simp⟩

def askingClient : Agent :=
  ⟨Analyze.addMessage (Analyze.addMessage [] [65] askMessage
      (.writeTransition askMessage.data
        [.writeStaticOctets [81], .writeFromIdentifier (.mk "word" none) none,
          .writeStaticOctets [10]]))
    [66] replyMessage
    (.readTransition replyMessage.data [.readStaticOctets [82]])⟩

def askingServer : Agent :=
  ⟨Analyze.addMessage (Analyze.addMessage [] [65] askMessage
      (.readTransition askMessage.data
        [.readStaticOctets [81],
          .readOctetsUntilTerminator [10] (.mk "word" none) none]))
    [66] replyMessage
    (.writeTransition replyMessage.data [.writeStaticOctets [82]])⟩

theorem analyze_asking :
    Analyze.analyze asking = some ⟨askingClient, askingServer⟩ := by
  simp [Analyze.analyze, Analyze.analyzeAgent, Analyze.analyzeTransitions,
    Analyze.analyzeMessage, Analyze.analyzeReadMessage,
    Analyze.analyzeWriteMessage, asking, askMessage, replyMessage,
    IdentifierReference.name, partsToReadActions, partsToWriteActions,
    PartsToReadActions.tokenSequence, PartsToWriteActions.tokenSequence,
    individualTokenActions, individualTokenAction, Action.applyEscape,
    TokenSequence.embeddedTerminator, Analyze.assemble, askingServer,
    askingClient]

/-- Both callbacks of the server choose the reply. -/
def replies : Application Unit := fun _ _ =>
  (.dynamicList [.octets [66], .dictionary []], ())

/-- The steps that answer the request, up to the reply and up to the exit. -/
def untilReply : List ThreadEvent :=
  List.replicate 28 .pass ++ .answer :: List.replicate 20 .pass

def untilExit : List ThreadEvent :=
  untilReply ++ .answer :: List.replicate 5 .pass

theorem delivers_untilExit {γ : Type} (app : Application γ) (stream : Octets)
    {events : List ThreadEvent} (h : ∀ event ∈ events, event ∈ untilExit)
    (s : Served γ) :
    EachStep (Served.event app) (Served.Delivers stream) events s := by
  refine eachStep_of_forall fun event hevent s => ?_
  have hmem := h event hevent
  simp only [untilExit, untilReply, List.mem_append, List.mem_cons,
    List.mem_replicate] at hmem
  rcases hmem with (⟨_, rfl⟩ | rfl | ⟨_, rfl⟩) | rfl | ⟨_, rfl⟩ <;> trivial

/-- The request, its answer, and the end of the input after the exit. -/
def endAfterExit : List ThreadEvent :=
  .chunk [81, 120, 10] :: (untilExit ++ [.endOfInput])

/-- The end of the input arrives when the reply was written and the server
still waits for the answer of its last callback. -/
def endAfterReply : List ThreadEvent :=
  .chunk [81, 120, 10] ::
    (untilReply ++ .endOfInput :: .answer :: List.replicate 5 .pass)

/-- Both runs exit, and the first has written the reply. -/
theorem asking_runs :
    ∃ optree, Generate.server ⟨askingClient, askingServer⟩ = .ok optree ∧
      ∃ s s' : Served Unit,
        run (Served.event replies) endAfterExit
          (Served.start optree none 0 ()) = .ok s ∧
        run (Served.event replies) endAfterReply
          (Served.start optree none 0 ()) = .ok s' ∧
        s.connection.written = [82] ∧ s.AtRest [81, 120, 10] ∧
        s'.AtRest [81, 120, 10] ∧
        ∀ events ∈ [endAfterExit, endAfterReply],
          checkRun (Served.event replies)
              (fun event s => decide (Served.Delivers [81, 120, 10] event s))
              events (Served.start optree none 0 ()) = true ∧
            checkRun (Served.event replies) (Served.timely [81, 120, 10])
              events (Served.start optree none 0 ()) = true := by
  refine ⟨_, rfl, _, _, rfl, rfl, rfl, Or.inl rfl, Or.inl rfl, ?_⟩
  intro events hevents
  rcases List.mem_pair.mp hevents with rfl | rfl <;> exact ⟨rfl, rfl⟩

/-- They write the same and exit with one result. -/
theorem output_agrees_asking :
    ∃ optree, Generate.server ⟨askingClient, askingServer⟩ = .ok optree ∧
      ∃ s s' : Served Unit,
        run (Served.event replies) endAfterExit
          (Served.start optree none 0 ()) = .ok s ∧
        run (Served.event replies) endAfterReply
          (Served.start optree none 0 ()) = .ok s' ∧
        s.connection.written = [82] ∧
        s.connection.written = s'.connection.written ∧
        s.connection.outcome = s'.connection.outcome := by
  obtain ⟨optree, hprogram, s, s', hrun, hrun', hwritten, hend, hend',
    hchecks⟩ := asking_runs
  have hdelivers := fun events hevents =>
    eachStep_of_checkRun _ (fun _ _ => of_decide_eq_true)
      (hchecks events hevents).1
  have htimely := fun events hevents =>
    eachStep_of_checkRun _ (fun _ _ => Served.timely_sound)
      (hchecks events hevents).2
  have hlate : endAfterExit ∈ [endAfterExit, endAfterReply] :=
    List.mem_cons_self
  have hearly : endAfterReply ∈ [endAfterExit, endAfterReply] :=
    List.mem_cons_of_mem _ List.mem_cons_self
  have hagree := output_agrees replies optree none 0 () [81, 120, 10] hrun
    hrun' (hdelivers _ hlate) (hdelivers _ hearly) (htimely _ hlate)
    (htimely _ hearly)
  exact ⟨optree, hprogram, s, s', hrun, hrun', hwritten,
    hagree.2 hend hend'⟩

/-- The request was received in full in both runs; the reply goes out in one
of them only. -/
theorem reply_depends_on_eof :
    ¬ ∀ (description : ProtocolDescription) (protocol : Protocol)
      (optree : OpTreeNode), Analyze.analyze description = some protocol →
        Generate.server protocol = .ok optree →
      ∀ (app : Application Unit) (arglist : Option Value) (errno : Errno)
        (stream : Octets) (events events' : List ThreadEvent)
        (s s' : Served Unit),
        run (Served.event app) events (Served.start optree arglist errno ()) =
          .ok s →
        run (Served.event app) events' (Served.start optree arglist errno ()) =
          .ok s' →
        EachStep (Served.event app) (Served.Delivers stream) events
          (Served.start optree arglist errno ()) →
        EachStep (Served.event app) (Served.Delivers stream) events'
          (Served.start optree arglist errno ()) →
        s.AtRest stream → s'.AtRest stream →
          s.connection.written = s'.connection.written ∧
            s.connection.outcome = s'.connection.outcome := by
  intro h
  have hstarts : ([] : Octets) ++ [81, 120, 10] <+: [81, 120, 10] :=
    List.prefix_refl _
  have hlate := h asking _ _ analyze_asking rfl replies none 0 [81, 120, 10]
    (.chunk [81, 120, 10] :: (untilExit ++ [.endOfInput]))
    (.chunk [81, 120, 10] :: .endOfInput :: untilReply) _ _ rfl rfl
    ((eachStep_cons_of_ok rfl).mpr ⟨⟨by simp, hstarts⟩,
      (delivers_untilExit replies _ (fun _ h => h) _).append rfl
        ((eachStep_cons_of_ok rfl).mpr ⟨by exact rfl, eachStep_nil⟩)⟩)
    ((eachStep_cons_of_ok rfl).mpr ⟨⟨by simp, hstarts⟩,
      (eachStep_cons_of_ok rfl).mpr ⟨by exact rfl,
        delivers_untilExit replies _
          (fun _ h => List.mem_append_left _ h) _⟩⟩)
    (Or.inl rfl) (Or.inl rfl)
  have hwritten : ([82] : Octets) = [] := hlate.1
  cases hwritten

end NetworkProtocolDsl
