/-
Runs of one interpreter served by the runner.

Between two passes of the loop the outside may add a chunk of input, announce
the end of the input or answer a callback.  A pass prepares the stack before it
executes its topmost frame, so a stack and its prepared form behave alike.
-/
import NetworkProtocolDsl.InterpreterRunner
import NetworkProtocolDsl.Library.Run

namespace NetworkProtocolDsl

open Run

inductive RunnerEvent where
  | chunk (data : Octets)
  | endOfInput
  | callbackResponse (value : Value)
  | pass

/-- A context together with the `errno` of the thread that serves it. -/
structure RunnerState where
  context : InterpreterContext
  errno : Errno

namespace RunnerState

/-- A fresh instance of a program. -/
def start (optree : OpTreeNode) (arglist : Option Value) (errno : Errno) :
    RunnerState :=
  ⟨{ interpreter := Interpreter.getInstance optree arglist }, errno⟩

def pass (s : RunnerState) : Except Fault RunnerState :=
  (s.context.pass s.errno).map fun (_, context, errno) => ⟨context, errno⟩

def event : RunnerEvent → RunnerState → Except Fault RunnerState
  | .chunk data, s =>
      .ok { s with context := { s.context with
        inputBuffer := s.context.inputBuffer ++ [data] } }
  | .endOfInput, s => .ok { s with context := { s.context with eof := true } }
  | .callbackResponse value, s =>
      .ok { s with context := { s.context with
        callbackResponseQueue := s.context.callbackResponseQueue ++ [value] } }
  | .pass, s => s.pass

/-- Passes alone lead from one state to the other. -/
abbrev Passes : RunnerState → RunnerState → Prop :=
  Reaches pass

/-- The next pass would find the interpreter waiting for input. -/
def WaitsForRead (s : RunnerState) : Prop :=
  s.context.exited = false ∧ ∃ interpreter errno,
    s.context.interpreter.step s.errno = .ok (.blocked, interpreter, errno) ∧
    interpreter.getResult = .blocked .waitingForRead

/-- The loop has nothing more to do until something arrives. -/
def Settled (s : RunnerState) : Prop :=
  s.context.exited = true ∨ ∃ context errno,
    s.context.pass s.errno = .ok (.blocked .stillBlocked, context, errno)

/-- The events deliver these chunks, interleaved with passes. -/
inductive Delivers : List RunnerEvent → List Octets → Prop where
  | nil : Delivers [] []
  | chunk {data : Octets} {events : List RunnerEvent} {chunks : List Octets} :
      Delivers events chunks →
      Delivers (.chunk data :: events) (data :: chunks)
  | pass {events : List RunnerEvent} {chunks : List Octets} :
      Delivers events chunks → Delivers (.pass :: events) chunks

/-- The state after a chunk arrived. -/
def push (s : RunnerState) (data : Octets) : RunnerState :=
  { s with context := { s.context with
    inputBuffer := s.context.inputBuffer ++ [data] } }

/-- A run that delivers these chunks leads from one state to the other. -/
def Delivered (initial : RunnerState) (chunks : List Octets)
    (s : RunnerState) : Prop :=
  ∃ events, Delivers events chunks ∧ run event events initial = .ok s

namespace Delivered

variable {initial s t : RunnerState} {chunks : List Octets}

/-- What one delivered chunk and what one pass keep, a run keeps. -/
theorem invariant (invariant : List Octets → RunnerState → Prop)
    (hchunk : ∀ given data rest s, chunks = given ++ data :: rest →
      invariant given s → invariant (given ++ [data]) (s.push data))
    (hpass : ∀ given rest s t, chunks = given ++ rest → invariant given s →
      s.pass = .ok t → invariant given t)
    (hinitial : invariant [] initial) (h : Delivered initial chunks s) :
    invariant chunks s := by
  obtain ⟨events, hdelivers, hrun⟩ := h
  suffices ∀ given rest initial, chunks = given ++ rest →
      Delivers events rest → invariant given initial →
      run event events initial = .ok s → invariant chunks s from
    this [] chunks initial rfl hdelivers hinitial hrun
  clear hrun hinitial hdelivers
  intro given rest initial hchunks hdelivers hinitial hrun
  induction hdelivers generalizing given initial with
  | nil =>
      obtain rfl : initial = s := by simpa [run] using hrun
      rw [hchunks, List.append_nil]
      exact hinitial
  | @chunk data events rest _ ih =>
      have hstep : event (.chunk data) initial = .ok (initial.push data) := rfl
      rw [run_cons_of_ok hstep] at hrun
      exact ih (given ++ [data]) _ (by rw [hchunks]; simp)
        (hchunk given data rest initial hchunks hinitial) hrun
  | @pass events rest _ ih =>
      obtain ⟨middle, hstep, hrest⟩ := run_cons_eq_ok hrun
      exact ih given middle hchunks
        (hpass given rest initial middle hchunks hinitial hstep) hrest

theorem start (initial : RunnerState) : Delivered initial [] initial :=
  ⟨[], .nil, rfl⟩

theorem chunk (h : Delivered initial chunks s) (data : Octets) :
    Delivered initial (chunks ++ [data]) (s.push data) := by
  obtain ⟨events, hdelivers, hrun⟩ := h
  refine ⟨events ++ [.chunk data], ?_, ?_⟩
  · clear hrun
    induction hdelivers with
    | nil => exact .chunk .nil
    | chunk _ ih => exact .chunk ih
    | pass _ ih => exact .pass ih
  · rw [run_append hrun]
    rfl

theorem pass (h : Delivered initial chunks s) (hpass : s.pass = .ok t) :
    Delivered initial chunks t := by
  obtain ⟨events, hdelivers, hrun⟩ := h
  refine ⟨events ++ [.pass], ?_, ?_⟩
  · clear hrun
    induction hdelivers with
    | nil => exact .pass .nil
    | chunk _ ih => exact .chunk ih
    | pass _ ih => exact .pass ih
  · rw [run_append hrun, run_cons_of_ok hpass]
    rfl

theorem passes (h : Delivered initial chunks s) (hpasses : Passes s t) :
    Delivered initial chunks t := by
  induction hpasses with
  | refl => exact h
  | tail _ hstep ih => exact ih.pass hstep

/-- Chunks that arrive one after the other. -/
theorem append (h : Delivered initial chunks s) (more : List Octets) :
    Delivered initial (chunks ++ more) { s with context := { s.context with
      inputBuffer := s.context.inputBuffer ++ more } } := by
  induction more generalizing s chunks with
  | nil => simpa using h
  | cons data more ih => simpa [push] using ih (h.chunk data)

end Delivered

end RunnerState

theorem OpTreeNode.descend_ready {node : OpTreeNode}
    {frames : List ExecutionStackFrame} (h : node.descend = .ok frames) :
    ∃ frame below, frames = frame :: below ∧
      frame.hasArgumentsReady = true := by
  match node, h with
  | .mk operation [], h =>
      simp only [OpTreeNode.descend] at h
      split at h
      · rename_i hready
        obtain rfl := Except.ok.inj h
        exact ⟨_, [], rfl, hready⟩
      · contradiction
  | .mk operation (child :: children), h =>
      simp only [OpTreeNode.descend] at h
      split at h
      · rename_i hready
        obtain rfl := Except.ok.inj h
        exact ⟨_, [], rfl, hready⟩
      · split at h
        · rename_i pushed hchild
          obtain rfl := Except.ok.inj h
          obtain ⟨frame, below, rfl, hframe⟩ :=
            OpTreeNode.descend_ready hchild
          exact ⟨frame, _, List.cons_append, hframe⟩
        · contradiction

namespace Continuation

theorem prepare_of_ready {c : Continuation} {frame : ExecutionStackFrame}
    {frames : List ExecutionStackFrame} (hstack : c.stack = frame :: frames)
    (hready : frame.hasArgumentsReady = true) :
    c.prepare = .ok (.ready, c) := by
  simp only [prepare, hstack, hready, ↓reduceIte]

/-- Preparing leaves an executable frame on top and changes only the stack. -/
theorem prepare_ready {c c' : Continuation} {state : ContinuationState}
    (h : c.prepare = .ok (state, c')) :
    (c.stack = [] ∧ state = .exited ∧ c' = c) ∨
      ∃ frame frames, state = .ready ∧
        c' = { c with stack := frame :: frames } ∧
        frame.hasArgumentsReady = true := by
  cases hstack : c.stack with
  | nil =>
      simp only [prepare, hstack, Except.ok.injEq, Prod.mk.injEq] at h
      exact Or.inl ⟨rfl, h.1.symm, h.2.symm⟩
  | cons frame frames =>
      right
      simp only [prepare, hstack] at h
      split at h
      · rename_i hready
        simp only [Except.ok.injEq, Prod.mk.injEq] at h
        refine ⟨frame, frames, h.1.symm, ?_, hready⟩
        rw [← h.2, ← hstack]
      · split at h
        · contradiction
        · split at h
          · contradiction
          · rename_i hdescend
            simp only [Except.ok.injEq, Prod.mk.injEq] at h
            obtain ⟨top, below, rfl, htop⟩ :=
              OpTreeNode.descend_ready hdescend
            exact ⟨top, below ++ frame :: frames, h.1.symm, h.2.symm, htop⟩

/-- A stack and its prepared form step alike. -/
theorem step_eq_of_prepare {c c' : Continuation}
    (h : c.prepare = .ok (.ready, c')) (errno : Errno) :
    c.step errno = c'.step errno := by
  rcases prepare_ready h with ⟨_, hstate, _⟩ | ⟨frame, frames, _, rfl, hready⟩
  · contradiction
  · have hself : Continuation.prepare { c with stack := frame :: frames } =
        .ok (.ready, { c with stack := frame :: frames }) :=
      prepare_of_ready rfl hready
    simp only [step, h, hself]

end Continuation

end NetworkProtocolDsl
