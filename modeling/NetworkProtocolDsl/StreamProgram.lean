/-
What a program makes of its input when nothing has to be waited for.

The whole input is at hand, and its end is only seen by an operation that
reads; a write always goes out, and a callback returns at once.  The program
is then a machine without choice, which stands still where it wants more than
there is.
-/
import NetworkProtocolDsl.RunnerState

namespace NetworkProtocolDsl

open Run

/-- A callback of the application, which may keep a state of its own. -/
abbrev Application (γ : Type) := γ → String × List Value → Value × γ

namespace Application

variable {γ : Type} (app : Application γ)

/-- The answers to requests, in order. -/
def answers : γ → List (String × List Value) → List Value × γ
  | state, [] => ([], state)
  | state, request :: requests =>
      let (value, state) := app state request
      let (values, state) := answers state requests
      (value :: values, state)

theorem answers_append (state : γ)
    (requests requests' : List (String × List Value)) :
    app.answers state (requests ++ requests') =
      ((app.answers state requests).1 ++
          (app.answers (app.answers state requests).2 requests').1,
        (app.answers (app.answers state requests).2 requests').2) := by
  induction requests generalizing state with
  | nil => rfl
  | cons request requests ih =>
      simp only [List.cons_append, answers, ih]

end Application

/-- The input that was not taken yet, and what was written; `outcome` is the
result of a program that has exited. -/
structure StreamState (γ : Type) where
  interpreter : Interpreter
  errno : Errno
  application : γ
  rest : Octets
  written : Octets := []
  answers : List Value := []
  outcome : Option (Option Value) := none

namespace StreamState

variable {γ : Type} (app : Application γ)

def start (optree : OpTreeNode) (arglist : Option Value) (errno : Errno)
    (application : γ) (stream : Octets) : StreamState γ where
  interpreter := Interpreter.getInstance optree arglist
  errno := errno
  application := application
  rest := stream

/-- The operation that reads is offered all there is, or the end of it. -/
def read (s : StreamState γ) (interpreter : Interpreter) (errno : Errno) :
    Except Fault (StreamState γ) :=
  if s.rest = [] then
    .ok { s with interpreter := interpreter.handleEof, errno := errno }
  else
    match interpreter.handleRead s.rest with
    | .error fault => .error fault
    | .ok (consumed, interpreter) =>
        if interpreter.top.readyToEvaluate then
          .ok { s with interpreter := interpreter, errno := errno
                       rest := s.rest.drop consumed }
        else .ok s

def write (s : StreamState γ) (interpreter : Interpreter) (errno : Errno) :
    StreamState γ :=
  let buffer := interpreter.top.getWriteBuffer
  { s with interpreter := interpreter.handleWrite buffer.length
           errno := errno
           written := s.written ++ buffer }

def call (s : StreamState γ) (interpreter : Interpreter) (errno : Errno) :
    StreamState γ :=
  let (value, application) := app s.application
    (interpreter.top.getCallbackKey, interpreter.top.getCallbackArguments)
  { s with
    interpreter := { interpreter with top := interpreter.top.setCallbackCalled }
    errno := errno
    application := application
    answers := s.answers ++ [value] }

def answer (s : StreamState γ) (interpreter : Interpreter) (errno : Errno) :
    StreamState γ :=
  match s.answers with
  | [] => s
  | value :: answers =>
      { s with
        interpreter := { interpreter with
          top := interpreter.top.setCallbackReturn value }
        errno := errno
        answers := answers }

/-- What the program waits for is given to it. -/
def unblock (s : StreamState γ) (interpreter : Interpreter) (errno : Errno) :
    Except Fault (StreamState γ) :=
  match interpreter.getResult with
  | .blocked .waitingForRead => s.read interpreter errno
  | .blocked .waitingForWrite => .ok (s.write interpreter errno)
  | .blocked .waitingForCallback => .ok (s.call app interpreter errno)
  | .blocked .waitingCallbackData => .ok (s.answer interpreter errno)
  | _ => .ok { s with interpreter := interpreter, errno := errno }

def step (s : StreamState γ) : Except Fault (StreamState γ) :=
  if s.outcome.isSome then .ok s
  else
    match s.interpreter.step s.errno with
    | .error fault => .error fault
    | .ok (.blocked, interpreter, errno) => s.unblock app interpreter errno
    | .ok (.exited, interpreter, errno) =>
        let result :=
          match interpreter.getResult with
          | .value value => some value
          | .blocked _ => none
        .ok { s with interpreter := interpreter, errno := errno
                     outcome := some result }
    | .ok (_, interpreter, errno) =>
        .ok { s with interpreter := interpreter, errno := errno }

theorem step_of_exited {s : StreamState γ} (h : s.outcome.isSome = true) :
    s.step app = .ok s := by
  rw [step, if_pos h]

variable {app} {s t : StreamState γ}

/-- What was written stays written. -/
theorem written_of_step (h : s.step app = .ok t) : s.written <+: t.written := by
  unfold step at h
  split at h
  · obtain rfl := Except.ok.inj h
    exact List.prefix_refl _
  · split at h
    · contradiction
    · unfold unblock at h
      split at h
      · unfold read at h
        split at h
        · obtain rfl := Except.ok.inj h
          exact List.prefix_refl _
        · split at h
          · contradiction
          · split at h <;> obtain rfl := Except.ok.inj h <;>
              exact List.prefix_refl _
      · obtain rfl := Except.ok.inj h
        exact List.prefix_append _ _
      · obtain rfl := Except.ok.inj h
        exact List.prefix_refl _
      · obtain rfl := Except.ok.inj h
        unfold answer
        split <;> exact List.prefix_refl _
      · obtain rfl := Except.ok.inj h
        exact List.prefix_refl _
    · obtain rfl := Except.ok.inj h
      exact List.prefix_refl _
    · obtain rfl := Except.ok.inj h
      exact List.prefix_refl _

theorem written_of_reaches (h : Reaches (step app) s t) :
    s.written <+: t.written := by
  induction h with
  | refl => exact List.prefix_refl _
  | tail _ hstep ih => exact ih.trans (written_of_step hstep)

end StreamState

end NetworkProtocolDsl
