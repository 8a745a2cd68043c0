/-
Reading while another thread delivers the input.

The queue locks every access by itself, so the input/output thread may run
between any two accesses of `handle_read`: between the pop of a chunk and the
next one, before what is left is put back, and between a pop that found nothing
and the load of the end-of-input flag.
-/
import NetworkProtocolDsl.RunnerState

namespace NetworkProtocolDsl

open Run InterpreterContext

/-- Where the interpreter thread is, and what it holds there. -/
inductive ReadPhase where
  | outside (progress : Progress)
  | popping
  | loading
  | offering (joined : Octets) (didJoin : Bool)
  | joining (joined : Octets) (didJoin : Bool)
  | pushingBack (joined : Octets) (didJoin : Bool)
  | pushingRest (rest : Octets)

namespace ReadPhase

/-- The bytes taken from the queue and not put back. -/
def held : ReadPhase → Octets
  | .offering joined _ => joined
  | .joining joined _ => joined
  | .pushingBack joined _ => joined
  | .pushingRest rest => rest
  | _ => []

def isOutside : ReadPhase → Bool
  | .outside _ => true
  | _ => false

end ReadPhase

/-- `consumed` and `pushed` record the bytes the operations consumed and the
bytes that arrived. -/
structure ConcurrentState where
  context : InterpreterContext
  errno : Errno
  phase : ReadPhase
  consumed : Octets
  pushed : Octets

namespace ConcurrentState

def start (optree : OpTreeNode) (arglist : Option Value) (errno : Errno) :
    ConcurrentState :=
  ⟨{ interpreter := Interpreter.getInstance optree arglist }, errno,
    .outside .ready, [], []⟩

/-- A pass of the interpreter loop up to the first access of `handle_read`;
any other pass does not touch the input queue. -/
def stepOutside (s : ConcurrentState) : Except Fault ConcurrentState :=
  let pass := (s.context.pass s.errno).map fun (progress, context, errno) =>
    { s with context := context, errno := errno, phase := .outside progress }
  if s.context.exited then pass
  else
    match s.context.interpreter.step s.errno with
    | .ok (.blocked, interpreter, errno) =>
        match interpreter.getResult with
        | .blocked .waitingForRead =>
            .ok { s with
              context := { s.context with interpreter := interpreter }
              errno := errno
              phase := .popping }
        | _ => pass
    | _ => pass

/-- The operation is offered what the thread holds. -/
def offer (s : ConcurrentState) (joined : Octets) (didJoin : Bool) :
    Except Fault ConcurrentState :=
  match s.context.interpreter.handleRead joined with
  | .error fault => .error fault
  | .ok (consumed, interpreter) =>
      .ok { s with
        context := { s.context with interpreter := interpreter }
        phase :=
          if consumed = 0 then .joining joined didJoin
          else if consumed < joined.length then
            .pushingRest (joined.drop consumed)
          else .outside (.blocked .unblocked)
        consumed := s.consumed ++ joined.take consumed }

/-- One step of the interpreter thread: at most one access to the queue or to
the flag. -/
def threadStep (s : ConcurrentState) : Except Fault ConcurrentState :=
  match s.phase with
  | .outside _ => s.stepOutside
  | .popping =>
      match s.context.inputBuffer with
      | buffer :: queue =>
          .ok { s with
            context := { s.context with inputBuffer := queue }
            phase := .offering buffer false }
      | [] => .ok { s with phase := .loading }
  | .loading =>
      if s.context.eof then
        .ok { s with
          context := { s.context with
            interpreter := s.context.interpreter.handleEof }
          phase := .outside (.blocked .unblocked) }
      else .ok { s with phase := .outside (.blocked .stillBlocked) }
  | .offering joined didJoin => s.offer joined didJoin
  | .joining joined didJoin =>
      match s.context.inputBuffer with
      | nextbuffer :: queue =>
          .ok { s with
            context := { s.context with inputBuffer := queue }
            phase := .offering (joined ++ nextbuffer) true }
      | [] => .ok { s with phase := .pushingBack joined didJoin }
  | .pushingBack joined didJoin =>
      .ok { s with
        context := { s.context with
          inputBuffer := joined :: s.context.inputBuffer }
        phase := .outside (.blocked
          (if s.context.interpreter.top.readyToEvaluate then .unblocked
          else if didJoin then .needsRetry
          else .stillBlocked)) }
  | .pushingRest rest =>
      .ok { s with
        context := { s.context with
          inputBuffer := rest :: s.context.inputBuffer }
        phase := .outside (.blocked .unblocked) }

/-- The events of the input/output thread are those of the runner; a pass is
one step of the interpreter thread. -/
def event : RunnerEvent → ConcurrentState → Except Fault ConcurrentState
  | .chunk data, s =>
      .ok { s with
        context := { s.context with
          inputBuffer := s.context.inputBuffer ++ [data] }
        pushed := s.pushed ++ data }
  | .endOfInput, s => .ok { s with context := { s.context with eof := true } }
  | .callbackResponse value, s =>
      .ok { s with context := { s.context with
        callbackResponseQueue := s.context.callbackResponseQueue ++ [value] } }
  | .pass, s => s.threadStep

end ConcurrentState

/-- The bytes a run delivers. -/
def deliveredBytes : List RunnerEvent → Octets
  | [] => []
  | .chunk data :: events => data ++ deliveredBytes events
  | _ :: events => deliveredBytes events

namespace ReadOctetsUntilTerminator

/-- The scan stays within the input. -/
theorem scan_le {terminator : Octets} {escape : EscapeInfo} {fuel pos : Nat}
    {rest : Octets} {ctx ctx' : InputOutputOperationContext} {consumed : Nat}
    (h : scan terminator escape fuel rest pos ctx = .ok (consumed, ctx')) :
    consumed ≤ pos + rest.length := by
  induction fuel generalizing rest pos ctx with
  | zero => contradiction
  | succ fuel ih =>
      rw [scan] at h
      split at h
      · obtain ⟨rfl, _⟩ := Prod.mk.inj (Except.ok.inj h)
        exact Nat.zero_le _
      · split at h
        · obtain ⟨rfl, _⟩ := Prod.mk.inj (Except.ok.inj h)
          exact Nat.zero_le _
        · rename_i term hterm _
          have hle := Occurrence.length_le_of_first hterm
          obtain ⟨rfl, _⟩ := Prod.mk.inj (Except.ok.inj h)
          omega
        · rename_i esc _ hesc
          have hle := Occurrence.length_le_of_first hesc
          have hrest := ih h
          rw [List.length_drop] at hrest
          omega
        · rename_i term esc hterm hesc
          have hle := Occurrence.length_le_of_first hterm
          have hle' := Occurrence.length_le_of_first hesc
          split at h
          · have hrest := ih h
            rw [List.length_drop] at hrest
            omega
          · obtain ⟨rfl, _⟩ := Prod.mk.inj (Except.ok.inj h)
            omega

end ReadOctetsUntilTerminator

/-- No operation reports more bytes consumed than it was given. -/
theorem InputOutputOperation.handleRead_le {operation : InputOutputOperation}
    {ctx ctx' : InputOutputOperationContext} {input : Octets} {consumed : Nat}
    (h : operation.handleRead ctx input = .ok (consumed, ctx')) :
    consumed ≤ input.length := by
  cases operation with
  | readOctetsUntilTerminator terminator escape =>
      simp only [handleRead, ReadOctetsUntilTerminator.handleRead] at h
      cases escape with
      | some escape =>
          have hle := ReadOctetsUntilTerminator.scan_le h
          omega
      | none =>
          cases hfirst : Occurrence.first terminator input with
          | none =>
              rw [hfirst] at h
              obtain ⟨rfl, _⟩ := Prod.mk.inj (Except.ok.inj h)
              exact Nat.zero_le _
          | some pos =>
              have hle := Occurrence.length_le_of_first hfirst
              rw [hfirst] at h
              obtain ⟨rfl, _⟩ := Prod.mk.inj (Except.ok.inj h)
              omega
  | readStaticOctets contents =>
      simp only [handleRead, ReadStaticOctets.handleRead] at h
      split at h <;> obtain ⟨rfl, _⟩ := Prod.mk.inj (Except.ok.inj h) <;> omega
  | readInt32Native =>
      simp only [handleRead, ReadInt32Native.handleRead] at h
      split at h
      · split at h <;> obtain ⟨rfl, _⟩ := Prod.mk.inj (Except.ok.inj h) <;>
          omega
      · obtain ⟨rfl, _⟩ := Prod.mk.inj (Except.ok.inj h)
        exact Nat.zero_le _
  | readIntFromAscii =>
      simp only [handleRead, ReadIntFromAscii.handleRead] at h
      split at h <;> obtain ⟨rfl, _⟩ := Prod.mk.inj (Except.ok.inj h) <;> omega
  | terminateListIfReadAhead terminator =>
      simp only [handleRead, TerminateListIfReadAhead.handleRead] at h
      split at h <;> obtain ⟨rfl, _⟩ := Prod.mk.inj (Except.ok.inj h) <;> omega
  | transitionLookahead _ | writeInt32Native | writeOctets
  | writeOctetsWithEscape _ | writeStaticOctets _ =>
      obtain ⟨rfl, _⟩ := Prod.mk.inj (Except.ok.inj h)
      exact Nat.zero_le _

theorem Interpreter.handleRead_le {interpreter interpreter' : Interpreter}
    {input : Octets} {consumed : Nat}
    (h : interpreter.handleRead input = .ok (consumed, interpreter')) :
    consumed ≤ input.length := by
  simp only [Interpreter.handleRead, Continuation.handleRead] at h
  cases hio : interpreter.top.inputOutput? with
  | none =>
      rw [hio] at h
      obtain ⟨rfl, _⟩ := Prod.mk.inj (Except.ok.inj h)
      exact Nat.zero_le _
  | some pair =>
      obtain ⟨operation, ctx⟩ := pair
      rw [hio] at h
      cases hread : operation.handleRead ctx input with
      | error fault => simp [hread, Except.map] at h
      | ok answer =>
          obtain ⟨consumed', ctx'⟩ := answer
          simp only [hread, Except.map, Except.ok.injEq, Prod.mk.injEq] at h
          obtain ⟨rfl, _⟩ := h
          exact InputOutputOperation.handleRead_le hread

namespace InterpreterContext

/-- A pass that does not wait for input leaves the input queue and the flag
alone. -/
theorem handleBlockedInterpreter_inputBuffer
    {context context' : InterpreterContext} {result : HandleBlockedResult}
    (hother : context.interpreter.getResult ≠ .blocked .waitingForRead)
    (h : context.handleBlockedInterpreter = .ok (result, context')) :
    context'.inputBuffer = context.inputBuffer ∧
      context'.eof = context.eof := by
  unfold handleBlockedInterpreter at h
  split at h
  · rename_i hread
    exact absurd hread hother
  · simp only [handleWrite] at h
    split at h <;> obtain ⟨_, rfl⟩ := Prod.mk.inj (Except.ok.inj h) <;>
      exact ⟨rfl, rfl⟩
  · obtain ⟨_, rfl⟩ := Prod.mk.inj (Except.ok.inj h)
    exact ⟨rfl, rfl⟩
  · simp only [handleFinishCallback] at h
    split at h <;> obtain ⟨_, rfl⟩ := Prod.mk.inj (Except.ok.inj h) <;>
      exact ⟨rfl, rfl⟩
  · obtain ⟨_, rfl⟩ := Prod.mk.inj (Except.ok.inj h)
    exact ⟨rfl, rfl⟩

theorem pass_inputBuffer {context context' : InterpreterContext}
    {errno errno' : Errno} {progress : Progress}
    (hother : ∀ interpreter errno',
      context.interpreter.step errno = .ok (.blocked, interpreter, errno') →
        interpreter.getResult ≠ .blocked .waitingForRead)
    (h : context.pass errno = .ok (progress, context', errno')) :
    context'.inputBuffer = context.inputBuffer ∧
      context'.eof = context.eof := by
  unfold pass at h
  split at h
  · obtain ⟨_, heq⟩ := Prod.mk.inj (Except.ok.inj h)
    obtain ⟨rfl, _⟩ := Prod.mk.inj heq
    exact ⟨rfl, rfl⟩
  · split at h
    · contradiction
    · rename_i interpreter errno₁ hstep
      have hresult := hother interpreter errno₁ hstep
      cases hblocked : { context with
          interpreter := interpreter }.handleBlockedInterpreter with
      | error fault => simp [hblocked, Except.map] at h
      | ok answer =>
          obtain ⟨result, context₁⟩ := answer
          rw [hblocked] at h
          obtain ⟨_, heq⟩ := Prod.mk.inj (Except.ok.inj h)
          obtain ⟨rfl, _⟩ := Prod.mk.inj heq
          have hkeep := handleBlockedInterpreter_inputBuffer hresult hblocked
          exact hkeep
    · obtain ⟨_, heq⟩ := Prod.mk.inj (Except.ok.inj h)
      obtain ⟨rfl, _⟩ := Prod.mk.inj heq
      exact ⟨rfl, rfl⟩
    · obtain ⟨_, heq⟩ := Prod.mk.inj (Except.ok.inj h)
      obtain ⟨rfl, _⟩ := Prod.mk.inj heq
      exact ⟨rfl, rfl⟩

end InterpreterContext

namespace ConcurrentState

/-- What a step outside of `handle_read` does: it enters `handle_read`, or it
leaves the input queue and the flag alone. -/
theorem stepOutside_cases {s t : ConcurrentState}
    (h : s.stepOutside = .ok t) :
    (∃ interpreter errno, t = { s with
      context := { s.context with interpreter := interpreter }
      errno := errno
      phase := .popping }) ∨
    ∃ progress context errno, t = { s with
      context := context
      errno := errno
      phase := .outside progress } ∧
      context.inputBuffer = s.context.inputBuffer ∧
      context.eof = s.context.eof := by
  have hpass : (∀ interpreter errno', s.context.exited = false →
        s.context.interpreter.step s.errno =
          .ok (.blocked, interpreter, errno') →
        interpreter.getResult ≠ .blocked .waitingForRead) →
      ((s.context.pass s.errno).map fun (progress, context, errno) =>
        { s with context := context, errno := errno
                 phase := .outside progress }) = .ok t →
      ∃ progress context errno, t = { s with
        context := context
        errno := errno
        phase := .outside progress } ∧
        context.inputBuffer = s.context.inputBuffer ∧
        context.eof = s.context.eof := by
    intro hother hmap
    cases hrun : s.context.pass s.errno with
    | error fault => simp [hrun, Except.map] at hmap
    | ok answer =>
        obtain ⟨progress, context, errno⟩ := answer
        rw [hrun] at hmap
        refine ⟨progress, context, errno, (Except.ok.inj hmap).symm, ?_⟩
        cases hexited : s.context.exited with
        | true =>
            rw [InterpreterContext.pass, if_pos hexited] at hrun
            obtain ⟨_, heq⟩ := Prod.mk.inj (Except.ok.inj hrun)
            obtain ⟨rfl, _⟩ := Prod.mk.inj heq
            exact ⟨rfl, rfl⟩
        | false =>
            exact pass_inputBuffer (fun i e hstep => hother i e hexited hstep)
              hrun
  unfold stepOutside at h
  split at h
  · rename_i hexited
    refine Or.inr (hpass ?_ h)
    intro _ _ hrunning
    rw [hrunning] at hexited
    contradiction
  · split at h
    · rename_i interpreter errno hstep
      split at h
      · exact Or.inl ⟨interpreter, errno, (Except.ok.inj h).symm⟩
      · rename_i hresult
        refine Or.inr (hpass ?_ h)
        intro interpreter' errno' _ hstep'
        obtain ⟨_, heq⟩ := Prod.mk.inj
          (Except.ok.inj (hstep.symm.trans hstep'))
        obtain ⟨rfl, _⟩ := Prod.mk.inj heq
        exact hresult
    · rename_i hstep
      refine Or.inr (hpass ?_ h)
      intro interpreter' errno' _ hstep'
      exact absurd hstep' (hstep interpreter' errno')

theorem offer_eq_ok {c : InterpreterContext} {interpreter : Interpreter}
    {joined : Octets} {count : Nat} (queue : List Octets) (didJoin : Bool)
    (errno : Errno) (consumed pushed : Octets)
    (h : c.interpreter.handleRead joined = .ok (count, interpreter)) :
    threadStep ⟨{ c with inputBuffer := queue }, errno,
        .offering joined didJoin, consumed, pushed⟩ =
      .ok ⟨{ c with interpreter := interpreter, inputBuffer := queue }, errno,
        if count = 0 then .joining joined didJoin
        else if count < joined.length then .pushingRest (joined.drop count)
        else .outside (.blocked .unblocked),
        consumed ++ joined.take count, pushed⟩ := by
  simp only [threadStep, offer, h]

/-- Once something was consumed the thread puts the rest back and leaves. -/
theorem consumed_reaches {c : InterpreterContext} {queue : List Octets}
    {joined : Octets} {didJoin : Bool} {count : Nat} {errno : Errno}
    {consumed pushed : Octets} (hcount : count ≠ 0) :
    Reaches threadStep
      ⟨{ c with inputBuffer := queue }, errno,
        if count = 0 then .joining joined didJoin
        else if count < joined.length then .pushingRest (joined.drop count)
        else .outside (.blocked .unblocked), consumed, pushed⟩
      ⟨{ c with inputBuffer := pushFrontUnconsumed joined count queue },
        errno, .outside (.blocked .unblocked), consumed, pushed⟩ := by
  rw [if_neg hcount, pushFrontUnconsumed]
  split
  · exact Reaches.single rfl
  · exact Reaches.refl _

/-- Left alone, the thread's joining loop is that of the runner. -/
theorem joining_reaches {c context : InterpreterContext}
    {queue : List Octets} {joined : Octets} {didJoin : Bool}
    {result : HandleBlockedResult} {errno : Errno} {consumed pushed : Octets}
    (h : c.joinBuffers joined didJoin queue = .ok (result, context)) :
    ∃ consumed', Reaches threadStep
      ⟨{ c with inputBuffer := queue }, errno, .joining joined didJoin,
        consumed, pushed⟩
      ⟨context, errno, .outside (.blocked result), consumed', pushed⟩ := by
  induction queue generalizing c joined didJoin consumed with
  | nil =>
      refine ⟨consumed, Reaches.head rfl (Reaches.single ?_)⟩
      simp only [joinBuffers] at h
      simp only [threadStep]
      split at h
      · rename_i hready
        obtain ⟨rfl, rfl⟩ := Prod.mk.inj (Except.ok.inj h)
        rw [if_pos hready]
      · rename_i hready
        rw [if_neg hready]
        split at h <;> rename_i hjoin <;>
          obtain ⟨rfl, rfl⟩ := Prod.mk.inj (Except.ok.inj h) <;>
          simp [hjoin]
  | cons nextbuffer queue ih =>
      simp only [joinBuffers] at h
      split at h
      · contradiction
      · rename_i count interpreter hread
        have hoffer := offer_eq_ok queue true errno consumed pushed hread
        split at h
        · rename_i hzero
          obtain ⟨consumed', hreach⟩ := ih h
          refine ⟨consumed', Reaches.head rfl (Reaches.head hoffer ?_)⟩
          rw [if_pos hzero]
          exact hreach
        · rename_i hcount
          obtain ⟨rfl, rfl⟩ := Prod.mk.inj (Except.ok.inj h)
          exact ⟨_, Reaches.head rfl (Reaches.head hoffer
            (consumed_reaches (c := { c with interpreter := interpreter })
              hcount))⟩

/-- Left alone, the thread's `handle_read` is that of the runner. -/
theorem handleRead_reaches {c context : InterpreterContext}
    {result : HandleBlockedResult} (errno : Errno) (consumed pushed : Octets)
    (h : c.handleRead = .ok (result, context)) :
    ∃ consumed', Reaches threadStep
      ⟨c, errno, .popping, consumed, pushed⟩
      ⟨context, errno, .outside (.blocked result), consumed', pushed⟩ := by
  unfold InterpreterContext.handleRead at h
  split at h
  · rename_i buffer queue hbuffer
    have hpop : threadStep ⟨c, errno, .popping, consumed, pushed⟩ =
        .ok ⟨{ c with inputBuffer := queue }, errno, .offering buffer false,
          consumed, pushed⟩ := by
      simp only [threadStep, hbuffer]
    split at h
    · contradiction
    · rename_i count interpreter hread
      have hoffer := offer_eq_ok queue false errno consumed pushed hread
      simp only at h
      split at h
      · rename_i hzero
        obtain ⟨consumed', hreach⟩ := joining_reaches h
        refine ⟨consumed', Reaches.head hpop (Reaches.head hoffer ?_)⟩
        rw [if_pos hzero]
        exact hreach
      · rename_i hcount
        obtain ⟨rfl, rfl⟩ := Prod.mk.inj (Except.ok.inj h)
        exact ⟨_, Reaches.head hpop (Reaches.head hoffer
          (consumed_reaches (c := { c with interpreter := interpreter })
            hcount))⟩
  · rename_i hbuffer
    have hpop : threadStep ⟨c, errno, .popping, consumed, pushed⟩ =
        .ok ⟨c, errno, .loading, consumed, pushed⟩ := by
      simp only [threadStep, hbuffer]
    refine ⟨consumed, Reaches.head hpop (Reaches.single ?_)⟩
    simp only [threadStep]
    split at h <;> rename_i heof <;>
      obtain ⟨rfl, rfl⟩ := Prod.mk.inj (Except.ok.inj h) <;>
      simp [heof]

/-- A pass of the runner is a run of the thread that nothing interrupts. -/
theorem pass_reaches {s : ConcurrentState} {progress : Progress}
    {context : InterpreterContext} {errno : Errno}
    (houtside : s.phase.isOutside = true)
    (h : s.context.pass s.errno = .ok (progress, context, errno)) :
    ∃ consumed, Reaches threadStep s
      ⟨context, errno, .outside progress, consumed, s.pushed⟩ := by
  have hthread : s.threadStep = s.stepOutside := by
    cases hphase : s.phase with
    | outside progress => simp only [threadStep, hphase]
    | _ => simp [hphase, ReadPhase.isOutside] at houtside
  have hother : ((s.context.pass s.errno).map fun (progress, context, errno) =>
      { s with context := context, errno := errno
               phase := .outside progress }) =
      .ok ⟨context, errno, .outside progress, s.consumed, s.pushed⟩ := by
    rw [h]
    rfl
  by_cases hexited : s.context.exited = true
  · refine ⟨s.consumed, Reaches.single ?_⟩
    rw [hthread, stepOutside, if_pos hexited, hother]
  · unfold InterpreterContext.pass at h
    rw [if_neg hexited] at h
    split at h
    · contradiction
    · rename_i interpreter errno' hstep
      cases hresult : interpreter.getResult with
      | blocked wait =>
          cases wait with
          | waitingForRead =>
              cases hread : { s.context with
                  interpreter := interpreter }.handleRead with
              | error fault =>
                  simp [handleBlockedInterpreter, hresult, hread, Except.map]
                    at h
              | ok answer =>
                  obtain ⟨result, context'⟩ := answer
                  simp only [handleBlockedInterpreter, hresult, hread,
                    Except.map, Except.ok.injEq, Prod.mk.injEq] at h
                  obtain ⟨rfl, rfl, rfl⟩ := h
                  obtain ⟨consumed, hreach⟩ := handleRead_reaches
                    errno' s.consumed s.pushed hread
                  refine ⟨consumed, Reaches.head ?_ hreach⟩
                  rw [hthread, stepOutside, if_neg hexited]
                  simp only [hstep, hresult]
          | _ =>
              refine ⟨s.consumed, Reaches.single ?_⟩
              rw [hthread, stepOutside, if_neg hexited]
              simp only [hstep, hresult, hother]
      | value value =>
          refine ⟨s.consumed, Reaches.single ?_⟩
          rw [hthread, stepOutside, if_neg hexited]
          simp only [hstep, hresult, hother]
    · rename_i hstep
      refine ⟨s.consumed, Reaches.single ?_⟩
      rw [hthread, stepOutside, if_neg hexited]
      simp only [hstep, hother]
    · rename_i state interpreter errno' hblocked _ hstep
      refine ⟨s.consumed, Reaches.single ?_⟩
      rw [hthread, stepOutside, if_neg hexited]
      cases state with
      | blocked => exact (hblocked rfl).elim
      | _ => simp only [hstep, hother]

/-- Every byte that arrived was consumed, is held, or is in the queue. -/
def Accounted (s : ConcurrentState) : Prop :=
  s.consumed ++ s.phase.held ++ s.context.inputBuffer.flatten = s.pushed

theorem offer_accounted {s t : ConcurrentState} {joined : Octets}
    {didJoin : Bool} (hphase : s.phase.held = joined) (hs : s.Accounted)
    (h : s.offer joined didJoin = .ok t) : t.Accounted := by
  unfold offer at h
  split at h
  · contradiction
  · rename_i consumed interpreter hread
    have hle := Interpreter.handleRead_le hread
    obtain rfl := Except.ok.inj h
    have hsplit : joined.take consumed ++ joined.drop consumed = joined :=
      List.take_append_drop consumed joined
    have hheld : (if consumed = 0 then ReadPhase.joining joined didJoin
        else if consumed < joined.length then
          .pushingRest (joined.drop consumed)
        else .outside (.blocked .unblocked)).held =
          joined.drop consumed := by
      split
      · rename_i hzero
        rw [hzero]
        rfl
      · split
        · rfl
        · exact (List.drop_of_length_le (by omega)).symm
    simp only [Accounted] at hs ⊢
    rw [hheld, ← hs, hphase, List.append_assoc s.consumed, hsplit]

theorem threadStep_accounted {s t : ConcurrentState} (hs : s.Accounted)
    (h : s.threadStep = .ok t) : t.Accounted := by
  have hs' := hs
  unfold Accounted at hs
  unfold threadStep at h
  split at h
  · rename_i progress hphase
    simp only [hphase, ReadPhase.held, List.append_nil] at hs
    rcases stepOutside_cases h with ⟨interpreter, errno, rfl⟩ |
      ⟨progress', context, errno, rfl, hbuffer, _⟩
    · simpa [Accounted, ReadPhase.held] using hs
    · simpa [Accounted, ReadPhase.held, hbuffer] using hs
  · rename_i hphase
    simp only [hphase, ReadPhase.held, List.append_nil] at hs
    split at h <;> rename_i hbuffer <;> obtain rfl := Except.ok.inj h <;>
      simpa [Accounted, ReadPhase.held, hbuffer] using hs
  · rename_i hphase
    simp only [hphase, ReadPhase.held, List.append_nil] at hs
    split at h <;> obtain rfl := Except.ok.inj h <;>
      simpa [Accounted, ReadPhase.held] using hs
  · rename_i joined didJoin hphase
    exact offer_accounted (by rw [hphase]; rfl) hs' h
  · rename_i joined didJoin hphase
    simp only [hphase, ReadPhase.held] at hs
    split at h <;> rename_i hbuffer <;> obtain rfl := Except.ok.inj h <;>
      simpa [Accounted, ReadPhase.held, hbuffer] using hs
  · rename_i joined didJoin hphase
    simp only [hphase, ReadPhase.held] at hs
    obtain rfl := Except.ok.inj h
    simpa [Accounted, ReadPhase.held] using hs
  · rename_i rest hphase
    simp only [hphase, ReadPhase.held] at hs
    obtain rfl := Except.ok.inj h
    simpa [Accounted, ReadPhase.held] using hs

/-- Nothing but the arrival of a chunk changes what was pushed. -/
theorem threadStep_pushed {s t : ConcurrentState}
    (h : s.threadStep = .ok t) : t.pushed = s.pushed := by
  unfold threadStep at h
  split at h
  · rcases stepOutside_cases h with ⟨_, _, rfl⟩ | ⟨_, _, _, rfl, _⟩ <;> rfl
  · split at h <;> obtain rfl := Except.ok.inj h <;> rfl
  · split at h <;> obtain rfl := Except.ok.inj h <;> rfl
  · unfold offer at h
    split at h
    · contradiction
    · obtain rfl := Except.ok.inj h
      rfl
  · split at h <;> obtain rfl := Except.ok.inj h <;> rfl
  · obtain rfl := Except.ok.inj h
    rfl
  · obtain rfl := Except.ok.inj h
    rfl

theorem run_accounted {events : List RunnerEvent} {s t : ConcurrentState}
    (hs : s.Accounted) (h : run event events s = .ok t) :
    t.Accounted ∧ t.pushed = s.pushed ++ deliveredBytes events := by
  induction events generalizing s with
  | nil =>
      obtain rfl : s = t := by simpa [run] using h
      exact ⟨hs, (List.append_nil _).symm⟩
  | cons e events ih =>
      obtain ⟨middle, hstep, hrest⟩ := run_cons_eq_ok h
      cases e with
      | chunk data =>
          obtain rfl := Except.ok.inj hstep
          obtain ⟨haccounted, hpushed⟩ := ih (by
            simp only [Accounted] at hs ⊢
            rw [List.flatten_append, ← List.append_assoc, hs]
            simp) hrest
          exact ⟨haccounted, by rw [hpushed, deliveredBytes,
            List.append_assoc]⟩
      | endOfInput =>
          obtain rfl := Except.ok.inj hstep
          exact ih (s := { s with context := { s.context with eof := true } })
            hs hrest
      | callbackResponse value =>
          obtain rfl := Except.ok.inj hstep
          exact ih (s := { s with context := { s.context with
            callbackResponseQueue :=
              s.context.callbackResponseQueue ++ [value] } }) hs hrest
      | pass =>
          obtain ⟨haccounted, hpushed⟩ := ih (threadStep_accounted hs hstep)
            hrest
          exact ⟨haccounted, by rw [hpushed, threadStep_pushed hstep]; rfl⟩

/-- Outside of `handle_read` the bytes consumed and the bytes in the queue are
the bytes that arrived, in order; and no operation consumes more than it is
given. -/
theorem input_conserved {optree : OpTreeNode} {arglist : Option Value}
    {errno : Errno} {events : List RunnerEvent} {s : ConcurrentState}
    (h : run event events (start optree arglist errno) = .ok s)
    (houtside : s.phase.isOutside = true) :
    s.consumed ++ s.context.inputBuffer.flatten = deliveredBytes events ∧
      ∀ (operation : InputOutputOperation)
        (ctx ctx' : InputOutputOperationContext) (input : Octets)
        (consumed : Nat),
        operation.handleRead ctx input = .ok (consumed, ctx') →
          consumed ≤ input.length := by
  refine ⟨?_, fun _ _ _ _ _ hread =>
    InputOutputOperation.handleRead_le hread⟩
  have hstart : (start optree arglist errno).Accounted := by
    simp [Accounted, start, ReadPhase.held]
  obtain ⟨haccounted, hpushed⟩ := run_accounted hstart h
  have hheld : s.phase.held = [] := by
    cases hphase : s.phase <;> simp_all [ReadPhase.isOutside, ReadPhase.held]
  rw [Accounted, hheld, List.append_nil, hpushed] at haccounted
  exact haccounted

/-- A line that arrives while the thread looks for more of it. -/
theorem input_conserved_line :
    ∃ s, run event
        [.chunk [97], .pass, .pass, .pass, .chunk [10, 98], .pass, .pass,
          .pass]
        (start (.mk (.inputOutput (.readOctetsUntilTerminator [10] none)) [])
          none 0) = .ok s ∧
      s.consumed ++ s.context.inputBuffer.flatten = [97, 10, 98] :=
  ⟨_, rfl, (@input_conserved
    (.mk (.inputOutput (.readOctetsUntilTerminator [10] none)) []) none 0
    [.chunk [97], .pass, .pass, .pass, .chunk [10, 98], .pass, .pass, .pass] _
    rfl rfl).1⟩

end ConcurrentState

end NetworkProtocolDsl
