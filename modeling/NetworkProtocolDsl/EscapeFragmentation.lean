/-
Reading an escaped field from a stream that arrives in chunks.

The scanning loop stores what it unescaped before it knows that the field is
complete.  A chunk boundary is harmless if the field is complete there, or if
neither the terminator nor the sequence appeared before it; any other boundary
can be turned into a wrong value.
-/
import NetworkProtocolDsl.EndOfInput

namespace NetworkProtocolDsl

open Run Escape

/-- A program that reads one escaped field. -/
def escapeReadTree (terminator : Octets) (escape : EscapeInfo) : OpTreeNode :=
  .mk (.inputOutput (.readOctetsUntilTerminator terminator (some escape))) []

namespace EscapeRead

variable (terminator : Octets) (escape : EscapeInfo) (errno : Errno)

def reader : Reader where
  operation := .readOctetsUntilTerminator terminator (some escape)
  children := []
  accumulator := []
  frames := []
  base := (RunnerState.start (escapeReadTree terminator escape) none
    errno).context
  ready := Nat.le_refl 0
  running := rfl

/-- The field is not evaluated yet. -/
def Reading (ctx : InputOutputOperationContext) (queue : List Octets)
    (s : RunnerState) : Prop :=
  ∃ result, s = ⟨(reader terminator escape errno).context ctx queue result,
    errno⟩

/-- The program exited with `value`. -/
def Done (value : Octets) (queue : List Octets) (s : RunnerState) : Prop :=
  s.context.exited = true ∧
    s.context.interpreterResult = some (.octets value) ∧
    s.context.inputBuffer = queue

variable {terminator escape errno}

theorem start_reading (errno : Errno) :
    Reading terminator escape errno {} []
      (.start (escapeReadTree terminator escape) none errno) :=
  ⟨_, rfl⟩

theorem Reading.append {ctx : InputOutputOperationContext}
    {queue : List Octets} {s : RunnerState}
    (h : Reading terminator escape errno ctx queue s) (chunks : List Octets) :
    Reading terminator escape errno ctx (queue ++ chunks)
      { s with context := { s.context with
        inputBuffer := s.context.inputBuffer ++ chunks } } := by
  obtain ⟨result, rfl⟩ := h
  exact ⟨result, rfl⟩

theorem Done.append {value : Octets} {queue : List Octets} {s : RunnerState}
    (h : Done value queue s) (chunks : List Octets) :
    Done value (queue ++ chunks)
      { s with context := { s.context with
        inputBuffer := s.context.inputBuffer ++ chunks } } := by
  obtain ⟨hexited, hresult, hqueue⟩ := h
  exact ⟨hexited, hresult, by simp [hqueue]⟩

theorem Done.pass {value : Octets} {queue : List Octets} {s : RunnerState}
    (h : Done value queue s) : s.pass = .ok s := by
  simp only [RunnerState.pass, InterpreterContext.pass, h.1, ↓reduceIte,
    Except.map]

theorem Reading.not_exited {ctx : InputOutputOperationContext}
    {queue : List Octets} {s : RunnerState}
    (h : Reading terminator escape errno ctx queue s) :
    s.context.exited = false ∧ s.context.interpreterResult = none ∧
      s.context.inputBuffer = queue := by
  obtain ⟨result, rfl⟩ := h
  exact ⟨rfl, rfl, rfl⟩

/-- A complete field is evaluated by the next pass. -/
theorem Reading.context_pass_ready {ctx : InputOutputOperationContext}
    {queue : List Octets} {s : RunnerState}
    (h : Reading terminator escape errno ctx queue s)
    (hready : ctx.ready = true) :
    ∃ context, s.context.pass s.errno = .ok (.exited, context, errno) ∧
      Done ctx.buffer queue ⟨context, errno⟩ := by
  obtain ⟨result, rfl⟩ := h
  have happly : ReadOctetsUntilTerminator.apply ctx =
      .value (.octets ctx.buffer) := by
    simp only [ReadOctetsUntilTerminator.apply, hready, ↓reduceIte]
  have hexecute : ((reader terminator escape errno).top ctx
      result).executeTop errno = .ok (.exited,
        { (reader terminator escape errno).top ctx result with
          stack := [], result := .value (.octets ctx.buffer) }, errno) := by
    simp only [Continuation.executeTop, Reader.top, Reader.frame, reader,
      ExecutionStackFrame.execute, OpTreeNode.operation,
      InputOutputOperation.apply, happly, Except.map]
  have hstep : ((reader terminator escape errno).context ctx queue
      result).interpreter.step errno = .ok (.exited,
        ⟨{ (reader terminator escape errno).top ctx result with
          stack := [], result := .value (.octets ctx.buffer) }, []⟩,
        errno) := by
    simp only [Interpreter.step, Reader.context, Continuation.step,
      Reader.prepare_top, hexecute]
    rfl
  refine ⟨{ (reader terminator escape errno).context ctx queue result with
    interpreter := ⟨{ (reader terminator escape errno).top ctx result with
      stack := [], result := .value (.octets ctx.buffer) }, []⟩
    exited := true
    interpreterResult := some (.octets ctx.buffer) }, ?_, rfl, rfl, rfl⟩
  unfold InterpreterContext.pass
  rw [if_neg (by simp [Reader.context, (reader terminator escape
    errno).running]), hstep]
  rfl

/-- A pass over a field that is not complete offers the queue. -/
theorem Reading.context_pass_waiting {ctx : InputOutputOperationContext}
    {queue : List Octets} {s : RunnerState}
    (h : Reading terminator escape errno ctx queue s)
    (hready : ctx.ready = false) (heof : ctx.eof = false)
    (hne : escape.sequence ≠ []) :
    ∃ report ctx' queue' context,
      (InputOutputOperation.readOctetsUntilTerminator terminator
        (some escape)).readQueue ctx false queue =
          .ok (report, ctx', queue') ∧
      s.context.pass s.errno = .ok (.blocked report, context, errno) ∧
      Reading terminator escape errno ctx' queue' ⟨context, errno⟩ := by
  obtain ⟨result, rfl⟩ := h
  have hwait : (reader terminator escape
      errno).operation.readyToEvaluate ctx = false := by
    simp [reader, InputOutputOperation.readyToEvaluate,
      ReadOctetsUntilTerminator.readyToEvaluate, hready, heof]
  have htotal : ∀ (ctx : InputOutputOperationContext) (input : Octets),
      ∃ answer, (InputOutputOperation.readOctetsUntilTerminator terminator
        (some escape)).handleRead ctx input = .ok answer := by
    intro ctx input
    by_cases hfield : ∃ value size, Field terminator escape.character
        escape.sequence input value size
    · obtain ⟨value, size, hfield⟩ := hfield
      exact ⟨_, ReadOctetsUntilTerminator.handleRead_field hfield ctx⟩
    · obtain ⟨read, heq, _, _⟩ :=
        ReadOctetsUntilTerminator.handleRead_no_field hne
          (fun value size hin => hfield ⟨value, size, hin⟩) ctx
      exact ⟨_, heq⟩
  obtain ⟨⟨report, ctx', queue'⟩, hread⟩ :=
    InputOutputOperation.readQueue_total htotal ctx false queue
  refine ⟨report, ctx', queue',
    (reader terminator escape errno).context ctx' queue'
      (.blocked .waitingForRead), hread, ?_, _, rfl⟩
  have hpass := (reader terminator escape errno).pass_eq errno queue result
    hwait
  have hread' : (reader terminator escape errno).operation.readQueue ctx
      (reader terminator escape errno).base.eof queue =
      .ok (report, ctx', queue') := hread
  rw [hread'] at hpass
  exact hpass

/-- The queue holds the given chunks, some of them joined. -/
def Joins (given queue : List Octets) : Prop :=
  queue.flatten = given.flatten ∧
    ∀ before after, queue = before ++ after → before ≠ [] →
      ∃ before' after', given = before' ++ after' ∧ before' ≠ [] ∧
        before'.flatten = before.flatten

theorem Joins.append {given queue : List Octets} (h : Joins given queue)
    (data : Octets) : Joins (given ++ [data]) (queue ++ [data]) := by
  refine ⟨by simp [h.1], ?_⟩
  intro before after heq hne
  rcases List.eq_nil_or_concat after with rfl | ⟨after', last, rfl⟩
  · rw [List.append_nil] at heq
    exact ⟨given ++ [data], [], by simp, by simp, by simp [← heq, h.1]⟩
  · rw [List.concat_eq_append, ← List.append_assoc] at heq
    obtain ⟨hqueue, _⟩ := List.append_inj' heq rfl
    obtain ⟨before', after'', rfl, hne', hflatten⟩ :=
      h.2 before after' hqueue hne
    exact ⟨before', after'' ++ [data], by simp, hne', hflatten⟩

theorem Joins.join {given queue : List Octets} (h : Joins given queue)
    (hqueue : queue ≠ []) : Joins given [queue.flatten] := by
  refine ⟨by simp [h.1], ?_⟩
  intro before after heq hne
  obtain ⟨rfl, _⟩ | ⟨rfl, _⟩ := List.append_eq_singleton_iff.mp heq.symm
  · exact absurd rfl hne
  · obtain ⟨before', after', hgiven, hne', hflatten⟩ :=
      h.2 queue [] (by simp) hqueue
    exact ⟨before', after', hgiven, hne', by simpa using hflatten⟩

/-- Offering a queue none of whose boundaries cuts into the field: either
nothing was complete and no trace is left, or the field was read. -/
theorem readQueue_harmless {value : Octets} {size : Nat}
    {queue queue' : List Octets} (hqueue : queue ≠ [])
    (hstarts : ∀ before after, queue = before ++ after → before ≠ [] →
      Field terminator escape.character escape.sequence before.flatten value
          size ∨
        ¬ terminator <:+: before.flatten ∧
          ¬ escape.sequence <:+: before.flatten)
    (hne : escape.sequence ≠ [])
    {report : HandleBlockedResult} {ctx' : InputOutputOperationContext}
    (h : (InputOutputOperation.readOctetsUntilTerminator terminator
      (some escape)).readQueue {} false queue =
        .ok (report, ctx', queue')) :
    (ctx' = {} ∧ queue' = [queue.flatten] ∧
      ¬ Field terminator escape.character escape.sequence queue.flatten value
        size) ∨
    (ctx' = { buffer := value, ready := true } ∧ report = .unblocked ∧
      queue'.flatten = queue.flatten.drop size ∧
      size ≤ queue.flatten.length) := by
  have hoffer : ∀ before next after ctx answer,
      queue = before ++ next :: after →
      ReadOctetsUntilTerminator.handleRead terminator (some escape) ctx
        (before.flatten ++ next) = .ok answer →
      (Field terminator escape.character escape.sequence
          (before.flatten ++ next) value size ∧
        answer = (size, { ctx with
          buffer := ctx.buffer ++ value, ready := true })) ∨
      (¬ Field terminator escape.character escape.sequence
          (before.flatten ++ next) value size ∧ answer = (0, ctx)) := by
    intro before next after ctx answer heq hread
    have hflatten : before.flatten ++ next = (before ++ [next]).flatten := by
      simp
    rcases hstarts (before ++ [next]) after (by simp [heq]) (by simp) with
      hfield | ⟨hterm, hseq⟩
    · rw [← hflatten] at hfield
      rw [ReadOctetsUntilTerminator.handleRead_field hfield] at hread
      exact Or.inl ⟨hfield, (Except.ok.inj hread).symm⟩
    · rw [← hflatten] at hterm hseq
      have hno : ∀ v n, ¬ Field terminator escape.character escape.sequence
          (before.flatten ++ next) v n :=
        fun v n hin => hterm hin.terminator_infix
      obtain ⟨read, heq', hnil, _⟩ :=
        ReadOctetsUntilTerminator.handleRead_no_field hne hno ctx
      rw [heq', hnil hseq, List.append_nil] at hread
      exact Or.inr ⟨hno value size, (Except.ok.inj hread).symm⟩
  have hkeep : ∀ before next after ctx ctx',
      queue = before ++ next :: after →
      ((ctx = {} ∧ (before ≠ [] → ¬ Field terminator escape.character
          escape.sequence before.flatten value size)) ∨
        (ctx = { buffer := value, ready := true } ∧ size = 0 ∧
          value = [])) →
      ReadOctetsUntilTerminator.handleRead terminator (some escape) ctx
        (before.flatten ++ next) = .ok (0, ctx') →
      ((ctx' = {} ∧ (before ++ [next] ≠ [] → ¬ Field terminator
          escape.character escape.sequence (before ++ [next]).flatten value
          size)) ∨
        (ctx' = { buffer := value, ready := true } ∧ size = 0 ∧
          value = [])) := by
    intro before next after ctx ctx' heq hinv hread
    have hflatten : (before ++ [next]).flatten = before.flatten ++ next := by
      simp
    rw [hflatten]
    rcases hoffer before next after ctx _ heq hread with
      ⟨hfield, hanswer⟩ | ⟨hnot, hanswer⟩
    · obtain ⟨hsize, rfl⟩ := Prod.mk.inj hanswer
      have hnil : value = [] := (hsize ▸ hfield).value_of_size_zero
      subst hnil
      rcases hinv with ⟨rfl, _⟩ | ⟨rfl, _, _⟩ <;>
        exact Or.inr ⟨by simp, hsize.symm, rfl⟩
    · obtain ⟨_, rfl⟩ := Prod.mk.inj hanswer
      rcases hinv with ⟨rfl, _⟩ | hready
      · exact Or.inl ⟨rfl, fun _ => hnot⟩
      · exact Or.inr hready
  rcases InputOutputOperation.readQueue_cases _ hkeep
      (Or.inl ⟨rfl, fun h => absurd rfl h⟩) hqueue h with
    ⟨rfl, ⟨rfl, hnot⟩ | ⟨rfl, rfl, rfl⟩, hready, _⟩ |
      ⟨hreport, before, next, after, middle, consumed, heq, hinv, hread,
        hpos, rfl⟩
  · exact Or.inl ⟨rfl, rfl, hnot hqueue⟩
  · refine Or.inr ⟨rfl, hready.mpr rfl, by simp, Nat.zero_le _⟩
  · rcases hoffer before next after middle _ heq hread with
      ⟨hfield, hanswer⟩ | ⟨_, hanswer⟩
    · obtain ⟨rfl, rfl⟩ := Prod.mk.inj hanswer
      have hle := hfield.size_le
      rcases hinv with ⟨rfl, _⟩ | ⟨_, hzero, _⟩
      · have hflatten : queue.flatten =
            before.flatten ++ next ++ after.flatten := by
          rw [heq]
          simp
        refine Or.inr ⟨by simp, hreport, ?_, ?_⟩
        · rw [hflatten, List.drop_append_of_le_length hle]
          unfold InterpreterContext.pushFrontUnconsumed
          split
          · simp
          · rw [List.drop_of_length_le (by omega), List.nil_append]
        · rw [hflatten, List.length_append]
          omega
      · omega
    · have := (Prod.mk.inj hanswer).1
      omega

/-- The boundaries of `chunks` do not show: at each of them the field of the
whole stream is complete, or nothing that ends or escapes it appeared, or no
field is complete there nor in the whole stream. -/
def HarmlessCut (terminator : Octets) (escape : EscapeInfo)
    (chunks : List Octets) : Prop :=
  ∀ before after, chunks = before ++ after → before ≠ [] →
    (∃ value size,
      Field terminator escape.character escape.sequence before.flatten value
        size ∧
      Field terminator escape.character escape.sequence chunks.flatten value
        size) ∨
    (¬ terminator <:+: before.flatten ∧
      ¬ escape.sequence <:+: before.flatten) ∨
    ((∀ value size, ¬ Field terminator escape.character escape.sequence
        before.flatten value size) ∧
      ∀ value size, ¬ Field terminator escape.character escape.sequence
        chunks.flatten value size)

/-- What the outside sees of a state: the result and the unconsumed bytes. -/
def outcome (s : RunnerState) : Option Value × Octets :=
  (s.context.interpreterResult, s.context.inputBuffer.flatten)

/-- The field was read, or nothing was consumed and no trace is left. -/
def FieldInvariant (terminator : Octets) (escape : EscapeInfo)
    (errno : Errno) (value : Octets) (size : Nat) (given : List Octets)
    (s : RunnerState) : Prop :=
  (∃ queue, Reading terminator escape errno {} queue s ∧
    Joins given queue) ∨
  ∃ queue, (Reading terminator escape errno
      { buffer := value, ready := true } queue s ∨ Done value queue s) ∧
    queue.flatten = given.flatten.drop size ∧ size ≤ given.flatten.length

variable {chunks : List Octets} {value : Octets} {size : Nat}

theorem fieldInvariant_push {given : List Octets} {s : RunnerState}
    (h : FieldInvariant terminator escape errno value size given s)
    (data : Octets) :
    FieldInvariant terminator escape errno value size (given ++ [data])
      (s.push data) := by
  rcases h with ⟨queue, hreading, hjoins⟩ | ⟨queue, hread, hqueue, hle⟩
  · exact Or.inl ⟨queue ++ [data], hreading.append [data],
      hjoins.append data⟩
  · refine Or.inr ⟨queue ++ [data], ?_, ?_, ?_⟩
    · exact hread.imp (fun h => h.append [data]) (fun h => h.append [data])
    · simp [hqueue, List.drop_append_of_le_length hle]
    · simp only [List.flatten_append, List.length_append]
      omega

/-- At a boundary of a harmless cut the field of the stream is complete, or
nothing appeared. -/
theorem harmless_initial (hharmless : HarmlessCut terminator escape chunks)
    (hfield : Field terminator escape.character escape.sequence
      chunks.flatten value size)
    {given rest queue : List Octets} (hchunks : chunks = given ++ rest)
    (hjoins : Joins given queue) :
    ∀ before after, queue = before ++ after → before ≠ [] →
      Field terminator escape.character escape.sequence before.flatten value
          size ∨
        ¬ terminator <:+: before.flatten ∧
          ¬ escape.sequence <:+: before.flatten := by
  intro before after heq hne
  obtain ⟨before', after', rfl, hne', hflatten⟩ := hjoins.2 before after heq hne
  rw [← hflatten]
  rcases hharmless before' (after' ++ rest) (by simp [hchunks]) hne' with
    ⟨v, n, hat, hwhole⟩ | hclean | ⟨_, hnone⟩
  · obtain ⟨rfl, rfl⟩ := hwhole.unique hfield
    exact Or.inl hat
  · exact Or.inr hclean
  · exact absurd hfield (hnone value size)

theorem fieldInvariant_pass (hharmless : HarmlessCut terminator escape chunks)
    (hfield : Field terminator escape.character escape.sequence
      chunks.flatten value size)
    {given rest : List Octets} (hchunks : chunks = given ++ rest)
    {s t : RunnerState}
    (h : FieldInvariant terminator escape errno value size given s)
    (hpass : s.pass = .ok t) :
    FieldInvariant terminator escape errno value size given t := by
  rcases h with
    ⟨queue, hreading, hjoins⟩ | ⟨queue, hready | hdone, hqueue, hle⟩
  · obtain ⟨report, ctx', queue', context, hread, hcontext, hreading'⟩ :=
      hreading.context_pass_waiting rfl rfl hfield.sequence_ne_nil
    rw [RunnerState.pass, hcontext] at hpass
    obtain rfl := Except.ok.inj hpass
    by_cases hnil : queue = []
    · subst hnil
      simp only [InputOutputOperation.readQueue, Bool.false_eq_true,
        ↓reduceIte, Except.ok.injEq, Prod.mk.injEq] at hread
      obtain ⟨_, rfl, rfl⟩ := hread
      exact Or.inl ⟨[], hreading', hjoins⟩
    · rcases readQueue_harmless hnil
          (harmless_initial hharmless hfield hchunks hjoins)
          hfield.sequence_ne_nil hread with
        ⟨rfl, rfl, _⟩ | ⟨rfl, _, hdrop, hle⟩
      · exact Or.inl ⟨_, hreading', hjoins.join hnil⟩
      · rw [hjoins.1] at hdrop hle
        exact Or.inr ⟨queue', Or.inl hreading', hdrop, hle⟩
  · obtain ⟨context, hcontext, hdone⟩ := hready.context_pass_ready rfl
    rw [RunnerState.pass, hcontext] at hpass
    obtain rfl := Except.ok.inj hpass
    exact Or.inr ⟨queue, Or.inr hdone, hqueue, hle⟩
  · rw [hdone.pass] at hpass
    obtain rfl := Except.ok.inj hpass
    exact Or.inr ⟨queue, Or.inr hdone, hqueue, hle⟩

/-- After a harmless cut the field of the stream was read. -/
theorem outcome_of_field (hharmless : HarmlessCut terminator escape chunks)
    (hfield : Field terminator escape.character escape.sequence
      chunks.flatten value size)
    {s : RunnerState}
    (hdelivered : RunnerState.Delivered
      (.start (escapeReadTree terminator escape) none errno) chunks s)
    (hsettled : s.Settled) :
    outcome s = (some (.octets value), chunks.flatten.drop size) := by
  have hinv : FieldInvariant terminator escape errno value size chunks s := by
    refine hdelivered.invariant _ ?_ ?_ ?_
    · exact fun given data rest s _ h => fieldInvariant_push h data
    · exact fun given rest s t hchunks h hpass =>
        fieldInvariant_pass hharmless hfield hchunks h hpass
    · refine Or.inl ⟨[], start_reading errno, rfl, ?_⟩
      intro before after heq hne
      exact absurd (List.append_eq_nil_iff.mp heq.symm).1 hne
  rcases hinv with
    ⟨queue, hreading, hjoins⟩ | ⟨queue, hready | hdone, hqueue, _⟩
  · exfalso
    have hnil : queue ≠ [] := by
      rintro rfl
      rw [← hjoins.1] at hfield
      exact Field.not_nil hfield
    obtain ⟨report, ctx', queue', context, hread, hcontext, _⟩ :=
      hreading.context_pass_waiting rfl rfl hfield.sequence_ne_nil
    rcases hsettled with hexited | ⟨context', errno', hstill⟩
    · rw [hreading.not_exited.1] at hexited
      contradiction
    · rw [hcontext] at hstill
      simp only [Except.ok.injEq, Prod.mk.injEq,
        InterpreterContext.Progress.blocked.injEq] at hstill
      rcases readQueue_harmless hnil
          (harmless_initial hharmless hfield (List.append_nil chunks).symm
            hjoins) hfield.sequence_ne_nil hread with
        ⟨_, _, hnot⟩ | ⟨_, hreport, _⟩
      · rw [hjoins.1] at hnot
        exact hnot hfield
      · rw [hreport] at hstill
        simp at hstill
  · exfalso
    obtain ⟨context, hcontext, _⟩ := hready.context_pass_ready rfl
    rcases hsettled with hexited | ⟨context', errno', hstill⟩
    · rw [hready.not_exited.1] at hexited
      contradiction
    · rw [hcontext] at hstill
      simp at hstill
  · simp only [outcome, hdone.2.1, hdone.2.2, hqueue]

/-- Where no boundary completes a field nothing is read. -/
theorem outcome_of_no_field
    (hnone : ∀ before after, chunks = before ++ after → before ≠ [] →
      ∀ value size, ¬ Field terminator escape.character escape.sequence
        before.flatten value size)
    (hne : escape.sequence ≠ [])
    {s : RunnerState}
    (hdelivered : RunnerState.Delivered
      (.start (escapeReadTree terminator escape) none errno) chunks s) :
    outcome s = (none, chunks.flatten) := by
  have hinv : ∃ ctx queue, Reading terminator escape errno ctx queue s ∧
      ctx.ready = false ∧ ctx.eof = false ∧ Joins chunks queue := by
    refine hdelivered.invariant (fun given s => ∃ ctx queue,
      Reading terminator escape errno ctx queue s ∧
        ctx.ready = false ∧ ctx.eof = false ∧ Joins given queue) ?_ ?_ ?_
    · rintro given data rest s _ ⟨ctx, queue, hreading, hready, heof, hjoins⟩
      exact ⟨ctx, queue ++ [data], hreading.append [data], hready, heof,
        hjoins.append data⟩
    · rintro given rest s t hchunks ⟨ctx, queue, hreading, hready, heof,
        hjoins⟩ hpass
      obtain ⟨report, ctx', queue', context, hread, hcontext, hreading'⟩ :=
        hreading.context_pass_waiting hready heof hne
      rw [RunnerState.pass, hcontext] at hpass
      obtain rfl := Except.ok.inj hpass
      by_cases hnil : queue = []
      · subst hnil
        simp only [InputOutputOperation.readQueue, Bool.false_eq_true,
          ↓reduceIte, Except.ok.injEq, Prod.mk.injEq] at hread
        obtain ⟨_, rfl, rfl⟩ := hread
        exact ⟨ctx, [], hreading', hready, heof, hjoins⟩
      · obtain ⟨heof', hfinished, hqueue'⟩ :=
          (InputOutputOperation.readUntilEscape_completing terminator
            escape).readQueue (by simp [hready]) hnil hread
        have hunfinished : ¬ ctx'.ready = true := by
          rw [hfinished]
          rintro ⟨before, after, heq, hbefore, v, n, hfield⟩
          obtain ⟨before', after', rfl, hne', hflatten⟩ :=
            hjoins.2 before after heq hbefore
          rw [← hflatten] at hfield
          exact hnone before' (after' ++ rest) (by simp [hchunks]) hne' v n
            hfield
        rw [hqueue' hunfinished] at hreading'
        exact ⟨ctx', _, hreading', by simpa using hunfinished,
          heof'.trans heof, hjoins.join hnil⟩
    · refine ⟨{}, [], start_reading errno, rfl, rfl, rfl, ?_⟩
      intro before after heq hbefore
      exact absurd (List.append_eq_nil_iff.mp heq.symm).1 hbefore
  obtain ⟨ctx, queue, hreading, _, _, hjoins⟩ := hinv
  simp only [outcome, hreading.not_exited.2.1, hreading.not_exited.2.2,
    hjoins.1]

/-- However the chunks are interleaved with passes, once the loop settles the
result and the unconsumed bytes are those of the stream in one chunk. -/
def FragmentationIndependent (terminator : Octets) (escape : EscapeInfo)
    (errno : Errno) (chunks : List Octets) : Prop :=
  ∀ s t : RunnerState,
    RunnerState.Delivered
      (.start (escapeReadTree terminator escape) none errno) chunks s →
    s.Settled →
    RunnerState.Delivered
      (.start (escapeReadTree terminator escape) none errno)
      [chunks.flatten] t →
    t.Settled → outcome s = outcome t

theorem harmless_single (terminator : Octets) (escape : EscapeInfo)
    (stream : Octets) : HarmlessCut terminator escape [stream] := by
  intro before after heq hne
  obtain ⟨rfl, _⟩ | ⟨rfl, _⟩ := List.append_eq_singleton_iff.mp heq.symm
  · exact absurd rfl hne
  · by_cases hfield : ∃ value size, Field terminator escape.character
        escape.sequence [stream].flatten value size
    · obtain ⟨value, size, hfield⟩ := hfield
      exact Or.inl ⟨value, size, hfield, hfield⟩
    · have hnone : ∀ value size, ¬ Field terminator escape.character
          escape.sequence [stream].flatten value size :=
        fun value size hin => hfield ⟨value, size, hin⟩
      exact Or.inr (Or.inr ⟨hnone, hnone⟩)

theorem no_field_of_harmless (hharmless : HarmlessCut terminator escape chunks)
    (hnone : ∀ value size, ¬ Field terminator escape.character escape.sequence
      chunks.flatten value size) :
    ∀ before after, chunks = before ++ after → before ≠ [] →
      ∀ value size, ¬ Field terminator escape.character escape.sequence
        before.flatten value size := by
  intro before after heq hne value size hfield
  rcases hharmless before after heq hne with
    ⟨v, n, _, hwhole⟩ | ⟨hterm, _⟩ | ⟨hno, _⟩
  · exact hnone v n hwhole
  · exact hterm hfield.terminator_infix
  · exact hno value size hfield

theorem independent_of_harmless (hne : escape.sequence ≠ [])
    (hharmless : HarmlessCut terminator escape chunks) :
    FragmentationIndependent terminator escape errno chunks := by
  intro s t hdelivered hsettled hwhole hsettled'
  have hsingle := harmless_single terminator escape chunks.flatten
  have hflatten : [chunks.flatten].flatten = chunks.flatten := by simp
  by_cases hfield : ∃ value size, Field terminator escape.character
      escape.sequence chunks.flatten value size
  · obtain ⟨value, size, hfield⟩ := hfield
    rw [outcome_of_field hharmless hfield hdelivered hsettled,
      outcome_of_field hsingle (by rw [hflatten]; exact hfield) hwhole
        hsettled', hflatten]
  · have hnone : ∀ value size, ¬ Field terminator escape.character
        escape.sequence chunks.flatten value size :=
      fun value size hin => hfield ⟨value, size, hin⟩
    rw [outcome_of_no_field (no_field_of_harmless hharmless hnone) hne
        hdelivered,
      outcome_of_no_field (no_field_of_harmless hsingle (by
        rw [hflatten]; exact hnone)) hne hwhole, hflatten]

theorem Reading.settles_of_ready {ctx : InputOutputOperationContext}
    {queue : List Octets} {s : RunnerState}
    (h : Reading terminator escape errno ctx queue s)
    (hready : ctx.ready = true) :
    ∃ t, RunnerState.Passes s t ∧ t.Settled ∧ Done ctx.buffer queue t := by
  obtain ⟨context, hcontext, hdone⟩ := h.context_pass_ready hready
  refine ⟨⟨context, errno⟩, Reaches.single ?_, Or.inl hdone.1, hdone⟩
  simp only [RunnerState.pass, hcontext, Except.map]

/-- Passes alone lead to a settled state. -/
theorem Reading.settles {ctx : InputOutputOperationContext}
    {queue : List Octets} {s : RunnerState} (hne : escape.sequence ≠ [])
    (h : Reading terminator escape errno ctx queue s)
    (heof : ctx.eof = false) :
    ∃ t, RunnerState.Passes s t ∧ t.Settled := by
  cases hready : ctx.ready with
  | true =>
      obtain ⟨t, hpasses, hsettled, _⟩ := h.settles_of_ready hready
      exact ⟨t, hpasses, hsettled⟩
  | false =>
      obtain ⟨report, ctx', queue', context, hread, hcontext, hreading⟩ :=
        h.context_pass_waiting hready heof hne
      have hpass : s.pass = .ok ⟨context, errno⟩ := by
        simp only [RunnerState.pass, hcontext, Except.map]
      by_cases hnil : queue = []
      · subst hnil
        simp only [InputOutputOperation.readQueue, Bool.false_eq_true,
          ↓reduceIte, Except.ok.injEq, Prod.mk.injEq] at hread
        refine ⟨s, Reaches.refl s, Or.inr ⟨context, errno, ?_⟩⟩
        rw [hcontext, ← hread.1]
      · have hop := InputOutputOperation.readUntilEscape_completing
          terminator escape
        obtain ⟨heof', hfinished, hqueue'⟩ :=
          hop.readQueue (by simp [hready]) hnil hread
        cases hready' : ctx'.ready with
        | true =>
            obtain ⟨t, hpasses, hsettled, _⟩ :=
              hreading.settles_of_ready hready'
            exact ⟨t, Reaches.head hpass hpasses, hsettled⟩
        | false =>
            rw [hqueue' (by simp [hready'])] at hreading
            refine ⟨_, Reaches.single hpass, Or.inr ?_⟩
            obtain ⟨report', ctx'', queue'', context', hread', hcontext',
              _⟩ := hreading.context_pass_waiting hready'
                (heof'.trans heof) hne
            obtain ⟨heof'', hfinished', _⟩ :=
              hop.readQueue (by simp [hready']) (by simp) hread'
            have hunfinished : ctx''.ready = false := by
              rw [← Bool.not_eq_true, hfinished']
              rintro ⟨before, after, heq, hbefore, hcompletes⟩
              obtain ⟨rfl, _⟩ | ⟨rfl, _⟩ :=
                List.append_eq_singleton_iff.mp heq.symm
              · exact hbefore rfl
              · apply Bool.false_ne_true
                rw [← hready', hfinished]
                exact ⟨queue, [], by simp, hnil, by simpa using hcompletes⟩
            have hreport : report' = .stillBlocked := by
              rcases InputOutputOperation.readQueue_cases
                  (fun _ _ => True) (fun _ _ _ _ _ _ _ _ => trivial) trivial
                  (by simp) hread' with
                ⟨_, _, _, hstill⟩ | ⟨_, before, next, after, middle, consumed,
                  _, _, hr, hpos, _⟩
              · rw [hstill]
                simp [InputOutputOperation.readyToEvaluate,
                  ReadOctetsUntilTerminator.readyToEvaluate, hunfinished,
                  heof'', heof', heof]
              · obtain ⟨_, ⟨_, hdone⟩ | ⟨_, hzero, _⟩⟩ := hop.handleRead hr
                · rw [hunfinished] at hdone
                  contradiction
                · omega
            exact ⟨context', errno, by rw [← hreport]; exact hcontext'⟩

/-- The stream in one chunk settles with the field it starts with. -/
theorem whole_of_field (stream : Octets)
    (hfield : Field terminator escape.character escape.sequence stream value
      size) :
    ∃ t, RunnerState.Delivered
        (.start (escapeReadTree terminator escape) none errno) [stream] t ∧
      t.Settled ∧ outcome t = (some (.octets value), stream.drop size) := by
  have hdelivered := (RunnerState.Delivered.start (.start
    (escapeReadTree terminator escape) none errno)).append [stream]
  obtain ⟨t, hpasses, hsettled⟩ := ((start_reading errno).append
    [stream]).settles hfield.sequence_ne_nil rfl
  refine ⟨t, hdelivered.passes hpasses, hsettled, ?_⟩
  have hflatten : [stream].flatten = stream := by simp
  rw [outcome_of_field (harmless_single terminator escape stream)
    (by rw [hflatten]; exact hfield) (hdelivered.passes hpasses) hsettled,
    hflatten]

theorem whole_of_no_field (hne : escape.sequence ≠ []) (stream : Octets)
    (hnone : ∀ value size, ¬ Field terminator escape.character
      escape.sequence stream value size) :
    ∃ t, RunnerState.Delivered
        (.start (escapeReadTree terminator escape) none errno) [stream] t ∧
      t.Settled ∧ outcome t = (none, stream) := by
  have hdelivered := (RunnerState.Delivered.start (.start
    (escapeReadTree terminator escape) none errno)).append [stream]
  obtain ⟨t, hpasses, hsettled⟩ := ((start_reading errno).append
    [stream]).settles hne rfl
  refine ⟨t, hdelivered.passes hpasses, hsettled, ?_⟩
  have hflatten : [stream].flatten = stream := by simp
  rw [outcome_of_no_field (no_field_of_harmless
    (harmless_single terminator escape stream) (by
      rw [hflatten]; exact hnone)) hne (hdelivered.passes hpasses), hflatten]

/-- Once a field is read, whatever else arrives is left alone. -/
theorem outcome_of_ready {ctx : InputOutputOperationContext}
    {before queue : List Octets} {s : RunnerState}
    (hdelivered : RunnerState.Delivered
      (.start (escapeReadTree terminator escape) none errno) before s)
    (h : Reading terminator escape errno ctx queue s)
    (hready : ctx.ready = true) (after : List Octets) :
    ∃ t, RunnerState.Delivered
        (.start (escapeReadTree terminator escape) none errno)
        (before ++ after) t ∧
      t.Settled ∧
      outcome t = (some (.octets ctx.buffer), (queue ++ after).flatten) := by
  obtain ⟨t, hpasses, _, hdone⟩ := h.settles_of_ready hready
  have hdone' := hdone.append after
  refine ⟨_, (hdelivered.passes hpasses).append after, Or.inl hdone'.1, ?_⟩
  simp only [outcome, hdone.2.1, hdone.2.2]

/-- A pass over chunks of which all but the last show nothing amounts to one
call on everything that arrived. -/
theorem pass_of_clean {init : List Octets} {last : Octets}
    (hne : escape.sequence ≠ [])
    (hclean : init ≠ [] → ¬ terminator <:+: init.flatten ∧
      ¬ escape.sequence <:+: init.flatten)
    {s : RunnerState}
    (h : Reading terminator escape errno {} (init ++ [last]) s) :
    ∃ consumed ctx' queue' t,
      ReadOctetsUntilTerminator.handleRead terminator (some escape) {}
        (init ++ [last]).flatten = .ok (consumed, ctx') ∧
      s.pass = .ok t ∧ Reading terminator escape errno ctx' queue' t ∧
      queue'.flatten = (init ++ [last]).flatten.drop consumed := by
  obtain ⟨report, ctx', queue', context, hread, hcontext, hreading⟩ :=
    h.context_pass_waiting rfl rfl hne
  have hpass : s.pass = .ok ⟨context, errno⟩ := by
    simp only [RunnerState.pass, hcontext, Except.map]
  have hfresh : ∀ before next after ctx answer,
      init = before ++ next :: after →
      ReadOctetsUntilTerminator.handleRead terminator (some escape) ctx
        (before.flatten ++ next) = .ok answer → answer = (0, ctx) := by
    intro before next after ctx answer heq hr
    obtain ⟨hterm, hseq⟩ := hclean (by simp [heq])
    have hinfix : before.flatten ++ next <:+: init.flatten := by
      rw [heq]
      simpa using (List.prefix_append (before.flatten ++ next)
        after.flatten).isInfix
    obtain ⟨read, heq', hnil, _⟩ :=
      ReadOctetsUntilTerminator.handleRead_no_field hne
        (fun v n hin => hterm (hin.terminator_infix.trans hinfix)) ctx
    rw [heq', hnil fun hin => hseq (hin.trans hinfix),
      List.append_nil] at hr
    exact (Except.ok.inj hr).symm
  have hsplit : ∀ (before : List Octets) (next : Octets) after,
      init ++ [last] = before ++ next :: after →
      (after = [] ∧ before = init ∧ next = last) ∨
        ∃ after', init = before ++ next :: after' := by
    intro before next after heq
    rcases List.eq_nil_or_concat after with rfl | ⟨after', last', rfl⟩
    · obtain ⟨hinit, hlast⟩ := List.append_inj' heq rfl
      exact Or.inl ⟨rfl, hinit.symm, (List.cons.inj hlast).1.symm⟩
    · rw [List.concat_eq_append, ← List.cons_append,
        ← List.append_assoc] at heq
      exact Or.inr ⟨after', (List.append_inj' heq rfl).1⟩
  have hkeep : ∀ before next after ctx ctx',
      init ++ [last] = before ++ next :: after →
      ((before.length ≤ init.length → ctx = {}) ∧
        (init.length < before.length →
          ReadOctetsUntilTerminator.handleRead terminator (some escape) {}
            before.flatten = .ok (0, ctx))) →
      ReadOctetsUntilTerminator.handleRead terminator (some escape) ctx
        (before.flatten ++ next) = .ok (0, ctx') →
      (((before ++ [next]).length ≤ init.length → ctx' = {}) ∧
        (init.length < (before ++ [next]).length →
          ReadOctetsUntilTerminator.handleRead terminator (some escape) {}
            (before ++ [next]).flatten = .ok (0, ctx'))) := by
    intro before next after ctx ctx' heq hinv hr
    rcases hsplit before next after heq with ⟨rfl, rfl, rfl⟩ | ⟨after', hinit⟩
    · obtain rfl := hinv.1 (Nat.le_refl _)
      refine ⟨fun hle => ?_, fun _ => by simpa using hr⟩
      simp only [List.length_append, List.length_singleton] at hle
      omega
    · have hlen : before.length + 1 ≤ init.length := by
        rw [hinit]
        simp
      obtain rfl := hinv.1 (by omega)
      obtain rfl := (Prod.mk.inj (hfresh _ _ _ _ _ hinit hr)).2
      refine ⟨fun _ => rfl, fun hlt => ?_⟩
      simp only [List.length_append, List.length_singleton] at hlt
      omega
  rcases InputOutputOperation.readQueue_cases _ hkeep
      ⟨fun _ => rfl, fun hlt => absurd hlt (Nat.not_lt_zero _)⟩ (by simp)
      hread with
    ⟨rfl, ⟨_, hlast⟩, _, _⟩ | ⟨_, before, next, after, middle, consumed, heq,
      hinv, hr, hpos, rfl⟩
  · exact ⟨0, ctx', _, _, hlast (by simp), hpass, hreading, by simp⟩
  · rcases hsplit before next after heq with ⟨rfl, rfl, rfl⟩ | ⟨after', hinit⟩
    · obtain rfl := hinv.1 (Nat.le_refl _)
      have hflatten : (before ++ [next]).flatten =
          before.flatten ++ next := by
        simp
      rw [hflatten]
      refine ⟨consumed, ctx', _, _, hr, hpass, hreading, ?_⟩
      unfold InterpreterContext.pushFrontUnconsumed
      split
      · simp
      · rw [List.drop_of_length_le (by omega)]
        rfl
    · have hzero := (Prod.mk.inj (hfresh _ _ _ _ _ hinit hr)).1
      omega

/-- What was unescaped before the field was complete never leaves the
buffer. -/
theorem outcome_of_polluted {ctx : InputOutputOperationContext}
    {queue : List Octets} {s : RunnerState}
    (h : Reading terminator escape errno ctx queue s)
    (hready : ctx.ready = false) (heof : ctx.eof = false)
    (hbuffer : ctx.buffer ≠ [])
    (hfield : Field terminator escape.character escape.sequence queue.flatten
      value size) :
    ∃ t, RunnerState.Passes s t ∧ t.Settled ∧
      outcome t ≠ (some (.octets value), queue.flatten.drop size) := by
  have hne := hfield.sequence_ne_nil
  have hqueue : queue ≠ [] := by
    rintro rfl
    exact Field.not_nil hfield
  obtain ⟨report, ctx', queue', context, hread, hcontext, hreading⟩ :=
    h.context_pass_waiting hready heof hne
  have hpass : s.pass = .ok ⟨context, errno⟩ := by
    simp only [RunnerState.pass, hcontext, Except.map]
  obtain ⟨_, hfinished, _⟩ :=
    (InputOutputOperation.readUntilEscape_completing terminator
      escape).readQueue (by simp [hready]) hqueue hread
  have hready' : ctx'.ready = true :=
    hfinished.mpr ⟨queue, [], by simp, hqueue, value, size, hfield⟩
  obtain ⟨t, hpasses, hsettled, hdone⟩ := hreading.settles_of_ready hready'
  refine ⟨t, Reaches.head hpass hpasses, hsettled, ?_⟩
  simp only [outcome, hdone.2.1, hdone.2.2, ne_eq, Prod.mk.injEq,
    Option.some.injEq, Value.octets.injEq, not_and]
  intro hvalue hdrop
  have hkeep : ∀ before next after ctx ctx',
      queue = before ++ next :: after → ctx.buffer ≠ [] →
      ReadOctetsUntilTerminator.handleRead terminator (some escape) ctx
        (before.flatten ++ next) = .ok (0, ctx') → ctx'.buffer ≠ [] := by
    intro before next after ctx ctx' _ hbuffer hr
    rcases ReadOctetsUntilTerminator.handleRead_escape_cases hr with
      ⟨v, _, rfl⟩ | ⟨_, _, read, rfl⟩ <;> simp [hbuffer]
  rcases InputOutputOperation.readQueue_cases _ hkeep hbuffer hqueue
      hread with
    ⟨rfl, hbuffer', _, _⟩ | ⟨_, before, next, after, middle, consumed, heq,
      hmiddle, hr, hpos, rfl⟩
  · have hlen := congrArg List.length hdrop
    have hle := hfield.size_le
    simp only [List.flatten_cons, List.flatten_nil, List.append_nil,
      List.length_drop] at hlen
    have hzero : size = 0 := by omega
    subst hzero
    exact hbuffer' (hvalue.trans hfield.value_of_size_zero)
  · have hflatten : queue.flatten =
        before.flatten ++ next ++ after.flatten := by
      rw [heq]
      simp
    rcases ReadOctetsUntilTerminator.handleRead_escape_cases hr with
      ⟨v, hfield', rfl⟩ | ⟨_, hzero, _⟩
    · have hle := hfield'.size_le
      have hlt := hfield'.size_lt
      have hle' := hfield.size_le
      have hrest : (InterpreterContext.pushFrontUnconsumed
          (before.flatten ++ next) consumed after).flatten =
          queue.flatten.drop consumed := by
        rw [hflatten, List.drop_append_of_le_length hle]
        unfold InterpreterContext.pushFrontUnconsumed
        split
        · simp
        · rw [List.drop_of_length_le (by omega), List.nil_append]
      have hsize : consumed = size := by
        have hlen := congrArg List.length (hrest.symm.trans hdrop)
        simp only [List.length_drop] at hlen
        have := congrArg List.length hflatten
        simp only [List.length_append] at this hle
        omega
      subst hsize
      rw [hflatten] at hfield
      obtain ⟨rfl, _⟩ := hfield'.unique (hfield.of_append hle hlt)
      exact hmiddle (List.append_left_eq_self.mp hvalue)
    · omega

/-- Where the boundaries do not show, no chunk cuts into the field of the
stream after something of it appeared. -/
theorem complete_or_clean (hchar : escape.character ≠ [])
    (hindependent : FragmentationIndependent terminator escape errno chunks)
    (hfield : Field terminator escape.character escape.sequence
      chunks.flatten value size)
    (before after : List Octets) (hchunks : chunks = before ++ after)
    (hbefore : before.flatten ≠ []) (hnonempty : ∀ c ∈ chunks, c ≠ []) :
    Field terminator escape.character escape.sequence before.flatten value
        size ∨
      ¬ terminator <:+: before.flatten ∧
        ¬ escape.sequence <:+: before.flatten := by
  have hne := hfield.sequence_ne_nil
  induction before using List.reverseRecOn generalizing after with
  | nil => exact absurd rfl hbefore
  | append_singleton init last ih =>
      have hwhole : chunks.flatten =
          (init ++ [last]).flatten ++ after.flatten := by
        rw [hchunks, List.flatten_append]
      have hinit : init = [] ∨
          (Field terminator escape.character escape.sequence init.flatten
            value size ∨ ¬ terminator <:+: init.flatten ∧
              ¬ escape.sequence <:+: init.flatten) := by
        by_cases hnil : init = []
        · exact Or.inl hnil
        · refine Or.inr (ih (last :: after) (by simp [hchunks]) ?_)
          obtain ⟨c, init', rfl⟩ := List.exists_cons_of_ne_nil hnil
          have hc := hnonempty c (by simp [hchunks])
          simp [hc]
      by_cases hcomplete : Field terminator escape.character escape.sequence
          init.flatten value size
      · left
        have hle := hcomplete.size_le
        have hlt := hcomplete.size_lt
        rw [hwhole] at hfield
        refine hfield.of_append ?_ ?_ <;>
          simp only [List.flatten_append, List.length_append] <;> omega
      · have hclean : init ≠ [] → ¬ terminator <:+: init.flatten ∧
            ¬ escape.sequence <:+: init.flatten := fun hnil =>
          (hinit.resolve_left hnil).resolve_left hcomplete
        obtain ⟨t, htdelivered, htsettled, houtcome⟩ :=
          whole_of_field chunks.flatten hfield
        have hdelivered := (RunnerState.Delivered.start (.start
          (escapeReadTree terminator escape) none errno)).append
            (init ++ [last])
        obtain ⟨consumed, ctx', queue', s, hr, hpass, hreading, hrest⟩ :=
          pass_of_clean hne hclean
            ((start_reading errno).append (init ++ [last]))
        rw [List.nil_append] at hdelivered
        have hs := hdelivered.pass hpass
        rcases ReadOctetsUntilTerminator.handleRead_escape_cases hr with
          ⟨v, hat, rfl⟩ | ⟨hnone, hzero, read, rfl⟩
        · left
          obtain ⟨u, hu, husettled, huoutcome⟩ :=
            outcome_of_ready hs hreading rfl after
          rw [← hchunks] at hu
          have heq := hindependent u t hu husettled htdelivered htsettled
          rw [huoutcome, houtcome, List.flatten_append, hrest] at heq
          simp only [Prod.mk.injEq, Option.some.injEq, Value.octets.injEq,
            List.nil_append] at heq
          obtain ⟨rfl, hdrop⟩ := heq
          have hle := hat.size_le
          have hle' := hfield.size_le
          have hlen := congrArg List.length hdrop
          have hlen' := congrArg List.length hwhole
          simp only [List.length_append, List.length_drop] at hlen hlen' hle
          have hsize : consumed = size := by omega
          exact hsize ▸ hat
        · right
          have hseq : ¬ escape.sequence <:+: (init ++ [last]).flatten := by
            intro hin
            obtain ⟨read', heq', _, hread'⟩ :=
              ReadOctetsUntilTerminator.handleRead_no_field hne hnone {}
            have hpolluted := hread' hin hchar
            rw [heq'] at hr
            have hbuffer := congrArg InputOutputOperationContext.buffer
              (Prod.mk.inj (Except.ok.inj hr)).2
            simp only [List.nil_append] at hbuffer
            rw [hbuffer] at hpolluted
            have hqueue : (queue' ++ after).flatten = chunks.flatten := by
              rw [List.flatten_append, hrest, hzero, List.drop_zero, hwhole]
            rw [← hqueue] at hfield
            obtain ⟨u, hpasses, husettled, huoutcome⟩ :=
              outcome_of_polluted (hreading.append after) rfl rfl
                (by simpa using hpolluted) hfield
            have hu := (hs.append after).passes hpasses
            rw [← hchunks] at hu
            have heq := hindependent u t hu husettled htdelivered htsettled
            rw [heq, houtcome, hqueue] at huoutcome
            exact huoutcome rfl
          refine ⟨fun hin => ?_, hseq⟩
          obtain ⟨i, hi⟩ := Option.isSome_iff_exists.mp
            (Occurrence.first_isSome_iff_infix.mpr hin)
          exact hnone _ _ (field_of_first_terminator hbefore hi
            fun j _ hat => hseq
              (hat.isInfix.trans (List.drop_suffix j _).isInfix))

theorem harmless_of_independent (hchar : escape.character ≠ [])
    (hne : escape.sequence ≠ []) (hnonempty : ∀ c ∈ chunks, c ≠ [])
    (hindependent : FragmentationIndependent terminator escape errno chunks) :
    HarmlessCut terminator escape chunks := by
  intro before after hchunks hbefore
  have hflatten : before.flatten ≠ [] := by
    obtain ⟨c, before', rfl⟩ := List.exists_cons_of_ne_nil hbefore
    have hc := hnonempty c (by simp [hchunks])
    simp [hc]
  by_cases hfield : ∃ value size, Field terminator escape.character
      escape.sequence chunks.flatten value size
  · obtain ⟨value, size, hfield⟩ := hfield
    rcases complete_or_clean hchar hindependent hfield _ _ hchunks hflatten
        hnonempty with hat | hclean
    · exact Or.inl ⟨value, size, hat, hfield⟩
    · exact Or.inr (Or.inl hclean)
  · have hnone : ∀ value size, ¬ Field terminator escape.character
        escape.sequence chunks.flatten value size :=
      fun value size hin => hfield ⟨value, size, hin⟩
    refine Or.inr (Or.inr ⟨fun value size hat => ?_, hnone⟩)
    obtain ⟨t, htdelivered, htsettled, houtcome⟩ :=
      whole_of_no_field hne chunks.flatten hnone
    have hdelivered := (RunnerState.Delivered.start (.start
      (escapeReadTree terminator escape) none errno)).append before
    obtain ⟨report, ctx', queue', context, hread, hcontext, hreading⟩ :=
      ((start_reading errno).append before).context_pass_waiting rfl rfl hne
    obtain ⟨_, hfinished, _⟩ :=
      (InputOutputOperation.readUntilEscape_completing terminator
        escape).readQueue (by simp) hbefore hread
    have hready : ctx'.ready = true :=
      hfinished.mpr ⟨before, [], by simp, hbefore, value, size, hat⟩
    have hs := hdelivered.pass (t := ⟨context, errno⟩)
      (by simp only [RunnerState.pass, hcontext, Except.map])
    obtain ⟨u, hu, husettled, huoutcome⟩ :=
      outcome_of_ready hs hreading hready after
    rw [List.nil_append, ← hchunks] at hu
    have heq := hindependent u t hu husettled htdelivered htsettled
    rw [huoutcome, houtcome] at heq
    simp at heq

/-- How a stream is cut does not show in what is read from it exactly if the
cut is harmless. -/
theorem fragmentationIndependent_iff (terminator : Octets)
    (escape : EscapeInfo) (hchar : escape.character ≠ [])
    (hne : escape.sequence ≠ []) (chunks : List Octets)
    (hnonempty : ∀ c ∈ chunks, c ≠ []) (errno : Errno) :
    FragmentationIndependent terminator escape errno chunks ↔
      HarmlessCut terminator escape chunks :=
  ⟨harmless_of_independent hchar hne hnonempty, independent_of_harmless hne⟩

theorem fragmentationIndependent_iff_header :
    FragmentationIndependent httpHeaderTerminator httpHeaderEscape 0
        [[97], [13, 10, 72]] ↔
      HarmlessCut httpHeaderTerminator httpHeaderEscape
        [[97], [13, 10, 72]] :=
  fragmentationIndependent_iff httpHeaderTerminator httpHeaderEscape
    (by decide) (by decide) [[97], [13, 10, 72]] (by decide) 0

/-- A header value cut after a continuation line is read with its beginning
doubled. -/
theorem fragmentation_shows :
    ¬ ∀ (terminator : Octets) (escape : EscapeInfo),
      escape.character ≠ [] → escape.sequence ≠ [] →
      ∀ chunks : List Octets, (∀ c ∈ chunks, c ≠ []) →
      ∀ errno, FragmentationIndependent terminator escape errno chunks := by
  intro h
  have hharmless := harmless_of_independent (by decide) (by decide)
    (by decide) (h httpHeaderTerminator httpHeaderEscape (by decide)
      (by decide) [[97, 13, 10, 32, 98], [13, 10, 72]] (by decide) 0)
  have hpart : ReadOctetsUntilTerminator.handleRead httpHeaderTerminator
      (some httpHeaderEscape) {} [97, 13, 10, 32, 98] =
        .ok (0, { buffer := [97, 10] }) := rfl
  have hwhole : ReadOctetsUntilTerminator.handleRead httpHeaderTerminator
      (some httpHeaderEscape) {} [97, 13, 10, 32, 98, 13, 10, 72] =
        .ok (7, { buffer := [97, 10, 98], ready := true }) := rfl
  rcases hharmless [[97, 13, 10, 32, 98]] [[13, 10, 72]] rfl (by simp) with
    ⟨value, size, hfield, _⟩ | ⟨_, hseq⟩ | ⟨_, hnone⟩
  · have hread := ReadOctetsUntilTerminator.handleRead_field hfield {}
    have heq := hpart.symm.trans hread
    simp at heq
  · exact hseq (by decide)
  · obtain ⟨read, hread, _⟩ :=
      ReadOctetsUntilTerminator.handleRead_no_field (by decide) hnone {}
    have heq := hwhole.symm.trans hread
    simp at heq

end EscapeRead

end NetworkProtocolDsl
