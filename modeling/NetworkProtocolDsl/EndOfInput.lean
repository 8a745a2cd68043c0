/-
What the end of the input does to an interpreter that waits for input.

The runner looks at the end-of-input flag only when the queue is empty.  A
waiting operation that can neither finish nor consume with what is queued keeps
the queue non-empty, is offered the same bytes at every pass and never learns
that no more will come.
-/
import Mathlib.Data.List.TakeWhile
import NetworkProtocolDsl.EscapeReplacement
import NetworkProtocolDsl.Reader

namespace NetworkProtocolDsl

open Run Escape

namespace InputOutputOperation

/-- What the queue has to hold for a waiting operation to get on once the end
of the input was announced. -/
def FinishesAtEof (operation : InputOutputOperation)
    (ctx : InputOutputOperationContext) (queue : List Octets) : Prop :=
  queue = [] ∨
    match operation with
    | .readOctetsUntilTerminator terminator none =>
        terminator <:+: queue.flatten
    | .readOctetsUntilTerminator terminator (some escape) =>
        ∃ before after, queue = before ++ after ∧ before ≠ [] ∧
          ∃ value size, Field terminator escape.character escape.sequence
            before.flatten value size
    | .readStaticOctets contents => contents.length ≤ queue.flatten.length
    | .readInt32Native =>
        4 ≤ ctx.buffer.length + queue.flatten.length ∨
          queue.getLast? ≠ some []
    | .readIntFromAscii =>
        ∃ b ∈ queue.flatten, ReadIntFromAscii.scans b = false
    | .terminateListIfReadAhead terminator =>
        queue.flatten ≠ [] ∧ (queue.flatten <+: terminator →
          queue.flatten.length = terminator.length)
    | .transitionLookahead conditions =>
        TransitionLookahead.readyToEvaluate conditions
          { ctx with buffer := queue.flatten } = true
    | _ => True

end InputOutputOperation

/-- At the end of the input a condition that does not hold never will. -/
theorem TransitionLookahead.matchCondition_of_eof
    {ctx : InputOutputOperationContext} (heof : ctx.eof = true)
    (condition : TransitionCondition)
    (hnot : (matchCondition ctx condition).1 = false) :
    (matchCondition ctx condition).2 = true := by
  cases condition <;> grind [matchCondition]

namespace InputOutputOperation

theorem readyToEvaluate_of_eof (operation : InputOutputOperation)
    {ctx : InputOutputOperationContext} (heof : ctx.eof = true) :
    operation.readyToEvaluate ctx = true := by
  cases operation with
  | readInt32Native =>
      simp [readyToEvaluate, ReadInt32Native.readyToEvaluate, heof]
  | readIntFromAscii =>
      simp [readyToEvaluate, ReadIntFromAscii.readyToEvaluate, heof]
  | readOctetsUntilTerminator terminator escape =>
      simp [readyToEvaluate, ReadOctetsUntilTerminator.readyToEvaluate, heof]
  | readStaticOctets contents =>
      simp [readyToEvaluate, ReadStaticOctets.readyToEvaluate, heof]
  | terminateListIfReadAhead terminator =>
      simp [readyToEvaluate, TerminateListIfReadAhead.readyToEvaluate, heof]
  | transitionLookahead conditions =>
      simp only [readyToEvaluate, TransitionLookahead.readyToEvaluate,
        Bool.or_eq_true, List.any_eq_true, List.all_eq_true]
      by_cases hany : ∃ condition ∈ conditions,
          (TransitionLookahead.matchCondition ctx condition.1).1 = true
      · exact Or.inl hany
      · refine Or.inr fun condition hmem => ?_
        apply TransitionLookahead.matchCondition_of_eof heof
        rw [← Bool.not_eq_true]
        exact fun h => hany ⟨condition, hmem, h⟩
  | writeInt32Native | writeOctets | writeOctetsWithEscape _
  | writeStaticOctets _ => rfl

/-- An operation that is finished by the first offer it can complete with, and
that every other offer leaves unfinished. -/
structure Completing (operation : InputOutputOperation)
    (finished : InputOutputOperationContext → Prop)
    (completes : Octets → Prop) : Prop where
  ready_iff : ∀ ctx, operation.readyToEvaluate ctx = true ↔
    finished ctx ∨ ctx.eof = true
  handleRead : ∀ {ctx ctx' input consumed},
    operation.handleRead ctx input = .ok (consumed, ctx') →
    ctx'.eof = ctx.eof ∧
      ((completes input ∧ finished ctx') ∨
        (¬ completes input ∧ consumed = 0 ∧ (finished ctx' ↔ finished ctx)))

/-- Some joined prefix of the queue completes. -/
def SomePrefix (completes : Octets → Prop) (queue : List Octets) : Prop :=
  ∃ before after, queue = before ++ after ∧ before ≠ [] ∧
    completes before.flatten

theorem somePrefix_append_singleton {completes : Octets → Prop}
    {queue : List Octets} {next : Octets} :
    SomePrefix completes (queue ++ [next]) ↔
      SomePrefix completes queue ∨ completes (queue.flatten ++ next) := by
  constructor
  · rintro ⟨before, after, heq, hne, hcompletes⟩
    rcases List.eq_nil_or_concat after with rfl | ⟨after', last, rfl⟩
    · rw [List.append_nil] at heq
      subst heq
      exact Or.inr (by simpa using hcompletes)
    · rw [List.concat_eq_append, ← List.append_assoc] at heq
      obtain ⟨rfl, _⟩ := List.append_inj' heq rfl
      exact Or.inl ⟨before, after', rfl, hne, hcompletes⟩
  · rintro (⟨before, after, rfl, hne, hcompletes⟩ | hcompletes)
    · exact ⟨before, after ++ [next], by simp, hne, hcompletes⟩
    · exact ⟨queue ++ [next], [], by simp, by simp, by simpa using hcompletes⟩

theorem somePrefix_append {completes : Octets → Prop}
    {before : List Octets} (h : SomePrefix completes before)
    (after : List Octets) : SomePrefix completes (before ++ after) := by
  obtain ⟨first, second, rfl, hne, hcompletes⟩ := h
  exact ⟨first, second ++ after, by simp, hne, hcompletes⟩

/-- Where completion survives more input, the whole queue decides. -/
theorem somePrefix_iff {completes : Octets → Prop}
    (hmono : ∀ a b, completes a → completes (a ++ b)) {queue : List Octets}
    (hqueue : queue ≠ []) :
    SomePrefix completes queue ↔ completes queue.flatten := by
  constructor
  · rintro ⟨before, after, rfl, _, hcompletes⟩
    rw [List.flatten_append]
    exact hmono _ _ hcompletes
  · intro h
    exact ⟨queue, [], by simp, hqueue, h⟩

theorem Completing.readQueue {operation : InputOutputOperation}
    {finished : InputOutputOperationContext → Prop}
    {completes : Octets → Prop}
    (hop : Completing operation finished completes)
    {ctx ctx' : InputOutputOperationContext} (hwait : ¬ finished ctx)
    {eof : Bool} {queue queue' : List Octets} (hqueue : queue ≠ [])
    {report : HandleBlockedResult}
    (h : operation.readQueue ctx eof queue = .ok (report, ctx', queue')) :
    ctx'.eof = ctx.eof ∧ (finished ctx' ↔ SomePrefix completes queue) ∧
      (¬ finished ctx' → queue' = [queue.flatten]) := by
  have hkeep : ∀ offered next rest middle after,
      queue = offered ++ next :: rest → (middle.eof = ctx.eof ∧
        (finished middle ↔ SomePrefix completes offered)) →
      operation.handleRead middle (offered.flatten ++ next) =
        .ok (0, after) →
      after.eof = ctx.eof ∧
        (finished after ↔ SomePrefix completes (offered ++ [next])) := by
    rintro offered next rest middle after _ ⟨heof, hfinished⟩ hread
    obtain ⟨heof', ⟨hcompletes, hafter⟩ | ⟨hnot, _, hafter⟩⟩ :=
      hop.handleRead hread
    · refine ⟨heof'.trans heof, ?_⟩
      simp only [hafter, true_iff]
      exact somePrefix_append_singleton.mpr (Or.inr hcompletes)
    · refine ⟨heof'.trans heof, ?_⟩
      rw [hafter, hfinished, somePrefix_append_singleton]
      simp [hnot]
  have hstart : ctx.eof = ctx.eof ∧
      (finished ctx ↔ SomePrefix completes []) := by
    refine ⟨rfl, ?_⟩
    simp only [hwait, false_iff]
    rintro ⟨before, after, heq, hne, _⟩
    exact hne (List.append_eq_nil_iff.mp heq.symm).1
  rcases readQueue_cases _ hkeep hstart hqueue h with
    ⟨hqueue', ⟨heof, hfinished⟩, _, _⟩ |
      ⟨_, before, next, after, middle, consumed, rfl, ⟨heof, _⟩, hread,
        hpos, _⟩
  · exact ⟨heof, hfinished, fun _ => hqueue'⟩
  · obtain ⟨heof', ⟨hcompletes, hafter⟩ | ⟨_, hzero, _⟩⟩ :=
      hop.handleRead hread
    · refine ⟨heof'.trans heof, ?_, fun hnot => absurd hafter hnot⟩
      have hstarts : SomePrefix completes (before ++ [next]) :=
        somePrefix_append_singleton.mpr (Or.inr hcompletes)
      simp only [hafter, true_iff]
      simpa using somePrefix_append hstarts after
    · omega

theorem readUntil_completing (terminator : Octets) :
    Completing (.readOctetsUntilTerminator terminator none)
      (fun ctx => ctx.ready = true) (terminator <:+: ·) where
  ready_iff ctx := by
    simp [readyToEvaluate, ReadOctetsUntilTerminator.readyToEvaluate]
  handleRead {ctx ctx' input consumed} h := by
    simp only [InputOutputOperation.handleRead,
      ReadOctetsUntilTerminator.handleRead] at h
    rw [← Occurrence.first_isSome_iff_infix]
    cases hfirst : Occurrence.first terminator input with
    | none =>
        simp only [hfirst, Except.ok.injEq, Prod.mk.injEq] at h
        obtain ⟨rfl, rfl⟩ := h
        exact ⟨rfl, Or.inr ⟨by simp, rfl, Iff.rfl⟩⟩
    | some i =>
        simp only [hfirst, Except.ok.injEq, Prod.mk.injEq] at h
        obtain ⟨rfl, rfl⟩ := h
        exact ⟨rfl, Or.inl ⟨by simp, rfl⟩⟩

theorem readUntilEscape_completing (terminator : Octets)
    (escape : EscapeInfo) :
    Completing (.readOctetsUntilTerminator terminator (some escape))
      (fun ctx => ctx.ready = true)
      (fun input => ∃ value size, Field terminator escape.character
        escape.sequence input value size) where
  ready_iff ctx := by
    simp [readyToEvaluate, ReadOctetsUntilTerminator.readyToEvaluate]
  handleRead {ctx ctx' input consumed} h := by
    rcases ReadOctetsUntilTerminator.handleRead_escape_cases h with
      ⟨value, hfield, rfl⟩ | ⟨hno, rfl, read, rfl⟩
    · exact ⟨rfl, Or.inl ⟨⟨value, consumed, hfield⟩, rfl⟩⟩
    · refine ⟨rfl, Or.inr ⟨?_, rfl, Iff.rfl⟩⟩
      rintro ⟨value, size, hfield⟩
      exact hno value size hfield

theorem readStaticOctets_completing (contents : Octets) :
    Completing (.readStaticOctets contents)
      (fun ctx => contents.length ≤ ctx.buffer.length)
      (fun input => contents.length ≤ input.length) where
  ready_iff ctx := by
    simp [readyToEvaluate, ReadStaticOctets.readyToEvaluate]
  handleRead {ctx ctx' input consumed} h := by
    simp only [InputOutputOperation.handleRead, ReadStaticOctets.handleRead,
      Except.ok.injEq] at h
    by_cases hlt : input.length < contents.length
    · rw [if_pos hlt] at h
      obtain ⟨rfl, rfl⟩ := Prod.mk.inj h
      exact ⟨rfl, Or.inr ⟨by omega, rfl, Iff.rfl⟩⟩
    · rw [if_neg hlt] at h
      obtain ⟨rfl, rfl⟩ := Prod.mk.inj h
      refine ⟨rfl, Or.inl ⟨by omega, ?_⟩⟩
      simp only [List.length_take]
      omega

theorem readIntFromAscii_completing :
    Completing .readIntFromAscii (fun ctx => ctx.ready = true)
      (fun input => ∃ b ∈ input, ReadIntFromAscii.scans b = false) where
  ready_iff ctx := by
    simp [readyToEvaluate, ReadIntFromAscii.readyToEvaluate]
  handleRead {ctx ctx' input consumed} h := by
    simp only [InputOutputOperation.handleRead, ReadIntFromAscii.handleRead,
      Except.ok.injEq] at h
    have hle := (List.takeWhile_prefix (l := input)
      ReadIntFromAscii.scans).length_le
    by_cases hlt : (input.takeWhile ReadIntFromAscii.scans).length <
        input.length
    · rw [if_pos hlt] at h
      obtain ⟨rfl, rfl⟩ := Prod.mk.inj h
      refine ⟨rfl, Or.inl ⟨?_, rfl⟩⟩
      by_contra hall
      have hself : input.takeWhile ReadIntFromAscii.scans = input := by
        rw [List.takeWhile_eq_self_iff]
        intro b hb
        rw [← Bool.not_eq_false]
        exact fun hfalse => hall ⟨b, hb, hfalse⟩
      rw [hself] at hlt
      omega
    · rw [if_neg hlt] at h
      obtain ⟨rfl, rfl⟩ := Prod.mk.inj h
      refine ⟨rfl, Or.inr ⟨?_, rfl, Iff.rfl⟩⟩
      have hself : input.takeWhile ReadIntFromAscii.scans = input :=
        (List.takeWhile_prefix _).eq_of_length (by omega)
      rintro ⟨b, hb, hfalse⟩
      rw [List.takeWhile_eq_self_iff] at hself
      rw [hself b hb] at hfalse
      contradiction

/-- What one `handle_read` tells about a waiting operation: if it made it
ready the queue sufficed, and otherwise it neither gained nor lost the
prospect, and if it has it the queue became shorter. -/
structure Honest (operation : InputOutputOperation)
    (ctx : InputOutputOperationContext) (queue : List Octets)
    (ctx' : InputOutputOperationContext) (queue' : List Octets) : Prop where
  of_ready : operation.readyToEvaluate ctx' = true →
    operation.FinishesAtEof ctx queue
  iff_of_waiting : operation.readyToEvaluate ctx' = false →
    (operation.FinishesAtEof ctx queue ↔ operation.FinishesAtEof ctx' queue')
  shorter : operation.readyToEvaluate ctx' = false →
    operation.FinishesAtEof ctx queue → queue'.length < queue.length

theorem Completing.honest {operation : InputOutputOperation}
    {finished : InputOutputOperationContext → Prop}
    {completes : Octets → Prop}
    (hop : Completing operation finished completes)
    (hfinishes : ∀ ctx queue, queue ≠ [] →
      (operation.FinishesAtEof ctx queue ↔ SomePrefix completes queue))
    {ctx ctx' : InputOutputOperationContext} {queue queue' : List Octets}
    {report : HandleBlockedResult}
    (hwait : operation.readyToEvaluate ctx = false) (hqueue : queue ≠ [])
    (h : operation.readQueue ctx true queue = .ok (report, ctx', queue')) :
    Honest operation ctx queue ctx' queue' := by
  have hnot : ¬ (finished ctx ∨ ctx.eof = true) := by
    rw [← hop.ready_iff, hwait]
    simp
  obtain ⟨heof, hfinished, hqueue'⟩ :=
    hop.readQueue (fun hf => hnot (Or.inl hf)) hqueue h
  have hready : operation.readyToEvaluate ctx' = true ↔ finished ctx' := by
    rw [hop.ready_iff, heof]
    exact or_iff_left fun he => hnot (Or.inr he)
  refine ⟨fun hr => ?_, fun hr => ?_, fun hr hf => ?_⟩
  · exact (hfinishes ctx queue hqueue).mpr (hfinished.mp (hready.mp hr))
  · have hunfinished : ¬ finished ctx' := by
      rw [← hready, hr]
      simp
    rw [hqueue' hunfinished, hfinishes ctx queue hqueue,
      hfinishes ctx' _ (by simp), ← hfinished]
    refine iff_of_false hunfinished ?_
    rintro ⟨before, after, heq, hne, hcompletes⟩
    obtain ⟨rfl, rfl⟩ | ⟨rfl, rfl⟩ := List.append_eq_singleton_iff.mp heq.symm
    · exact hne rfl
    · apply hunfinished
      rw [hfinished]
      exact ⟨queue, [], by simp, hqueue, by simpa using hcompletes⟩
  · have hunfinished : ¬ finished ctx' := by
      rw [← hready, hr]
      simp
    rw [hfinishes ctx queue hqueue, ← hfinished] at hf
    exact absurd hf hunfinished

theorem finishesAtEof_iff {operation : InputOutputOperation}
    {ctx : InputOutputOperationContext} {queue : List Octets}
    (hqueue : queue ≠ []) {finishes : Prop}
    (h : operation.FinishesAtEof ctx queue = (queue = [] ∨ finishes)) :
    operation.FinishesAtEof ctx queue ↔ finishes := by
  rw [h]
  exact or_iff_right hqueue

/-- An offer to an operation that keeps what it is shown. -/
theorem readQueue_shown {operation : InputOutputOperation}
    (hshow : ∀ ctx input answer, operation.handleRead ctx input = .ok answer →
      answer.2 = { ctx with buffer := input })
    {ctx ctx' : InputOutputOperationContext} {eof : Bool}
    {queue queue' : List Octets} (hqueue : queue ≠ [])
    {report : HandleBlockedResult}
    (h : operation.readQueue ctx eof queue = .ok (report, ctx', queue')) :
    (ctx' = { ctx with buffer := queue.flatten } ∧
      queue' = [queue.flatten]) ∨
    ∃ input rest middle consumed, queue.flatten = input ++ rest ∧
      ctx' = { ctx with buffer := input } ∧
      operation.handleRead middle input = .ok (consumed, ctx') ∧
      0 < consumed := by
  have hkeep : ∀ offered next rest middle after,
      queue = offered ++ next :: rest →
      (∃ buffer, middle = { ctx with buffer := buffer } ∧
        (offered ≠ [] → buffer = offered.flatten)) →
      operation.handleRead middle (offered.flatten ++ next) =
        .ok (0, after) →
      ∃ buffer, after = { ctx with buffer := buffer } ∧
        (offered ++ [next] ≠ [] → buffer = (offered ++ [next]).flatten) := by
    rintro offered next rest middle after _ ⟨buffer, rfl, _⟩ hread
    exact ⟨_, hshow _ _ _ hread, fun _ => by simp⟩
  rcases readQueue_cases _ hkeep ⟨ctx.buffer, rfl, by simp⟩ hqueue h with
    ⟨hqueue', ⟨buffer, hctx', hbuffer⟩, _, _⟩ |
      ⟨_, before, next, after, middle, consumed, rfl, ⟨buffer, hmiddle, _⟩,
        hread, hpos, _⟩
  · exact Or.inl ⟨by rw [hctx', hbuffer hqueue], hqueue'⟩
  · refine Or.inr ⟨before.flatten ++ next, after.flatten, middle, consumed,
      by simp, ?_, hread, hpos⟩
    have hctx' := hshow _ _ _ hread
    rw [hmiddle] at hctx'
    exact hctx'

theorem terminateListIfReadAhead_honest {terminator : Octets}
    {ctx ctx' : InputOutputOperationContext} {queue queue' : List Octets}
    {report : HandleBlockedResult}
    (hwait : (terminateListIfReadAhead terminator).readyToEvaluate ctx = false)
    (hqueue : queue ≠ [])
    (h : (terminateListIfReadAhead terminator).readQueue ctx true queue =
      .ok (report, ctx', queue')) :
    Honest (.terminateListIfReadAhead terminator) ctx queue ctx' queue' := by
  have heof : ctx.eof = false := by
    rw [← Bool.not_eq_true]
    intro htrue
    rw [readyToEvaluate_of_eof _ htrue] at hwait
    contradiction
  have hready : ∀ input : Octets,
      (terminateListIfReadAhead terminator).readyToEvaluate
          { ctx with buffer := input } = true ↔
        input ≠ [] ∧ (input <+: terminator →
          input.length = terminator.length) := by
    intro input
    simp only [readyToEvaluate, TerminateListIfReadAhead.readyToEvaluate,
      List.length_eq_zero_iff, heof, List.prefix_iff_eq_take]
    by_cases hnil : input = []
    · simp [hnil]
    · by_cases hlt : input.length < terminator.length
      · by_cases htake : input = terminator.take input.length
        · simp only [hnil, hlt, ↓reduceIte, if_pos htake,
            Bool.false_eq_true, false_iff]
          intro hall
          have := hall.2 htake
          omega
        · simp only [hnil, hlt, ↓reduceIte, if_neg htake]
          simp [htake, hnil]
      · simp only [hnil, hlt, ↓reduceIte, ne_eq, not_false_eq_true, true_and,
          true_iff]
        intro htake
        have := congrArg List.length htake
        simp only [List.length_take] at this
        omega
  have hfinishes : ∀ (ctx : InputOutputOperationContext) (queue : List Octets),
      queue ≠ [] →
      ((terminateListIfReadAhead terminator).FinishesAtEof ctx queue ↔
        queue.flatten ≠ [] ∧ (queue.flatten <+: terminator →
          queue.flatten.length = terminator.length)) :=
    fun ctx queue hqueue => finishesAtEof_iff hqueue rfl
  have hshow : ∀ (ctx : InputOutputOperationContext) (input : Octets) answer,
      (terminateListIfReadAhead terminator).handleRead ctx input =
        .ok answer → answer.2 = { ctx with buffer := input } := by
    intro ctx input answer hread
    simp only [InputOutputOperation.handleRead,
      TerminateListIfReadAhead.handleRead, Except.ok.injEq] at hread
    rw [← hread]
    split <;> rfl
  rcases readQueue_shown hshow hqueue h with
    ⟨rfl, rfl⟩ | ⟨input, rest, middle, consumed, hflatten, rfl, hread, hpos⟩
  · refine ⟨fun hr => ?_, fun hr => ?_, fun hr hf => ?_⟩
    · exact (hfinishes ctx queue hqueue).mpr ((hready _).mp hr)
    · rw [hfinishes ctx queue hqueue, hfinishes _ _ (by simp)]
      simp
    · rw [hfinishes ctx queue hqueue, ← hready, hr] at hf
      contradiction
  · have hat : terminator <+: input ∧ 0 < terminator.length := by
      simp only [InputOutputOperation.handleRead,
        TerminateListIfReadAhead.handleRead, Except.ok.injEq] at hread
      split at hread
      · rename_i hcond
        have hcons := (Prod.mk.inj hread).1
        exact ⟨List.prefix_iff_eq_take.mpr hcond.2.symm, by omega⟩
      · have := (Prod.mk.inj hread).1
        omega
    have hle := hat.1.length_le
    have hne : input ≠ [] := List.ne_nil_of_length_pos (by omega)
    have hr : (terminateListIfReadAhead terminator).readyToEvaluate
        { ctx with buffer := input } = true := by
      rw [hready]
      refine ⟨hne, fun hp => ?_⟩
      have := hp.length_le
      omega
    refine ⟨fun _ => ?_, fun hr' => ?_, fun hr' => ?_⟩
    · rw [hfinishes ctx queue hqueue, hflatten]
      refine ⟨by simp [hne], fun hp => ?_⟩
      have := hp.length_le
      simp only [List.length_append] at this ⊢
      omega
    · rw [hr] at hr'
      contradiction
    · rw [hr] at hr'
      contradiction

theorem transitionLookahead_honest
    {conditions : List (TransitionCondition × Octets)}
    {ctx ctx' : InputOutputOperationContext} {queue queue' : List Octets}
    {report : HandleBlockedResult} (hqueue : queue ≠ [])
    (h : (transitionLookahead conditions).readQueue ctx true queue =
      .ok (report, ctx', queue')) :
    Honest (.transitionLookahead conditions) ctx queue ctx' queue' := by
  have hfinishes : ∀ (ctx : InputOutputOperationContext) (queue : List Octets),
      queue ≠ [] →
      ((transitionLookahead conditions).FinishesAtEof ctx queue ↔
        (transitionLookahead conditions).readyToEvaluate
          { ctx with buffer := queue.flatten } = true) :=
    fun ctx queue hqueue => finishesAtEof_iff hqueue rfl
  have hshow : ∀ (ctx : InputOutputOperationContext) (input : Octets) answer,
      (transitionLookahead conditions).handleRead ctx input = .ok answer →
      answer.2 = { ctx with buffer := input } := by
    intro ctx input answer hread
    simp only [InputOutputOperation.handleRead,
      TransitionLookahead.handleRead, Except.ok.injEq] at hread
    rw [← hread]
  rcases readQueue_shown hshow hqueue h with
    ⟨rfl, rfl⟩ | ⟨input, rest, middle, consumed, _, _, hread, hpos⟩
  · refine ⟨fun hr => ?_, fun hr => ?_, fun hr hf => ?_⟩
    · exact (hfinishes ctx queue hqueue).mpr hr
    · rw [hfinishes ctx queue hqueue, hfinishes _ _ (by simp)]
      simp
    · rw [hfinishes ctx queue hqueue, hr] at hf
      contradiction
  · simp only [InputOutputOperation.handleRead,
      TransitionLookahead.handleRead, Except.ok.injEq] at hread
    have := (Prod.mk.inj hread).1
    omega

/-- An integer takes of a chunk what it still lacks. -/
theorem readInt32Native_handleRead {ctx : InputOutputOperationContext}
    (hlacks : ctx.buffer.length < 4) (input : Octets) :
    readInt32Native.handleRead ctx input =
      .ok (min (4 - ctx.buffer.length) input.length,
        { ctx with
          buffer := ctx.buffer ++ input.take (4 - ctx.buffer.length) }) := by
  simp only [InputOutputOperation.handleRead, ReadInt32Native.handleRead]
  rw [if_pos (by omega)]
  split
  · rw [Nat.min_eq_left (by omega)]
  · rw [Nat.min_eq_right (by omega), List.take_of_length_le (by omega)]

/-- A chunk that an integer takes in whole leaves it waiting; an empty one
that nothing follows keeps the queue from ever being empty. -/
theorem readInt32Native_honest {ctx ctx' : InputOutputOperationContext}
    {queue queue' : List Octets} {report : HandleBlockedResult}
    (hwait : readInt32Native.readyToEvaluate ctx = false)
    (hqueue : queue ≠ [])
    (h : readInt32Native.readQueue ctx true queue =
      .ok (report, ctx', queue')) :
    Honest .readInt32Native ctx queue ctx' queue' := by
  have hbuffer : ctx.buffer.length < 4 ∧ ctx.eof = false := by
    simpa [readyToEvaluate, ReadInt32Native.readyToEvaluate] using hwait
  have hfinishes : ∀ (ctx : InputOutputOperationContext) (queue : List Octets),
      queue ≠ [] → (readInt32Native.FinishesAtEof ctx queue ↔
        4 ≤ ctx.buffer.length + queue.flatten.length ∨
          queue.getLast? ≠ some []) :=
    fun ctx queue hqueue => finishesAtEof_iff hqueue rfl
  have hread := readInt32Native_handleRead hbuffer.1
  have hkeep : ∀ offered next rest middle after,
      queue = offered ++ next :: rest →
      (middle = ctx ∧ offered.flatten = []) →
      readInt32Native.handleRead middle (offered.flatten ++ next) =
        .ok (0, after) →
      after = ctx ∧ (offered ++ [next]).flatten = [] := by
    rintro offered next rest middle after _ ⟨rfl, hoffered⟩ hzero
    rw [hread, hoffered, List.nil_append] at hzero
    obtain ⟨hmin, hafter⟩ := Prod.mk.inj (Except.ok.inj hzero)
    have hnext : next = [] := List.eq_nil_of_length_eq_zero (by omega)
    subst hnext
    refine ⟨?_, by simp [hoffered]⟩
    rw [← hafter]
    simp
  rcases readQueue_cases _ hkeep ⟨rfl, rfl⟩ hqueue h with
    ⟨rfl, ⟨rfl, hnil⟩, _, _⟩ |
      ⟨_, before, next, after, middle, consumed, rfl, ⟨hmiddle, hbefore⟩,
        hr, hpos, rfl⟩
  · have hlast : queue.getLast? = some [] := by
      rw [List.flatten_eq_nil_iff] at hnil
      rw [List.getLast?_eq_some_getLast hqueue,
        hnil _ (List.getLast_mem hqueue)]
    have hnot : ¬ readInt32Native.FinishesAtEof ctx' queue := by
      rw [hfinishes ctx' queue hqueue, hlast, hnil]
      simp only [List.length_nil, ne_eq, not_true_eq_false, or_false]
      omega
    refine ⟨fun hready => ?_, fun _ => ?_, fun _ hf => absurd hf hnot⟩
    · rw [hwait] at hready
      contradiction
    · refine iff_of_false hnot ?_
      rw [hfinishes ctx' _ (by simp), hnil]
      simp only [List.flatten_cons, List.flatten_nil, List.append_nil,
        List.length_nil, List.getLast?_singleton, ne_eq, not_true_eq_false,
        or_false]
      omega
  · rw [hmiddle, hbefore, List.nil_append, hread] at hr
    rw [hbefore, List.nil_append]
    obtain ⟨rfl, rfl⟩ := Prod.mk.inj (Except.ok.inj hr)
    have hflatten : (before ++ next :: after).flatten =
        next ++ after.flatten := by
      simp [hbefore]
    have hready : readInt32Native.readyToEvaluate
        { ctx with buffer := ctx.buffer ++
            next.take (4 - ctx.buffer.length) } = true ↔
        4 ≤ ctx.buffer.length + next.length := by
      simp only [readyToEvaluate, ReadInt32Native.readyToEvaluate, hbuffer.2,
        Bool.or_false, decide_eq_true_eq, List.length_append,
        List.length_take]
      omega
    refine ⟨fun hr' => ?_, fun hr' => ?_, fun hr' _ => ?_⟩
    · rw [hready] at hr'
      rw [hfinishes ctx _ hqueue, hflatten, List.length_append]
      exact Or.inl (by omega)
    · have hlt : ctx.buffer.length + next.length < 4 := by
        rw [← Nat.not_le, ← hready, hr']
        simp
      have hwhole : InterpreterContext.pushFrontUnconsumed next
          (min (4 - ctx.buffer.length) next.length) after = after := by
        rw [InterpreterContext.pushFrontUnconsumed, if_neg (by omega)]
      rw [hwhole, hfinishes ctx _ hqueue, hflatten, List.length_append]
      have hne : next ≠ [] := List.ne_nil_of_length_pos (by omega)
      by_cases hafter : after = []
      · subst hafter
        refine iff_of_true (Or.inr ?_) (Or.inl rfl)
        simpa using hne
      · rw [hfinishes _ after hafter, List.take_of_length_le (by omega),
          List.length_append, Nat.add_assoc,
          List.getLast?_append_of_ne_nil _ (by simp),
          List.getLast?_cons_of_ne_nil hafter]
    · have hlt : ctx.buffer.length + next.length < 4 := by
        rw [← Nat.not_le, ← hready, hr']
        simp
      rw [InterpreterContext.pushFrontUnconsumed, if_neg (by omega)]
      simp only [List.length_append, List.length_cons]
      omega

/-- One `handle_read` on a non-empty queue, whatever operation waits. -/
theorem readQueue_honest {operation : InputOutputOperation}
    {ctx ctx' : InputOutputOperationContext} {queue queue' : List Octets}
    {report : HandleBlockedResult}
    (hwait : operation.readyToEvaluate ctx = false) (hqueue : queue ≠ [])
    (h : operation.readQueue ctx true queue = .ok (report, ctx', queue')) :
    Honest operation ctx queue ctx' queue' := by
  cases operation with
  | readOctetsUntilTerminator terminator escape =>
      cases escape with
      | none =>
          refine (readUntil_completing terminator).honest ?_ hwait hqueue h
          intro ctx queue hqueue
          rw [somePrefix_iff ?_ hqueue]
          · exact finishesAtEof_iff hqueue rfl
          · exact fun a b hin => hin.trans (List.prefix_append a b).isInfix
      | some escape =>
          refine (readUntilEscape_completing terminator escape).honest ?_
            hwait hqueue h
          exact fun ctx queue hqueue => finishesAtEof_iff hqueue rfl
  | readStaticOctets contents =>
      refine (readStaticOctets_completing contents).honest ?_ hwait hqueue h
      intro ctx queue hqueue
      rw [somePrefix_iff ?_ hqueue]
      · exact finishesAtEof_iff hqueue rfl
      · intro a b hle
        rw [List.length_append]
        omega
  | readIntFromAscii =>
      refine readIntFromAscii_completing.honest ?_ hwait hqueue h
      intro ctx queue hqueue
      rw [somePrefix_iff ?_ hqueue]
      · exact finishesAtEof_iff hqueue rfl
      · rintro a b ⟨octet, hmem, hscans⟩
        exact ⟨octet, List.mem_append_left b hmem, hscans⟩
  | readInt32Native => exact readInt32Native_honest hwait hqueue h
  | terminateListIfReadAhead terminator =>
      exact terminateListIfReadAhead_honest hwait hqueue h
  | transitionLookahead conditions => exact transitionLookahead_honest hqueue h
  | writeInt32Native | writeOctets | writeOctetsWithEscape _
  | writeStaticOctets _ => simp [readyToEvaluate] at hwait

/-- An operation that can get on never fails on what it is offered. -/
theorem readQueue_total_of_finishesAtEof {operation : InputOutputOperation}
    {ctx : InputOutputOperationContext} {queue : List Octets}
    (hqueue : queue ≠ []) (h : operation.FinishesAtEof ctx queue) :
    ∃ answer, operation.readQueue ctx true queue = .ok answer := by
  apply readQueue_total
  intro ctx input
  cases operation with
  | readOctetsUntilTerminator terminator escape =>
      cases escape with
      | none =>
          simp only [InputOutputOperation.handleRead,
            ReadOctetsUntilTerminator.handleRead]
          cases Occurrence.first terminator input <;> simp
      | some escape =>
          have hstarts := (finishesAtEof_iff hqueue rfl).mp h
          obtain ⟨_, _, _, _, _, _, hfield⟩ := hstarts
          by_cases hinput : ∃ value size, Field terminator escape.character
              escape.sequence input value size
          · obtain ⟨value, size, hin⟩ := hinput
            exact ⟨_, ReadOctetsUntilTerminator.handleRead_field hin ctx⟩
          · obtain ⟨read, heq, _, _⟩ :=
              ReadOctetsUntilTerminator.handleRead_no_field
                hfield.sequence_ne_nil
                (fun value size hin => hinput ⟨value, size, hin⟩) ctx
            exact ⟨_, heq⟩
  | _ => exact ⟨_, rfl⟩

end InputOutputOperation

namespace RunnerState

/-- The state in which the queue holds `queue` and nothing more will come. -/
def atEof (s : RunnerState) (queue : List Octets) : RunnerState :=
  { s with context := { s.context with inputBuffer := queue, eof := true } }

/-- Finitely many passes end the wait. -/
def LeavesWaiting (s : RunnerState) : Prop :=
  ∃ t, Passes s t ∧ ¬ t.WaitsForRead

/-- A state that waits at the end of the input with no prospect of getting
on. -/
def Stuck (s : RunnerState) : Prop :=
  s.context.eof = true ∧ s.WaitsForRead ∧ ∀ operation ctx,
    s.context.activeRead = some (operation, ctx) →
    ¬ operation.FinishesAtEof ctx s.context.inputBuffer

theorem stuck_pass {s t : RunnerState} (h : s.Stuck) (hpass : s.pass = .ok t) :
    t.Stuck := by
  obtain ⟨heof, hwaits, hnot⟩ := h
  obtain ⟨r, ctx, hactive, hready, hbase, heq⟩ := hwaits.pass_eq
  rw [heq, heof] at hpass
  obtain ⟨⟨report, ctx', queue'⟩, hread, rfl⟩ := map_eq_ok hpass
  have hnot := hnot _ _ hactive
  have hqueue : s.context.inputBuffer ≠ [] := fun hnil => hnot (Or.inl hnil)
  have honest := InputOutputOperation.readQueue_honest hready hqueue hread
  have hready' : r.operation.readyToEvaluate ctx' = false := by
    rw [← Bool.not_eq_true]
    exact fun htrue => hnot (honest.of_ready htrue)
  refine ⟨?_, r.waitsForRead _ _ _ hready', ?_⟩
  · rw [← heof, ← hbase]
    rfl
  · intro operation ctx'' hactive'
    rw [r.activeRead_eq] at hactive'
    obtain ⟨rfl, rfl⟩ := Prod.mk.inj (Option.some.inj hactive')
    exact fun hfinishes =>
      hnot ((honest.iff_of_waiting hready').mpr hfinishes)

theorem leavesWaiting_of_finishes {s : RunnerState}
    (heof : s.context.eof = true)
    {operation : InputOutputOperation} {ctx : InputOutputOperationContext}
    (hactive : s.context.activeRead = some (operation, ctx))
    (hfinishes : operation.FinishesAtEof ctx s.context.inputBuffer) :
    s.LeavesWaiting := by
  induction hlength : s.context.inputBuffer.length using
    Nat.strongRecOn generalizing s ctx with
  | ind n ih =>
      by_cases hwaits : s.WaitsForRead
      · obtain ⟨r, ctx', hactive', hready, hbase, heq⟩ := hwaits.pass_eq
        rw [hactive] at hactive'
        obtain ⟨rfl, rfl⟩ := Prod.mk.inj (Option.some.inj hactive')
        by_cases hqueue : s.context.inputBuffer = []
        · rw [heof, hqueue, InputOutputOperation.readQueue, if_pos rfl] at heq
          refine ⟨_, Reaches.single heq, ?_⟩
          rw [r.waitsForRead_iff,
            InputOutputOperation.readyToEvaluate_of_eof _ rfl]
          simp
        · obtain ⟨⟨report, ctx'', queue'⟩, hread⟩ :=
            InputOutputOperation.readQueue_total_of_finishesAtEof hqueue
              hfinishes
          rw [heof, hread] at heq
          have honest :=
            InputOutputOperation.readQueue_honest hready hqueue hread
          cases hready' : r.operation.readyToEvaluate ctx'' with
          | true =>
              refine ⟨_, Reaches.single heq, ?_⟩
              rw [r.waitsForRead_iff, hready']
              simp
          | false =>
              have hshorter := honest.shorter hready' hfinishes
              have hfinishes' :=
                (honest.iff_of_waiting hready').mp hfinishes
              have heof' : (r.context ctx'' queue'
                  (.blocked .waitingForRead)).eof = true := by
                rw [← heof, ← hbase]
                rfl
              obtain ⟨t, hreach, hleft⟩ := ih queue'.length
                (by rw [← hlength]; exact hshorter)
                (s := ⟨r.context ctx'' queue' (.blocked .waitingForRead),
                  s.errno⟩) heof' (r.activeRead_eq _ _ _) hfinishes' rfl
              exact ⟨t, Reaches.head heq hreach, hleft⟩
      · exact ⟨s, Reaches.refl s, hwaits⟩

/-- Whatever the interpreter waits with and whatever is queued when the input
ends, the wait ends exactly if the queue is empty or holds what the waiting
operation needs. -/
theorem leavesWaiting_atEof_iff (s : RunnerState) (hwaits : s.WaitsForRead)
    (queue : List Octets) :
    (s.atEof queue).LeavesWaiting ↔
      ∃ operation ctx, s.context.activeRead = some (operation, ctx) ∧
        operation.FinishesAtEof ctx queue := by
  have hactive : (s.atEof queue).context.activeRead =
      s.context.activeRead := rfl
  constructor
  · rintro ⟨t, hreach, hleft⟩
    obtain ⟨r, ctx, hactive', _, _, _⟩ := hwaits.pass_eq
    refine ⟨r.operation, ctx, hactive', ?_⟩
    by_contra hnot
    have hstuck : (s.atEof queue).Stuck := by
      refine ⟨rfl, hwaits, ?_⟩
      intro operation ctx'' hactive''
      rw [hactive, hactive'] at hactive''
      obtain ⟨rfl, rfl⟩ := Prod.mk.inj (Option.some.inj hactive'')
      exact hnot
    exact hleft (hreach.invariant (fun _ _ => stuck_pass) hstuck).2.1
  · rintro ⟨operation, ctx, hactive', hfinishes⟩
    exact leavesWaiting_of_finishes rfl (hactive.trans hactive') hfinishes

/-- A line with its terminator can be read after the peer closed. -/
theorem leavesWaiting_atEof_iff_line :
    ((start (.mk (.inputOutput (.readOctetsUntilTerminator [13, 10] none)) [])
        none 0).atEof [[97, 13], [10]]).LeavesWaiting ↔
      ∃ operation ctx,
        (start (.mk (.inputOutput
          (.readOctetsUntilTerminator [13, 10] none)) []) none
            0).context.activeRead = some (operation, ctx) ∧
        operation.FinishesAtEof ctx [[97, 13], [10]] :=
  leavesWaiting_atEof_iff _ ⟨rfl, _, _, rfl, rfl⟩ _

/-- A line cut short by the end of the input is waited for for ever. -/
theorem waits_for_truncated_line :
    ¬ ∀ (optree : OpTreeNode) (arglist : Option Value) (errno : Errno)
      (events : List RunnerEvent) (s : RunnerState),
      run event events (start optree arglist errno) = .ok s →
      s.WaitsForRead → ∀ queue : List Octets,
        (s.atEof queue).LeavesWaiting := by
  intro h
  let optree : OpTreeNode :=
    .mk (.inputOutput (.readOctetsUntilTerminator [13, 10] none)) []
  have hstart : (start optree none 0).WaitsForRead := ⟨rfl, _, _, rfl, rfl⟩
  obtain ⟨t, hreach, hleft⟩ :=
    h optree none 0 [] _ rfl hstart [[97, 98, 99]]
  have hstuck : ((start optree none 0).atEof [[97, 98, 99]]).Stuck := by
    refine ⟨rfl, hstart, ?_⟩
    intro operation ctx hactive
    have hself : ((start optree none 0).atEof
        [[97, 98, 99]]).context.activeRead =
        some (.readOctetsUntilTerminator [13, 10] none, {}) := rfl
    rw [hself] at hactive
    obtain ⟨rfl, rfl⟩ := Prod.mk.inj (Option.some.inj hactive)
    have hiff : InputOutputOperation.FinishesAtEof
        (.readOctetsUntilTerminator [13, 10] none) {} [[97, 98, 99]] ↔
          [13, 10] <:+: ([[97, 98, 99]] : List Octets).flatten :=
      InputOutputOperation.finishesAtEof_iff (by simp) rfl
    refine hiff.not.mpr ?_
    rw [← Occurrence.first_isSome_iff_infix]
    decide
  exact hleft (hreach.invariant (fun _ _ => stuck_pass) hstuck).2.1

end RunnerState

end NetworkProtocolDsl
