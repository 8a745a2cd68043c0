/-
The send method and the output buffer.

What is in the buffer does not matter to a call of the send method: it appends
the same bytes behind it, and it returns in the state the message leads to.
-/
import NetworkProtocolDsl.GeneratedStateMachine
import NetworkProtocolDsl.Library.Run

namespace NetworkProtocolDsl

open Run

namespace SendCall

variable {stages : List SerializeStage} {thenState : String}

/-- The same call over a buffer with something in front. -/
def prepend (output : Octets) (call : SendCall) : SendCall :=
  { call with outputBuffer := output ++ call.outputBuffer }

theorem assign_prepend (output : Octets) (call : SendCall)
    (stage : ChunkStage) :
    (call.prepend output).assign stage = (call.assign stage).prepend output := by
  cases stage <;> rfl

theorem dispatchLoop_prepend (output : Octets) (call : SendCall)
    (collection : String) (kind : MemberKind)
    (elementStages : List ChunkStage) :
    (call.prepend output).dispatchLoop collection kind elementStages =
      (call.dispatchLoop collection kind elementStages).prepend output := by
  by_cases hend : call.serializer.fields.size collection kind ≤
      call.serializer.loopIndex
  · simp only [↓reduceIte, dispatchLoop, prepend, hend]
  · cases hcase : atElement
        (elementStages.drop call.serializer.loopStage) with
    | some stage =>
        have h := assign_prepend output call stage
        simp only [↓reduceIte, dispatchLoop, prepend, hend, hcase] at h ⊢
        exact h
    | none => simp only [↓reduceIte, dispatchLoop, prepend, hend, hcase]

theorem dispatch_prepend (output : Octets) (call : SendCall) :
    (call.prepend output).dispatch stages =
      (call.dispatch stages).prepend output := by
  cases hcomplete : call.serializer.complete with
  | true => simp only [dispatch, prepend, hcomplete, ↓reduceIte, goto]
  | false =>
      cases hcase : atCase (stages.drop call.serializer.stage) with
      | none =>
          simp only [dispatch, prepend, hcomplete, Bool.false_eq_true,
            ↓reduceIte, hcase]
      | some stage =>
          cases stage with
          | chunk stage =>
              have h := assign_prepend output call stage
              simp only [dispatch, prepend, hcomplete, Bool.false_eq_true,
                ↓reduceIte, hcase] at h ⊢
              exact h
          | loop collection kind elementStages =>
              have h := dispatchLoop_prepend output call collection kind
                elementStages
              simp only [dispatch, prepend, hcomplete, Bool.false_eq_true,
                ↓reduceIte, hcase] at h ⊢
              exact h

theorem escapeTurn_prepend (output : Octets) (call : SendCall)
    (escape : EscapeConstants) (temp : Octets) (pos : Nat) (result : Octets) :
    (call.prepend output).escapeTurn escape temp pos result =
      (call.escapeTurn escape temp pos result).map (prepend output) := by
  by_cases hpos : pos < temp.length
  · by_cases hroom : pos + escape.escapeCharLen ≤ temp.length
    · cases hequal : memcmpEqual (temp.drop pos) escape.escapeChar
          escape.escapeCharLen with
      | error fault =>
          simp only [↓reduceIte, escapeTurn, hpos, hroom, hequal, Except.map]
      | ok same =>
          cases same with
          | true =>
              by_cases hseq : escape.escapeSeq.length < escape.escapeSeqLen
              · simp only [↓reduceIte, escapeTurn, hpos, hroom, hequal,
                  hseq, Except.map]
              · simp only [↓reduceIte, escapeTurn, hpos, hroom, hequal,
                  hseq, Except.map, prepend, goto]
          | false =>
              simp only [↓reduceIte, escapeTurn, hpos, hroom, hequal,
                Except.map, prepend, goto]
    · simp only [↓reduceIte, escapeTurn, hpos, hroom, Except.map, prepend,
        goto]
  · simp only [↓reduceIte, escapeTurn, hpos, Except.map, prepend, goto]

/-- What is in the buffer does not matter to a step. -/
theorem step_prepend (output : Octets) (call : SendCall) :
    step stages thenState (call.prepend output) =
      (step stages thenState call).map (prepend output) := by
  obtain ⟨serializer, outputBuffer, currentState, point⟩ := call
  cases point with
  | head =>
      cases hcomplete : serializer.complete with
      | true =>
          simp only [step, prepend, hcomplete, ↓reduceIte, Except.map, finish]
      | false =>
          simp only [step, prepend, hcomplete, Bool.false_eq_true,
            ↓reduceIte, Except.map, goto]
  | nextChunk =>
      have h := @dispatch_prepend stages output
        ⟨serializer, outputBuffer, currentState, .nextChunk⟩
      simp only [step, prepend, Except.map] at h ⊢
      rw [h]
  | escaping escape temp pos result =>
      exact escapeTurn_prepend output _ escape temp pos result
  | gotChunk chunk =>
      by_cases hempty : chunk = []
      · simp only [↓reduceIte, step, prepend, hempty, Except.map, finish]
      · simp only [↓reduceIte, step, prepend, hempty, Except.map,
          List.append_assoc]
  | returned => rfl

theorem of_reaches_prepend {output : Octets} {call last : SendCall}
    (h : Reaches (step stages thenState) (call.prepend output) last) :
    ∃ last', Reaches (step stages thenState) call last' ∧
      last = last'.prepend output := by
  induction h with
  | refl => exact ⟨call, Reaches.refl _, rfl⟩
  | tail _ hstep ih =>
      obtain ⟨middle, hmiddle, rfl⟩ := ih
      rw [step_prepend] at hstep
      obtain ⟨next, hnext, rfl⟩ := map_eq_ok hstep
      exact ⟨next, hmiddle.trans (Reaches.single hnext), rfl⟩

theorem assign_ne_returned (call : SendCall) (stage : ChunkStage) :
    (call.assign stage).point ≠ .returned := by
  cases stage <;> exact SendPoint.noConfusion

theorem dispatch_ne_returned (call : SendCall) :
    (call.dispatch stages).point ≠ .returned := by
  rw [dispatch]
  split
  · exact SendPoint.noConfusion
  · split
    · exact assign_ne_returned call _
    · rw [dispatchLoop]
      split
      · exact SendPoint.noConfusion
      · split
        · exact assign_ne_returned call _
        · exact SendPoint.noConfusion
    · exact SendPoint.noConfusion

theorem escapeTurn_ne_returned {call call' : SendCall}
    {escape : EscapeConstants} {temp : Octets} {pos : Nat} {result : Octets}
    (h : call.escapeTurn escape temp pos result = .ok call') :
    call'.point ≠ .returned := by
  simp only [escapeTurn] at h
  split at h
  · split at h
    · split at h
      · contradiction
      · split at h
        · contradiction
        · obtain rfl := Except.ok.inj h
          exact SendPoint.noConfusion
      · obtain rfl := Except.ok.inj h
        exact SendPoint.noConfusion
    · obtain rfl := Except.ok.inj h
      exact SendPoint.noConfusion
  · obtain rfl := Except.ok.inj h
    exact SendPoint.noConfusion

/-- A call that returns has moved on to its state. -/
theorem currentState_of_step {call call' : SendCall}
    (hcall : call.point = .returned → call.currentState = thenState)
    (hstep : step stages thenState call = .ok call')
    (hpoint : call'.point = .returned) : call'.currentState = thenState := by
  rw [step] at hstep
  split at hstep
  · split at hstep
    · obtain rfl := Except.ok.inj hstep
      rfl
    · obtain rfl := Except.ok.inj hstep
      contradiction
  · obtain rfl := Except.ok.inj hstep
    exact absurd hpoint (dispatch_ne_returned call)
  · exact absurd hpoint (escapeTurn_ne_returned hstep)
  · split at hstep
    · obtain rfl := Except.ok.inj hstep
      rfl
    · obtain rfl := Except.ok.inj hstep
      contradiction
  · obtain rfl := Except.ok.inj hstep
    exact hcall hpoint

theorem currentState_of_returned {fields : MessageFields} {output : Octets}
    {state : String} {last : SendCall}
    (h : Reaches (step stages thenState) (.start fields output state) last)
    (hreturned : last.point = .returned) : last.currentState = thenState :=
  h.invariant (fun _ _ hcall hstep hpoint =>
    currentState_of_step hcall hstep hpoint)
    (fun hhead => by contradiction) hreturned

end SendCall

/-- The send method of the message appends these bytes. -/
def MessageWriter.Emits (writer : MessageWriter) (fields : MessageFields)
    (bytes : Octets) : Prop :=
  ∃ last, Reaches (SendCall.step writer.stages writer.info.thenState)
    (.start fields [] writer.info.whenState) last ∧ last.point = .returned ∧
      last.outputBuffer = bytes

theorem MessageWriter.emits_of_reaches {writer : MessageWriter}
    {fields : MessageFields} {output : Octets} {last : SendCall}
    (h : Reaches (SendCall.step writer.stages writer.info.thenState)
      (.start fields output writer.info.whenState) last)
    (hreturned : last.point = .returned) :
    ∃ bytes, writer.Emits fields bytes ∧
      last.outputBuffer = output ++ bytes ∧
      last.currentState = writer.info.thenState := by
  have hstart : SendCall.start fields output writer.info.whenState =
      (SendCall.start fields [] writer.info.whenState).prepend output := by
    simp [SendCall.start, SendCall.prepend]
  have hstate := SendCall.currentState_of_returned h hreturned
  rw [hstart] at h
  obtain ⟨last', hlast, rfl⟩ := SendCall.of_reaches_prepend h
  exact ⟨last'.outputBuffer, ⟨last', hlast, hreturned, rfl⟩, rfl, hstate⟩

end NetworkProtocolDsl
