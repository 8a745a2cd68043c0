/-
What the lookahead makes of the bytes that have arrived.

A condition that fits keeps fitting as more arrives, and one that is ruled out
stays ruled out.
-/
import NetworkProtocolDsl.Reader

namespace NetworkProtocolDsl

namespace TransitionLookahead

/-- The condition fits these bytes; `ended` tells whether their end has been
announced. -/
def Fits (stream : Octets) (ended : Bool) : TransitionCondition → Prop
  | .eofCondition => stream = [] ∧ ended = true
  | .matchUntilTerminator terminator => terminator <:+: stream
  | .static octets => octets <+: stream ∧ octets ≠ stream

theorem matchCondition_fits (ctx : InputOutputOperationContext)
    (condition : TransitionCondition) :
    (matchCondition ctx condition).1 = true ↔
      Fits ctx.buffer ctx.eof condition := by
  cases condition with
  | eofCondition =>
      unfold matchCondition Fits
      by_cases hbuffer : ctx.buffer = [] <;> cases ctx.eof <;> simp [hbuffer]
  | matchUntilTerminator terminator =>
      rw [Fits, ← Occurrence.first_isSome_iff_infix, matchCondition]
      cases Occurrence.first terminator ctx.buffer <;> simp
  | static octets =>
      rw [Fits, matchCondition]
      by_cases hlength : ctx.buffer.length ≤ octets.length
      · rw [if_pos hlength]
        constructor
        · intro hvalid
          split at hvalid <;> contradiction
        · rintro ⟨hstarts, hne⟩
          exact absurd (hstarts.eq_of_length_le hlength) hne
      · rw [if_neg hlength, List.prefix_iff_eq_take]
        have hne : octets ≠ ctx.buffer := by
          rintro rfl
          exact hlength (Nat.le_refl _)
        by_cases heq : ctx.buffer.take octets.length = octets
        · simp [heq, hne]
        · have hother : ¬ octets = ctx.buffer.take octets.length :=
            fun h => heq h.symm
          simp [heq, hother]

/-- What a lookahead has seen may be followed by what another one has seen. -/
structure Later (ctx ctx' : InputOutputOperationContext) : Prop where
  buffer : ctx.buffer <+: ctx'.buffer
  eof : ctx.eof = true → ctx'.eof = true
  ended : ctx'.eof = true → ctx'.buffer = []

theorem Later.fits {ctx ctx' : InputOutputOperationContext}
    (h : Later ctx ctx') {condition : TransitionCondition}
    (hfits : Fits ctx.buffer ctx.eof condition) :
    Fits ctx'.buffer ctx'.eof condition := by
  cases condition with
  | eofCondition =>
      have heof := h.eof hfits.2
      exact ⟨h.ended heof, heof⟩
  | matchUntilTerminator terminator => exact hfits.trans h.buffer.isInfix
  | static octets =>
      refine ⟨hfits.1.trans h.buffer, ?_⟩
      rintro rfl
      exact hfits.2 (hfits.1.eq_of_length_le h.buffer.length_le)

theorem ruledOut_of_incomparable {ctx : InputOutputOperationContext}
    {octets : Octets} (hnot : ¬ ctx.buffer <+: octets)
    (hnot' : ¬ octets <+: ctx.buffer) :
    matchCondition ctx (.static octets) = (false, true) := by
  rw [matchCondition]
  rw [List.prefix_iff_eq_take] at hnot hnot'
  rw [if_pos hnot]
  split
  · rfl
  · rw [if_neg fun heq => hnot' heq.symm]

/-- Before the end of the input a static piece is ruled out by other bytes
only. -/
theorem incomparable_of_ruledOut {ctx : InputOutputOperationContext}
    {octets : Octets} (heof : ¬ ctx.eof = true)
    (hout : matchCondition ctx (.static octets) = (false, true)) :
    ¬ ctx.buffer <+: octets ∧ ¬ octets <+: ctx.buffer := by
  rw [matchCondition] at hout
  split at hout
  · rename_i hlength
    split at hout
    · rename_i hne
      have hnot : ¬ ctx.buffer <+: octets := by
        rwa [List.prefix_iff_eq_take]
      refine ⟨hnot, fun hstarts => hnot ?_⟩
      rw [hstarts.eq_of_length_le hlength]
    · exact absurd (Prod.mk.inj hout).2 heof
  · rename_i hlength
    split at hout
    · exact absurd (Prod.mk.inj hout).1 (by simp)
    · rename_i hne
      refine ⟨fun hstarts => hlength hstarts.length_le, fun hstarts => hne ?_⟩
      exact (List.prefix_iff_eq_take.mp hstarts).symm

/-- A condition that is ruled out stays ruled out. -/
theorem Later.ruledOut {ctx ctx' : InputOutputOperationContext}
    (h : Later ctx ctx') {condition : TransitionCondition}
    (hout : matchCondition ctx condition = (false, true)) :
    matchCondition ctx' condition = (false, true) := by
  by_cases heof : ctx.eof = true
  · -- nothing arrives after the end of the input
    have heof' := h.eof heof
    have hnil := h.ended heof'
    have hbuffer : ctx.buffer = [] := List.prefix_nil.mp (hnil ▸ h.buffer)
    have hsame : matchCondition ctx' condition =
        matchCondition ctx condition := by
      cases condition <;>
        simp only [matchCondition, hnil, hbuffer, heof, heof']
    rw [hsame, hout]
  · cases condition with
    | eofCondition =>
        simp only [matchCondition, heof] at hout ⊢
        have hne : ctx.buffer ≠ [] := by
          intro hnil
          simp [hnil] at hout
        have hne' : ctx'.buffer ≠ [] := by
          intro hnil
          exact hne (List.prefix_nil.mp (hnil ▸ h.buffer))
        rw [if_neg hne']
    | matchUntilTerminator terminator =>
        simp only [matchCondition] at hout
        split at hout
        · simp at hout
        · simp [heof] at hout
    | static octets =>
        obtain ⟨hnot, hnot'⟩ := incomparable_of_ruledOut heof hout
        refine ruledOut_of_incomparable ?_ ?_
        · exact fun hstarts => hnot (h.buffer.trans hstarts)
        · intro hstarts
          rcases List.prefix_or_prefix_of_prefix hstarts h.buffer with
            hle | hle
          · exact hnot' hle
          · exact hnot hle

section Apply

variable {conditions : List (TransitionCondition × Octets)}
  {ctx : InputOutputOperationContext}

/-- Nothing fits and nothing can come to fit. -/
def AllRuledOut (conditions : List (TransitionCondition × Octets))
    (ctx : InputOutputOperationContext) : Prop :=
  ∀ entry ∈ conditions, matchCondition ctx entry.1 = (false, true)

/-- The loop over the conditions yields the first that fits. -/
theorem select_cases (ctx : InputOutputOperationContext)
    (conditions : List (TransitionCondition × Octets)) (invalid : Bool) :
    (∃ before condition target after,
      conditions = before ++ (condition, target) :: after ∧
      (∀ entry ∈ before, ¬ Fits ctx.buffer ctx.eof entry.1) ∧
      Fits ctx.buffer ctx.eof condition ∧
      select ctx conditions invalid = .value (.octets target)) ∨
    (∀ entry ∈ conditions, ¬ Fits ctx.buffer ctx.eof entry.1) ∧
      (invalid = true ∧ AllRuledOut conditions ctx ∧
          select ctx conditions invalid =
            .value (.runtimeError .protocolMismatchError) ∨
        ¬ (invalid = true ∧ AllRuledOut conditions ctx) ∧
          select ctx conditions invalid = .blocked .waitingForRead) := by
  induction conditions generalizing invalid with
  | nil =>
      right
      cases invalid <;> simp [AllRuledOut, select]
  | cons entry conditions ih =>
      obtain ⟨condition, target⟩ := entry
      cases hvalid : (matchCondition ctx condition).1 with
      | true =>
          left
          refine ⟨[], condition, target, conditions, rfl, by simp,
            (matchCondition_fits ctx condition).mp hvalid, ?_⟩
          simp only [select, hvalid, ↓reduceIte]
      | false =>
          have hnot : ¬ Fits ctx.buffer ctx.eof condition := by
            rw [← matchCondition_fits, hvalid]
            simp
          have hselect : select ctx ((condition, target) :: conditions)
              invalid = select ctx conditions
                (invalid && (matchCondition ctx condition).2) := by
            simp only [select, hvalid, Bool.false_eq_true, ↓reduceIte]
          have hout : matchCondition ctx condition = (false, true) ↔
              (matchCondition ctx condition).2 = true := by
            rw [Prod.ext_iff, hvalid]
            simp
          rw [hselect]
          rcases ih (invalid && (matchCondition ctx condition).2) with
            ⟨before, other, name, after, rfl, hbefore, hfits, hvalue⟩ |
              ⟨hnone, hrest⟩
          · refine Or.inl ⟨(condition, target) :: before, other, name, after,
              rfl, ?_, hfits, hvalue⟩
            simpa [hnot] using hbefore
          · refine Or.inr ⟨by simpa [hnot] using hnone, ?_⟩
            simpa [AllRuledOut, hout, and_assoc] using hrest

theorem apply_cases (conditions : List (TransitionCondition × Octets))
    (ctx : InputOutputOperationContext) :
    (∃ before condition target after,
      conditions = before ++ (condition, target) :: after ∧
      (∀ entry ∈ before, ¬ Fits ctx.buffer ctx.eof entry.1) ∧
      Fits ctx.buffer ctx.eof condition ∧
      apply conditions ctx = .value (.octets target)) ∨
    (∀ entry ∈ conditions, ¬ Fits ctx.buffer ctx.eof entry.1) ∧
      (AllRuledOut conditions ctx ∧ apply conditions ctx =
            .value (.runtimeError .protocolMismatchError) ∨
        ¬ AllRuledOut conditions ctx ∧
          apply conditions ctx = .blocked .waitingForRead) := by
  have h := select_cases ctx conditions true
  simp only [true_and] at h
  exact h

theorem apply_of_ready (hready : readyToEvaluate conditions ctx = true) :
    ∃ value, apply conditions ctx = .value value := by
  have hblocked : apply conditions ctx ≠ .blocked .waitingForRead := by
    rw [ne_eq, apply_blocked_iff, hready]
    simp
  rcases apply_cases conditions ctx with ⟨_, _, target, _, _, _, _, hvalue⟩ |
    ⟨_, ⟨_, hvalue⟩ | ⟨_, hwait⟩⟩
  · exact ⟨_, hvalue⟩
  · exact ⟨_, hvalue⟩
  · exact absurd hwait hblocked

end Apply

section Offer

variable (conditions : List (TransitionCondition × Octets))
  (ctx : InputOutputOperationContext)

/-- The joining loop consumes nothing and shows the lookahead everything. -/
theorem joinQueue_eq (joined : Octets) (didJoin : Bool)
    (queue : List Octets) :
    ∃ report,
      (InputOutputOperation.transitionLookahead conditions).joinQueue
        { ctx with buffer := joined } joined didJoin queue =
        .ok (report, { ctx with buffer := joined ++ queue.flatten },
          [joined ++ queue.flatten]) ∧
      (report = .stillBlocked → readyToEvaluate conditions
        { ctx with buffer := joined ++ queue.flatten } = false) := by
  induction queue generalizing joined didJoin with
  | nil =>
      rw [List.flatten_nil, List.append_nil]
      simp only [InputOutputOperation.joinQueue]
      by_cases hready : (InputOutputOperation.transitionLookahead
          conditions).readyToEvaluate { ctx with buffer := joined } = true
      · rw [if_pos hready]
        exact ⟨.unblocked, rfl, fun h => by contradiction⟩
      · rw [if_neg hready]
        cases didJoin with
        | true => exact ⟨.needsRetry, rfl, fun h => by contradiction⟩
        | false =>
            exact ⟨.stillBlocked, rfl, fun _ => (Bool.not_eq_true _).mp hready⟩
  | cons next queue ih =>
      obtain ⟨report, heq, hstill⟩ := ih (joined ++ next) true
      have hflatten : joined ++ (next :: queue).flatten =
          joined ++ next ++ queue.flatten := by simp
      rw [hflatten]
      refine ⟨report, ?_, hstill⟩
      exact heq

theorem readQueue_eq (eof : Bool) {queue : List Octets} (hne : queue ≠ []) :
    ∃ report,
      (InputOutputOperation.transitionLookahead conditions).readQueue ctx eof
        queue = .ok (report, { ctx with buffer := queue.flatten },
          [queue.flatten]) ∧
      (report = .stillBlocked → readyToEvaluate conditions
        { ctx with buffer := queue.flatten } = false) := by
  cases queue with
  | nil => contradiction
  | cons buffer queue =>
      obtain ⟨report, heq, hstill⟩ :=
        joinQueue_eq conditions ctx buffer false queue
      rw [List.flatten_cons]
      exact ⟨report, heq, hstill⟩

end Offer

end TransitionLookahead

end NetworkProtocolDsl
