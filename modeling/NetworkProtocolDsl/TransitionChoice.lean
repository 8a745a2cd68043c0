/-
Which transition the lookahead chooses.

The lookahead takes the first condition that fits what has arrived.  A
condition that fits keeps fitting as more arrives, and one that is ruled out
stays ruled out; so the possible choices are the conditions that fit the whole
stream, and the choice depends on the stream alone exactly if they agree.
-/
import NetworkProtocolDsl.AgentTransitions
import NetworkProtocolDsl.Generate
import NetworkProtocolDsl.ReadProgram
import NetworkProtocolDsl.TransitionLookahead

namespace NetworkProtocolDsl

open Run

/-- The events deliver the stream in chunks, and announce its end if it has
ended. -/
inductive Sends : List RunnerEvent → Octets → Bool → Prop where
  | start : Sends [] [] false
  | chunk {events : List RunnerEvent} {stream data : Octets}
      (h : Sends events stream false) (hne : data ≠ []) :
      Sends (events ++ [.chunk data]) (stream ++ data) false
  | endOfInput {events : List RunnerEvent} {stream : Octets}
      (h : Sends events stream false) :
      Sends (events ++ [.endOfInput]) stream true
  | pass {events : List RunnerEvent} {stream : Octets} {ended : Bool}
      (h : Sends events stream ended) :
      Sends (events ++ [.pass]) stream ended

namespace TransitionChoice

open TransitionLookahead Analyze Generate PartsToReadActions

variable (conditions : List (TransitionCondition × Octets)) (errno : Errno)

def program : ReadProgram where
  operation := .transitionLookahead conditions
  arity := rfl
  errno := errno

/-- All there is to see of a stream; its end shows only where it is empty. -/
def seen (stream : Octets) (ended : Bool) : InputOutputOperationContext :=
  { buffer := stream, eof := ended && stream.isEmpty }

/-- A condition fits before anything has arrived: its terminator is empty. -/
def FitsAtOnce : Prop :=
  ∃ entry ∈ conditions, Fits [] false entry.1

/-- The context was not shown anything yet, or there is nothing that fits
before that. -/
def Fresh (ctx : InputOutputOperationContext) : Prop :=
  ctx.buffer = [] ∧ ctx.eof = false ∨ ¬ FitsAtOnce conditions

/-- Still looking, or the result of an evaluation on what had arrived. -/
def Invariant (stream : Octets) (ended : Bool) (s : RunnerState) : Prop :=
  (∃ ctx queue, (program conditions errno).Reading ctx queue ended s ∧
    queue.flatten = stream ∧ (∀ chunk ∈ queue, chunk ≠ []) ∧
    Later ctx (seen stream ended) ∧ Fresh conditions ctx) ∨
  ∃ ctx value, ReadProgram.Done value s ∧ Later ctx (seen stream ended) ∧
    TransitionLookahead.apply conditions ctx = .value value ∧
    Fresh conditions ctx

variable {conditions errno}

theorem later_push {ctx : InputOutputOperationContext} {stream : Octets}
    (h : Later ctx (seen stream false)) (data : Octets) :
    Later ctx (seen (stream ++ data) false) where
  buffer := h.buffer.trans (List.prefix_append stream data)
  eof := h.eof
  ended := fun heof => by simp [seen] at heof

theorem later_end {ctx : InputOutputOperationContext} {stream : Octets}
    (h : Later ctx (seen stream false)) : Later ctx (seen stream true) where
  buffer := h.buffer
  eof := fun heof => by simpa [seen] using h.eof heof
  ended := fun heof => by simpa [seen] using heof

theorem invariant_start : Invariant conditions errno [] false
    (program conditions errno).start :=
  Or.inl ⟨{}, [], ReadProgram.start_reading _, rfl, by simp,
    ⟨List.prefix_refl [], by simp, by simp [seen]⟩, Or.inl ⟨rfl, rfl⟩⟩

theorem Invariant.push {stream : Octets} {s : RunnerState}
    (h : Invariant conditions errno stream false s) {data : Octets}
    (hne : data ≠ []) :
    Invariant conditions errno (stream ++ data) false (s.push data) := by
  rcases h with ⟨ctx, queue, hreading, rfl, hchunks, hlater, hfresh⟩ |
    ⟨ctx, value, hdone, hlater, hvalue, hfresh⟩
  · refine Or.inl ⟨ctx, queue ++ [data], hreading.push data, by simp, ?_,
      later_push hlater data, hfresh⟩
    intro chunk hmem
    rcases List.mem_append.mp hmem with hmem | hmem
    · exact hchunks chunk hmem
    · exact List.mem_singleton.mp hmem ▸ hne
  · exact Or.inr ⟨ctx, value, hdone.push data, later_push hlater data, hvalue,
      hfresh⟩

theorem Invariant.endOfInput {stream : Octets} {s : RunnerState}
    (h : Invariant conditions errno stream false s) :
    Invariant conditions errno stream true
      { s with context := { s.context with eof := true } } := by
  rcases h with ⟨ctx, queue, hreading, hqueue, hchunks, hlater, hfresh⟩ |
    ⟨ctx, value, hdone, hlater, hvalue, hfresh⟩
  · exact Or.inl ⟨ctx, queue, hreading.endOfInput, hqueue, hchunks,
      later_end hlater, hfresh⟩
  · exact Or.inr ⟨ctx, value, hdone, later_end hlater, hvalue, hfresh⟩

theorem not_fitsAtOnce {ctx : InputOutputOperationContext}
    (hfresh : Fresh conditions ctx)
    (hwait : readyToEvaluate conditions ctx = false) :
    ¬ FitsAtOnce conditions := by
  rcases hfresh with ⟨hbuffer, heof⟩ | hnot
  · rintro ⟨entry, hmem, hfits⟩
    have hblocked := (apply_blocked_iff conditions ctx).mpr hwait
    rcases apply_cases conditions ctx with ⟨_, _, _, _, _, _, _, hvalue⟩ |
      ⟨hnone, _⟩
    · rw [hvalue] at hblocked
      contradiction
    · apply hnone entry hmem
      rwa [hbuffer, heof]
  · exact hnot

/-- What one pass keeps: it evaluates, shows the lookahead all that is queued,
or announces the end of the input. -/
theorem Invariant.pass {stream : Octets} {ended : Bool} {s t : RunnerState}
    (h : Invariant conditions errno stream ended s) (hpass : s.pass = .ok t) :
    Invariant conditions errno stream ended t := by
  rcases h with ⟨ctx, queue, hreading, rfl, hchunks, hlater, hfresh⟩ |
    ⟨ctx, value, hdone, hrest⟩
  · cases hready : readyToEvaluate conditions ctx with
    | true =>
        obtain ⟨value, hvalue⟩ := apply_of_ready hready
        have happly : (program conditions errno).operation.apply ctx []
            errno = .ok ⟨.value value, ctx, errno⟩ := by
          simp only [program, InputOutputOperation.apply, hvalue]
        obtain ⟨u, hu, hdone⟩ := hreading.pass_value happly
        obtain rfl := Except.ok.inj (hu.symm.trans hpass)
        exact Or.inr ⟨ctx, value, hdone, hlater, hvalue, hfresh⟩
    | false =>
        have hnot := not_fitsAtOnce hfresh hready
        cases hqueue : queue with
        | nil =>
            subst hqueue
            cases ended with
            | true =>
                obtain ⟨u, hu, hreading'⟩ :=
                  hreading.pass_waiting hready rfl
                obtain rfl := Except.ok.inj (hu.symm.trans hpass)
                exact Or.inl ⟨_, [], hreading', rfl, hchunks,
                  ⟨hlater.buffer, fun _ => rfl, hlater.ended⟩, Or.inr hnot⟩
            | false =>
                obtain ⟨u, hu, hreading'⟩ :=
                  hreading.pass_waiting hready rfl
                obtain rfl := Except.ok.inj (hu.symm.trans hpass)
                exact Or.inl ⟨ctx, [], hreading', rfl, hchunks, hlater,
                  hfresh⟩
        | cons first rest =>
            have hne : queue ≠ [] := by simp [hqueue]
            obtain ⟨report, hread, _⟩ := readQueue_eq conditions ctx ended hne
            obtain ⟨u, hu, hreading'⟩ := hreading.pass_waiting hready hread
            obtain rfl := Except.ok.inj (hu.symm.trans hpass)
            have hstream : queue.flatten ≠ [] := by
              intro hnil
              exact hchunks first (by simp [hqueue])
                (List.flatten_eq_nil_iff.mp hnil first (by simp [hqueue]))
            rw [← hqueue]
            refine Or.inl ⟨_, [queue.flatten], hreading', by simp, ?_,
              ⟨List.prefix_refl _, hlater.eof, hlater.ended⟩, Or.inr hnot⟩
            intro chunk hmem
            exact List.mem_singleton.mp hmem ▸ hstream
  · rw [hdone.pass] at hpass
    obtain rfl := Except.ok.inj hpass
    exact Or.inr ⟨ctx, value, hdone, hrest⟩

/-- Every run keeps the invariant. -/
theorem invariant_of_sends {events : List RunnerEvent} {stream : Octets}
    {ended : Bool} (h : Sends events stream ended) {s : RunnerState}
    (hrun : run RunnerState.event events (program conditions errno).start =
      .ok s) : Invariant conditions errno stream ended s := by
  induction h generalizing s with
  | start =>
      obtain rfl := Except.ok.inj hrun
      exact invariant_start
  | chunk h hne ih =>
      obtain ⟨middle, hmiddle, hstep⟩ := run_concat_eq_ok hrun
      obtain rfl := Except.ok.inj hstep
      exact (ih hmiddle).push hne
  | endOfInput h ih =>
      obtain ⟨middle, hmiddle, hstep⟩ := run_concat_eq_ok hrun
      obtain rfl := Except.ok.inj hstep
      exact (ih hmiddle).endOfInput
  | pass h ih =>
      obtain ⟨middle, hmiddle, hstep⟩ := run_concat_eq_ok hrun
      exact (ih hmiddle).pass hstep

theorem fits_seen {stream : Octets} {ended : Bool}
    {condition : TransitionCondition} :
    Fits (seen stream ended).buffer (seen stream ended).eof condition ↔
      Fits stream ended condition := by
  cases condition with
  | eofCondition =>
      simp only [Fits, seen, Bool.and_eq_true, List.isEmpty_iff]
      exact ⟨fun h => ⟨h.1, h.2.1⟩, fun h => ⟨h.1, h.2, h.1⟩⟩
  | matchUntilTerminator terminator => exact Iff.rfl
  | static octets => exact Iff.rfl

theorem later_seen (stream : Octets) (ended : Bool) :
    Later {} (seen stream ended) where
  buffer := List.nil_prefix
  eof := fun heof => by contradiction
  ended := fun heof => by simp [seen] at heof; exact heof.2

/-- The names that can be chosen: those of the conditions that fit at once, or
without such a condition those of the conditions that fit the stream. -/
def Chosen (conditions : List (TransitionCondition × Octets))
    (stream : Octets) (ended : Bool) (name : Octets) : Prop :=
  ∃ entry ∈ conditions, entry.2 = name ∧
    (Fits [] false entry.1 ∨
      ¬ FitsAtOnce conditions ∧ Fits stream ended entry.1)

theorem Chosen.fits {stream : Octets} {ended : Bool} {name : Octets}
    (h : Chosen conditions stream ended name) :
    ∃ entry ∈ conditions, Fits stream ended entry.1 := by
  obtain ⟨entry, hmem, _, honce | ⟨_, hfits⟩⟩ := h
  · exact ⟨entry, hmem, fits_seen.mp ((later_seen stream ended).fits honce)⟩
  · exact ⟨entry, hmem, hfits⟩

theorem not_fits_of_allRuledOut {ctx : InputOutputOperationContext}
    (h : AllRuledOut conditions ctx) {entry : TransitionCondition × Octets}
    (hmem : entry ∈ conditions) : ¬ Fits ctx.buffer ctx.eof entry.1 := by
  rw [← matchCondition_fits, h entry hmem]
  simp

/-- What a settled lookahead has to show for the stream. -/
inductive Outcome (conditions : List (TransitionCondition × Octets))
    (stream : Octets) (ended : Bool) : Option Value → Prop where
  | chosen {name : Octets} (h : Chosen conditions stream ended name) :
      Outcome conditions stream ended (some (.octets name))
  | mismatch (h : AllRuledOut conditions (seen stream ended)) :
      Outcome conditions stream ended
        (some (.runtimeError .protocolMismatchError))
  | waiting
      (hnone : ∀ entry ∈ conditions, ¬ Fits stream ended entry.1)
      (hnot : ¬ AllRuledOut conditions (seen stream ended)) :
      Outcome conditions stream ended none

theorem Outcome.of_waiting {stream : Octets} {ended : Bool}
    (hwait : readyToEvaluate conditions (seen stream ended) = false) :
    Outcome conditions stream ended none := by
  have hblocked := (apply_blocked_iff conditions _).mpr hwait
  rcases apply_cases conditions (seen stream ended) with
    ⟨_, _, _, _, _, _, _, hvalue⟩ | ⟨hnone, ⟨_, hvalue⟩ | ⟨hnot, _⟩⟩
  · rw [hvalue] at hblocked
    contradiction
  · rw [hvalue] at hblocked
    contradiction
  · exact .waiting (fun entry hmem => fits_seen.not.mp (hnone entry hmem)) hnot

theorem Outcome.of_value {stream : Octets} {ended : Bool}
    {ctx : InputOutputOperationContext} {value : Value}
    (hlater : Later ctx (seen stream ended)) (hfresh : Fresh conditions ctx)
    (hvalue : TransitionLookahead.apply conditions ctx = .value value) :
    Outcome conditions stream ended (some value) := by
  rcases apply_cases conditions ctx with
    ⟨before, condition, name, after, hconditions, _, hfits, hname⟩ |
      ⟨_, ⟨hout, hmismatch⟩ | ⟨_, hblocked⟩⟩
  · obtain rfl := OperationResult.value.inj (hname.symm.trans hvalue)
    refine .chosen ⟨(condition, name), by simp [hconditions], rfl, ?_⟩
    rcases hfresh with ⟨hbuffer, heof⟩ | hnot
    · rw [hbuffer, heof] at hfits
      exact Or.inl hfits
    · exact Or.inr ⟨hnot, fits_seen.mp (hlater.fits hfits)⟩
  · obtain rfl := OperationResult.value.inj (hmismatch.symm.trans hvalue)
    exact .mismatch fun entry hmem => hlater.ruledOut (hout entry hmem)
  · rw [hblocked] at hvalue
    contradiction

theorem matchCondition_congr {ctx ctx' : InputOutputOperationContext}
    (hbuffer : ctx.buffer = ctx'.buffer) (heof : ctx.eof = ctx'.eof)
    (condition : TransitionCondition) :
    matchCondition ctx condition = matchCondition ctx' condition := by
  cases condition <;> simp only [matchCondition, hbuffer, heof]

theorem readyToEvaluate_congr {ctx ctx' : InputOutputOperationContext}
    (hbuffer : ctx.buffer = ctx'.buffer) (heof : ctx.eof = ctx'.eof) :
    readyToEvaluate conditions ctx = readyToEvaluate conditions ctx' := by
  simp only [readyToEvaluate, matchCondition_congr hbuffer heof]

/-- A settled run shows an outcome of the stream. -/
theorem Invariant.outcome {stream : Octets} {ended : Bool} {s : RunnerState}
    (h : Invariant conditions errno stream ended s) (hsettled : s.Settled) :
    Outcome conditions stream ended s.context.interpreterResult := by
  rcases h with ⟨ctx, queue, hreading, rfl, hchunks, hlater, hfresh⟩ |
    ⟨ctx, value, hdone, hlater, hvalue, hfresh⟩
  · rcases hsettled with hexited | ⟨context', errno', hstill⟩
    · rw [hreading.not_exited.1] at hexited
      contradiction
    · rw [hreading.not_exited.2]
      apply Outcome.of_waiting
      cases hready : readyToEvaluate conditions ctx with
      | true =>
          exfalso
          obtain ⟨value, hvalue⟩ := apply_of_ready hready
          have happly : (program conditions errno).operation.apply ctx []
              errno = .ok ⟨.value value, ctx, errno⟩ := by
            simp only [program, InputOutputOperation.apply, hvalue]
          obtain ⟨context, hcontext, _⟩ :=
            hreading.context_pass_value happly
          rw [hcontext] at hstill
          simp at hstill
      | false =>
          cases hqueue : queue with
          | nil =>
              subst hqueue
              cases ended with
              | true =>
                  exfalso
                  obtain ⟨context, hcontext, _⟩ :=
                    hreading.context_pass_waiting hready rfl
                  rw [hcontext] at hstill
                  simp at hstill
              | false =>
                  have hbuffer : ctx.buffer = [] :=
                    List.prefix_nil.mp hlater.buffer
                  have heof : ctx.eof = false := by
                    by_contra htrue
                    have := hlater.eof (by simpa using htrue)
                    simp [seen] at this
                  exact (readyToEvaluate_congr hbuffer heof).symm.trans hready
          | cons first rest =>
              have hne : queue ≠ [] := by simp [hqueue]
              obtain ⟨report, hread, hreport⟩ :=
                readQueue_eq conditions ctx ended hne
              obtain ⟨context, hcontext, _⟩ :=
                hreading.context_pass_waiting hready hread
              rw [hcontext] at hstill
              simp only [Except.ok.injEq, Prod.mk.injEq,
                InterpreterContext.Progress.blocked.injEq] at hstill
              have hstream : queue.flatten ≠ [] := by
                intro hnil
                exact hchunks first (by simp [hqueue])
                  (List.flatten_eq_nil_iff.mp hnil first (by simp [hqueue]))
              have hseen : (seen queue.flatten ended).eof = false := by
                simp [seen, hstream]
              have heof : ctx.eof = false := by
                by_contra htrue
                rw [hlater.eof (by simpa using htrue)] at hseen
                contradiction
              rw [← hqueue]
              have hsame : readyToEvaluate conditions
                    (seen queue.flatten ended) = readyToEvaluate conditions
                      { ctx with buffer := queue.flatten } :=
                readyToEvaluate_congr rfl (hseen.trans heof.symm)
              exact hsame.trans (hreport hstill.1)
  · rw [hdone.2]
    exact .of_value hlater hfresh hvalue

/-- Two outcomes agree where the choice is unique. -/
theorem Outcome.unique {stream : Octets} {ended : Bool}
    (hunique : ∀ name name', Chosen conditions stream ended name →
      Chosen conditions stream ended name' → name = name')
    {left right : Option Value}
    (hleft : Outcome conditions stream ended left)
    (hright : Outcome conditions stream ended right) : left = right := by
  cases hleft with
  | chosen hleft =>
      obtain ⟨entry, hmem, hfits⟩ := hleft.fits
      cases hright with
      | chosen hright => rw [hunique _ _ hleft hright]
      | mismatch hout => exact absurd (fits_seen.mpr hfits) (not_fits_of_allRuledOut hout hmem)
      | waiting hnone _ => exact absurd hfits (hnone entry hmem)
  | mismatch hout =>
      cases hright with
      | chosen hright =>
          obtain ⟨entry, hmem, hfits⟩ := hright.fits
          exact absurd (fits_seen.mpr hfits) (not_fits_of_allRuledOut hout hmem)
      | mismatch _ => rfl
      | waiting _ hnot => exact absurd hout hnot
  | waiting hnone hnot =>
      cases hright with
      | chosen hright =>
          obtain ⟨entry, hmem, hfits⟩ := hright.fits
          exact absurd hfits (hnone entry hmem)
      | mismatch hout => exact absurd hout hnot
      | waiting _ _ => rfl

section Permutation

variable {left : List (TransitionCondition × Octets)}

theorem fitsAtOnce_perm (h : left.Perm conditions) :
    FitsAtOnce left ↔ FitsAtOnce conditions := by
  simp only [FitsAtOnce, h.mem_iff]

theorem chosen_perm (h : left.Perm conditions) {stream : Octets}
    {ended : Bool} {name : Octets} :
    Chosen left stream ended name ↔ Chosen conditions stream ended name := by
  simp only [Chosen, h.mem_iff, fitsAtOnce_perm h]

theorem allRuledOut_perm (h : left.Perm conditions)
    {ctx : InputOutputOperationContext} :
    AllRuledOut left ctx ↔ AllRuledOut conditions ctx := by
  simp only [AllRuledOut, h.mem_iff]

theorem Outcome.perm (h : left.Perm conditions) {stream : Octets}
    {ended : Bool} {result : Option Value}
    (houtcome : Outcome left stream ended result) :
    Outcome conditions stream ended result := by
  cases houtcome with
  | chosen hchosen => exact .chosen ((chosen_perm h).mp hchosen)
  | mismatch hout => exact .mismatch ((allRuledOut_perm h).mp hout)
  | waiting hnone hnot =>
      exact .waiting (fun entry hmem => hnone entry (h.mem_iff.mpr hmem))
        ((allRuledOut_perm h).not.mp hnot)

end Permutation

/-- In every order of the conditions and however the stream is cut, a settled
lookahead has the same to show. -/
def ChoiceIndependent (conditions : List (TransitionCondition × Octets))
    (stream : Octets) (ended : Bool) (errno : Errno) : Prop :=
  ∀ left right : List (TransitionCondition × Octets),
    left.Perm conditions → right.Perm conditions →
    ∀ events events' : List RunnerEvent,
      Sends events stream ended → Sends events' stream ended →
      ∀ s t : RunnerState,
        run RunnerState.event events (program left errno).start = .ok s →
        s.Settled →
        run RunnerState.event events' (program right errno).start = .ok t →
        t.Settled →
        s.context.interpreterResult = t.context.interpreterResult

theorem independent_of_unique {stream : Octets} {ended : Bool}
    (hunique : ∀ name name', Chosen conditions stream ended name →
      Chosen conditions stream ended name' → name = name') :
    ChoiceIndependent conditions stream ended errno := by
  intro left right hleft hright events events' hsends hsends' s t hrun
    hsettled hrun' hsettled'
  have houtcome := (invariant_of_sends hsends hrun).outcome hsettled
  have houtcome' := (invariant_of_sends hsends' hrun').outcome hsettled'
  exact Outcome.unique hunique (houtcome.perm hleft) (houtcome'.perm hright)

/-- The whole stream in one chunk, and its end. -/
theorem sends_whole (conditions : List (TransitionCondition × Octets))
    (errno : Errno) (stream : Octets) (ended : Bool) :
    ∃ events queue, Sends events stream ended ∧ queue.flatten = stream ∧
      (stream = [] → queue = []) ∧
      ∃ s, run RunnerState.event events (program conditions errno).start =
          .ok s ∧ (program conditions errno).Reading {} queue ended s := by
  have hstart := ReadProgram.start_reading (program conditions errno)
  have hchunk : ∃ events queue, Sends events stream false ∧
      queue.flatten = stream ∧ (stream = [] → queue = []) ∧
      ∃ s, run RunnerState.event events (program conditions errno).start =
          .ok s ∧ (program conditions errno).Reading {} queue false s := by
    by_cases hnil : stream = []
    · subst hnil
      exact ⟨[], [], .start, rfl, fun _ => rfl, _, rfl, hstart⟩
    · refine ⟨[.chunk stream], [stream], ?_, by simp, fun h => absurd h hnil,
        _, rfl, hstart.push stream⟩
      exact .chunk .start hnil
  obtain ⟨events, queue, hsends, hflatten, hnil, s, hrun, hreading⟩ := hchunk
  cases ended with
  | false => exact ⟨events, queue, hsends, hflatten, hnil, s, hrun, hreading⟩
  | true =>
      refine ⟨events ++ [.endOfInput], queue, hsends.endOfInput, hflatten,
        hnil, _, ?_, hreading.endOfInput⟩
      rw [run_append hrun]
      rfl

section First

variable {entry : TransitionCondition × Octets}
  {rest : List (TransitionCondition × Octets)}

/-- The next pass chooses a condition that is asked first and fits. -/
theorem pass_first {ctx : InputOutputOperationContext} {queue : List Octets}
    {ended : Bool} {s : RunnerState}
    (hreading : (program (entry :: rest) errno).Reading ctx queue ended s)
    (hfits : Fits ctx.buffer ctx.eof entry.1) :
    ∃ t, s.pass = .ok t ∧ ReadProgram.Done (.octets entry.2) t := by
  have hvalid := (matchCondition_fits ctx entry.1).mpr hfits
  have hvalue : TransitionLookahead.apply (entry :: rest) ctx =
      .value (.octets entry.2) := by
    simp only [TransitionLookahead.apply, select, hvalid, ↓reduceIte]
  apply hreading.pass_value
  simp only [program, InputOutputOperation.apply, hvalue]
  rfl

/-- Before anything was shown the lookahead waits, where no condition fits at
once and one will fit. -/
theorem waits_first {stream : Octets} {ended : Bool}
    (honce : ¬ FitsAtOnce (entry :: rest))
    (hfits : Fits stream ended entry.1) :
    readyToEvaluate (entry :: rest) {} = false := by
  rw [← apply_blocked_iff]
  rcases apply_cases (entry :: rest) {} with
    ⟨before, condition, name, after, hconditions, _, hnow, _⟩ |
      ⟨_, ⟨hout, _⟩ | ⟨_, hblocked⟩⟩
  · have hmem : (condition, name) ∈ entry :: rest := by simp [hconditions]
    exact absurd ⟨_, hmem, hnow⟩ honce
  · have hnever := (later_seen stream ended).ruledOut
      (hout entry List.mem_cons_self)
    have hvalid := (matchCondition_fits _ entry.1).mpr (fits_seen.mpr hfits)
    rw [hnever] at hvalid
    contradiction
  · exact hblocked

/-- The first pass of a waiting lookahead shows it the whole stream. -/
theorem pass_shows {stream : Octets} {ended : Bool} {queue : List Octets}
    {s : RunnerState}
    (hreading : (program (entry :: rest) errno).Reading {} queue ended s)
    (hflatten : queue.flatten = stream) (hnil : stream = [] → queue = [])
    (honce : ¬ FitsAtOnce (entry :: rest))
    (hfits : Fits stream ended entry.1) :
    ∃ queue' t, s.pass = .ok t ∧ (program (entry :: rest) errno).Reading
      (seen stream ended) queue' ended t := by
  have hwait := waits_first honce hfits
  by_cases hstream : stream = []
  · have hended : ended = true := by
      cases ended with
      | true => rfl
      | false =>
          rw [hstream] at hfits
          exact absurd ⟨entry, List.mem_cons_self, hfits⟩ honce
    rw [hnil hstream, hended] at hreading
    have hseen : seen stream ended = { eof := true } := by
      simp [seen, hstream, hended]
    rw [hseen, hended]
    exact ⟨[], hreading.pass_waiting hwait rfl⟩
  · have hne : queue ≠ [] := by
      rintro rfl
      exact hstream hflatten.symm
    obtain ⟨report, hread, _⟩ := readQueue_eq (entry :: rest) {} ended hne
    have hseen : seen stream ended = { buffer := queue.flatten } := by
      simp [seen, hstream, hflatten]
    rw [hseen]
    exact ⟨_, hreading.pass_waiting hwait hread⟩

/-- A condition that is asked first is chosen where it can be. -/
theorem exists_choice (errno : Errno) (stream : Octets) (ended : Bool)
    (h : Fits [] false entry.1 ∨
      ¬ FitsAtOnce (entry :: rest) ∧ Fits stream ended entry.1) :
    ∃ events s, Sends events stream ended ∧
      run RunnerState.event events (program (entry :: rest) errno).start =
        .ok s ∧
      s.Settled ∧
      s.context.interpreterResult = some (.octets entry.2) := by
  obtain ⟨events, queue, hsends, hflatten, hnil, s, hrun, hreading⟩ :=
    sends_whole (entry :: rest) errno stream ended
  rcases h with hfits | ⟨honce, hfits⟩
  · obtain ⟨t, hpass, hdone⟩ := pass_first hreading hfits
    refine ⟨events ++ [.pass], t, hsends.pass, ?_, Or.inl hdone.1, hdone.2⟩
    rw [run_append hrun, run_cons_of_ok hpass]
    rfl
  · obtain ⟨queue', t, hpass, hreading'⟩ :=
      pass_shows hreading hflatten hnil honce hfits
    obtain ⟨u, hpass', hdone⟩ := pass_first hreading' (fits_seen.mpr hfits)
    refine ⟨events ++ [.pass] ++ [.pass], u, hsends.pass.pass, ?_,
      Or.inl hdone.1, hdone.2⟩
    have hshown : run RunnerState.event (events ++ [.pass])
        (program (entry :: rest) errno).start = .ok t := by
      rw [run_append hrun, run_cons_of_ok hpass]
      rfl
    rw [run_append hshown, run_cons_of_ok hpass']
    rfl

end First

/-- The choice depends on the stream alone exactly if no two names can be
chosen for it. -/
theorem choiceIndependent_iff
    (conditions : List (TransitionCondition × Octets)) (stream : Octets)
    (ended : Bool) (errno : Errno) :
    ChoiceIndependent conditions stream ended errno ↔
      ∀ name name', Chosen conditions stream ended name →
        Chosen conditions stream ended name' → name = name' := by
  constructor
  · intro hindependent name name' hname hname'
    have hrun : ∀ name, Chosen conditions stream ended name →
        ∃ left : List (TransitionCondition × Octets), left.Perm conditions ∧
          ∃ events s, Sends events stream ended ∧
            run RunnerState.event events (program left errno).start = .ok s ∧
            s.Settled ∧
            s.context.interpreterResult = some (.octets name) := by
      rintro name ⟨entry, hmem, rfl, hfits⟩
      obtain ⟨before, after, rfl⟩ := List.append_of_mem hmem
      have hperm : (entry :: (before ++ after)).Perm
          (before ++ entry :: after) := List.perm_middle.symm
      refine ⟨_, hperm, exists_choice errno stream ended ?_⟩
      rwa [fitsAtOnce_perm hperm]
    obtain ⟨left, hleft, events, s, hsends, hs, hsettled, hresult⟩ :=
      hrun name hname
    obtain ⟨right, hright, events', t, hsends', ht, hsettled', hresult'⟩ :=
      hrun name' hname'
    have heq := hindependent left right hleft hright events events' hsends
      hsends' s t hs hsettled ht hsettled'
    rw [hresult, hresult'] at heq
    exact Value.octets.inj (Option.some.inj heq)
  · exact independent_of_unique

/-- The callback of a read state. -/
def lookaheadCallback (conditions : List (TransitionCondition × Octets)) :
    OpTreeNode :=
  .mk (.dynamicInput .dynamicList)
    [.mk (.inputOutput (.transitionLookahead conditions)) [],
      lexicalPadGet "dictionary"]

/-- A state in which the server sends a text or a longer one that starts with
it. -/
def overlapping : ProtocolDescription :=
  ⟨[([65], ⟨[65], .mk "Open" none, .mk "Open" none, .mk "Server" none, [],
    [.tokenSequence ⟨[.stringLiteral [65]], none, none⟩]⟩),
   ([66], ⟨[66], .mk "Open" none, .mk "Open" none, .mk "Server" none, [],
    [.tokenSequence ⟨[.stringLiteral [65, 66]], none, none⟩]⟩)], by simp⟩

def overlappingConditions : List (TransitionCondition × Octets) :=
  [(.static [65], [65]), (.static [65, 66], [66])]

def overlappingState : State :=
  ⟨[([65], .readTransition [] [.readStaticOctets [65]], "Open"),
    ([66], .readTransition [] [.readStaticOctets [65, 66]], "Open")]⟩

theorem analyze_overlapping : ∃ protocol, analyze overlapping = some protocol ∧
    protocol.client.states = [("Open", overlappingState)] := by
  obtain ⟨protocol, h⟩ : ∃ protocol, analyze overlapping = some protocol := by
    refine analyze_of_parts fun entry hentry => ?_
    simp only [overlapping, List.mem_cons, List.not_mem_nil, or_false] at hentry
    rcases hentry with rfl | rfl <;>
    · constructor
      · simp [partsToReadActions, PartsToReadActions.tokenSequence,
          individualTokenActions, TokenSequence.embeddedTerminator]
      · simp [PartsToWriteActions.partsToWriteActions,
          PartsToWriteActions.tokenSequence]
  refine ⟨protocol, h, ?_⟩
  have hstates : (analyzeAgent overlapping "Client").map (·.states) =
      some [("Open", overlappingState)] := by
    simp [overlapping, overlappingState, analyzeAgent, analyzeTransitions,
      analyzeMessage, analyzeReadMessage, partsToReadActions,
      PartsToReadActions.tokenSequence, individualTokenActions,
      TokenSequence.embeddedTerminator, IdentifierReference.name, assemble,
      addMessage, Assoc.insert, Assoc.assign, Assoc.overwrite,
      Action.applyEscape]
  rw [(analyze_eq_some h).1] at hstates
  exact Option.some.inj hstates

theorem client_overlapping : ∃ protocol transitions,
    analyze overlapping = some protocol ∧
    client protocol = .ok (.mk (.controlFlow (.stateMachineOperation
      [("Open", .mk (lookaheadCallback overlappingConditions) transitions)])) []) := by
  obtain ⟨protocol, h, hstates⟩ := analyze_overlapping
  obtain ⟨transitions, hstate⟩ : ∃ transitions,
      constructState "Open" overlappingState = .ok
        (.mk (lookaheadCallback overlappingConditions) transitions) :=
    ⟨_, rfl⟩
  refine ⟨protocol, transitions, h, ?_⟩
  rw [client, generateAgent, hstates, constructStateMap, List.mapM_cons,
    List.mapM_nil]
  simp only [hstate]
  rfl

theorem not_independent_overlapping :
    ¬ ChoiceIndependent overlappingConditions [65, 66, 67] false 0 := by
  intro hindependent
  have honce : ¬ FitsAtOnce overlappingConditions := by
    simp [FitsAtOnce, overlappingConditions, Fits]
  have hperm : [(.static [65, 66], [66]), (.static [65], [65])].Perm
      overlappingConditions := List.Perm.swap _ _ []
  have honce' : ¬ FitsAtOnce [(.static [65, 66], [66]), (.static [65], [65])] :=
    (fitsAtOnce_perm hperm).not.mpr honce
  obtain ⟨events, s, hsends, hs, hsettled, hresult⟩ :=
    exists_choice 0 [65, 66, 67] false (Or.inr ⟨honce, by simp [Fits]⟩)
  obtain ⟨events', t, hsends', ht, hsettled', hresult'⟩ :=
    exists_choice 0 [65, 66, 67] false (Or.inr ⟨honce', by simp [Fits]⟩)
  have heq := hindependent _ _ (List.Perm.refl _) hperm events events' hsends
    hsends' s t hs hsettled ht hsettled'
  rw [hresult, hresult'] at heq
  simp at heq

/-- In an accepted protocol the order of the conditions decides. -/
theorem choice_depends_on_order :
    ¬ ∀ description protocol states name conditions transitions,
      analyze description = some protocol →
      client protocol =
        .ok (.mk (.controlFlow (.stateMachineOperation states)) []) →
      states.lookup name =
        some (.mk (lookaheadCallback conditions) transitions) →
      ∀ stream ended errno,
        ChoiceIndependent conditions stream ended errno := by
  intro hall
  obtain ⟨protocol, transitions, h, hclient⟩ := client_overlapping
  exact not_independent_overlapping
    (hall _ _ _ "Open" _ _ h hclient rfl [65, 66, 67] false 0)

end TransitionChoice

end NetworkProtocolDsl
