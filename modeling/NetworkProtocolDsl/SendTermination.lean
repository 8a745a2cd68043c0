/-
The emitted send method returns.

Between two calls of `next_chunk` the serializer moves on: to the next stage,
to the next element of a loop, or to the next case of an element.  Only an
escape loop over an empty character stands still.
-/
import NetworkProtocolDsl.GeneratedSerializer
import NetworkProtocolDsl.Library.Run

namespace NetworkProtocolDsl

open Run

/-- The escape loop moves on, and has the bytes it asks for. -/
def ChunkStage.EscapeEnds : ChunkStage → Prop
  | .assignEscaped _ escape => 0 < escape.escapeCharLen ∧
      escape.escapeCharLen ≤ escape.escapeChar.length ∧
      escape.escapeSeqLen ≤ escape.escapeSeq.length
  | _ => True

def SerializeStage.EscapeEnds : SerializeStage → Prop
  | .chunk stage => stage.EscapeEnds
  | .loop _ _ elementStages => ∀ stage ∈ elementStages, stage.EscapeEnds

namespace SendCall

variable {stages : List SerializeStage} {thenState : String}

/-- The call comes to its end. -/
def Returns (stages : List SerializeStage) (thenState : String)
    (call : SendCall) : Prop :=
  ∃ last, Reaches (step stages thenState) call last ∧ last.point = .returned

theorem Returns.of_reaches {call call' : SendCall}
    (h : Reaches (step stages thenState) call call')
    (hreturns : Returns stages thenState call') :
    Returns stages thenState call := by
  obtain ⟨last, hlast, hpoint⟩ := hreturns
  exact ⟨last, h.trans hlast, hpoint⟩

theorem escaping_reaches {escape : EscapeConstants}
    (hends : 0 < escape.escapeCharLen ∧
      escape.escapeCharLen ≤ escape.escapeChar.length ∧
      escape.escapeSeqLen ≤ escape.escapeSeq.length)
    (call : SendCall) (temp : Octets) (n : Nat) :
    ∀ pos result, temp.length - pos ≤ n → ∃ chunk,
      Reaches (step stages thenState)
        (call.goto (.escaping escape temp pos result))
        (call.goto (.gotChunk chunk)) := by
  obtain ⟨hpositive, hchar, hseq⟩ := hends
  induction n with
  | zero =>
      intro pos result hle
      refine ⟨result, Reaches.single ?_⟩
      simp only [step, goto, escapeTurn, if_neg (show ¬ pos < temp.length by
        omega)]
  | succ n ih =>
      intro pos result hle
      by_cases hpos : pos < temp.length
      · have hother := ih (pos + 1) (result ++ (temp.drop pos).take 1)
          (by omega)
        by_cases hroom : pos + escape.escapeCharLen ≤ temp.length
        · have hequal : memcmpEqual (temp.drop pos) escape.escapeChar
              escape.escapeCharLen = .ok ((temp.drop pos).take
                escape.escapeCharLen == escape.escapeChar.take
                  escape.escapeCharLen) := by
            rw [memcmpEqual, if_neg (Nat.not_lt.mpr hchar)]
          cases hmatch : ((temp.drop pos).take escape.escapeCharLen ==
              escape.escapeChar.take escape.escapeCharLen) with
          | true =>
              obtain ⟨chunk, hchunk⟩ := ih (pos + escape.escapeCharLen)
                (result ++ escape.escapeSeq.take escape.escapeSeqLen)
                (by omega)
              refine ⟨chunk, Reaches.head ?_ hchunk⟩
              rw [hmatch] at hequal
              simp only [step, goto, escapeTurn, if_pos hpos, if_pos hroom,
                hequal, if_neg (Nat.not_lt.mpr hseq)]
          | false =>
              obtain ⟨chunk, hchunk⟩ := hother
              refine ⟨chunk, Reaches.head ?_ hchunk⟩
              rw [hmatch] at hequal
              simp only [step, goto, escapeTurn, if_pos hpos, if_pos hroom,
                hequal]
        · obtain ⟨chunk, hchunk⟩ := hother
          refine ⟨chunk, Reaches.head ?_ hchunk⟩
          simp only [step, goto, escapeTurn, if_pos hpos, if_neg hroom]
      · refine ⟨result, Reaches.single ?_⟩
        simp only [step, goto, escapeTurn, if_neg hpos]

/-- Every assignment ends with a chunk. -/
theorem assign_reaches {stage : ChunkStage} (hends : stage.EscapeEnds)
    (call : SendCall) : ∃ chunk, Reaches (step stages thenState)
      (call.assign stage) (call.goto (.gotChunk chunk)) := by
  cases stage with
  | assignEscaped source escape =>
      exact escaping_reaches hends call _ _ 0 [] (Nat.le_refl _)
  | assignLiteral _ | assignText _ | assignCharacter _ | noCode =>
      exact ⟨_, Reaches.refl _⟩

theorem atElement_mem {elementStages : List ChunkStage} {stage : ChunkStage}
    (h : atElement elementStages = some stage) : stage ∈ elementStages := by
  induction elementStages with
  | nil => contradiction
  | cons first rest ih =>
      cases first with
      | noCode => exact List.mem_cons_of_mem _ (ih h)
      | assignLiteral _ | assignText _ | assignCharacter _
        | assignEscaped _ _ =>
          obtain rfl := Option.some.inj h
          exact List.mem_cons_self

/-- The case at a stage is that of its action, unless that one is empty. -/
theorem atCase_cases {cases : List SerializeStage} {stage : SerializeStage}
    (h : atCase cases = some stage) :
    stage ∈ cases ∧ ∃ first rest, cases = first :: rest ∧
      (first = stage ∨ first = .chunk .noCode) := by
  induction cases with
  | nil => contradiction
  | cons first rest ih =>
      by_cases hfirst : first = .chunk .noCode
      · subst hfirst
        exact ⟨List.mem_cons_of_mem _ (ih h).1, _, _, rfl, Or.inr rfl⟩
      · have hsame : first = stage := by
          rw [atCase] at h
          · exact Option.some.inj h
          · exact fun hcode => hfirst hcode
        exact ⟨by rw [hsame]; exact List.mem_cons_self, _, _, rfl,
          Or.inl hsame⟩

/-- What is left of the loop at the stage: elements, and cases of one. -/
def loopLeft (stages : List SerializeStage) (serializer : MessageSerializer) :
    Nat × Nat :=
  match atCase (stages.drop serializer.stage) with
  | some (.loop collection kind elementStages) =>
      (serializer.fields.size collection kind - serializer.loopIndex,
        elementStages.length - serializer.loopStage)
  | _ => (0, 0)

theorem loopLeft_eq {serializer : MessageSerializer} {collection : String}
    {kind : MemberKind} {elementStages : List ChunkStage}
    (h : atCase (stages.drop serializer.stage) =
      some (.loop collection kind elementStages)) :
    loopLeft stages serializer =
      (serializer.fields.size collection kind - serializer.loopIndex,
        elementStages.length - serializer.loopStage) := by
  rw [loopLeft, h]

/-- After a chunk the method returns, or goes on with the next one. -/
theorem gotChunk_returns {serializer : MessageSerializer} {chunk : Octets}
    (hnext : (advance stages serializer).complete = false →
      ∀ outputBuffer currentState, Returns stages thenState
        ⟨advance stages serializer, outputBuffer, currentState, .nextChunk⟩)
    (outputBuffer : Octets) (currentState : String) :
    Returns stages thenState
      ⟨serializer, outputBuffer, currentState, .gotChunk chunk⟩ := by
  by_cases hempty : chunk = []
  · have hfinish : step stages thenState
        ⟨serializer, outputBuffer, currentState, .gotChunk chunk⟩ =
          .ok ⟨serializer, outputBuffer, thenState, .returned⟩ := by
      simp only [step, if_pos hempty, finish]
    exact ⟨_, Reaches.single hfinish, rfl⟩
  · have hhead : step stages thenState
        ⟨serializer, outputBuffer, currentState, .gotChunk chunk⟩ =
          .ok ⟨advance stages serializer, outputBuffer ++ chunk, currentState,
            .head⟩ := by
      simp only [step, if_neg hempty]
    refine Returns.of_reaches (Reaches.single hhead) ?_
    cases hcomplete : (advance stages serializer).complete with
    | true =>
        have hfinish : step stages thenState ⟨advance stages serializer,
            outputBuffer ++ chunk, currentState, .head⟩ =
              .ok ⟨advance stages serializer, outputBuffer ++ chunk, thenState,
                .returned⟩ := by
          simp only [step, hcomplete, if_true, finish]
        exact ⟨_, Reaches.single hfinish, rfl⟩
    | false =>
        refine Returns.of_reaches (Reaches.single ?_)
          (hnext hcomplete (outputBuffer ++ chunk) currentState)
        simp only [step, hcomplete, Bool.false_eq_true, if_false, goto]

/-- The serializer has come further. -/
def Later (stages : List SerializeStage) (next serializer : MessageSerializer) :
    Prop :=
  Prod.Lex (· < ·) (Prod.Lex (· < ·) (· < ·))
    (stages.length - next.stage, loopLeft stages next)
    (stages.length - serializer.stage, loopLeft stages serializer)

theorem later_wellFounded (stages : List SerializeStage) :
    WellFounded (Later stages) :=
  InvImage.wf _ (Prod.lex Nat.lt_wfRel (Prod.lex Nat.lt_wfRel Nat.lt_wfRel)).wf

theorem later_of_stage {next serializer : MessageSerializer}
    (hlt : serializer.stage < stages.length)
    (hstage : next.stage = serializer.stage + 1) :
    Later stages next serializer := by
  refine Prod.Lex.left _ _ ?_
  omega

/-- Counting up the elements, or the cases of one, is coming further. -/
theorem later_of_loop {next serializer : MessageSerializer}
    {collection : String} {kind : MemberKind} {elementStages : List ChunkStage}
    (hcase : atCase (stages.drop serializer.stage) =
      some (.loop collection kind elementStages))
    (hstage : next.stage = serializer.stage)
    (hfields : next.fields = serializer.fields)
    (hindex : serializer.loopIndex < serializer.fields.size collection kind)
    (hloop : next.loopIndex = serializer.loopIndex + 1 ∨
      next.loopIndex = serializer.loopIndex ∧
        next.loopStage = serializer.loopStage + 1 ∧
        serializer.loopStage < elementStages.length) :
    Later stages next serializer := by
  have hcase' := hcase
  rw [← hstage] at hcase'
  rw [Later, hstage, loopLeft_eq hcase, loopLeft_eq hcase', hfields]
  refine Prod.Lex.right _ ?_
  rcases hloop with hindex' | ⟨hindex', hstage', hlength⟩
  · rw [hindex']
    exact Prod.Lex.left _ _ (by omega)
  · rw [hindex', hstage']
    exact Prod.Lex.right _ (by omega)

/-- `advance` moves the serializer on. -/
theorem later_advance {serializer : MessageSerializer}
    (hopen : serializer.complete = false) {first stage : SerializeStage}
    (hlt : serializer.stage < stages.length)
    (hget : stages[serializer.stage]? = some first)
    (hcase : atCase (stages.drop serializer.stage) = some stage)
    (hfirst : first = stage ∨ first = .chunk .noCode)
    (hloop : ∀ collection kind elementStages,
      stage = .loop collection kind elementStages →
        serializer.loopIndex < serializer.fields.size collection kind ∧
          serializer.loopStage < elementStages.length) :
    Later stages (advance stages serializer) serializer := by
  have hchunk : ∀ assigned, first = .chunk assigned →
      Later stages (advance stages serializer) serializer := by
    rintro assigned rfl
    refine later_of_stage hlt ?_
    simp only [advance, hopen, Bool.false_eq_true, if_false, hget]
  rcases hfirst with rfl | hcode
  · cases first with
    | chunk assigned => exact hchunk assigned rfl
    | loop collection kind elementStages =>
        obtain ⟨hindex, hlength⟩ := hloop _ _ _ rfl
        by_cases hend : elementStages.length ≤ serializer.loopStage + 1
        · refine later_of_loop hcase ?_ ?_ hindex (Or.inl ?_) <;>
            simp only [advance, hopen, Bool.false_eq_true, if_false, hget,
              if_pos hend]
        · refine later_of_loop hcase ?_ ?_ hindex (Or.inr ⟨?_, ?_, hlength⟩) <;>
            simp only [advance, hopen, Bool.false_eq_true, if_false, hget,
              if_neg hend]
  · exact hchunk _ hcode

/-- From every call of `next_chunk` on the method returns. -/
theorem nextChunk_returns (hends : ∀ stage ∈ stages, stage.EscapeEnds)
    (serializer : MessageSerializer) (outputBuffer : Octets)
    (currentState : String) :
    Returns stages thenState
      ⟨serializer, outputBuffer, currentState, .nextChunk⟩ := by
  induction serializer using (later_wellFounded stages).induction
    generalizing outputBuffer currentState with
  | h serializer ih =>
  have hstep : step stages thenState
      ⟨serializer, outputBuffer, currentState, .nextChunk⟩ =
        .ok (dispatch stages
          ⟨serializer, outputBuffer, currentState, .nextChunk⟩) := rfl
  refine Returns.of_reaches (Reaches.single hstep) ?_
  have hlast : ∀ serializer : MessageSerializer, Returns stages thenState
      ⟨serializer, outputBuffer, currentState, .gotChunk []⟩ :=
    fun serializer => ⟨_, Reaches.single rfl, rfl⟩
  rw [dispatch]
  cases hopen : serializer.complete with
  | true => exact hlast serializer
  | false =>
      simp only [Bool.false_eq_true, if_false]
      cases hcase : atCase (stages.drop serializer.stage) with
      | none => exact hlast { serializer with complete := true }
      | some stage =>
          obtain ⟨hmem, first, rest, hdrop, hfirst⟩ := atCase_cases hcase
          have hmem := hends stage (List.mem_of_mem_drop hmem)
          have hlt : serializer.stage < stages.length := by
            by_contra hge
            rw [List.drop_eq_nil_of_le (Nat.le_of_not_lt hge)] at hdrop
            contradiction
          have hget : stages[serializer.stage]? = some first := by
            rw [← List.head?_drop, hdrop]
            rfl
          have hassigned : ∀ {assigned : ChunkStage}, assigned.EscapeEnds →
              Later stages (advance stages serializer) serializer →
              Returns stages thenState (assign
                ⟨serializer, outputBuffer, currentState, .nextChunk⟩
                assigned) := by
            intro assigned hassigned hlater
            obtain ⟨chunk, hchunk⟩ := assign_reaches hassigned
              ⟨serializer, outputBuffer, currentState, .nextChunk⟩
            exact Returns.of_reaches hchunk
              (gotChunk_returns (fun _ => ih _ hlater) _ _)
          cases stage with
          | chunk assigned =>
              refine hassigned hmem
                (later_advance hopen hlt hget hcase hfirst ?_)
              intro _ _ _ hloop
              contradiction
          | loop collection kind elementStages =>
              simp only [dispatchLoop]
              split
              · exact ih _ (later_of_stage hlt rfl) _ _
              · rename_i hsize
                have hindex := Nat.lt_of_not_le hsize
                split
                · rename_i assigned helement
                  have hlength :
                      serializer.loopStage < elementStages.length := by
                    by_contra hge
                    rw [List.drop_eq_nil_of_le (Nat.le_of_not_lt hge)]
                      at helement
                    contradiction
                  refine hassigned
                    (hmem _ (List.mem_of_mem_drop (atElement_mem helement)))
                    (later_advance hopen hlt hget hcase hfirst ?_)
                  intro _ _ _ hloop
                  obtain ⟨rfl, rfl, rfl⟩ := SerializeStage.loop.inj hloop
                  exact ⟨hindex, hlength⟩
                · exact ih { serializer with
                      loopIndex := serializer.loopIndex + 1
                      loopStage := 0 }
                    (later_of_loop hcase rfl rfl hindex (Or.inl rfl)) _ _

variable (thenState) in
/-- A send method without an empty escape character returns. -/
theorem start_returns (hends : ∀ stage ∈ stages, stage.EscapeEnds)
    (fields : MessageFields) (outputBuffer : Octets) (currentState : String) :
    Returns stages thenState (start fields outputBuffer currentState) :=
  Returns.of_reaches (Reaches.single rfl)
    (nextChunk_returns hends { fields := fields } outputBuffer currentState)

end SendCall

end NetworkProtocolDsl
