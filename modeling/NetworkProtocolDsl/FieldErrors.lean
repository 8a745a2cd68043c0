/-
What becomes of the error that the read of a field yields.

The error goes to the pad with the store of the field, and the transition goes
on.  It ends with the error only where something else raises it outside the
loops: a static piece that is missing, or a store into a name that holds the
error.
-/
import Mathlib.Logic.Relation
import NetworkProtocolDsl.ReadErrors

namespace NetworkProtocolDsl

open Run RunnerState Generate OpTreeNode EvaluateInOrder IdentifierReference

/-- Invoked once the callable does not stop a generator. -/
def Callable.GoesOn (eof : Bool) (callable : Callable) (w w' : World) : Prop :=
  ∃ value, callable.Evaluates eof [] w value w' ∧ value.stops = false

namespace Action

/-- The transition comes to a field, outside the loops or in some element of a
loop, whose read yields the error. -/
inductive FieldFails (eof : Bool) : ExtractTypeClosure → List Action → World →
    RuntimeError → Prop where
  | field {getType : ExtractTypeClosure} {terminator : Octets}
      {identifier : IdentifierReference} {escape : Option EscapeInfo}
      {type : DataType} {reader : OpTreeNode} {actions : List Action}
      {w w' : World} {error : RuntimeError} :
      fieldType getType identifier = some type →
      readValueFromOctets type terminator escape = .ok reader →
      reader.Evaluates eof w (.runtimeError error) w' →
      FieldFails eof getType
        (.readOctetsUntilTerminator terminator identifier escape :: actions) w
        error
  | element {getType wrapper : ExtractTypeClosure}
      {loopVariable collection : IdentifierReference} {terminator : Octets}
      {body actions : List Action} {operations : List OpTreeNode}
      {w w₁ : World} {error : RuntimeError} :
      createGetTypeWrapper getType loopVariable.name collection.name =
        .ok wrapper →
      actionsToOptreenodes .read wrapper body = .ok operations →
      Relation.ReflTransGen
        ((readElement loopVariable.name terminator operations).GoesOn eof) w
        w₁ →
      FieldFails eof wrapper body (w₁.startElement loopVariable.name) error →
      FieldFails eof getType
        (.loop loopVariable collection terminator body :: actions) w error
  | behind {getType : ExtractTypeClosure} {action : Action}
      {actions : List Action} {w w₁ : World} {value : Value} {log : ReadLog}
      {error : RuntimeError} :
      action.Reads eof getType w value log w₁ → value.stops = false →
      FieldFails eof getType actions w₁ error →
      FieldFails eof getType (action :: actions) w error

end Action

/-- The transition invoked with these members ends with the error, and so does
the state machine whose state has chosen it. -/
structure EndsWithError (eof : Bool) (data : MessageData) (tree : OpTreeNode)
    (members : Bindings) (w : World) (error : RuntimeError) : Prop where
  transition : ∃ w', tree.Evaluates eof
    { w with pad := transitionPad tree data members w.pad }
    (.runtimeError error) w'
  machine : ∀ (states : StateMap) (ctx : ControlFlowOperationContext)
    (callable : Value) (info : ProcessingInfo) (name : Octets)
    (target : String), info.toState.1 ≠ "Closed" →
    info.toState.2.transitions.lookup name =
      some (.mk tree (extractArgumentNames data) target) →
    (states.lookup target).isSome → ∃ w',
      (Site.controlFlowFrame (.stateMachineOperation states) [] []
        { ctx with
          callable := some callable
          value := some (.dynamicList [.octets name, .dictionary members])
          callableInvoked := true
          additionalInfo := some { info with
            processingMode := .state } }).Finishes eof w (.runtimeError error)
              w'

section Mismatch

variable {eof : Bool} {type : DataType} {terminator : Octets}
  {escape : Option EscapeInfo} {w w' : World} {error : RuntimeError}

/-- The end of the input and an integer that does not convert are the same
error. -/
theorem fieldReader_error {ctx : InputOutputOperationContext}
    {errno errno' : Errno}
    (h : (fieldReader type terminator escape).apply ctx [] errno =
      .ok ⟨.value (.runtimeError error), ctx, errno'⟩) :
    error = .protocolMismatchError := by
  unfold fieldReader at h
  split at h
  · simp only [InputOutputOperation.apply, ReadIntFromAscii.apply] at h
    split_ifs at h <;> cases h <;> rfl
  · simp only [InputOutputOperation.apply, ReadOctetsUntilTerminator.apply] at h
    split_ifs at h <;> cases h
    rfl

theorem readValueFromOctets_error {reader : OpTreeNode}
    (hreader : readValueFromOctets type terminator escape = .ok reader)
    (h : reader.Evaluates eof w (.runtimeError error) w') :
    error = .protocolMismatchError := by
  obtain ⟨children, rfl⟩ := readValueFromOctets_eq_ok hreader
  have hreads : (fieldReader type terminator escape).Reads := by
    unfold fieldReader
    split <;> trivial
  obtain ⟨ctx, errno, happly⟩ := read_applied hreads h
  exact fieldReader_error happly

/-- Every field that fails yields a protocol mismatch. -/
theorem Action.FieldFails.error_eq {getType : ExtractTypeClosure}
    {actions : List Action} (h : FieldFails eof getType actions w error) :
    error = .protocolMismatchError := by
  induction h with
  | field _ hreader hvalue => exact readValueFromOctets_error hreader hvalue
  | element _ _ _ _ ih => exact ih
  | behind _ _ _ ih => exact ih

end Mismatch

section Ends

variable {eof : Bool} {data : MessageData} {actions : List Action}
  {tree : OpTreeNode} {members : Bindings} {w : World} {error : RuntimeError}

/-- The machine ends with what the transition raises. -/
theorem EndsWithError.of_raised
    (htree : generateTransitionOptree (.readTransition data actions) =
      .ok tree)
    (h : Action.Raised eof (extractType data) error actions
      { w with pad := transitionPad tree data members w.pad }) :
    EndsWithError eof data tree members w error := by
  obtain ⟨operations, hoperations, htree⟩ := bind_eq_ok htree
  obtain rfl := Except.ok.inj htree
  obtain ⟨w', hvalue⟩ := h.transition hoperations
  refine ⟨⟨w', hvalue⟩, ?_⟩
  intro states ctx callable info name target hopen hlookup htarget
  exact ⟨_, stateMachine_finishes_with_error hvalue states ctx callable info
    hopen hlookup htarget⟩

theorem EndsWithError.raised
    (htree : generateTransitionOptree (.readTransition data actions) =
      .ok tree) (h : EndsWithError eof data tree members w error) :
    Action.Raised eof (extractType data) error actions
      { w with pad := transitionPad tree data members w.pad } := by
  obtain ⟨operations, hoperations, htree⟩ := bind_eq_ok htree
  obtain rfl := Except.ok.inj htree
  obtain ⟨w', hvalue⟩ := h.transition
  exact .of_transition hoperations hvalue.runsTo

/-- The errors of all fields end the transition and the state machine, if and
only if wherever a field fails a static piece outside the loops is missing as
well, or a part outside the loops stores into a name that holds a protocol
mismatch. -/
theorem read_errors_stop_iff
    (htree : generateTransitionOptree (.readTransition data actions) =
      .ok tree) (eof : Bool) (members : Bindings) (w : World) :
    (∀ error, Action.FieldFails eof (extractType data) actions
        { w with pad := transitionPad tree data members w.pad } error →
      EndsWithError eof data tree members w error) ↔
    ((∃ error, Action.FieldFails eof (extractType data) actions
        { w with pad := transitionPad tree data members w.pad } error) →
      Action.Raised eof (extractType data) .protocolMismatchError actions
        { w with pad := transitionPad tree data members w.pad }) := by
  constructor
  · rintro hstops ⟨error, hfails⟩
    have hends := hstops error hfails
    rw [hfails.error_eq] at hends
    exact hends.raised htree
  · intro hraised error hfails
    rw [hfails.error_eq]
    exact .of_raised htree (hraised ⟨error, hfails⟩)

end Ends

/-- A message of one number up to the end of the line. -/
def numberData : MessageData := [("number", .mk (.mk "int" none) [])]

def numberParts : List Action :=
  [.readOctetsUntilTerminator [10] (.mk "number" none) none]

def readNumber : OpTreeNode :=
  .mk (.inputOutput .readIntFromAscii) [readOctetsUntilTerminator [10] none]

def numberTransition : OpTreeNode :=
  transitionOptree [lexicalPadSet "number" readNumber]

/-- The number is followed by an exclamation mark. -/
def markedTransition : OpTreeNode :=
  transitionOptree [lexicalPadSet "number" readNumber,
    .mk (.inputOutput (.readStaticOctets [33])) []]

/-- The input is `x` and a line feed. -/
def letterWorld (pad : LexicalPad) : World :=
  ⟨pad, 0, [[120, 10]], []⟩

theorem readNumber_fails (pad : LexicalPad) :
    readNumber.Evaluates false (letterWorld pad)
      (.runtimeError .protocolMismatchError) (letterWorld pad) :=
  evaluates_readQueue rfl rfl rfl rfl

/-- The exclamation mark is looked for where the letter is. -/
theorem markedTransition_raises (pad : LexicalPad)
    (hgoes : (pad.get "number").stops = false) :
    Action.Raised false (extractType numberData) .protocolMismatchError
      (numberParts ++ [.readStaticOctets [33]]) (letterWorld pad) := by
  have hmark : ∀ pad, (OpTreeNode.mk (.inputOutput (.readStaticOctets [33]))
      []).Evaluates false (letterWorld pad)
        (.runtimeError .protocolMismatchError)
        { letterWorld pad with input := [[10]] } :=
    fun pad => evaluates_readQueue rfl rfl rfl rfl
  refine .behind ⟨_, _, _, _, rfl, rfl, readNumber_fails pad, rfl, rfl, rfl,
    rfl⟩ ?_ (.missing (hmark _))
  rw [LexicalPad.set_fst]
  exact hgoes

theorem read_errors_stop_iff_marked :
    EndsWithError false numberData markedTransition []
      (letterWorld (.root [])) .protocolMismatchError := by
  have hgenerate : generateTransitionOptree (.readTransition numberData
      (numberParts ++ [.readStaticOctets [33]])) = .ok markedTransition := rfl
  exact (read_errors_stop_iff hgenerate false []
    (letterWorld (.root []))).mpr (fun _ => markedTransition_raises _ rfl) _
      (.field rfl rfl (readNumber_fails _))

/-- The letter does not convert; the transition ends with a dictionary that
holds the error. -/
theorem letter_is_swallowed :
    (∃ w', numberTransition.RunsTo false
        (letterWorld (transitionPad numberTransition numberData []
          (.root [])))
        (.dynamicList [.dictionary
          [("number", .runtimeError .protocolMismatchError)]]) w') ∧
      ¬ ∀ error, Action.FieldFails false (extractType numberData) numberParts
          (letterWorld (transitionPad numberTransition numberData []
            (.root []))) error →
        EndsWithError false numberData numberTransition []
          (letterWorld (.root [])) error := by
  have horder : EvaluateInOrder false [lexicalPadSet "number" readNumber]
      (letterWorld (transitionPad numberTransition numberData [] (.root [])))
      [.bool false] (letterWorld (.child
        [("number", .runtimeError .protocolMismatchError)] (.root []))) :=
    .cons (evaluates_lexicalPadSet "number" (readNumber_fails _)) rfl (.nil _)
  have hthrough : RunsThrough [.bool false] :=
    List.forall_mem_singleton.mpr rfl
  have htransition := transitionOptree_evaluates horder hthrough
  refine ⟨⟨_, htransition.runsTo⟩, fun hstops => ?_⟩
  obtain ⟨w', hevaluates⟩ := (hstops .protocolMismatchError
    (.field rfl rfl (readNumber_fails _))).transition
  have heq := (htransition.unique hevaluates).1
  contradiction

end NetworkProtocolDsl
