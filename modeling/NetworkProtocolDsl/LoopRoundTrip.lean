/-
Lists of tuples are not read back as they were written.

The body of the read loop looks for the terminator before it yields the element
it has just read, so the last element is lost; and the write loop invokes its
body before it asks whether there is an element at all.
-/
import Mathlib.Data.List.Forall2
import NetworkProtocolDsl.Obstruction
import NetworkProtocolDsl.WireEncoding

namespace NetworkProtocolDsl

open Run RunnerState Generate OpTreeNode EvaluateInOrder IdentifierReference
open NetworkProtocolDsl.Action

namespace Action

/-- A static piece, or a string field of the tuple the loop variable holds,
without an escape option. -/
def TupleString (loopVariable : String) (elementType : DataType) :
    Action → Prop
  | .readStaticOctets _ => True
  | .readOctetsUntilTerminator _ identifier escape =>
      escape = none ∧ ∃ field type,
        identifier = .mk loopVariable (some (.mk field none)) ∧
          elementType.parameters.lookup field = some (.type type) ∧
          type.name.name = "str"
  | _ => False

/-- A static piece, or a string field of the tuple the loop variable holds. -/
def TupleField (loopVariable : String) (elementType : DataType) :
    Action → Prop
  | .readStaticOctets _ => True
  | .readOctetsUntilTerminator _ identifier _ => ∃ field type,
      identifier = .mk loopVariable (some (.mk field none)) ∧
        elementType.parameters.lookup field = some (.type type) ∧
        type.name.name = "str"
  | _ => False

/-- The element holds these values of the fields that occur on the wire. -/
def HoldsTuple (actions : List Action) (values : IdentifierReference → Octets)
    (element : Value) : Prop :=
  ∀ identifier ∈ wireFields actions, ∀ member,
    identifier.member = some member →
      memberValue element member = .octets (values identifier)

end Action

section Access

variable {getType : ExtractTypeClosure} {loopVariable collection : String}
  {arrayType elementType : DataType}

/-- Inside the loop the loop variable has the type of the elements. -/
theorem createGetTypeWrapper_loopVariable {wrapper : ExtractTypeClosure}
    (hwrapper : createGetTypeWrapper getType loopVariable collection =
      .ok wrapper)
    (harray : getType collection = some arrayType)
    (helement : arrayType.parameters.lookup "element_type" =
      some (.type elementType)) :
    wrapper loopVariable = some elementType := by
  obtain ⟨type, htype, hwrapper⟩ := bind_eq_ok hwrapper
  obtain rfl := Option.some.inj (harray.symm.trans (orNullopt_eq_ok htype))
  obtain ⟨parameter, hparameter, hwrapper⟩ := bind_eq_ok hwrapper
  obtain rfl := Option.some.inj
    (helement.symm.trans (orNullopt_eq_ok hparameter))
  obtain rfl := Except.ok.inj hwrapper
  exact if_pos rfl

theorem Action.TupleString.tupleField {action : Action}
    (h : action.TupleString loopVariable elementType) :
    action.TupleField loopVariable elementType := by
  cases action with
  | readStaticOctets _ => trivial
  | readOctetsUntilTerminator _ _ _ => exact h.2
  | writeFromIdentifier _ _ | writeStaticOctets _ | loop _ _ _ _ =>
      exact h.elim

theorem Action.TupleField.stringPiece {action : Action}
    (h : action.TupleField loopVariable elementType)
    (hget : getType loopVariable = some elementType) :
    action.StringPiece getType := by
  cases action with
  | readStaticOctets _ => trivial
  | readOctetsUntilTerminator terminator identifier escape =>
      obtain ⟨field, type, rfl, hfield, hstr⟩ := h
      refine ⟨type, ?_, hstr⟩
      simp only [fieldType, hget, Option.bind_some, memberType, hfield]
  | writeFromIdentifier _ _ | writeStaticOctets _ | loop _ _ _ _ =>
      exact h.elim

/-- A field of the tuple is a string field. -/
theorem Action.TupleString.stringField {action : Action}
    (h : action.TupleString loopVariable elementType)
    (hget : getType loopVariable = some elementType) :
    action.StringField getType := by
  have hpiece := h.tupleField.stringPiece hget
  cases action with
  | readStaticOctets _ => trivial
  | readOctetsUntilTerminator _ _ _ => exact ⟨h.1, hpiece⟩
  | writeFromIdentifier _ _ | writeStaticOctets _ | loop _ _ _ _ =>
      exact h.elim

theorem Action.unescaped_of_tupleString {actions : List Action}
    (h : ∀ action ∈ actions, action.TupleString loopVariable elementType)
    (values : IdentifierReference → Octets) : Unescaped values actions := by
  intro terminator identifier escape hmem
  cases (h _ hmem).1

theorem Action.tuple_of_mem_wireFields {actions : List Action}
    (htuple : ∀ action ∈ actions, action.TupleField loopVariable elementType)
    {identifier : IdentifierReference}
    (hidentifier : identifier ∈ wireFields actions) :
    ∃ field type, identifier = .mk loopVariable (some (.mk field none)) ∧
      elementType.parameters.lookup field = some (.type type) ∧
      type.name.name = "str" := by
  induction actions with
  | nil => contradiction
  | cons action actions ih =>
      have hrest := ih fun a ha => htuple a (List.mem_cons_of_mem action ha)
      have hfirst := htuple action List.mem_cons_self
      cases action with
      | readOctetsUntilTerminator terminator field escape =>
          rcases List.mem_cons.mp hidentifier with rfl | hidentifier
          · exact hfirst
          · exact hrest hidentifier
      | readStaticOctets _ => exact hrest hidentifier
      | writeFromIdentifier _ _ | writeStaticOctets _ | loop _ _ _ _ =>
          exact hfirst.elim

/-- Reading a field of the tuple replaces the tuple by one that has it. -/
theorem visitReadOctetsUntilTerminator_tuple
    (hget : getType loopVariable = some elementType) {field : String}
    {type : DataType}
    (hfield : elementType.parameters.lookup field = some (.type type))
    (hstr : type.name.name = "str") (terminator : Octets) :
    visitReadOctetsUntilTerminator getType terminator
      (.mk loopVariable (some (.mk field none))) none =
        .ok (lexicalPadSet loopVariable
          (.mk (.interpreted (.dictionarySet field))
            [lexicalPadGet loopVariable,
              readOctetsUntilTerminator terminator none])) := by
  have haccess : recursiveVariableAccess elementType (.mk field none)
      (lexicalPadGet loopVariable)
      (some fun type => readValueFromOctets type terminator none) =
        .ok (.mk (.interpreted (.dictionarySet field))
          [lexicalPadGet loopVariable,
            readOctetsUntilTerminator terminator none], type) := by
    rw [recursiveVariableAccess.eq_def]
    simp only [hfield, orNullopt]
    change (readValueFromOctets type terminator none >>= fun value =>
      pure (OpTreeNode.mk (.interpreted (.dictionarySet field))
        [lexicalPadGet loopVariable, value], type)) = _
    rw [readValueFromOctets_str hstr]
    rfl
  simp only [visitReadOctetsUntilTerminator, IdentifierReference.name,
    IdentifierReference.member, hget, orNullopt]
  change (recursiveVariableAccess elementType (.mk field none)
    (lexicalPadGet loopVariable)
    (some fun type => readValueFromOctets type terminator none) >>=
      fun access => pure (lexicalPadSet loopVariable access.1)) = _
  rw [haccess]
  rfl

/-- A pad whose innermost scope is the tuple the loop variable holds. -/
def HoldsVariable (loopVariable : String) (outer pad : LexicalPad) : Prop :=
  ∃ members, pad = .child [(loopVariable, .dictionary members)] outer

/-- Storing a field of the tuple keeps the other fields. -/
theorem storesFields_holdsVariable (eof : Bool) {actions : List Action}
    (htuple : ∀ action ∈ actions, action.TupleString loopVariable elementType)
    (hget : getType loopVariable = some elementType)
    (values : IdentifierReference → Octets) (outer : LexicalPad) :
    StoresFields eof getType values (wireFields actions)
      (HoldsVariable loopVariable outer) := by
  rintro identifier hidentifier terminator operation hoperation w input
    ⟨members, hpad⟩ hread
  obtain ⟨field, type, rfl, hfield, hstr⟩ :=
    tuple_of_mem_wireFields (fun a ha => (htuple a ha).tupleField) hidentifier
  obtain rfl := Except.ok.inj ((visitReadOctetsUntilTerminator_tuple hget
    hfield hstr terminator).symm.trans hoperation)
  let value := values (.mk loopVariable (some (.mk field none)))
  let members' := Assoc.overwrite field (.octets value) members
  have hold : [(loopVariable, Value.dictionary members)].lookup
      loopVariable = some (.dictionary members) := by simp
  have hnew : [(loopVariable, Value.dictionary members')].lookup
      loopVariable = some (.dictionary members') := by simp
  refine ⟨.dictionary members,
    .child [(loopVariable, .dictionary members')] outer, rfl, ?_,
    ⟨members', rfl⟩, ?_, fun other hother hheld => ?_⟩
  · have hvariable : (lexicalPadGet loopVariable).Evaluates eof w
        (.dictionary members) w := by
      have hvalue := LexicalPad.get_child hold outer
      rw [← hpad] at hvalue
      rw [← hvalue]
      exact evaluates_lexicalPadGet loopVariable
    have hset := evaluates_lexicalPadSet loopVariable
      (evaluates_interpreted_binary (.dictionarySet field) rfl hvariable hread
        rfl)
    simp only [hpad] at hset
    have hassign : Assoc.assign loopVariable (.dictionary members')
        [(loopVariable, Value.dictionary members)] =
          [(loopVariable, .dictionary members')] := if_pos rfl
    rw [LexicalPad.set_child hold,
      show DictionarySet.apply field (.dictionary members)
        (.octets (values (.mk loopVariable (some (.mk field none))))) =
          .dictionary members' from rfl, hassign] at hset
    exact hset
  · simp only [fieldValue, LexicalPad.get_child hnew, memberValue,
      DictionaryGet.apply, members', Assoc.lookup_overwrite_self]
    rfl
  · obtain ⟨field', type', rfl, _⟩ := tuple_of_mem_wireFields
      (fun a ha => (htuple a ha).tupleField) hother
    simp only [fieldValue, hpad, LexicalPad.get_child hold, memberValue,
      DictionaryGet.apply] at hheld
    simp only [fieldValue, LexicalPad.get_child hnew, memberValue,
      DictionaryGet.apply, members']
    by_cases hname : field' = field
    · subst hname
      rw [Assoc.lookup_overwrite_self]
    · rw [Assoc.lookup_overwrite_ne hname]
      exact hheld

end Access

namespace OpTreeNode

variable {eof : Bool} {children : List OpTreeNode} {w : World}
  {terminator : Octets}

/-- Where the terminator stands it is consumed and the generator interrupted.
-/
theorem evaluates_terminateListIfReadAhead_interrupt {rest : Octets}
    (hne : terminator ≠ []) (hw : w.input = [terminator ++ rest]) :
    ∃ input, Holds input rest ∧
      (OpTreeNode.mk (.inputOutput (.terminateListIfReadAhead terminator))
        children).Evaluates eof w (.controlFlowInstruction .interruptGenerator)
        { w with input := input } := by
  have hlength := List.length_pos_of_ne_nil hne
  have hread : (InputOutputOperation.terminateListIfReadAhead
      terminator).handleRead {} (terminator ++ rest) =
        .ok (terminator.length, { buffer := terminator ++ rest }) := by
    simp [InputOutputOperation.handleRead, TerminateListIfReadAhead.handleRead]
  have hready : (InputOutputOperation.terminateListIfReadAhead
      terminator).readyToEvaluate { buffer := terminator ++ rest } = true := by
    simp [InputOutputOperation.readyToEvaluate,
      TerminateListIfReadAhead.readyToEvaluate, hne]
  have happly : (InputOutputOperation.terminateListIfReadAhead
      terminator).apply { buffer := terminator ++ rest } [] w.errno =
      .ok ⟨.value (.controlFlowInstruction .interruptGenerator),
        { buffer := terminator ++ rest }, w.errno⟩ := by
    simp [InputOutputOperation.apply, TerminateListIfReadAhead.apply, hne]
  obtain ⟨input, hholds, hevaluates⟩ := evaluates_read rfl hw rfl hread hready
    happly
  rw [List.drop_left] at hholds
  exact ⟨input, hholds, hevaluates⟩

/-- Where other bytes stand nothing is consumed. -/
theorem evaluates_terminateListIfReadAhead_goes {bytes : Octets}
    (hne : bytes ≠ []) (hlength : terminator.length ≤ bytes.length)
    (hother : ¬ terminator <+: bytes) (hw : w.input = [bytes]) :
    ∃ input, Holds input bytes ∧
      (OpTreeNode.mk (.inputOutput (.terminateListIfReadAhead terminator))
        children).Evaluates eof w (.bool false) { w with input := input } := by
  have htake : bytes.take terminator.length ≠ terminator := by
    intro h
    exact hother (h ▸ List.take_prefix _ _)
  have hread : (InputOutputOperation.terminateListIfReadAhead
      terminator).handleRead {} bytes = .ok (0, { buffer := bytes }) := by
    simp [InputOutputOperation.handleRead, TerminateListIfReadAhead.handleRead,
      htake]
  have hlt : ¬ bytes.length < terminator.length := by omega
  have hready : (InputOutputOperation.terminateListIfReadAhead
      terminator).readyToEvaluate { buffer := bytes } = true := by
    simp [InputOutputOperation.readyToEvaluate,
      TerminateListIfReadAhead.readyToEvaluate, hne, hlt]
  have happly : (InputOutputOperation.terminateListIfReadAhead
      terminator).apply { buffer := bytes } [] w.errno =
      .ok ⟨.value (.bool false), { buffer := bytes }, w.errno⟩ := by
    simp [InputOutputOperation.apply, TerminateListIfReadAhead.apply, hne, hlt,
      htake]
  obtain ⟨input, hholds, hevaluates⟩ := evaluates_read rfl hw rfl hread hready
    happly
  exact ⟨input, hholds, hevaluates⟩

end OpTreeNode

namespace Action

/-- The bytes that stand for the elements of a list. -/
def encodings (actions : List Action)
    (tuples : List (IdentifierReference → Octets)) : Octets :=
  (tuples.map (encoding · actions)).flatten

/-- At no element's start do the remaining bytes begin with the terminator. -/
def NoEarlyTerminator (terminator : Octets) (actions : List Action)
    (tuples : List (IdentifierReference → Octets)) : Prop :=
  ∀ values rest, values :: rest <:+ tuples →
    ¬ terminator <+: encodings actions (values :: rest) ++ terminator

theorem encodings_cons (actions : List Action)
    (values : IdentifierReference → Octets)
    (tuples : List (IdentifierReference → Octets)) :
    encodings actions (values :: tuples) =
      encoding values actions ++ encodings actions tuples := rfl

end Action

section Loops

variable {getType : ExtractTypeClosure} {loopVariable : String}
  {elementType : DataType} {actions : List Action}
  {operations : List OpTreeNode}

/-- The callable that reads one element. -/
def readElement (loopVariable : String) (terminator : Octets)
    (operations : List OpTreeNode) : Callable :=
  ⟨readLoopBody loopVariable terminator
    (.mk (.lexicalPad (.lexicalPadInitialize loopVariable))
      [.mk (.interpreted .dictionaryInitialize) []]) operations, [], true⟩

/-- The callable that writes one element. -/
def writeElement (loopVariable : String) (operations : List OpTreeNode) :
    Callable :=
  ⟨opSequence operations, [loopVariable], true⟩

/-- The body reads the element and yields it, unless the terminator follows:
then the element is dropped. -/
theorem readElement_evaluates {eof : Bool}
    (htuple : ∀ action ∈ actions, action.TupleString loopVariable elementType)
    (hget : getType loopVariable = some elementType)
    (hoperations : actionsToOptreenodes .read getType actions =
      .ok operations)
    {values : IdentifierReference → Octets}
    (hterminated : Terminated values actions) {terminator : Octets}
    (hne : terminator ≠ []) {w : World} {following : Octets} (rest : Octets)
    (hw : w.input = [encoding values actions ++ (following ++ rest)])
    (hfollowing : following = terminator ∨
      terminator.length ≤ following.length ∧ ¬ terminator <+: following) :
    ∃ element input, HoldsTuple actions values element ∧
      element.stops = false ∧
      (following = terminator → Holds input rest ∧
        (readElement loopVariable terminator operations).Evaluates eof [] w
          (.controlFlowInstruction .interruptGenerator)
          { w with input := input }) ∧
      (following ≠ terminator → Holds input (following ++ rest) ∧
        (readElement loopVariable terminator operations).Evaluates eof [] w
          element { w with input := input }) := by
  have hlength : terminator.length ≤ following.length := by
    rcases hfollowing with rfl | ⟨h, _⟩
    · exact Nat.le_refl _
    · exact h
  have hpositive := List.length_pos_of_ne_nil hne
  have hfollowing_ne : following ++ rest ≠ [] := by
    apply List.ne_nil_of_length_pos
    rw [List.length_append]
    omega
  let w₁ : World := { w with
    pad := .child [(loopVariable, .dictionary [])] w.pad }
  have hinitialize : (OpTreeNode.mk
      (.lexicalPad (.lexicalPadInitialize loopVariable))
      [.mk (.interpreted .dictionaryInitialize) []]).Evaluates eof
        { w with pad := .child [] w.pad } (.dictionary []) w₁ :=
    evaluates_lexicalPadInitialize _ (evaluates_interpreted rfl rfl)
  obtain ⟨results, pad, input, hread, hthrough, hholds, ⟨members, rfl⟩,
    hheld⟩ := reads_encoding
      (storesFields_holdsVariable eof htuple hget values w.pad)
      (fun _ h => h) (fun a ha => (htuple a ha).stringField hget) hoperations
      hterminated (Or.inl hfollowing_ne) (w := w₁) ⟨[], rfl⟩ (Or.inl hw)
  have hqueue := hholds.of_ne_nil hfollowing_ne
  let w₂ : World := { w with
    pad := .child [(loopVariable, .dictionary members)] w.pad
    input := input }
  have htuple' : HoldsTuple actions values (.dictionary members) := by
    intro identifier hidentifier member hmember
    have hvalue := hheld identifier hidentifier (Or.inl hidentifier)
    obtain ⟨field, type, rfl, _⟩ := tuple_of_mem_wireFields
      (fun a ha => (htuple a ha).tupleField) hidentifier
    obtain rfl := Option.some.inj hmember
    have hvariable : [(loopVariable, Value.dictionary members)].lookup
        loopVariable = some (.dictionary members) := by simp
    simp only [fieldValue, LexicalPad.get_child hvariable] at hvalue
    exact hvalue
  have hsequence : (opSequence operations).Evaluates eof w₁
      (DynamicInputOperation.opSequence.apply results) w₂ :=
    hread.evaluates .opSequence
  have hgoes := opSequence_apply_goes hthrough
  rcases hfollowing with rfl | ⟨_, hother⟩
  · obtain ⟨input', hholds', hinterrupt⟩ :=
      evaluates_terminateListIfReadAhead_interrupt (w := w₂) hne hqueue
    refine ⟨_, input', htuple', rfl, fun _ => ⟨hholds', ?_⟩,
      fun h => absurd rfl h⟩
    exact ⟨_, EvaluateInOrder.evaluates .opSequence (.cons hinitialize rfl
      (.cons hsequence hgoes (.stop hinterrupt rfl))), rfl⟩
  · have hne' : following ≠ terminator := by
      rintro rfl
      exact hother (List.prefix_refl _)
    have hother' : ¬ terminator <+: following ++ rest := by
      intro hstarts
      exact hother (List.prefix_of_prefix_length_le hstarts
        (List.prefix_append _ _) hlength)
    obtain ⟨input', hholds', hgo⟩ :=
      evaluates_terminateListIfReadAhead_goes
        (w := w₂) hfollowing_ne (by rw [List.length_append]; omega) hother'
        hqueue
    refine ⟨_, input', htuple', rfl, fun h => absurd h hne',
      fun _ => ⟨hholds', ?_⟩⟩
    have hvariable : [(loopVariable, Value.dictionary members)].lookup
        loopVariable = some (.dictionary members) := by simp
    have hyield : (lexicalPadGet loopVariable).Evaluates eof
        { w₂ with input := input' } (.dictionary members)
        { w₂ with input := input' } := by
      have hvalue := LexicalPad.get_child hvariable w.pad
      rw [← hvalue]
      exact evaluates_lexicalPadGet loopVariable
    exact ⟨_, EvaluateInOrder.evaluates .opSequence (.cons hinitialize rfl
      (.cons hsequence hgoes (.cons hgo rfl (.cons hyield rfl (.nil _))))),
      rfl⟩

/-- The generated list is what was written but for its last element. -/
theorem readElement_generates {eof : Bool}
    (htuple : ∀ action ∈ actions, action.TupleString loopVariable elementType)
    (hget : getType loopVariable = some elementType)
    (hoperations : actionsToOptreenodes .read getType actions =
      .ok operations)
    {values : IdentifierReference → Octets}
    {tuples : List (IdentifierReference → Octets)}
    (hterminated : ∀ values' ∈ values :: tuples,
      Terminated values' actions) {terminator : Octets}
    (hearly : NoEarlyTerminator terminator actions (values :: tuples))
    {w : World} {rest : Octets}
    (hw : w.input =
      [encodings actions (values :: tuples) ++ (terminator ++ rest)]) :
    ∃ elements input,
      (readElement loopVariable terminator operations).Generates eof w elements
        { w with input := input } ∧
      Holds input rest ∧
      List.Forall₂ (HoldsTuple actions) (values :: tuples).dropLast
        elements := by
  have hne : terminator ≠ [] := by
    rintro rfl
    exact hearly values tuples List.suffix_rfl List.nil_prefix
  rw [encodings_cons, List.append_assoc] at hw
  induction tuples generalizing values w with
  | nil =>
      obtain ⟨element, input, _, _, hinterrupt, _⟩ :=
        readElement_evaluates htuple hget hoperations
          (hterminated values List.mem_cons_self) hne (w := w) rest hw
          (Or.inl rfl)
      obtain ⟨hholds, hevaluates⟩ := hinterrupt rfl
      exact ⟨[], input, .interrupt hevaluates, hholds, .nil⟩
  | cons next tuples ih =>
      have hsuffix : next :: tuples <:+ values :: next :: tuples :=
        List.suffix_cons _ _
      have hother := hearly next tuples hsuffix
      have hne' : encodings actions (next :: tuples) ++ terminator ≠
          terminator := by
        intro h
        rw [h] at hother
        exact hother (List.prefix_refl _)
      rw [← List.append_assoc (encodings actions (next :: tuples))] at hw
      obtain ⟨element, input, htuple', hgoes, _, hyield⟩ :=
        readElement_evaluates htuple hget hoperations
          (hterminated values List.mem_cons_self) hne (w := w) _ hw
          (Or.inr ⟨by rw [List.length_append]; omega, hother⟩)
      obtain ⟨hholds, hevaluates⟩ := hyield hne'
      have hqueue := hholds.of_ne_nil (by simp [hne])
      obtain ⟨elements, input', hgenerates, hholds', hall⟩ := ih
        (fun v hv => hterminated v (List.mem_cons_of_mem values hv))
        (fun v r h => hearly v r (h.trans hsuffix))
        (w := { w with input := input }) (by
          rw [hqueue, encodings_cons, List.append_assoc, List.append_assoc])
      refine ⟨element :: elements, input',
        .next hevaluates hgoes hgenerates, hholds', ?_⟩
      rw [List.dropLast_cons_of_ne_nil (List.cons_ne_nil next tuples)]
      exact .cons htuple' hall

/-- Every element of a list that has nothing to escape is written. -/
theorem writeElement_mapsTo
    (htuple : ∀ action ∈ actions, action.TupleField loopVariable elementType)
    (hget : getType loopVariable = some elementType)
    (hoperations : actionsToOptreenodes .write getType (duals actions) =
      .ok operations)
    {tuples : List (IdentifierReference → Octets)} {elements : List Value}
    (hplain : ∀ values ∈ tuples, Unescaped values actions)
    (hholds : List.Forall₂ (HoldsTuple actions) tuples elements) (w : World) :
    ∃ results buffers,
      (writeElement loopVariable operations).MapsTo false elements w results
        { w with output := w.output ++ buffers } ∧
      buffers.flatten = encodings actions tuples := by
  induction hholds generalizing w with
  | nil =>
      refine ⟨[], [], ?_, rfl⟩
      rw [List.append_nil]
      exact .nil w
  | @cons values element tuples elements helement _ ih =>
      let pad : LexicalPad := .child [(loopVariable, element)] w.pad
      have hvariable : [(loopVariable, element)].lookup loopVariable =
          some element := by simp
      have hpad : ∀ identifier ∈ wireFields actions,
          fieldValue pad identifier = .octets (values identifier) := by
        intro identifier hidentifier
        have hvalue := helement identifier hidentifier
        obtain ⟨field, type, rfl, _⟩ :=
          tuple_of_mem_wireFields htuple hidentifier
        simp only [fieldValue, pad, LexicalPad.get_child hvariable]
        exact hvalue _ rfl
      obtain ⟨results, buffers, hevaluate, hthrough, hflatten⟩ :=
        writes_unescaped (fun a ha => (htuple a ha).stringPiece hget)
          (hplain values List.mem_cons_self) hoperations
          { w with pad := pad } hpad
      obtain ⟨results', buffers', hmaps, hflatten'⟩ :=
        ih (fun v hv => hplain v (List.mem_cons_of_mem values hv))
          { w with output := w.output ++ buffers }
      refine ⟨DynamicInputOperation.opSequence.apply results :: results',
        buffers ++ buffers', ?_, ?_⟩
      · rw [← List.append_assoc]
        exact .cons ⟨_, hevaluate.evaluates .opSequence, rfl⟩ hmaps
      · rw [List.flatten_append, hflatten, hflatten', encodings_cons]

end Loops

/-- After setting a name it holds the value, or nobody knows it. -/
theorem LexicalPad.get_set (name : String) (value : Value)
    (pad : LexicalPad) :
    (pad.set name value).2.get name = value ∨
      (pad.set name value).2.get name = .runtimeError .nameError := by
  induction pad with
  | root pad =>
      cases h : pad.lookup name with
      | none => exact Or.inr (by simp [LexicalPad.set, LexicalPad.get, h])
      | some old => exact Or.inl (by simp [LexicalPad.set, LexicalPad.get, h])
  | child pad parent ih =>
      cases h : pad.lookup name with
      | none => simpa [LexicalPad.set, LexicalPad.get, h] using ih
      | some old => exact Or.inl (by simp [LexicalPad.set, LexicalPad.get, h])

theorem evaluates_staticCallable {eof : Bool} {w : World} {tree : OpTreeNode}
    {names : List String} : (staticCallable tree names).Evaluates eof w
      (.callable ⟨tree, names, true⟩) w :=
  evaluates_interpreted rfl rfl

section WriteLoop

variable {getType : ExtractTypeClosure} {loopVariable collection : String}
  {actions : List Action} {writeOperations : List OpTreeNode} {writer : World}
  (terminator : Octets)

/-- The write loop emits nothing for no element. -/
theorem writeLoop_not_runsTo
    (hwriter : writer.pad.get collection = .dynamicList [])
    {result : Value} {w : World} :
    ¬ (writeLoop loopVariable collection terminator writeOperations).RunsTo
      false { writer with output := [] } result w := by
  intro hwrite
  let w₀ : World := { writer with output := [] }
  have hlist : (lexicalPadGet collection).Evaluates false w₀
      (.dynamicList []) w₀ := by
    rw [← hwriter]
    exact evaluates_lexicalPadGet collection
  have hmeets : (writeLoop loopVariable collection terminator
      writeOperations).Meets false Faulty w₀ :=
    MeetsInOrder.meets .opSequence
      (.here (functionCallForEach_meets_faulty evaluates_staticCallable
        hlist))
  exact hmeets.not_runsTo hwrite

/-- The write loop emits the elements of a list, and the terminator. -/
theorem writeLoop_runsTo {elementType : DataType}
    (htuple : ∀ action ∈ actions, action.TupleField loopVariable elementType)
    (hget : getType loopVariable = some elementType)
    (hwrites : actionsToOptreenodes .write getType (duals actions) =
      .ok writeOperations)
    {tuples : List (IdentifierReference → Octets)} (hne : tuples ≠ [])
    (hplain : ∀ values ∈ tuples, Unescaped values actions)
    {elements : List Value}
    (hholds : List.Forall₂ (HoldsTuple actions) tuples elements)
    (hwriter : writer.pad.get collection = .dynamicList elements) :
    ∃ result w, (writeLoop loopVariable collection terminator
        writeOperations).RunsTo false { writer with output := [] } result w ∧
      w.output.flatten = encodings actions tuples ++ terminator := by
  let w₀ : World := { writer with output := [] }
  have hlist : (lexicalPadGet collection).Evaluates false w₀
      (.dynamicList elements) w₀ := by
    rw [← hwriter]
    exact evaluates_lexicalPadGet collection
  obtain ⟨results, buffers, hmaps, hflatten⟩ := writeElement_mapsTo htuple
    hget hwrites hplain hholds w₀
  have hne : elements ≠ [] := by
    rintro rfl
    cases hholds
    exact hne rfl
  have hmapped := evaluates_functionCallForEach hne evaluates_staticCallable
    hlist hmaps
  have hterminator := @evaluates_writeStaticOctets []
    { w₀ with output := w₀.output ++ buffers } terminator
  have hwritten := EvaluateInOrder.evaluates .opSequence
    (.cons hmapped rfl (.cons hterminator rfl (.nil _)))
  refine ⟨_, _, hwritten.runsTo, ?_⟩
  simp [w₀, hflatten]

end WriteLoop

/-- What the write loop emits for the tuples, and what follows it, is read by
the read loop as the same tuples and leaves what follows. -/
def LoopRoundTrips (writeTree readTree : OpTreeNode) (collection : String)
    (actions : List Action) (tuples : List (IdentifierReference → Octets))
    (writer reader : World) (eof : Bool) (rest : Octets) : Prop :=
  ∃ result w, writeTree.RunsTo false { writer with output := [] } result w ∧
    ∃ result' w', readTree.RunsTo eof
        { reader with input := [w.output.flatten ++ rest] } result' w' ∧
      w'.input.flatten = rest ∧
      ∃ elements, w'.pad.get collection = .dynamicList elements ∧
        List.Forall₂ (HoldsTuple actions) tuples elements

/-- The read loop loses the last element of what the write loop emitted, and
the write loop emits nothing for no element. -/
theorem readLoop_writeLoop_not_roundTrips {getType : ExtractTypeClosure}
    {loopVariable collection : String} {elementType : DataType}
    {actions : List Action} {readOperations writeOperations : List OpTreeNode}
    (htuple : ∀ action ∈ actions, action.TupleString loopVariable elementType)
    (hget : getType loopVariable = some elementType)
    (hreads : actionsToOptreenodes .read getType actions =
      .ok readOperations)
    (hwrites : actionsToOptreenodes .write getType (duals actions) =
      .ok writeOperations)
    {tuples : List (IdentifierReference → Octets)}
    (hterminated : ∀ values ∈ tuples, Terminated values actions)
    {terminator : Octets}
    (hearly : NoEarlyTerminator terminator actions tuples)
    {elements : List Value}
    (hholds : List.Forall₂ (HoldsTuple actions) tuples elements)
    {writer : World}
    (hwriter : writer.pad.get collection = .dynamicList elements)
    (reader : World) (eof : Bool) (rest : Octets) :
    ¬ LoopRoundTrips
      (writeLoop loopVariable collection terminator writeOperations)
      (readLoop loopVariable collection terminator
        (.mk (.lexicalPad (.lexicalPadInitialize loopVariable))
          [.mk (.interpreted .dictionaryInitialize) []]) readOperations)
      collection actions tuples writer reader eof rest := by
  rintro ⟨result, w, hwrite, result', w', hread, _, read, hstored, hall⟩
  cases tuples with
  | nil =>
      cases hholds
      exact writeLoop_not_runsTo terminator hwriter hwrite
  | cons values tuples =>
      have hplain : ∀ other ∈ values :: tuples, Unescaped other actions :=
        fun other _ => unescaped_of_tupleString htuple other
      obtain ⟨_, written, hwritten, hflatten⟩ := writeLoop_runsTo terminator
        (fun a ha => (htuple a ha).tupleField) hget hwrites
        (List.cons_ne_nil _ _) hplain hholds hwriter
      obtain ⟨_, rfl⟩ := hwrite.unique hwritten
      have hinput : [w.output.flatten ++ rest] =
          [encodings actions (values :: tuples) ++ (terminator ++ rest)] := by
        rw [hflatten, List.append_assoc]
      obtain ⟨elements', input, hgenerates, _, hlast⟩ :=
        readElement_generates htuple hget hreads hterminated
          hearly (w := { reader with input := [w.output.flatten ++ rest] })
          hinput
      have hset := evaluates_lexicalPadSet collection
        (evaluates_generateList rfl evaluates_staticCallable hgenerates)
      obtain ⟨_, rfl⟩ := hread.unique hset.runsTo
      rcases LexicalPad.get_set collection (.dynamicList elements')
        reader.pad with hvalue | hvalue
      · obtain rfl := Value.dynamicList.inj (hstored.symm.trans hvalue)
        have hlength := hall.length_eq.trans hlast.length_eq.symm
        simp at hlength
      · have hcontra := hstored.symm.trans hvalue
        contradiction

/-- Whatever the tuples are, the loop generated for a part of a message does
not read back what it wrote. -/
theorem messageForLoop_not_roundTrips {block : MessageSequence}
    {reads writes : List Action}
    (hreads : PartsToReadActions.partsToReadActions block = some reads)
    (hwrites : PartsToWriteActions.partsToWriteActions block = some writes)
    {getType : ExtractTypeClosure}
    {loopVariable collection : IdentifierReference} {terminator : Octets}
    {arrayType elementType : DataType}
    (harray : getType collection.name = some arrayType)
    (helement : arrayType.parameters.lookup "element_type" =
      some (.type elementType))
    (htuple : ∀ action ∈ reads,
      action.TupleString loopVariable.name elementType)
    {readTree writeTree : OpTreeNode}
    (hreadTree : visitAction .read getType
      (.loop loopVariable collection terminator reads) = .ok readTree)
    (hwriteTree : visitAction .write getType
      (.loop loopVariable collection terminator writes) = .ok writeTree)
    {tuples : List (IdentifierReference → Octets)}
    (hterminated : ∀ values ∈ tuples, Terminated values reads)
    (hearly : NoEarlyTerminator terminator reads tuples)
    {elements : List Value}
    (hholds : List.Forall₂ (HoldsTuple reads) tuples elements)
    (writer reader : World)
    (hwriter : writer.pad.get collection.name = .dynamicList elements)
    (eof : Bool) (rest : Octets) :
    ¬ LoopRoundTrips writeTree readTree collection.name reads tuples writer
      reader eof rest := by
  obtain rfl := partsToWriteActions_eq_duals hreads hwrites
  obtain ⟨wrapper, hwrapper, hreadTree⟩ := bind_eq_ok hreadTree
  obtain ⟨readOperations, hreadOperations, hreadTree⟩ := bind_eq_ok hreadTree
  obtain ⟨initialOperation, hinitial, hreadTree⟩ := bind_eq_ok hreadTree
  obtain rfl := initializeLoopVariable_eq_ok hinitial
  obtain rfl := Except.ok.inj hreadTree
  obtain ⟨wrapper', hwrapper', hwriteTree⟩ := bind_eq_ok hwriteTree
  obtain rfl := Except.ok.inj (hwrapper.symm.trans hwrapper')
  obtain ⟨writeOperations, hwriteOperations, hwriteTree⟩ :=
    bind_eq_ok hwriteTree
  obtain rfl := Except.ok.inj hwriteTree
  have hget := createGetTypeWrapper_loopVariable hwrapper harray helement
  exact readLoop_writeLoop_not_roundTrips htuple hget hreadOperations
    hwriteOperations hterminated hearly hholds hwriter reader eof rest

/-- The body of `for line in lines`: the text of the line and a line feed. -/
def lineBlock : MessageSequence :=
  [.tokenSequence { tokens := [.identifierReference
      (.mk "line" (some (.mk "text" none)))] },
    .terminator [10]]

/-- `array<element_type=tuple<text=str>>`. -/
def linesType : DataType :=
  .mk (.mk "array" none) [("element_type", .type lineType)]
where
  lineType : DataType :=
    .mk (.mk "tuple" none) [("text", .type (.mk (.mk "str" none) []))]

def lineReads : List Action :=
  [.readOctetsUntilTerminator [10] (.mk "line" (some (.mk "text" none))) none]

theorem lineBlock_reads :
    PartsToReadActions.partsToReadActions lineBlock = some lineReads := by
  simp [PartsToReadActions.partsToReadActions, lineBlock,
    PartsToReadActions.tokenSequence, lineReads,
    PartsToReadActions.individualTokenActions, Action.applyEscape]

def lineWrites : List Action :=
  [.writeFromIdentifier (.mk "line" (some (.mk "text" none))) none,
    .writeStaticOctets [10]]

theorem lineBlock_writes :
    PartsToWriteActions.partsToWriteActions lineBlock = some lineWrites := by
  simp [PartsToWriteActions.partsToWriteActions, lineBlock,
    PartsToWriteActions.tokenSequence, TokenSequence.embeddedTerminator,
    lineWrites, PartsToWriteActions.individualTokenAction, Action.applyEscape]

theorem lineReads_tupleString :
    ∀ action ∈ lineReads, action.TupleString "line" linesType.lineType := by
  intro action haction
  rw [List.mem_singleton.mp haction]
  exact ⟨rfl, "text", _, rfl, rfl, rfl⟩

/-- One line that says `a`. -/
theorem line_conditions :
    (∀ values ∈ [fun _ => ([97] : Octets)], Terminated values lineReads) ∧
      NoEarlyTerminator [10] lineReads [fun _ => [97]] ∧
      List.Forall₂ (HoldsTuple lineReads) [fun _ => [97]]
        [.dictionary [("text", .octets [97])]] := by
  refine ⟨?_, ?_, .cons ?_ .nil⟩
  · intro values hvalues terminator identifier escape haction
    obtain rfl := List.mem_singleton.mp hvalues
    obtain ⟨rfl, rfl, _⟩ := Action.readOctetsUntilTerminator.inj
      (List.mem_singleton.mp haction)
    decide
  · intro values rest hsuffix
    have hlength := hsuffix.length_le
    obtain rfl : rest = [] := List.length_eq_zero_iff.mp (by simpa using hlength)
    obtain rfl : values = fun _ => [97] := by
      simpa using hsuffix.eq_of_length rfl
    decide
  · intro identifier hidentifier member hmember
    obtain rfl := List.mem_singleton.mp hidentifier
    obtain rfl := Option.some.inj hmember
    rfl

def lineReadOperations : List OpTreeNode :=
  [lexicalPadSet "line" (.mk (.interpreted (.dictionarySet "text"))
    [lexicalPadGet "line", readOctetsUntilTerminator [10] none])]

def lineWriteOperations : List OpTreeNode :=
  [.mk (.inputOutput .writeOctets)
      [.mk (.interpreted (.dictionaryGet "text")) [lexicalPadGet "line"]],
    .mk (.inputOutput (.writeStaticOctets [10])) []]

def lineLoopRead : OpTreeNode :=
  readLoop "line" "lines" [10]
    (.mk (.lexicalPad (.lexicalPadInitialize "line"))
      [.mk (.interpreted .dictionaryInitialize) []]) lineReadOperations

def lineLoopWrite : OpTreeNode :=
  writeLoop "line" "lines" [10] lineWriteOperations

/-- The type of a name inside the loop. -/
def lineGetType : ExtractTypeClosure := fun name =>
  if name = "line" then some linesType.lineType
  else extractType [("lines", linesType)] name

theorem lineReads_operations :
    actionsToOptreenodes .read lineGetType lineReads =
      .ok lineReadOperations := by
  rw [lineReads, actionsToOptreenodes, visitAction,
    visitReadOctetsUntilTerminator_tuple
      rfl rfl rfl]
  rfl

theorem lineWrites_operations :
    actionsToOptreenodes .write lineGetType lineWrites =
      .ok lineWriteOperations := by
  have haccess : recursiveVariableAccess linesType.lineType (.mk "text" none)
      (lexicalPadGet "line") none =
        .ok (.mk (.interpreted (.dictionaryGet "text"))
          [lexicalPadGet "line"], .mk (.mk "str" none) []) := by
    rw [recursiveVariableAccess.eq_def]
    rfl
  have hwrite : visitWriteFromIdentifier lineGetType
      (.mk "line" (some (.mk "text" none))) none =
        .ok (.mk (.inputOutput .writeOctets)
          [.mk (.interpreted (.dictionaryGet "text"))
            [lexicalPadGet "line"]]) := by
    change (recursiveVariableAccess linesType.lineType (.mk "text" none)
      (lexicalPadGet "line") none >>= fun access =>
        writeOctetsFromValue access.2 access.1 none) = _
    rw [haccess]
    rfl
  rw [lineWrites, actionsToOptreenodes, visitAction, hwrite]
  rfl

theorem lineLoop_read :
    visitAction .read (extractType [("lines", linesType)])
      (.loop (.mk "line" none) (.mk "lines" none) [10] lineReads) =
        .ok lineLoopRead := by
  rw [visitAction]
  change (actionsToOptreenodes .read lineGetType lineReads >>= fun operations =>
    pure (readLoop "line" "lines" [10]
      (.mk (.lexicalPad (.lexicalPadInitialize "line"))
        [.mk (.interpreted .dictionaryInitialize) []]) operations)) = _
  rw [lineReads_operations]
  rfl

theorem lineLoop_write :
    visitAction .write (extractType [("lines", linesType)])
      (.loop (.mk "line" none) (.mk "lines" none) [10] lineWrites) =
        .ok lineLoopWrite := by
  rw [visitAction]
  change (actionsToOptreenodes .write lineGetType lineWrites >>=
    fun operations => pure (writeLoop "line" "lines" [10] operations)) = _
  rw [lineWrites_operations]
  rfl

theorem messageForLoop_not_roundTrips_line :
    ¬ LoopRoundTrips lineLoopWrite lineLoopRead "lines" lineReads
      [fun _ => [97]]
      ⟨.root [("lines", .dynamicList [.dictionary [("text", .octets [97])]])],
        0, [], []⟩
      ⟨.root [("lines", .bool false)], 0, [], []⟩ false [72] := by
  have htuple : ∀ action ∈ lineReads, action.TupleString
      (IdentifierReference.mk "line" none).name linesType.lineType :=
    lineReads_tupleString
  exact messageForLoop_not_roundTrips lineBlock_reads lineBlock_writes rfl rfl
    htuple lineLoop_read lineLoop_write line_conditions.1 line_conditions.2.1
    line_conditions.2.2 _ _ rfl false [72]

/-- The line `a` is written as `a`, a line feed and the line feed that ends the
list, and read back as no line. -/
theorem line_is_lost :
    visitAction .read (extractType [("lines", linesType)])
        (.loop (.mk "line" none) (.mk "lines" none) [10] lineReads) =
          .ok lineLoopRead ∧
      visitAction .write (extractType [("lines", linesType)])
        (.loop (.mk "line" none) (.mk "lines" none) [10] lineWrites) =
          .ok lineLoopWrite ∧
      ¬ LoopRoundTrips lineLoopWrite lineLoopRead "lines" lineReads
        [fun _ => [97]]
        ⟨.root [("lines", .dynamicList
          [.dictionary [("text", .octets [97])]])], 0, [], []⟩
        ⟨.root [("lines", .bool false)], 0, [], []⟩ false [72] := by
  refine ⟨lineLoop_read, lineLoop_write, ?_⟩
  have hwrites : actionsToOptreenodes .write lineGetType (duals lineReads) =
      .ok lineWriteOperations := by
    rw [← partsToWriteActions_eq_duals lineBlock_reads lineBlock_writes]
    exact lineWrites_operations
  exact readLoop_writeLoop_not_roundTrips
    lineReads_tupleString rfl lineReads_operations hwrites line_conditions.1
    line_conditions.2.1 line_conditions.2.2 rfl _ false [72]

end NetworkProtocolDsl
