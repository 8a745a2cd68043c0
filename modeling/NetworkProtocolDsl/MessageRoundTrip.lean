/-
Messages of static pieces and string fields are read as they were written.

The generated writer emits the pieces and the fields one after the other; the
generated reader takes them back from one chunk, field by field, and leaves the
rest.
-/
import NetworkProtocolDsl.Invocation
import NetworkProtocolDsl.WireEncoding

namespace NetworkProtocolDsl

open Run RunnerState Generate OpTreeNode EvaluateInOrder IdentifierReference
open NetworkProtocolDsl.Action

namespace Action

/-- A static piece, or a field that is a string at the top level, without an
escape option and with a terminator. -/
def PlainString (getType : ExtractTypeClosure) : Action → Prop
  | .readStaticOctets _ => True
  | .readOctetsUntilTerminator terminator identifier escape =>
      terminator ≠ [] ∧ identifier.member = none ∧ escape = none ∧
        ∃ type, getType identifier.name = some type ∧ type.name.name = "str"
  | _ => False

variable {getType : ExtractTypeClosure} {action : Action}
  {actions : List Action}

theorem PlainString.stringField (h : action.PlainString getType) :
    action.StringField getType := by
  cases action with
  | readStaticOctets _ => trivial
  | readOctetsUntilTerminator terminator identifier escape =>
      obtain ⟨_, hmember, hescape, type, htype, hstr⟩ := h
      obtain ⟨name, member⟩ := identifier
      obtain rfl : member = none := hmember
      exact ⟨hescape, type, htype, hstr⟩
  | writeFromIdentifier _ _ | writeStaticOctets _ | loop _ _ _ _ =>
      exact h.elim

/-- The fields of plain strings are strings at the top level. -/
theorem type_of_mem_wireFields
    (hplain : ∀ action ∈ actions, action.PlainString getType)
    {identifier : IdentifierReference}
    (hidentifier : identifier ∈ wireFields actions) :
    ∃ name type, identifier = .mk name none ∧ getType name = some type ∧
      type.name.name = "str" := by
  induction actions with
  | nil => contradiction
  | cons action actions ih =>
      have hrest := ih fun a ha => hplain a (List.mem_cons_of_mem action ha)
      have hfirst := hplain action List.mem_cons_self
      cases action with
      | readOctetsUntilTerminator terminator field escape =>
          rcases List.mem_cons.mp hidentifier with rfl | hidentifier
          · obtain ⟨_, hmember, _, type, htype, hstr⟩ := hfirst
            obtain ⟨name, member⟩ := identifier
            obtain rfl : member = none := hmember
            exact ⟨name, type, rfl, htype, hstr⟩
          · exact hrest hidentifier
      | readStaticOctets _ => exact hrest hidentifier
      | writeFromIdentifier _ _ | writeStaticOctets _ | loop _ _ _ _ =>
          exact hfirst.elim

end Action

theorem visitReadOctetsUntilTerminator_str {getType : ExtractTypeClosure}
    {name : String} {type : DataType} (hget : getType name = some type)
    (hstr : type.name.name = "str") (terminator : Octets)
    (escape : Option EscapeInfo) :
    visitReadOctetsUntilTerminator getType terminator (.mk name none) escape =
      .ok (lexicalPadSet name
        (readOctetsUntilTerminator terminator escape)) := by
  simp only [visitReadOctetsUntilTerminator, IdentifierReference.name,
    IdentifierReference.member, hget, orNullopt]
  change (readValueFromOctets type terminator escape >>= fun value =>
    pure (lexicalPadSet name value)) = _
  rw [readValueFromOctets_str hstr]
  rfl

/-- A pad whose innermost scope binds the fields to values that do not stop. -/
def BindsFields (fields : List IdentifierReference) (parent pad : LexicalPad) :
    Prop :=
  ∃ bindings, pad = .child bindings parent ∧
    ∀ identifier ∈ fields, ∃ old,
      bindings.lookup identifier.name = some old ∧ old.stops = false

/-- Storing a field at the top level replaces its binding. -/
theorem storesFields_bindsFields (eof : Bool) {getType : ExtractTypeClosure}
    {actions : List Action}
    (hplain : ∀ action ∈ actions, action.PlainString getType)
    (values : IdentifierReference → Octets) (parent : LexicalPad) :
    StoresFields eof getType values (wireFields actions)
      (BindsFields (wireFields actions) parent) := by
  rintro identifier hidentifier terminator operation hoperation w input
    ⟨bindings, hpad, hbound⟩ hread
  obtain ⟨old, hold, hgoes⟩ := hbound identifier hidentifier
  obtain ⟨name, type, rfl, htype, hstr⟩ :=
    type_of_mem_wireFields hplain hidentifier
  obtain rfl := Except.ok.inj ((visitReadOctetsUntilTerminator_str htype hstr
    terminator none).symm.trans hoperation)
  have hold : bindings.lookup name = some old := hold
  let value : Value := .octets (values (.mk name none))
  have hself : (Assoc.assign name value bindings).lookup name =
      some value := by
    rw [Assoc.lookup_assign_self]
    simp [hold]
  refine ⟨old, .child (Assoc.assign name value bindings) parent, hgoes, ?_,
    ⟨_, rfl, fun other hother => ?_⟩, ?_, fun other hother hheld => ?_⟩
  · have hset := evaluates_lexicalPadSet name hread
    simp only [hpad] at hset
    rw [LexicalPad.set_child hold] at hset
    exact hset
  · by_cases hname : other.name = name
    · exact ⟨value, by rw [hname, hself], rfl⟩
    · rw [Assoc.lookup_assign_ne hname]
      exact hbound other hother
  · exact LexicalPad.get_child hself parent
  · obtain ⟨other', type', rfl, _⟩ := type_of_mem_wireFields hplain hother
    by_cases hname : other' = name
    · subst hname
      exact LexicalPad.get_child hself parent
    · simp only [fieldValue, hpad, LexicalPad.get] at hheld ⊢
      rw [Assoc.lookup_assign_ne hname]
      exact hheld

/-- The pad the state machine invokes a transition with: the members of the
dictionary by the names of the data, below the pad of the machine. -/
def transitionPad (optree : OpTreeNode) (data : MessageData)
    (members : Bindings) (outer : LexicalPad) : LexicalPad :=
  Interpreter.calleePad ⟨optree, extractArgumentNames data, true⟩ outer
    (StateMachineOperation.extractArguments (extractArgumentNames data)
      members)

/-- The names of the data are bound, to `false` where there is no member, and
no others. -/
theorem transitionPad_lookup (optree : OpTreeNode) (data : MessageData)
    (members : Bindings) (outer : LexicalPad) :
    ∃ bindings, transitionPad optree data members outer =
        .child bindings outer ∧
      ∀ name, bindings.lookup name =
        if name ∈ extractArgumentNames data then
          some ((members.lookup name).getD (.bool false))
        else none :=
  LexicalPad.bindArguments_child (extractArgumentNames data)
    (fun name => (members.lookup name).getD (.bool false)) [] outer

theorem mem_extractArgumentNames {data : MessageData} {name : String}
    {type : DataType} (h : data.lookup name = some type) :
    name ∈ extractArgumentNames data := by
  obtain ⟨before, after, rfl, _⟩ := List.lookup_eq_some_iff.mp h
  simp [extractArgumentNames]

theorem transitionPad_child (optree : OpTreeNode) (data : MessageData)
    (members : Bindings) (outer : LexicalPad) :
    ∃ bindings, transitionPad optree data members outer =
        .child bindings outer ∧
      ∀ name type, data.lookup name = some type →
        bindings.lookup name =
          some ((members.lookup name).getD (.bool false)) := by
  obtain ⟨bindings, hpad, hlookup⟩ :=
    transitionPad_lookup optree data members outer
  refine ⟨bindings, hpad, fun name type htype => ?_⟩
  rw [hlookup, if_pos (mem_extractArgumentNames htype)]

/-- A transition is its actions and then its pad as a dictionary. -/
theorem transitionOptree_evaluates {eof : Bool} {operations : List OpTreeNode}
    {w w' : World} {results : List Value}
    (h : EvaluateInOrder eof operations w results w')
    (hthrough : RunsThrough results) :
    (transitionOptree operations).Evaluates eof w
      (.dynamicList [w'.pad.asDict]) w' := by
  have hvalue := opSequence_apply_goes hthrough
  have hdict : (OpTreeNode.mk (.dynamicInput .dynamicList)
      [.mk (.lexicalPad .lexicalPadAsDict) []]).Evaluates eof w'
        (.dynamicList [w'.pad.asDict]) w' :=
    EvaluateInOrder.evaluates .dynamicList
      (.cons evaluates_lexicalPadAsDict rfl (.nil w'))
  exact EvaluateInOrder.evaluates .opSequence
    (.cons (EvaluateInOrder.evaluates .opSequence h) hvalue
      (.cons hdict rfl (.nil w')))

/-- A sequence whose operations are stopped ends the transition with the value
that stopped them. -/
theorem transitionOptree_stopped {eof : Bool} {operations : List OpTreeNode}
    {w w' : World} {values : List Value} {stop : Value}
    (h : EvaluateInOrder eof operations w values w')
    (hlast : values.getLast? = some stop) (hstops : stop.stops = true) :
    (transitionOptree operations).Evaluates eof w stop w' := by
  have hsequence := h.evaluates .opSequence
  have hvalue : DynamicInputOperation.opSequence.apply values = stop := by
    simp only [DynamicInputOperation.apply, hlast]
  rw [hvalue] at hsequence
  exact EvaluateInOrder.evaluates .opSequence (.stop hsequence hstops)

/-- The machine ends with the error of the transition it has chosen. -/
theorem stateMachine_finishes_with_error {eof : Bool} {data : MessageData}
    {tree : OpTreeNode} {members : Bindings} {w w' : World} {e : RuntimeError}
    (h : tree.Evaluates eof
      { w with pad := transitionPad tree data members w.pad }
      (.runtimeError e) w')
    (states : StateMap) (ctx : ControlFlowOperationContext) (callable : Value)
    (info : ProcessingInfo) {name : Octets} {target : String}
    (hopen : info.toState.1 ≠ "Closed")
    (hlookup : info.toState.2.transitions.lookup name =
      some (.mk tree (extractArgumentNames data) target))
    (htarget : (states.lookup target).isSome) :
    (Site.controlFlowFrame (.stateMachineOperation states) [] []
      { ctx with
        callable := some callable
        value := some (.dynamicList [.octets name, .dictionary members])
        callableInvoked := true
        additionalInfo := some { info with
          processingMode := .state } }).Finishes eof w (.runtimeError e)
      { w' with pad := LexicalPad.afterCall true w.pad w'.pad } := by
  obtain ⟨targetInfo, htarget⟩ := Option.isSome_iff_exists.mp htarget
  let invoked : Callable := ⟨tree, extractArgumentNames data, true⟩
  let arguments := StateMachineOperation.extractArguments
    (extractArgumentNames data) members
  have hvalue : invoked.Evaluates eof arguments w (.runtimeError e)
      { w' with pad := LexicalPad.afterCall true w.pad w'.pad } :=
    ⟨w', h, rfl⟩
  intro site heof frames result
  rw [← heof] at hvalue
  let called : ControlFlowOperationContext :=
    { ctx with
      callable := some (.callable invoked)
      value := none
      callableInvoked := true
      accumulator := arguments
      additionalInfo := some
        ⟨.transition, some info.toState,
          some (name, .mk tree (extractArgumentNames data) target),
          (target, targetInfo)⟩ }
  have happly : (ControlFlowOperation.stateMachineOperation states).apply
      { ctx with
        callable := some callable
        value := some (.dynamicList [.octets name, .dictionary members])
        callableInvoked := true
        additionalInfo := some { info with processingMode := .state } } [] =
      .ok (.blocked .waitingForCallableInvocation, called) := by
    simp only [ControlFlowOperation.apply, StateMachineOperation.apply,
      StateMachineOperation.processStateReturn,
      StateMachineOperation.processStateReturnWithArgs, if_neg hopen, hlookup,
      TransitionInfo.targetState, htarget, ↓reduceIte]
    rfl
  have hleads := site.leads_invocation (.stateMachineOperation states) [] []
    (Nat.le_refl 0) happly rfl rfl (Or.inl rfl) hvalue frames result
  have hready := Site.controlFlowFrame_ready (.stateMachineOperation states)
    [] [] (Nat.le_refl 0)
  exact ⟨_, _, _, hleads, hready _, ⟨.controlFlow { called with
    callableInvoked := true, value := some (.runtimeError e) }, rfl⟩, rfl,
    rfl⟩

/-- The reader of a message of static pieces and string fields takes what its
writer emits: it finds the value of every field and leaves the rest. -/
theorem readTransition_reads_writeTransition {parts : MessageSequence}
    {data : MessageData} {reads writes : List Action}
    (hreads : PartsToReadActions.partsToReadActions parts = some reads)
    (hwrites : PartsToWriteActions.partsToWriteActions parts = some writes)
    (hplain : ∀ action ∈ reads, action.PlainString (extractType data))
    {readTree writeTree : OpTreeNode}
    (hreadTree : generateTransitionOptree (.readTransition data reads) =
      .ok readTree)
    (hwriteTree : generateTransitionOptree (.writeTransition data writes) =
      .ok writeTree)
    {values : IdentifierReference → Octets}
    (hterminated : Terminated values reads)
    {members : Bindings} (hmembers : ∀ identifier ∈ wireFields reads,
      members.lookup identifier.name = some (.octets (values identifier)))
    {carried : Bindings} (hcarried : ∀ identifier ∈ wireFields reads,
      ∀ value, carried.lookup identifier.name = some value →
        value.stops = false)
    (writer reader : LexicalPad) (errno errno' : Errno)
    (unread : List Octets) (emittedBefore : List Octets) (eof : Bool)
    (rest : Octets) :
    ∃ result written, writeTree.RunsTo false
        ⟨transitionPad writeTree data members writer, errno, unread, []⟩ result
        ⟨transitionPad writeTree data members writer, errno, unread, written⟩ ∧
      ∃ bindings input, readTree.RunsTo eof
          ⟨transitionPad readTree data carried reader, errno',
            [written.flatten ++ rest], emittedBefore⟩
          (.dynamicList [.dictionary bindings])
          ⟨.child bindings reader, errno', input, emittedBefore⟩ ∧
        input.flatten = rest ∧
        ∀ identifier ∈ wireFields reads, bindings.lookup identifier.name =
          some (.octets (values identifier)) := by
  obtain rfl := partsToWriteActions_eq_duals hreads hwrites
  obtain ⟨readOperations, hreadOperations, hreadTree⟩ := bind_eq_ok hreadTree
  obtain ⟨writeOperations, hwriteOperations, hwriteTree⟩ :=
    bind_eq_ok hwriteTree
  obtain rfl := Except.ok.inj hreadTree
  obtain rfl := Except.ok.inj hwriteTree
  have hstring : ∀ action ∈ reads, action.StringField (extractType data) :=
    fun action haction => (hplain action haction).stringField
  have hvalues : ∀ identifier ∈ wireFields reads,
      fieldValue (transitionPad (transitionOptree writeOperations) data members
        writer) identifier = .octets (values identifier) := by
    intro identifier hidentifier
    have hmember := hmembers identifier hidentifier
    obtain ⟨name, type, rfl, htype, _⟩ :=
      type_of_mem_wireFields hplain hidentifier
    obtain ⟨bindings, hpad, hlookup⟩ := transitionPad_child
      (transitionOptree writeOperations) data members writer
    rw [hpad]
    refine LexicalPad.get_child ?_ writer
    rw [hlookup name type htype,
      show members.lookup name = some _ from hmember]
    rfl
  obtain ⟨results, written, hwritten, hthrough, hflatten⟩ :=
    writes_encoding hstring hwriteOperations
      ⟨transitionPad (transitionOptree writeOperations) data members writer,
        errno, unread, []⟩ hvalues
  refine ⟨_, written, (transitionOptree_evaluates hwritten hthrough).runsTo,
    ?_⟩
  have hbinds : BindsFields (wireFields reads) reader (transitionPad
      (transitionOptree readOperations) data carried reader) := by
    obtain ⟨bindings, hpad, hlookup⟩ := transitionPad_child
      (transitionOptree readOperations) data carried reader
    refine ⟨bindings, hpad, fun identifier hidentifier => ?_⟩
    have hcarry := hcarried identifier hidentifier
    obtain ⟨name, type, rfl, htype, _⟩ :=
      type_of_mem_wireFields hplain hidentifier
    refine ⟨_, hlookup name type htype, ?_⟩
    cases hvalue : carried.lookup name with
    | none => rfl
    | some value => exact hcarry value hvalue
  have hterminators : ∀ terminator identifier escape,
      Action.readOctetsUntilTerminator terminator identifier escape ∈ reads →
        terminator ≠ [] :=
    fun _ _ _ haction => (hplain _ haction).1
  obtain ⟨results', pad, input, hread, hthrough', hholds,
    ⟨bindings, rfl, hbound⟩, hheld⟩ :=
    reads_encoding (storesFields_bindsFields eof hplain values reader)
      (fun _ h => h) hstring hreadOperations hterminated
      (Or.inr hterminators)
      (w := ⟨transitionPad (transitionOptree readOperations) data carried
        reader, errno', [written.flatten ++ rest], emittedBefore⟩)
      hbinds (Or.inl (by rw [hflatten]))
  refine ⟨bindings, input, (transitionOptree_evaluates hread hthrough').runsTo,
    hholds.flatten, fun identifier hidentifier => ?_⟩
  have hvalue := hheld identifier hidentifier (Or.inl hidentifier)
  obtain ⟨stored, hstored, _⟩ := hbound identifier hidentifier
  obtain ⟨name, type, rfl, _⟩ := type_of_mem_wireFields hplain hidentifier
  have hget : fieldValue (.child bindings reader) (.mk name none) = stored :=
    LexicalPad.get_child hstored reader
  rw [hstored, ← hvalue, hget]

/-- A request line: a verb, a space, a target and the end of the line. -/
def requestLine : MessageSequence :=
  [.tokenSequence { tokens := [.identifierReference (.mk "verb" none),
      .stringLiteral [32], .identifierReference (.mk "target" none)] },
    .terminator [13, 10]]

def requestLineData : MessageData :=
  [("target", .mk (.mk "str" none) []), ("verb", .mk (.mk "str" none) [])]

def requestLineReads : List Action :=
  [.readOctetsUntilTerminator [32] (.mk "verb" none) none,
    .readOctetsUntilTerminator [13, 10] (.mk "target" none) none]

def requestLineWrites : List Action :=
  [.writeFromIdentifier (.mk "verb" none) none, .writeStaticOctets [32],
    .writeFromIdentifier (.mk "target" none) none, .writeStaticOctets [13, 10]]

theorem requestLine_reads :
    PartsToReadActions.partsToReadActions requestLine =
      some requestLineReads := by
  simp [PartsToReadActions.partsToReadActions, requestLine,
    PartsToReadActions.tokenSequence, requestLineReads,
    PartsToReadActions.individualTokenActions, Action.applyEscape]

theorem requestLine_writes :
    PartsToWriteActions.partsToWriteActions requestLine =
      some requestLineWrites := by
  simp [PartsToWriteActions.partsToWriteActions, requestLine,
    PartsToWriteActions.tokenSequence, TokenSequence.embeddedTerminator,
    requestLineWrites, PartsToWriteActions.individualTokenAction,
    Action.applyEscape]

/-- `GET` and `/`. -/
def requestLineValues (identifier : IdentifierReference) : Octets :=
  if identifier.name = "verb" then [71, 69, 84] else [47]

theorem readTransition_reads_writeTransition_requestLine :
    ∃ readTree writeTree,
      generateTransitionOptree (.readTransition requestLineData
        requestLineReads) = .ok readTree ∧
      generateTransitionOptree (.writeTransition requestLineData
        requestLineWrites) = .ok writeTree ∧
      ∃ result written, writeTree.RunsTo false
          ⟨transitionPad writeTree requestLineData
            [("verb", .octets [71, 69, 84]), ("target", .octets [47])]
            (.root []), 0, [], []⟩ result
          ⟨transitionPad writeTree requestLineData
            [("verb", .octets [71, 69, 84]), ("target", .octets [47])]
            (.root []), 0, [], written⟩ ∧
        ∃ bindings input, readTree.RunsTo false
            ⟨transitionPad readTree requestLineData [] (.root []), 0,
              [written.flatten ++ [72]], []⟩
            (.dynamicList [.dictionary bindings])
            ⟨.child bindings (.root []), 0, input, []⟩ ∧
          input.flatten = [72] ∧
          ∀ identifier ∈ wireFields requestLineReads,
            bindings.lookup identifier.name =
              some (.octets (requestLineValues identifier)) := by
  refine ⟨_, _, rfl, rfl, readTransition_reads_writeTransition
    requestLine_reads requestLine_writes ?_ rfl rfl ?_ ?_ ?_ (.root [])
    (.root []) 0 0 [] []
    false [72]⟩
  · intro action haction
    rcases List.mem_cons.mp haction with rfl | haction
    · exact ⟨by decide, rfl, rfl, _, rfl, rfl⟩
    · rw [List.mem_singleton.mp haction]
      exact ⟨by decide, rfl, rfl, _, rfl, rfl⟩
  · intro terminator identifier escape haction
    rcases List.mem_cons.mp haction with haction | haction
    · obtain ⟨rfl, rfl, _⟩ := Action.readOctetsUntilTerminator.inj haction
      decide
    · obtain ⟨rfl, rfl, _⟩ := Action.readOctetsUntilTerminator.inj
        (List.mem_singleton.mp haction)
      decide
  · intro identifier hidentifier
    rcases List.mem_cons.mp hidentifier with rfl | hidentifier
    · rfl
    · rw [List.mem_singleton.mp hidentifier]
      rfl
  · intro identifier _ value hvalue
    contradiction

end NetworkProtocolDsl
