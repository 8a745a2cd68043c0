/-
The emitted serializer beside the write tree of the interpreter.

The interpreter emits the text of every piece.  The emitted serializer yields
the same where it sends the whole message; a loop it leaves without the
terminator, and the element of a loop has no name in the emitted code.
-/
import NetworkProtocolDsl.LoopRoundTrip
import NetworkProtocolDsl.MessageRoundTrip
import NetworkProtocolDsl.SendMethod

namespace NetworkProtocolDsl

open Run Generate GenerateSerializer OpTreeNode EvaluateInOrder
open IdentifierReference SendCall

namespace Action

/-- A static piece, or a string field of the data or of a tuple in it. -/
def WritesString (data : MessageData) : Action → Prop
  | .writeStaticOctets _ => True
  | .writeFromIdentifier identifier _ =>
      match identifier.member with
      | none => dataMember data identifier.name = some .string
      | some _ => dataMember data identifier.name = some .struct ∧
          ∃ type, fieldType (extractType data) identifier = some type ∧
            type.name.name = "str"
  | _ => False

/-- An escape option names a character. -/
def EscapeReplaces : Action → Prop
  | .writeFromIdentifier _ (some escape) => escape.character ≠ []
  | _ => True

variable {data : MessageData} {action : Action}

theorem WritesString.writesPiece (h : action.WritesString data) :
    action.WritesPiece := by
  cases action with
  | writeStaticOctets _ | writeFromIdentifier _ _ => trivial
  | readStaticOctets _ | readOctetsUntilTerminator _ _ _ | loop _ _ _ _ =>
      exact h.elim

end Action

theorem memberKind_string {type : DataType}
    (h : memberKind type = some .string) : type.name.name = "str" := by
  unfold memberKind at h
  split at h
  · contradiction
  · split at h
    · assumption
    · split at h
      · contradiction
      · split at h <;> contradiction

theorem memberKind_str {type : DataType} (h : type.name.name = "str") :
    memberKind type = some .string := by
  rw [memberKind, if_neg (by simp [h]), if_pos h]

section

variable {data : MessageData} {fields : MessageFields}

/-- A string field is a string for the interpreter, and its text is its value.
-/
theorem Action.WritesString.field {identifier : IdentifierReference}
    {escape : Option EscapeInfo}
    (h : (Action.writeFromIdentifier identifier escape).WritesString data)
    (fields : MessageFields) :
    (∃ type, fieldType (extractType data) identifier = some type ∧
      type.name.name = "str") ∧
    Action.wireText data fields identifier =
      some (fields.strings identifier) := by
  obtain ⟨name, member⟩ := identifier
  cases member with
  | none =>
      have hkind : dataMember data name = some .string := h
      obtain ⟨type, htype, hstr⟩ := Option.bind_eq_some_iff.mp hkind
      refine ⟨⟨type, htype, memberKind_string hstr⟩, ?_⟩
      simp only [Action.wireText, IdentifierReference.member,
        IdentifierReference.name, hkind]
  | some member =>
      obtain ⟨hkind, type, htype, hstr⟩ := h
      have hkind : dataMember data name = some .struct := hkind
      refine ⟨⟨type, htype, hstr⟩, ?_⟩
      simp only [Action.wireText, IdentifierReference.member,
        IdentifierReference.name, hkind, htype, Option.bind_some,
        memberKind_str hstr]

/-- Every piece has a text. -/
theorem texts_of_writesString (fields : MessageFields) {actions : List Action}
    (hstring : ∀ action ∈ actions, action.WritesString data)
    (hreplaces : ∀ action ∈ actions, action.EscapeReplaces) :
    ∃ texts, actions.mapM (Action.text data fields) = some texts := by
  induction actions with
  | nil => exact ⟨[], rfl⟩
  | cons action actions ih =>
      rw [List.forall_mem_cons] at hstring hreplaces
      obtain ⟨texts, htexts⟩ := ih hstring.2 hreplaces.2
      have htext : ∃ text, action.text data fields = some text := by
        cases action with
        | writeStaticOctets octets => exact ⟨octets, rfl⟩
        | writeFromIdentifier identifier escape =>
            have hwire := (hstring.1.field fields).2
            rw [Action.text, hwire, Option.bind_some]
            cases escape with
            | none => exact ⟨_, rfl⟩
            | some escape =>
                obtain ⟨escaped, hescaped, _⟩ :=
                  WriteOctetsWithEscape.applyEscapeReplacement_replaced
                    hreplaces.1 (fields.strings identifier)
                exact ⟨escaped, by rw [Action.escapedText, hescaped]; rfl⟩
        | readStaticOctets _ | readOctetsUntilTerminator _ _ _
          | loop _ _ _ _ => exact hstring.1.elim
      obtain ⟨text, htext⟩ := htext
      exact ⟨text :: texts, by rw [List.mapM_cons, htext, htexts]; rfl⟩

/-- The generated writes emit the texts. -/
theorem writes_texts {actions : List Action} {operations : List OpTreeNode}
    (hstring : ∀ action ∈ actions, action.WritesString data)
    (hoperations : actionsToOptreenodes .write (extractType data) actions =
      .ok operations)
    {texts : List Octets} (htexts : List.Forall₂
      (fun action text => action.text data fields = some text) actions texts)
    (w : World)
    (hpad : ∀ identifier escape,
      Action.writeFromIdentifier identifier escape ∈ actions →
        fieldValue w.pad identifier = .octets (fields.strings identifier)) :
    ∃ results buffers, EvaluateInOrder false operations w results
        { w with output := w.output ++ buffers } ∧
      RunsThrough results ∧ buffers.flatten = texts.flatten := by
  induction htexts generalizing operations w with
  | nil =>
      obtain rfl := Except.ok.inj hoperations
      refine ⟨[], [], ?_, fun _ h => absurd h List.not_mem_nil, rfl⟩
      rw [List.append_nil]
      exact .nil w
  | @cons action text actions texts htext _ ih =>
      rw [List.forall_mem_cons] at hstring
      obtain ⟨operation, rest, hoperation, hothers, rfl⟩ :=
        actionsToOptreenodes_cons hoperations
      have hpad' := fun identifier escape hmem =>
        hpad identifier escape (List.mem_cons_of_mem action hmem)
      have hfirst : operation.Evaluates false w (.int32 0)
          { w with output := w.output ++ emitted text } := by
        cases action with
        | writeStaticOctets octets =>
            obtain rfl := Option.some.inj htext
            obtain rfl := Except.ok.inj hoperation
            exact evaluates_writeStaticOctets octets
        | writeFromIdentifier identifier escape =>
            obtain ⟨⟨type, htype, hstr⟩, hwire⟩ :=
              hstring.1.field fields
            obtain ⟨type', access, htype', hwrite, haccess⟩ :=
              visitWriteFromIdentifier_evaluates hoperation
            obtain rfl := Option.some.inj (htype.symm.trans htype')
            have hget := haccess false w
            rw [hpad identifier escape List.mem_cons_self] at hget
            rw [writeOctetsFromValue, if_neg (by simp [hstr]), if_pos hstr]
              at hwrite
            obtain rfl := Except.ok.inj hwrite
            rw [Action.text, hwire, Option.bind_some] at htext
            cases escape with
            | none =>
                obtain rfl := Option.some.inj htext
                exact evaluates_writeOctets hget
            | some escape =>
                exact evaluates_writeOctetsWithEscape
                  (Action.escapedText_some htext) hget
        | readStaticOctets _ | readOctetsUntilTerminator _ _ _
          | loop _ _ _ _ => exact hstring.1.elim
      obtain ⟨results, buffers, hevaluate, hthrough, hflatten⟩ :=
        ih hstring.2 hothers { w with output := w.output ++ emitted text } hpad'
      refine ⟨.int32 0 :: results, emitted text ++ buffers, ?_, ?_, ?_⟩
      · rw [← List.append_assoc]
        exact .cons hfirst rfl hevaluate
      · exact List.forall_mem_cons.mpr ⟨rfl, hthrough⟩
      · rw [List.flatten_append, emitted_flatten, hflatten, List.flatten_cons]

/-- The write tree of the interpreter, invoked with these members, emits these
bytes. -/
def InterpreterWrites (data : MessageData) (actions : List Action)
    (members : Bindings) (bytes : Octets) : Prop :=
  ∃ tree, generateTransitionOptree (.writeTransition data actions) =
      .ok tree ∧
    ∀ (outer : LexicalPad) (errno : Errno) (unread : List Octets),
      ∃ result w, tree.RunsTo false
          ⟨transitionPad tree data members outer, errno, unread, []⟩ result w ∧
        w.output.flatten = bytes

/-- The chunks of the emitted serializer make up what the interpreter emits. -/
def WritesAlike (data : MessageData) (actions : List Action)
    (fields : MessageFields) (members : Bindings) (thenState : String) : Prop :=
  ∃ bytes, InterpreterWrites data actions members bytes ∧
    SendCall.Sends data actions fields thenState bytes

/-- The members of the dictionary are the fields of the emitted data. -/
def CarriesFields (actions : List Action) (fields : MessageFields)
    (members : Bindings) : Prop :=
  ∀ identifier escape,
    Action.writeFromIdentifier identifier escape ∈ actions →
      ∃ value, members.lookup identifier.name = some value ∧
        match identifier.member with
        | none => value = .octets (fields.strings identifier)
        | some member =>
            memberValue value member = .octets (fields.strings identifier)

theorem CarriesFields.fieldValue_transitionPad {actions : List Action}
    {members : Bindings} (h : CarriesFields actions fields members)
    (hstring : ∀ action ∈ actions, action.WritesString data)
    (tree : OpTreeNode) (outer : LexicalPad) :
    ∀ identifier escape,
      Action.writeFromIdentifier identifier escape ∈ actions →
        fieldValue (transitionPad tree data members outer) identifier =
          .octets (fields.strings identifier) := by
  intro identifier escape hmem
  obtain ⟨value, hlookup, hvalue⟩ := h identifier escape hmem
  obtain ⟨bindings, hpad, hbound⟩ :=
    transitionPad_child tree data members outer
  have hstring := hstring _ hmem
  obtain ⟨name, member⟩ := identifier
  have hlookup : members.lookup name = some value := hlookup
  have hget : ∀ type, data.lookup name = some type →
      (LexicalPad.child bindings outer).get name = value := by
    intro type htype
    refine LexicalPad.get_child ?_ outer
    rw [hbound name type htype, hlookup]
    rfl
  rw [hpad]
  cases member with
  | none =>
      have hkind : dataMember data name = some .string := hstring
      obtain ⟨type, htype, _⟩ := Option.bind_eq_some_iff.mp hkind
      exact (hget type htype).trans hvalue
  | some member =>
      have hkind : dataMember data name = some .struct := hstring.1
      obtain ⟨type, htype, _⟩ := Option.bind_eq_some_iff.mp hkind
      rw [fieldValue, hget type htype]
      exact hvalue

theorem interpreterWrites_texts {actions : List Action} {members : Bindings}
    (hcarries : CarriesFields actions fields members)
    (hstring : ∀ action ∈ actions, action.WritesString data)
    {tree : OpTreeNode}
    (htree : generateTransitionOptree (.writeTransition data actions) =
      .ok tree)
    {texts : List Octets}
    (htexts : actions.mapM (Action.text data fields) = some texts)
    (outer : LexicalPad) (errno : Errno) (unread : List Octets) :
    ∃ result w, tree.RunsTo false
        ⟨transitionPad tree data members outer, errno, unread, []⟩ result w ∧
      w.output.flatten = texts.flatten := by
  obtain ⟨operations, hoperations, htree⟩ := bind_eq_ok htree
  obtain rfl := Except.ok.inj htree
  obtain ⟨results, buffers, hevaluate, hthrough, hflatten⟩ :=
    writes_texts hstring hoperations (MapM.forall₂_of_eq_some htexts)
      ⟨transitionPad (transitionOptree operations) data members outer, errno,
        unread, []⟩
      (hcarries.fieldValue_transitionPad hstring _ outer)
  exact ⟨_, _, (transitionOptree_evaluates hevaluate hthrough).runsTo,
    hflatten⟩

/-- Plain pieces have a write tree. -/
theorem generateTransitionOptree_plain {actions : List Action}
    (hstring : ∀ action ∈ actions, action.WritesString data)
    (hplain : ∀ action ∈ actions, action.PlainPiece) :
    ∃ tree, generateTransitionOptree (.writeTransition data actions) =
      .ok tree := by
  have hoperations : ∃ operations, actionsToOptreenodes .write
      (extractType data) actions = .ok operations := by
    induction actions with
    | nil => exact ⟨[], rfl⟩
    | cons action actions ih =>
        rw [List.forall_mem_cons] at hstring hplain
        obtain ⟨operations, hoperations⟩ := ih hstring.2 hplain.2
        have hoperation : ∃ operation, visitAction .write (extractType data)
            action = .ok operation := by
          cases action with
          | writeStaticOctets octets => exact ⟨_, rfl⟩
          | writeFromIdentifier identifier escape =>
              obtain ⟨name, member⟩ := identifier
              obtain rfl : member = none := hplain.1
              obtain ⟨type, htype, hstr⟩ :=
                (hstring.1.field ⟨fun _ => [], fun _ => 0,
                  fun _ => 0⟩).1
              have htype : extractType data name = some type := htype
              refine ⟨.mk (writeOctetsOperation escape)
                [lexicalPadGet name], ?_⟩
              simp only [visitAction, visitWriteFromIdentifier,
                IdentifierReference.name, IdentifierReference.member, htype,
                orNullopt]
              change writeOctetsFromValue type (lexicalPadGet name) escape = _
              rw [writeOctetsFromValue, if_neg (by simp [hstr]), if_pos hstr]
          | readStaticOctets _ | readOctetsUntilTerminator _ _ _
            | loop _ _ _ _ => exact hplain.1.elim
        obtain ⟨operation, hoperation⟩ := hoperation
        refine ⟨operation :: operations, ?_⟩
        rw [actionsToOptreenodes, hoperation, hoperations]
        rfl
  obtain ⟨operations, hoperations⟩ := hoperations
  refine ⟨transitionOptree operations, ?_⟩
  change (actionsToOptreenodes .write (extractType data) actions >>=
    fun operations => pure (transitionOptree operations)) = _
  rw [hoperations]
  rfl

/-- No loop, only strings, and pieces that the send method passes on. -/
def WritesPlainly (data : MessageData) (actions : List Action)
    (fields : MessageFields) : Prop :=
  (∀ action ∈ actions, action.WritesString data) ∧
    PiecesPass data actions fields

/-- A loop over elements that writes something of an element, whose name no
member of the data has. -/
def WritesElement (data : MessageData) : Action → Prop
  | .loop loopVariable _ _ actions =>
      data.lookup loopVariable.name = none ∧
        ∃ identifier escape,
          Action.writeFromIdentifier identifier escape ∈ actions ∧
            identifier.name = loopVariable.name
  | _ => False

/-- There is no serializer for such a loop. -/
theorem messageSerializer_eq_none {actions : List Action} {action : Action}
    (hmem : action ∈ actions) (h : WritesElement data action) :
    messageSerializer data actions = none := by
  refine MapM.eq_none_of_mem hmem ?_
  cases action with
  | loop loopVariable collection terminator body =>
      obtain ⟨hunbound, identifier, escape, hbody, hname⟩ := h
      have hkind : dataMember data identifier.name = none := by
        rw [dataMember, hname, hunbound]
        rfl
      have hstages : body.mapM (elementStage data) = none := by
        refine MapM.eq_none_of_mem hbody ?_
        simp only [elementStage, hkind]
      simp only [GenerateSerializer.stage, hstages, Option.map_none]
      split <;> rfl
  | writeStaticOctets _ | writeFromIdentifier _ _ | readStaticOctets _
    | readOctetsUntilTerminator _ _ _ => exact h.elim

/-- The two write alike where only plain strings are written, and, as far as
the escape options are sound, no other message without a loop is; nor is one
with a loop that writes its elements. -/
theorem writesAlike_iff_writesPlainly (data : MessageData)
    (actions : List Action) (fields : MessageFields) (members : Bindings)
    (hcarries : CarriesFields actions fields members) (thenState : String) :
    (WritesPlainly data actions fields →
      WritesAlike data actions fields members thenState) ∧
    ((∀ action ∈ actions, action.WritesString data ∧ action.EscapeSurvives ∧
        action.EscapeReplaces) →
      WritesAlike data actions fields members thenState →
        WritesPlainly data actions fields) ∧
    ((∃ action ∈ actions, WritesElement data action) →
      ¬ WritesAlike data actions fields members thenState) := by
  refine ⟨?_, ?_, ?_⟩
  · rintro ⟨hstring, hpass⟩
    have hpieces := fun action haction => (hstring action haction).writesPiece
    obtain ⟨texts, htexts, hsends⟩ :=
      sendsWhole_of_piecesPass hpieces hpass thenState
    obtain ⟨tree, htree⟩ := generateTransitionOptree_plain hstring
      fun action haction => (hpass.1 action haction).1
    exact ⟨texts.flatten, ⟨tree, htree, interpreterWrites_texts hcarries
      hstring htree htexts⟩, hsends⟩
  · rintro hsound ⟨bytes, ⟨tree, htree, hwrites⟩, hsends⟩
    have hstring := fun action haction => (hsound action haction).1
    obtain ⟨texts, htexts⟩ := texts_of_writesString fields hstring
      fun action haction => (hsound action haction).2.2
    obtain ⟨result, w, hruns, hbytes⟩ := hwrites (.root []) 0 []
    obtain ⟨result', w', hruns', hbytes'⟩ := interpreterWrites_texts hcarries
      hstring htree htexts (.root []) 0 []
    obtain ⟨_, rfl⟩ := hruns.unique hruns'
    rw [← hbytes, hbytes'] at hsends
    exact ⟨hstring, piecesPass_of_sends
      (fun action haction => (hstring action haction).writesPiece)
      (fun action haction => (hsound action haction).2.1) htexts hsends⟩
  · rintro ⟨action, hmem, helement⟩ ⟨bytes, _, stages, hstages, _⟩
    rw [messageSerializer_eq_none hmem helement] at hstages
    contradiction

end

theorem writesAlike_iff_writesPlainly_greeting :
    WritesAlike greetingData greeting (greetingFields [65])
      [("name", .octets [65])] "Greeted" := by
  refine (writesAlike_iff_writesPlainly greetingData greeting
    (greetingFields [65]) [("name", .octets [65])] ?_ "Greeted").1
    ⟨?_, greeting_piecesPass⟩
  · intro identifier escape hmem
    simp only [greeting, List.mem_cons, reduceCtorEq, List.not_mem_nil,
      or_false, false_or, Action.writeFromIdentifier.injEq] at hmem
    obtain ⟨rfl, rfl⟩ := hmem
    exact ⟨.octets [65], rfl, rfl⟩
  · simp only [greeting, List.forall_mem_cons, List.not_mem_nil, false_imp_iff,
      implies_true, and_true]
    exact ⟨trivial, rfl, trivial⟩

/-- `for row in rows`: a dash for every row, and a semicolon behind. -/
def rowsData : MessageData :=
  [("rows", .mk (.mk "array" none) [("element_type", .type
    (.mk (.mk "tuple" none) [("text", .type (.mk (.mk "str" none) []))]))])]

def rowLoop : List Action :=
  [.loop (.mk "row" none) (.mk "rows" none) [59] [.writeStaticOctets [45]]]

def rowFields : MessageFields where
  strings := fun _ => []
  numbers := fun _ => 0
  sizes := fun _ => 1

def rowMembers : Bindings :=
  [("rows", .dynamicList [.dictionary [("text", .octets [97])]])]

def rowTree : OpTreeNode :=
  transitionOptree [writeLoop "row" "rows" [59]
    [.mk (.inputOutput (.writeStaticOctets [45])) []]]

def rowStages : List SerializeStage :=
  [.loop "rows" .vector [.assignLiteral [45, 0]]]

/-- The interpreter writes the dash and the semicolon. -/
theorem rowTree_runsTo : ∃ result w, rowTree.RunsTo false
    ⟨transitionPad rowTree rowsData rowMembers (.root []), 0, [], []⟩ result
      w ∧ w.output.flatten = [45, 59] := by
  let pad := transitionPad rowTree rowsData rowMembers (.root [])
  let elements : List Value := [.dictionary [("text", .octets [97])]]
  have hlist : (lexicalPadGet "rows").Evaluates false ⟨pad, 0, [], []⟩
      (.dynamicList elements) ⟨pad, 0, [], []⟩ :=
    evaluates_lexicalPadGet "rows"
  have helement : (writeElement "row"
      [.mk (.inputOutput (.writeStaticOctets [45])) []]).MapsTo false elements
        ⟨pad, 0, [], []⟩ [.int32 0] ⟨pad, 0, [], [[45]]⟩ :=
    .cons ⟨_, EvaluateInOrder.evaluates .opSequence
      (.cons (evaluates_writeStaticOctets [45]) rfl (.nil _)), rfl⟩ (.nil _)
  have hloop := evaluates_functionCallForEach (List.cons_ne_nil _ _)
    evaluates_staticCallable hlist helement
  have hterminator := @evaluates_writeStaticOctets []
    ⟨pad, 0, [], [[45]]⟩ [59]
  have hwritten := EvaluateInOrder.evaluates .opSequence
    (.cons hloop rfl (.cons hterminator rfl (.nil _)))
  have hthrough : RunsThrough [Value.int32 0] :=
    List.forall_mem_singleton.mpr rfl
  exact ⟨_, _, (transitionOptree_evaluates (.cons hwritten rfl (.nil _))
    hthrough).runsTo, rfl⟩

/-- The emitted serializer leaves the loop without the semicolon. -/
theorem loop_terminator_is_not_written :
    ¬ WritesAlike rowsData rowLoop rowFields rowMembers "Sent" := by
  rintro ⟨bytes, ⟨tree, htree, hwrites⟩, stages, hstages, hsends⟩
  have hrowTree : generateTransitionOptree (.writeTransition rowsData rowLoop)
      = .ok rowTree := rfl
  have hrowStages : messageSerializer rowsData rowLoop = some rowStages := by
    decide
  obtain rfl := Except.ok.inj (htree.symm.trans hrowTree)
  obtain rfl := Option.some.inj (hstages.symm.trans hrowStages)
  obtain ⟨result, w, hruns, hbytes⟩ := hwrites (.root []) 0 []
  obtain ⟨result', w', hruns', hbytes'⟩ := rowTree_runsTo
  obtain ⟨_, rfl⟩ := hruns.unique hruns'
  obtain ⟨call, hcall, hreturned, hbuffer, _⟩ := hsends [] "Open"
  have hdash : ∃ last, last.point = .returned ∧ last.outputBuffer = [45] ∧
      Reaches (step rowStages "Sent") (start rowFields [] "Open") last :=
    ⟨_, rfl, rfl, Reaches.head rfl (Reaches.head rfl (Reaches.head rfl
      (Reaches.head rfl (Reaches.head rfl (Reaches.head rfl
        (Reaches.single rfl))))))⟩
  obtain ⟨last, hlast, hshort, hreached⟩ := hdash
  rw [returned_unique hlast hreturned hreached hcall, hshort, ← hbytes,
    hbytes'] at hbuffer
  exact absurd hbuffer (by decide)

end NetworkProtocolDsl
