/-
One message of static pieces and string fields on its way.

The writer emits the encoding of its fields.  The reader that was given all of
it takes it and no more, and has the fields in its dictionary; one that was
given less goes on waiting.
-/
import NetworkProtocolDsl.MessageReading
import NetworkProtocolDsl.TransitionChoice

namespace NetworkProtocolDsl

open Generate OpTreeNode EvaluateInOrder RunnerState IdentifierReference
open NetworkProtocolDsl.Action

/-- No name holds an error or a control flow instruction. -/
def Calm (bindings : Bindings) : Prop :=
  ∀ name value, bindings.lookup name = some value → value.stops = false

namespace Action

/-- The fields on the wire with their values, by name. -/
def fieldValues (values : IdentifierReference → Octets)
    (actions : List Action) : List (String × Octets) :=
  (wireFields actions).map fun identifier =>
    (identifier.name, values identifier)

end Action

/-- The dictionary has these fields. -/
def HasFields (fields : List (String × Octets)) (bindings : Bindings) : Prop :=
  ∀ field ∈ fields, bindings.lookup field.1 = some (.octets field.2)

theorem hasFields_fieldValues {values : IdentifierReference → Octets}
    {actions : List Action} {bindings : Bindings} :
    HasFields (fieldValues values actions) bindings ↔
      ∀ identifier ∈ wireFields actions, bindings.lookup identifier.name =
        some (.octets (values identifier)) := by
  simp [HasFields, fieldValues]

section Transition

variable {data : MessageData} {actions : List Action} {tree : OpTreeNode}
  {values : IdentifierReference → Octets}

/-- The writer emits the encoding and returns its pad: the members the message
asks for. -/
theorem writeTransition_evaluates
    (hplain : ∀ action ∈ actions, action.PlainString (extractType data))
    (htree : generateTransitionOptree (.writeTransition data (duals actions)) =
      .ok tree)
    {members : Bindings}
    (hmembers : HasFields (fieldValues values actions) members)
    (outer : LexicalPad) (errno : Errno) (input output : List Octets) :
    ∃ bindings written,
      (∀ name, bindings.lookup name =
        if name ∈ extractArgumentNames data then
          some ((members.lookup name).getD (.bool false))
        else none) ∧
      written.flatten = encoding values actions ∧
      HasFields (fieldValues values actions) bindings ∧
      tree.Evaluates false
        ⟨transitionPad tree data members outer, errno, input, output⟩
        (.dynamicList [.dictionary bindings])
        ⟨.child bindings outer, errno, input, output ++ written⟩ := by
  obtain ⟨operations, hoperations, htree⟩ := bind_eq_ok htree
  obtain rfl := Except.ok.inj htree
  obtain ⟨bindings, hpad, hlookup⟩ := transitionPad_lookup
    (transitionOptree operations) data members outer
  rw [hasFields_fieldValues] at hmembers
  have hfields : ∀ identifier ∈ wireFields actions,
      bindings.lookup identifier.name =
        some (.octets (values identifier)) := by
    intro identifier hidentifier
    obtain ⟨name, type, hname, htype, _⟩ :=
      type_of_mem_wireFields hplain hidentifier
    have hmem : identifier.name ∈ extractArgumentNames data := by
      rw [hname]
      exact mem_extractArgumentNames htype
    rw [hlookup, if_pos hmem, hmembers identifier hidentifier]
    rfl
  have hvalues : ∀ identifier ∈ wireFields actions,
      fieldValue (.child bindings outer) identifier =
        .octets (values identifier) := by
    intro identifier hidentifier
    have hfield := hfields identifier hidentifier
    obtain ⟨name, type, rfl, _⟩ := type_of_mem_wireFields hplain hidentifier
    exact LexicalPad.get_child hfield outer
  obtain ⟨results, written, hwritten, hthrough, hflatten⟩ :=
    writes_encoding (fun a ha => (hplain a ha).stringField) hoperations
      ⟨.child bindings outer, errno, input, output⟩ hvalues
  refine ⟨bindings, written, hlookup, hflatten,
    hasFields_fieldValues.mpr hfields, ?_⟩
  rw [hpad]
  exact transitionOptree_evaluates hwritten hthrough

/-- The pad below which the fields are read: every name has what it had, or
the value of the field it names. -/
def StoredOver (start : Bindings) (values : IdentifierReference → Octets)
    (fields : List IdentifierReference) (outer pad : LexicalPad) : Prop :=
  ∃ bindings, pad = .child bindings outer ∧
    ∀ name, bindings.lookup name = start.lookup name ∨
      .mk name none ∈ fields ∧
        bindings.lookup name = some (.octets (values (.mk name none)))

theorem storesFields_storedOver (values : IdentifierReference → Octets)
    (hplain : ∀ action ∈ actions, action.PlainString (extractType data))
    {start : Bindings} (hbound : ∀ name type, data.lookup name = some type →
      ∃ old, start.lookup name = some old ∧ old.stops = false)
    (outer : LexicalPad) :
    StoresFields false (extractType data) values (wireFields actions)
      (StoredOver start values (wireFields actions) outer) := by
  rintro identifier hidentifier terminator operation hoperation w input
    ⟨bindings, hpad, hstored⟩ hread
  obtain ⟨name, type, rfl, htype, hstr⟩ :=
    type_of_mem_wireFields hplain hidentifier
  obtain rfl := Except.ok.inj ((visitReadOctetsUntilTerminator_str htype hstr
    terminator none).symm.trans hoperation)
  obtain ⟨old, hold, hgoes⟩ : ∃ old, bindings.lookup name = some old ∧
      old.stops = false := by
    rcases hstored name with hsame | ⟨_, hvalue⟩
    · rw [hsame]
      exact hbound name type htype
    · exact ⟨_, hvalue, rfl⟩
  let value : Value := .octets (values (.mk name none))
  have hself : (Assoc.assign name value bindings).lookup name =
      some value := by
    rw [Assoc.lookup_assign_self]
    simp [hold]
  refine ⟨old, .child (Assoc.assign name value bindings) outer, hgoes,
    lexicalPadSet_evaluates hread hpad hold, ⟨_, rfl, fun other => ?_⟩,
    LexicalPad.get_child hself outer, fun other hother hheld => ?_⟩
  · by_cases hname : other = name
    · subst hname
      exact Or.inr ⟨hidentifier, hself⟩
    · rw [Assoc.lookup_assign_ne hname]
      exact hstored other
  · obtain ⟨other', type', rfl, _⟩ := type_of_mem_wireFields hplain hother
    by_cases hname : other' = name
    · subst hname
      exact LexicalPad.get_child hself outer
    · simp only [fieldValue, hpad, LexicalPad.get]
        at hheld ⊢
      rw [Assoc.lookup_assign_ne hname]
      exact hheld

/-- The pad a read transition is invoked over binds the names of its data. -/
theorem transitionPad_calm {carried : Bindings} (hcarried : Calm carried)
    (tree : OpTreeNode) (data : MessageData) (outer : LexicalPad) :
    ∃ start, transitionPad tree data carried outer = .child start outer ∧
      Calm start ∧ ∀ name type, data.lookup name = some type →
        ∃ old, start.lookup name = some old ∧ old.stops = false := by
  obtain ⟨start, hpad, hlookup⟩ := transitionPad_lookup tree data carried outer
  have hcalm : ∀ name, ((carried.lookup name).getD (.bool false)).stops =
      false := by
    intro name
    cases hvalue : carried.lookup name with
    | none => rfl
    | some value => exact hcarried name value hvalue
  refine ⟨start, hpad, fun name value hvalue => ?_, fun name type htype => ?_⟩
  · rw [hlookup] at hvalue
    split at hvalue
    · rw [← Option.some.inj hvalue]
      exact hcalm name
    · contradiction
  · exact ⟨_, by rw [hlookup, if_pos (mem_extractArgumentNames htype)],
      hcalm name⟩

/-- The reader that has the whole encoding takes it and no more. -/
theorem readTransition_evaluates
    (hplain : ∀ action ∈ actions, action.PlainString (extractType data))
    (htree : generateTransitionOptree (.readTransition data actions) =
      .ok tree)
    (hterminated : Terminated values actions) {carried : Bindings}
    (hcarried : Calm carried) (outer : LexicalPad) (errno : Errno)
    {queue : List Octets} {rest : Octets}
    (hqueue : Holds queue (encoding values actions ++ rest))
    (output : List Octets) :
    ∃ bindings input, Calm bindings ∧
      HasFields (fieldValues values actions) bindings ∧ Holds input rest ∧
      tree.Evaluates false
        ⟨transitionPad tree data carried outer, errno, queue, output⟩
        (.dynamicList [.dictionary bindings])
        ⟨.child bindings outer, errno, input, output⟩ := by
  obtain ⟨operations, hoperations, htree⟩ := bind_eq_ok htree
  obtain rfl := Except.ok.inj htree
  obtain ⟨start, hpad, hcalm, hbound⟩ := transitionPad_calm hcarried
    (transitionOptree operations) data outer
  have hterminators : ∀ terminator identifier escape,
      Action.readOctetsUntilTerminator terminator identifier escape ∈
        actions → terminator ≠ [] :=
    fun _ _ _ haction => (hplain _ haction).1
  have hstring : ∀ action ∈ actions, action.StringField (extractType data) :=
    fun action haction => (hplain action haction).stringField
  obtain ⟨results, pad, input, hread, hthrough, hholds,
    ⟨bindings, rfl, hstored⟩, hheld⟩ :=
    reads_encoding (storesFields_storedOver values hplain hbound outer)
      (fun _ h => h) hstring hoperations hterminated (Or.inr hterminators)
      (w := ⟨.child start outer, errno, queue, output⟩)
      ⟨start, rfl, fun _ => Or.inl rfl⟩ hqueue
  have hfields : ∀ identifier ∈ wireFields actions,
      bindings.lookup identifier.name =
        some (.octets (values identifier)) := by
    intro identifier hidentifier
    have hvalue := hheld identifier hidentifier (Or.inl hidentifier)
    obtain ⟨name, type, rfl, htype, _⟩ :=
      type_of_mem_wireFields hplain hidentifier
    rcases hstored name with hsame | ⟨_, hstored⟩
    · obtain ⟨old, hold, _⟩ := hbound name type htype
      have hget : fieldValue (.child bindings outer)
          (.mk name none) = old :=
        LexicalPad.get_child (hsame.trans hold) outer
      rw [hvalue] at hget
      rw [hget]
      exact hsame.trans hold
    · exact hstored
  refine ⟨bindings, input, fun name value hvalue => ?_,
    hasFields_fieldValues.mpr hfields, hholds, ?_⟩
  · rcases hstored name with hsame | ⟨_, hoctets⟩
    · exact hcalm name value (hsame.symm.trans hvalue)
    · rw [← Option.some.inj (hoctets.symm.trans hvalue)]
      rfl
  · rw [hpad]
    exact transitionOptree_evaluates hread hthrough

end Transition

section Waiting

/-- A read whose terminator is not there waits. -/
theorem readOctetsUntilTerminator_waits {terminator input : Octets}
    (hnone : Occurrence.first terminator input = none) {w : World}
    (hw : Holds w.input input) :
    (readOctetsUntilTerminator terminator none).Meets false NeverExits w := by
  refine meets_neverExits_of_waiting (· = {}) rfl rfl ?_
  rintro ctx rfl
  refine ⟨rfl, .stillBlocked, {}, ?_, rfl⟩
  rcases hw with hw | ⟨hw, _⟩
  · rw [hw]
    simp only [InputOutputOperation.readQueue,
      InputOutputOperation.handleRead, ReadOctetsUntilTerminator.handleRead,
      hnone, ↓reduceIte, InputOutputOperation.joinQueue,
      InputOutputOperation.readyToEvaluate,
      ReadOctetsUntilTerminator.readyToEvaluate, Bool.or_self,
      Bool.false_eq_true]
  · rw [hw]
    rfl

/-- A read of a static piece of which too little is there waits. -/
theorem readStaticOctets_waits {octets input : Octets}
    (hlength : input.length < octets.length) {w : World}
    (hw : Holds w.input input) :
    (OpTreeNode.mk (.inputOutput (.readStaticOctets octets)) []).Meets false
      NeverExits w := by
  have hblocked : (InputOutputOperation.readStaticOctets
      octets).readyToEvaluate {} = false := by
    simp only [InputOutputOperation.readyToEvaluate,
      ReadStaticOctets.readyToEvaluate, List.length_nil, Bool.or_false]
    exact decide_eq_false (by omega)
  refine meets_neverExits_of_waiting (· = {}) rfl rfl ?_
  rintro ctx rfl
  refine ⟨hblocked, .stillBlocked, {}, ?_, rfl⟩
  rcases hw with hw | ⟨hw, _⟩
  · rw [hw]
    simp only [InputOutputOperation.readQueue,
      InputOutputOperation.handleRead, ReadStaticOctets.handleRead,
      if_pos hlength, ↓reduceIte, InputOutputOperation.joinQueue, hblocked,
      Bool.false_eq_true]
  · rw [hw]
    rfl

/-- The terminator of a value is not in what comes before its last byte. -/
theorem first_eq_none_of_short {terminator value arrived missing : Octets}
    (hfirst : Occurrence.first terminator (value ++ terminator) =
      some value.length)
    (hsplit : value ++ terminator = arrived ++ missing) (hne : missing ≠ []) :
    Occurrence.first terminator arrived = none := by
  by_contra hsome
  obtain ⟨pos, hpos⟩ := Option.ne_none_iff_exists'.mp hsome
  have hlonger := Occurrence.first_append hpos missing
  rw [← hsplit, hfirst] at hlonger
  obtain rfl := Option.some.inj hlonger
  have hle := Occurrence.length_le_of_first hpos
  have hlength := congrArg List.length hsplit
  rw [List.length_append, List.length_append] at hlength
  have hpositive := List.length_pos_of_ne_nil hne
  omega

variable {data : MessageData} {actions : List Action}
  {values : IdentifierReference → Octets} {getType : ExtractTypeClosure}

/-- Reads that have a part of the encoding only come to one that waits. -/
theorem reads_wait {invariant : LexicalPad → Prop}
    {fields : List IdentifierReference}
    (hstores : StoresFields false getType values fields invariant)
    (hfields : ∀ identifier ∈ wireFields actions, identifier ∈ fields)
    (hplain : ∀ action ∈ actions, action.PlainString getType)
    {operations : List OpTreeNode}
    (hoperations : actionsToOptreenodes .read getType actions =
      .ok operations)
    (hterminated : Terminated values actions) {arrived missing : Octets}
    (hsplit : encoding values actions = arrived ++ missing)
    (hmissing : missing ≠ []) {w : World} (hpad : invariant w.pad)
    (hinput : Holds w.input arrived) :
    MeetsInOrder false NeverExits operations w := by
  induction actions generalizing operations w arrived with
  | nil =>
      have hnil := (List.append_eq_nil_iff.mp hsplit.symm).2
      exact absurd hnil hmissing
  | cons action actions ih =>
      have hplain' := fun a ha => hplain a (List.mem_cons_of_mem action ha)
      have hfirst := hplain action List.mem_cons_self
      have hterminated' : Terminated values actions :=
        fun t i e h => hterminated t i e (List.mem_cons_of_mem action h)
      obtain ⟨operation, others, hoperation, hothers, rfl⟩ :=
        actionsToOptreenodes_cons hoperations
      cases action with
      | readStaticOctets octets =>
          obtain rfl := Except.ok.inj hoperation
          rw [encoding] at hsplit
          by_cases hlength : arrived.length < octets.length
          · exact .here (readStaticOctets_waits hlength hinput)
          · obtain ⟨rest, rfl⟩ : octets <+: arrived :=
              List.prefix_of_prefix_length_le ⟨_, hsplit⟩ ⟨_, rfl⟩
                (Nat.le_of_not_lt hlength)
            rw [List.append_assoc] at hsplit
            obtain ⟨input, hholds, hread⟩ := evaluates_readStaticOctets hinput
            exact .later hread rfl (ih hfields hplain' hothers hterminated'
              (List.append_cancel_left hsplit)
              (w := { w with input := input }) hpad hholds)
      | readOctetsUntilTerminator terminator identifier escape =>
          obtain ⟨hne, hmember, rfl, type, htype, hstr⟩ := hfirst
          obtain ⟨name, member⟩ := identifier
          obtain rfl : member = none := hmember
          have hoperation' := hoperation
          obtain rfl := Except.ok.inj ((visitReadOctetsUntilTerminator_str
            htype hstr terminator none).symm.trans hoperation)
          have hvalue := hterminated terminator _ none List.mem_cons_self
          rw [encoding] at hsplit
          by_cases hlength : arrived.length <
              (values (.mk name none) ++ terminator).length
          · obtain ⟨rest, hrest⟩ : arrived <+:
                values (.mk name none) ++ terminator :=
              List.prefix_of_prefix_length_le ⟨_, hsplit.symm⟩ ⟨_, rfl⟩
                (Nat.le_of_lt hlength)
            have hshort : rest ≠ [] := by
              rintro rfl
              rw [List.append_nil] at hrest
              rw [hrest] at hlength
              exact Nat.lt_irrefl _ hlength
            have hnone := first_eq_none_of_short hvalue hrest.symm hshort
            exact .here ((readOctetsUntilTerminator_waits hnone
              hinput).unary rfl)
          · obtain ⟨rest, rfl⟩ : values (.mk name none) ++ terminator <+:
                arrived :=
              List.prefix_of_prefix_length_le ⟨_, hsplit⟩ ⟨_, rfl⟩
                (Nat.le_of_not_lt hlength)
            have hqueue := hinput.of_ne_nil (by simp [hne])
            obtain ⟨input, hholds, hread⟩ :=
              evaluates_readOctetsUntilTerminator hvalue hqueue
            obtain ⟨old, pad, hgoes, hstore, hinv, _⟩ := hstores
              (.mk name none) (hfields _ List.mem_cons_self) terminator _
              hoperation' w input hpad hread
            rw [List.append_assoc _ rest] at hsplit
            exact .later hstore hgoes (ih (fun i hi => hfields i
                (List.mem_cons_of_mem _ hi)) hplain' hothers hterminated'
              (List.append_cancel_left hsplit)
              (w := { w with
                pad := pad
                input := input }) hinv hholds)
      | writeFromIdentifier _ _ | writeStaticOctets _ | loop _ _ _ _ =>
          exact hfirst.elim

/-- The reader that has a part of the encoding only never ends. -/
theorem readTransition_waits {tree : OpTreeNode}
    (hplain : ∀ action ∈ actions, action.PlainString (extractType data))
    (htree : generateTransitionOptree (.readTransition data actions) =
      .ok tree)
    (hterminated : Terminated values actions) {carried : Bindings}
    (hcarried : Calm carried) (outer : LexicalPad) (errno : Errno)
    {queue : List Octets} {arrived missing : Octets}
    (hqueue : Holds queue arrived)
    (hsplit : encoding values actions = arrived ++ missing)
    (hmissing : missing ≠ []) (output : List Octets) :
    tree.Meets false NeverExits
      ⟨transitionPad tree data carried outer, errno, queue, output⟩ := by
  obtain ⟨operations, hoperations, htree⟩ := bind_eq_ok htree
  obtain rfl := Except.ok.inj htree
  obtain ⟨start, hpad, _, hbound⟩ := transitionPad_calm hcarried
    (transitionOptree operations) data outer
  rw [hpad]
  have hwait : MeetsInOrder false NeverExits operations
      ⟨.child start outer, errno, queue, output⟩ :=
    reads_wait (storesFields_storedOver values hplain hbound outer)
      (fun _ h => h) hplain hoperations hterminated hsplit hmissing
      ⟨start, rfl, fun _ => Or.inl rfl⟩ hqueue
  exact MeetsInOrder.meets .opSequence (.here (MeetsInOrder.meets .opSequence
    hwait))

end Waiting

namespace TransitionLookahead

variable {conditions : List (TransitionCondition × Octets)}
  {queue : List Octets} {arrived : Octets}

/-- What the lookahead makes of the bytes that have arrived. -/
def decides (conditions : List (TransitionCondition × Octets))
    (arrived : Octets) : OperationResult :=
  apply conditions { buffer := arrived }

/-- With nothing to read there is nothing to decide. -/
def Patient (conditions : List (TransitionCondition × Octets)) : Prop :=
  decides conditions [] = .blocked .waitingForRead

theorem not_ready_of_blocked
    (h : decides conditions arrived = .blocked .waitingForRead) :
    readyToEvaluate conditions { buffer := arrived } = false :=
  (apply_blocked_iff conditions _).mp h

/-- The callback of a read state returns what the lookahead decides, and leaves
the input where it is. -/
theorem lookaheadCallback_evaluates (hpatient : Patient conditions)
    {name : Octets}
    (hdecides : decides conditions arrived = .value (.octets name))
    {w : World} (hinput : Holds w.input arrived) {dictionary : Value}
    (hget : w.pad.get "dictionary" = dictionary)
    (hgoes : dictionary.stops = false) :
    (TransitionChoice.lookaheadCallback conditions).Evaluates false w
      (.dynamicList [.octets name, dictionary]) w := by
  have hne : arrived ≠ [] := by
    rintro rfl
    rw [Patient, hdecides] at hpatient
    contradiction
  have hqueue := hinput.of_ne_nil hne
  obtain ⟨report, hread, _⟩ := readQueue_eq conditions {} false
    (List.cons_ne_nil arrived [])
  rw [← hqueue, hinput.flatten, ← hqueue] at hread
  have hlookahead : (OpTreeNode.mk (.inputOutput (.transitionLookahead
      conditions)) []).Evaluates false w (.octets name) w := by
    have hwaits : (InputOutputOperation.transitionLookahead
        conditions).readyToEvaluate {} = false :=
      not_ready_of_blocked hpatient
    have happly : (InputOutputOperation.transitionLookahead conditions).apply
        { buffer := arrived } [] w.errno =
        .ok ⟨.value (.octets name), { buffer := arrived }, w.errno⟩ := by
      rw [decides] at hdecides
      simp only [InputOutputOperation.apply, hdecides]
    exact evaluates_readQueue rfl hwaits hread happly
  have hdictionary : (lexicalPadGet "dictionary").Evaluates false w dictionary
      w := by
    rw [← hget]
    exact evaluates_lexicalPadGet "dictionary"
  exact EvaluateInOrder.evaluates .dynamicList
    (.cons hlookahead rfl (.cons hdictionary hgoes (.nil w)))

/-- The callback of a read state waits as long as nothing is decided. -/
theorem lookaheadCallback_waits (hpatient : Patient conditions)
    (hdecides : decides conditions arrived = .blocked .waitingForRead)
    {w : World} (hinput : Holds w.input arrived) :
    (TransitionChoice.lookaheadCallback conditions).Meets false NeverExits
      w := by
  refine MeetsInOrder.meets .dynamicList (.here ?_)
  refine meets_neverExits_of_waiting
    (fun ctx => ctx = {} ∨ ctx = { buffer := arrived }) rfl (Or.inl rfl) ?_
  intro ctx hctx
  have hblocked : (InputOutputOperation.transitionLookahead
      conditions).readyToEvaluate ctx = false := by
    rcases hctx with rfl | rfl
    · exact not_ready_of_blocked hpatient
    · exact not_ready_of_blocked hdecides
  refine ⟨hblocked, ?_⟩
  rcases hinput with hinput | ⟨hinput, rfl⟩
  · obtain ⟨report, hread, _⟩ := readQueue_eq conditions ctx false
      (List.cons_ne_nil arrived [])
    rw [← hinput, show w.input.flatten = arrived by simp [hinput],
      ← hinput] at hread
    refine ⟨report, _, hread, Or.inr ?_⟩
    rcases hctx with rfl | rfl <;> rfl
  · refine ⟨.stillBlocked, ctx, ?_, hctx⟩
    rw [hinput]
    rfl

end TransitionLookahead

end NetworkProtocolDsl
