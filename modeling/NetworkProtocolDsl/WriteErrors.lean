/-
What becomes of the error that a field's write yields.

An error outside the loops is the result of the transition and of the state
machine.  The loop over a list collects whatever its elements yield, so that an
error in an element is lost and the writing goes on.
-/
import NetworkProtocolDsl.LoopRoundTrip
import NetworkProtocolDsl.MessageRoundTrip
import NetworkProtocolDsl.WriterOutcome

namespace NetworkProtocolDsl

open Run RunnerState Generate OpTreeNode EvaluateInOrder

/-- The loop writes an element over this inner world once the elements before
it are done. -/
inductive ReachesElement (getType : ExtractTypeClosure)
    (loopVariable collection : IdentifierReference) (body : List Action)
    (w : World) : ExtractTypeClosure → World → Prop where
  | intro {wrapper : ExtractTypeClosure} {operations : List OpTreeNode}
      {before after values : List Value} {element : Value} {w₁ : World} :
      createGetTypeWrapper getType loopVariable.name collection.name =
        .ok wrapper →
      actionsToOptreenodes .write wrapper body = .ok operations →
      w.pad.get collection.name = .dynamicList (before ++ element :: after) →
      (writeElement loopVariable.name operations).MapsTo false before w values
        w₁ →
      ReachesElement getType loopVariable collection body w wrapper
        { w₁ with
          pad := Interpreter.calleePad
            (writeElement loopVariable.name operations) w₁.pad [element] }

/-- After the actions before it the write of a field outside the loops yields
the error. -/
inductive FieldRaises (getType : ExtractTypeClosure) :
    List Action → World → RuntimeError → World → Prop where
  | here {identifier : IdentifierReference} {escape : Option EscapeInfo}
      {rest : List Action} {tree : OpTreeNode} {w w' : World}
      {e : RuntimeError} :
      visitWriteFromIdentifier getType identifier escape = .ok tree →
      tree.Evaluates false w (.runtimeError e) w' →
      FieldRaises getType (.writeFromIdentifier identifier escape :: rest) w e
        w'
  | later {action : Action} {rest : List Action} {operation : OpTreeNode}
      {value : Value} {w w₁ w' : World} {e : RuntimeError} :
      visitAction .write getType action = .ok operation →
      operation.Evaluates false w value w₁ → value.stops = false →
      FieldRaises getType rest w₁ e w' →
      FieldRaises getType (action :: rest) w e w'

/-- The write of a field in some element of a loop, at any depth, yields the
error. -/
inductive ElementRaises : ExtractTypeClosure → List Action → World →
    RuntimeError → World → Prop where
  | field {getType wrapper : ExtractTypeClosure}
      {loopVariable collection : IdentifierReference} {terminator : Octets}
      {body rest : List Action} {w inner w' : World} {e : RuntimeError} :
      ReachesElement getType loopVariable collection body w wrapper inner →
      FieldRaises wrapper body inner e w' →
      ElementRaises getType
        (.loop loopVariable collection terminator body :: rest) w e w'
  | nested {getType wrapper : ExtractTypeClosure}
      {loopVariable collection : IdentifierReference} {terminator : Octets}
      {body rest : List Action} {w inner w' : World} {e : RuntimeError} :
      ReachesElement getType loopVariable collection body w wrapper inner →
      ElementRaises wrapper body inner e w' →
      ElementRaises getType
        (.loop loopVariable collection terminator body :: rest) w e w'
  | later {getType : ExtractTypeClosure} {action : Action}
      {rest : List Action} {operation : OpTreeNode} {value : Value}
      {w w₁ w' : World} {e : RuntimeError} :
      visitAction .write getType action = .ok operation →
      operation.Evaluates false w value w₁ → value.stops = false →
      ElementRaises getType rest w₁ e w' →
      ElementRaises getType (action :: rest) w e w'

/-- The transition invoked with these members ends with the error, and so does
the state machine whose state's callback returned them; the output is no more
than this. -/
structure StopsWith (data : MessageData) (tree : OpTreeNode)
    (members : Bindings) (w : World) (e : RuntimeError)
    (output : List Octets) : Prop where
  transition : ∃ w', tree.Evaluates false
    { w with pad := transitionPad tree data members w.pad } (.runtimeError e)
      w' ∧ w'.output = output
  machine : ∀ (states : StateMap) (ctx : ControlFlowOperationContext)
    (callable : Value) (info : ProcessingInfo) (name : Octets)
    (target : String), info.toState.1 ≠ "Closed" →
    info.toState.2.transitions.lookup name =
      some (.mk tree (extractArgumentNames data) target) →
    (states.lookup target).isSome → ∃ w',
      (Site.controlFlowFrame (.stateMachineOperation states) [] []
        { ctx with
          callable := some callable
          value := some (.dynamicList [.octets name, .dictionary members])
          callableInvoked := true
          additionalInfo := some { info with
            processingMode := .state } }).Finishes false w (.runtimeError e)
              w' ∧ w'.output = output

section Machine

variable {data : MessageData} {tree : OpTreeNode} {members : Bindings}
  {w w' : World} {e : RuntimeError}

/-- The machine ends with the error of the transition it has chosen. -/
theorem StopsWith.of_evaluates
    (h : tree.Evaluates false
      { w with pad := transitionPad tree data members w.pad }
      (.runtimeError e) w') :
    StopsWith data tree members w e w'.output := by
  refine ⟨⟨w', h, rfl⟩, ?_⟩
  intro states ctx callable info name target hopen hlookup htarget
  exact ⟨_, stateMachine_finishes_with_error h states ctx callable info hopen
    hlookup htarget, rfl⟩

end Machine

section Settles

variable {nodes operations : List OpTreeNode} {w w' : World}

/-- Every element is written, or one of them comes to a fault. -/
theorem mapsTo_or_faulty (callable : Callable)
    (htree : ∀ w, (∃ value w', callable.tree.Evaluates false w value w') ∨
      callable.tree.Meets false Faulty w)
    (arguments : List Value) (w : World) :
    (∃ values w', callable.MapsTo false arguments w values w') ∨
      callable.MapMeets false Faulty arguments w := by
  induction arguments generalizing w with
  | nil => exact Or.inl ⟨[], w, .nil w⟩
  | cons argument arguments ih =>
      rcases htree { w with
          pad := Interpreter.calleePad callable w.pad [argument] } with
        ⟨value, w₁, hvalue⟩ | hfaulty
      · have hfirst : callable.Evaluates false [argument] w value { w₁ with
            pad := LexicalPad.afterCall callable.inheritsLexicalPad w.pad
              w₁.pad } := ⟨w₁, hvalue, rfl⟩
        rcases ih { w₁ with
            pad := LexicalPad.afterCall callable.inheritsLexicalPad w.pad
              w₁.pad } with
          ⟨values, w', hmaps⟩ | hfaulty
        · exact Or.inl ⟨value :: values, w', .cons hfirst hmaps⟩
        · exact Or.inr (.later hfirst hfaulty)
      · exact Or.inr (.here hfaulty)

/-- A loop whose body never waits for ever yields no error, whatever its
elements yield. -/
theorem writeLoop_goes (loopVariable collection : String)
    (terminator : Octets)
    (hbody : ∀ w, (∃ values w', EvaluateInOrder false operations w values w') ∨
      MeetsInOrder false Faulty operations w)
    (w : World) :
    (∃ value w', (writeLoop loopVariable collection terminator
        operations).Evaluates false w value w' ∧ value.stops = false) ∨
      (writeLoop loopVariable collection terminator operations).Meets false
        Faulty w := by
  have htree : ∀ w, (∃ value w', (opSequence operations).Evaluates false w
      value w') ∨ (opSequence operations).Meets false Faulty w := by
    intro w
    rcases hbody w with ⟨values, w', hvalues⟩ | hfaulty
    · exact Or.inl ⟨_, w', hvalues.evaluates .opSequence⟩
    · exact Or.inr (hfaulty.meets .opSequence)
  have hfirst : (staticCallable (opSequence operations)
      [loopVariable]).Evaluates false w
        (.callable (writeElement loopVariable operations)) w :=
    evaluates_staticCallable
  have hsecond : (lexicalPadGet collection).Evaluates false w
      (w.pad.get collection) w := evaluates_lexicalPadGet collection
  rcases functionCallForEach_cases hfirst hsecond with
    ⟨argument, arguments, hlist⟩ | hfaulty
  · rw [hlist] at hsecond
    rcases mapsTo_or_faulty (writeElement loopVariable operations) htree
        (argument :: arguments) w with ⟨values, w', hmaps⟩ | hfaulty
    · have hloop := evaluates_functionCallForEach
        (List.cons_ne_nil argument arguments) hfirst hsecond hmaps
      have hend := @evaluates_writeStaticOctets [] w' terminator
      exact Or.inl ⟨_, _, EvaluateInOrder.evaluates .opSequence
        (.cons hloop rfl (.cons hend rfl (.nil _))), rfl⟩
    · have hloop := OpTreeNode.Meets.binary rfl hfirst hsecond
        (meets_functionCallForEach [staticCallable (opSequence operations)
          [loopVariable], lexicalPadGet collection] _ hfaulty [] [] rfl rfl)
      exact Or.inr (MeetsInOrder.meets .opSequence (.here hloop))
  · exact Or.inr (MeetsInOrder.meets .opSequence (.here hfaulty))

mutual

/-- A generated write yields a value or comes to a fault. -/
theorem visitAction_settles {getType : ExtractTypeClosure} {action : Action}
    {operation : OpTreeNode}
    (h : visitAction .write getType action = .ok operation) (w : World) :
    (∃ value w', operation.Evaluates false w value w') ∨
      operation.Meets false Faulty w := by
  match action with
  | .readOctetsUntilTerminator _ _ _ => contradiction
  | .readStaticOctets _ => contradiction
  | .writeFromIdentifier identifier escape =>
      rcases settles_writeFromIdentifier h w with
        ⟨value, w', _, hvalue, _⟩ | hfaulty
      · exact Or.inl ⟨value, w', hvalue⟩
      · exact Or.inr hfaulty
  | .writeStaticOctets octets =>
      obtain rfl := Except.ok.inj h
      exact Or.inl ⟨_, _, evaluates_writeStaticOctets octets⟩
  | .loop loopVariable collection terminator actions =>
      rw [visitAction] at h
      obtain ⟨wrapper, _, h⟩ := bind_eq_ok h
      obtain ⟨operations, hoperations, h⟩ := bind_eq_ok h
      obtain rfl := Except.ok.inj h
      rcases writeLoop_goes loopVariable.name collection.name terminator
          (fun w => actionsToOptreenodes_settle hoperations w) w with
        ⟨value, w', hvalue, _⟩ | hfaulty
      · exact Or.inl ⟨value, w', hvalue⟩
      · exact Or.inr hfaulty

theorem actionsToOptreenodes_settle {getType : ExtractTypeClosure}
    {actions : List Action} {operations : List OpTreeNode}
    (h : actionsToOptreenodes .write getType actions = .ok operations)
    (w : World) :
    (∃ values w', EvaluateInOrder false operations w values w') ∨
      MeetsInOrder false Faulty operations w := by
  match actions with
  | [] =>
      obtain rfl := Except.ok.inj h
      exact Or.inl ⟨[], w, .nil w⟩
  | action :: actions =>
      obtain ⟨operation, rest, hoperation, hrest, rfl⟩ :=
        actionsToOptreenodes_cons h
      rcases visitAction_settles hoperation w with
        ⟨value, w₁, hvalue⟩ | hfaulty
      · cases hstops : value.stops with
        | true => exact Or.inl ⟨[value], w₁, .stop hvalue hstops⟩
        | false =>
            rcases actionsToOptreenodes_settle hrest w₁ with
              ⟨values, w', hvalues⟩ | hfaulty
            · exact Or.inl ⟨value :: values, w', .cons hvalue hstops hvalues⟩
            · exact Or.inr (.later hvalue hstops hfaulty)
      · exact Or.inr (.here hfaulty)

end

end Settles

section Raises

variable {getType : ExtractTypeClosure} {actions : List Action}
  {operations : List OpTreeNode} {w w' : World} {e : RuntimeError}

/-- The error of a field outside the loops ends the actions. -/
theorem FieldRaises.evaluateInOrder
    (h : FieldRaises getType actions w e w')
    (hoperations : actionsToOptreenodes .write getType actions =
      .ok operations) :
    ∃ values, EvaluateInOrder false operations w values w' ∧
      values.getLast? = some (.runtimeError e) := by
  induction h generalizing operations with
  | @here identifier escape rest tree w w' e hvisit htree =>
      obtain ⟨operation, others, hoperation, _, rfl⟩ :=
        actionsToOptreenodes_cons hoperations
      obtain rfl := Except.ok.inj (hvisit.symm.trans hoperation)
      exact ⟨[.runtimeError e], .stop htree rfl, rfl⟩
  | @later action rest operation value w w₁ w' e hvisit hvalue hgoes _ ih =>
      obtain ⟨operation', others, hoperation, hothers, rfl⟩ :=
        actionsToOptreenodes_cons hoperations
      obtain rfl := Except.ok.inj (hvisit.symm.trans hoperation)
      obtain ⟨values, hvalues, hlast⟩ := ih hothers
      refine ⟨value :: values, .cons hvalue hgoes hvalues, ?_⟩
      cases values with
      | nil => contradiction
      | cons next values => rwa [List.getLast?_cons_cons]

/-- Only a field yields an error. -/
theorem visitAction_error {action : Action} {operation : OpTreeNode}
    (hoperation : visitAction .write getType action = .ok operation)
    (h : operation.Evaluates false w (.runtimeError e) w')
    (rest : List Action) : FieldRaises getType (action :: rest) w e w' := by
  cases action with
  | readOctetsUntilTerminator _ _ _ | readStaticOctets _ => contradiction
  | writeFromIdentifier identifier escape => exact .here hoperation h
  | writeStaticOctets octets =>
      obtain rfl := Except.ok.inj hoperation
      have heq := (h.unique (evaluates_writeStaticOctets octets)).1
      contradiction
  | loop loopVariable collection terminator body =>
      rw [visitAction] at hoperation
      obtain ⟨wrapper, _, hoperation⟩ := bind_eq_ok hoperation
      obtain ⟨operations, hoperations, hoperation⟩ := bind_eq_ok hoperation
      obtain rfl := Except.ok.inj hoperation
      rcases writeLoop_goes loopVariable.name collection.name terminator
          (fun w => actionsToOptreenodes_settle hoperations w) w with
        ⟨value, w₁, hvalue, hgoes⟩ | hfaulty
      · rw [← (h.unique hvalue).1] at hgoes
        contradiction
      · exact (hfaulty.not_runsTo h.runsTo).elim

/-- An error that ends the actions is that of a field outside the loops. -/
theorem FieldRaises.of_evaluateInOrder
    (hoperations : actionsToOptreenodes .write getType actions =
      .ok operations)
    {values : List Value} (h : EvaluateInOrder false operations w values w')
    (hlast : values.getLast? = some (.runtimeError e)) :
    FieldRaises getType actions w e w' := by
  induction actions generalizing operations w values with
  | nil =>
      obtain rfl := Except.ok.inj hoperations
      cases h
      contradiction
  | cons action actions ih =>
      obtain ⟨operation, others, hoperation, hothers, rfl⟩ :=
        actionsToOptreenodes_cons hoperations
      cases h with
      | stop hvalue _ =>
          obtain rfl := Option.some.inj hlast
          exact visitAction_error hoperation hvalue actions
      | @cons _ _ _ w₁ _ value values hvalue hgoes hrest =>
          refine .later hoperation hvalue hgoes (ih hothers hrest ?_)
          cases values with
          | nil =>
              obtain rfl := Option.some.inj hlast
              contradiction
          | cons next values => rwa [List.getLast?_cons_cons] at hlast

/-- The values go through, or the last of them stops. -/
theorem OpTreeNode.EvaluateInOrder.runsThrough_or {eof : Bool}
    {nodes : List OpTreeNode} {values : List Value}
    (h : EvaluateInOrder eof nodes w values w') :
    RunsThrough values ∨
      ∃ value, values.getLast? = some value ∧ value.stops = true := by
  induction h with
  | nil w => exact Or.inl fun _ hvalue => absurd hvalue List.not_mem_nil
  | @stop _ _ _ _ value _ hstops => exact Or.inr ⟨value, rfl, hstops⟩
  | @cons _ _ _ _ _ value values _ hgoes _ ih =>
      rcases ih with hthrough | ⟨last, hlast, hstops⟩
      · exact Or.inl (List.forall_mem_cons.mpr ⟨hgoes, hthrough⟩)
      · refine Or.inr ⟨last, ?_, hstops⟩
        cases values with
        | nil => contradiction
        | cons next values => rwa [List.getLast?_cons_cons]

/-- The transition ends with the error of a field outside the loops. -/
theorem FieldRaises.transition (h : FieldRaises getType actions w e w')
    (hoperations : actionsToOptreenodes .write getType actions =
      .ok operations) :
    (transitionOptree operations).Evaluates false w (.runtimeError e) w' := by
  obtain ⟨values, hvalues, hlast⟩ := h.evaluateInOrder hoperations
  exact transitionOptree_stopped hvalues hlast rfl

/-- A transition that ends with an error ends with that of a field outside the
loops. -/
theorem FieldRaises.of_transition
    (hoperations : actionsToOptreenodes .write getType actions =
      .ok operations)
    (h : (transitionOptree operations).Evaluates false w (.runtimeError e)
      w') : FieldRaises getType actions w e w' := by
  rcases actionsToOptreenodes_settle hoperations w with
    ⟨values, w₁, hvalues⟩ | hfaulty
  · rcases hvalues.runsThrough_or with hthrough | ⟨value, hlast, hstops⟩
    · have heq := (h.unique (transitionOptree_evaluates hvalues hthrough)).1
      contradiction
    · obtain ⟨rfl, rfl⟩ :=
        h.unique (transitionOptree_stopped hvalues hlast hstops)
      exact .of_evaluateInOrder hoperations hvalues hlast
  · have hmeets : (transitionOptree operations).Meets false Faulty w :=
      MeetsInOrder.meets .opSequence (.here (hfaulty.meets .opSequence))
    exact (hmeets.not_runsTo h.runsTo).elim

end Raises

/-- The errors of all fields end the transition where they are yielded, if and
only if no field in a loop's element yields one, or what follows it is, before
another byte is written, the same error of a field outside the loops. -/
theorem write_errors_stop_iff {data : MessageData} {actions : List Action}
    {tree : OpTreeNode}
    (htree : generateTransitionOptree (.writeTransition data actions) =
      .ok tree) (members : Bindings) (w : World) :
    (∀ e w', FieldRaises (extractType data) actions
          { w with pad := transitionPad tree data members w.pad } e w' ∨
        ElementRaises (extractType data) actions
          { w with pad := transitionPad tree data members w.pad } e w' →
      StopsWith data tree members w e w'.output) ↔
    ∀ e w', ElementRaises (extractType data) actions
        { w with pad := transitionPad tree data members w.pad } e w' →
      ∃ w'', FieldRaises (extractType data) actions
          { w with pad := transitionPad tree data members w.pad } e w'' ∧
        w''.output = w'.output := by
  obtain ⟨operations, hoperations, htree⟩ := bind_eq_ok htree
  obtain rfl := Except.ok.inj htree
  constructor
  · intro hstops e w' hraises
    obtain ⟨w'', hevaluates, houtput⟩ :=
      (hstops e w' (Or.inr hraises)).transition
    exact ⟨w'', .of_transition hoperations hevaluates, houtput⟩
  · rintro hfollowed e w' (hraises | hraises)
    · exact .of_evaluates (hraises.transition hoperations)
    · obtain ⟨w'', hfield, houtput⟩ := hfollowed e w' hraises
      rw [← houtput]
      exact .of_evaluates (hfield.transition hoperations)

/-- `for line in lines` as a message of its own. -/
def lineLoop : List Action :=
  [.loop (.mk "line" none) (.mk "lines" none) [10] lineWrites]

def lineTree : OpTreeNode := transitionOptree [lineLoopWrite]

theorem lineLoop_generates :
    generateTransitionOptree (.writeTransition [("lines", linesType)]
      lineLoop) = .ok lineTree := by
  change (actionsToOptreenodes .write (extractType [("lines", linesType)])
    lineLoop).map transitionOptree = _
  rw [lineLoop, actionsToOptreenodes, lineLoop_write]
  rfl

/-- The lines the callback returned: one that has no text. -/
def textlessLines : Bindings :=
  [("lines", .dynamicList [.dictionary []])]

def textlessWorld : World :=
  ⟨transitionPad lineTree [("lines", linesType)] textlessLines (.root []), 0,
    [], []⟩

/-- The text of the line is looked for in vain. -/
theorem textless_element :
    ∃ tree, visitWriteFromIdentifier lineGetType
        (.mk "line" (some (.mk "text" none))) none = .ok tree ∧
      lineWriteOperations.head? = some tree ∧
      ∀ pad errno input output, pad.get "line" = .dictionary [] →
        tree.Evaluates false ⟨pad, errno, input, output⟩
          (.runtimeError .nameError) ⟨pad, errno, input, output⟩ := by
  obtain ⟨tree, rest, htree, _, hoperations⟩ :=
    actionsToOptreenodes_cons lineWrites_operations
  refine ⟨tree, htree, by rw [hoperations]; rfl, ?_⟩
  intro pad errno input output hline
  obtain ⟨rfl, _⟩ := List.cons.inj hoperations
  have hvariable := @evaluates_lexicalPadGet false []
    ⟨pad, errno, input, output⟩ "line"
  have hmember := evaluates_dictionaryGet "text" hvariable
  simp only [hline] at hmember
  exact evaluates_write_error rfl hmember rfl

theorem write_errors_stop_iff_line :
    (∀ e w', FieldRaises (extractType [("lines", linesType)]) lineLoop
          textlessWorld e w' ∨
        ElementRaises (extractType [("lines", linesType)]) lineLoop
          textlessWorld e w' →
      StopsWith [("lines", linesType)] lineTree textlessLines
        ⟨.root [], 0, [], []⟩ e w'.output) ↔
    ∀ e w', ElementRaises (extractType [("lines", linesType)]) lineLoop
        textlessWorld e w' →
      ∃ w'', FieldRaises (extractType [("lines", linesType)]) lineLoop
          textlessWorld e w'' ∧ w''.output = w'.output :=
  write_errors_stop_iff lineLoop_generates textlessLines
    ⟨.root [], 0, [], []⟩

/-- The line without a text is left out, the line feed that ends the list is
written and the transition ends with the dictionary. -/
theorem missing_text_is_swallowed :
    (∃ members w', lineTree.RunsTo false textlessWorld
        (.dynamicList [.dictionary members]) w' ∧ w'.output = [[10]]) ∧
      ¬ ∀ e w', FieldRaises (extractType [("lines", linesType)]) lineLoop
            textlessWorld e w' ∨
          ElementRaises (extractType [("lines", linesType)]) lineLoop
            textlessWorld e w' →
        StopsWith [("lines", linesType)] lineTree textlessLines
          ⟨.root [], 0, [], []⟩ e w'.output := by
  obtain ⟨tree, htree, hhead, hraises⟩ := textless_element
  let inner : World := { textlessWorld with
    pad := Interpreter.calleePad (writeElement "line" lineWriteOperations)
      textlessWorld.pad [.dictionary []] }
  have herror : tree.Evaluates false inner (.runtimeError .nameError) inner :=
    hraises _ _ _ _ rfl
  have helement : (writeElement "line" lineWriteOperations).Evaluates false
      [.dictionary []] textlessWorld (.runtimeError .nameError)
        textlessWorld := by
    obtain rfl := Option.some.inj hhead
    exact ⟨inner, EvaluateInOrder.evaluates .opSequence (.stop herror rfl),
      rfl⟩
  have hlist : (lexicalPadGet "lines").Evaluates false textlessWorld
      (.dynamicList [.dictionary []]) textlessWorld :=
    evaluates_lexicalPadGet "lines"
  have hloop := evaluates_functionCallForEach (List.cons_ne_nil _ _)
    evaluates_staticCallable hlist (.cons helement (.nil _))
  have hend := @evaluates_writeStaticOctets [] textlessWorld [10]
  have hwritten := EvaluateInOrder.evaluates .opSequence
    (.cons hloop rfl (.cons hend rfl (.nil _)))
  have hthrough : RunsThrough [Value.int32 0] :=
    List.forall_mem_singleton.mpr rfl
  have htransition : lineTree.Evaluates false textlessWorld _ _ :=
    transitionOptree_evaluates (.cons hwritten rfl (.nil _)) hthrough
  refine ⟨⟨_, _, htransition.runsTo, rfl⟩, fun hstops => ?_⟩
  have hreaches : ReachesElement (extractType [("lines", linesType)])
      (.mk "line" none) (.mk "lines" none) lineWrites textlessWorld
        lineGetType inner :=
    @ReachesElement.intro _ _ _ _ _ _ _ [] [] _ _ _ rfl lineWrites_operations
      rfl (.nil _)
  obtain ⟨w', hevaluates, _⟩ := (hstops .nameError inner
    (Or.inr (.field hreaches (.here htree herror)))).transition
  have heq := (htransition.unique hevaluates).1
  contradiction

end NetworkProtocolDsl
