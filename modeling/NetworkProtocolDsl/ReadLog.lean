/-
What a read transition reads and stores.

A static piece stores nothing, a field what its reader yields.  A loop stores
what its body stores below the variable of the loop, and then a list in its
collection.  Every operation yields a value of its own, for a store the old
value of the name, and a value that stops the sequence it is in is a failure.
-/
import NetworkProtocolDsl.LoopRoundTrip
import NetworkProtocolDsl.MemberPath
import NetworkProtocolDsl.ReadEvaluation

namespace NetworkProtocolDsl

open Generate OpTreeNode EvaluateInOrder IdentifierReference RunnerState

section OnlyReads

theorem onlyReads_readValueFromOctets {type : DataType} {terminator : Octets}
    {escape : Option EscapeInfo} {reader : OpTreeNode}
    (h : readValueFromOctets type terminator escape = .ok reader) :
    reader.OnlyReads := by
  obtain ⟨children, rfl⟩ := readValueFromOctets_eq_ok h
  refine .read ?_
  unfold fieldReader
  split <;> trivial

theorem onlyReads_lexicalPadGet (name : String) :
    (lexicalPadGet name).OnlyReads :=
  .lexicalPad (Nat.le_refl 0) fun _ h => absurd h List.not_mem_nil

theorem onlyReads_lexicalPadSet (name : String) {value : OpTreeNode}
    (h : value.OnlyReads) : (lexicalPadSet name value).OnlyReads :=
  .lexicalPad (Nat.le_refl 1) fun _ hchild => List.mem_singleton.mp hchild ▸ h

theorem onlyReads_opSequence {children : List OpTreeNode}
    (h : ∀ child ∈ children, child.OnlyReads) :
    (opSequence children).OnlyReads :=
  .dynamicInput h

theorem onlyReads_dictionaryGet (name : String) {value : OpTreeNode}
    (h : value.OnlyReads) :
    (OpTreeNode.mk (.interpreted (.dictionaryGet name)) [value]).OnlyReads :=
  .interpreted (Nat.le_refl 1) fun _ hchild => List.mem_singleton.mp hchild ▸ h

/-- Setting a member reads if getting the variable and the value do. -/
theorem onlyReads_recursiveVariableAccess (identifier : IdentifierReference)
    {type lastType : DataType} {currentAccess lastAccess : OpTreeNode}
    {valueToWrite : GenerateOpTreeValueFromType}
    (hcurrent : currentAccess.OnlyReads)
    (hvalue : ∀ type access, valueToWrite type = .ok access → access.OnlyReads)
    (h : recursiveVariableAccess type identifier currentAccess
      (some valueToWrite) = .ok (lastAccess, lastType)) :
    lastAccess.OnlyReads := by
  match identifier with
  | .mk name member =>
      rw [recursiveVariableAccess.eq_def] at h
      obtain ⟨parameter, _, h⟩ := bind_eq_ok h
      cases parameter with
      | boolean _ | integer _ | string _ => contradiction
      | type memberType =>
          cases member with
          | none =>
              obtain ⟨valueAccess, haccess, h⟩ := bind_eq_ok h
              obtain ⟨rfl, rfl⟩ := Prod.mk.inj (Except.ok.inj h)
              refine .interpreted (Nat.le_refl 2) fun child hchild => ?_
              rcases List.mem_cons.mp hchild with rfl | hchild
              · exact hcurrent
              · rw [List.mem_singleton.mp hchild]
                exact hvalue memberType valueAccess haccess
          | some member =>
              simp only at h
              split at h
              · exact onlyReads_recursiveVariableAccess member
                  (onlyReads_dictionaryGet name hcurrent) hvalue h
              · contradiction

theorem onlyReads_visitReadOctetsUntilTerminator {getType : ExtractTypeClosure}
    {terminator : Octets} {identifier : IdentifierReference}
    {escape : Option EscapeInfo} {tree : OpTreeNode}
    (h : visitReadOctetsUntilTerminator getType terminator identifier escape =
      .ok tree) : tree.OnlyReads := by
  obtain ⟨type, _, h⟩ := bind_eq_ok h
  match identifier with
  | .mk name none =>
      obtain ⟨reader, hreader, h⟩ := bind_eq_ok h
      obtain rfl := Except.ok.inj h
      exact onlyReads_lexicalPadSet name (onlyReads_readValueFromOctets hreader)
  | .mk name (some member) =>
      obtain ⟨⟨lastAccess, lastType⟩, haccess, h⟩ := bind_eq_ok h
      obtain rfl := Except.ok.inj h
      exact onlyReads_lexicalPadSet name
        (onlyReads_recursiveVariableAccess member
          (onlyReads_lexicalPadGet name)
          (fun _ _ => onlyReads_readValueFromOctets) haccess)

theorem onlyReads_readElement (loopVariable : String) (terminator : Octets)
    {operations : List OpTreeNode}
    (h : ∀ operation ∈ operations, operation.OnlyReads) :
    (readElement loopVariable terminator operations).tree.OnlyReads := by
  have hdictionary : (OpTreeNode.mk (.interpreted .dictionaryInitialize)
      []).OnlyReads :=
    .interpreted (Nat.le_refl 0) fun _ h => absurd h List.not_mem_nil
  refine onlyReads_opSequence fun child hchild => ?_
  simp only [List.mem_cons, List.not_mem_nil, or_false] at hchild
  rcases hchild with rfl | rfl | rfl | rfl
  · exact .lexicalPad (Nat.le_refl 1) fun _ hchild =>
      List.mem_singleton.mp hchild ▸ hdictionary
  · exact onlyReads_opSequence h
  · exact .read trivial
  · exact onlyReads_lexicalPadGet loopVariable

mutual

/-- The operation of a part that is read only reads. -/
theorem visitAction_onlyReads (getType : ExtractTypeClosure) (action : Action)
    {operation : OpTreeNode}
    (h : visitAction .read getType action = .ok operation) :
    operation.OnlyReads := by
  match action with
  | .readOctetsUntilTerminator terminator identifier escape =>
      rw [visitAction] at h
      exact onlyReads_visitReadOctetsUntilTerminator h
  | .readStaticOctets octets =>
      rw [visitAction] at h
      rw [← Except.ok.inj h]
      exact .read trivial
  | .writeFromIdentifier _ _ | .writeStaticOctets _ =>
      rw [visitAction] at h
      contradiction
  | .loop loopVariable collection terminator actions =>
      rw [visitAction] at h
      obtain ⟨wrapper, _, h⟩ := bind_eq_ok h
      obtain ⟨operations, hoperations, h⟩ := bind_eq_ok h
      obtain ⟨initialOperation, hinitial, h⟩ := bind_eq_ok h
      obtain rfl := Except.ok.inj h
      obtain rfl := initializeLoopVariable_eq_ok hinitial
      exact onlyReads_lexicalPadSet _ (.generateList
        (onlyReads_readElement _ _
          (actionsToOptreenodes_onlyReads wrapper actions hoperations)))

theorem actionsToOptreenodes_onlyReads (getType : ExtractTypeClosure)
    (actions : List Action) {operations : List OpTreeNode}
    (h : actionsToOptreenodes .read getType actions = .ok operations) :
    ∀ operation ∈ operations, operation.OnlyReads := by
  match actions with
  | [] =>
      rw [actionsToOptreenodes] at h
      rw [← Except.ok.inj h]
      exact fun _ h => absurd h List.not_mem_nil
  | action :: actions =>
      rw [actionsToOptreenodes] at h
      obtain ⟨operation, hoperation, h⟩ := bind_eq_ok h
      obtain ⟨operations, hoperations, h⟩ := bind_eq_ok h
      obtain rfl := Except.ok.inj h
      intro other hother
      rcases List.mem_cons.mp hother with rfl | hother
      · exact visitAction_onlyReads getType action hoperation
      · exact actionsToOptreenodes_onlyReads getType actions hoperations other
          hother

end

end OnlyReads

/-- What a part of a message stores: a field that it reads whole, a variable of
which it reads a member, or the collection of a loop. -/
inductive StoreKind where
  | field
  | member
  | loop
deriving DecidableEq, Repr

/-- A store: what was read, and what the name is set to. -/
structure Stored where
  name : String
  kind : StoreKind
  read : Value
  value : Value

/-- The stores that were made, and the values that stop what they are in. -/
structure ReadLog where
  stores : List Stored
  failures : List Value

namespace ReadLog

instance : Append ReadLog where
  append first rest :=
    ⟨first.stores ++ rest.stores, first.failures ++ rest.failures⟩

def empty : ReadLog := ⟨[], []⟩

@[simp] theorem append_stores (first rest : ReadLog) :
    (first ++ rest).stores = first.stores ++ rest.stores :=
  rfl

@[simp] theorem append_failures (first rest : ReadLog) :
    (first ++ rest).failures = first.failures ++ rest.failures :=
  rfl

end ReadLog

/-- The world in which the body of a loop reads an element. -/
def World.startElement (w : World) (loopVariable : String) : World :=
  { w with pad := .child [(loopVariable, .dictionary [])] w.pad }

/-- The rounds of a loop: the values of the body up to the one that ends the
loop, and what the variable of the loop held at the end of each round. -/
inductive ReadsRounds (eof : Bool) (element : Callable) (loopVariable : String)
    (body : World → ReadLog → World → Prop) :
    World → List Value → Value → ReadLog → List Value → World → Prop where
  | last {w middle w' : World} {stop : Value} {log : ReadLog} :
      element.Evaluates eof [] w stop w' → stop.stops = true →
      body (w.startElement loopVariable) log middle →
      w'.pad = LexicalPad.afterCall true w.pad middle.pad →
      ReadsRounds eof element loopVariable body w [] stop log
        [middle.pad.get loopVariable] w'
  | next {w middle w₁ w' : World} {value stop : Value}
      {values elements : List Value} {log rest : ReadLog} :
      element.Evaluates eof [] w value w₁ → value.stops = false →
      body (w.startElement loopVariable) log middle →
      w₁.pad = LexicalPad.afterCall true w.pad middle.pad →
      ReadsRounds eof element loopVariable body w₁ values stop rest elements
        w' →
      ReadsRounds eof element loopVariable body w (value :: values) stop
        (log ++ rest) (middle.pad.get loopVariable :: elements) w'

namespace Action

def fieldKind (identifier : IdentifierReference) : StoreKind :=
  if identifier.member.isNone then .field else .member

/-- The store of a field, whose reader yields `written`. -/
def storeField (identifier : IdentifierReference) (pad : LexicalPad)
    (written : Value) : Stored :=
  ⟨identifier.name, fieldKind identifier, written,
    identifier.storedValue pad written⟩

/-- The stores a loop makes outside of its body's scope. -/
def storeLoop (loopVariable collection : IdentifierReference)
    (inner : List Stored) (elements : List Value) (outcome : Value) :
    List Stored :=
  inner.filter (fun stored => stored.name ≠ loopVariable.name) ++
    [⟨collection.name, .loop, .dynamicList elements, outcome⟩]

mutual

/-- What a part reads and stores: a static piece nothing, a field what its
reader yields, a loop what its body stores and then the list in its collection.
The value is the one its operation yields. -/
def Reads (eof : Bool) (getType : ExtractTypeClosure) :
    Action → World → Value → ReadLog → World → Prop
  | .readStaticOctets octets => fun w value log w' =>
      (OpTreeNode.mk (.inputOutput (.readStaticOctets octets)) []).Evaluates eof
        w value w' ∧ w'.pad = w.pad ∧ log = ⟨[], [value].filter Value.stops⟩
  | .readOctetsUntilTerminator terminator identifier escape =>
      fun w value log w' => ∃ type reader written w₁,
        fieldType getType identifier = some type ∧
        readValueFromOctets type terminator escape = .ok reader ∧
        reader.Evaluates eof w written w₁ ∧ w₁.pad = w.pad ∧
        value = (w.pad.set identifier.name
          (identifier.storedValue w.pad written)).1 ∧
        log = ⟨[storeField identifier w.pad written],
          [written, value].filter Value.stops⟩ ∧
        w' = { w₁ with pad := (w.pad.set identifier.name
          (identifier.storedValue w.pad written)).2 }
  | .loop loopVariable collection terminator actions =>
      fun w value log w' => ∃ getTypeWrapper operations values stop inner
          elements w₁,
        createGetTypeWrapper getType loopVariable.name collection.name =
          .ok getTypeWrapper ∧
        actionsToOptreenodes .read getTypeWrapper actions = .ok operations ∧
        ReadsRounds eof (readElement loopVariable.name terminator operations)
          loopVariable.name (fun w log w' =>
            ∃ results, ReadsAll eof getTypeWrapper actions w results log w')
          w values stop inner elements w₁ ∧
        value = (w₁.pad.set collection.name
          (GenerateList.outcome values stop)).1 ∧
        log = ⟨storeLoop loopVariable collection inner.stores elements
            (GenerateList.outcome values stop),
          inner.failures ++
            [GenerateList.outcome values stop, value].filter Value.stops⟩ ∧
        w' = { w₁ with pad := (w₁.pad.set collection.name
          (GenerateList.outcome values stop)).2 }
  | .writeFromIdentifier _ _ => fun _ _ _ _ => False
  | .writeStaticOctets _ => fun _ _ _ _ => False

/-- The parts are read one after the other, until a value stops them. -/
def ReadsAll (eof : Bool) (getType : ExtractTypeClosure) :
    List Action → World → List Value → ReadLog → World → Prop
  | [] => fun w values log w' => values = [] ∧ log = .empty ∧ w' = w
  | action :: actions => fun w values log w' => ∃ value first w₁,
      Reads eof getType action w value first w₁ ∧
        (value.stops = true ∧ values = [value] ∧ log = first ∧ w' = w₁ ∨
          value.stops = false ∧ ∃ others rest,
            ReadsAll eof getType actions w₁ others rest w' ∧
              values = value :: others ∧ log = first ++ rest)

end

end Action

section Runs

variable {eof : Bool} {getType : ExtractTypeClosure} {w w' : World}
  {value : Value}

/-- To set a member its value was evaluated. -/
theorem recursiveVariableAccess_written (identifier : IdentifierReference)
    {type lastType : DataType} {currentAccess lastAccess : OpTreeNode}
    {current : Value} {valueToWrite : GenerateOpTreeValueFromType}
    (hcurrent : currentAccess.Evaluates eof w current w)
    (hreads : ∀ type access, valueToWrite type = .ok access →
      access.OnlyReads)
    (h : recursiveVariableAccess type identifier currentAccess
      (some valueToWrite) = .ok (lastAccess, lastType))
    (hvalue : lastAccess.Evaluates eof w value w') :
    ∃ valueAccess written w₁, valueToWrite lastType = .ok valueAccess ∧
      valueAccess.Evaluates eof w written w₁ := by
  match identifier with
  | .mk name member =>
      rw [recursiveVariableAccess.eq_def] at h
      obtain ⟨parameter, _, h⟩ := bind_eq_ok h
      cases parameter with
      | boolean _ | integer _ | string _ => contradiction
      | type memberType =>
          cases member with
          | none =>
              obtain ⟨valueAccess, haccess, h⟩ := bind_eq_ok h
              obtain ⟨rfl, rfl⟩ := Prod.mk.inj (Except.ok.inj h)
              obtain ⟨written, w₁, hwritten⟩ := OnlyReads.second rfl hcurrent
                (hreads memberType valueAccess haccess) hvalue
              exact ⟨valueAccess, written, w₁, haccess, hwritten⟩
          | some member =>
              simp only at h
              split at h
              · exact recursiveVariableAccess_written member
                  (evaluates_dictionaryGet name hcurrent) hreads h hvalue
              · contradiction

/-- To store a field its value was read. -/
theorem visitReadOctetsUntilTerminator_written {terminator : Octets}
    {identifier : IdentifierReference} {escape : Option EscapeInfo}
    {tree : OpTreeNode}
    (h : visitReadOctetsUntilTerminator getType terminator identifier escape =
      .ok tree) (hvalue : tree.Evaluates eof w value w') :
    ∃ type reader written w₁, fieldType getType identifier = some type ∧
      readValueFromOctets type terminator escape = .ok reader ∧
      reader.Evaluates eof w written w₁ := by
  obtain ⟨type, htype, h⟩ := bind_eq_ok h
  have hlookup := orNullopt_eq_ok htype
  match identifier with
  | .mk name none =>
      obtain ⟨reader, hreader, h⟩ := bind_eq_ok h
      obtain rfl := Except.ok.inj h
      obtain ⟨written, w₁, hwritten⟩ := OnlyReads.argument rfl
        (onlyReads_readValueFromOctets hreader) hvalue
      exact ⟨type, reader, written, w₁, hlookup, hreader, hwritten⟩
  | .mk name (some member) =>
      obtain ⟨⟨lastAccess, lastType⟩, haccess, h⟩ := bind_eq_ok h
      obtain rfl := Except.ok.inj h
      have hget : (lexicalPadGet name).Evaluates eof w (w.pad.get name) w :=
        evaluates_lexicalPadGet name
      have hreads : ∀ type access,
          readValueFromOctets type terminator escape = .ok access →
            access.OnlyReads := fun _ _ => onlyReads_readValueFromOctets
      obtain ⟨_, w₁, hlast⟩ := OnlyReads.argument rfl
        (onlyReads_recursiveVariableAccess member
          (onlyReads_lexicalPadGet name) hreads haccess) hvalue
      obtain ⟨reader, written, w₂, hreader, hwritten⟩ :=
        recursiveVariableAccess_written member hget hreads haccess hlast
      refine ⟨lastType, reader, written, w₂, ?_, hreader, hwritten⟩
      have hmember := (recursiveVariableAccess_set eof w member hget
        haccess).1
      simp only [fieldType]
      rw [show getType name = some type from hlookup, Option.bind_some,
        hmember]

/-- Nodes that leave the pad leave it one after the other. -/
theorem OpTreeNode.EvaluateInOrder.pad_eq {nodes : List OpTreeNode} {values : List Value}
    (h : EvaluateInOrder eof nodes w values w')
    (hpad : ∀ node ∈ nodes, ∀ w value w', node.Evaluates eof w value w' →
      w'.pad = w.pad) : w'.pad = w.pad := by
  induction h with
  | nil w => rfl
  | stop hvalue _ => exact hpad _ List.mem_cons_self _ _ _ hvalue
  | cons hvalue _ _ ih =>
      exact (ih fun node hnode => hpad node (List.mem_cons_of_mem _ hnode)).trans
        (hpad _ List.mem_cons_self _ _ _ hvalue)

/-- One round of a loop reads the parts of its body. -/
theorem readElement_reads {loopVariable : String} {terminator : Octets}
    {operations : List OpTreeNode}
    (hreads : ∀ operation ∈ operations, operation.OnlyReads)
    (h : (readElement loopVariable terminator operations).Evaluates eof [] w
      value w') :
    ∃ results middle, EvaluateInOrder eof operations
        (w.startElement loopVariable) results middle ∧
      w'.pad = LexicalPad.afterCall true w.pad middle.pad := by
  obtain ⟨w₁, hbody, rfl⟩ := h
  have htree := onlyReads_readElement loopVariable terminator hreads
  have hrestPad : ∀ node ∈ [OpTreeNode.mk (.inputOutput
      (.terminateListIfReadAhead terminator)) [], lexicalPadGet loopVariable],
      ∀ w value w', node.Evaluates eof w value w' → w'.pad = w.pad := by
    intro node hnode w value w' hvalue
    simp only [List.mem_cons, List.not_mem_nil, or_false] at hnode
    have hterminate : (InputOutputOperation.terminateListIfReadAhead
        terminator).Reads := trivial
    rcases hnode with rfl | rfl
    · exact read_pad hterminate hvalue
    · obtain ⟨_, rfl⟩ :=
        (evaluates_lexicalPadGet loopVariable).unique hvalue
      rfl
  have hinitialize : (OpTreeNode.mk
      (.lexicalPad (.lexicalPadInitialize loopVariable))
      [.mk (.interpreted .dictionaryInitialize) []]).Evaluates eof
        { w with pad := .child [] w.pad } (.dictionary [])
        (w.startElement loopVariable) :=
    evaluates_lexicalPadInitialize _ (evaluates_interpreted rfl rfl)
  cases htree with
  | dynamicInput hchildren =>
      obtain ⟨values, horder, _⟩ := OnlyReads.inOrder hchildren hbody.runsTo
      cases horder with
      | stop hfirst hstops =>
          obtain ⟨rfl, _⟩ := hinitialize.unique hfirst
          contradiction
      | cons hfirst _ hrest =>
          obtain ⟨_, rfl⟩ := hinitialize.unique hfirst
          cases hrest with
          | stop hsequence _ =>
              obtain ⟨results, hoperations, _⟩ := OnlyReads.inOrder hreads
                hsequence.runsTo
              exact ⟨results, w₁, hoperations, rfl⟩
          | @cons _ _ _ middle _ _ _ hsequence _ hrest =>
              obtain ⟨results, hoperations, _⟩ := OnlyReads.inOrder hreads
                hsequence.runsTo
              exact ⟨results, middle, hoperations,
                congrArg (LexicalPad.afterCall true w.pad)
                  (hrest.pad_eq hrestPad)⟩

theorem ReadsRounds.of_rounds {loopVariable : String} {terminator : Octets}
    {operations : List OpTreeNode} {body : World → ReadLog → World → Prop}
    (hreads : ∀ operation ∈ operations, operation.OnlyReads)
    (hbody : ∀ w results w', EvaluateInOrder eof operations w results w' →
      ∃ log, body w log w') {values : List Value} {stop : Value}
    (h : (readElement loopVariable terminator operations).Rounds eof w values
      stop w') :
    ∃ log elements, ReadsRounds eof
      (readElement loopVariable terminator operations) loopVariable body w
      values stop log elements w' := by
  induction h with
  | last hvalue hstops =>
      obtain ⟨results, middle, hoperations, hpad⟩ :=
        readElement_reads hreads hvalue
      obtain ⟨log, hlog⟩ := hbody _ _ _ hoperations
      exact ⟨log, _, .last hvalue hstops hlog hpad⟩
  | next hvalue hgoes _ ih =>
      obtain ⟨results, middle, hoperations, hpad⟩ :=
        readElement_reads hreads hvalue
      obtain ⟨log, hlog⟩ := hbody _ _ _ hoperations
      obtain ⟨rest, elements, hrest⟩ := ih
      exact ⟨log ++ rest, _, .next hvalue hgoes hlog hpad hrest⟩

mutual

/-- What the operation of a part evaluates to, the part reads. -/
theorem Action.reads_of_evaluates (getType : ExtractTypeClosure)
    (action : Action) {operation : OpTreeNode}
    (hoperation : visitAction .read getType action = .ok operation)
    {w w' : World} {value : Value}
    (h : operation.Evaluates eof w value w') :
    ∃ log, action.Reads eof getType w value log w' := by
  match action with
  | .readOctetsUntilTerminator terminator identifier escape =>
      rw [visitAction] at hoperation
      obtain ⟨type, reader, written, w₁, htype, hreader, hwritten⟩ :=
        visitReadOctetsUntilTerminator_written hoperation h
      obtain ⟨type', reader', htype', hreader', hevaluates⟩ :=
        visitReadOctetsUntilTerminator_stores hoperation
      obtain rfl := Option.some.inj (htype.symm.trans htype')
      obtain rfl := Except.ok.inj (hreader.symm.trans hreader')
      have hpad : w₁.pad = w.pad := by
        obtain ⟨children, rfl⟩ := readValueFromOctets_eq_ok hreader
        refine read_pad ?_ hwritten
        unfold fieldReader
        split <;> trivial
      obtain ⟨hvalue, hworld⟩ := h.unique (hevaluates hwritten)
      rw [hpad] at hvalue hworld
      exact ⟨_, type, reader, written, w₁, htype, hreader, hwritten, hpad,
        hvalue, rfl, hworld⟩
  | .readStaticOctets octets =>
      rw [visitAction] at hoperation
      obtain rfl := Except.ok.inj hoperation
      have hreads : (InputOutputOperation.readStaticOctets octets).Reads :=
        trivial
      exact ⟨_, h, read_pad hreads h, rfl⟩
  | .writeFromIdentifier _ _ | .writeStaticOctets _ =>
      rw [visitAction] at hoperation
      contradiction
  | .loop loopVariable collection terminator actions =>
      rw [visitAction] at hoperation
      obtain ⟨wrapper, hwrapper, hoperation⟩ := bind_eq_ok hoperation
      obtain ⟨operations, hoperations, hoperation⟩ := bind_eq_ok hoperation
      obtain ⟨initialOperation, hinitial, hoperation⟩ := bind_eq_ok hoperation
      obtain rfl := Except.ok.inj hoperation
      obtain rfl := initializeLoopVariable_eq_ok hinitial
      have hreads := actionsToOptreenodes_onlyReads wrapper actions hoperations
      have htree := onlyReads_readElement loopVariable.name terminator hreads
      obtain ⟨outcome, w₁, hlist⟩ := OnlyReads.argument rfl
        (OnlyReads.generateList htree) h
      obtain ⟨hvalue, hworld⟩ := h.unique
        (evaluates_lexicalPadSet collection.name hlist)
      obtain ⟨values, stop, hrounds, rfl⟩ := OnlyReads.rounds htree hlist
      have hbody : ∀ w results w', EvaluateInOrder eof operations w results
          w' → ∃ log results, ReadsAll eof wrapper actions w results log w' := by
        intro w results w' horder
        obtain ⟨log, hlog⟩ := Action.readsAll_of_evaluates wrapper actions
          hoperations horder
        exact ⟨log, results, hlog⟩
      obtain ⟨log, elements, hrounds⟩ := ReadsRounds.of_rounds hreads hbody
        hrounds
      exact ⟨_, wrapper, operations, values, stop, log, elements, w₁, hwrapper,
        hoperations, hrounds, hvalue, rfl, hworld⟩

theorem Action.readsAll_of_evaluates (getType : ExtractTypeClosure)
    (actions : List Action) {operations : List OpTreeNode}
    (hoperations : actionsToOptreenodes .read getType actions =
      .ok operations) {w w' : World} {results : List Value}
    (h : EvaluateInOrder eof operations w results w') :
    ∃ log, ReadsAll eof getType actions w results log w' := by
  match actions with
  | [] =>
      rw [actionsToOptreenodes] at hoperations
      obtain rfl := Except.ok.inj hoperations
      cases h
      exact ⟨.empty, rfl, rfl, rfl⟩
  | action :: actions =>
      rw [actionsToOptreenodes] at hoperations
      obtain ⟨operation, hoperation, hoperations⟩ := bind_eq_ok hoperations
      obtain ⟨operations, hrest, hoperations⟩ := bind_eq_ok hoperations
      obtain rfl := Except.ok.inj hoperations
      cases h with
      | stop hvalue hstops =>
          obtain ⟨log, hlog⟩ := Action.reads_of_evaluates getType action
            hoperation hvalue
          exact ⟨log, _, log, _, hlog, Or.inl ⟨hstops, rfl, rfl, rfl⟩⟩
      | cons hvalue hgoes horder =>
          obtain ⟨log, hlog⟩ := Action.reads_of_evaluates getType action
            hoperation hvalue
          obtain ⟨rest, hothers⟩ := Action.readsAll_of_evaluates getType
            actions hrest horder
          exact ⟨log ++ rest, _, log, _, hlog, Or.inr ⟨hgoes, _, rest, hothers,
            rfl, rfl⟩⟩

end

end Runs

end NetworkProtocolDsl
