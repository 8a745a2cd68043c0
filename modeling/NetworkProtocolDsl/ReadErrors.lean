/-
How a read transition ends.

A store yields what its name held before, so an error that was read goes on in
the pad and not in the sequence.  The transition ends with an error where a
static piece is missing, or where a part finds the error in the name it stores
into; otherwise the error is in the dictionary.
-/
import NetworkProtocolDsl.TransitionFrame

namespace NetworkProtocolDsl

open Generate OpTreeNode EvaluateInOrder IdentifierReference

theorem LexicalPad.set_fst (name : String) (value : Value)
    (pad : LexicalPad) : (pad.set name value).1 = pad.get name := by
  induction pad with
  | root pad =>
      cases hlookup : pad.lookup name <;> simp [set, get, hlookup]
  | child pad parent ih =>
      cases hlookup : pad.lookup name with
      | none => simpa [set, get, hlookup] using ih
      | some old => simp [set, get, hlookup]

namespace Action

/-- The name that a part stores into when it has read everything. -/
def storesInto : Action → Option String
  | .readOctetsUntilTerminator _ identifier _ => some identifier.name
  | .loop _ collection _ _ => some collection.name
  | .readStaticOctets _ | .writeFromIdentifier _ _ | .writeStaticOctets _ =>
      none

/-- One of the parts ends the sequence with the error: a static piece is not
what stands in the input, or the name that a part stores into holds the error
when the part comes to its store. -/
inductive Raised (eof : Bool) (getType : ExtractTypeClosure)
    (error : RuntimeError) : List Action → World → Prop where
  | missing {octets : Octets} {actions : List Action} {w w' : World} :
      (OpTreeNode.mk (.inputOutput (.readStaticOctets octets)) []).Evaluates eof
        w (.runtimeError error) w' →
      Raised eof getType error (.readStaticOctets octets :: actions) w
  | held {action : Action} {actions : List Action} {name : String}
      {w w' : World} {value : Value} {log : ReadLog} :
      action.storesInto = some name →
      action.Reads eof getType w value log w' →
      (w.pad.applyStores log.stores.dropLast).get name =
        .runtimeError error →
      Raised eof getType error (action :: actions) w
  | behind {action : Action} {actions : List Action} {w w₁ : World}
      {value : Value} {log : ReadLog} :
      action.Reads eof getType w value log w₁ → value.stops = false →
      Raised eof getType error actions w₁ →
      Raised eof getType error (action :: actions) w

end Action

section Soundness

variable {eof : Bool}

theorem ReadsRounds.rounds {element : Callable} {loopVariable : String}
    {body : World → ReadLog → World → Prop} {w w' : World}
    {values elements : List Value} {stop : Value} {log : ReadLog}
    (h : ReadsRounds eof element loopVariable body w values stop log elements
      w') : element.Rounds eof w values stop w' := by
  induction h with
  | last hvalue hstops _ _ => exact .last hvalue hstops
  | next hvalue hgoes _ _ _ ih => exact .next hvalue hgoes ih

/-- What a part reads, its operation evaluates to. -/
theorem Action.Reads.evaluates {getType : ExtractTypeClosure} {action : Action}
    {operation : OpTreeNode}
    (hoperation : visitAction .read getType action = .ok operation)
    {w w' : World} {value : Value} {log : ReadLog}
    (h : action.Reads eof getType w value log w') :
    operation.Evaluates eof w value w' := by
  cases action with
  | readStaticOctets octets =>
      rw [visitAction] at hoperation
      rw [← Except.ok.inj hoperation]
      exact h.1
  | readOctetsUntilTerminator terminator identifier escape =>
      rw [visitAction] at hoperation
      obtain ⟨type, reader, written, w₁, htype, hreader, hwritten, hpad, rfl, _,
        rfl⟩ := h
      obtain ⟨type', reader', htype', hreader', hevaluates⟩ :=
        visitReadOctetsUntilTerminator_stores hoperation
      obtain rfl := Option.some.inj (htype.symm.trans htype')
      obtain rfl := Except.ok.inj (hreader.symm.trans hreader')
      have hresult := hevaluates hwritten
      rw [hpad] at hresult
      exact hresult
  | writeFromIdentifier _ _ | writeStaticOctets _ => exact h.elim
  | loop loopVariable collection terminator actions =>
      rw [visitAction] at hoperation
      obtain ⟨wrapper, operations, values, stop, inner, elements, w₁, hwrapper,
        hoperations, hrounds, rfl, _, rfl⟩ := h
      obtain ⟨wrapper', hwrapper', hoperation⟩ := bind_eq_ok hoperation
      obtain rfl := Except.ok.inj (hwrapper.symm.trans hwrapper')
      obtain ⟨operations', hoperations', hoperation⟩ := bind_eq_ok hoperation
      obtain rfl := Except.ok.inj (hoperations.symm.trans hoperations')
      obtain ⟨initialOperation, hinitial, hoperation⟩ := bind_eq_ok hoperation
      obtain rfl := Except.ok.inj hoperation
      obtain rfl := initializeLoopVariable_eq_ok hinitial
      have hcallable : (staticCallable (readElement loopVariable.name terminator
          operations).tree []).Evaluates eof w (.callable
            (readElement loopVariable.name terminator operations)) w :=
        evaluates_interpreted rfl rfl
      exact evaluates_lexicalPadSet collection.name (.unary rfl hcallable
        (finishes_rounds _ [] rfl hrounds.rounds rfl))

/-- The value a part that stores yields is the old one of the name. -/
theorem Action.Reads.value_eq {getType : ExtractTypeClosure} {action : Action}
    {w w' : World} {value : Value} {log : ReadLog} {name : String}
    (h : action.Reads eof getType w value log w')
    (hname : action.storesInto = some name) :
    value = (w.pad.applyStores log.stores.dropLast).get name := by
  cases action with
  | readStaticOctets _ | writeFromIdentifier _ _ | writeStaticOctets _ =>
      contradiction
  | readOctetsUntilTerminator _ identifier _ =>
      obtain ⟨_, _, _, _, _, _, _, _, rfl, rfl, _⟩ := h
      obtain rfl := Option.some.inj hname
      exact LexicalPad.set_fst _ _ _
  | loop loopVariable collection _ actions =>
      obtain ⟨wrapper, _, values, stop, inner, _, w₁, _, _, hrounds, rfl, rfl,
        _⟩ := h
      obtain rfl := Option.some.inj hname
      have hbody : ∀ w log w', (∃ results, Action.ReadsAll eof wrapper actions w
          results log w') → w'.pad = w.pad.applyStores log.stores := by
        rintro w log w' ⟨results, hall⟩
        exact hall.pad_eq
      rw [LexicalPad.set_fst, hrounds.pad_eq hbody, storeLoop,
        List.dropLast_concat]

end Soundness

section Ends

variable {eof : Bool} {getType : ExtractTypeClosure} {actions : List Action}
  {operations : List OpTreeNode} {w w' : World} {error : RuntimeError}

/-- A part that yields an error raises it. -/
theorem Action.Raised.of_reads {action : Action} {log : ReadLog}
    (h : action.Reads eof getType w (.runtimeError error) log w')
    (actions : List Action) :
    Raised eof getType error (action :: actions) w := by
  cases hname : action.storesInto with
  | some name => exact .held hname h (h.value_eq hname).symm
  | none =>
      cases action with
      | readStaticOctets _ => exact .missing h.1
      | writeFromIdentifier _ _ | writeStaticOctets _ => exact h.elim
      | readOctetsUntilTerminator _ _ _ | loop _ _ _ _ => contradiction

/-- Parts that do not read through end with a value that one of them raises. -/
theorem Action.ReadsAll.stopped {values : List Value} {log : ReadLog}
    (h : ReadsAll eof getType actions w values log w') :
    RunsThrough values ∨ ∃ stop, values.getLast? = some stop ∧
      stop.stops = true ∧ ∀ error, stop = .runtimeError error →
        Raised eof getType error actions w := by
  induction actions generalizing w values log with
  | nil =>
      obtain ⟨rfl, _⟩ := h
      exact Or.inl fun _ hvalue => absurd hvalue List.not_mem_nil
  | cons action actions ih =>
      obtain ⟨value, first, w₁, hfirst, h⟩ := h
      rcases h with ⟨hstops, rfl, _⟩ | ⟨hgoes, others, rest, hrest, rfl, _⟩
      · refine Or.inr ⟨value, rfl, hstops, fun error herror => ?_⟩
        subst herror
        exact .of_reads hfirst actions
      · rcases ih hrest with hthrough | ⟨stop, hlast, hstops, hraised⟩
        · refine Or.inl fun other hother => ?_
          rcases List.mem_cons.mp hother with rfl | hother
          · exact hgoes
          · exact hthrough other hother
        · refine Or.inr ⟨stop, ?_, hstops, fun error herror =>
            .behind hfirst hgoes (hraised error herror)⟩
          rw [List.getLast?_cons, hlast]
          rfl

/-- What is raised stops the operations. -/
theorem Action.Raised.inOrder
    (hoperations : actionsToOptreenodes .read getType actions = .ok operations)
    (h : Raised eof getType error actions w) :
    ∃ values last, EvaluateInOrder eof operations w values last ∧
      values.getLast? = some (.runtimeError error) := by
  induction h generalizing operations with
  | missing hvalue =>
      obtain ⟨operation, rest, hoperation, _, rfl⟩ :=
        actionsToOptreenodes_cons hoperations
      rw [visitAction] at hoperation
      obtain rfl := Except.ok.inj hoperation
      exact ⟨_, _, .stop hvalue rfl, rfl⟩
  | held hname hreads herror =>
      obtain ⟨operation, rest, hoperation, _, rfl⟩ :=
        actionsToOptreenodes_cons hoperations
      obtain rfl := (hreads.value_eq hname).trans herror
      exact ⟨_, _, .stop (hreads.evaluates hoperation) rfl, rfl⟩
  | behind hreads hgoes _ ih =>
      obtain ⟨operation, rest, hoperation, hrest, rfl⟩ :=
        actionsToOptreenodes_cons hoperations
      obtain ⟨values, last, horder, hlast⟩ := ih hrest
      refine ⟨_ :: values, last,
        .cons (hreads.evaluates hoperation) hgoes horder, ?_⟩
      rw [List.getLast?_cons, hlast]
      rfl

/-- What is raised ends the transition. -/
theorem Action.Raised.transition
    (hoperations : actionsToOptreenodes .read getType actions = .ok operations)
    (h : Raised eof getType error actions w) :
    ∃ w', (transitionOptree operations).Evaluates eof w (.runtimeError error)
      w' := by
  obtain ⟨values, last, horder, hlast⟩ := h.inOrder hoperations
  exact ⟨last, transitionOptree_stopped horder hlast rfl⟩

/-- The error that ends the transition was raised. -/
theorem Action.Raised.of_transition
    (hoperations : actionsToOptreenodes .read getType actions = .ok operations)
    (h : (transitionOptree operations).RunsTo eof w (.runtimeError error) w') :
    Raised eof getType error actions w := by
  obtain ⟨results, last, horder⟩ := transitionOptree_inOrder
    (actionsToOptreenodes_onlyReads _ _ hoperations) h
  obtain ⟨log, hlog⟩ := Action.readsAll_of_evaluates _ _ hoperations horder
  rcases hlog.stopped with hthrough | ⟨stop, hlast, hstops, hraised⟩
  · have hends := (transitionOptree_evaluates horder hthrough).runsTo
    have hvalue := (h.unique hends).1
    contradiction
  · have hends := (transitionOptree_stopped horder hlast hstops).runsTo
    exact hraised error (h.unique hends).1.symm

variable {data : MessageData} {tree : OpTreeNode} {value : Value}

/-- A read transition ends with an error if and only if a static piece of the
message is missing or a part comes to store into a name that holds the error; an
error that the read of a field yields does not end it. -/
theorem readTransition_ends_with_error_iff
    (hgenerate : generateTransitionOptree (.readTransition data actions) =
      .ok tree) (eof : Bool) (w : World) (error : RuntimeError) :
    (∃ w', tree.RunsTo eof w (.runtimeError error) w') ↔
      Action.Raised eof (extractType data) error actions w := by
  obtain ⟨operations, hoperations, hgenerate⟩ := bind_eq_ok hgenerate
  obtain rfl := Except.ok.inj hgenerate
  constructor
  · rintro ⟨w', hruns⟩
    exact .of_transition hoperations hruns
  · intro hraised
    obtain ⟨w', hvalue⟩ := hraised.transition hoperations
    exact ⟨w', hvalue.runsTo⟩

/-- A read transition that ends with neither an error nor a control flow
instruction returns a dictionary in which every name holds its last store,
errors included. -/
theorem readTransition_keeps_stores {carried : Bindings} {outer : LexicalPad}
    {errno : Errno} {input output : List Octets}
    (hgenerate : generateTransitionOptree (.readTransition data actions) =
      .ok tree)
    (hruns : tree.RunsTo eof
      ⟨transitionPad tree data carried outer, errno, input, output⟩ value w')
    (hgoes : value.stops = false) :
    ∃ results log bindings, Action.ReadsAll eof (extractType data) actions
        ⟨transitionPad tree data carried outer, errno, input, output⟩ results
        log w' ∧
      value = .dynamicList [.dictionary bindings] ∧
      w'.pad = .child bindings outer ∧
      ∀ name, bindings.lookup name =
        ((lastStored name log.stores).map Stored.value).or
          (if name ∈ extractArgumentNames data then
            some ((carried.lookup name).getD (.bool false))
          else none) := by
  obtain ⟨operations, hoperations, hgenerate⟩ := bind_eq_ok hgenerate
  obtain rfl := Except.ok.inj hgenerate
  obtain ⟨results, last, horder⟩ := transitionOptree_inOrder
    (actionsToOptreenodes_onlyReads _ _ hoperations) hruns
  obtain ⟨log, hlog⟩ := Action.readsAll_of_evaluates _ _ hoperations horder
  rcases hlog.stopped with hthrough | ⟨stop, hlast, hstops, _⟩
  · obtain ⟨rfl, rfl⟩ := hruns.unique
      (transitionOptree_evaluates horder hthrough).runsTo
    obtain ⟨start, hstart, hlookup⟩ := transitionPad_lookup
      (transitionOptree operations) data carried outer
    have hbound : ∀ stored ∈ log.stores,
        (start.lookup stored.name).isSome = true := by
      intro stored hstored
      obtain ⟨type, htype⟩ := Option.isSome_iff_exists.mp
        (hlog.mem_targets hstored).2
      have hmem : stored.name ∈ extractArgumentNames data :=
        mem_extractArgumentNames htype
      rw [hlookup, if_pos hmem]
      rfl
    obtain ⟨bindings, happly, hafter⟩ :=
      LexicalPad.applyStores_bound hbound outer
    have hpad := hlog.pad_eq
    simp only at hpad
    rw [hstart, happly] at hpad
    refine ⟨results, log, bindings, hlog, by rw [hpad]; rfl, hpad,
      fun name => ?_⟩
    rw [hafter, hlookup]
  · obtain ⟨rfl, _⟩ := hruns.unique
      (transitionOptree_stopped horder hlast hstops).runsTo
    rw [hstops] at hgoes
    contradiction

end Ends

/-- A message of one text up to the end of the line. -/
def textData : MessageData := [("text", .mk (.mk "str" none) [])]

def textParts : List Action :=
  [.readOctetsUntilTerminator [10] (.mk "text" none) none]

def textTransition : OpTreeNode :=
  transitionOptree [lexicalPadSet "text" (readOctetsUntilTerminator [10] none)]

/-- The transition is called where the input has ended. -/
def endedWorld : World :=
  ⟨transitionPad textTransition textData [] (.root []), 0, [], []⟩

/-- The dictionary holds the error. -/
theorem textTransition_runs :
    textTransition.RunsTo true endedWorld
      (.dynamicList [.dictionary
        [("text", .runtimeError .protocolMismatchError)]])
      ⟨.child [("text", .runtimeError .protocolMismatchError)] (.root []), 0,
        [], []⟩ := by
  have hread : (readOctetsUntilTerminator [10] none).Evaluates true endedWorld
      (.runtimeError .protocolMismatchError) endedWorld :=
    evaluates_readQueue rfl rfl rfl rfl
  have horder : EvaluateInOrder true
      [lexicalPadSet "text" (readOctetsUntilTerminator [10] none)] endedWorld
      [.bool false]
      ⟨.child [("text", .runtimeError .protocolMismatchError)] (.root []), 0,
        [], []⟩ :=
    .cons (evaluates_lexicalPadSet "text" hread) rfl (.nil _)
  have hthrough : RunsThrough [.bool false] :=
    List.forall_mem_singleton.mpr rfl
  exact (transitionOptree_evaluates horder hthrough).runsTo

/-- The text is read twice. -/
def twiceTransition : OpTreeNode :=
  transitionOptree
    [lexicalPadSet "text" (readOctetsUntilTerminator [10] none),
      lexicalPadSet "text" (readOctetsUntilTerminator [10] none)]

def twiceWorld : World :=
  ⟨transitionPad twiceTransition textData [] (.root []), 0, [], []⟩

/-- Each of the reads fails, and the store of the second yields the error of
the first. -/
theorem readTransition_ends_with_error_iff_twice :
    ∃ w', twiceTransition.RunsTo true twiceWorld
      (.runtimeError .protocolMismatchError) w' := by
  have hgenerate : generateTransitionOptree
      (.readTransition textData (textParts ++ textParts)) =
        .ok twiceTransition := rfl
  have hread : ∀ pad, (readOctetsUntilTerminator [10] none).Evaluates true
      ⟨pad, 0, [], []⟩ (.runtimeError .protocolMismatchError)
        ⟨pad, 0, [], []⟩ :=
    fun _ => evaluates_readQueue rfl rfl rfl rfl
  exact (readTransition_ends_with_error_iff hgenerate true twiceWorld
    .protocolMismatchError).mpr (.behind
      ⟨_, _, _, _, rfl, rfl, hread _, rfl, rfl, rfl, rfl⟩ rfl (.held rfl
        ⟨_, _, _, _, rfl, rfl, hread _, rfl, rfl, rfl, rfl⟩ rfl))

theorem readTransition_keeps_stores_text :
    ∃ value w', textTransition.RunsTo true endedWorld value w' ∧
      value.stops = false ∧
      ∃ results log bindings, Action.ReadsAll true (extractType textData)
          textParts endedWorld results log w' ∧
        value = .dynamicList [.dictionary bindings] ∧
        w'.pad = .child bindings (.root []) ∧
        ∀ name, bindings.lookup name =
          ((lastStored name log.stores).map Stored.value).or
            (if name ∈ extractArgumentNames textData then
              some (([].lookup name).getD (.bool false))
            else none) :=
  ⟨_, _, textTransition_runs, rfl,
    readTransition_keeps_stores rfl textTransition_runs rfl⟩

end NetworkProtocolDsl
