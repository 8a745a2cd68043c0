/-
What the peer of a writer expects.

The agents of a protocol have the same transitions in a state.  Where one has a
single message to write the other looks ahead for that message alone, under the
condition of its first action.
-/
import NetworkProtocolDsl.EncodingStart
import NetworkProtocolDsl.TransitionChoice

namespace NetworkProtocolDsl

open Run RunnerState Generate PartsToReadActions PartsToWriteActions
open TransitionChoice TransitionLookahead
open NetworkProtocolDsl.Action

namespace Analyze

/-- No state has two transitions of one name. -/
def EachOnce (states : List (String × State)) : Prop :=
  ∀ name state, states.lookup name = some state →
    (state.transitions.map Prod.fst).Nodup

theorem lookup_addMessage_eq (states : List (String × State)) (name : Octets)
    (message : Message) (transition : Transition) (state : String) :
    (addMessage states name message transition).lookup state =
      if state = message.whenState.name then
        some ⟨Assoc.overwrite name (transition, message.thenState.name)
          ((states.lookup state).getD {}).transitions⟩
      else if state = message.thenState.name then
        some ((states.lookup state).getD {})
      else states.lookup state := by
  unfold addMessage
  by_cases hwhen : state = message.whenState.name
  · subst hwhen
    by_cases hthen : message.whenState.name = message.thenState.name
    · simp [← hthen]
    · simp [hthen]
  · by_cases hthen : state = message.thenState.name
    · subst hthen
      simp [hwhen]
    · simp [hwhen, hthen]

theorem EachOnce.addMessage {states : List (String × State)}
    (h : EachOnce states) (name : Octets) (message : Message)
    (transition : Transition) :
    EachOnce (addMessage states name message transition) := by
  have hold : ∀ state : String,
      (((states.lookup state).getD {}).transitions.map Prod.fst).Nodup := by
    intro state
    cases hlookup : states.lookup state with
    | none => exact List.nodup_nil
    | some found => exact h state found hlookup
  intro state found hfound
  rw [lookup_addMessage_eq] at hfound
  split at hfound
  · obtain rfl := Option.some.inj hfound
    exact Assoc.nodup_overwrite _ _ (hold state)
  · split at hfound
    · obtain rfl := Option.some.inj hfound
      exact hold state
    · exact h state found hfound

theorem EachOnce.assemble (messages : List (Octets × Message))
    (transitions : List (Octets × Transition))
    {states : List (String × State)} (h : EachOnce states) :
    EachOnce (assemble messages transitions states) := by
  induction messages generalizing transitions states with
  | nil => exact h
  | cons entry messages ih =>
      cases transitions with
      | nil => exact h
      | cons transition transitions =>
          exact ih transitions (h.addMessage entry.1 entry.2 transition.2)

theorem eachOnce_analyzeAgent {protocol : ProtocolDescription}
    {agentName : String} {agent : Agent}
    (h : analyzeAgent protocol agentName = some agent) :
    EachOnce agent.states := by
  obtain ⟨transitions, _, rfl⟩ := analyzeAgent_eq_some h
  exact .assemble _ _ fun _ _ hnone => by contradiction

/-- The only transition of a state is a message of the protocol. -/
theorem message_of_singleton {protocol : ProtocolDescription}
    {agentName : String} {agent : Agent}
    (h : analyzeAgent protocol agentName = some agent) {state : String}
    {name : Octets} {transition : Transition} {target : String}
    (hstate : agent.states.lookup state =
      some ⟨[(name, transition, target)]⟩) :
    ∃ message, protocol.messages.lookup name = some message ∧
      message.whenState.name = state ∧ message.thenState.name = target ∧
      analyzeMessage agentName message = some transition := by
  have hfound : agent.transition? state name = some (transition, target) := by
    simp [Agent.transition?, Analyze.transition?, hstate]
  rw [transition?_analyzeAgent h] at hfound
  obtain ⟨message, hmessage, hfound⟩ := Option.bind_eq_some_iff.mp hfound
  split at hfound
  · rename_i hwhen
    obtain ⟨found, hanalyze, hpair⟩ := Option.map_eq_some_iff.mp hfound
    obtain ⟨rfl, rfl⟩ := Prod.mk.inj hpair
    exact ⟨message, hmessage, hwhen.symm, rfl, hanalyze⟩
  · contradiction

/-- The state that has one message to write has it to read at the peer. -/
theorem peer_reads {protocol : ProtocolDescription}
    {writerName readerName : String} (hne : writerName ≠ readerName)
    {writer reader : Agent}
    (hwriter : analyzeAgent protocol writerName = some writer)
    (hreader : analyzeAgent protocol readerName = some reader)
    {state : String} {name : Octets} {data : MessageData}
    {writes : List Action} {target : String}
    (hstate : writer.states.lookup state =
      some ⟨[(name, .writeTransition data writes, target)]⟩) :
    ∃ reads, writes = duals reads ∧ reader.states.lookup state =
      some ⟨[(name, .readTransition data reads, target)]⟩ := by
  obtain ⟨message, hmessage, rfl, rfl, hwrite⟩ :=
    message_of_singleton hwriter hstate
  have hagent : message.agent.name = writerName := by
    have hiswrite := isWrite_of_analyzeMessage hwrite
    exact of_decide_eq_true hiswrite.symm
  have hother : message.agent.name ≠ readerName := fun heq =>
    hne (hagent.symm.trans heq)
  rw [analyzeMessage, if_pos hagent] at hwrite
  obtain ⟨written, hwritten, hpair⟩ := Option.map_eq_some_iff.mp hwrite
  obtain ⟨rfl, rfl⟩ := Transition.writeTransition.inj hpair
  obtain ⟨transitions, htransitions, _⟩ := analyzeAgent_eq_some hreader
  obtain ⟨transition, htransition⟩ := analyzeMessage_isSome htransitions
    (Assoc.mem_of_lookup hmessage)
  have hread := htransition
  rw [analyzeMessage, if_neg hother] at hread
  obtain ⟨reads, hreads, rfl⟩ := Option.map_eq_some_iff.mp hread
  refine ⟨reads, partsToWriteActions_eq_duals hreads hwritten, ?_⟩
  obtain ⟨found, hfound⟩ : ∃ found, reader.states.lookup
      message.whenState.name = some found := by
    rw [← Option.isSome_iff_exists, lookup_analyzeAgent hreader,
      ← lookup_analyzeAgent hwriter, hstate]
    rfl
  have htarget : ∀ other, (found.transitions.lookup other).map Prod.snd =
      ([(name, Transition.writeTransition message.data written,
        message.thenState.name)].lookup other).map Prod.snd := by
    intro other
    have hsame := (target_analyzeAgent hreader message.whenState.name
      other).trans (target_analyzeAgent hwriter message.whenState.name
        other).symm
    simpa only [Agent.transition?, Analyze.transition?, hfound, hstate,
      Option.bind_some] using hsame
  have hself : found.transitions.lookup name =
      some (.readTransition message.data reads, message.thenState.name) := by
    have hlookup := transition?_analyzeAgent hreader message.whenState.name
      name
    rw [hmessage, Option.bind_some, if_pos rfl, htransition] at hlookup
    simpa only [Agent.transition?, Analyze.transition?, hfound,
      Option.bind_some, Option.map_some] using hlookup
  have hnone : ∀ other, other ≠ name →
      found.transitions.lookup other = none := by
    intro other hother
    have hempty := htarget other
    rwa [Assoc.lookup_cons_ne hother, List.lookup_nil, Option.map_none,
      Option.map_eq_none_iff] at hempty
  have hsingle := Assoc.eq_singleton
    (eachOnce_analyzeAgent hreader _ found hfound) hself hnone
  rw [hfound, ← hsingle]

end Analyze

namespace Generate

section StateMap

variable {states : List (String × State)} {stateMap : StateMap}

/-- Every state is generated under its name. -/
theorem lookup_mapM_constructState
    (h : (states.mapM fun (name, state) => do
      let info ← constructState name state
      return (name, info)) = .ok stateMap)
    {name : String} {state : State}
    (hstate : states.lookup name = some state) :
    ∃ info, constructState name state = .ok info ∧
      stateMap.lookup name = some info := by
  induction states generalizing stateMap with
  | nil => contradiction
  | cons entry states ih =>
      obtain ⟨first, firstState⟩ := entry
      rw [List.mapM_cons] at h
      obtain ⟨pair, hpair, h⟩ := bind_eq_ok h
      obtain ⟨info, hinfo, hpair⟩ := bind_eq_ok hpair
      obtain ⟨rest, hrest, h⟩ := bind_eq_ok h
      obtain rfl := Except.ok.inj hpair
      obtain rfl := Except.ok.inj h
      by_cases hname : name = first
      · subst hname
        rw [List.lookup_cons_self] at hstate
        obtain rfl := Option.some.inj hstate
        exact ⟨info, hinfo, List.lookup_cons_self⟩
      · rw [Assoc.lookup_cons_ne hname] at hstate ⊢
        exact ih hrest hstate

theorem lookup_generateAgent {agent : Agent}
    (h : generateAgent agent =
      .ok (.mk (.controlFlow (.stateMachineOperation stateMap)) []))
    {name : String} {state : State}
    (hstate : agent.states.lookup name = some state) :
    ∃ info, constructState name state = .ok info ∧
      stateMap.lookup name = some info := by
  obtain ⟨found, hfound, h⟩ := bind_eq_ok h
  obtain rfl : found = stateMap := by
    simpa using Except.ok.inj h
  obtain ⟨mapped, hmapped, hfound⟩ := bind_eq_ok hfound
  split at hfound
  · contradiction
  · obtain rfl := Except.ok.inj hfound
    exact lookup_mapM_constructState hmapped hstate

end StateMap

/-- The transitions of a generated state are of one type. -/
theorem constructTransitions_type
    {transitions : List (Octets × (Transition × String))}
    {type : Option TransitionType}
    {generated : List (Octets × TransitionInfo) × Option TransitionType}
    (h : constructTransitions transitions type = .ok generated) :
    (∀ expected, type = some expected →
      ∀ entry ∈ transitions, transitionType entry.2.1 = expected) ∧
    ∃ expected, ∀ entry ∈ transitions,
      transitionType entry.2.1 = expected := by
  induction transitions generalizing type generated with
  | nil =>
      constructor
      · intro expected _ entry hentry
        contradiction
      · exact ⟨.read, fun entry hentry => by contradiction⟩
  | cons entry transitions ih =>
      obtain ⟨name, transition, target⟩ := entry
      rw [constructTransitions] at h
      obtain ⟨info, _, h⟩ := bind_eq_ok h
      split at h
      · contradiction
      · rename_i hsame
        obtain ⟨rest, hrest, _⟩ := bind_eq_ok h
        have hexpected := (ih hrest).1 _ rfl
        have hall : ∀ entry ∈ (name, transition, target) :: transitions,
            transitionType entry.2.1 = transitionType transition :=
          List.forall_mem_cons.mpr ⟨rfl, hexpected⟩
        constructor
        · rintro expected rfl
          have heq : expected = transitionType transition := by
            simpa using hsame
          rw [heq]
          exact hall
        · exact ⟨_, hall⟩

theorem transitionType_eq_write_iff (transition : Transition) :
    transitionType transition = .write ↔ transition.isWrite = true := by
  cases transition <;> simp [transitionType, Transition.isWrite]

/-- A state with one outgoing message has no other transition. -/
theorem eq_of_filter_isWrite
    {transitions : List (Octets × (Transition × String))}
    {generated : List (Octets × TransitionInfo) × Option TransitionType}
    (h : constructTransitions transitions none = .ok generated)
    {entry : Octets × (Transition × String)}
    (hone : transitions.filter (fun entry => entry.2.1.isWrite) = [entry]) :
    transitions = [entry] := by
  obtain ⟨expected, hexpected⟩ := (constructTransitions_type h).2
  have hentry : entry ∈ transitions.filter fun entry => entry.2.1.isWrite := by
    rw [hone]
    exact List.mem_singleton_self entry
  obtain ⟨hmem, hwrite⟩ := List.mem_filter.mp hentry
  rw [← transitionType_eq_write_iff, hexpected entry hmem] at hwrite
  rw [← hone, eq_comm, List.filter_eq_self]
  intro other hother
  rw [← transitionType_eq_write_iff, hexpected other hother, hwrite]

theorem constructTransitions_singleton {name : Octets}
    {transition : Transition} {target : String}
    {generated : List (Octets × TransitionInfo) × Option TransitionType}
    (h : constructTransitions [(name, transition, target)] none =
      .ok generated) :
    ∃ optree, generateTransitionOptree transition = .ok optree ∧
      generated = ([(name, .mk optree (extractArgumentNames transition.data)
        target)], some (transitionType transition)) := by
  rw [constructTransitions] at h
  obtain ⟨info, hinfo, h⟩ := bind_eq_ok h
  obtain ⟨optree, hoptree, hinfo⟩ := bind_eq_ok hinfo
  obtain rfl := Except.ok.inj hinfo
  exact ⟨optree, hoptree, (Except.ok.inj h).symm⟩

/-- A state that reads one message looks ahead for it alone. -/
theorem constructState_read {state : String} {name : Octets}
    {data : MessageData} {reads : List Action} {target : String}
    {info : StateInfo}
    (h : constructState state
      ⟨[(name, .readTransition data reads, target)]⟩ = .ok info)
    (hstate : state ≠ "Closed") :
    ∃ condition transitions,
      readStateCondition (.readTransition data reads) target =
        .ok condition ∧
      info = .mk (lookaheadCallback [(condition, name)]) transitions := by
  obtain ⟨generated, hgenerated, h⟩ := bind_eq_ok h
  obtain ⟨optree, _, rfl⟩ := constructTransitions_singleton hgenerated
  simp only [if_pos hstate] at h
  obtain ⟨callback, hcallback, h⟩ := bind_eq_ok h
  obtain rfl := Except.ok.inj h
  obtain ⟨conditions, hconditions, hcallback⟩ := bind_eq_ok hcallback
  rw [List.mapM_cons, List.mapM_nil] at hconditions
  obtain ⟨pair, hpair, hconditions⟩ := bind_eq_ok hconditions
  obtain ⟨condition, hcondition, hpair⟩ := bind_eq_ok hpair
  obtain rfl := Except.ok.inj hpair
  obtain rfl := Except.ok.inj hconditions
  obtain rfl := Except.ok.inj hcallback
  exact ⟨condition, _, hcondition, rfl⟩

end Generate

/-- The static piece with which the writing of a message starts. -/
def Action.leadingPiece : List Action → Option Octets
  | .writeStaticOctets octets :: _ => some octets
  | .loop _ _ _ actions :: _ => leadingPiece actions
  | _ => none

/-- A static condition is the piece with which the writing starts. -/
theorem leadingPiece_of_static {action : Action} {octets : Octets}
    (h : getActionCondition action = some (.static octets))
    (rest : List Action) : leadingPiece (dual action ++ rest) = some octets := by
  match action with
  | .writeFromIdentifier _ _ => contradiction
  | .writeStaticOctets _ => contradiction
  | .readOctetsUntilTerminator _ _ _ =>
      rw [getActionCondition] at h
      simp at h
  | .readStaticOctets piece =>
      rw [getActionCondition] at h
      obtain rfl := TransitionCondition.static.inj (Option.some.inj h)
      rw [dual, List.singleton_append, leadingPiece]
  | .loop _ _ _ [] => contradiction
  | .loop _ _ _ (first :: actions) =>
      rw [getActionCondition] at h
      rw [dual, List.singleton_append, leadingPiece, duals]
      exact leadingPiece_of_static h (duals actions)

namespace TransitionLookahead

/-- Given exactly these bytes the lookahead returns the name; so does every
run that delivers them in any chunks, once it has nothing more to do. -/
structure Selects (conditions : List (TransitionCondition × Octets))
    (bytes name : Octets) : Prop where
  value : apply conditions (handleRead {} bytes).2 = .value (.octets name)
  run : ∀ errno events s, Sends events bytes false →
    run RunnerState.event events (program conditions errno).start = .ok s →
    s.Settled → s.context.interpreterResult = some (.octets name)

variable {condition : TransitionCondition} {name bytes : Octets}

theorem apply_single_of_fits (h : Fits bytes false condition) :
    apply [(condition, name)] (handleRead {} bytes).2 =
      .value (.octets name) := by
  have hvalid := (matchCondition_fits (handleRead {} bytes).2 condition).mpr h
  simp only [apply, select, hvalid, ↓reduceIte]

/-- The only condition of a lookahead selects what it fits. -/
theorem selects_of_fits (h : Fits bytes false condition) :
    Selects [(condition, name)] bytes name where
  value := apply_single_of_fits h
  run := by
    intro errno events s hsends hrun hsettled
    have houtcome := (invariant_of_sends hsends hrun).outcome hsettled
    generalize s.context.interpreterResult = shown at houtcome
    cases houtcome with
    | chosen hchosen =>
        obtain ⟨entry, hentry, hname, _⟩ := hchosen
        obtain rfl := List.mem_singleton.mp hentry
        rw [← hname]
    | mismatch hout =>
        have hnot := not_fits_of_allRuledOut hout (List.mem_singleton_self _)
        exact absurd (fits_seen.mpr h) hnot
    | waiting hnone _ => exact absurd h (hnone _ (List.mem_singleton_self _))

/-- A condition that the bytes start with fits them, unless they are only the
static piece. -/
theorem fits_of_starts (h : condition.Starts bytes)
    (hlonger : ∀ octets, condition = .static octets →
      octets.length < bytes.length) : Fits bytes false condition := by
  cases condition with
  | eofCondition => exact h.elim
  | matchUntilTerminator terminator => exact h
  | static octets =>
      refine ⟨h, ?_⟩
      rintro rfl
      exact absurd (hlonger _ rfl) (Nat.lt_irrefl _)

/-- Before the end of the input a lookahead for it alone takes any bytes for a
mismatch. -/
theorem apply_eofCondition (name bytes : Octets) :
    apply [(.eofCondition, name)] (handleRead {} bytes).2 =
      if bytes = [] then .blocked .waitingForRead
      else .value (.runtimeError .protocolMismatchError) := by
  by_cases hbytes : bytes = [] <;>
    simp [apply, select, matchCondition, handleRead, hbytes]

end TransitionLookahead

/-- The agents of a protocol, one of them in front. -/
inductive Protocol.Peers (protocol : Protocol) : Agent → Agent → Prop where
  | clientFirst : Peers protocol protocol.client protocol.server
  | serverFirst : Peers protocol protocol.server protocol.client

theorem Protocol.Peers.analyzed {description : ProtocolDescription}
    {protocol : Protocol} (h : Analyze.analyze description = some protocol)
    {writer reader : Agent} (hpeers : protocol.Peers writer reader) :
    ∃ writerName readerName, writerName ≠ readerName ∧
      Analyze.analyzeAgent description writerName = some writer ∧
      Analyze.analyzeAgent description readerName = some reader := by
  obtain ⟨hclient, hserver⟩ := Analyze.analyze_eq_some h
  cases hpeers with
  | clientFirst => exact ⟨"Client", "Server", by decide, hclient, hserver⟩
  | serverFirst => exact ⟨"Server", "Client", by decide, hserver, hclient⟩

/-- What the condition of a message is and what its encoding starts with. -/
theorem starts_of_encodes {reads : List Action} {data : MessageData}
    {target : String} {condition : TransitionCondition}
    (hcondition : readStateCondition (.readTransition data reads) target =
      .ok condition) (htarget : target ≠ "Closed") {writeTree : OpTreeNode}
    (hwriteTree : generateTransitionOptree
      (.writeTransition data (duals reads)) = .ok writeTree)
    {pad : LexicalPad} {encoding : Octets}
    (hencodes : writeTree.Encodes pad encoding) :
    condition.Starts encoding ∧
      ∀ octets, condition = .static octets →
        leadingPiece (duals reads) = some octets := by
  rw [readStateCondition, if_neg htarget] at hcondition
  cases reads with
  | nil => contradiction
  | cons action rest =>
      rw [getTransitionCondition] at hcondition
      cases haction : getActionCondition action with
      | none =>
          rw [haction] at hcondition
          contradiction
      | some found =>
          rw [haction] at hcondition
          obtain rfl := Except.ok.inj hcondition
          obtain ⟨operations, hoperations, hwriteTree⟩ :=
            bind_eq_ok hwriteTree
          obtain rfl := Except.ok.inj hwriteTree
          rw [Transition.actions, duals] at hoperations
          constructor
          · exact hencodes.of_emits fun w => transitionOptree_emits
              (dual_emits_starts haction hoperations w)
              fun left right hleft => hleft.append right
          · rintro octets rfl
            rw [duals]
            exact leadingPiece_of_static haction (duals rest)

/-- The peer of a writer with one message selects it given its encoding, where
the message does not lead to the end and goes on after the static piece it
starts with; the end it expects without a byte. -/
theorem peer_selects {description : ProtocolDescription} {protocol : Protocol}
    (h : Analyze.analyze description = some protocol) {writer reader : Agent}
    (hpeers : protocol.Peers writer reader)
    {writerStates readerStates : StateMap}
    (hwriter : generateAgent writer =
      .ok (.mk (.controlFlow (.stateMachineOperation writerStates)) []))
    (hreader : generateAgent reader =
      .ok (.mk (.controlFlow (.stateMachineOperation readerStates)) []))
    {name : String} (hname : name ≠ "Closed") {state : State}
    (hstate : writer.states.lookup name = some state)
    {message : Octets} {data : MessageData} {writes : List Action}
    {target : String}
    (hone : state.transitions.filter (fun entry => entry.2.1.isWrite) =
      [(message, .writeTransition data writes, target)])
    {callback : OpTreeNode} {infos : List (Octets × TransitionInfo)}
    (hinfos : writerStates.lookup name = some (.mk callback infos))
    {writeTree : OpTreeNode} {argumentNames : List String}
    {targetState : String}
    (hwriteTree : infos.lookup message =
      some (.mk writeTree argumentNames targetState))
    {pad : LexicalPad} {encoding : Octets}
    (hencodes : writeTree.Encodes pad encoding) :
    ∃ conditions readerInfos,
      readerStates.lookup name =
        some (.mk (lookaheadCallback conditions) readerInfos) ∧
      (target ≠ "Closed" →
        (∀ piece, leadingPiece writes = some piece →
          piece.length < encoding.length) →
        Selects conditions encoding message) ∧
      (target = "Closed" →
        TransitionLookahead.apply conditions
            (TransitionLookahead.handleRead {} encoding).2 =
          if encoding = [] then .blocked .waitingForRead
          else .value (.runtimeError .protocolMismatchError)) := by
  obtain ⟨writerName, readerName, hne, hwriter', hreader'⟩ :=
    hpeers.analyzed h
  obtain ⟨info, hinfo, hlookup⟩ := lookup_generateAgent hwriter hstate
  obtain rfl := Option.some.inj (hlookup.symm.trans hinfos)
  obtain ⟨generated, hgenerated, hinfo⟩ := bind_eq_ok hinfo
  have hsingle := eq_of_filter_isWrite hgenerated hone
  obtain rfl : state = ⟨[(message, .writeTransition data writes, target)]⟩ := by
    cases state
    rw [← hsingle]
  obtain ⟨optree, hoptree, rfl⟩ := constructTransitions_singleton hgenerated
  simp only [if_pos hname] at hinfo
  obtain ⟨_, rfl⟩ := StateInfo.mk.inj (Except.ok.inj hinfo)
  rw [List.lookup_cons_self] at hwriteTree
  obtain ⟨rfl, _⟩ := TransitionInfo.mk.inj (Option.some.inj hwriteTree)
  obtain ⟨reads, rfl, hread⟩ := Analyze.peer_reads hne hwriter' hreader' hstate
  obtain ⟨readInfo, hreadInfo, hreadLookup⟩ :=
    lookup_generateAgent hreader hread
  obtain ⟨condition, readerInfos, hcondition, rfl⟩ :=
    constructState_read hreadInfo hname
  refine ⟨_, readerInfos, hreadLookup, ?_, ?_⟩
  · intro htarget hlonger
    obtain ⟨hstarts, hpiece⟩ := starts_of_encodes hcondition htarget hoptree
      hencodes
    exact selects_of_fits (fits_of_starts hstarts fun octets hoctets =>
      hlonger octets (hpiece octets hoctets))
  · rintro rfl
    obtain rfl := Except.ok.inj hcondition
    exact apply_eofCondition message encoding

/-- The server says hello to a name. -/
def helloMessage (target : String) : Message :=
  ⟨[72], .mk "Open" none, .mk target none, .mk "Server" none,
    [("name", .mk (.mk "str" none) [])],
    [.tokenSequence ⟨[.stringLiteral [72],
      .identifierReference (.mk "name" none), .stringLiteral [10]], none,
      none⟩]⟩

def hello (target : String) : ProtocolDescription :=
  ⟨[([72], helloMessage target)], by simp⟩

def helloWrites : List Action :=
  [.writeStaticOctets [72], .writeFromIdentifier (.mk "name" none) none,
    .writeStaticOctets [10]]

def helloReads : List Action :=
  [.readStaticOctets [72],
    .readOctetsUntilTerminator [10] (.mk "name" none) none]

/-- The server writes the name `A`. -/
def helloTree : OpTreeNode :=
  transitionOptree
    [.mk (.inputOutput (.writeStaticOctets [72])) [],
      .mk (.inputOutput .writeOctets) [lexicalPadGet "name"],
      .mk (.inputOutput (.writeStaticOctets [10])) []]

theorem helloTree_encodes :
    helloTree.Encodes (.root [("name", .octets [65])]) [72, 65, 10] :=
  OpTreeNode.encodes_of_encoding? 20 rfl

/-- The name is the server's to write and the client's to read. -/
def helloServer (target : String) : Agent :=
  ⟨Analyze.addMessage [] [72] (helloMessage target)
    (.writeTransition (helloMessage target).data helloWrites)⟩

def helloClient (target : String) : Agent :=
  ⟨Analyze.addMessage [] [72] (helloMessage target)
    (.readTransition (helloMessage target).data helloReads)⟩

theorem analyze_hello (target : String) :
    Analyze.analyze (hello target) =
      some ⟨helloClient target, helloServer target⟩ := by
  simp [Analyze.analyze, Analyze.analyzeAgent, Analyze.analyzeTransitions,
    Analyze.analyzeMessage, Analyze.analyzeReadMessage,
    Analyze.analyzeWriteMessage, hello, helloMessage, helloReads, helloWrites,
    IdentifierReference.name, partsToReadActions, partsToWriteActions,
    PartsToReadActions.tokenSequence, PartsToWriteActions.tokenSequence,
    individualTokenActions, individualTokenAction, Action.applyEscape,
    TokenSequence.embeddedTerminator, Analyze.assemble, helloClient,
    helloServer]

/-- The states generated for the server. -/
def helloWriter (target : String) : StateInfo :=
  .mk (stateCallback "Open") [([72], .mk helloTree ["name"] target)]

theorem generate_hello :
    generateAgent (helloServer "Open") =
        .ok (.mk (.controlFlow (.stateMachineOperation
          [("Open", helloWriter "Open")])) []) ∧
      ∃ readerStates, generateAgent (helloClient "Open") =
        .ok (.mk (.controlFlow (.stateMachineOperation readerStates)) []) :=
  ⟨rfl, _, rfl⟩

theorem generate_hello_closed :
    generateAgent (helloServer "Closed") =
        .ok (.mk (.controlFlow (.stateMachineOperation
          [("Open", helloWriter "Closed"),
            ("Closed", .mk (stateCallback "Closed") [])])) []) ∧
      ∃ infos, generateAgent (helloClient "Closed") =
        .ok (.mk (.controlFlow (.stateMachineOperation
          [("Open", .mk (lookaheadCallback [(.eofCondition, [72])]) infos),
            ("Closed", .mk (stateCallback "Closed") [])])) []) :=
  ⟨rfl, _, rfl⟩

/-- The client expects the hello that the server writes. -/
theorem peer_selects_hello :
    ∃ readerStates conditions readerInfos,
      generateAgent (helloClient "Open") =
        .ok (.mk (.controlFlow (.stateMachineOperation readerStates)) []) ∧
      readerStates.lookup "Open" =
        some (.mk (lookaheadCallback conditions) readerInfos) ∧
      Selects conditions [72, 65, 10] [72] := by
  obtain ⟨hwriter, readerStates, hreader⟩ := generate_hello
  have hname : "Open" ≠ "Closed" := by decide
  have hstate : (helloServer "Open").states.lookup "Open" =
      some ⟨[([72], .writeTransition (helloMessage "Open").data helloWrites,
        "Open")]⟩ := rfl
  obtain ⟨conditions, readerInfos, hlookup, hselects, _⟩ :=
    peer_selects (analyze_hello "Open") .serverFirst hwriter hreader hname
      hstate rfl rfl rfl helloTree_encodes
  refine ⟨readerStates, conditions, readerInfos, hreader, hlookup,
    hselects (by decide) ?_⟩
  intro piece hpiece
  rw [helloWrites, leadingPiece] at hpiece
  obtain rfl := Option.some.inj hpiece
  decide

/-- The client expects nothing but the end where the hello is the last
message. -/
theorem closing_message_not_selected :
    ¬ ∀ description protocol, Analyze.analyze description = some protocol →
      ∀ writer reader, protocol.Peers writer reader →
      ∀ writerStates readerStates,
        generateAgent writer =
          .ok (.mk (.controlFlow (.stateMachineOperation writerStates)) []) →
        generateAgent reader =
          .ok (.mk (.controlFlow (.stateMachineOperation readerStates)) []) →
      ∀ name state, name ≠ "Closed" →
        writer.states.lookup name = some state →
      ∀ message data writes target,
        state.transitions.filter (fun entry => entry.2.1.isWrite) =
          [(message, .writeTransition data writes, target)] →
      ∀ callback infos writeTree argumentNames targetState,
        writerStates.lookup name = some (.mk callback infos) →
        infos.lookup message =
          some (.mk writeTree argumentNames targetState) →
      ∀ pad encoding, writeTree.Encodes pad encoding →
        ∃ conditions readerInfos,
          readerStates.lookup name =
            some (.mk (lookaheadCallback conditions) readerInfos) ∧
          Selects conditions encoding message := by
  intro hall
  obtain ⟨hwriter, infos, hreader⟩ := generate_hello_closed
  obtain ⟨conditions, readerInfos, hlookup, hselects⟩ :=
    hall _ _ (analyze_hello "Closed") _ _ .serverFirst _ _ hwriter hreader
      "Open" ⟨[([72], .writeTransition (helloMessage "Closed").data
        helloWrites, "Closed")]⟩ (by decide) rfl _ _ _ _ rfl _ _ _ _ _ rfl rfl
      _ _ helloTree_encodes
  rw [List.lookup_cons_self] at hlookup
  obtain ⟨hcallback, _⟩ := StateInfo.mk.inj (Option.some.inj hlookup)
  have hconditions : conditions = [(.eofCondition, [72])] := by
    simpa [lookaheadCallback] using hcallback.symm
  have hvalue := hselects.value
  rw [hconditions, apply_eofCondition] at hvalue
  simp at hvalue

end NetworkProtocolDsl
