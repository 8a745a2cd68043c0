/-
The generated state machines of two peers, as a dialogue.

A state asks the application or looks ahead, and the state of the other peer
does the opposite; the messages that lead away from it are the same for both.
So whatever the order of the steps, each message arrives where it can be
received.
-/
import NetworkProtocolDsl.Library.Session
import NetworkProtocolDsl.PeerAgreement

namespace NetworkProtocolDsl

open Generate Analyze TransitionChoice
open Session (Side Dialogue Config)

namespace Generate

section StateMap

variable {states : List (String × State)} {stateMap : StateMap}

/-- What is in the state map is generated from a state of the agent. -/
theorem state_of_mapM_constructState
    (h : (states.mapM fun (name, state) => do
      let info ← constructState name state
      return (name, info)) = .ok stateMap)
    {name : String} {info : StateInfo}
    (hinfo : stateMap.lookup name = some info) :
    ∃ state, states.lookup name = some state ∧
      constructState name state = .ok info := by
  induction states generalizing stateMap with
  | nil =>
      obtain rfl := Except.ok.inj h
      contradiction
  | cons entry states ih =>
      obtain ⟨first, firstState⟩ := entry
      rw [List.mapM_cons] at h
      obtain ⟨pair, hpair, h⟩ := bind_eq_ok h
      obtain ⟨found, hfound, hpair⟩ := bind_eq_ok hpair
      obtain ⟨rest, hrest, h⟩ := bind_eq_ok h
      obtain rfl := Except.ok.inj hpair
      obtain rfl := Except.ok.inj h
      by_cases hname : name = first
      · subst hname
        rw [List.lookup_cons_self] at hinfo
        obtain rfl := Option.some.inj hinfo
        exact ⟨firstState, List.lookup_cons_self, hfound⟩
      · rw [Assoc.lookup_cons_ne hname] at hinfo ⊢
        exact ih hrest hinfo

theorem state_of_generateAgent {agent : Agent}
    (h : generateAgent agent =
      .ok (.mk (.controlFlow (.stateMachineOperation stateMap)) []))
    {name : String} {info : StateInfo}
    (hinfo : stateMap.lookup name = some info) :
    ∃ state, agent.states.lookup name = some state ∧
      constructState name state = .ok info := by
  obtain ⟨found, hfound, h⟩ := bind_eq_ok h
  obtain rfl : found = stateMap := by
    simpa using Except.ok.inj h
  obtain ⟨mapped, hmapped, hfound⟩ := bind_eq_ok hfound
  split at hfound
  · contradiction
  · obtain rfl := Except.ok.inj hfound
    exact state_of_mapM_constructState hmapped hinfo

end StateMap

/-- The transitions of a generated state, by name. -/
theorem lookup_constructTransitions
    {transitions : List (Octets × (Transition × String))}
    {type type' : Option TransitionType}
    {infos : List (Octets × TransitionInfo)}
    (h : constructTransitions transitions type = .ok (infos, type'))
    (name : Octets) (info : TransitionInfo) :
    infos.lookup name = some info ↔ ∃ transition target,
      transitions.lookup name = some (transition, target) ∧
        generateTransitionInfo transition target = .ok info := by
  induction transitions generalizing type type' infos with
  | nil =>
      obtain ⟨rfl, _⟩ := Prod.mk.inj (Except.ok.inj h)
      simp
  | cons first transitions ih =>
      obtain ⟨firstName, transition, target⟩ := first
      rw [constructTransitions] at h
      obtain ⟨found, hfound, h⟩ := bind_eq_ok h
      split at h
      · contradiction
      · obtain ⟨⟨rest, restType⟩, hrest, h⟩ := bind_eq_ok h
        obtain ⟨rfl, _⟩ := Prod.mk.inj (Except.ok.inj h)
        by_cases hname : name = firstName
        · subst hname
          rw [List.lookup_cons_self, List.lookup_cons_self]
          constructor
          · intro heq
            obtain rfl := Option.some.inj heq
            exact ⟨transition, target, rfl, hfound⟩
          · rintro ⟨transition', target', heq, hinfo⟩
            obtain ⟨rfl, rfl⟩ := Prod.mk.inj (Option.some.inj heq)
            rw [Except.ok.inj (hfound.symm.trans hinfo)]
        · rw [Assoc.lookup_cons_ne hname, Assoc.lookup_cons_ne hname]
          exact ih hrest

theorem exists_lookup_constructTransitions
    {transitions : List (Octets × (Transition × String))}
    {type type' : Option TransitionType}
    {infos : List (Octets × TransitionInfo)}
    (h : constructTransitions transitions type = .ok (infos, type'))
    {name : Octets} {transition : Transition} {target : String}
    (hlookup : transitions.lookup name = some (transition, target)) :
    ∃ info, generateTransitionInfo transition target = .ok info ∧
      infos.lookup name = some info := by
  obtain ⟨info, hinfo⟩ : ∃ info,
      generateTransitionInfo transition target = .ok info := by
    have hmem := Assoc.mem_of_lookup hlookup
    clear hlookup
    induction transitions generalizing type infos with
    | nil => contradiction
    | cons first transitions ih =>
        rw [constructTransitions] at h
        obtain ⟨found, hfound, h⟩ := bind_eq_ok h
        split at h
        · contradiction
        · obtain ⟨⟨rest, restType⟩, hrest, h⟩ := bind_eq_ok h
          obtain ⟨_, rfl⟩ := Prod.mk.inj (Except.ok.inj h)
          rcases List.mem_cons.mp hmem with rfl | hmem
          · exact ⟨found, hfound⟩
          · exact ih hrest hmem
  exact ⟨info, hinfo, (lookup_constructTransitions h name info).mpr
    ⟨transition, target, hlookup, hinfo⟩⟩

/-- The type of the state is that of each of its transitions. -/
theorem type_of_constructTransitions
    {transitions : List (Octets × (Transition × String))}
    {type type' : Option TransitionType}
    {infos : List (Octets × TransitionInfo)}
    (h : constructTransitions transitions type = .ok (infos, type')) :
    (∀ expected, type = some expected → type' = some expected) ∧
      ∀ entry ∈ transitions, type' = some (transitionType entry.2.1) := by
  induction transitions generalizing type infos with
  | nil =>
      obtain ⟨_, rfl⟩ := Prod.mk.inj (Except.ok.inj h)
      exact ⟨fun _ heq => heq, fun entry hentry => by cases hentry⟩
  | cons first transitions ih =>
      obtain ⟨name, transition, target⟩ := first
      rw [constructTransitions] at h
      obtain ⟨info, _, h⟩ := bind_eq_ok h
      split at h
      · contradiction
      · rename_i hsame
        obtain ⟨⟨rest, restType⟩, hrest, h⟩ := bind_eq_ok h
        obtain ⟨_, rfl⟩ := Prod.mk.inj (Except.ok.inj h)
        obtain ⟨hkept, hall⟩ := ih hrest
        have hfirst := hkept _ rfl
        constructor
        · rintro expected rfl
          have heq : expected = transitionType transition := by
            simpa using hsame
          rw [hfirst, heq]
        · exact List.forall_mem_cons.mpr ⟨hfirst, hall⟩

/-- The condition of every transition, beside its name. -/
def ConditionsOf (transitions : List (Octets × (Transition × String)))
    (conditions : List (TransitionCondition × Octets)) : Prop :=
  List.Forall₂ (fun entry condition => condition.2 = entry.1 ∧
    readStateCondition entry.2.1 entry.2.2 = .ok condition.1)
    transitions conditions

section ConditionsOf

variable {transitions : List (Octets × (Transition × String))}
  {conditions : List (TransitionCondition × Octets)}

theorem ConditionsOf.exists_entry (h : ConditionsOf transitions conditions)
    {condition : TransitionCondition × Octets}
    (hcondition : condition ∈ conditions) :
    ∃ entry ∈ transitions, condition.2 = entry.1 ∧
      readStateCondition entry.2.1 entry.2.2 = .ok condition.1 := by
  induction h with
  | nil => exact absurd hcondition List.not_mem_nil
  | cons hfirst _ ih =>
      rcases List.mem_cons.mp hcondition with rfl | hrest
      · exact ⟨_, List.mem_cons_self, hfirst⟩
      · obtain ⟨entry, hentry, hfound⟩ := ih hrest
        exact ⟨entry, List.mem_cons_of_mem _ hentry, hfound⟩

theorem ConditionsOf.exists_condition (h : ConditionsOf transitions conditions)
    {entry : Octets × (Transition × String)} (hentry : entry ∈ transitions) :
    ∃ condition, (condition, entry.1) ∈ conditions := by
  induction h with
  | nil => exact absurd hentry List.not_mem_nil
  | cons hfirst _ ih =>
      rcases List.mem_cons.mp hentry with rfl | hrest
      · rw [← hfirst.1]
        exact ⟨_, List.mem_cons_self⟩
      · obtain ⟨condition, hcondition⟩ := ih hrest
        exact ⟨condition, List.mem_cons_of_mem _ hcondition⟩

end ConditionsOf

theorem conditionsOf_of_mapM
    {transitions : List (Octets × (Transition × String))}
    {conditions : List (TransitionCondition × Octets)}
    (h : (transitions.mapM fun (name, transition, targetState) => do
      let condition ← readStateCondition transition targetState
      return (condition, name)) = .ok conditions) :
    ConditionsOf transitions conditions := by
  induction transitions generalizing conditions with
  | nil =>
      obtain rfl := Except.ok.inj h
      exact .nil
  | cons entry transitions ih =>
      rw [List.mapM_cons] at h
      obtain ⟨pair, hpair, h⟩ := bind_eq_ok h
      obtain ⟨condition, hcondition, hpair⟩ := bind_eq_ok hpair
      obtain ⟨rest, hrest, h⟩ := bind_eq_ok h
      obtain rfl := Except.ok.inj hpair
      obtain rfl := Except.ok.inj h
      exact .cons ⟨rfl, hcondition⟩ (ih hrest)

/-- A generated state asks the application and has the writes, or looks ahead
and has the reads. -/
theorem constructState_cases {name : String} {state : State}
    {info : StateInfo} (h : constructState name state = .ok info)
    (hname : name ≠ "Closed") :
    ∃ infos type, constructTransitions state.transitions none =
        .ok (infos, type) ∧
      ((∀ entry ∈ state.transitions, entry.2.1.isWrite = true) ∧
          info = .mk (stateCallback name) infos ∨
        (∀ entry ∈ state.transitions, entry.2.1.isWrite = false) ∧
          ∃ conditions, ConditionsOf state.transitions conditions ∧
            conditions ≠ [] ∧
            info = .mk (lookaheadCallback conditions) infos) := by
  obtain ⟨⟨infos, type⟩, hinfos, h⟩ := bind_eq_ok h
  refine ⟨infos, type, hinfos, ?_⟩
  simp only [if_pos hname] at h
  have htype := (type_of_constructTransitions hinfos).2
  split at h
  · rename_i hread
    right
    obtain ⟨callback, hcallback, h⟩ := bind_eq_ok h
    obtain ⟨conditions, hconditions, hcallback⟩ := bind_eq_ok hcallback
    split at hcallback
    · contradiction
    · rename_i hne
      obtain rfl := Except.ok.inj hcallback
      refine ⟨fun entry hentry => ?_, conditions,
        conditionsOf_of_mapM hconditions, ?_, (Except.ok.inj h).symm⟩
      rotate_left
      · simpa using hne
      rw [htype entry hentry, Option.getD_some] at hread
      cases hwrite : entry.2.1.isWrite with
      | false => rfl
      | true =>
          rw [(transitionType_eq_write_iff _).mpr hwrite] at hread
          contradiction
  · rename_i hwrite
    left
    refine ⟨fun entry hentry => ?_, (Except.ok.inj h).symm⟩
    rw [htype entry hentry, Option.getD_some] at hwrite
    exact (transitionType_eq_write_iff _).mp hwrite

end Generate

/-- The name of a peer; the client is in front. -/
def peerName : Side → String
  | .first => "Client"
  | .second => "Server"

theorem peerName_other_ne (side : Side) :
    peerName side.other ≠ peerName side := by
  cases side <;> decide

def Protocol.agent (protocol : Protocol) : Side → Agent
  | .first => protocol.client
  | .second => protocol.server

/-- A protocol for which both state machines are generated. -/
structure Peers (description : ProtocolDescription) where
  protocol : Protocol
  machines : Side → StateMap
  analyzed : analyze description = some protocol
  generated : ∀ side, generateAgent (protocol.agent side) =
    .ok (.mk (.controlFlow (.stateMachineOperation (machines side))) [])

namespace StateMap

variable (states : StateMap) (here : String) (message : Octets)
  (there : String)

/-- In this state the machine asks the application, which may have the message
written. -/
def Sends : Prop :=
  here ≠ "Closed" ∧ ∃ info transition, states.lookup here = some info ∧
    info.callbackOptree = stateCallback here ∧
    info.transitions.lookup message = some transition ∧
    transition.targetState = there

/-- In this state the machine looks ahead, for this message too. -/
def Receives : Prop :=
  here ≠ "Closed" ∧ ∃ info transition conditions,
    states.lookup here = some info ∧
    info.callbackOptree = lookaheadCallback conditions ∧
    info.transitions.lookup message = some transition ∧
    transition.targetState = there

end StateMap

namespace Peers

variable {description : ProtocolDescription} (peers : Peers description)

theorem analyzedAgent (side : Side) :
    analyzeAgent description (peerName side) =
      some (peers.protocol.agent side) := by
  obtain ⟨hclient, hserver⟩ := analyze_eq_some peers.analyzed
  cases side with
  | first => exact hclient
  | second => exact hserver

variable {side : Side} {here there : String} {name : Octets}

/-- The transitions of a generated state are the messages that leave it. -/
theorem transition_iff {state : State}
    (hstate : (peers.protocol.agent side).states.lookup here = some state)
    {transition : Transition} {target : String} :
    state.transitions.lookup name = some (transition, target) ↔
      ∃ message, description.messages.lookup name = some message ∧
        message.whenState.name = here ∧ message.thenState.name = target ∧
        analyzeMessage (peerName side) message = some transition := by
  have hlookup := transition?_analyzeAgent (peers.analyzedAgent side) here name
  rw [Agent.transition?, Analyze.transition?, hstate, Option.bind_some]
    at hlookup
  rw [hlookup]
  constructor
  · intro h
    obtain ⟨message, hmessage, h⟩ := Option.bind_eq_some_iff.mp h
    split at h
    · rename_i hwhen
      obtain ⟨found, hfound, hpair⟩ := Option.map_eq_some_iff.mp h
      obtain ⟨rfl, rfl⟩ := Prod.mk.inj hpair
      exact ⟨message, hmessage, hwhen.symm, rfl, hfound⟩
    · contradiction
  · rintro ⟨message, hmessage, rfl, rfl, hanalyze⟩
    rw [hmessage, Option.bind_some, if_pos rfl, hanalyze]
    rfl

/-- The peer looks ahead in this state, under the conditions of its transitions.
-/
structure LooksAhead (peers : Peers description) (side : Side) (here : String)
    (state : State) (conditions : List (TransitionCondition × Octets)) :
    Prop where
  found : (peers.protocol.agent side).states.lookup here = some state
  reads : ∀ name message, description.messages.lookup name = some message →
    message.whenState.name = here → message.agent.name ≠ peerName side
  conditionsOf : ConditionsOf state.transitions conditions
  nonempty : conditions ≠ []

variable {peers}

/-- What the state map holds for a state of a peer, by the messages that leave
it. -/
theorem info_cases {info : StateInfo}
    (hinfo : (peers.machines side).lookup here = some info)
    (hhere : here ≠ "Closed") :
    (∀ name transition, info.transitions.lookup name = some transition ↔
      ∃ message analyzed, description.messages.lookup name = some message ∧
        message.whenState.name = here ∧
        analyzeMessage (peerName side) message = some analyzed ∧
        generateTransitionInfo analyzed message.thenState.name =
          .ok transition) ∧
    ((∀ name message, description.messages.lookup name = some message →
        message.whenState.name = here →
          message.agent.name = peerName side) ∧
      info.callbackOptree = stateCallback here ∨
    ∃ state conditions, peers.LooksAhead side here state conditions ∧
      info.callbackOptree = lookaheadCallback conditions) := by
  obtain ⟨state, hstate, hconstruct⟩ :=
    state_of_generateAgent (peers.generated side) hinfo
  obtain ⟨infos, type, hinfos, hcases⟩ := constructState_cases hconstruct hhere
  obtain ⟨transitions, htransitions, _⟩ :=
    analyzeAgent_eq_some (peers.analyzedAgent side)
  have hwrites : ∀ name message, description.messages.lookup name =
      some message → message.whenState.name = here →
      ∃ entry ∈ state.transitions,
        entry.2.1.isWrite = decide (message.agent.name = peerName side) := by
    intro name message hmessage hwhen
    obtain ⟨transition, htransition⟩ := analyzeMessage_isSome htransitions
      (Assoc.mem_of_lookup hmessage)
    have hlookup := (transition_iff peers hstate).mpr
      ⟨message, hmessage, hwhen, rfl, htransition⟩
    exact ⟨_, Assoc.mem_of_lookup hlookup, isWrite_of_analyzeMessage
      htransition⟩
  have hsame : info.transitions = infos := by
    rcases hcases with ⟨_, rfl⟩ | ⟨_, _, _, _, rfl⟩ <;> rfl
  refine ⟨fun name transition => ?_, ?_⟩
  · rw [hsame, lookup_constructTransitions hinfos]
    constructor
    · rintro ⟨analyzed, target, hlookup, hgenerate⟩
      obtain ⟨message, hmessage, hwhen, rfl, hanalyze⟩ :=
        (transition_iff peers hstate).mp hlookup
      exact ⟨message, analyzed, hmessage, hwhen, hanalyze, hgenerate⟩
    · rintro ⟨message, analyzed, hmessage, hwhen, hanalyze, hgenerate⟩
      exact ⟨analyzed, _, (transition_iff peers hstate).mpr
        ⟨message, hmessage, hwhen, rfl, hanalyze⟩, hgenerate⟩
  · rcases hcases with ⟨hall, rfl⟩ |
      ⟨hall, conditions, hconditions, hne, rfl⟩
    · refine Or.inl ⟨fun name message hmessage hwhen => ?_, rfl⟩
      obtain ⟨entry, hentry, hwrite⟩ := hwrites name message hmessage hwhen
      rw [hall entry hentry] at hwrite
      exact of_decide_eq_true hwrite.symm
    · refine Or.inr ⟨state, conditions, ⟨hstate,
        fun name message hmessage hwhen => ?_, hconditions, hne⟩, rfl⟩
      obtain ⟨entry, hentry, hwrite⟩ := hwrites name message hmessage hwhen
      rw [hall entry hentry] at hwrite
      exact of_decide_eq_false hwrite.symm

variable (peers) in
/-- Both states that a message names are generated, and its transition is in
the first. -/
theorem info_of_message {message : Message}
    (hmessage : description.messages.lookup name = some message)
    (side : Side) :
    (∃ info analyzed transition,
      (peers.machines side).lookup message.whenState.name = some info ∧
      analyzeMessage (peerName side) message = some analyzed ∧
      generateTransitionInfo analyzed message.thenState.name =
        .ok transition ∧
      info.transitions.lookup name = some transition) ∧
    ∃ target, (peers.machines side).lookup message.thenState.name =
      some target := by
  have hmem := Assoc.mem_of_lookup hmessage
  have hstate := fun state => lookup_analyzeAgent (peers.analyzedAgent side)
    state
  obtain ⟨transitions, htransitions, _⟩ :=
    analyzeAgent_eq_some (peers.analyzedAgent side)
  obtain ⟨analyzed, hanalyze⟩ := analyzeMessage_isSome htransitions hmem
  constructor
  · obtain ⟨state, hlookup⟩ := Option.isSome_iff_exists.mp
      ((hstate message.whenState.name).mpr ⟨_, hmem, Or.inl rfl⟩)
    obtain ⟨info, hconstruct, hinfo⟩ :=
      lookup_generateAgent (peers.generated side) hlookup
    obtain ⟨⟨infos, type⟩, hinfos, hconstruct⟩ := bind_eq_ok hconstruct
    have htransition := (transition_iff peers hlookup).mpr
      ⟨message, hmessage, rfl, rfl, hanalyze⟩
    obtain ⟨transition, hgenerate, hmapped⟩ :=
      exists_lookup_constructTransitions hinfos htransition
    refine ⟨info, analyzed, transition, hinfo, hanalyze, hgenerate, ?_⟩
    have hsame : info.transitions = infos := by
      simp only at hconstruct
      split at hconstruct
      · split at hconstruct
        · obtain ⟨_, _, hconstruct⟩ := bind_eq_ok hconstruct
          rw [← Except.ok.inj hconstruct]
          rfl
        · rw [← Except.ok.inj hconstruct]
          rfl
      · rw [← Except.ok.inj hconstruct]
        rfl
    rw [hsame, hmapped]
  · obtain ⟨state, hlookup⟩ := Option.isSome_iff_exists.mp
      ((hstate message.thenState.name).mpr ⟨_, hmem, Or.inr rfl⟩)
    obtain ⟨info, _, hinfo⟩ :=
      lookup_generateAgent (peers.generated side) hlookup
    exact ⟨info, hinfo⟩

theorem targetState_of_generateTransitionInfo {transition : Transition}
    {info : TransitionInfo} (h : generateTransitionInfo transition there =
      .ok info) : info.targetState = there := by
  obtain ⟨tree, _, h⟩ := bind_eq_ok h
  rw [← Except.ok.inj h]
  rfl

/-- A peer sends the messages it is named for. -/
theorem sends_iff : (peers.machines side).Sends here name there ↔
    here ≠ "Closed" ∧ ∃ message,
      description.messages.lookup name = some message ∧
        message.whenState.name = here ∧ message.thenState.name = there ∧
        message.agent.name = peerName side := by
  refine and_congr_right fun hhere => ⟨?_, ?_⟩
  · rintro ⟨info, transition, hinfo, hcallback, htransition, htarget⟩
    obtain ⟨htransitions, hcases⟩ := info_cases hinfo hhere
    obtain ⟨message, analyzed, hmessage, hwhen, _, hgenerate⟩ :=
      (htransitions name transition).mp htransition
    rw [targetState_of_generateTransitionInfo hgenerate] at htarget
    refine ⟨message, hmessage, hwhen, htarget, ?_⟩
    rcases hcases with ⟨hall, _⟩ | ⟨_, conditions, _, hlookahead⟩
    · exact hall name message hmessage hwhen
    · rw [hcallback] at hlookahead
      cases hlookahead
  · rintro ⟨message, hmessage, rfl, rfl, hagent⟩
    obtain ⟨⟨info, analyzed, transition, hinfo, _, hgenerate, htransition⟩, _⟩
      := info_of_message peers hmessage side
    refine ⟨info, transition, hinfo, ?_, htransition,
      targetState_of_generateTransitionInfo hgenerate⟩
    rcases (info_cases hinfo hhere).2 with ⟨_, hcallback⟩ | ⟨_, _, hlooks, _⟩
    · exact hcallback
    · exact absurd hagent (hlooks.reads name message hmessage rfl)

/-- A peer looks ahead for the messages of all others. -/
theorem receives_iff : (peers.machines side).Receives here name there ↔
    here ≠ "Closed" ∧ ∃ message,
      description.messages.lookup name = some message ∧
        message.whenState.name = here ∧ message.thenState.name = there ∧
        message.agent.name ≠ peerName side := by
  refine and_congr_right fun hhere => ⟨?_, ?_⟩
  · rintro ⟨info, transition, conditions, hinfo, hcallback, htransition,
      htarget⟩
    obtain ⟨htransitions, hcases⟩ := info_cases hinfo hhere
    obtain ⟨message, analyzed, hmessage, hwhen, _, hgenerate⟩ :=
      (htransitions name transition).mp htransition
    rw [targetState_of_generateTransitionInfo hgenerate] at htarget
    refine ⟨message, hmessage, hwhen, htarget, ?_⟩
    rcases hcases with ⟨_, hasks⟩ | ⟨_, _, hlooks, _⟩
    · rw [hcallback] at hasks
      cases hasks
    · exact hlooks.reads name message hmessage hwhen
  · rintro ⟨message, hmessage, rfl, rfl, hagent⟩
    obtain ⟨⟨info, analyzed, transition, hinfo, _, hgenerate, htransition⟩, _⟩
      := info_of_message peers hmessage side
    rcases (info_cases hinfo hhere).2 with ⟨hall, _⟩ |
      ⟨_, conditions, _, hcallback⟩
    · exact absurd (hall name message hmessage rfl) hagent
    · exact ⟨info, transition, conditions, hinfo, hcallback, htransition,
        targetState_of_generateTransitionInfo hgenerate⟩

variable (peers)

/-- The two state machines, by the names of states and messages. -/
def dialogue : Dialogue String Octets where
  sends side := (peers.machines side).Sends
  receives side := (peers.machines side).Receives
  mirrored := by
    intro side here name there hsends
    obtain ⟨hhere, message, hmessage, hwhen, hthen, hagent⟩ :=
      sends_iff.mp hsends
    refine receives_iff.mpr ⟨hhere, message, hmessage, hwhen, hthen, ?_⟩
    rw [hagent]
    exact (peerName_other_ne side).symm
  functional := by
    intro side here name there there' hreceives hreceives'
    obtain ⟨_, message, hmessage, _, rfl, _⟩ := receives_iff.mp hreceives
    obtain ⟨_, message', hmessage', _, rfl, _⟩ := receives_iff.mp hreceives'
    rw [Option.some.inj (hmessage.symm.trans hmessage')]
  exclusive := by
    rintro side here name name' there there' ⟨_, info, _, hinfo, hasks, _⟩
      ⟨_, info', _, conditions, hinfo', hlooks, _⟩
    obtain rfl := Option.some.inj (hinfo.symm.trans hinfo')
    rw [hasks] at hlooks
    cases hlooks

section Hello

theorem hello_lookup :
    (hello "Open").messages.lookup [72] = some (helloMessage "Open") :=
  rfl

theorem helloPeers_nonempty : Nonempty (Peers (hello "Open")) := by
  obtain ⟨hwriter, states, hreader⟩ := generate_hello
  refine ⟨⟨_, fun side => side.casesOn states [("Open", helloWriter "Open")],
    analyze_hello "Open", fun side => ?_⟩⟩
  cases side with
  | first => exact hreader
  | second => exact hwriter

/-- The server has said hello, and the client has not heard it. -/
def helloSaid : Config String Octets :=
  (Config.start "Open").send .second [72] "Open"

theorem helloSaid_reachable (peers : Peers (hello "Open")) :
    peers.dialogue.Reachable "Open" helloSaid :=
  .single (.send (sends_iff.mpr ⟨by decide, helloMessage "Open", hello_lookup,
    rfl, rfl, rfl⟩))

end Hello

variable {peers} {c : Config String Octets}

/-- However the steps of the two generated state machines interleave, no message
crosses another, the oldest message on its way to a machine is one that its
state looks ahead for, and what one machine has done is a part of what the
other one has: the conversation goes on from there with what is on its way. -/
theorem conversation (h : peers.dialogue.Reachable "Open" c) :
    (c.inbox .first = [] ∨ c.inbox .second = []) ∧
    (∀ side message rest, c.inbox side = message :: rest →
      (∃ there,
        (peers.machines side).Receives (c.place side) message there) ∧
      ∀ message' there,
        ¬ (peers.machines side).Sends (c.place side) message' there) ∧
    ∃ leader, c.view leader = c.view leader.other ++
        (c.inbox leader.other).map (leader, ·) ∧
      peers.dialogue.Talk "Open" (c.view leader) (c.place leader) ∧
      peers.dialogue.Talk "Open" (c.view leader.other)
        (c.place leader.other) := by
  obtain ⟨leader, hled⟩ := h.agrees
  exact ⟨h.one_way, fun _ _ _ hinbox => h.receivable hinbox, leader, hled.view,
    hled.talk_leader, hled.talk⟩

theorem conversation_hello : ∃ peers : Peers (hello "Open"),
    (∃ there, (peers.machines .first).Receives "Open" [72] there) ∧
    ∃ leader, helloSaid.view leader = helloSaid.view leader.other ++
        (helloSaid.inbox leader.other).map (leader, ·) ∧
      peers.dialogue.Talk "Open" (helloSaid.view leader)
        (helloSaid.place leader) := by
  obtain ⟨peers⟩ := helloPeers_nonempty
  obtain ⟨_, hreceives, leader, hview, htalk, _⟩ :=
    conversation (helloSaid_reachable peers)
  exact ⟨peers, (hreceives .first [72] [] rfl).1, leader, hview, htalk⟩

/-- Where neither machine can take a step everything was received, both are in
one state, and no message of the client or the server leads away from it. -/
theorem conversation_stuck_iff (h : peers.dialogue.Reachable "Open" c) :
    (∀ c', ¬ peers.dialogue.Step c c') ↔
      (∀ side, c.inbox side = []) ∧ c.place .first = c.place .second ∧
      (c.place .first = "Closed" ∨ ∀ entry ∈ description.messages,
        entry.2.whenState.name = c.place .first →
          ∀ side, entry.2.agent.name ≠ peerName side) := by
  rw [h.stuck_iff]
  refine and_congr_right fun hquiet => ?_
  have hplace := (h.of_quiet hquiet).1
  have hsame : ∀ side, c.place side = c.place .first := by
    intro side
    cases side with
    | first => rfl
    | second => exact hplace.symm
  constructor
  · intro hsilent
    refine ⟨hplace, ?_⟩
    by_cases hclosed : c.place .first = "Closed"
    · exact Or.inl hclosed
    · refine Or.inr fun entry hentry hwhen side hagent => ?_
      refine hsilent side entry.1 entry.2.thenState.name (sends_iff.mpr ?_)
      rw [hsame]
      exact ⟨hclosed, entry.2,
        Assoc.lookup_of_mem description.nodup hentry, hwhen, rfl, hagent⟩
  · rintro ⟨_, hclosed | hnone⟩ side message there hsends
    · exact (sends_iff.mp hsends).1 ((hsame side).trans hclosed)
    · obtain ⟨_, found, hfound, hwhen, _, hagent⟩ := sends_iff.mp hsends
      exact hnone _ (Assoc.mem_of_lookup hfound) (hwhen.trans (hsame side))
        side hagent

/-- The hello can still be heard. -/
theorem conversation_stuck_iff_hello : ∃ (peers : Peers (hello "Open"))
    (c : Config String Octets), peers.dialogue.Step helloSaid c := by
  obtain ⟨peers⟩ := helloPeers_nonempty
  by_contra hnone
  have hquiet := ((conversation_stuck_iff (helloSaid_reachable peers)).mp
    fun c hstep => hnone ⟨peers, c, hstep⟩).1 .first
  contradiction

end Peers

end NetworkProtocolDsl
