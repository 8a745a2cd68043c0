/-
What the code generator knows of a protocol.

The states, messages and transitions of both agents are collected in one pass
over each; the first transition of a message stands for the others.  For an
analyzed description this loses nothing: every message is there once, with one
transition that reads it and, where an agent writes it, one that writes it.
-/
import NetworkProtocolDsl.GeneratedStateMachine
import NetworkProtocolDsl.Library.FirstByKey
import NetworkProtocolDsl.PeerAgreement

namespace NetworkProtocolDsl

open Analyze TypeMapping PartsToReadActions PartsToWriteActions FirstByKey

/-- A transition as the loops over the agents meet it. -/
@[ext] structure TransitionEntry where
  agent : AgentName
  whenState : String
  name : Octets
  transition : Transition
  thenState : String

namespace TransitionEntry

def messageInfo (entry : TransitionEntry) : MessageInfo :=
  ⟨entry.name, messageNameToIdentifier entry.name, entry.whenState,
    entry.thenState, entry.agent, entry.transition.data⟩

def readInfo? (entry : TransitionEntry) : Option ReadTransitionInfo :=
  match entry.transition with
  | .readTransition data actions =>
      some ⟨entry.name, entry.whenState, entry.thenState, entry.agent, data,
        actions⟩
  | .writeTransition _ _ => none

def writeInfo? (entry : TransitionEntry) : Option WriteTransitionInfo :=
  match entry.transition with
  | .readTransition _ _ => none
  | .writeTransition data actions =>
      some ⟨entry.name, entry.whenState, entry.thenState, entry.agent, data,
        actions⟩

end TransitionEntry

namespace Agent

/-- The transitions of the agent in the order of its states. -/
def entries (agent : Agent) (name : AgentName) : List TransitionEntry :=
  agent.states.flatMap fun entry =>
    entry.2.transitions.map fun transition =>
      ⟨name, entry.1, transition.1, transition.2.1, transition.2.2⟩

theorem mem_entries {agent : Agent} {name : AgentName}
    (hnodup : (agent.states.map Prod.fst).Nodup) (honce : EachOnce agent.states)
    (entry : TransitionEntry) :
    entry ∈ agent.entries name ↔ entry.agent = name ∧
      agent.transition? entry.whenState entry.name =
        some (entry.transition, entry.thenState) := by
  obtain ⟨owner, whenState, message, transition, thenState⟩ := entry
  simp only [entries, List.mem_flatMap, List.mem_map, Prod.exists,
    TransitionEntry.mk.injEq, transition?, Analyze.transition?,
    Option.bind_eq_some_iff]
  constructor
  · rintro ⟨here, state, hstate, other, found, target, htransition, rfl, rfl,
      rfl, rfl, rfl⟩
    have hlookup := Assoc.lookup_of_mem hnodup hstate
    exact ⟨rfl, state, hlookup,
      Assoc.lookup_of_mem (honce _ state hlookup) htransition⟩
  · rintro ⟨rfl, state, hstate, htransition⟩
    exact ⟨whenState, state, Assoc.mem_of_lookup hstate, message, transition,
      thenState, Assoc.mem_of_lookup htransition, rfl, rfl, rfl, rfl, rfl⟩

end Agent

namespace Analyze

theorem nodup_addMessage {states : List (String × State)}
    (h : (states.map Prod.fst).Nodup) (name : Octets) (message : Message)
    (transition : Transition) :
    ((addMessage states name message transition).map Prod.fst).Nodup := by
  rw [addMessage, Assoc.map_fst_assign]
  exact Assoc.nodup_insert _ _ (Assoc.nodup_insert _ _ h)

theorem nodup_assemble (messages : List (Octets × Message))
    (transitions : List (Octets × Transition))
    {states : List (String × State)} (h : (states.map Prod.fst).Nodup) :
    ((assemble messages transitions states).map Prod.fst).Nodup := by
  induction messages generalizing transitions states with
  | nil => exact h
  | cons entry messages ih =>
      cases transitions with
      | nil => exact h
      | cons transition transitions =>
          exact ih transitions
            (nodup_addMessage h entry.1 entry.2 transition.2)

variable {description : ProtocolDescription} {agentName : String}
  {agent : Agent}

theorem nodup_analyzeAgent (h : analyzeAgent description agentName = some agent) :
    (agent.states.map Prod.fst).Nodup := by
  obtain ⟨transitions, _, rfl⟩ := analyzeAgent_eq_some h
  exact nodup_assemble _ _ List.nodup_nil

/-- The loops over an analyzed agent meet its messages. -/
theorem mem_entries_analyzeAgent
    (h : analyzeAgent description agentName = some agent) (name : AgentName)
    (entry : TransitionEntry) :
    entry ∈ agent.entries name ↔ entry.agent = name ∧ ∃ message,
      description.messages.lookup entry.name = some message ∧
      entry.whenState = message.whenState.name ∧
      entry.thenState = message.thenState.name ∧
      analyzeMessage agentName message = some entry.transition := by
  rw [Agent.mem_entries (nodup_analyzeAgent h) (eachOnce_analyzeAgent h),
    transition?_analyzeAgent h]
  refine and_congr_right fun _ => ?_
  rw [Option.bind_eq_some_iff]
  refine exists_congr fun message => and_congr_right fun _ => ?_
  constructor
  · intro hfound
    split at hfound
    · rename_i hwhen
      obtain ⟨found, hfound, hpair⟩ := Option.map_eq_some_iff.mp hfound
      obtain ⟨rfl, hthen⟩ := Prod.mk.inj hpair
      exact ⟨hwhen, hthen.symm, hfound⟩
    · contradiction
  · rintro ⟨hwhen, hthen, hfound⟩
    rw [if_pos hwhen, hfound, hthen]
    rfl

/-- The name tells the transitions of an agent apart. -/
theorem unique_entries (h : analyzeAgent description agentName = some agent)
    (name : AgentName) : Unique TransitionEntry.name (agent.entries name) := by
  intro entry hentry other hother hname
  obtain ⟨howner, message, hmessage, hwhen, hthen, hfound⟩ :=
    (mem_entries_analyzeAgent h name entry).mp hentry
  obtain ⟨howner', message', hmessage', hwhen', hthen', hfound'⟩ :=
    (mem_entries_analyzeAgent h name other).mp hother
  rw [hname, hmessage'] at hmessage
  obtain rfl := Option.some.inj hmessage
  exact TransitionEntry.ext (howner.trans howner'.symm)
    (hwhen.trans hwhen'.symm) hname
    (Option.some.inj (hfound.symm.trans hfound')) (hthen.trans hthen'.symm)

end Analyze

namespace ProtocolInfo

theorem foldl_states {σ : Type} (agent : Agent) (name : AgentName)
    (f : σ → AgentName → String → Octets × (Transition × String) → σ)
    (acc : σ) :
    agent.states.foldl (fun acc entry => entry.2.transitions.foldl
      (fun acc transition => f acc name entry.1 transition) acc) acc =
      (agent.entries name).foldl (fun acc entry => f acc entry.agent
        entry.whenState (entry.name, (entry.transition, entry.thenState)))
        acc := by
  rw [Agent.entries, List.foldl_flatMap]
  simp only [List.foldl_map, Prod.mk.eta]

theorem processMessages_eq (messages : List MessageInfo) (name : AgentName)
    (agent : Agent) :
    processMessages messages name agent = firsts MessageInfo.name messages
      ((agent.entries name).map TransitionEntry.messageInfo) := by
  rw [processMessages, foldl_states, firsts, List.foldl_map]
  rfl

theorem collectMessages_eq (protocol : Protocol) :
    collectMessages protocol = firsts MessageInfo.name []
      ((protocol.client.entries .client ++ protocol.server.entries .server).map
        TransitionEntry.messageInfo) := by
  rw [collectMessages, processMessages_eq, processMessages_eq, firsts, firsts,
    firsts, List.map_append, List.foldl_append]

theorem collectTransition_eq (info : ProtocolInfo) (entry : TransitionEntry) :
    info.collectTransition entry.agent entry.whenState
        (entry.name, (entry.transition, entry.thenState)) =
      { info with
        readTransitions := firsts ReadTransitionInfo.messageName
          info.readTransitions entry.readInfo?.toList
        writeTransitions := firsts WriteTransitionInfo.messageName
          info.writeTransitions entry.writeInfo?.toList } := by
  obtain ⟨agent, whenState, name, transition, thenState⟩ := entry
  cases transition with
  | readTransition data actions =>
      simp only [collectTransition, TransitionEntry.readInfo?,
        TransitionEntry.writeInfo?, Option.toList, firsts, List.foldl,
        FirstByKey.collect]
      split <;> rfl
  | writeTransition data actions =>
      simp only [collectTransition, TransitionEntry.readInfo?,
        TransitionEntry.writeInfo?, Option.toList, firsts, List.foldl,
        FirstByKey.collect]
      split <;> rfl

theorem foldl_collectTransition (entries : List TransitionEntry)
    (info : ProtocolInfo) :
    entries.foldl (fun info entry => info.collectTransition entry.agent
        entry.whenState (entry.name, (entry.transition, entry.thenState)))
        info =
      { info with
        readTransitions := firsts ReadTransitionInfo.messageName
          info.readTransitions (entries.filterMap TransitionEntry.readInfo?)
        writeTransitions := firsts WriteTransitionInfo.messageName
          info.writeTransitions
          (entries.filterMap TransitionEntry.writeInfo?) } := by
  induction entries generalizing info with
  | nil => rfl
  | cons entry entries ih =>
      rw [List.foldl_cons, ih, collectTransition_eq]
      cases hread : entry.readInfo? with
      | none =>
          cases hwrite : entry.writeInfo? with
          | none => simp [hread, hwrite, firsts]
          | some write => simp [hread, hwrite, firsts]
      | some read =>
          cases hwrite : entry.writeInfo? with
          | none => simp [hread, hwrite, firsts]
          | some write => simp [hread, hwrite, firsts]

/-- What is collected: the transitions of both agents, each kind by name. -/
theorem collectTransitions_eq (protocol : Protocol) :
    collectTransitions protocol =
      { states := collectStates protocol
        messages := collectMessages protocol
        readTransitions := firsts ReadTransitionInfo.messageName []
          ((protocol.client.entries .client).filterMap
              TransitionEntry.readInfo? ++
            (protocol.server.entries .server).filterMap
              TransitionEntry.readInfo?)
        writeTransitions := firsts WriteTransitionInfo.messageName []
          ((protocol.client.entries .client).filterMap
              TransitionEntry.writeInfo? ++
            (protocol.server.entries .server).filterMap
              TransitionEntry.writeInfo?) } := by
  rw [collectTransitions, processAgent, processAgent, foldl_states,
    foldl_states, ← List.foldl_append, foldl_collectTransition,
    List.filterMap_append, List.filterMap_append]

end ProtocolInfo

/-- The message, read by an agent that does not write it; a message of neither
agent is read by the client. -/
def ReadTransitionInfo.Of (info : ReadTransitionInfo)
    (description : ProtocolDescription) : Prop :=
  ∃ message, description.messages.lookup info.messageName = some message ∧
    info.whenState = message.whenState.name ∧
    info.thenState = message.thenState.name ∧ info.data = message.data ∧
    partsToReadActions message.parts = some info.actions ∧
    info.agent = if message.agent.name = "Client" then .server else .client

/-- The message, written by its agent. -/
def WriteTransitionInfo.Of (info : WriteTransitionInfo)
    (description : ProtocolDescription) : Prop :=
  ∃ message, description.messages.lookup info.messageName = some message ∧
    info.whenState = message.whenState.name ∧
    info.thenState = message.thenState.name ∧ info.data = message.data ∧
    partsToWriteActions message.parts = some info.actions ∧
    message.agent.name = info.agent.text

/-- The message; its agent is always the client, who is looked at first. -/
def MessageInfo.Of (info : MessageInfo) (description : ProtocolDescription) :
    Prop :=
  ∃ message, description.messages.lookup info.name = some message ∧
    info.identifier = messageNameToIdentifier info.name ∧
    info.whenState = message.whenState.name ∧
    info.thenState = message.thenState.name ∧ info.agent = .client ∧
    info.data = message.data

namespace Analyze

theorem analyzeMessage_eq_read {agentName : String} {message : Message}
    {data : MessageData} {actions : List Action} :
    analyzeMessage agentName message = some (.readTransition data actions) ↔
      message.agent.name ≠ agentName ∧ data = message.data ∧
        partsToReadActions message.parts = some actions := by
  unfold analyzeMessage
  split
  · rename_i hagent
    simp [analyzeWriteMessage, hagent]
  · rename_i hagent
    simp [analyzeReadMessage, hagent, eq_comm, and_comm]

theorem analyzeMessage_eq_write {agentName : String} {message : Message}
    {data : MessageData} {actions : List Action} :
    analyzeMessage agentName message = some (.writeTransition data actions) ↔
      message.agent.name = agentName ∧ data = message.data ∧
        partsToWriteActions message.parts = some actions := by
  unfold analyzeMessage
  split
  · rename_i hagent
    simp [analyzeWriteMessage, hagent, eq_comm, and_comm]
  · rename_i hagent
    simp [analyzeReadMessage, hagent]

theorem data_of_analyzeMessage {agentName : String} {message : Message}
    {transition : Transition}
    (h : analyzeMessage agentName message = some transition) :
    transition.data = message.data := by
  cases transition with
  | readTransition data actions => exact (analyzeMessage_eq_read.mp h).2.1
  | writeTransition data actions => exact (analyzeMessage_eq_write.mp h).2.1

section Collected

variable {description : ProtocolDescription} {protocol : Protocol}
  {agentName : String} {agent : Agent}

theorem mem_readInfos (h : analyzeAgent description agentName = some agent)
    (name : AgentName) (info : ReadTransitionInfo) :
    info ∈ (agent.entries name).filterMap TransitionEntry.readInfo? ↔
      info.agent = name ∧ ∃ message,
        description.messages.lookup info.messageName = some message ∧
        info.whenState = message.whenState.name ∧
        info.thenState = message.thenState.name ∧
        message.agent.name ≠ agentName ∧ info.data = message.data ∧
        partsToReadActions message.parts = some info.actions := by
  simp only [List.mem_filterMap, mem_entries_analyzeAgent h]
  constructor
  · rintro ⟨⟨owner, whenState, message, transition, thenState⟩,
      ⟨howner, found, hfound, hwhen, hthen, hanalyzed⟩, hinfo⟩
    cases transition with
    | readTransition data actions =>
        obtain rfl := Option.some.inj hinfo
        exact ⟨howner, found, hfound, hwhen, hthen,
          analyzeMessage_eq_read.mp hanalyzed⟩
    | writeTransition _ _ => contradiction
  · rintro ⟨howner, found, hfound, hwhen, hthen, hread⟩
    exact ⟨⟨info.agent, info.whenState, info.messageName,
      .readTransition info.data info.actions, info.thenState⟩,
      ⟨howner, found, hfound, hwhen, hthen, analyzeMessage_eq_read.mpr hread⟩,
      rfl⟩

theorem mem_writeInfos (h : analyzeAgent description agentName = some agent)
    (name : AgentName) (info : WriteTransitionInfo) :
    info ∈ (agent.entries name).filterMap TransitionEntry.writeInfo? ↔
      info.agent = name ∧ ∃ message,
        description.messages.lookup info.messageName = some message ∧
        info.whenState = message.whenState.name ∧
        info.thenState = message.thenState.name ∧
        message.agent.name = agentName ∧ info.data = message.data ∧
        partsToWriteActions message.parts = some info.actions := by
  simp only [List.mem_filterMap, mem_entries_analyzeAgent h]
  constructor
  · rintro ⟨⟨owner, whenState, message, transition, thenState⟩,
      ⟨howner, found, hfound, hwhen, hthen, hanalyzed⟩, hinfo⟩
    cases transition with
    | readTransition _ _ => contradiction
    | writeTransition data actions =>
        obtain rfl := Option.some.inj hinfo
        exact ⟨howner, found, hfound, hwhen, hthen,
          analyzeMessage_eq_write.mp hanalyzed⟩
  · rintro ⟨howner, found, hfound, hwhen, hthen, hwrite⟩
    exact ⟨⟨info.agent, info.whenState, info.messageName,
      .writeTransition info.data info.actions, info.thenState⟩,
      ⟨howner, found, hfound, hwhen, hthen,
        analyzeMessage_eq_write.mpr hwrite⟩, rfl⟩

theorem name_of_readInfo? (entry : TransitionEntry) (info : ReadTransitionInfo)
    (h : entry.readInfo? = some info) : info.messageName = entry.name := by
  obtain ⟨_, _, _, transition, _⟩ := entry
  cases transition with
  | readTransition data actions =>
      obtain rfl := Option.some.inj h
      rfl
  | writeTransition _ _ => contradiction

theorem name_of_writeInfo? (entry : TransitionEntry)
    (info : WriteTransitionInfo) (h : entry.writeInfo? = some info) :
    info.messageName = entry.name := by
  obtain ⟨_, _, _, transition, _⟩ := entry
  cases transition with
  | readTransition _ _ => contradiction
  | writeTransition data actions =>
      obtain rfl := Option.some.inj h
      rfl

variable (h : analyze description = some protocol)

include h

theorem mem_readTransitions (info : ReadTransitionInfo) :
    info ∈ (ProtocolInfo.collectTransitions protocol).readTransitions ↔
      info.Of description := by
  obtain ⟨hclient, hserver⟩ := analyze_eq_some h
  have hunique := (unique_entries hclient .client).filterMap name_of_readInfo?
  have hunique' := (unique_entries hserver .server).filterMap
    name_of_readInfo?
  rw [ProtocolInfo.collectTransitions_eq, mem_firsts_append hunique hunique',
    mem_readInfos hclient, mem_readInfos hserver]
  constructor
  · rintro (⟨hagent, message, hmessage, hwhen, hthen, hother, hdata, hreads⟩ |
      ⟨⟨hagent, message, hmessage, hwhen, hthen, hother, hdata, hreads⟩,
        hnew⟩)
    · exact ⟨message, hmessage, hwhen, hthen, hdata, hreads,
        hagent.trans (if_neg hother).symm⟩
    · refine ⟨message, hmessage, hwhen, hthen, hdata, hreads, ?_⟩
      by_cases hwriter : message.agent.name = "Client"
      · rw [if_pos hwriter, hagent]
      · refine absurd (List.mem_map.mpr ⟨{ info with agent := .client },
          (mem_readInfos hclient _ _).mpr ⟨rfl, message, hmessage, hwhen,
            hthen, hwriter, hdata, hreads⟩, rfl⟩) hnew
  · rintro ⟨message, hmessage, hwhen, hthen, hdata, hreads, hagent⟩
    by_cases hwriter : message.agent.name = "Client"
    · rw [if_pos hwriter] at hagent
      refine Or.inr ⟨⟨hagent, message, hmessage, hwhen, hthen, ?_, hdata,
        hreads⟩, fun hold => ?_⟩
      · rw [hwriter]
        decide
      · obtain ⟨other, hother, hname⟩ := List.mem_map.mp hold
        obtain ⟨_, found, hfound, _, _, hreader, _⟩ :=
          (mem_readInfos hclient _ _).mp hother
        rw [hname, hmessage] at hfound
        obtain rfl := Option.some.inj hfound
        exact hreader hwriter
    · rw [if_neg hwriter] at hagent
      exact Or.inl ⟨hagent, message, hmessage, hwhen, hthen, hwriter, hdata,
        hreads⟩

theorem mem_writeTransitions (info : WriteTransitionInfo) :
    info ∈ (ProtocolInfo.collectTransitions protocol).writeTransitions ↔
      info.Of description := by
  obtain ⟨hclient, hserver⟩ := analyze_eq_some h
  have hunique := (unique_entries hclient .client).filterMap
    name_of_writeInfo?
  have hunique' := (unique_entries hserver .server).filterMap
    name_of_writeInfo?
  rw [ProtocolInfo.collectTransitions_eq, mem_firsts_append hunique hunique',
    mem_writeInfos hclient, mem_writeInfos hserver]
  constructor
  · rintro (⟨hagent, message, hmessage, hwhen, hthen, hwriter, hdata, hwrites⟩
      | ⟨⟨hagent, message, hmessage, hwhen, hthen, hwriter, hdata, hwrites⟩, _⟩)
    · refine ⟨message, hmessage, hwhen, hthen, hdata, hwrites, ?_⟩
      rw [hwriter, hagent, AgentName.text]
    · refine ⟨message, hmessage, hwhen, hthen, hdata, hwrites, ?_⟩
      rw [hwriter, hagent, AgentName.text]
  · rintro ⟨message, hmessage, hwhen, hthen, hdata, hwrites, hwriter⟩
    cases hagent : info.agent with
    | client =>
        rw [hagent, AgentName.text] at hwriter
        exact Or.inl ⟨rfl, message, hmessage, hwhen, hthen, hwriter, hdata,
          hwrites⟩
    | server =>
        rw [hagent, AgentName.text] at hwriter
        refine Or.inr ⟨⟨rfl, message, hmessage, hwhen, hthen, hwriter, hdata,
          hwrites⟩, fun hold => ?_⟩
        obtain ⟨other, hother, hname⟩ := List.mem_map.mp hold
        obtain ⟨_, found, hfound, _, _, hclientWrites, _⟩ :=
          (mem_writeInfos hclient _ _).mp hother
        rw [hname, hmessage] at hfound
        obtain rfl := Option.some.inj hfound
        rw [hwriter] at hclientWrites
        exact absurd hclientWrites (by decide)

theorem mem_collectMessages (info : MessageInfo) :
    info ∈ ProtocolInfo.collectMessages protocol ↔ info.Of description := by
  obtain ⟨hclient, hserver⟩ := analyze_eq_some h
  have hmap : List.map TransitionEntry.messageInfo =
      List.filterMap (some ∘ TransitionEntry.messageInfo) :=
    List.filterMap_eq_map.symm
  have hname : ∀ (entry : TransitionEntry) (info : MessageInfo),
      (some ∘ TransitionEntry.messageInfo) entry = some info →
        info.name = entry.name := by
    intro entry info hinfo
    rw [← Option.some.inj hinfo, TransitionEntry.messageInfo]
  have hunique := (unique_entries hclient .client).filterMap hname
  have hunique' := (unique_entries hserver .server).filterMap hname
  rw [ProtocolInfo.collectMessages_eq, List.map_append, hmap,
    mem_firsts_append hunique hunique', ← hmap]
  simp only [List.mem_map, mem_entries_analyzeAgent hclient,
    mem_entries_analyzeAgent hserver]
  constructor
  · rintro (⟨entry, ⟨howner, message, hmessage, hwhen, hthen, hanalyzed⟩,
      rfl⟩ | ⟨⟨entry, ⟨_, message, hmessage, hwhen, hthen, _⟩, rfl⟩, hnew⟩)
    · exact ⟨message, hmessage, rfl, hwhen, hthen, howner,
        data_of_analyzeMessage hanalyzed⟩
    · obtain ⟨transition, htransition⟩ := analyzeMessage_isSome
        (analyzeAgent_eq_some hclient).choose_spec.1
        (Assoc.mem_of_lookup hmessage)
      exact absurd ⟨_, ⟨⟨.client, entry.whenState, entry.name, transition,
        entry.thenState⟩, ⟨rfl, message, hmessage, hwhen, hthen, htransition⟩,
        rfl⟩, rfl⟩ hnew
  · rintro ⟨message, hmessage, hidentifier, hwhen, hthen, hagent, hdata⟩
    obtain ⟨transition, htransition⟩ := analyzeMessage_isSome
      (analyzeAgent_eq_some hclient).choose_spec.1
      (Assoc.mem_of_lookup hmessage)
    refine Or.inl ⟨⟨.client, info.whenState, info.name, transition,
      info.thenState⟩, ⟨rfl, message, hmessage, hwhen, hthen, htransition⟩, ?_⟩
    rw [TransitionEntry.messageInfo, data_of_analyzeMessage htransition,
      ← hdata, ← hidentifier, ← hagent]

omit h in
theorem mem_stateNames (h : analyzeAgent description agentName = some agent)
    (state : String) :
    state ∈ agent.stateNames ↔ ∃ entry ∈ description.messages,
      state = entry.2.whenState.name ∨ state = entry.2.thenState.name := by
  constructor
  · intro hmem
    obtain ⟨entry, hentry, hstate⟩ := List.mem_flatMap.mp hmem
    rcases List.mem_cons.mp hstate with rfl | htarget
    · refine (lookup_analyzeAgent h entry.1).mp ?_
      rw [Assoc.lookup_of_mem (nodup_analyzeAgent h) hentry]
      rfl
    · obtain ⟨transition, htransition, rfl⟩ := List.mem_map.mp htarget
      obtain ⟨_, message, hmessage, _, hthen, _⟩ :=
        (mem_entries_analyzeAgent h .client _).mp (List.mem_flatMap.mpr
          ⟨entry, hentry, List.mem_map_of_mem htransition⟩)
      exact ⟨(transition.1, message), Assoc.mem_of_lookup hmessage,
        Or.inr hthen⟩
  · intro hstate
    obtain ⟨found, hfound⟩ := Option.isSome_iff_exists.mp
      ((lookup_analyzeAgent h state).mpr hstate)
    exact List.mem_flatMap.mpr ⟨(state, found), Assoc.mem_of_lookup hfound,
      List.mem_cons_self⟩

theorem mem_collectStates (state : String) :
    state ∈ ProtocolInfo.collectStates protocol ↔
      ∃ entry ∈ description.messages,
        state = entry.2.whenState.name ∨ state = entry.2.thenState.name := by
  obtain ⟨hclient, hserver⟩ := analyze_eq_some h
  have hkeys : (protocol.stateNames.map (·, ())).map Prod.fst =
      protocol.stateNames := by
    rw [List.map_map]
    exact List.map_id _
  have hnodup : ((protocol.stateNames.map (·, ())).map Prod.fst).Nodup := by
    rw [hkeys]
    exact List.nodup_dedup _
  rw [ProtocolInfo.collectStates, ((Assoc.perm_ofPairs hnodup).map
    Prod.fst).mem_iff, hkeys, Protocol.stateNames, List.mem_dedup,
    List.mem_append, mem_stateNames hclient, mem_stateNames hserver, or_self]

end Collected

end Analyze

section Written

open ProtocolInfo Analyze

variable {description : ProtocolDescription} {protocol : Protocol}
  (hanalyze : analyze description = some protocol)
  {entry : Octets × Message} (hentry : entry ∈ description.messages)

include hanalyze hentry

theorem exists_transition (agent : AgentName) : ∃ transition,
    analyzeMessage agent.text entry.2 = some transition := by
  obtain ⟨hclient, hserver⟩ := analyze_eq_some hanalyze
  cases agent with
  | client =>
      exact analyzeMessage_isSome
        (analyzeAgent_eq_some hclient).choose_spec.1 hentry
  | server =>
      exact analyzeMessage_isSome
        (analyzeAgent_eq_some hserver).choose_spec.1 hentry

/-- An agent writes its messages. -/
theorem exists_writeTransition {agent : AgentName}
    (hagent : entry.2.agent.name = agent.text) : ∃ info,
    info ∈ (collectTransitions protocol).writeTransitions ∧
      info.messageName = entry.1 ∧
      info.whenState = entry.2.whenState.name ∧ info.agent = agent := by
  obtain ⟨transition, htransition⟩ := exists_transition hanalyze hentry agent
  cases transition with
  | readTransition data actions =>
      exact absurd hagent (analyzeMessage_eq_read.mp htransition).1
  | writeTransition data actions =>
      obtain ⟨_, rfl, hactions⟩ := analyzeMessage_eq_write.mp htransition
      have hmessage := Assoc.lookup_of_mem description.nodup hentry
      exact ⟨⟨entry.1, entry.2.whenState.name, entry.2.thenState.name, agent,
        entry.2.data, actions⟩, (mem_writeTransitions hanalyze _).mpr
          ⟨entry.2, hmessage, rfl, rfl, rfl, hactions, hagent⟩, rfl, rfl, rfl⟩

end Written

/-- What is collected of the protocol is the description: every message once,
once to read and at most once to write, and the states they name. -/
structure Protocol.CollectedFrom (protocol : Protocol)
    (description : ProtocolDescription) : Prop where
  messages : ∀ info, info ∈ ProtocolInfo.collectMessages protocol ↔
    info.Of description
  messagesOnce :
    ((ProtocolInfo.collectMessages protocol).map MessageInfo.name).Nodup
  reads : ∀ info,
    info ∈ (ProtocolInfo.collectTransitions protocol).readTransitions ↔
      info.Of description
  readsOnce : ((ProtocolInfo.collectTransitions protocol).readTransitions.map
    ReadTransitionInfo.messageName).Nodup
  writes : ∀ info,
    info ∈ (ProtocolInfo.collectTransitions protocol).writeTransitions ↔
      info.Of description
  writesOnce : ((ProtocolInfo.collectTransitions protocol).writeTransitions.map
    WriteTransitionInfo.messageName).Nodup
  states : ∀ state, state ∈ ProtocolInfo.collectStates protocol ↔
    ∃ entry ∈ description.messages,
      state = entry.2.whenState.name ∨ state = entry.2.thenState.name
  statesInOrder : (ProtocolInfo.collectStates protocol).Pairwise (· < ·)

/-- The code generator collects an analyzed description. -/
theorem Analyze.collectedFrom_of_analyze {description : ProtocolDescription}
    {protocol : Protocol} (h : analyze description = some protocol) :
    protocol.CollectedFrom description where
  messages := mem_collectMessages h
  messagesOnce := by
    rw [ProtocolInfo.collectMessages_eq]
    exact nodup_firsts List.nodup_nil
  reads := mem_readTransitions h
  readsOnce := by
    rw [ProtocolInfo.collectTransitions_eq]
    exact nodup_firsts List.nodup_nil
  writes := mem_writeTransitions h
  writesOnce := by
    rw [ProtocolInfo.collectTransitions_eq]
    exact nodup_firsts List.nodup_nil
  states := mem_collectStates h
  statesInOrder := Assoc.sorted_ofPairs _

/-- A greeting of the server is read by the client and written by the server.
-/
theorem Analyze.collectedFrom_of_analyze_greeting :
    ∃ protocol, analyze (greeting "Server") = some protocol ∧
      protocol.CollectedFrom (greeting "Server") := by
  obtain ⟨protocol, h⟩ := analyze_greeting "Server"
  exact ⟨protocol, h, collectedFrom_of_analyze h⟩

end NetworkProtocolDsl
