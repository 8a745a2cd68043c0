/-
The states and transitions of an analyzed agent, message by message.

Every message adds one transition to its `when` state and makes its `then`
state a state; the agents of a protocol differ in who writes.
-/
import NetworkProtocolDsl.Analyze

namespace NetworkProtocolDsl

open PartsToReadActions PartsToWriteActions

namespace Analyze

/-- The transition of a name in a state, with its target. -/
def transition? (states : List (String × State)) (state : String)
    (name : Octets) : Option (Transition × String) :=
  (states.lookup state).bind fun s => s.transitions.lookup name

section AddMessage

variable (states : List (String × State)) (name : Octets) (message : Message)
  (transition : Transition)

theorem lookup_addMessage (state : String) :
    ((addMessage states name message transition).lookup state).isSome ↔
      (states.lookup state).isSome ∨ state = message.whenState.name ∨
        state = message.thenState.name := by
  unfold addMessage
  by_cases hwhen : state = message.whenState.name
  · subst hwhen
    by_cases hthen : message.whenState.name = message.thenState.name
    · simp [← hthen]
    · simp [hthen]
  · by_cases hthen : state = message.thenState.name
    · subst hthen
      simp [hwhen]
    · simp [hwhen, hthen]

theorem transition?_addMessage (state : String) (other : Octets) :
    transition? (addMessage states name message transition) state other =
      if state = message.whenState.name ∧ other = name then
        some (transition, message.thenState.name)
      else transition? states state other := by
  unfold transition? addMessage
  by_cases hwhen : state = message.whenState.name
  · subst hwhen
    by_cases hname : other = name
    · subst hname
      by_cases hthen : message.whenState.name = message.thenState.name
      · simp [← hthen]
      · simp [hthen]
    · by_cases hthen : message.whenState.name = message.thenState.name
      · cases hold : states.lookup message.whenState.name <;>
          simp [← hthen, hname, hold]
      · cases hold : states.lookup message.whenState.name <;>
          simp [hthen, hname, hold]
  · by_cases hthen : state = message.thenState.name
    · subst hthen
      cases hold : states.lookup message.thenState.name <;>
        simp [hwhen, hold]
    · simp [hwhen, hthen]

end AddMessage

/-- The first loop over the messages. -/
def analyzeMessages (agentName : String) (messages : List (Octets × Message)) :
    Option (List (Octets × Transition)) :=
  messages.mapM fun (name, message) =>
    (analyzeMessage agentName message).map (name, ·)

theorem analyzeMessages_cons {agentName : String} {name : Octets}
    {message : Message} {messages : List (Octets × Message)}
    {transitions : List (Octets × Transition)}
    (h : analyzeMessages agentName ((name, message) :: messages) =
      some transitions) :
    ∃ transition rest, analyzeMessage agentName message = some transition ∧
      analyzeMessages agentName messages = some rest ∧
      transitions = (name, transition) :: rest := by
  unfold analyzeMessages at h ⊢
  rw [List.mapM_cons] at h
  cases hmessage : analyzeMessage agentName message with
  | none => simp [hmessage] at h
  | some transition =>
      cases hrest : messages.mapM fun (name, message) =>
          (analyzeMessage agentName message).map (name, ·) with
      | none => simp [hmessage, hrest] at h
      | some rest =>
          refine ⟨transition, rest, rfl, rfl, ?_⟩
          simpa [hmessage, hrest] using h.symm

section Assemble

variable {agentName : String} {messages : List (Octets × Message)}
  {transitions : List (Octets × Transition)}

theorem lookup_assemble
    (h : analyzeMessages agentName messages = some transitions)
    (states : List (String × State)) (state : String) :
    ((assemble messages transitions states).lookup state).isSome ↔
      (states.lookup state).isSome ∨ ∃ entry ∈ messages,
        state = entry.2.whenState.name ∨ state = entry.2.thenState.name := by
  induction messages generalizing transitions states with
  | nil => simp [assemble]
  | cons entry messages ih =>
      obtain ⟨name, message⟩ := entry
      obtain ⟨transition, rest, _, hrest, rfl⟩ := analyzeMessages_cons h
      rw [assemble, ih hrest, lookup_addMessage]
      simp only [List.exists_mem_cons_iff, or_assoc]

theorem transition?_assemble
    (h : analyzeMessages agentName messages = some transitions)
    (hnodup : (messages.map Prod.fst).Nodup)
    (states : List (String × State)) (state : String) (name : Octets) :
    transition? (assemble messages transitions states) state name =
      match messages.lookup name with
      | some message =>
          if state = message.whenState.name then
            (analyzeMessage agentName message).map (·, message.thenState.name)
          else transition? states state name
      | none => transition? states state name := by
  induction messages generalizing transitions states with
  | nil => simp [assemble]
  | cons entry messages ih =>
      obtain ⟨first, message⟩ := entry
      obtain ⟨transition, rest, htransition, hrest, rfl⟩ :=
        analyzeMessages_cons h
      rw [List.map_cons, List.nodup_cons] at hnodup
      rw [assemble, ih hrest hnodup.2, transition?_addMessage]
      by_cases hname : name = first
      · subst hname
        have hnone : messages.lookup name = none :=
          Assoc.lookup_eq_none_of_not_mem hnodup.1
        simp [hnone, htransition]
      · rw [Assoc.lookup_cons_ne hname]
        simp [hname]

end Assemble

end Analyze

/-- The transition of a name in a state of the agent, with its target. -/
def Agent.transition? (agent : Agent) (state : String) (name : Octets) :
    Option (Transition × String) :=
  Analyze.transition? agent.states state name

namespace Analyze

theorem analyzeAgent_eq_some {protocol : ProtocolDescription}
    {agentName : String} {agent : Agent}
    (h : analyzeAgent protocol agentName = some agent) :
    ∃ transitions,
      analyzeMessages agentName protocol.messages = some transitions ∧
      agent = ⟨assemble protocol.messages transitions []⟩ := by
  unfold analyzeAgent at h
  obtain ⟨transitions, htransitions, hagent⟩ := Option.bind_eq_some_iff.mp h
  exact ⟨transitions, htransitions, (Option.some.inj hagent).symm⟩

/-- The states of an agent are those its messages name. -/
theorem lookup_analyzeAgent {protocol : ProtocolDescription}
    {agentName : String} {agent : Agent}
    (h : analyzeAgent protocol agentName = some agent) (state : String) :
    (agent.states.lookup state).isSome ↔ ∃ entry ∈ protocol.messages,
      state = entry.2.whenState.name ∨ state = entry.2.thenState.name := by
  obtain ⟨transitions, htransitions, rfl⟩ := analyzeAgent_eq_some h
  simp [lookup_assemble htransitions]

/-- The transitions of an agent are its messages, each in its `when` state. -/
theorem transition?_analyzeAgent {protocol : ProtocolDescription}
    {agentName : String} {agent : Agent}
    (h : analyzeAgent protocol agentName = some agent) (state : String)
    (name : Octets) :
    agent.transition? state name =
      (protocol.messages.lookup name).bind fun message =>
        if state = message.whenState.name then
          (analyzeMessage agentName message).map (·, message.thenState.name)
        else none := by
  obtain ⟨transitions, htransitions, rfl⟩ := analyzeAgent_eq_some h
  have hassemble := transition?_assemble htransitions protocol.nodup [] state
    name
  rw [Agent.transition?, hassemble]
  cases protocol.messages.lookup name <;> rfl

/-- Every message of an analyzed agent has a transition. -/
theorem analyzeMessage_isSome {agentName : String}
    {messages : List (Octets × Message)}
    {transitions : List (Octets × Transition)}
    (h : analyzeMessages agentName messages = some transitions)
    {entry : Octets × Message} (hentry : entry ∈ messages) :
    ∃ transition, analyzeMessage agentName entry.2 = some transition := by
  induction messages generalizing transitions with
  | nil => contradiction
  | cons first messages ih =>
      obtain ⟨name, message⟩ := first
      obtain ⟨transition, rest, htransition, hrest, _⟩ :=
        analyzeMessages_cons h
      rcases List.mem_cons.mp hentry with rfl | hmem
      · exact ⟨transition, htransition⟩
      · exact ih hrest hmem

theorem exists_analyzeMessages {agentName : String}
    {messages : List (Octets × Message)}
    (h : ∀ entry ∈ messages, ∃ transition,
      analyzeMessage agentName entry.2 = some transition) :
    ∃ transitions, analyzeMessages agentName messages = some transitions := by
  induction messages with
  | nil => exact ⟨[], rfl⟩
  | cons entry messages ih =>
      obtain ⟨transition, htransition⟩ := h entry List.mem_cons_self
      obtain ⟨rest, hrest⟩ := ih fun entry hentry =>
        h entry (List.mem_cons_of_mem _ hentry)
      obtain ⟨name, message⟩ := entry
      refine ⟨(name, transition) :: rest, ?_⟩
      unfold analyzeMessages at hrest ⊢
      rw [List.mapM_cons, hrest]
      simp only [htransition]
      rfl

/-- The parts of the messages decide whether a protocol is analyzed. -/
theorem analyze_of_parts {description : ProtocolDescription}
    (h : ∀ entry ∈ description.messages,
      (∃ actions, partsToReadActions entry.2.parts = some actions) ∧
        ∃ actions, partsToWriteActions entry.2.parts = some actions) :
    ∃ protocol, analyze description = some protocol := by
  have hagent : ∀ agentName, ∃ agent,
      analyzeAgent description agentName = some agent := by
    intro agentName
    have hmessage : ∀ entry ∈ description.messages, ∃ transition,
        analyzeMessage agentName entry.2 = some transition := by
      intro entry hentry
      obtain ⟨⟨reads, hreads⟩, ⟨writes, hwrites⟩⟩ := h entry hentry
      unfold analyzeMessage
      split
      · exact ⟨_, Option.map_eq_some_iff.mpr ⟨writes, hwrites, rfl⟩⟩
      · exact ⟨_, Option.map_eq_some_iff.mpr ⟨reads, hreads, rfl⟩⟩
    obtain ⟨transitions, htransitions⟩ := exists_analyzeMessages hmessage
    exact ⟨_, Option.bind_eq_some_iff.mpr ⟨transitions, htransitions, rfl⟩⟩
  obtain ⟨client, hclient⟩ := hagent "Client"
  obtain ⟨server, hserver⟩ := hagent "Server"
  refine ⟨⟨client, server⟩, ?_⟩
  unfold analyze
  rw [hclient, hserver]
  rfl

theorem analyze_eq_some {description : ProtocolDescription}
    {protocol : Protocol} (h : analyze description = some protocol) :
    analyzeAgent description "Client" = some protocol.client ∧
      analyzeAgent description "Server" = some protocol.server := by
  unfold analyze at h
  obtain ⟨client, hclient, hrest⟩ := Option.bind_eq_some_iff.mp h
  obtain ⟨server, hserver, hprotocol⟩ := Option.bind_eq_some_iff.mp hrest
  obtain rfl := Option.some.inj hprotocol
  exact ⟨hclient, hserver⟩

end Analyze

namespace Transition

def isWrite : Transition → Bool
  | .readTransition _ _ => false
  | .writeTransition _ _ => true

end Transition

/-- The message is the agent's to write. -/
def Agent.Writes (agent : Agent) (name : Octets) (message : Message) : Prop :=
  ∃ transition, transition.isWrite = true ∧
    agent.transition? message.whenState.name name =
      some (transition, message.thenState.name)

/-- The message is the agent's to read. -/
def Agent.Reads (agent : Agent) (name : Octets) (message : Message) : Prop :=
  ∃ transition, transition.isWrite = false ∧
    agent.transition? message.whenState.name name =
      some (transition, message.thenState.name)

/-- The agents have the same states and the same transitions between them, and
what one writes the other reads. -/
structure Protocol.Mirrored (protocol : Protocol)
    (description : ProtocolDescription) : Prop where
  states : ∀ state, (protocol.client.states.lookup state).isSome ↔
    (protocol.server.states.lookup state).isSome
  targets : ∀ state name,
    (protocol.client.transition? state name).map Prod.snd =
      (protocol.server.transition? state name).map Prod.snd
  messages : ∀ entry ∈ description.messages,
    (protocol.client.Writes entry.1 entry.2 ∧
      protocol.server.Reads entry.1 entry.2) ∨
    (protocol.client.Reads entry.1 entry.2 ∧
      protocol.server.Writes entry.1 entry.2)

namespace Analyze

theorem isWrite_of_analyzeMessage {agentName : String} {message : Message}
    {transition : Transition}
    (h : analyzeMessage agentName message = some transition) :
    transition.isWrite = decide (message.agent.name = agentName) := by
  unfold analyzeMessage at h
  split at h
  · rename_i hagent
    obtain ⟨actions, _, rfl⟩ := Option.map_eq_some_iff.mp h
    exact (decide_eq_true hagent).symm
  · rename_i hagent
    obtain ⟨actions, _, rfl⟩ := Option.map_eq_some_iff.mp h
    exact (decide_eq_false hagent).symm

/-- Where a transition leads does not depend on the agent. -/
theorem target_analyzeAgent {protocol : ProtocolDescription}
    {agentName : String} {agent : Agent}
    (h : analyzeAgent protocol agentName = some agent) (state : String)
    (name : Octets) :
    (agent.transition? state name).map Prod.snd =
      (protocol.messages.lookup name).bind fun message =>
        if state = message.whenState.name then some message.thenState.name
        else none := by
  rw [transition?_analyzeAgent h]
  cases hlookup : protocol.messages.lookup name with
  | none => rfl
  | some message =>
      obtain ⟨transitions, htransitions, _⟩ := analyzeAgent_eq_some h
      obtain ⟨transition, htransition⟩ := analyzeMessage_isSome htransitions
        (Assoc.mem_of_lookup hlookup)
      rw [Option.bind_some, Option.bind_some]
      split
      · rw [htransition]
        rfl
      · rfl

/-- A message is a transition of every agent, a write for the one it names. -/
theorem transition?_of_mem {protocol : ProtocolDescription}
    {agentName : String} {agent : Agent}
    (h : analyzeAgent protocol agentName = some agent)
    {entry : Octets × Message} (hentry : entry ∈ protocol.messages) :
    ∃ transition,
      transition.isWrite = decide (entry.2.agent.name = agentName) ∧
      agent.transition? entry.2.whenState.name entry.1 =
        some (transition, entry.2.thenState.name) := by
  obtain ⟨transitions, htransitions, _⟩ := analyzeAgent_eq_some h
  obtain ⟨transition, htransition⟩ := analyzeMessage_isSome htransitions hentry
  refine ⟨transition, isWrite_of_analyzeMessage htransition, ?_⟩
  have hlookup : protocol.messages.lookup entry.1 = some entry.2 :=
    Assoc.lookup_of_mem protocol.nodup hentry
  rw [transition?_analyzeAgent h, hlookup]
  simp [htransition]

theorem writes_iff {protocol : ProtocolDescription} {agentName : String}
    {agent : Agent} (h : analyzeAgent protocol agentName = some agent)
    {entry : Octets × Message} (hentry : entry ∈ protocol.messages) :
    (agent.Writes entry.1 entry.2 ↔ entry.2.agent.name = agentName) ∧
      (agent.Reads entry.1 entry.2 ↔ entry.2.agent.name ≠ agentName) := by
  obtain ⟨transition, hwrite, htransition⟩ := transition?_of_mem h hentry
  simp only [Agent.Writes, Agent.Reads, htransition, Option.some.injEq,
    Prod.mk.injEq, and_true]
  constructor
  · constructor
    · rintro ⟨_, htrue, rfl⟩
      exact of_decide_eq_true (hwrite.symm.trans htrue)
    · intro hagent
      exact ⟨transition, hwrite.trans (decide_eq_true hagent), rfl⟩
  · constructor
    · rintro ⟨_, hfalse, rfl⟩
      exact of_decide_eq_false (hwrite.symm.trans hfalse)
    · intro hagent
      exact ⟨transition, hwrite.trans (decide_eq_false hagent), rfl⟩

/-- The agents mirror each other if and only if every message is the client's
or the server's. -/
theorem mirrored_iff {description : ProtocolDescription} {protocol : Protocol}
    (h : analyze description = some protocol) :
    protocol.Mirrored description ↔ ∀ entry ∈ description.messages,
      entry.2.agent.name = "Client" ∨ entry.2.agent.name = "Server" := by
  obtain ⟨hclient, hserver⟩ := analyze_eq_some h
  constructor
  · intro hmirrored entry hentry
    rcases hmirrored.messages entry hentry with ⟨hwrites, _⟩ | ⟨_, hwrites⟩
    · exact Or.inl ((writes_iff hclient hentry).1.mp hwrites)
    · exact Or.inr ((writes_iff hserver hentry).1.mp hwrites)
  · intro hagents
    refine ⟨fun state => ?_, fun state name => ?_, fun entry hentry => ?_⟩
    · rw [lookup_analyzeAgent hclient, lookup_analyzeAgent hserver]
    · rw [target_analyzeAgent hclient, target_analyzeAgent hserver]
    · obtain ⟨hwrites, hreads⟩ := writes_iff hclient hentry
      obtain ⟨hwrites', hreads'⟩ := writes_iff hserver hentry
      rcases hagents entry hentry with hagent | hagent
      · refine Or.inl ⟨hwrites.mpr hagent, hreads'.mpr ?_⟩
        rw [hagent]
        decide
      · refine Or.inr ⟨hreads.mpr ?_, hwrites'.mpr hagent⟩
        rw [hagent]
        decide

/-- A protocol with one message, a fixed text that the agent writes. -/
def greeting (agent : String) : ProtocolDescription :=
  ⟨[([72], ⟨[72], .mk "Open" none, .mk "Closed" none, .mk agent none, [],
    [.tokenSequence ⟨[.stringLiteral [72]], none, none⟩]⟩)], by simp⟩

theorem analyze_greeting (agent : String) :
    ∃ protocol, analyze (greeting agent) = some protocol := by
  refine analyze_of_parts fun entry hentry => ?_
  obtain rfl := List.mem_singleton.mp hentry
  constructor
  · simp [partsToReadActions, PartsToReadActions.tokenSequence,
      individualTokenActions, TokenSequence.embeddedTerminator]
  · simp [partsToWriteActions, PartsToWriteActions.tokenSequence]

/-- The server greets the client. -/
theorem mirrored_iff_greeting :
    ∃ protocol, analyze (greeting "Server") = some protocol ∧
      (protocol.Mirrored (greeting "Server") ↔
        ∀ entry ∈ (greeting "Server").messages,
          entry.2.agent.name = "Client" ∨ entry.2.agent.name = "Server") := by
  obtain ⟨protocol, h⟩ := analyze_greeting "Server"
  exact ⟨protocol, h, mirrored_iff h⟩

/-- Both agents wait for a message of the agent `Proxy`. -/
theorem proxy_not_mirrored :
    ¬ ∀ description protocol, analyze description = some protocol →
      protocol.Mirrored description := by
  intro hall
  obtain ⟨protocol, h⟩ := analyze_greeting "Proxy"
  obtain ⟨hclient, hserver⟩ := analyze_eq_some h
  have hmem := List.mem_cons_self (a := (greeting "Proxy").messages.head
    (by simp [greeting])) (l := [])
  rcases (hall _ protocol h).messages _ hmem with ⟨hwrites, _⟩ | ⟨_, hwrites⟩
  · have hagent := (writes_iff hclient hmem).1.mp hwrites
    exact absurd hagent (by decide)
  · have hagent := (writes_iff hserver hmem).1.mp hwrites
    exact absurd hagent (by decide)

end Analyze

end NetworkProtocolDsl
