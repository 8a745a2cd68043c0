/-
Protocols of one message.

A message that gives each of its attributes once is parsed to what it stands
for; the analysis of a protocol of one message is one transition for each agent.
-/
import NetworkProtocolDsl.Analyze
import NetworkProtocolDsl.GrammarRoundTrip

namespace NetworkProtocolDsl

open Parse PartsToReadActions PartsToWriteActions

namespace Grammar

/-- A message with each of its attributes once. -/
def Message.ofAttributes (name : Octets) (whenState thenState agent : String)
    (data : List (String × DataType)) (parts : List MessagePart) :
    Message where
  name := name
  attributes := [⟨.whenState, whenState⟩, ⟨.thenState, thenState⟩,
    ⟨.agent, agent⟩]
  data := data
  parts := parts

/-- What such a message stands for. -/
def Message.treeOfAttributes (name : Octets)
    (whenState thenState agent : String) (data : List (String × DataType))
    (parts : List MessagePart) : NetworkProtocolDsl.Message where
  name := name
  whenState := .mk whenState none
  thenState := .mk thenState none
  agent := .mk agent none
  data := Assoc.ofPairs (data.map fun field => (field.1, field.2.tree))
  parts := messageSequenceTree parts

theorem Message.accepted_ofAttributes (name : Octets)
    (whenState thenState agent : String) {data : List (String × DataType)}
    {parts : List MessagePart} (hdata : data ≠ []) (hparts : parts ≠ [])
    (hpart : ∀ part ∈ parts, part.Accepted) :
    (Message.ofAttributes name whenState thenState agent data
      parts).Accepted := by
  refine ⟨?_, hdata, hparts, hpart⟩
  intro attributeName
  cases attributeName <;> simp [Message.ofAttributes]

/-- A protocol of one such message. -/
theorem parse_ofAttributes (name : Octets)
    (whenState thenState agent : String) {data : List (String × DataType)}
    {parts : List MessagePart} (hdata : data ≠ []) (hparts : parts ≠ [])
    (hpart : ∀ part ∈ parts, part.Accepted) :
    parse (ProtocolDescription.tokens
      [.ofAttributes name whenState thenState agent data parts]) =
      some (.ofMessages
        [Message.treeOfAttributes name whenState thenState agent data parts]) := by
  have haccepted := Message.accepted_ofAttributes name whenState thenState
    agent hdata hparts hpart
  refine parse_of_trees ⟨List.cons_ne_nil _ _, ?_⟩ rfl
  intro message hmessage
  rw [List.mem_singleton.mp hmessage]
  exact haccepted

end Grammar

/-- The transition of an agent that writes its own messages. -/
def singleTransition (message : Message)
    (readActions writeActions : List Action) (agentName : String) :
    Transition :=
  if message.agent.name = agentName then
    .writeTransition message.data writeActions
  else .readTransition message.data readActions

theorem analyze_singleton {message : Message}
    {readActions writeActions : List Action}
    (hread : partsToReadActions message.parts = some readActions)
    (hwrite : partsToWriteActions message.parts = some writeActions) :
    Analyze.analyze (.ofMessages [message]) = some
      ⟨⟨Analyze.addMessage [] message.name message
          (singleTransition message readActions writeActions "Client")⟩,
        ⟨Analyze.addMessage [] message.name message
          (singleTransition message readActions writeActions "Server")⟩⟩ := by
  have hagent : ∀ agentName, Analyze.analyzeAgent (.ofMessages [message])
      agentName = some ⟨Analyze.addMessage [] message.name message
        (singleTransition message readActions writeActions agentName)⟩ := by
    intro agentName
    have hmessage : Analyze.analyzeMessage agentName message =
        some (singleTransition message readActions writeActions agentName) := by
      unfold Analyze.analyzeMessage singleTransition
      split_ifs
      · rw [Analyze.analyzeWriteMessage, hwrite]
        rfl
      · rw [Analyze.analyzeReadMessage, hread]
        rfl
    rw [Analyze.analyzeAgent, Analyze.analyzeTransitions]
    change ([(message.name, message)].mapM _ >>= _) = _
    rw [List.mapM_cons]
    dsimp only
    rw [hmessage]
    rfl
  rw [Analyze.analyze, hagent, hagent]
  rfl

end NetworkProtocolDsl
