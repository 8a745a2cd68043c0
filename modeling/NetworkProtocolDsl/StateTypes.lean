/-
The types of the states, and what a runner asks of its handler.

Every state has a variant of the data of the messages that leave it and one of
the data of those that lead to it.  The messages of both agents are in them,
but a handler answers only what its agent reads, and a runner sends only what
its agent writes.
-/
import Mathlib.Data.String.Basic
import NetworkProtocolDsl.Library.Grouping
import NetworkProtocolDsl.RunnerConversation
import NetworkProtocolDsl.StructNames

namespace NetworkProtocolDsl

open TypeMapping Grouping

/-- `using … = std::variant<…>;` -/
structure VariantType where
  name : String
  alternatives : List String
deriving DecidableEq, Repr

structure StatesResult where
  enumerators : List String
  outputs : List VariantType
  inputs : List VariantType

namespace GenerateStates

/-- The variant of the data of a group of messages. -/
def variant (kind : String) (group : String × List MessageInfo) :
    VariantType where
  name := stateNameToIdentifier group.1 ++ kind
  alternatives := group.2.map fun message => dataName message.identifier

/-- `generate_states`; no group is empty. -/
def generateStates (states : List String) (messages : List MessageInfo) :
    StatesResult where
  enumerators := states.map stateNameToIdentifier
  outputs := (groupBy MessageInfo.whenState messages).map (variant "Output")
  inputs := (groupBy MessageInfo.thenState messages).map (variant "Input")

/-- What the name of a variant stands for. -/
def alternatives (variants : List VariantType) (name : String) : List String :=
  ((variants.find? (·.name = name)).map VariantType.alternatives).getD []

end GenerateStates

/-- A call of a method of the handler. -/
structure HandlerCall where
  method : String
  argument : String
  output : String
deriving DecidableEq, Repr

namespace GenerateRunner

/-- `get_read_transitions_by_then_state`. -/
def readTransitionsByThenState (info : ProtocolInfo) (agent : AgentName) :
    List (String × List ReadTransitionInfo) :=
  groupBy ReadTransitionInfo.thenState
    (info.readTransitions.filter (·.agent = agent))

/-- `get_write_transitions_by_when_state`. -/
def writeTransitionsByWhenState (info : ProtocolInfo) (agent : AgentName) :
    List (String × List WriteTransitionInfo) :=
  groupBy WriteTransitionInfo.whenState
    (info.writeTransitions.filter (·.agent = agent))

/-- The states with a case in `dispatch_message`, and what is read there. -/
def caseGroups (info : ProtocolInfo) (agent : AgentName) :
    List (String × List ReadTransitionInfo) :=
  (readTransitionsByThenState info agent).filter fun group =>
    match (writeTransitionsByWhenState info agent).lookup group.1 with
    | none => false
    | some transitions => !transitions.isEmpty

def handlerCall (state argument : String) : HandlerCall where
  method := "on_" ++ stateNameToIdentifier state
  argument := argument
  output := stateNameToIdentifier state ++ "Output"

/-- The overloads `generate_handler_concept` asks for, besides `on_Open`. -/
def handlerConcept (info : ProtocolInfo) (agent : AgentName) :
    List HandlerCall :=
  (caseGroups info agent).flatMap fun group => group.2.map fun transition =>
    handlerCall group.1
      (dataName (messageNameToIdentifier transition.messageName))

/-- The calls in `dispatch_message`: a visit has one for each alternative. -/
def dispatchCalls (info : ProtocolInfo) (agent : AgentName)
    (inputs : List VariantType) : List HandlerCall :=
  (caseGroups info agent).flatMap fun group =>
    (GenerateStates.alternatives inputs
      (stateNameToIdentifier group.1 ++ "Input")).map (handlerCall group.1)

/-- The alternatives that `dispatch_output` has a send method for. -/
def sentTypes (info : ProtocolInfo) (agent : AgentName) : List String :=
  (info.writeTransitions.filter (·.agent = agent)).map fun transition =>
    dataName (messageNameToIdentifier transition.messageName)

end GenerateRunner

namespace GenerateStates

/-- The variant of a state that can be told apart has the data of its
messages. -/
theorem mem_alternatives_iff {key : MessageInfo → String} {kind : String}
    {messages : List MessageInfo} {state : String}
    (hapart : ∀ message ∈ messages, key message ≠ state →
      stateNameToIdentifier (key message) ≠ stateNameToIdentifier state)
    {type : String} :
    type ∈ alternatives ((groupBy key messages).map (variant kind))
        (stateNameToIdentifier state ++ kind) ↔
      ∃ message ∈ messages, key message = state ∧
        type = dataName message.identifier := by
  rw [alternatives]
  cases hfind : ((groupBy key messages).map (variant kind)).find?
      (·.name = stateNameToIdentifier state ++ kind) with
  | none =>
      refine iff_of_false List.not_mem_nil ?_
      rintro ⟨message, hmessage, hkey, _⟩
      have hgroup : (state, messages.filter (key · = state)) ∈
          groupBy key messages := by
        have hmem : message ∈ messages.filter (key · = state) :=
          List.mem_filter.mpr ⟨hmessage, decide_eq_true hkey⟩
        exact mem_groupBy_iff.mpr ⟨rfl, List.ne_nil_of_mem hmem⟩
      have hnone := List.find?_eq_none.mp hfind _
        (List.mem_map_of_mem hgroup)
      exact hnone (decide_eq_true rfl)
  | some found =>
      obtain ⟨⟨k, group⟩, hgroup, rfl⟩ :=
        List.mem_map.mp (List.mem_of_find?_eq_some hfind)
      have hnamed := List.find?_some hfind
      have hname := (String.append_left_inj kind).mp
        (of_decide_eq_true hnamed)
      obtain ⟨rfl, hne⟩ := mem_groupBy_iff.mp hgroup
      obtain ⟨first, hfirst⟩ := List.exists_mem_of_ne_nil _ hne
      obtain ⟨hfirst, hkey⟩ := List.mem_filter.mp hfirst
      have hkey := of_decide_eq_true hkey
      obtain rfl : k = state := by
        by_contra hother
        refine hapart first hfirst (hkey ▸ hother) ?_
        rw [hkey]
        exact hname
      have htypes : type ∈ (variant kind
          (k, messages.filter (key · = k))).alternatives ↔
            ∃ message, (message ∈ messages ∧ key message = k) ∧
              dataName message.identifier = type := by
        simp [variant]
      rw [Option.map_some, Option.getD_some, htypes]
      constructor
      · rintro ⟨message, ⟨hmessage, hmem⟩, rfl⟩
        exact ⟨message, hmessage, hmem, rfl⟩
      · rintro ⟨message, hmessage, hmem, rfl⟩
        exact ⟨message, ⟨hmessage, hmem⟩, rfl⟩

/-- The variants are of structs that are emitted. -/
theorem alternatives_defined {states : List String}
    {messages : List MessageInfo} {variantType : VariantType}
    (hmem : variantType ∈ (generateStates states messages).outputs ∨
      variantType ∈ (generateStates states messages).inputs)
    {type : String} (htype : type ∈ variantType.alternatives) :
    type ∈ (GenerateDataTypes.generateDataTypes messages).definitions.map
      StructDefinition.name := by
  have hgroup : ∃ kind key, variantType ∈
      (groupBy key messages).map (variant kind) := by
    rcases hmem with hmem | hmem
    · exact ⟨"Output", MessageInfo.whenState, hmem⟩
    · exact ⟨"Input", MessageInfo.thenState, hmem⟩
  obtain ⟨kind, key, hmem⟩ := hgroup
  obtain ⟨⟨state, group⟩, hgroup, rfl⟩ := List.mem_map.mp hmem
  obtain ⟨rfl, _⟩ := mem_groupBy_iff.mp hgroup
  obtain ⟨message, hmessage, rfl⟩ := List.mem_map.mp htype
  have hmessage := (List.mem_filter.mp hmessage).1
  exact List.mem_map.mpr ⟨_, List.mem_flatMap.mpr ⟨message, hmessage,
    List.mem_append_right _ List.mem_cons_self⟩, rfl⟩

end GenerateStates

/-- The agent whose parser of the message is kept: of two that do not write it
the client. -/
def Message.reader (message : Message) : AgentName :=
  if message.agent.name = "Client" then .server else .client

namespace ProtocolDescription

variable (description : ProtocolDescription)

/-- The agent reads a message that leads to the state, and writes one that
leaves it. -/
def Answers (agent : AgentName) (state : String) : Prop :=
  (∃ entry ∈ description.messages,
      entry.2.thenState.name = state ∧ entry.2.reader = agent) ∧
    ∃ entry ∈ description.messages,
      entry.2.whenState.name = state ∧ entry.2.agent.name = agent.text

def stateNames : List String :=
  description.messages.flatMap fun entry =>
    [entry.2.whenState.name, entry.2.thenState.name]

/-- Different states have different identifiers. -/
def StatesApart : Prop :=
  ∀ state ∈ description.stateNames, ∀ other ∈ description.stateNames,
    state ≠ other → stateNameToIdentifier state ≠ stateNameToIdentifier other

/-- Different messages have different identifiers, and different states do. -/
structure IdentifiersApart : Prop where
  messages : ∀ entry ∈ description.messages,
    ∀ other ∈ description.messages, entry.1 ≠ other.1 →
      messageNameToIdentifier entry.1 ≠ messageNameToIdentifier other.1
  states : description.StatesApart

variable {description}

theorem mem_stateNames {state : String} : state ∈ description.stateNames ↔
    ∃ entry ∈ description.messages,
      state = entry.2.whenState.name ∨ state = entry.2.thenState.name := by
  simp [stateNames, List.mem_flatMap]

theorem StatesApart.whenStates (h : description.StatesApart) :
    ∀ entry ∈ description.messages, ∀ other ∈ description.messages,
      entry.2.whenState.name ≠ other.2.whenState.name →
        stateNameToIdentifier entry.2.whenState.name ≠
          stateNameToIdentifier other.2.whenState.name :=
  fun entry hentry other hother =>
    h _ (mem_stateNames.mpr ⟨entry, hentry, Or.inl rfl⟩) _
      (mem_stateNames.mpr ⟨other, hother, Or.inl rfl⟩)

theorem StatesApart.thenStates (h : description.StatesApart) :
    ∀ entry ∈ description.messages, ∀ other ∈ description.messages,
      entry.2.thenState.name ≠ other.2.thenState.name →
        stateNameToIdentifier entry.2.thenState.name ≠
          stateNameToIdentifier other.2.thenState.name :=
  fun entry hentry other hother =>
    h _ (mem_stateNames.mpr ⟨entry, hentry, Or.inr rfl⟩) _
      (mem_stateNames.mpr ⟨other, hother, Or.inr rfl⟩)

end ProtocolDescription

theorem pingDescription_apart : pingDescription.IdentifiersApart where
  messages := by decide
  states := by
    rw [ProtocolDescription.StatesApart]
    decide

section Analyzed

open ProtocolInfo Analyze

variable {description : ProtocolDescription} {protocol : Protocol}
  (hanalyze : analyze description = some protocol)
  {entry : Octets × Message} (hentry : entry ∈ description.messages)

include hanalyze hentry

/-- Every message is read by its reader. -/
theorem exists_readTransition : ∃ info,
    info ∈ (collectTransitions protocol).readTransitions ∧
      info.messageName = entry.1 ∧
      info.thenState = entry.2.thenState.name ∧
      info.agent = entry.2.reader := by
  have hother : entry.2.agent.name ≠ entry.2.reader.text := by
    rw [Message.reader]
    split_ifs with hclient
    · rw [hclient]
      decide
    · exact hclient
  obtain ⟨transition, htransition⟩ :=
    exists_transition hanalyze hentry entry.2.reader
  cases transition with
  | readTransition data actions =>
      obtain ⟨_, rfl, hactions⟩ := analyzeMessage_eq_read.mp htransition
      have hmessage := Assoc.lookup_of_mem description.nodup hentry
      exact ⟨⟨entry.1, entry.2.whenState.name, entry.2.thenState.name,
        entry.2.reader, entry.2.data, actions⟩,
        (mem_readTransitions hanalyze _).mpr
          ⟨entry.2, hmessage, rfl, rfl, rfl, hactions, rfl⟩, rfl, rfl, rfl⟩
  | writeTransition data actions =>
      exact absurd (analyzeMessage_eq_write.mp htransition).1 hother

end Analyzed

namespace GenerateStates

open ProtocolInfo Analyze

variable {description : ProtocolDescription} {protocol : Protocol}

/-- The variants of the description, by their states. -/
theorem mem_alternatives_collected
    (hanalyze : analyze description = some protocol)
    {key : MessageInfo → String} (stateOf : Message → String)
    (hkey : ∀ info message, MessageInfo.Of info description →
      description.messages.lookup info.name = some message →
        key info = stateOf message)
    (hapart : ∀ entry ∈ description.messages,
      ∀ other ∈ description.messages, stateOf entry.2 ≠ stateOf other.2 →
        stateNameToIdentifier (stateOf entry.2) ≠
          stateNameToIdentifier (stateOf other.2))
    {here : Octets × Message} (hhere : here ∈ description.messages)
    {kind type : String} :
    type ∈ alternatives
        ((groupBy key (collectMessages protocol)).map (variant kind))
        (stateNameToIdentifier (stateOf here.2) ++ kind) ↔
      ∃ entry ∈ description.messages, stateOf entry.2 = stateOf here.2 ∧
        type = dataName (messageNameToIdentifier entry.1) := by
  have hentry : ∀ info ∈ collectMessages protocol,
      ∃ entry ∈ description.messages, key info = stateOf entry.2 ∧
        info.identifier = messageNameToIdentifier entry.1 := by
    intro info hinfo
    have hof := (mem_collectMessages hanalyze info).mp hinfo
    have ⟨message, hmessage, hidentifier, _⟩ := hof
    exact ⟨_, Assoc.mem_of_lookup hmessage, hkey info message hof hmessage,
      hidentifier⟩
  rw [mem_alternatives_iff]
  · constructor
    · rintro ⟨info, hinfo, hstate, rfl⟩
      obtain ⟨entry, hmem, hsame, hidentifier⟩ := hentry info hinfo
      exact ⟨entry, hmem, hsame.symm.trans hstate, by rw [hidentifier]⟩
    · rintro ⟨entry, hmem, hstate, rfl⟩
      have hof := MessageInfo.of_mem entry hmem
      have hlookup := Assoc.lookup_of_mem description.nodup hmem
      exact ⟨_, (mem_collectMessages hanalyze _).mpr hof,
        (hkey _ _ hof hlookup).trans hstate, rfl⟩
  · intro info hinfo hne
    obtain ⟨entry, hmem, hsame, _⟩ := hentry info hinfo
    rw [hsame] at hne ⊢
    exact hapart entry hmem here hhere hne

/-- What leads to a state is its input. -/
theorem mem_inputs_iff (hanalyze : analyze description = some protocol)
    (hapart : description.StatesApart) {here : Octets × Message}
    (hhere : here ∈ description.messages) {type : String} :
    type ∈ alternatives (generateStates (collectStates protocol)
        (collectMessages protocol)).inputs
        (stateNameToIdentifier here.2.thenState.name ++ "Input") ↔
      ∃ entry ∈ description.messages,
        entry.2.thenState.name = here.2.thenState.name ∧
          type = dataName (messageNameToIdentifier entry.1) := by
  refine mem_alternatives_collected hanalyze
    (fun message => message.thenState.name) ?_ hapart.thenStates hhere
  rintro info message ⟨found, hfound, _, _, hthen, _⟩ hmessage
  rw [hfound] at hmessage
  obtain rfl := Option.some.inj hmessage
  exact hthen

/-- What leaves a state is its output. -/
theorem mem_outputs_iff (hanalyze : analyze description = some protocol)
    (hapart : description.StatesApart) {here : Octets × Message}
    (hhere : here ∈ description.messages) {type : String} :
    type ∈ alternatives (generateStates (collectStates protocol)
        (collectMessages protocol)).outputs
        (stateNameToIdentifier here.2.whenState.name ++ "Output") ↔
      ∃ entry ∈ description.messages,
        entry.2.whenState.name = here.2.whenState.name ∧
          type = dataName (messageNameToIdentifier entry.1) := by
  refine mem_alternatives_collected hanalyze
    (fun message => message.whenState.name) ?_ hapart.whenStates hhere
  rintro info message ⟨found, hfound, _, hwhen, _⟩ hmessage
  rw [hfound] at hmessage
  obtain rfl := Option.some.inj hmessage
  exact hwhen

theorem enumerators_nodup_iff (hanalyze : analyze description = some protocol)
    (messages : List MessageInfo) :
    (generateStates (collectStates protocol) messages).enumerators.Nodup ↔
      description.StatesApart := by
  have hstates : (collectStates protocol).Nodup :=
    (collectedFrom_of_analyze hanalyze).statesInOrder.imp fun hlt => hlt.ne
  have hmem : ∀ state, state ∈ collectStates protocol ↔
      state ∈ description.stateNames := fun state =>
    (mem_collectStates hanalyze state).trans
      ProtocolDescription.mem_stateNames.symm
  rw [generateStates, List.nodup_map_iff_inj_on hstates]
  constructor
  · intro hinj state hstate other hother hne heq
    exact hne (hinj state ((hmem state).mpr hstate) other
      ((hmem other).mpr hother) heq)
  · intro hapart state hstate other hother heq
    by_contra hne
    exact hapart state ((hmem state).mp hstate) other ((hmem other).mp hother)
      hne heq

/-- States that can be told apart have variants of different names. -/
theorem nodup_variants {key : MessageInfo → String} (kind : String)
    {messages : List MessageInfo}
    (hapart : ∀ message ∈ messages, ∀ other ∈ messages,
      key message ≠ key other →
        stateNameToIdentifier (key message) ≠
          stateNameToIdentifier (key other)) :
    (((groupBy key messages).map (variant kind)).map
      VariantType.name).Nodup := by
  have hkeys := (sorted_groupBy key messages).nodup
  have hmem : ∀ state ∈ (groupBy key messages).map Prod.fst,
      ∃ message ∈ messages, key message = state := by
    intro state hstate
    obtain ⟨⟨_, group⟩, hgroup, rfl⟩ := List.mem_map.mp hstate
    obtain ⟨rfl, hne⟩ := mem_groupBy_iff.mp hgroup
    obtain ⟨message, hmessage⟩ := List.exists_mem_of_ne_nil _ hne
    obtain ⟨hmessage, hkey⟩ := List.mem_filter.mp hmessage
    exact ⟨message, hmessage, of_decide_eq_true hkey⟩
  have hnames : ((groupBy key messages).map (variant kind)).map
      VariantType.name = ((groupBy key messages).map Prod.fst).map
        fun state => stateNameToIdentifier state ++ kind := by
    rw [List.map_map, List.map_map]
    rfl
  rw [hnames, List.nodup_map_iff_inj_on hkeys]
  intro state hstate other hother heq
  obtain ⟨message, hmessage, rfl⟩ := hmem state hstate
  obtain ⟨second, hsecond, rfl⟩ := hmem other hother
  by_contra hne
  exact hapart message hmessage second hsecond hne
    ((String.append_left_inj kind).mp heq)

theorem output_ne_input (state other : String) :
    stateNameToIdentifier state ++ "Output" ≠
      stateNameToIdentifier other ++ "Input" := by
  intro h
  have hend := congrArg (fun s => s.toList.reverse.take 4) h
  simp at hend

/-- The names in the header are different exactly if the states can be told
apart; then the output of a state is what leaves it and the input what leads to
it, and in any case the alternatives are structs of the messages. -/
theorem stateTypes_of_description
    (hanalyze : analyze description = some protocol) :
    let result := generateStates (collectStates protocol)
      (collectMessages protocol)
    ((result.enumerators.Nodup ∧
        ((result.outputs ++ result.inputs).map VariantType.name).Nodup) ↔
      description.StatesApart) ∧
    (description.StatesApart → ∀ here ∈ description.messages,
      (∀ type, type ∈ alternatives result.outputs
          (stateNameToIdentifier here.2.whenState.name ++ "Output") ↔
        ∃ entry ∈ description.messages,
          entry.2.whenState.name = here.2.whenState.name ∧
            type = dataName (messageNameToIdentifier entry.1)) ∧
      ∀ type, type ∈ alternatives result.inputs
          (stateNameToIdentifier here.2.thenState.name ++ "Input") ↔
        ∃ entry ∈ description.messages,
          entry.2.thenState.name = here.2.thenState.name ∧
            type = dataName (messageNameToIdentifier entry.1)) ∧
    ∀ variantType, variantType ∈ result.outputs ∨
        variantType ∈ result.inputs →
      ∀ type ∈ variantType.alternatives,
        type ∈ (GenerateDataTypes.generateDataTypes
          (collectMessages protocol)).definitions.map
            StructDefinition.name := by
  intro result
  have hentry : ∀ info ∈ collectMessages protocol,
      ∃ entry ∈ description.messages,
        info.whenState = entry.2.whenState.name ∧
          info.thenState = entry.2.thenState.name := by
    intro info hinfo
    obtain ⟨message, hmessage, _, hwhen, hthen, _⟩ :=
      (mem_collectMessages hanalyze info).mp hinfo
    exact ⟨_, Assoc.mem_of_lookup hmessage, hwhen, hthen⟩
  refine ⟨⟨fun hnodup => (enumerators_nodup_iff hanalyze _).mp hnodup.1,
    fun hapart => ⟨(enumerators_nodup_iff hanalyze _).mpr hapart, ?_⟩⟩,
    fun hapart here hhere => ⟨fun type => mem_outputs_iff hanalyze hapart hhere,
      fun type => mem_inputs_iff hanalyze hapart hhere⟩,
    fun variantType hmem type => alternatives_defined hmem⟩
  rw [List.map_append]
  refine List.nodup_append.mpr ⟨nodup_variants "Output" ?_,
    nodup_variants "Input" ?_, ?_⟩
  · intro info hinfo other hother
    obtain ⟨entry, hmem, hwhen, _⟩ := hentry info hinfo
    obtain ⟨second, hsecond, hwhen', _⟩ := hentry other hother
    rw [hwhen, hwhen']
    exact hapart.whenStates entry hmem second hsecond
  · intro info hinfo other hother
    obtain ⟨entry, hmem, _, hthen⟩ := hentry info hinfo
    obtain ⟨second, hsecond, _, hthen'⟩ := hentry other hother
    rw [hthen, hthen']
    exact hapart.thenStates entry hmem second hsecond
  · rintro name hname _ hother rfl
    obtain ⟨first, hfirst, hsame⟩ := List.mem_map.mp hname
    obtain ⟨second, hsecond, hsame'⟩ := List.mem_map.mp hother
    obtain ⟨group, _, rfl⟩ := List.mem_map.mp hfirst
    obtain ⟨group', _, rfl⟩ := List.mem_map.mp hsecond
    exact output_ne_input group.1 group'.1 (hsame.trans hsame'.symm)

/-- The three states of a ping, and the variants of those that are left and
those that are led to. -/
theorem stateTypes_of_description_ping :
    (generateStates (collectStates RunnerCall.pingProtocol)
      (collectMessages RunnerCall.pingProtocol)).enumerators =
        ["Asked", "Closed", "Open"] ∧
    (generateStates (collectStates RunnerCall.pingProtocol)
      (collectMessages RunnerCall.pingProtocol)).enumerators.Nodup ∧
    (((generateStates (collectStates RunnerCall.pingProtocol)
        (collectMessages RunnerCall.pingProtocol)).outputs ++
      (generateStates (collectStates RunnerCall.pingProtocol)
        (collectMessages RunnerCall.pingProtocol)).inputs).map
          VariantType.name).Nodup :=
  ⟨by decide, (stateTypes_of_description analyze_pingDescription).1.mpr
    pingDescription_apart.states⟩

end GenerateStates

namespace GenerateRunner

open ProtocolInfo Analyze GenerateStates

variable {description : ProtocolDescription} {protocol : Protocol}
  {agent : AgentName} {state : String}

theorem message_of_readTransition
    (hanalyze : analyze description = some protocol)
    {info : ReadTransitionInfo}
    (hinfo : info ∈ (collectTransitions protocol).readTransitions) :
    ∃ entry ∈ description.messages, info.messageName = entry.1 ∧
      info.thenState = entry.2.thenState.name ∧
      info.agent = entry.2.reader := by
  obtain ⟨message, hmessage, _, hthen, _, _, hagent⟩ :=
    (mem_readTransitions hanalyze info).mp hinfo
  exact ⟨_, Assoc.mem_of_lookup hmessage, rfl, hthen, hagent⟩

theorem message_of_writeTransition
    (hanalyze : analyze description = some protocol)
    {info : WriteTransitionInfo}
    (hinfo : info ∈ (collectTransitions protocol).writeTransitions) :
    ∃ entry ∈ description.messages, info.messageName = entry.1 ∧
      info.whenState = entry.2.whenState.name ∧
      entry.2.agent.name = info.agent.text := by
  obtain ⟨message, hmessage, hwhen, _, _, _, hagent⟩ :=
    (mem_writeTransitions hanalyze info).mp hinfo
  exact ⟨_, Assoc.mem_of_lookup hmessage, rfl, hwhen, hagent⟩

/-- The group of a state is what the agent reads that leads there. -/
theorem mem_readGroup_iff (hanalyze : analyze description = some protocol)
    {group : List ReadTransitionInfo}
    (hgroup : (state, group) ∈
      readTransitionsByThenState (collectTransitions protocol) agent)
    {name : Octets} :
    (∃ info ∈ group, info.messageName = name) ↔
      ∃ entry ∈ description.messages, entry.1 = name ∧
        entry.2.thenState.name = state ∧ entry.2.reader = agent := by
  obtain ⟨rfl, _⟩ := mem_groupBy_iff.mp hgroup
  simp only [List.mem_filter, decide_eq_true_eq]
  constructor
  · rintro ⟨info, ⟨⟨hinfo, hagent⟩, hthen⟩, hname⟩
    obtain ⟨entry, hentry, hsame, hthen', hreader⟩ :=
      message_of_readTransition hanalyze hinfo
    exact ⟨entry, hentry, hsame.symm.trans hname, hthen'.symm.trans hthen,
      hreader.symm.trans hagent⟩
  · rintro ⟨entry, hentry, rfl, hthen, hreader⟩
    obtain ⟨info, hinfo, hname, hthen', hagent⟩ :=
      exists_readTransition hanalyze hentry
    exact ⟨info, ⟨⟨hinfo, hagent.trans hreader⟩, hthen'.trans hthen⟩, hname⟩

theorem writes_iff (hanalyze : analyze description = some protocol) :
    (match (writeTransitionsByWhenState (collectTransitions protocol)
        agent).lookup state with
      | none => false
      | some transitions => !transitions.isEmpty) = true ↔
      ∃ entry ∈ description.messages, entry.2.whenState.name = state ∧
        entry.2.agent.name = agent.text := by
  rw [writeTransitionsByWhenState, lookup_groupBy]
  constructor
  · intro h
    split_ifs at h with hempty
    obtain ⟨info, hinfo⟩ := List.exists_mem_of_ne_nil _ hempty
    simp only [List.mem_filter, decide_eq_true_eq] at hinfo
    obtain ⟨entry, hentry, _, hwhen, hwriter⟩ :=
      message_of_writeTransition hanalyze hinfo.1.1
    exact ⟨entry, hentry, hwhen.symm.trans hinfo.2, hinfo.1.2 ▸ hwriter⟩
  · rintro ⟨entry, hentry, hwhen, hwriter⟩
    obtain ⟨info, hinfo, _, hwhen', hagent⟩ :=
      exists_writeTransition hanalyze hentry hwriter
    have hmem : info ∈ ((collectTransitions protocol).writeTransitions.filter
        (·.agent = agent)).filter (·.whenState = state) := by
      simp only [List.mem_filter, decide_eq_true_eq]
      exact ⟨⟨hinfo, hagent⟩, hwhen'.trans hwhen⟩
    have hne := List.ne_nil_of_mem hmem
    rw [if_neg hne]
    simpa using hne

/-- A runner has a case for the states its agent answers in. -/
theorem mem_caseGroups_iff (hanalyze : analyze description = some protocol)
    {group : List ReadTransitionInfo} :
    (state, group) ∈ caseGroups (collectTransitions protocol) agent ↔
      (state, group) ∈
          readTransitionsByThenState (collectTransitions protocol) agent ∧
        description.Answers agent state := by
  rw [caseGroups, List.mem_filter, writes_iff hanalyze]
  refine and_congr_right fun hgroup => ⟨fun hwrites => ⟨?_, hwrites⟩,
    fun hanswers => hanswers.2⟩
  obtain ⟨info, hinfo⟩ :=
    List.exists_mem_of_ne_nil _ (mem_groupBy_iff.mp hgroup).2
  obtain ⟨entry, hentry, _, hthen, hreader⟩ :=
    (mem_readGroup_iff hanalyze hgroup).mp ⟨info, hinfo, rfl⟩
  exact ⟨entry, hentry, hthen, hreader⟩

theorem exists_case (hanalyze : analyze description = some protocol)
    (hanswers : description.Answers agent state) :
    ∃ group,
      (state, group) ∈ caseGroups (collectTransitions protocol) agent := by
  obtain ⟨here, hhere, hthen, hreader⟩ := hanswers.1
  obtain ⟨info, hinfo, _, hthen', hagent⟩ :=
    exists_readTransition hanalyze hhere
  have hmem : info ∈ ((collectTransitions protocol).readTransitions.filter
      (·.agent = agent)).filter (·.thenState = state) := by
    simp only [List.mem_filter, decide_eq_true_eq]
    exact ⟨⟨hinfo, hagent.trans hreader⟩, hthen'.trans hthen⟩
  have hgroup := mem_groupBy_iff.mpr ⟨rfl, List.ne_nil_of_mem hmem⟩
  exact ⟨_, (mem_caseGroups_iff hanalyze).mpr ⟨hgroup, hanswers⟩⟩

theorem mem_handlerConcept_iff (hanalyze : analyze description = some protocol)
    {call : HandlerCall} :
    call ∈ handlerConcept (collectTransitions protocol) agent ↔
      ∃ entry ∈ description.messages,
        description.Answers agent entry.2.thenState.name ∧
          entry.2.reader = agent ∧
          call = handlerCall entry.2.thenState.name
            (dataName (messageNameToIdentifier entry.1)) := by
  rw [handlerConcept, List.mem_flatMap]
  constructor
  · rintro ⟨⟨state, group⟩, hcase, hcall⟩
    obtain ⟨info, hinfo, rfl⟩ := List.mem_map.mp hcall
    obtain ⟨hgroup, hanswers⟩ := (mem_caseGroups_iff hanalyze).mp hcase
    obtain ⟨entry, hentry, hname, rfl, hreader⟩ :=
      (mem_readGroup_iff hanalyze hgroup).mp ⟨info, hinfo, rfl⟩
    exact ⟨entry, hentry, hanswers, hreader, by rw [hname]⟩
  · rintro ⟨entry, hentry, hanswers, hreader, rfl⟩
    obtain ⟨group, hcase⟩ := exists_case hanalyze hanswers
    have hgroup := ((mem_caseGroups_iff hanalyze).mp hcase).1
    obtain ⟨info, hinfo, hname⟩ := (mem_readGroup_iff hanalyze hgroup).mpr
      ⟨entry, hentry, rfl, rfl, hreader⟩
    exact ⟨_, hcase, List.mem_map.mpr ⟨info, hinfo, by rw [hname]⟩⟩

/-- The calls of a runner are those for all messages that lead to a state it
answers in. -/
theorem mem_dispatchCalls_iff (hanalyze : analyze description = some protocol)
    (hapart : description.IdentifiersApart) {call : HandlerCall} :
    call ∈ dispatchCalls (collectTransitions protocol) agent
        (generateStates (collectStates protocol)
          (collectMessages protocol)).inputs ↔
      ∃ entry ∈ description.messages,
        description.Answers agent entry.2.thenState.name ∧
          call = handlerCall entry.2.thenState.name
            (dataName (messageNameToIdentifier entry.1)) := by
  rw [dispatchCalls, List.mem_flatMap]
  constructor
  · rintro ⟨⟨state, group⟩, hcase, hcall⟩
    obtain ⟨type, htype, rfl⟩ := List.mem_map.mp hcall
    obtain ⟨_, hanswers⟩ := (mem_caseGroups_iff hanalyze).mp hcase
    obtain ⟨here, hhere, rfl, _⟩ := hanswers.1
    obtain ⟨entry, hentry, hsame, rfl⟩ :=
      (mem_inputs_iff hanalyze hapart.states hhere).mp htype
    exact ⟨entry, hentry, by rw [hsame]; exact hanswers, by rw [hsame]⟩
  · rintro ⟨entry, hentry, hanswers, rfl⟩
    obtain ⟨group, hcase⟩ := exists_case hanalyze hanswers
    exact ⟨_, hcase,
      List.mem_map.mpr ⟨_, (mem_inputs_iff hanalyze hapart.states hentry).mpr
        ⟨entry, hentry, rfl, rfl⟩, rfl⟩⟩

theorem mem_sentTypes_iff (hanalyze : analyze description = some protocol)
    {type : String} :
    type ∈ sentTypes (collectTransitions protocol) agent ↔
      ∃ entry ∈ description.messages, entry.2.agent.name = agent.text ∧
        type = dataName (messageNameToIdentifier entry.1) := by
  rw [sentTypes, List.mem_map]
  constructor
  · rintro ⟨info, hinfo, rfl⟩
    obtain ⟨hinfo, hagent⟩ := List.mem_filter.mp hinfo
    obtain ⟨entry, hentry, hname, _, hwriter⟩ :=
      message_of_writeTransition hanalyze hinfo
    rw [of_decide_eq_true hagent] at hwriter
    exact ⟨entry, hentry, hwriter, by rw [hname]⟩
  · rintro ⟨entry, hentry, hwriter, rfl⟩
    obtain ⟨info, hinfo, hname, _, hagent⟩ :=
      exists_writeTransition hanalyze hentry hwriter
    exact ⟨info, List.mem_filter.mpr ⟨hinfo, decide_eq_true hagent⟩,
      by rw [hname]⟩

/-- Structs that can be told apart are those of one message. -/
theorem eq_of_dataName (hapart : description.IdentifiersApart)
    {entry other : Octets × Message} (hentry : entry ∈ description.messages)
    (hother : other ∈ description.messages)
    (h : dataName (messageNameToIdentifier entry.1) =
      dataName (messageNameToIdentifier other.1)) : entry = other := by
  have hname : entry.1 = other.1 := by
    by_contra hne
    exact hapart.messages entry hentry other hother hne (dataName_inj h)
  have hmessage := Assoc.lookup_of_mem description.nodup hentry
  rw [hname, Assoc.lookup_of_mem description.nodup hother] at hmessage
  exact Prod.ext hname (Option.some.inj hmessage).symm

/-- Every handler that has what the concept asks for can be dispatched to
exactly if no message of the agent leads to a state it answers in. -/
theorem concept_suffices_iff (hanalyze : analyze description = some protocol)
    (hapart : description.IdentifiersApart) (agent : AgentName) :
    (∀ overloads : HandlerCall → Prop,
      (∀ call ∈ handlerConcept (collectTransitions protocol) agent,
        overloads call) →
      ∀ call ∈ dispatchCalls (collectTransitions protocol) agent
          (generateStates (collectStates protocol)
            (collectMessages protocol)).inputs,
        overloads call) ↔
      ∀ entry ∈ description.messages,
        description.Answers agent entry.2.thenState.name →
          entry.2.reader = agent := by
  constructor
  · intro hall entry hentry hanswers
    have hcall := hall
      (· ∈ handlerConcept (collectTransitions protocol) agent)
      (fun _ hmem => hmem) _ ((mem_dispatchCalls_iff hanalyze hapart).mpr
        ⟨entry, hentry, hanswers, rfl⟩)
    obtain ⟨other, hother, _, hreader, hsame⟩ :=
      (mem_handlerConcept_iff hanalyze).mp hcall
    rw [eq_of_dataName hapart hentry hother
      (congrArg HandlerCall.argument hsame)]
    exact hreader
  · intro hreads overloads hconcept call hcall
    obtain ⟨entry, hentry, hanswers, rfl⟩ :=
      (mem_dispatchCalls_iff hanalyze hapart).mp hcall
    exact hconcept _ ((mem_handlerConcept_iff hanalyze).mpr
      ⟨entry, hentry, hanswers, hreads entry hentry hanswers, rfl⟩)

/-- A message of another agent has no send method. -/
theorem not_mem_sentTypes (hanalyze : analyze description = some protocol)
    (hapart : description.IdentifiersApart) {entry : Octets × Message}
    (hentry : entry ∈ description.messages)
    (hother : entry.2.agent.name ≠ agent.text) :
    dataName (messageNameToIdentifier entry.1) ∉
      sentTypes (collectTransitions protocol) agent := by
  intro hsent
  obtain ⟨own, hown, hwriter, hsame⟩ := (mem_sentTypes_iff hanalyze).mp hsent
  rw [← eq_of_dataName hapart hentry hown hsame] at hwriter
  exact hother hwriter

/-- The runner drops the messages of another agent. -/
theorem mem_unsent (hanalyze : analyze description = some protocol)
    (hapart : description.IdentifiersApart) {entry : Octets × Message}
    (hentry : entry ∈ description.messages)
    (hother : entry.2.agent.name ≠ agent.text) {code : StateMachineCode}
    (hcode : GenerateStateMachine.generate (.collectTransitions protocol)
      agent = some code) :
    (entry.2.whenState.name, entry.1) ∈ code.unsent := by
  obtain ⟨readers, _, hcode⟩ := Option.bind_eq_some_iff.mp hcode
  obtain ⟨writers, _, hcode⟩ := Option.bind_eq_some_iff.mp hcode
  obtain rfl := Option.some.inj hcode
  let info : MessageInfo := ⟨entry.1, messageNameToIdentifier entry.1,
    entry.2.whenState.name, entry.2.thenState.name, .client, entry.2.data⟩
  have hnot := not_mem_sentTypes hanalyze hapart hentry hother
  refine List.mem_map.mpr ⟨info, List.mem_filter.mpr ⟨?_, ?_⟩, rfl⟩
  · rw [collectTransitions_eq]
    exact (mem_collectMessages hanalyze info).mpr
      (MessageInfo.of_mem entry hentry)
  · refine List.all_eq_true.mpr fun written hwritten => ?_
    by_cases hagent : written.agent = agent
    · have hname : messageNameToIdentifier written.messageName ≠
          messageNameToIdentifier entry.1 := by
        intro hsame
        refine hnot (List.mem_map.mpr ⟨written, List.mem_filter.mpr
          ⟨hwritten, decide_eq_true hagent⟩, ?_⟩)
        rw [hsame]
      simpa [hagent, info] using hname
    · simp [hagent]

/-- A runner sends whatever answer the type of a state allows exactly if no
message of another agent leaves a state in which its agent writes.  Such a
message is never sent. -/
theorem answers_sent_iff (hanalyze : analyze description = some protocol)
    (hapart : description.IdentifiersApart) (agent : AgentName) :
    ((∀ here ∈ description.messages, here.2.agent.name = agent.text →
      ∀ type ∈ alternatives (generateStates (collectStates protocol)
          (collectMessages protocol)).outputs
          (stateNameToIdentifier here.2.whenState.name ++ "Output"),
        type ∈ sentTypes (collectTransitions protocol) agent) ↔
      ∀ here ∈ description.messages, here.2.agent.name = agent.text →
        ∀ entry ∈ description.messages,
          entry.2.whenState.name = here.2.whenState.name →
            entry.2.agent.name = agent.text) ∧
    ∀ entry ∈ description.messages, entry.2.agent.name ≠ agent.text →
      dataName (messageNameToIdentifier entry.1) ∉
          sentTypes (collectTransitions protocol) agent ∧
        ∀ code, GenerateStateMachine.generate (.collectTransitions protocol)
            agent = some code →
          (entry.2.whenState.name, entry.1) ∈ code.unsent := by
  refine ⟨⟨fun hsent here hhere hwrites entry hentry hwhen => ?_,
    fun hown here hhere hwrites type htype => ?_⟩,
    fun entry hentry hother => ⟨not_mem_sentTypes hanalyze hapart hentry hother,
      fun code hcode => mem_unsent hanalyze hapart hentry hother hcode⟩⟩
  · have htype := hsent here hhere hwrites _
      ((mem_outputs_iff hanalyze hapart.states hhere).mpr
        ⟨entry, hentry, hwhen, rfl⟩)
    by_contra hother
    exact not_mem_sentTypes hanalyze hapart hentry hother htype
  · obtain ⟨entry, hentry, hwhen, rfl⟩ :=
      (mem_outputs_iff hanalyze hapart.states hhere).mp htype
    exact (mem_sentTypes_iff hanalyze).mpr
      ⟨entry, hentry, hown here hhere hwrites entry hentry hwhen, rfl⟩

/-- The server is called for the answer to `P`, and its handler is asked for
that. -/
theorem concept_suffices_iff_ping :
    ∃ call ∈ dispatchCalls (collectTransitions RunnerCall.pingProtocol) .server
        (generateStates (collectStates RunnerCall.pingProtocol)
          (collectMessages RunnerCall.pingProtocol)).inputs,
      call = ⟨"on_Asked", "PData", "AskedOutput"⟩ ∧
        call ∈ handlerConcept (collectTransitions RunnerCall.pingProtocol)
          .server := by
  have hreads : ∀ entry ∈ pingDescription.messages,
      pingDescription.Answers .server entry.2.thenState.name →
        entry.2.reader = .server := by
    simp only [ProtocolDescription.Answers]
    decide
  have hmem : ⟨"on_Asked", "PData", "AskedOutput"⟩ ∈
      dispatchCalls (collectTransitions RunnerCall.pingProtocol) .server
        (generateStates (collectStates RunnerCall.pingProtocol)
          (collectMessages RunnerCall.pingProtocol)).inputs := by
    decide
  exact ⟨_, hmem, rfl, (concept_suffices_iff analyze_pingDescription
    pingDescription_apart .server).mpr hreads _ (fun _ hcall => hcall) _ hmem⟩

/-- The server can answer in `Asked` with `R` only, and sends it; the output of
`Open` has the client's `P`, which it does not send. -/
theorem answers_sent_iff_ping :
    (∃ type ∈ alternatives
        (generateStates (collectStates RunnerCall.pingProtocol)
          (collectMessages RunnerCall.pingProtocol)).outputs "AskedOutput",
      type = "RData" ∧
        type ∈ sentTypes (collectTransitions RunnerCall.pingProtocol)
          .server) ∧
    ∃ type ∈ alternatives
        (generateStates (collectStates RunnerCall.pingProtocol)
          (collectMessages RunnerCall.pingProtocol)).outputs "OpenOutput",
      type = "PData" ∧
        type ∉ sentTypes (collectTransitions RunnerCall.pingProtocol)
          .server := by
  have hwrites : ∀ here ∈ pingDescription.messages,
      here.2.agent.name = AgentName.server.text →
        ∀ entry ∈ pingDescription.messages,
          entry.2.whenState.name = here.2.whenState.name →
            entry.2.agent.name = AgentName.server.text := by
    decide
  have htype : "RData" ∈ alternatives
      (generateStates (collectStates RunnerCall.pingProtocol)
        (collectMessages RunnerCall.pingProtocol)).outputs "AskedOutput" := by
    decide
  have hask : "PData" ∈ alternatives
      (generateStates (collectStates RunnerCall.pingProtocol)
        (collectMessages RunnerCall.pingProtocol)).outputs "OpenOutput" := by
    decide
  have hanswer : pingMessage [114] "Asked" "Open" "Server" [82] ∈
      pingDescription.messages :=
    List.mem_cons_of_mem _ (List.mem_cons_of_mem _ List.mem_cons_self)
  obtain ⟨hsent, hdropped⟩ := answers_sent_iff analyze_pingDescription
    pingDescription_apart .server
  refine ⟨⟨_, htype, rfl, hsent.mpr hwrites _ hanswer rfl _ htype⟩, _, hask,
    rfl, ?_⟩
  exact (hdropped _ List.mem_cons_self (by decide)).1

end GenerateRunner

namespace GenerateStateMachine

variable {info : ProtocolInfo} {agent : AgentName} {code : StateMachineCode}

theorem exists_reader (h : generate info agent = some code)
    {read : ReadTransitionInfo} (hread : read ∈ info.readTransitions)
    (hagent : read.agent = agent) :
    ∃ reader ∈ code.readers, reader.info = read := by
  obtain ⟨readers, hreaders, h⟩ := Option.bind_eq_some_iff.mp h
  obtain ⟨writers, _, h⟩ := Option.bind_eq_some_iff.mp h
  obtain rfl := Option.some.inj h
  obtain ⟨before, after, hsplit⟩ := List.append_of_mem hread
  rw [hsplit] at hreaders
  obtain ⟨_, found, _, _, hfound, _, rfl⟩ := MapM.append_cons hreaders
  have hsame := info_eq_of_reader hfound
  refine ⟨found, List.mem_filter.mpr ⟨?_, ?_⟩, hsame⟩
  · exact List.mem_append_right _ List.mem_cons_self
  · rw [hsame]
    exact decide_eq_true hagent

theorem exists_writer (h : generate info agent = some code)
    {written : WriteTransitionInfo} (hwritten : written ∈ info.writeTransitions)
    (hagent : written.agent = agent) :
    ∃ writer ∈ code.writers, writer.info = written := by
  obtain ⟨readers, _, h⟩ := Option.bind_eq_some_iff.mp h
  obtain ⟨writers, hwriters, h⟩ := Option.bind_eq_some_iff.mp h
  obtain rfl := Option.some.inj h
  obtain ⟨before, after, hsplit⟩ := List.append_of_mem hwritten
  rw [hsplit] at hwriters
  obtain ⟨_, found, _, _, hfound, _, rfl⟩ := MapM.append_cons hwriters
  have hsame := info_eq_of_writer hfound
  refine ⟨found, List.mem_filter.mpr ⟨?_, ?_⟩, hsame⟩
  · exact List.mem_append_right _ List.mem_cons_self
  · rw [hsame]
    exact decide_eq_true hagent

/-- The cases of a runner are the states its agent answers in. -/
theorem mem_dispatchCases_iff {description : ProtocolDescription}
    {protocol : Protocol}
    (hanalyze : Analyze.analyze description = some protocol)
    (hcode : generate (.collectTransitions protocol) agent = some code)
    {state : String} :
    state ∈ code.dispatchCases ↔ description.Answers agent state := by
  rw [StateMachineCode.dispatchCases, List.mem_filter, decide_eq_true_eq]
  constructor
  · rintro ⟨hread, hwritten⟩
    obtain ⟨reader, hreader, rfl⟩ := List.mem_map.mp hread
    obtain ⟨hinfo, hagent⟩ := info_of_reader hcode hreader
    obtain ⟨entry, hentry, _, hthen, howner⟩ :=
      GenerateRunner.message_of_readTransition hanalyze hinfo
    obtain ⟨writer, hwriter⟩ := List.exists_mem_of_ne_nil _
      (List.isEmpty_eq_false_iff.mp hwritten)
    obtain ⟨hwriter, hwhen⟩ := List.mem_filter.mp hwriter
    obtain ⟨hinfo', hagent'⟩ := info_of_writer hcode hwriter
    obtain ⟨other, hother, _, hwhen', howner'⟩ :=
      GenerateRunner.message_of_writeTransition hanalyze hinfo'
    exact ⟨⟨entry, hentry, hthen.symm, howner.symm.trans hagent⟩, other, hother,
      hwhen'.symm.trans (of_decide_eq_true hwhen), hagent' ▸ howner'⟩
  · rintro ⟨⟨entry, hentry, hthen, howner⟩, other, hother, hwhen, howner'⟩
    obtain ⟨read, hread, _, hthen', hagent⟩ :=
      exists_readTransition hanalyze hentry
    obtain ⟨reader, hreader, rfl⟩ :=
      exists_reader hcode hread (hagent.trans howner)
    obtain ⟨written, hwritten, _, hwhen', hagent'⟩ :=
      exists_writeTransition hanalyze hother howner'
    obtain ⟨writer, hwriter, rfl⟩ := exists_writer hcode hwritten hagent'
    refine ⟨List.mem_map.mpr ⟨reader, hreader, hthen'.trans hthen⟩, ?_⟩
    have hmem : writer ∈ code.writersAt state :=
      List.mem_filter.mpr ⟨hwriter, decide_eq_true (hwhen'.trans hwhen)⟩
    exact List.isEmpty_eq_false_iff.mpr (List.ne_nil_of_mem hmem)

end GenerateStateMachine

end NetworkProtocolDsl
