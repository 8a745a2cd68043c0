/-
Printing a tree by the documented grammar.

A tree is printed as the derivation that stands for it, the maps in the order
of their keys.  Names of types, states and agents are single identifiers in
the grammar.
-/
import NetworkProtocolDsl.GrammarRoundTrip

namespace NetworkProtocolDsl

mutual

def DataType.derivation : DataType → Grammar.DataType
  | .mk name parameters => .mk name.name (typeParametersDerivation parameters)

def typeParametersDerivation : List (String × TypeParameterValue) →
    List (String × Grammar.TypeParameterValue)
  | [] => []
  | (name, value) :: parameters =>
      (name, value.derivation) :: typeParametersDerivation parameters

def TypeParameterValue.derivation :
    TypeParameterValue → Grammar.TypeParameterValue
  | .boolean value => .boolean value
  | .integer value => .integer value
  | .string value => .string value
  | .type value => .type value.derivation

end

/-- The options that stand for the terminator and the escape replacement. -/
def TokenSequence.options (sequence : TokenSequence) :
    List Grammar.TokenSequenceOption :=
  (sequence.terminator.map fun value =>
      ⟨.keywordTerminator, .string value⟩).toList ++
    (sequence.escape.map fun value =>
      ⟨.escape, .escapeReplacement value⟩).toList

mutual

def MessagePart.derivation : MessagePart → Grammar.MessagePart
  | .tokenSequence sequence =>
      .tokenSequence sequence.options sequence.tokens
  | .terminator value => .terminator value
  | .messageForLoop loopVariable collection block terminator =>
      .messageForLoop ((terminator.map fun value =>
          ⟨.keywordTerminator, .string value⟩).toList)
        loopVariable collection (messageSequenceDerivation block)

def messageSequenceDerivation :
    List MessagePart → List Grammar.MessagePart
  | [] => []
  | part :: parts => part.derivation :: messageSequenceDerivation parts

end

def Message.derivation (message : Message) : Grammar.Message where
  name := message.name
  attributes := [⟨.whenState, message.whenState.name⟩,
    ⟨.thenState, message.thenState.name⟩, ⟨.agent, message.agent.name⟩]
  data := message.data.map fun field => (field.1, field.2.derivation)
  parts := messageSequenceDerivation message.parts

/-- The tokens of a tree. -/
def ProtocolDescription.print (description : ProtocolDescription) :
    List Token :=
  Grammar.ProtocolDescription.tokens
    (description.messages.map fun entry => entry.2.derivation)

/-- A type whose name is one identifier and whose parameters are a map. -/
inductive DataType.Printable : DataType → Prop where
  | mk (name : String) {parameters : List (String × TypeParameterValue)}
      (hsorted : Assoc.Sorted parameters)
      (htypes : ∀ key type, (key, .type type) ∈ parameters → Printable type) :
      Printable (.mk (.mk name none) parameters)

/-- Token sequences with tokens, loops with parts and without a terminator. -/
inductive MessagePart.Printable : MessagePart → Prop where
  | tokenSequence {sequence : TokenSequence} (hne : sequence.tokens ≠ []) :
      Printable (.tokenSequence sequence)
  | terminator (value : Octets) : Printable (.terminator value)
  | messageForLoop (loopVariable collection : IdentifierReference)
      {block : List MessagePart} (hne : block ≠ [])
      (hblock : ∀ part ∈ block, Printable part) :
      Printable (.messageForLoop loopVariable collection block none)

structure Message.Printable (message : Message) : Prop where
  whenState : message.whenState.member = none
  thenState : message.thenState.member = none
  agent : message.agent.member = none
  data : message.data ≠ []
  sorted : Assoc.Sorted message.data
  field : ∀ field ∈ message.data, field.2.Printable
  parts : message.parts ≠ []
  part : ∀ part ∈ message.parts, part.Printable

/-- The messages are a map by their names, and there is one. -/
structure ProtocolDescription.Printable (description : ProtocolDescription) :
    Prop where
  nonempty : description.messages ≠ []
  sorted : Assoc.Sorted description.messages
  name : ∀ entry ∈ description.messages, entry.2.name = entry.1
  message : ∀ entry ∈ description.messages, entry.2.Printable

section Derivation

theorem typeParametersDerivation_eq
    (parameters : List (String × TypeParameterValue)) :
    typeParametersDerivation parameters =
      parameters.map fun parameter => (parameter.1, parameter.2.derivation) := by
  induction parameters with
  | nil => rfl
  | cons parameter parameters ih =>
      rw [typeParametersDerivation, ih]
      rfl

theorem messageSequenceDerivation_eq (parts : List MessagePart) :
    messageSequenceDerivation parts = parts.map MessagePart.derivation := by
  induction parts with
  | nil => rfl
  | cons part parts ih => rw [messageSequenceDerivation, ih, List.map_cons]

/-- A printable type is the tree of its derivation. -/
theorem DataType.Printable.tree_derivation {type : DataType}
    (h : type.Printable) : type.derivation.tree = type := by
  induction h with
  | mk name hsorted htypes ih =>
      rename_i parameters
      have hparameters : Grammar.typeParametersTree
          (typeParametersDerivation parameters) = parameters := by
        rw [Grammar.typeParametersTree_eq, typeParametersDerivation_eq,
          List.map_map]
        refine (List.map_congr_left ?_).trans (List.map_id parameters)
        intro parameter hmem
        obtain ⟨key, value⟩ := parameter
        cases value with
        | boolean value => rfl
        | integer value => rfl
        | string value => rfl
        | type type =>
            have htype := ih key type hmem
            exact congrArg (fun type => (key, TypeParameterValue.type type))
              htype
      rw [DataType.derivation, Grammar.DataType.tree, hparameters,
        Assoc.ofPairs_of_sorted hsorted]
      rfl

theorem TokenSequence.tree_options (sequence : TokenSequence) :
    (Grammar.optionsMap sequence.options).terminator = sequence.terminator ∧
      (Grammar.optionsMap sequence.options).escape = sequence.escape := by
  obtain ⟨tokens, terminator, escape⟩ := sequence
  have hlt : "escape" < "terminator" := by decide
  cases terminator with
  | none => cases escape <;> exact ⟨rfl, rfl⟩
  | some value =>
      cases escape with
      | none => exact ⟨rfl, rfl⟩
      | some replacement =>
          have hmap : Grammar.optionsMap
              [⟨.keywordTerminator, .string value⟩,
                ⟨.escape, .escapeReplacement replacement⟩] =
              [("escape", .escapeReplacement replacement),
                ("terminator", .string value)] :=
            if_pos hlt
          constructor
          · exact congrArg TokenSequenceOptionsMap.terminator hmap
          · exact congrArg TokenSequenceOptionsMap.escape hmap

theorem MessagePart.Printable.tree_derivation {part : MessagePart}
    (h : part.Printable) : part.derivation.tree = part := by
  induction h with
  | tokenSequence hne =>
      rename_i sequence
      obtain ⟨hterminator, hescape⟩ := sequence.tree_options
      rw [MessagePart.derivation, Grammar.MessagePart.tree, hterminator,
        hescape]
  | terminator value => rfl
  | messageForLoop loopVariable collection hne hblock ih =>
      rename_i block
      have hparts : Grammar.messageSequenceTree
          (messageSequenceDerivation block) = block := by
        rw [Grammar.messageSequenceTree_eq, messageSequenceDerivation_eq,
          List.map_map]
        exact (List.map_congr_left ih).trans (List.map_id block)
      rw [MessagePart.derivation, Grammar.MessagePart.tree, hparts]
      rfl

theorem MessagePart.Printable.accepted {part : MessagePart}
    (h : part.Printable) : part.derivation.Accepted := by
  induction h with
  | tokenSequence hne => exact .tokenSequence _ hne
  | terminator value => exact .terminator value
  | messageForLoop loopVariable collection hne hblock ih =>
      rw [MessagePart.derivation, messageSequenceDerivation_eq]
      refine .messageForLoop loopVariable collection (by simpa using hne) ?_
      intro part hmem
      obtain ⟨part, hpart, rfl⟩ := List.mem_map.mp hmem
      exact ih part hpart

theorem IdentifierReference.eq_of_member {reference : IdentifierReference}
    (h : reference.member = none) :
    IdentifierReference.mk reference.name none = reference := by
  obtain ⟨name, member⟩ := reference
  obtain rfl : member = none := h
  rfl

theorem Message.Printable.tree_derivation {message : Message}
    (h : message.Printable) : message.derivation.tree? = some message := by
  have hdata : (message.derivation.data.map fun field =>
      (field.1, field.2.tree)) = message.data := by
    rw [Message.derivation, List.map_map]
    refine (List.map_congr_left ?_).trans (List.map_id message.data)
    intro field hmem
    exact congrArg (Prod.mk field.1) (h.field field hmem).tree_derivation
  have hparts : Grammar.messageSequenceTree message.derivation.parts =
      message.parts := by
    rw [Message.derivation, Grammar.messageSequenceTree_eq,
      messageSequenceDerivation_eq, List.map_map]
    refine (List.map_congr_left ?_).trans (List.map_id message.parts)
    exact fun part hmem => (h.part part hmem).tree_derivation
  rw [Grammar.Message.tree?, hdata, hparts, Assoc.ofPairs_of_sorted h.sorted]
  have hwhen := IdentifierReference.eq_of_member h.whenState
  have hthen := IdentifierReference.eq_of_member h.thenState
  have hagent := IdentifierReference.eq_of_member h.agent
  simp [Grammar.Message.attribute?, Message.derivation, hwhen, hthen, hagent]

theorem Message.Printable.accepted {message : Message}
    (h : message.Printable) : message.derivation.Accepted where
  attributes := by
    intro name
    cases name <;> simp [Message.derivation]
  data := by simpa [Message.derivation] using h.data
  parts := by
    rw [Message.derivation, messageSequenceDerivation_eq]
    simpa using h.parts
  part := by
    intro part hmem
    rw [Message.derivation, messageSequenceDerivation_eq] at hmem
    obtain ⟨part, hpart, rfl⟩ := List.mem_map.mp hmem
    exact (h.part part hpart).accepted

theorem mapM_derivation {entries : List (Octets × Message)}
    (h : ∀ entry ∈ entries, entry.2.Printable) :
    (entries.map fun entry => entry.2.derivation).mapM
      Grammar.Message.tree? = some (entries.map Prod.snd) := by
  induction entries with
  | nil => rfl
  | cons entry entries ih =>
      rw [List.map_cons, List.mapM_cons,
        (h entry List.mem_cons_self).tree_derivation,
        ih fun other hmem => h other (List.mem_cons_of_mem entry hmem)]
      rfl

end Derivation

/-- The parser gives back the tree that was printed. -/
theorem parse_print {description : ProtocolDescription}
    (h : description.Printable) :
    parse description.print = some description := by
  obtain ⟨messages, hnodup⟩ := description
  have haccepted : Grammar.ProtocolDescription.Accepted
      (messages.map fun entry => entry.2.derivation) := by
    constructor
    · simpa using h.nonempty
    · intro message hmem
      obtain ⟨entry, hentry, rfl⟩ := List.mem_map.mp hmem
      exact (h.message entry hentry).accepted
  have hentries : (messages.map Prod.snd).map (fun message =>
      (message.name, message)) = messages := by
    rw [List.map_map]
    refine (List.map_congr_left ?_).trans (List.map_id messages)
    intro entry hmem
    exact congrArg (fun name => (name, entry.2)) (h.name entry hmem)
  have hparse := Grammar.parse_of_trees haccepted (mapM_derivation h.message)
  rw [ProtocolDescription.print, hparse]
  refine congrArg some ?_
  simp only [ProtocolDescription.ofMessages, hentries,
    Assoc.ofPairs_of_sorted h.sorted]

/-- One message with an array of strings, read in a loop. -/
def rowsDescription : ProtocolDescription where
  messages := [([77], {
    name := [77]
    whenState := .mk "Open" none
    thenState := .mk "Closed" none
    agent := .mk "Client" none
    data := [("rows", .mk (.mk "array" none)
      [("element", .type (.mk (.mk "str" none) []))])]
    parts := [
      .messageForLoop (.mk "row" none) (.mk "rows" none)
        [.tokenSequence ⟨[.identifierReference (.mk "row" none)], some [10],
          some ⟨[10], [92]⟩⟩] none,
      .terminator [46]] })]
  nodup := by simp

theorem parse_print_rows :
    parse rowsDescription.print = some rowsDescription := by
  have htype : DataType.Printable (.mk (.mk "str" none) []) :=
    .mk "str" List.Pairwise.nil fun _ _ hmem => absurd hmem List.not_mem_nil
  refine parse_print ⟨List.cons_ne_nil _ _, List.pairwise_singleton _ _,
    fun entry hmem => List.mem_singleton.mp hmem ▸ rfl, ?_⟩
  intro entry hmem
  obtain rfl := List.mem_singleton.mp hmem
  refine ⟨rfl, rfl, rfl, List.cons_ne_nil _ _, List.pairwise_singleton _ _,
    ?_, List.cons_ne_nil _ _, ?_⟩
  · intro field hfield
    obtain rfl := List.mem_singleton.mp hfield
    refine .mk "array" (List.pairwise_singleton _ _) ?_
    intro key type hmem
    cases List.mem_singleton.mp hmem
    exact htype
  · intro part hpart
    rcases List.mem_pair.mp hpart with rfl | rfl
    · refine .messageForLoop _ _ (List.cons_ne_nil _ _) ?_
      intro part hpart
      obtain rfl := List.mem_singleton.mp hpart
      exact .tokenSequence (List.cons_ne_nil _ _)
    · exact .terminator _

end NetworkProtocolDsl
