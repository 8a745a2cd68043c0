/-
Which declarations of a protocol are in its tree.

A second declaration of a name is dropped at every level of the grammar, and of
the attributes of a message only the names of three types are read.
-/
import NetworkProtocolDsl.Declarations
import NetworkProtocolDsl.GrammarRoundTrip

namespace NetworkProtocolDsl

open RecursiveParser

mutual

/-- The tree of a type has every parameter that is written, and no other. -/
def DataType.KeptIn : DataType → DataType → Prop
  | .mk name parameters, tree =>
      tree.name = name ∧ tree.parameters.length = parameters.length ∧
        ParametersKeptIn parameters tree.parameters

def ParametersKeptIn : List (String × TypeParameterValue) →
    List (String × TypeParameterValue) → Prop
  | [], _ => True
  | (name, value) :: parameters, tree =>
      (∃ kept, (name, kept) ∈ tree ∧ value.KeptIn kept) ∧
        ParametersKeptIn parameters tree

def TypeParameterValue.KeptIn :
    TypeParameterValue → TypeParameterValue → Prop
  | .boolean value, tree => tree = .boolean value
  | .integer value, tree => tree = .integer value
  | .string value, tree => tree = .string value
  | .type written, tree => ∃ type, tree = .type type ∧ written.KeptIn type

end

mutual

/-- No parameter is written twice. -/
def DataType.Distinct : DataType → Prop
  | .mk _ parameters =>
      (parameters.map Prod.fst).Nodup ∧ ParametersDistinct parameters

def ParametersDistinct : List (String × TypeParameterValue) → Prop
  | [] => True
  | (_, value) :: parameters => value.Distinct ∧ ParametersDistinct parameters

def TypeParameterValue.Distinct : TypeParameterValue → Prop
  | .boolean _ => True
  | .integer _ => True
  | .string _ => True
  | .type written => written.Distinct

end

theorem collectedParameters_keys
    (parameters : List (String × TypeParameterValue)) :
    (collectedParameters parameters).map Prod.fst =
      parameters.map Prod.fst := by
  rw [collectedParameters_eq, List.map_map]
  rfl

theorem mem_collectedParameters {name : String} {value : TypeParameterValue}
    {parameters : List (String × TypeParameterValue)}
    (h : (name, value) ∈ parameters) :
    (name, value.collected) ∈ collectedParameters parameters := by
  rw [collectedParameters_eq]
  exact List.mem_map_of_mem h

mutual

/-- Everything in a type is kept where no parameter is written twice. -/
theorem DataType.keptIn_collected_iff : ∀ written : DataType,
    written.KeptIn written.collected ↔ written.Distinct
  | .mk name parameters => by
      rw [DataType.collected, DataType.KeptIn, DataType.Distinct]
      have hkeys := collectedParameters_keys parameters
      have hlength : (collectedParameters parameters).length =
          parameters.length := by
        rw [collectedParameters_eq, List.length_map]
      have hparameters : ((collectedParameters parameters).map
          Prod.fst).Nodup →
          (ParametersKeptIn parameters
              (Assoc.ofPairs (collectedParameters parameters)) ↔
            ParametersDistinct parameters) :=
        fun hnodup => parametersKeptIn_collected_iff parameters
          fun _ _ h => Assoc.mem_ofPairs_iff_eq hnodup
            (mem_collectedParameters h)
      constructor
      · rintro ⟨_, hcount, hkept⟩
        have hnodup :=
          Assoc.nodup_of_length_ofPairs (hcount.trans hlength.symm)
        exact ⟨hkeys ▸ hnodup, (hparameters hnodup).mp hkept⟩
      · rintro ⟨hdistinct, hnested⟩
        have hnodup := hkeys.symm ▸ hdistinct
        have hcount := Assoc.length_ofPairs hnodup
        exact ⟨rfl, hcount.trans hlength, (hparameters hnodup).mpr hnested⟩

theorem parametersKeptIn_collected_iff
    {tree : List (String × TypeParameterValue)} :
    ∀ parameters : List (String × TypeParameterValue),
      (∀ name value, (name, value) ∈ parameters →
        ∀ kept, (name, kept) ∈ tree ↔ kept = value.collected) →
      (ParametersKeptIn parameters tree ↔ ParametersDistinct parameters)
  | [], _ => Iff.rfl
  | (name, value) :: parameters, h => by
      rw [ParametersKeptIn, ParametersDistinct]
      have hrest := parametersKeptIn_collected_iff parameters
        fun other otherValue hmem => h other otherValue
          (List.mem_cons_of_mem _ hmem)
      have hvalue := value.keptIn_collected_iff
      have hkept := h name value List.mem_cons_self
      simp only [hkept, exists_eq_left, hvalue, hrest]

theorem TypeParameterValue.keptIn_collected_iff :
    ∀ written : TypeParameterValue,
      written.KeptIn written.collected ↔ written.Distinct
  | .boolean _ => by
      simp [TypeParameterValue.collected, TypeParameterValue.KeptIn,
        TypeParameterValue.Distinct]
  | .integer _ => by
      simp [TypeParameterValue.collected, TypeParameterValue.KeptIn,
        TypeParameterValue.Distinct]
  | .string _ => by
      simp [TypeParameterValue.collected, TypeParameterValue.KeptIn,
        TypeParameterValue.Distinct]
  | .type written => by
      have hwritten := written.keptIn_collected_iff
      simp [TypeParameterValue.collected, TypeParameterValue.KeptIn,
        TypeParameterValue.Distinct, hwritten]

end

/-- The attribute is one of the message's three, and nothing but a name. -/
def Message.HasAttribute (message : Message) (entry : String × DataType) :
    Prop :=
  entry = ("when", .mk message.whenState []) ∨
    entry = ("then", .mk message.thenState []) ∨
      entry = ("agent", .mk message.agent [])

/-- The tree of a message has every declaration of its block. -/
structure WrittenMessage.KeptIn (written : WrittenMessage) (tree : Message) :
    Prop where
  name : tree.name = written.message.name
  parts : tree.parts = written.message.parts
  attributeCount : written.attributes.length = 3
  attributes : ∀ entry ∈ written.attributes, tree.HasAttribute entry
  fieldCount : tree.data.length = written.message.data.length
  field : ∀ field ∈ written.message.data,
    ∃ kept, (field.1, kept) ∈ tree.data ∧ field.2.KeptIn kept

/-- The tree has as many messages as are written, and each of them. -/
structure LosesNothing (messages : List WrittenMessage)
    (description : ProtocolDescription) : Prop where
  count : description.messages.length = messages.length
  message : ∀ written ∈ messages, ∃ tree,
    (written.message.name, tree) ∈ description.messages ∧ written.KeptIn tree

/-- No name is declared twice in a message, and its attributes are the three
the grammar reads, without parameters. -/
structure WrittenMessage.Plain (written : WrittenMessage) : Prop where
  attributeNames : (written.attributes.map Prod.fst).Nodup
  attributes : ∀ entry ∈ written.attributes,
    entry.1 ∈ ["when", "then", "agent"] ∧ entry.2.parameters = []
  fieldNames : (written.message.data.map Prod.fst).Nodup
  fields : ∀ field ∈ written.message.data, field.2.Distinct

section Attributes

open Parse

variable {name : String} {attributes : List (String × DataType)}

theorem mem_of_attribute? {value : IdentifierReference}
    (h : attribute? name attributes = some value) :
    name ∈ attributes.map Prod.fst := by
  obtain ⟨type, htype, _⟩ := Option.map_eq_some_iff.mp h
  have hmem := Assoc.mem_of_lookup htype
  exact List.mem_map_of_mem (List.mem_reverse.mp hmem)

/-- Where no attribute is given twice its type has the name that is read. -/
theorem name_of_attribute? {value : IdentifierReference} {type : DataType}
    (hnodup : (attributes.map Prod.fst).Nodup)
    (h : attribute? name attributes = some value)
    (hmem : (name, type) ∈ attributes) : type.name = value := by
  have hreverse : (attributes.reverse.map Prod.fst).Nodup := by
    rw [List.map_reverse]
    exact (List.reverse_perm _).nodup_iff.mpr hnodup
  have hlookup := Assoc.lookup_of_mem hreverse (List.mem_reverse.mpr hmem)
  rw [attribute?, hlookup] at h
  exact Option.some.inj h

end Attributes

namespace WrittenMessage

/-- The block is one the parser accepts. -/
def Accepted (written : WrittenMessage) : Prop :=
  ∃ name data parts, Parse.ofAttributes name written.attributes data parts =
    some written.message

variable {written : WrittenMessage}

/-- What the parser reads as the attributes of an accepted block. -/
theorem Accepted.attribute? (h : written.Accepted) :
    Parse.attribute? "when" written.attributes =
        some written.message.whenState ∧
      Parse.attribute? "then" written.attributes =
        some written.message.thenState ∧
      Parse.attribute? "agent" written.attributes =
        some written.message.agent := by
  obtain ⟨name, data, parts, h⟩ := h
  unfold Parse.ofAttributes at h
  obtain ⟨whenState, hwhen, h⟩ := Option.bind_eq_some_iff.mp h
  obtain ⟨thenState, hthen, h⟩ := Option.bind_eq_some_iff.mp h
  obtain ⟨agent, hagent, h⟩ := Option.bind_eq_some_iff.mp h
  rw [← Option.some.inj h]
  exact ⟨hwhen, hthen, hagent⟩

theorem Accepted.subset_attributes (h : written.Accepted) :
    ["when", "then", "agent"] ⊆ written.attributes.map Prod.fst := by
  obtain ⟨hwhen, hthen, hagent⟩ := h.attribute?
  intro name hname
  simp only [List.mem_cons, List.not_mem_nil, or_false] at hname
  rcases hname with rfl | rfl | rfl
  · exact mem_of_attribute? hwhen
  · exact mem_of_attribute? hthen
  · exact mem_of_attribute? hagent

/-- The attributes of an accepted block are kept where they are the three,
each once and without parameters. -/
theorem Accepted.attributes_iff (h : written.Accepted) :
    (written.attributes.length = 3 ∧
        ∀ entry ∈ written.attributes, written.message.HasAttribute entry) ↔
      (written.attributes.map Prod.fst).Nodup ∧
        ∀ entry ∈ written.attributes,
          entry.1 ∈ ["when", "then", "agent"] ∧ entry.2.parameters = [] := by
  have hthree : ["when", "then", "agent"].Nodup := by decide
  constructor
  · rintro ⟨hcount, hattribute⟩
    have hperm := (hthree.subperm h.subset_attributes).perm_of_length_le
      (by simp [hcount])
    refine ⟨hperm.nodup_iff.mp hthree, fun entry hentry => ?_⟩
    rcases hattribute entry hentry with rfl | rfl | rfl <;>
      simp [DataType.parameters]
  · rintro ⟨hnodup, hattribute⟩
    have hsubset : written.attributes.map Prod.fst ⊆
        ["when", "then", "agent"] := by
      intro name hname
      obtain ⟨entry, hentry, rfl⟩ := List.mem_map.mp hname
      exact (hattribute entry hentry).1
    have hperm := (hnodup.subperm hsubset).antisymm
      (hthree.subperm h.subset_attributes)
    have hcount : written.attributes.length = 3 := by
      simpa using hperm.length_eq
    obtain ⟨hwhen, hthen, hagent⟩ := h.attribute?
    refine ⟨hcount, ?_⟩
    rintro ⟨name, ⟨typeName, parameters⟩⟩ hentry
    obtain ⟨hname, hparameters⟩ := hattribute _ hentry
    simp only [List.mem_cons, List.not_mem_nil, or_false] at hname
    cases hparameters
    rcases hname with rfl | rfl | rfl
    · exact Or.inl (by rw [← name_of_attribute? hnodup hwhen hentry]; rfl)
    · exact Or.inr (Or.inl
        (by rw [← name_of_attribute? hnodup hthen hentry]; rfl))
    · exact Or.inr (Or.inr
        (by rw [← name_of_attribute? hnodup hagent hentry]; rfl))

/-- A block is kept in its tree where it is plain. -/
theorem Accepted.keptIn_tree_iff (h : written.Accepted) :
    written.KeptIn written.tree ↔ written.Plain := by
  have hkeys : (written.message.data.map collectedField).map Prod.fst =
      written.message.data.map Prod.fst := by
    rw [List.map_map]
    rfl
  have hattributes := h.attributes_iff
  have hmem : ∀ field ∈ written.message.data, (field.1, field.2.collected) ∈
      written.message.data.map collectedField :=
    fun field hfield => List.mem_map_of_mem hfield
  constructor
  · intro hkept
    obtain ⟨hnames, hshape⟩ :=
      hattributes.mp ⟨hkept.attributeCount, hkept.attributes⟩
    have hcount : (Assoc.ofPairs (written.message.data.map
        collectedField)).length = (written.message.data.map
          collectedField).length := by
      rw [List.length_map]
      exact hkept.fieldCount
    have hnodup := Assoc.nodup_of_length_ofPairs hcount
    refine ⟨hnames, hshape, hkeys ▸ hnodup, fun field hfield => ?_⟩
    obtain ⟨kept, hkeptMem, hkeptIn⟩ := hkept.field field hfield
    rw [(Assoc.mem_ofPairs_iff_eq hnodup (hmem field hfield) kept).mp
      hkeptMem] at hkeptIn
    exact field.2.keptIn_collected_iff.mp hkeptIn
  · intro hplain
    obtain ⟨hcount, hshape⟩ :=
      hattributes.mpr ⟨hplain.attributeNames, hplain.attributes⟩
    have hnodup : ((written.message.data.map collectedField).map
        Prod.fst).Nodup := hkeys.symm ▸ hplain.fieldNames
    have hlength := Assoc.length_ofPairs hnodup
    rw [List.length_map] at hlength
    refine ⟨rfl, rfl, hcount, hshape, hlength, fun field hfield => ?_⟩
    exact ⟨field.2.collected,
      (Assoc.mem_ofPairs_iff_eq hnodup (hmem field hfield) _).mpr rfl,
      field.2.keptIn_collected_iff.mpr (hplain.fields field hfield)⟩

end WrittenMessage

section Messages

theorem message_accepted :
    Gives Written.message WrittenMessage.Accepted := by
  intro input written rest h
  unfold Written.message at h
  split at h
  · obtain ⟨name, _, h⟩ := Option.bind_eq_some_iff.mp h
    obtain ⟨_, _, h⟩ := Option.bind_eq_some_iff.mp h
    obtain ⟨attributes, _, h⟩ := Option.bind_eq_some_iff.mp h
    dsimp only at h
    split at h
    · obtain ⟨_, _, h⟩ := Option.bind_eq_some_iff.mp h
      obtain ⟨message, hmessage, h⟩ := Option.bind_eq_some_iff.mp h
      cases h
      exact ⟨_, _, _, hmessage⟩
    · obtain ⟨_, _, h⟩ := Option.bind_eq_some_iff.mp h
      obtain ⟨_, _, h⟩ := Option.bind_eq_some_iff.mp h
      obtain ⟨message, hmessage, h⟩ := Option.bind_eq_some_iff.mp h
      cases h
      exact ⟨_, _, _, hmessage⟩
  · cases h

/-- The blocks of a text the parser accepts are accepted. -/
theorem messages_accepted {tokens : List Token}
    {messages : List WrittenMessage}
    (h : Written.messages tokens = some messages) :
    ∀ written ∈ messages, written.Accepted := by
  unfold Written.messages at h
  split at h
  · rename_i hmessages
    cases h
    exact message_accepted.atLeastOne some tokens _ _ hmessages
  · cases h

theorem ofWritten_messages (messages : List WrittenMessage) :
    (ProtocolDescription.ofWritten messages).messages =
      Assoc.ofPairs (messages.map fun written =>
        (written.message.name, written.tree)) := by
  change Assoc.ofPairs ((messages.map WrittenMessage.tree).map _) = _
  rw [List.map_map]
  rfl

/-- Nothing is lost where no message is declared twice and each is plain. -/
theorem losesNothing_ofWritten_iff {messages : List WrittenMessage}
    (h : ∀ written ∈ messages, written.Accepted) :
    LosesNothing messages (.ofWritten messages) ↔
      (messages.map fun written => written.message.name).Nodup ∧
        ∀ written ∈ messages, written.Plain := by
  have hkeys : (messages.map fun written =>
      (written.message.name, written.tree)).map Prod.fst =
        messages.map fun written => written.message.name := by
    rw [List.map_map]
    rfl
  have hmem : ∀ written ∈ messages, (written.message.name, written.tree) ∈
      messages.map fun written => (written.message.name, written.tree) :=
    fun written hwritten => List.mem_map_of_mem hwritten
  constructor
  · rintro ⟨hcount, hmessage⟩
    rw [ofWritten_messages] at hcount hmessage
    have hnodup := Assoc.nodup_of_length_ofPairs
      (hcount.trans (List.length_map _).symm)
    refine ⟨hkeys ▸ hnodup, fun written hwritten => ?_⟩
    obtain ⟨tree, htree, hkept⟩ := hmessage written hwritten
    rw [(Assoc.mem_ofPairs_iff_eq hnodup (hmem written hwritten) tree).mp
      htree] at hkept
    exact (h written hwritten).keptIn_tree_iff.mp hkept
  · rintro ⟨hnodup, hplain⟩
    rw [← hkeys] at hnodup
    constructor
    · rw [ofWritten_messages, Assoc.length_ofPairs hnodup, List.length_map]
    · intro written hwritten
      rw [ofWritten_messages]
      exact ⟨written.tree,
        (Assoc.mem_ofPairs_iff hnodup).mpr (hmem written hwritten),
        (h written hwritten).keptIn_tree_iff.mpr (hplain written hwritten)⟩

/-- An accepted text loses nothing exactly when no name is declared twice in
it and the attributes of its messages are the three of the grammar. -/
theorem parse_losesNothing_iff {tokens : List Token}
    {description : ProtocolDescription} (h : parse tokens = some description) :
    ∃ messages, Written.messages tokens = some messages ∧
      (LosesNothing messages description ↔
        (messages.map fun written => written.message.name).Nodup ∧
          ∀ written ∈ messages, written.Plain) := by
  rw [parse_eq_ofWritten] at h
  obtain ⟨messages, hmessages, rfl⟩ := Option.map_eq_some_iff.mp h
  exact ⟨messages, hmessages,
    losesNothing_ofWritten_iff (messages_accepted hmessages)⟩

end Messages

section Signals

/-- The attributes of the messages below. -/
def signalAttributes : List (String × String) :=
  [("when", "Open"), ("then", "Closed"), ("agent", "Client")]

def attributeTokens (entry : String × String) : List Token :=
  [.identifier entry.1, .keyValueSeparator, .identifier entry.2,
    .statementEnd]

/-- A message block without data. -/
def signalTokens (name : Octets) : List Token :=
  .keywordMessage :: .string name :: .curlyBraceOpen ::
    (signalAttributes.flatMap attributeTokens ++ [.curlyBraceClose])

def writtenAttribute (entry : String × String) : String × DataType :=
  (entry.1, .mk (.mk entry.2 none) [])

def signal (name : Octets) : WrittenMessage where
  attributes := signalAttributes.map writtenAttribute
  message := ⟨name, .mk "Open" none, .mk "Closed" none, .mk "Client" none,
    [], []⟩

theorem writtenDataType_eq (tokens : List Token) :
    Written.dataType tokens = Written.dataTypeLayer Written.dataType tokens :=
  guarded_writtenDataTypeLayer.fix_eq tokens

theorem messageDataPair_attributeTokens (entry : String × String)
    (rest : List Token) :
    Written.messageDataPair (attributeTokens entry ++ rest) =
      some (writtenAttribute entry, rest) := by
  have htype : Written.dataType (.identifier entry.2 :: .statementEnd ::
      rest) = some (.mk (.mk entry.2 none) [], .statementEnd :: rest) := by
    rw [writtenDataType_eq]
    rfl
  rw [attributeTokens, List.cons_append, List.cons_append, List.cons_append,
    List.singleton_append, Written.messageDataPair, htype]
  rfl

theorem message_signalTokens (name : Octets) (rest : List Token) :
    Written.message (signalTokens name ++ rest) = some (signal name, rest) := by
  have hmany : many some Written.messageDataPair
      (signalAttributes.flatMap attributeTokens ++ .curlyBraceClose :: rest) =
        (signalAttributes.map writtenAttribute, .curlyBraceClose :: rest) :=
    many_flatMap (fun _ => True)
      (fun entry _ rest _ => messageDataPair_attributeTokens entry rest)
      (fun entry _ => by simp [attributeTokens])
      (fun _ _ _ => trivial) trivial rfl
  rw [signalTokens, List.cons_append, List.cons_append, List.cons_append,
    List.append_assoc, List.singleton_append, Written.message]
  simp only [Parse.stringLiteral, expect_cons, Option.bind_eq_bind,
    Option.bind_some, atLeastOne_eq_some hmany (by simp [signalAttributes])]
  rfl

theorem messages_signals {names : List Octets} (h : names ≠ []) :
    Written.messages (names.flatMap signalTokens) =
      some (names.map signal) := by
  have hmany : many some Written.message
      (names.flatMap signalTokens ++ []) = (names.map signal, []) :=
    many_flatMap (fun _ => True)
      (fun name _ rest _ => message_signalTokens name rest)
      (fun name _ => by simp [signalTokens])
      (fun _ _ _ => trivial) trivial rfl
  rw [List.append_nil] at hmany
  rw [Written.messages, atLeastOne_eq_some hmany (by simpa using h)]

theorem parse_signals {names : List Octets} (h : names ≠ []) :
    parse (names.flatMap signalTokens) =
      some (.ofWritten (names.map signal)) := by
  rw [parse_eq_ofWritten, messages_signals h]
  rfl

/-- Of two messages with one name the parser drops the second. -/
theorem second_message_lost :
    ∃ tokens description messages, parse tokens = some description ∧
      Written.messages tokens = some messages ∧
        ¬ LosesNothing messages description := by
  have hne : ([[80], [80]] : List Octets) ≠ [] := List.cons_ne_nil _ _
  refine ⟨_, _, _, parse_signals hne, messages_signals hne, ?_⟩
  intro h
  have hcount := h.count
  rw [ofWritten_messages] at hcount
  exact absurd hcount (by decide)

end Signals

section Records

/-- A field, its type and the integer parameters of the type. -/
abbrev SizedField := String × String × List (String × Int)

/-- `line: str<min=1, max=80>; count: int<bits=8>;`. -/
def recordFields : List SizedField :=
  [("line", "str", [("min", 1), ("max", 80)]), ("count", "int", [("bits", 8)])]

def sizeTokens (size : String × Int) : List Token :=
  [.identifier size.1, .equal, .integer size.2]

def sizedFieldTokens (field : SizedField) : List Token :=
  .identifier field.1 :: .keyValueSeparator :: .identifier field.2.1 ::
    .angleBracketOpen :: (separated .comma sizeTokens field.2.2 ++
      [.angleBracketClose, .statementEnd])

def writtenField (field : SizedField) : String × DataType :=
  (field.1, .mk (.mk field.2.1 none)
    (field.2.2.map fun size => (size.1, .integer size.2)))

/-- A message block with these fields and one terminator. -/
def recordTokens (name : Octets) : List Token :=
  .keywordMessage :: .string name :: .curlyBraceOpen ::
    (signalAttributes.flatMap attributeTokens ++
      .identifier "data" :: .keyValueSeparator :: .curlyBraceOpen ::
        (recordFields.flatMap sizedFieldTokens ++
          .curlyBraceClose :: .keywordParts :: .curlyBraceOpen ::
            (Grammar.messageSequenceTokens [.terminator [10]] ++
              [.curlyBraceClose, .curlyBraceClose])))

def record (name : Octets) : WrittenMessage where
  attributes := signalAttributes.map writtenAttribute
  message := ⟨name, .mk "Open" none, .mk "Closed" none, .mk "Client" none,
    recordFields.map writtenField, [.terminator [10]]⟩

theorem typeParameter_size (size : String × Int) (rest : List Token) :
    Parse.typeParameter Written.dataType (sizeTokens size ++ rest) =
      some ((size.1, .integer size.2), rest) := by
  have hnone : Written.dataType (.integer size.2 :: rest) = none := by
    rw [writtenDataType_eq]
    rfl
  have hvalue : Parse.typeParameterValue Written.dataType
      (.integer size.2 :: rest) = some (.integer size.2, rest) :=
    anyOf_of_none _ (mapNode_of_none _ hnone)
  rw [sizeTokens, List.cons_append, List.cons_append, List.singleton_append,
    Parse.typeParameter, hvalue]
  rfl

theorem messageDataPair_sizedField {field : SizedField} (h : field.2.2 ≠ [])
    (rest : List Token) :
    Written.messageDataPair (sizedFieldTokens field ++ rest) =
      some (writtenField field, rest) := by
  have hmany : many (expect .comma) (Parse.typeParameter Written.dataType)
      (separated .comma sizeTokens field.2.2 ++
        .angleBracketClose :: .statementEnd :: rest) =
      (field.2.2.map fun size => (size.1, .integer size.2),
        .angleBracketClose :: .statementEnd :: rest) :=
    many_separated (fun _ => True) h
      (fun size _ rest _ => typeParameter_size size rest)
      (fun _ => trivial) trivial rfl
  have hparameters : Written.typeParameters Written.dataType
      (.angleBracketOpen :: (separated .comma sizeTokens field.2.2 ++
        .angleBracketClose :: .statementEnd :: rest)) =
      some (field.2.2.map fun size => (size.1, .integer size.2),
        .statementEnd :: rest) := by
    rw [Written.typeParameters, atLeastOne_eq_some hmany (by simpa using h)]
    rfl
  simp only [sizedFieldTokens, List.cons_append, List.append_assoc,
    List.nil_append, Written.messageDataPair, writtenDataType_eq,
    Written.dataTypeLayer, maybe_of_some hparameters]
  rfl

theorem messageData_record (rest : List Token) :
    Written.messageData (.identifier "data" :: .keyValueSeparator ::
      .curlyBraceOpen :: (recordFields.flatMap sizedFieldTokens ++
        .curlyBraceClose :: rest)) =
      some (recordFields.map writtenField, rest) := by
  have hsizes : ∀ field ∈ recordFields, field.2.2 ≠ [] := by decide
  have hmany : many some Written.messageDataPair
      (recordFields.flatMap sizedFieldTokens ++ .curlyBraceClose :: rest) =
        (recordFields.map writtenField, .curlyBraceClose :: rest) :=
    many_flatMap (fun _ => True)
      (fun field hfield rest _ =>
        messageDataPair_sizedField (hsizes field hfield) rest)
      (fun field _ => by simp [sizedFieldTokens])
      (fun _ _ _ => trivial) trivial rfl
  rw [Written.messageData, Grammar.guard_data,
    atLeastOne_eq_some hmany (by simp [recordFields])]
  rfl

theorem message_recordTokens (name : Octets) (rest : List Token) :
    Written.message (recordTokens name ++ rest) = some (record name, rest) := by
  have hblock : Written.messageDataPair (.identifier "data" ::
      .keyValueSeparator :: .curlyBraceOpen ::
        (recordFields.flatMap sizedFieldTokens ++ .curlyBraceClose ::
          .keywordParts :: .curlyBraceOpen ::
            (Grammar.messageSequenceTokens [.terminator [10]] ++
              .curlyBraceClose :: .curlyBraceClose :: rest))) = none := by
    rw [Written.messageDataPair, writtenDataType_eq]
    rfl
  have hmany := many_flatMap (fun _ => True)
    (fun entry (_ : entry ∈ signalAttributes) rest _ =>
      messageDataPair_attributeTokens entry rest)
    (fun entry _ => by simp [attributeTokens])
    (fun _ _ _ => trivial) trivial hblock
  have hparts := Grammar.messageSequence_tokens
    (List.cons_ne_nil (.terminator [10]) [])
    (fun part hpart => List.mem_singleton.mp hpart ▸ .terminator _)
    (.curlyBraceClose :: rest)
  simp only [recordTokens, List.cons_append, List.append_assoc,
    List.nil_append, Written.message, Parse.stringLiteral, expect_cons,
    Option.bind_eq_bind, Option.bind_some,
    atLeastOne_eq_some hmany (by simp [signalAttributes]),
    maybe_of_some (messageData_record _), Parse.messageParts, hparts]
  rfl

theorem messages_records {names : List Octets} (h : names ≠ []) :
    Written.messages (names.flatMap recordTokens) =
      some (names.map record) := by
  have hmany : many some Written.message
      (names.flatMap recordTokens ++ []) = (names.map record, []) :=
    many_flatMap (fun _ => True)
      (fun name _ rest _ => message_recordTokens name rest)
      (fun name _ => by simp [recordTokens])
      (fun _ _ _ => trivial) trivial rfl
  rw [List.append_nil] at hmany
  rw [Written.messages, atLeastOne_eq_some hmany (by simpa using h)]

/-- Of two messages with two fields each nothing is lost. -/
theorem parse_losesNothing_records :
    ∃ description, parse ([[80], [81]].flatMap recordTokens) =
        some description ∧
      LosesNothing ([[80], [81]].map record) description := by
  have hne : ([[80], [81]] : List Octets) ≠ [] := List.cons_ne_nil _ _
  have hmessages := messages_records hne
  have hparse : parse ([[80], [81]].flatMap recordTokens) =
      some (.ofWritten ([[80], [81]].map record)) := by
    rw [parse_eq_ofWritten, hmessages]
    rfl
  obtain ⟨messages, hwritten, hiff⟩ := parse_losesNothing_iff hparse
  obtain rfl := Option.some.inj (hwritten.symm.trans hmessages)
  refine ⟨_, hparse, hiff.mpr ⟨by decide, fun written hwritten => ?_⟩⟩
  obtain ⟨name, _, rfl⟩ := List.mem_map.mp hwritten
  have hattributes :
      ((signalAttributes.map writtenAttribute).map Prod.fst).Nodup := by
    decide
  have hplain : ∀ entry ∈ signalAttributes.map writtenAttribute,
      entry.1 ∈ ["when", "then", "agent"] ∧ entry.2.parameters = [] := by
    simp [signalAttributes, writtenAttribute, DataType.parameters]
  have hnames : ((recordFields.map writtenField).map Prod.fst).Nodup := by
    decide
  have hfields : ∀ field ∈ recordFields.map writtenField,
      field.2.Distinct := by
    intro field hfield
    rcases List.mem_pair.mp hfield with rfl | rfl
    · exact ⟨by decide, trivial, trivial, trivial⟩
    · exact ⟨by decide, trivial, trivial⟩
  exact ⟨hattributes, hplain, hnames, hfields⟩

end Records

end NetworkProtocolDsl
