/-
What the grammar derives is read back.

Every production is read back before anything that cannot continue it; a
repetition is read back up to the token that closes it.
-/
import NetworkProtocolDsl.Grammar

namespace NetworkProtocolDsl

open RecursiveParser Parse

/-- The next token does not go on with a reference. -/
def NotDot (tokens : List Token) : Prop := tokens.head? ≠ some .dot

/-- The next token does not open a block of parameters. -/
def NotAngle (tokens : List Token) : Prop :=
  tokens.head? ≠ some .angleBracketOpen

theorem identifierReference_tokens (reference : IdentifierReference)
    {rest : List Token} (h : NotDot rest) :
    identifierReference (reference.tokens ++ rest) =
      some (reference, rest) := by
  match reference with
  | .mk name none =>
      rw [IdentifierReference.tokens, List.singleton_append]
      cases rest with
      | nil => rfl
      | cons token rest =>
          rw [identifierReference]
          intro after heq
          rw [List.cons.inj heq |>.1] at h
          exact h rfl
  | .mk name (some member) =>
      have hmember := identifierReference_tokens member h
      rw [IdentifierReference.tokens, List.cons_append, List.cons_append,
        identifierReference, hmember]

theorem tokenPart_print (part : TokenPart) {rest : List Token}
    (h : NotDot rest) :
    tokenPart (part.print ++ rest) = some (part, rest) := by
  cases part with
  | stringLiteral value => rfl
  | identifierReference reference =>
      have hread := identifierReference_tokens reference h
      have hliteral : stringLiteral (reference.tokens ++ rest) = none := by
        match reference with
        | .mk name none => rfl
        | .mk name (some member) => rfl
      rw [tokenPart, TokenPart.print,
        anyOf_of_none _ (mapNode_of_none _ hliteral),
        anyOf_of_some _ (mapNode_of_some _ hread)]

theorem tokenPart_print_follow (part : TokenPart) (rest : List Token) :
    NotDot (part.print ++ rest) := by
  match part with
  | .stringLiteral value => simp [NotDot, TokenPart.print]
  | .identifierReference (.mk name none) =>
      simp [NotDot, TokenPart.print, IdentifierReference.tokens]
  | .identifierReference (.mk name (some member)) =>
      simp [NotDot, TokenPart.print, IdentifierReference.tokens]

theorem TokenPart.print_ne_nil (part : TokenPart) : part.print ≠ [] := by
  match part with
  | .stringLiteral value => simp [TokenPart.print]
  | .identifierReference (.mk name none) =>
      simp [TokenPart.print, IdentifierReference.tokens]
  | .identifierReference (.mk name (some member)) =>
      simp [TokenPart.print, IdentifierReference.tokens]

namespace Grammar

section DataType

theorem typeParametersTokens_eq
    (parameters : List (String × TypeParameterValue)) :
    typeParametersTokens parameters =
      separated .comma typeParameterTokens parameters := by
  induction parameters using separated.induct with
  | case1 => rfl
  | case2 parameter => rfl
  | case3 parameter other parameters ih =>
      rw [typeParametersTokens, separated, ih]

theorem typeParametersTree_eq
    (parameters : List (String × TypeParameterValue)) :
    typeParametersTree parameters =
      parameters.map fun parameter => (parameter.1, parameter.2.tree) := by
  induction parameters with
  | nil => rfl
  | cons parameter parameters ih =>
      rw [typeParametersTree, ih]
      rfl

theorem typeParameters_eq_none {tokens : List Token} (h : NotAngle tokens) :
    typeParameters dataType tokens = none := by
  unfold typeParameters
  split
  · exact absurd rfl h
  · rfl

theorem dataType_identifier (name : String) {rest : List Token}
    (h : NotAngle rest) :
    dataType (.identifier name :: rest) = some (.mk (.mk name none) [], rest) := by
  rw [dataType_eq, dataTypeLayer, maybe_of_none (typeParameters_eq_none h)]

/-- A value is read back where the type in it is. -/
theorem typeParameter_tokens (parameter : String × TypeParameterValue)
    (htype : ∀ type : DataType, parameter.2 = .type type → ∀ rest,
      NotAngle rest →
        dataType (type.tokens ++ rest) = some (type.tree, rest))
    {rest : List Token} (h : NotAngle rest) :
    typeParameter dataType (typeParameterTokens parameter ++ rest) =
      some ((parameter.1, parameter.2.tree), rest) := by
  obtain ⟨name, value⟩ := parameter
  have hvalue : typeParameterValue dataType (value.tokens ++ rest) =
      some (value.tree, rest) := by
    cases value with
    | boolean value =>
        have hnone : dataType (.boolean value :: rest) = none := by
          rw [dataType_eq]
          rfl
        exact anyOf_of_none _ (mapNode_of_none _ hnone)
    | integer value =>
        have hnone : dataType (.integer value :: rest) = none := by
          rw [dataType_eq]
          rfl
        exact anyOf_of_none _ (mapNode_of_none _ hnone)
    | string value =>
        have hnone : dataType (.string value :: rest) = none := by
          rw [dataType_eq]
          rfl
        exact anyOf_of_none _ (mapNode_of_none _ hnone)
    | identifierReference name =>
        exact anyOf_of_some _ (mapNode_of_some _ (dataType_identifier name h))
    | type type =>
        exact anyOf_of_some _ (mapNode_of_some _ (htype type rfl rest h))
  rw [typeParameterTokens, List.cons_append, List.cons_append, typeParameter,
    hvalue]
  rfl

theorem dataType_tokens (type : DataType) {rest : List Token}
    (h : NotAngle rest) :
    dataType (type.tokens ++ rest) = some (type.tree, rest) := by
  match type with
  | .mk name [] =>
      exact dataType_identifier name h
  | .mk name (parameter :: parameters) =>
      have hmany : many (expect .comma) (typeParameter dataType)
          (separated .comma typeParameterTokens (parameter :: parameters) ++
            .angleBracketClose :: rest) =
          ((parameter :: parameters).map fun x => (x.1, x.2.tree),
            .angleBracketClose :: rest) :=
        many_separated NotAngle (List.cons_ne_nil parameter parameters)
          (fun x hx rest hrest => typeParameter_tokens x
            (fun type heq rest hrest => dataType_tokens type hrest) hrest)
          (fun rest => by simp [NotAngle]) (by simp [NotAngle]) rfl
      have hparameters : typeParameters dataType (.angleBracketOpen ::
          (typeParametersTokens (parameter :: parameters) ++
            .angleBracketClose :: rest)) = some (Assoc.ofPairs
              (typeParametersTree (parameter :: parameters)), rest) := by
        rw [typeParameters, typeParametersTokens_eq,
          atLeastOne_eq_some hmany (by simp)]
        simp [typeParametersTree_eq]
      rw [DataType.tokens, List.cons_append, List.cons_append,
        List.append_assoc, List.singleton_append, dataType_eq, dataTypeLayer,
        maybe_of_some hparameters]
      rfl
termination_by sizeOf type
decreasing_by
  have hmem := List.sizeOf_lt_of_mem hx
  obtain ⟨key, value⟩ := x
  subst heq
  simp only [Prod.mk.sizeOf_spec, DataType.mk.sizeOf_spec,
    TypeParameterValue.type.sizeOf_spec] at hmem ⊢
  omega

end DataType

section MessageData

theorem messageDataPair_tokens (field : String × DataType)
    (rest : List Token) :
    messageDataPair (messageDataFieldTokens field ++ rest) =
      some ((field.1, field.2.tree), rest) := by
  have htype : dataType (field.2.tokens ++ .statementEnd :: rest) =
      some (field.2.tree, .statementEnd :: rest) :=
    dataType_tokens field.2 (by simp [NotAngle])
  rw [messageDataFieldTokens, List.cons_append, List.cons_append,
    List.append_assoc, List.singleton_append, messageDataPair, htype]
  rfl

theorem messageDataPair_attribute (entry : MessageAttribute)
    (rest : List Token) :
    messageDataPair (entry.tokens ++ rest) =
      some ((entry.name.key, .mk (.mk entry.value none) []), rest) := by
  have htype : dataType (.identifier entry.value :: .statementEnd :: rest) =
      some (.mk (.mk entry.value none) [], .statementEnd :: rest) :=
    dataType_identifier entry.value (by simp [NotAngle])
  rw [MessageAttribute.tokens, List.cons_append, List.cons_append,
    List.cons_append, List.singleton_append, messageDataPair, htype]
  rfl

/-- The block of the data is no attribute. -/
theorem messageDataPair_block (name : String) (rest : List Token) :
    messageDataPair (.identifier name :: .keyValueSeparator ::
      .curlyBraceOpen :: rest) = none := by
  have hnone : dataType (.curlyBraceOpen :: rest) = none := by
    rw [dataType_eq]
    rfl
  rw [messageDataPair, hnone]
  rfl

theorem guard_data : (guard ("data" = "data") : Option Unit) = some () := rfl

theorem messageData_tokens {fields : List (String × DataType)}
    (hne : fields ≠ []) (rest : List Token) :
    messageData (.identifier "data" :: .keyValueSeparator :: .curlyBraceOpen ::
      (fields.flatMap messageDataFieldTokens ++ .curlyBraceClose :: rest)) =
      some (Assoc.ofPairs (fields.map fun field => (field.1, field.2.tree)),
        rest) := by
  have hmany : many some messageDataPair
      (fields.flatMap messageDataFieldTokens ++ .curlyBraceClose :: rest) =
      (fields.map fun field => (field.1, field.2.tree),
        .curlyBraceClose :: rest) :=
    many_flatMap (fun _ => True)
      (fun field _ rest _ => messageDataPair_tokens field rest)
      (fun field _ => by simp [messageDataFieldTokens])
      (fun _ _ _ => trivial) trivial rfl
  rw [messageData, guard_data,
    atLeastOne_eq_some hmany (by simpa using hne)]
  simp

end MessageData

section Options

theorem tokenSequenceOption_tokens (option : TokenSequenceOption)
    (rest : List Token) :
    tokenSequenceOption (option.tokens ++ rest) = some (option.pair, rest) := by
  obtain ⟨name, value⟩ := option
  cases name <;> cases value <;> rfl

theorem tokenSequenceOptions_tokens {options : List TokenSequenceOption}
    (hne : options ≠ []) (rest : List Token) :
    tokenSequenceOptions (optionsTokens options ++ rest) =
      some (optionsMap options, rest) := by
  have hmany : many (expect .comma) tokenSequenceOption
      (separated .comma TokenSequenceOption.tokens options ++
        .angleBracketClose :: rest) =
      (options.map TokenSequenceOption.pair, .angleBracketClose :: rest) :=
    many_separated (fun _ => True) hne
      (fun option _ rest _ => tokenSequenceOption_tokens option rest)
      (fun _ => trivial) trivial rfl
  have hempty : options.isEmpty = false := by simpa using hne
  rw [optionsTokens, hempty]
  simp only [Bool.false_eq_true, ↓reduceIte, List.cons_append,
    List.append_assoc, List.nil_append]
  rw [tokenSequenceOptions, atLeastOne_eq_some hmany (by simpa using hne)]
  simp [optionsMap]

/-- A token sequence is read back with the options it was given. -/
theorem tokenSequence_tokens (options : List TokenSequenceOption)
    {parts : List TokenPart} (hne : parts ≠ []) (rest : List Token) :
    tokenSequence (.keywordTokens :: (optionsTokens options ++
      .curlyBraceOpen :: (parts.flatMap TokenPart.print ++
        .curlyBraceClose :: rest))) =
      some (⟨parts, (optionsMap options).terminator,
        (optionsMap options).escape⟩, rest) := by
  have hmany : many some tokenPart
      (parts.flatMap TokenPart.print ++ .curlyBraceClose :: rest) =
      (parts.map id, .curlyBraceClose :: rest) :=
    many_flatMap NotDot (fun part _ rest hrest => tokenPart_print part hrest)
      (fun part _ => part.print_ne_nil)
      (fun part _ rest => tokenPart_print_follow part rest)
      (by simp [NotDot]) rfl
  rw [List.map_id] at hmany
  rw [tokenSequence]
  by_cases hoptions : options = []
  · subst hoptions
    rw [maybe_of_none (by rfl)]
    simp [optionsTokens, atLeastOne_eq_some hmany hne]
    exact ⟨rfl, rfl⟩
  · rw [maybe_of_some (tokenSequenceOptions_tokens hoptions _)]
    simp [atLeastOne_eq_some hmany hne]

end Options

section MessageParts

theorem messageSequenceTokens_eq (parts : List MessagePart) :
    messageSequenceTokens parts = parts.flatMap MessagePart.tokens := by
  induction parts with
  | nil => rfl
  | cons part parts ih => rw [messageSequenceTokens, ih, List.flatMap_cons]

theorem messageSequenceTree_eq (parts : List MessagePart) :
    messageSequenceTree parts = parts.map MessagePart.tree := by
  induction parts with
  | nil => rfl
  | cons part parts ih => rw [messageSequenceTree, ih, List.map_cons]

/-- Nothing is repeated in vain, and no loop has options. -/
inductive MessagePart.Accepted : MessagePart → Prop where
  | tokenSequence (options : List TokenSequenceOption)
      {parts : List TokenPart} (hne : parts ≠ []) :
      Accepted (.tokenSequence options parts)
  | terminator (value : Octets) : Accepted (.terminator value)
  | messageForLoop (loopVariable collection : IdentifierReference)
      {block : List MessagePart} (hne : block ≠ [])
      (hblock : ∀ part ∈ block, Accepted part) :
      Accepted (.messageForLoop [] loopVariable collection block)

theorem MessagePart.tokens_ne_nil (part : MessagePart) : part.tokens ≠ [] := by
  cases part <;> simp [MessagePart.tokens]

/-- A sequence is read back where its parts are. -/
theorem messageSequence_of_parts {block : List MessagePart} (hne : block ≠ [])
    (hblock : ∀ part ∈ block, ∀ rest,
      messagePart messageSequence (part.tokens ++ rest) =
        some (part.tree, rest)) (rest : List Token) :
    messageSequence (messageSequenceTokens block ++ .curlyBraceClose :: rest) =
      some (messageSequenceTree block, .curlyBraceClose :: rest) := by
  have hmany : many some (messagePart messageSequence)
      (block.flatMap MessagePart.tokens ++ .curlyBraceClose :: rest) =
      (block.map MessagePart.tree, .curlyBraceClose :: rest) :=
    many_flatMap (fun _ => True) (fun part hmem rest _ => hblock part hmem rest)
      (fun part _ => part.tokens_ne_nil) (fun _ _ _ => trivial) trivial rfl
  rw [messageSequence_eq, messageSequenceTokens_eq, messageSequenceTree_eq]
  exact atLeastOne_eq_some hmany (by simpa using hne)

/-- A loop without options is read up to its block. -/
theorem messageForLoop_eq (loopVariable collection : IdentifierReference)
    (block : List MessagePart) (rest : List Token) :
    messageForLoop messageSequence ((MessagePart.messageForLoop []
        loopVariable collection block).tokens ++ rest) =
      (messageSequence (messageSequenceTokens block ++
        .curlyBraceClose :: rest)).bind fun result =>
          (expect .curlyBraceClose result.2).map fun rest =>
            (.messageForLoop loopVariable collection result.1 none, rest) := by
  have hcollection := fun tokens : List Token =>
    identifierReference_tokens collection
      (show NotDot (.curlyBraceOpen :: tokens) by simp [NotDot])
  have hvariable := fun tokens : List Token =>
    identifierReference_tokens loopVariable
      (show NotDot (.keywordIn :: tokens) by simp [NotDot])
  have hoptions : ∀ tokens : List Token,
      tokenSequenceOptions (loopVariable.tokens ++ tokens) = none := by
    match loopVariable with
    | .mk name none => exact fun _ => rfl
    | .mk name (some member) => exact fun _ => rfl
  simp only [MessagePart.tokens, optionsTokens, List.isEmpty_nil, ↓reduceIte,
    List.nil_append, List.cons_append, List.append_assoc]
  have hguard : (guard ((none : Option TokenSequenceOptionsMap).isNone =
      true) : Option Unit) = some () := rfl
  rw [messageForLoop, maybe_of_none (hoptions _)]
  dsimp only
  rw [hguard]
  simp only [hvariable, hcollection, expect_cons, Option.bind_eq_bind,
    Option.bind_some, Option.pure_def, Option.map_eq_bind]
  rfl

theorem messagePart_tokens {part : MessagePart} (h : part.Accepted)
    (rest : List Token) :
    messagePart messageSequence (part.tokens ++ rest) =
      some (part.tree, rest) := by
  induction h generalizing rest with
  | tokenSequence options hne =>
      have hread := tokenSequence_tokens options hne rest
      refine anyOf_of_some _ (mapNode_of_some _ ?_)
      simpa [MessagePart.tokens] using hread
  | terminator value =>
      exact anyOf_of_none _ rfl
  | messageForLoop loopVariable collection hne hblock ih =>
      rename_i block
      have hloop := messageForLoop_eq loopVariable collection block rest
      rw [messageSequence_of_parts hne ih rest, Option.bind_some,
        expect_cons] at hloop
      refine (anyOf_of_none _ rfl).trans ?_
      refine (anyOf_of_none _ rfl).trans ?_
      refine anyOf_of_some _ (hloop.trans ?_)
      rw [MessagePart.tree]
      rfl

theorem messageSequence_tokens {parts : List MessagePart} (hne : parts ≠ [])
    (h : ∀ part ∈ parts, part.Accepted) (rest : List Token) :
    messageSequence (messageSequenceTokens parts ++ .curlyBraceClose :: rest) =
      some (messageSequenceTree parts, .curlyBraceClose :: rest) :=
  messageSequence_of_parts hne
    (fun part hmem rest => messagePart_tokens (h part hmem) rest) rest

end MessageParts

section Message

/-- The attributes that have to be there, and nothing repeated in vain. -/
structure Message.Accepted (message : Message) : Prop where
  attributes : ∀ name, ∃ entry ∈ message.attributes, entry.name = name
  data : message.data ≠ []
  parts : message.parts ≠ []
  part : ∀ part ∈ message.parts, part.Accepted

def MessageAttribute.pair (entry : MessageAttribute) :
    String × NetworkProtocolDsl.DataType :=
  (entry.name.key, .mk (.mk entry.value none) [])

theorem AttributeName.key_inj {name other : AttributeName} :
    (name.key == other.key) = decide (name = other) := by
  cases name <;> cases other <;> decide

theorem lookup_attributes (entries : List MessageAttribute)
    (name : AttributeName) :
    ((entries.map MessageAttribute.pair).lookup name.key).map
        NetworkProtocolDsl.DataType.name =
      (entries.find? (·.name = name)).map (.mk ·.value none) := by
  induction entries with
  | nil => rfl
  | cons entry entries ih =>
      rw [List.map_cons, MessageAttribute.pair, List.lookup_cons,
        AttributeName.key_inj, List.find?_cons]
      by_cases hname : entry.name = name
      · subst hname
        simp
        rfl
      · have hother : ¬ name = entry.name := fun heq => hname heq.symm
        simpa [hname, hother] using ih

theorem attribute?_pairs (message : Message) (name : AttributeName) :
    Parse.attribute? name.key (message.attributes.map MessageAttribute.pair) =
      message.attribute? name := by
  rw [Parse.attribute?, ← List.map_reverse, lookup_attributes]
  rfl

theorem ofAttributes_pairs (message : Message) :
    ofAttributes message.name (message.attributes.map MessageAttribute.pair)
        (Assoc.ofPairs (message.data.map fun field =>
          (field.1, field.2.tree)))
        (messageSequenceTree message.parts) = message.tree? := by
  have hwhen := attribute?_pairs message .whenState
  have hthen := attribute?_pairs message .thenState
  have hagent := attribute?_pairs message .agent
  simp only [AttributeName.key] at hwhen hthen hagent
  rw [ofAttributes, hwhen, hthen, hagent]
  rfl

theorem Message.Accepted.tree? {message : Message} (h : message.Accepted) :
    ∃ tree, message.tree? = some tree := by
  have hattribute : ∀ name, ∃ reference,
      message.attribute? name = some reference := by
    intro name
    obtain ⟨entry, hmem, rfl⟩ := h.attributes name
    have hfound : (message.attributes.reverse.find?
        (·.name = entry.name)).isSome := by
      rw [List.find?_isSome]
      exact ⟨entry, by simpa using hmem, by simp⟩
    obtain ⟨found, hfound⟩ := Option.isSome_iff_exists.mp hfound
    exact ⟨_, by rw [Message.attribute?, hfound]; rfl⟩
  obtain ⟨whenState, hwhen⟩ := hattribute .whenState
  obtain ⟨thenState, hthen⟩ := hattribute .thenState
  obtain ⟨agent, hagent⟩ := hattribute .agent
  rw [Message.tree?, hwhen, hthen, hagent]
  exact ⟨_, rfl⟩

theorem many_attributes (entries : List MessageAttribute)
    (rest : List Token) :
    many some messageDataPair (entries.flatMap MessageAttribute.tokens ++
        .identifier "data" :: .keyValueSeparator :: .curlyBraceOpen :: rest) =
      (entries.map MessageAttribute.pair,
        .identifier "data" :: .keyValueSeparator :: .curlyBraceOpen :: rest) :=
  many_flatMap (fun _ => True)
    (fun entry _ rest _ => messageDataPair_attribute entry rest)
    (fun entry _ => by simp [MessageAttribute.tokens])
    (fun _ _ _ => trivial) trivial (messageDataPair_block "data" rest)

/-- A message with attributes and data is read up to its parts. -/
theorem message_eq {message : Message} (hattributes : message.attributes ≠ [])
    (hdata : message.data ≠ []) (rest : List Token) :
    Parse.message (message.tokens ++ rest) =
      (messageSequence (messageSequenceTokens message.parts ++
        .curlyBraceClose :: .curlyBraceClose :: rest)).bind fun result =>
          (expect .curlyBraceClose result.2).bind fun rest =>
            (expect .curlyBraceClose rest).bind fun rest =>
              (ofAttributes message.name
                (message.attributes.map MessageAttribute.pair)
                (Assoc.ofPairs (message.data.map fun field =>
                  (field.1, field.2.tree))) result.1).map
                fun tree => (tree, rest) := by
  simp only [Message.tokens, List.cons_append, List.append_assoc,
    List.nil_append, Parse.message, stringLiteral, expect_cons,
    Option.bind_eq_bind, Option.bind_some,
    atLeastOne_eq_some (many_attributes _ _) (by simpa using hattributes),
    maybe_of_some (messageData_tokens hdata _), messageParts, Option.pure_def,
    Option.map_eq_bind, Option.bind_assoc]
  rfl

theorem message_tokens {message : Message}
    {tree : NetworkProtocolDsl.Message} (h : message.Accepted)
    (htree : message.tree? = some tree) (rest : List Token) :
    Parse.message (message.tokens ++ rest) = some (tree, rest) := by
  have hne : message.attributes ≠ [] := by
    obtain ⟨entry, hmem, _⟩ := h.attributes .agent
    exact List.ne_nil_of_mem hmem
  have hall := ofAttributes_pairs message
  rw [htree] at hall
  rw [message_eq hne h.data, messageSequence_tokens h.parts h.part,
    Option.bind_some, expect_cons, Option.bind_some, expect_cons,
    Option.bind_some, hall]
  rfl

end Message

section ProtocolDescription

/-- There is a message, and every message is accepted. -/
structure ProtocolDescription.Accepted (description : ProtocolDescription) :
    Prop where
  nonempty : description ≠ []
  message : ∀ message ∈ description, message.Accepted

theorem many_message {description : ProtocolDescription}
    {trees : List NetworkProtocolDsl.Message}
    (h : ∀ message ∈ description, message.Accepted)
    (htrees : description.mapM Message.tree? = some trees) :
    many some Parse.message description.tokens = (trees, []) := by
  induction description generalizing trees with
  | nil =>
      obtain rfl := Option.some.inj htrees
      exact many_of_none rfl
  | cons message description ih =>
      rw [List.mapM_cons] at htrees
      obtain ⟨tree, htree, htrees⟩ := Option.bind_eq_some_iff.mp htrees
      obtain ⟨others, hothers, htrees⟩ := Option.bind_eq_some_iff.mp htrees
      obtain rfl := Option.some.inj htrees
      have hread := message_tokens (h message List.mem_cons_self) htree
        (ProtocolDescription.tokens description)
      have hne : message.tokens ≠ [] := by
        rw [Message.tokens]
        exact List.cons_ne_nil _ _
      have hlength := length_lt_append hne
        (ProtocolDescription.tokens description)
      have hsplit : ProtocolDescription.tokens (message :: description) =
          message.tokens ++ ProtocolDescription.tokens description := rfl
      rw [hsplit, many_step hread rfl hlength,
        ih (fun other hmem => h other (List.mem_cons_of_mem message hmem))
          hothers]

theorem exists_trees {description : ProtocolDescription}
    (h : ∀ message ∈ description, message.Accepted) :
    ∃ trees, description.mapM Message.tree? = some trees ∧
      trees.length = description.length := by
  induction description with
  | nil => exact ⟨[], rfl, rfl⟩
  | cons message description ih =>
      obtain ⟨tree, htree⟩ := (h message List.mem_cons_self).tree?
      obtain ⟨trees, htrees, hlength⟩ :=
        ih fun other hmem => h other (List.mem_cons_of_mem message hmem)
      refine ⟨tree :: trees, ?_, congrArg Nat.succ hlength⟩
      rw [List.mapM_cons, htree, htrees]
      rfl

/-- The parser puts the trees of the messages together. -/
theorem parse_of_trees {description : ProtocolDescription}
    {trees : List NetworkProtocolDsl.Message} (h : description.Accepted)
    (htrees : description.mapM Message.tree? = some trees) :
    parse description.tokens = some (.ofMessages trees) := by
  have hmany := many_message h.message htrees
  have hne : trees ≠ [] := by
    intro hnil
    obtain ⟨others, hothers, hlength⟩ := exists_trees h.message
    obtain rfl := Option.some.inj (htrees.symm.trans hothers)
    rw [hnil] at hlength
    exact h.nonempty (List.length_eq_zero_iff.mp hlength.symm)
  rw [parse, protocolDescription, atLeastOne_eq_some hmany hne]
  rfl

end ProtocolDescription

end Grammar

end NetworkProtocolDsl
