/-
What the parser makes of the documented grammar.

A repetition that stops early leaves the tokens of the rejected item, and none
of these closes the construct around it; so one rejected part rejects the whole
text.
-/
import NetworkProtocolDsl.GrammarRoundTrip

namespace NetworkProtocolDsl

open RecursiveParser Parse

namespace Grammar

/-- A repetition that meets a rejected item is not followed by what closes it. -/
theorem many_rejected {α β : Type} {item : Parser Token α}
    {print : β → List Token} {Accepted : β → Prop}
    {close : Token} {items : List β} (rest : List Token)
    (haccepted : ∀ x, Accepted x → ∃ node, ∀ rest,
      item (print x ++ rest) = some (node, rest))
    (hrejected : ∀ x ∈ items, ¬ Accepted x → ∀ rest,
      item (print x ++ rest) = none)
    (hprint : ∀ x, ∃ head tail, print x = head :: tail ∧ head ≠ close)
    (h : ¬ ∀ x ∈ items, Accepted x) :
    ∃ nodes after, many some item (items.flatMap print ++ rest) =
      (nodes, after) ∧ expect close after = none ∧ after ≠ [] := by
  induction items with
  | nil => exact absurd (fun x hx => absurd hx List.not_mem_nil) h
  | cons x items ih =>
      obtain ⟨head, tail, hx, hhead⟩ := hprint x
      rw [List.flatMap_cons, List.append_assoc]
      by_cases hok : Accepted x
      · obtain ⟨node, hread⟩ := haccepted x hok
        have hrest : ¬ ∀ y ∈ items, Accepted y := by
          intro hall
          refine h fun y hy => ?_
          rcases List.mem_cons.mp hy with rfl | hy
          · exact hok
          · exact hall y hy
        obtain ⟨nodes, after, hmany, hclose, hne⟩ :=
          ih (fun y hy => hrejected y (List.mem_cons_of_mem x hy)) hrest
        have hlength := length_lt_append (hx ▸ List.cons_ne_nil head tail)
          (items.flatMap print ++ rest)
        refine ⟨node :: nodes, after, ?_, hclose, hne⟩
        rw [many_step (hread _) rfl hlength, hmany]
      · refine ⟨[], print x ++ (items.flatMap print ++ rest),
          many_of_none (hrejected x List.mem_cons_self hok _), ?_, ?_⟩
        · rw [hx, List.cons_append, expect, if_neg hhead]
        · rw [hx]
          exact List.cons_ne_nil _ _

section MessageParts

theorem tokenSequence_empty (options : List TokenSequenceOption)
    (rest : List Token) :
    tokenSequence (.keywordTokens :: (optionsTokens options ++
      .curlyBraceOpen :: .curlyBraceClose :: rest)) = none := by
  have hmany : many some tokenPart (.curlyBraceClose :: rest) =
      ([], .curlyBraceClose :: rest) := many_of_none rfl
  have hparts : atLeastOne some tokenPart (.curlyBraceClose :: rest) = none := by
    rw [atLeastOne, hmany]
    rfl
  rw [tokenSequence]
  by_cases hoptions : options = []
  · subst hoptions
    rw [maybe_of_none (by rfl)]
    simp [optionsTokens, hparts]
  · rw [maybe_of_some (tokenSequenceOptions_tokens hoptions _)]
    simp [hparts]

theorem MessagePart.tokens_head (part : MessagePart) :
    ∃ head tail, part.tokens = head :: tail ∧ head ≠ .curlyBraceClose := by
  cases part with
  | tokenSequence options parts =>
      exact ⟨_, _, by rw [MessagePart.tokens], by simp⟩
  | terminator value => exact ⟨_, _, by rw [MessagePart.tokens], by simp⟩
  | messageForLoop options loopVariable collection block =>
      exact ⟨_, _, by rw [MessagePart.tokens], by simp⟩

/-- A sequence that is rejected, or not followed by its closing brace. -/
theorem messageSequence_rejected {block : List MessagePart}
    (hblock : ∀ part ∈ block, ¬ part.Accepted → ∀ rest,
      messagePart messageSequence (part.tokens ++ rest) = none)
    (h : ¬ (block ≠ [] ∧ ∀ part ∈ block, part.Accepted))
    (rest : List Token) :
    (messageSequence (messageSequenceTokens block ++
      .curlyBraceClose :: rest)).bind
        (fun result => expect .curlyBraceClose result.2) = none := by
  rw [messageSequence_eq, messageSequenceTokens_eq]
  by_cases hne : block = []
  · subst hne
    have hmany : many some (messagePart messageSequence)
        (.curlyBraceClose :: rest) = ([], .curlyBraceClose :: rest) :=
      many_of_none rfl
    rw [List.flatMap_nil, List.nil_append, atLeastOne, hmany]
    rfl
  · have haccepted : ∀ part : MessagePart, part.Accepted → ∃ tree, ∀ rest,
        messagePart messageSequence (part.tokens ++ rest) =
          some (tree, rest) :=
      fun part hpart => ⟨part.tree, messagePart_tokens hpart⟩
    obtain ⟨nodes, after, hmany, hclose, _⟩ := many_rejected
      (.curlyBraceClose :: rest) haccepted hblock
      MessagePart.tokens_head fun hall => h ⟨hne, hall⟩
    rw [atLeastOne, hmany]
    split
    · rfl
    · exact hclose

/-- A loop with options, or with a block that is rejected. -/
theorem messageForLoop_rejected {options : List TokenSequenceOption}
    (loopVariable collection : IdentifierReference) {block : List MessagePart}
    (hblock : options = [] → ∀ rest,
      (messageSequence (messageSequenceTokens block ++
        .curlyBraceClose :: rest)).bind
          (fun result => expect .curlyBraceClose result.2) = none)
    (rest : List Token) :
    messageForLoop messageSequence ((MessagePart.messageForLoop options
      loopVariable collection block).tokens ++ rest) = none := by
  by_cases hoptions : options = []
  · subst hoptions
    have hsequence := hblock rfl rest
    rw [messageForLoop_eq]
    cases hread : messageSequence (messageSequenceTokens block ++
        .curlyBraceClose :: rest) with
    | none => rfl
    | some result =>
        rw [hread, Option.bind_some] at hsequence
        rw [Option.bind_some, hsequence]
        rfl
  · simp only [MessagePart.tokens, List.cons_append, List.append_assoc]
    rw [messageForLoop,
      maybe_of_some (tokenSequenceOptions_tokens hoptions _)]
    rfl

/-- What is not accepted is rejected. -/
theorem messagePart_rejected (part : MessagePart) (h : ¬ part.Accepted)
    (rest : List Token) :
    messagePart messageSequence (part.tokens ++ rest) = none := by
  match part with
  | .tokenSequence options [] =>
      have hread := tokenSequence_empty options rest
      rw [messagePart, anyOf_of_none _ (mapNode_of_none _ ?_)]
      · rfl
      · simpa [MessagePart.tokens] using hread
  | .tokenSequence options (token :: tokens) =>
      exact absurd (.tokenSequence options (List.cons_ne_nil token tokens)) h
  | .terminator value => exact absurd (.terminator value) h
  | .messageForLoop options loopVariable collection block =>
      have hloop : messageForLoop messageSequence
          ((MessagePart.messageForLoop options loopVariable collection
            block).tokens ++ rest) = none := by
        apply messageForLoop_rejected
        intro hoptions rest
        subst hoptions
        refine messageSequence_rejected
          (fun part hmem hpart rest => messagePart_rejected part hpart rest)
          ?_ rest
        intro hok
        exact h (.messageForLoop loopVariable collection hok.1 hok.2)
      refine (anyOf_of_none _ rfl).trans ?_
      refine (anyOf_of_none _ rfl).trans ?_
      exact anyOf_of_none _ hloop
termination_by sizeOf part
decreasing_by
  have hlt := List.sizeOf_lt_of_mem hmem
  simp only [MessagePart.messageForLoop.sizeOf_spec]
  omega

end MessageParts

section Message

theorem tree?_eq_none {message : Message}
    (h : ¬ ∀ name, ∃ entry ∈ message.attributes, entry.name = name) :
    message.tree? = none := by
  obtain ⟨name, hname⟩ := not_forall.mp h
  have hnone : message.attribute? name = none := by
    rw [Message.attribute?, Option.map_eq_none_iff, List.find?_eq_none]
    intro entry hmem hentry
    exact hname ⟨entry, List.mem_reverse.mp hmem, of_decide_eq_true hentry⟩
  rw [Message.tree?]
  cases name with
  | whenState => rw [hnone]; rfl
  | thenState =>
      rw [hnone]
      cases message.attribute? .whenState <;> rfl
  | agent =>
      rw [hnone]
      cases message.attribute? .whenState <;>
        cases message.attribute? .thenState <;> rfl

theorem message_of_attributes_nil {message : Message}
    (h : message.attributes = []) (rest : List Token) :
    Parse.message (message.tokens ++ rest) = none := by
  have hmany : ∀ rest : List Token, many some messageDataPair
      (.identifier "data" :: .keyValueSeparator :: .curlyBraceOpen :: rest) =
      ([], .identifier "data" :: .keyValueSeparator :: .curlyBraceOpen ::
        rest) := fun rest => many_of_none (messageDataPair_block "data" rest)
  simp [Message.tokens, h, Parse.message, stringLiteral, atLeastOne, hmany]

theorem message_of_data_nil {message : Message}
    (hattributes : message.attributes ≠ []) (h : message.data = [])
    (rest : List Token) :
    Parse.message (message.tokens ++ rest) = none := by
  have hfields : ∀ rest : List Token,
      many some messageDataPair (.curlyBraceClose :: rest) =
        ([], .curlyBraceClose :: rest) := fun rest => many_of_none rfl
  have hdata : ∀ rest : List Token, messageData (.identifier "data" ::
      .keyValueSeparator :: .curlyBraceOpen :: .curlyBraceClose :: rest) =
        none := by
    intro rest
    rw [messageData, guard_data, atLeastOne, hfields]
    rfl
  simp only [Message.tokens, h, List.flatMap_nil, List.nil_append,
    List.cons_append, List.append_assoc, Parse.message, stringLiteral,
    expect_cons, Option.bind_eq_bind, Option.bind_some,
    atLeastOne_eq_some (many_attributes _ _) (by simpa using hattributes),
    maybe_of_none (hdata _)]
  rfl

theorem message_rejected {message : Message} (h : ¬ message.Accepted)
    (rest : List Token) :
    Parse.message (message.tokens ++ rest) = none := by
  by_cases hattributes : message.attributes = []
  · exact message_of_attributes_nil hattributes rest
  by_cases hdata : message.data = []
  · exact message_of_data_nil hattributes hdata rest
  rw [message_eq hattributes hdata]
  by_cases hparts : message.parts ≠ [] ∧
      ∀ part ∈ message.parts, part.Accepted
  · have hnot : ¬ ∀ name, ∃ entry ∈ message.attributes, entry.name = name :=
      fun hall => h ⟨hall, hdata, hparts.1, hparts.2⟩
    have hall := ofAttributes_pairs message
    rw [tree?_eq_none hnot] at hall
    rw [messageSequence_tokens hparts.1 hparts.2, Option.bind_some,
      expect_cons, Option.bind_some, expect_cons, Option.bind_some, hall]
    rfl
  · have hsequence := messageSequence_rejected
      (fun part _ hpart rest => messagePart_rejected part hpart rest) hparts
      (.curlyBraceClose :: rest)
    cases hread : messageSequence (messageSequenceTokens message.parts ++
        .curlyBraceClose :: .curlyBraceClose :: rest) with
    | none => rfl
    | some result =>
        rw [hread, Option.bind_some] at hsequence
        rw [Option.bind_some, hsequence]
        rfl

end Message

theorem parse_rejected {description : ProtocolDescription}
    (h : ¬ description.Accepted) : parse description.tokens = none := by
  by_cases hne : description = []
  · subst hne
    have hmany : many some Parse.message [] = ([], []) := many_of_none rfl
    simp [parse, protocolDescription, ProtocolDescription.tokens, atLeastOne,
      hmany]
  · have haccepted : ∀ message : Message, message.Accepted → ∃ tree, ∀ rest,
        Parse.message (message.tokens ++ rest) = some (tree, rest) := by
      intro message hmessage
      obtain ⟨tree, htree⟩ := hmessage.tree?
      exact ⟨tree, message_tokens hmessage htree⟩
    have hhead : ∀ message : Message, ∃ head tail,
        message.tokens = head :: tail ∧ head ≠ .curlyBraceClose :=
      fun message => ⟨_, _, by rw [Message.tokens], by simp⟩
    obtain ⟨nodes, after, hmany, _, hafter⟩ := many_rejected [] haccepted
      (fun message _ hmessage => message_rejected hmessage) hhead
      fun hall => h ⟨hne, hall⟩
    rw [List.append_nil] at hmany
    rw [parse, protocolDescription, ProtocolDescription.tokens, atLeastOne,
      hmany]
    cases nodes with
    | nil => rfl
    | cons node nodes =>
        cases after with
        | nil => contradiction
        | cons token after => rfl

/-- The parser returns the tree of a derivation exactly if every message has
its three attributes, no loop has options and nothing is repeated in vain. -/
theorem parse_isSome_iff (description : ProtocolDescription) :
    (parse description.tokens).isSome ↔ description.Accepted := by
  constructor
  · intro hsome
    by_contra h
    rw [parse_rejected h] at hsome
    contradiction
  · intro h
    obtain ⟨trees, htrees, _⟩ := exists_trees h.message
    rw [parse_of_trees h htrees]
    rfl

/-- Where every message has its three attributes, no loop has options and
nothing is repeated in vain, the parser returns the tree of the derivation. -/
theorem parse_documented {description : ProtocolDescription}
    (h : description.Accepted) :
    ∃ tree, description.tree? = some tree ∧
      parse description.tokens = some tree := by
  obtain ⟨trees, htrees, _⟩ := exists_trees h.message
  refine ⟨.ofMessages trees, ?_, parse_of_trees h htrees⟩
  rw [ProtocolDescription.tree?, htrees]
  rfl

/-- `message "M" { when: A; then: B; agent: C; data: { … } parts { … } }`. -/
def messageWith (names : List AttributeName) (parts : List MessagePart) :
    Message where
  name := [77]
  attributes := names.map fun name => ⟨name, "Open"⟩
  data := [("rows", .mk "array" [("element", .type (.mk "str" []))])]
  parts := parts

theorem messageWith_accepted {parts : List MessagePart} (hne : parts ≠ [])
    (hparts : ∀ part ∈ parts, part.Accepted) :
    ProtocolDescription.Accepted
      [messageWith [.whenState, .thenState, .agent] parts] := by
  refine ⟨List.cons_ne_nil _ _, ?_⟩
  intro message hmem
  obtain rfl := List.mem_singleton.mp hmem
  refine ⟨?_, List.cons_ne_nil _ _, hne, hparts⟩
  intro name
  cases name <;> simp [messageWith]

/-- `tokens<terminator="\n"> { row }`. -/
def rowTokens : MessagePart :=
  .tokenSequence [⟨.keywordTerminator, .string [10]⟩]
    [.identifierReference (.mk "row" none)]

theorem parse_documented_rows : ∃ tree,
    ProtocolDescription.tree? [messageWith [.whenState, .thenState, .agent]
      [.messageForLoop [] (.mk "row" none) (.mk "rows" none) [rowTokens],
        .terminator [46]]] = some tree ∧
    parse (ProtocolDescription.tokens
      [messageWith [.whenState, .thenState, .agent]
        [.messageForLoop [] (.mk "row" none) (.mk "rows" none) [rowTokens],
          .terminator [46]]]) = some tree := by
  refine parse_documented (messageWith_accepted (List.cons_ne_nil _ _) ?_)
  intro part hpart
  have hrow : rowTokens.Accepted := .tokenSequence _ (List.cons_ne_nil _ _)
  rcases List.mem_pair.mp hpart with rfl | rfl
  · exact .messageForLoop _ _ (List.cons_ne_nil _ _)
      fun part hpart => List.mem_singleton.mp hpart ▸ hrow
  · exact .terminator _

/-- A message without its agent. -/
theorem documented_rejected :
    parse (ProtocolDescription.tokens
      [messageWith [.whenState, .thenState] [rowTokens]]) = none := by
  refine parse_rejected fun h => ?_
  obtain ⟨entry, hmem, hname⟩ :=
    (h.message _ List.mem_cons_self).attributes .agent
  rcases List.mem_pair.mp hmem with rfl | rfl <;> contradiction

end Grammar

end NetworkProtocolDsl
