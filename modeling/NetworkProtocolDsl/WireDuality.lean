/-
One protocol, two dual translations.

The write side rejects a token sequence without tokens; the parser never
builds one.  So what the parser produced and the read side accepts is accepted
by the write side as well, and the two lists are dual.
-/
import NetworkProtocolDsl.DualActions
import NetworkProtocolDsl.GrammarAcceptance

namespace NetworkProtocolDsl

open RecursiveParser Parse PartsToReadActions PartsToWriteActions
open NetworkProtocolDsl.Action

/-- No token sequence is empty, at any depth. -/
inductive MessagePart.Filled : MessagePart → Prop where
  | tokenSequence {sequence : TokenSequence} (hne : sequence.tokens ≠ []) :
      Filled (.tokenSequence sequence)
  | terminator (value : Octets) : Filled (.terminator value)
  | messageForLoop (loopVariable collection : IdentifierReference)
      {block : List MessagePart} (terminator : Option Octets)
      (hblock : ∀ part ∈ block, Filled part) :
      Filled (.messageForLoop loopVariable collection block terminator)

section Parsed

theorem gives_tokenSequence :
    Gives Parse.tokenSequence fun sequence => sequence.tokens ≠ [] := by
  intro tokens sequence rest h
  unfold Parse.tokenSequence at h
  split at h
  · obtain ⟨_, _, h⟩ := Option.bind_eq_some_iff.mp h
    obtain ⟨result, hparts, h⟩ := Option.bind_eq_some_iff.mp h
    obtain ⟨_, _, h⟩ := Option.bind_eq_some_iff.mp h
    cases h
    exact (of_atLeastOne hparts).2
  · contradiction

theorem gives_messageForLoop {sequenceParser : Parser Token MessageSequence}
    (hsequence : Gives sequenceParser fun sequence =>
      ∀ part ∈ sequence, MessagePart.Filled part) :
    Gives (messageForLoop sequenceParser) MessagePart.Filled := by
  intro tokens part rest h
  unfold messageForLoop at h
  split at h
  · obtain ⟨_, _, h⟩ := Option.bind_eq_some_iff.mp h
    obtain ⟨_, _, h⟩ := Option.bind_eq_some_iff.mp h
    obtain ⟨_, _, h⟩ := Option.bind_eq_some_iff.mp h
    obtain ⟨_, _, h⟩ := Option.bind_eq_some_iff.mp h
    obtain ⟨_, _, h⟩ := Option.bind_eq_some_iff.mp h
    obtain ⟨result, hblock, h⟩ := Option.bind_eq_some_iff.mp h
    obtain ⟨_, _, h⟩ := Option.bind_eq_some_iff.mp h
    cases h
    exact .messageForLoop _ _ _ (hsequence _ _ _ hblock)
  · contradiction

theorem gives_messageSequence : Gives messageSequence fun sequence =>
    ∀ part ∈ sequence, MessagePart.Filled part := by
  refine gives_fix fun sequenceParser hsequence => ?_
  refine Gives.atLeastOne (gives_anyOf ?_) some
  intro alternative hmem
  simp only [List.mem_cons, List.not_mem_nil, or_false] at hmem
  rcases hmem with rfl | rfl | rfl
  · exact gives_tokenSequence.mapNode fun _ => .tokenSequence
  · have hterminator : Gives Parse.terminator fun _ => True :=
      fun _ _ _ _ => trivial
    exact hterminator.mapNode fun value _ => .terminator value
  · exact gives_messageForLoop hsequence

theorem gives_messageParts : Gives messageParts fun sequence =>
    ∀ part ∈ sequence, MessagePart.Filled part := by
  intro tokens sequence rest h
  unfold messageParts at h
  split at h
  · obtain ⟨result, hresult, h⟩ := Option.bind_eq_some_iff.mp h
    obtain ⟨_, _, h⟩ := Option.bind_eq_some_iff.mp h
    cases h
    exact gives_messageSequence _ _ _ hresult
  · contradiction

theorem parts_of_ofAttributes {name : Octets}
    {attributes : List (String × DataType)} {data : MessageData}
    {parts : MessageSequence} {message : Message}
    (h : ofAttributes name attributes data parts = some message) :
    message.parts = parts := by
  obtain ⟨_, _, h⟩ := Option.bind_eq_some_iff.mp h
  obtain ⟨_, _, h⟩ := Option.bind_eq_some_iff.mp h
  obtain ⟨_, _, h⟩ := Option.bind_eq_some_iff.mp h
  cases h
  rfl

theorem gives_message : Gives Parse.message fun message =>
    ∀ part ∈ message.parts, MessagePart.Filled part := by
  intro tokens message rest h
  unfold Parse.message at h
  split at h
  · obtain ⟨_, _, h⟩ := Option.bind_eq_some_iff.mp h
    obtain ⟨_, _, h⟩ := Option.bind_eq_some_iff.mp h
    obtain ⟨⟨attributes, after⟩, _, h⟩ := Option.bind_eq_some_iff.mp h
    dsimp only at h
    split at h
    · obtain ⟨_, _, h⟩ := Option.bind_eq_some_iff.mp h
      obtain ⟨_, hmessage, h⟩ := Option.bind_eq_some_iff.mp h
      cases h
      rw [parts_of_ofAttributes hmessage]
      exact fun part hmem => absurd hmem List.not_mem_nil
    · obtain ⟨_, hparts, h⟩ := Option.bind_eq_some_iff.mp h
      obtain ⟨_, _, h⟩ := Option.bind_eq_some_iff.mp h
      obtain ⟨_, hmessage, h⟩ := Option.bind_eq_some_iff.mp h
      cases h
      rw [parts_of_ofAttributes hmessage]
      exact gives_messageParts _ _ _ hparts
  · contradiction

/-- The parser never builds an empty token sequence. -/
theorem filled_of_parse {tokens : List Token}
    {description : ProtocolDescription}
    (h : parse tokens = some description) :
    ∀ entry ∈ description.messages, ∀ part ∈ entry.2.parts,
      MessagePart.Filled part := by
  intro entry hmem
  unfold parse at h
  split at h
  · rename_i parsed hparsed
    obtain rfl := Option.some.inj h
    obtain ⟨⟨messages, rest⟩, hresult, heq⟩ :=
      Option.bind_eq_some_iff.mp hparsed
    cases heq
    obtain ⟨message, hmessage, rfl⟩ :=
      List.mem_map.mp (Assoc.mem_ofPairs hmem)
    exact gives_message.atLeastOne some _ _ _ hresult message hmessage
  · contradiction

end Parsed

/-- A sequence of parts, or one inside a loop of it. -/
inductive MessageSequence.Within (sequence : MessageSequence) :
    MessageSequence → Prop where
  | self : Within sequence sequence
  | block {parts block : MessageSequence}
      {loopVariable collection : IdentifierReference}
      {terminator : Option Octets}
      (hmem : .messageForLoop loopVariable collection block terminator ∈ parts)
      (hblock : Within sequence block) : Within sequence parts

theorem MessageSequence.Within.filled {sequence parts : MessageSequence}
    (h : Within sequence parts) (hparts : ∀ part ∈ parts, part.Filled) :
    ∀ part ∈ sequence, part.Filled := by
  induction h with
  | self => exact hparts
  | block hmem hblock ih =>
      apply ih
      cases hparts _ hmem with
      | messageForLoop _ _ _ hblock => exact hblock

theorem writeTokenSequence_of_ne {tokens : List TokenPart}
    (escape : Option EscapeInfo) (hne : tokens ≠ []) :
    ∃ actions, PartsToWriteActions.tokenSequence tokens escape =
      some actions := by
  have hempty : tokens.isEmpty = false := by simpa using hne
  rw [PartsToWriteActions.tokenSequence, hempty]
  exact ⟨_, rfl⟩

/-- What the read side accepts the write side accepts, where no token sequence
is empty. -/
theorem partsToWriteActions_of_read {parts : MessageSequence}
    {readActions : List Action} (hfilled : ∀ part ∈ parts, part.Filled)
    (hread : partsToReadActions parts = some readActions) :
    ∃ writeActions, partsToWriteActions parts = some writeActions := by
  match parts with
  | [] => exact ⟨[], by rw [partsToWriteActions]⟩
  | [.tokenSequence sequence] =>
      rw [partsToReadActions] at hread
      obtain ⟨actions, hactions⟩ :=
        writeTokenSequence_of_ne sequence.escape (tokenSequence_duals hread).1
      rw [partsToWriteActions, partsToWriteActions, hactions]
      exact ⟨_, rfl⟩
  | .tokenSequence sequence :: .terminator value :: rest =>
      rw [partsToReadActions] at hread
      split at hread
      · contradiction
      · obtain ⟨_, _, hread⟩ := Option.bind_eq_some_iff.mp hread
        obtain ⟨others, hothers, _⟩ := Option.bind_eq_some_iff.mp hread
        obtain ⟨writeActions, hwrite⟩ := partsToWriteActions_of_read
          (fun part hmem => hfilled part (by simp [hmem])) hothers
        have hne : sequence.tokens ++ sequence.embeddedTerminator ≠ [] := by
          cases hfilled _ List.mem_cons_self with
          | tokenSequence hne => simp [hne]
        obtain ⟨actions, hactions⟩ :=
          writeTokenSequence_of_ne sequence.escape hne
        rw [partsToWriteActions, partsToWriteActions, hactions, hwrite]
        exact ⟨_, rfl⟩
  | .tokenSequence sequence :: .tokenSequence _ :: rest
  | .tokenSequence sequence :: .messageForLoop .. :: rest =>
      simp [partsToReadActions] at hread
  | .messageForLoop loopVariable collection block _ :: .terminator value ::
      rest =>
      rw [partsToReadActions] at hread
      obtain ⟨actions, hactions, hread⟩ := Option.bind_eq_some_iff.mp hread
      obtain ⟨others, hothers, _⟩ := Option.bind_eq_some_iff.mp hread
      have hblock : ∀ part ∈ block, part.Filled := by
        cases hfilled _ List.mem_cons_self with
        | messageForLoop _ _ _ hblock => exact hblock
      obtain ⟨blockActions, hblockActions⟩ :=
        partsToWriteActions_of_read hblock hactions
      obtain ⟨writeActions, hwrite⟩ := partsToWriteActions_of_read
        (fun part hmem => hfilled part (by simp [hmem])) hothers
      rw [partsToWriteActions, hblockActions, hwrite]
      exact ⟨_, rfl⟩
  | [.messageForLoop ..]
  | .messageForLoop .. :: .tokenSequence _ :: _
  | .messageForLoop .. :: .messageForLoop .. :: _
  | .terminator _ :: _ => simp [partsToReadActions] at hread

/-- Both sides describe one template: the write actions of a parsed sequence
are its read actions turned around, piece by piece. -/
theorem parsed_writeActions_eq_duals {tokens : List Token}
    {description : ProtocolDescription}
    (hparse : parse tokens = some description) {entry : Octets × Message}
    (hentry : entry ∈ description.messages) {sequence : MessageSequence}
    (hwithin : sequence.Within entry.2.parts) {readActions : List Action}
    (hread : partsToReadActions sequence = some readActions) :
    partsToWriteActions sequence = some (duals readActions) := by
  have hfilled := hwithin.filled (filled_of_parse hparse entry hentry)
  obtain ⟨writeActions, hwrite⟩ := partsToWriteActions_of_read hfilled hread
  rw [hwrite, partsToWriteActions_eq_duals hread hwrite]

/-- `tokens<escape=replace("\n", "\n\t")> { "- " row } terminator { "\n" }`. -/
def rowParts : List Grammar.MessagePart :=
  [.tokenSequence [⟨.escape, .escapeReplacement ⟨[10], [10, 9]⟩⟩]
      [.stringLiteral [45, 32], .identifierReference (.mk "row" none)],
    .terminator [10]]

/-- `for row in rows { … } terminator { ".\n" } tokens { "END " count }
terminator { "\n" }`. -/
def rowsParts : List Grammar.MessagePart :=
  [.messageForLoop [] (.mk "row" none) (.mk "rows" none) rowParts,
    .terminator [46, 10],
    .tokenSequence [] [.stringLiteral [69, 78, 68, 32],
      .identifierReference (.mk "count" none)],
    .terminator [10]]

theorem rowsParts_accepted : ∀ part ∈ rowsParts, part.Accepted := by
  have hblock : ∀ part ∈ rowParts, part.Accepted := by
    intro part hpart
    rcases List.mem_pair.mp hpart with rfl | rfl
    · exact .tokenSequence _ (List.cons_ne_nil _ _)
    · exact .terminator _
  intro part hpart
  rcases List.mem_cons.mp hpart with rfl | hpart
  · exact .messageForLoop _ _ (List.cons_ne_nil _ _) hblock
  rcases List.mem_cons.mp hpart with rfl | hpart
  · exact .terminator _
  rcases List.mem_pair.mp hpart with rfl | rfl
  · exact .tokenSequence _ (List.cons_ne_nil _ _)
  · exact .terminator _

def rowActions : List Action :=
  [.readStaticOctets [45, 32],
    .readOctetsUntilTerminator [10] (.mk "row" none) (some ⟨[10], [10, 9]⟩)]

def rowsActions : List Action :=
  [.loop (.mk "row" none) (.mk "rows" none) [46, 10] rowActions,
    .readStaticOctets [69, 78, 68, 32],
    .readOctetsUntilTerminator [10] (.mk "count" none) none]

theorem rowParts_readActions :
    partsToReadActions (Grammar.messageSequenceTree rowParts) =
      some rowActions := by
  have htree : Grammar.messageSequenceTree rowParts =
      [.tokenSequence ⟨[.stringLiteral [45, 32],
          .identifierReference (.mk "row" none)], none,
          some ⟨[10], [10, 9]⟩⟩, .terminator [10]] :=
    rfl
  simp [htree, rowActions, partsToReadActions,
    PartsToReadActions.tokenSequence, individualTokenActions, applyEscape]

theorem rowsParts_readActions :
    partsToReadActions (Grammar.messageSequenceTree rowsParts) =
      some rowsActions := by
  have htree : Grammar.messageSequenceTree rowsParts =
      [.messageForLoop (.mk "row" none) (.mk "rows" none)
          (Grammar.messageSequenceTree rowParts) none, .terminator [46, 10],
        .tokenSequence ⟨[.stringLiteral [69, 78, 68, 32],
          .identifierReference (.mk "count" none)], none, none⟩,
        .terminator [10]] :=
    rfl
  simp [htree, rowsActions, partsToReadActions, rowParts_readActions,
    PartsToReadActions.tokenSequence, individualTokenActions, applyEscape]

/-- The whole message, and the block of its loop. -/
theorem parsed_writeActions_eq_duals_rows :
    partsToWriteActions (Grammar.messageSequenceTree rowsParts) =
        some (duals rowsActions) ∧
      partsToWriteActions (Grammar.messageSequenceTree rowParts) =
        some (duals rowActions) := by
  have hne : rowsParts ≠ [] := List.cons_ne_nil _ _
  have haccepted := Grammar.messageWith_accepted hne rowsParts_accepted
  have hparse := Grammar.parse_of_trees haccepted rfl
  exact ⟨parsed_writeActions_eq_duals hparse List.mem_cons_self .self
      rowsParts_readActions,
    parsed_writeActions_eq_duals hparse List.mem_cons_self
      (.block List.mem_cons_self .self) rowParts_readActions⟩

end NetworkProtocolDsl
