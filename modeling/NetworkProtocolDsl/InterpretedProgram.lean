/-
From the text of a protocol to the programs of its two peers.

The text is tokenized, parsed and analyzed, and each program is generated from
what that gives.  A text in any layout of a documented description is read as
its tree, and the two programs of one text are peers of one protocol.
-/
import NetworkProtocolDsl.GeneratedPeers
import NetworkProtocolDsl.GrammarAcceptance
import NetworkProtocolDsl.LexicalRoundTrip

namespace NetworkProtocolDsl

open Tokenize Lexical Generate OpTreeNode
open Session (Side)

namespace InterpretedProgram

variable (sm : StateMachine)

/-- The tokens of the source, parsed. -/
def parseSource (source : Octets) : Option ProtocolDescription := do
  let tokens ← tokenize sm source
  parse tokens

/-- `parse_protocol_from_source`. -/
def parseProtocolFromSource (source : Octets) : Option Protocol := do
  let ast ← parseSource sm source
  Analyze.analyze ast

def generateClientFromSource (source : Octets) : Option OpTreeNode := do
  let protocol ← parseProtocolFromSource sm source
  (client protocol).toOption

def generateServerFromSource (source : Octets) : Option OpTreeNode := do
  let protocol ← parseProtocolFromSource sm source
  (server protocol).toOption

/-- A file that cannot be opened has no contents. -/
def generateClient (file : Option Octets) : Option OpTreeNode := do
  let content ← file
  generateClientFromSource sm content

def generateServer (file : Option Octets) : Option OpTreeNode := do
  let content ← file
  generateServerFromSource sm content

variable {sm} {source : Octets}

theorem parseSource_text {tokens : List Token} (h : Text tokens source) :
    parseSource sm source = parse tokens := by
  rw [parseSource, tokenize_of_text sm h]
  rfl

/-- A text in any layout of a documented description is read exactly if the
description is accepted, and then as its tree. -/
theorem parseSource_documented_iff {description : Grammar.ProtocolDescription}
    (h : Text description.tokens source) (tree : ProtocolDescription) :
    parseSource sm source = some tree ↔
      description.Accepted ∧ description.tree? = some tree := by
  rw [parseSource_text h]
  constructor
  · intro hparse
    have haccepted := (Grammar.parse_isSome_iff description).mp
      (Option.isSome_of_eq_some hparse)
    obtain ⟨trees, htrees, _⟩ := Grammar.exists_trees haccepted.message
    rw [Grammar.parse_of_trees haccepted htrees] at hparse
    rw [Grammar.ProtocolDescription.tree?, htrees]
    exact ⟨haccepted, hparse⟩
  · rintro ⟨haccepted, htree⟩
    obtain ⟨trees, htrees, _⟩ := Grammar.exists_trees haccepted.message
    rw [Grammar.ProtocolDescription.tree?, htrees] at htree
    rw [Grammar.parse_of_trees haccepted htrees]
    exact htree

/-- One message with a list of rows, printed and read. -/
theorem parseSource_documented_rows : ∃ tree,
    parseSource derivatives (printTokens (Grammar.ProtocolDescription.tokens
      [Grammar.messageWith [.whenState, .thenState, .agent]
        [.messageForLoop [] (.mk "row" none) (.mk "rows" none)
          [Grammar.rowTokens]]])) = some tree := by
  have hspellable : ∀ token ∈ Grammar.ProtocolDescription.tokens
      [Grammar.messageWith [.whenState, .thenState, .agent]
        [.messageForLoop [] (.mk "row" none) (.mk "rows" none)
          [Grammar.rowTokens]]], isSpellable token = true := by decide
  have haccepted : Grammar.ProtocolDescription.Accepted
      [Grammar.messageWith [.whenState, .thenState, .agent]
        [.messageForLoop [] (.mk "row" none) (.mk "rows" none)
          [Grammar.rowTokens]]] := by
    refine Grammar.messageWith_accepted (List.cons_ne_nil _ _) ?_
    refine List.forall_mem_singleton.mpr (.messageForLoop _ _
      (List.cons_ne_nil _ _) (List.forall_mem_singleton.mpr ?_))
    exact .tokenSequence _ (List.cons_ne_nil _ _)
  obtain ⟨trees, htrees, _⟩ := Grammar.exists_trees haccepted.message
  refine ⟨.ofMessages trees, (parseSource_documented_iff (text_printTokens
    fun token hmem => spellable_of_isSpellable (hspellable token hmem))
    _).mpr ⟨haccepted, ?_⟩⟩
  rw [Grammar.ProtocolDescription.tree?, htrees]
  rfl

theorem eq_stateMachine_of_generateAgent {agent : Agent} {program : OpTreeNode}
    (h : (generateAgent agent).toOption = some program) :
    ∃ states, generateAgent agent =
        .ok (.mk (.controlFlow (.stateMachineOperation states)) []) ∧
      program = .mk (.controlFlow (.stateMachineOperation states)) [] := by
  cases hagent : generateAgent agent with
  | error rejection =>
      rw [hagent] at h
      contradiction
  | ok found =>
      rw [hagent] at h
      obtain rfl := Option.some.inj h
      rw [generateAgent] at hagent
      obtain ⟨states, _, hstates⟩ := bind_eq_ok hagent
      obtain rfl := Except.ok.inj hstates
      exact ⟨states, rfl, rfl⟩

/-- The two programs of one text are peers of the protocol it describes. -/
theorem exists_peers {clientProgram serverProgram : OpTreeNode}
    (hclient : generateClientFromSource sm source = some clientProgram)
    (hserver : generateServerFromSource sm source = some serverProgram) :
    ∃ description, ∃ peers : Peers description,
      parseSource sm source = some description ∧
      clientProgram =
        .mk (.controlFlow (.stateMachineOperation (peers.machines .first))) [] ∧
      serverProgram =
        .mk (.controlFlow (.stateMachineOperation (peers.machines .second)))
          [] := by
  obtain ⟨protocol, hprotocol, hclient⟩ := Option.bind_eq_some_iff.mp hclient
  obtain ⟨other, hother, hserver⟩ := Option.bind_eq_some_iff.mp hserver
  obtain rfl := Option.some.inj (hprotocol.symm.trans hother)
  obtain ⟨description, hdescription, hanalyze⟩ :=
    Option.bind_eq_some_iff.mp hprotocol
  obtain ⟨clientStates, hfirst, rfl⟩ :=
    eq_stateMachine_of_generateAgent hclient
  obtain ⟨serverStates, hsecond, rfl⟩ :=
    eq_stateMachine_of_generateAgent hserver
  refine ⟨description, ⟨protocol, fun side =>
    side.casesOn clientStates serverStates, hanalyze, fun side => ?_⟩,
    hdescription, rfl, rfl⟩
  cases side with
  | first => exact hfirst
  | second => exact hsecond

end InterpretedProgram

end NetworkProtocolDsl
