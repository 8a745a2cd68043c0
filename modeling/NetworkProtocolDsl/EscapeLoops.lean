/-
When the escape loops end.

Both loops go on behind what they found.  An empty literal is found where the
loop stands, so the loop stays there; no other literal stops it.
-/
import NetworkProtocolDsl.EscapeReplacement
import NetworkProtocolDsl.SingleMessage

namespace NetworkProtocolDsl

open Escape

namespace WriteOctetsWithEscape

/-- Where the turn of the loop at a position goes on, if it does. -/
def nextPosition (escape : EscapeInfo) (input : Octets) (pos : Nat) :
    Option Nat :=
  if pos < input.length then
    (Occurrence.first escape.character (input.drop pos)).map
      fun esc => pos + esc + escape.character.length
  else none

variable {escape : EscapeInfo} {input : Octets} {pos next : Nat}

/-- The loop ends in a turn that does not go on. -/
theorem replaceFrom_of_ends (h : nextPosition escape input pos = none)
    (fuel : Nat) (result : Octets) : ∃ escaped,
    replaceFrom escape (fuel + 1) (input.drop pos) result = .ok escaped := by
  unfold nextPosition at h
  split_ifs at h with hpos
  · rw [Option.map_eq_none_iff] at h
    have hrest : input.drop pos ≠ [] := by
      rw [ne_eq, List.drop_eq_nil_iff]
      omega
    exact ⟨result ++ input.drop pos, by
      simp only [replaceFrom, if_neg hrest, h]⟩
  · have hrest : input.drop pos = [] := List.drop_eq_nil_iff.mpr (by omega)
    exact ⟨result, by simp only [replaceFrom, if_pos hrest]⟩

/-- The next turn of the loop is at the next position. -/
theorem replaceFrom_of_next (h : nextPosition escape input pos = some next)
    (fuel : Nat) (result : Octets) : ∃ longer,
    replaceFrom escape (fuel + 1) (input.drop pos) result =
      replaceFrom escape fuel (input.drop next) longer := by
  unfold nextPosition at h
  split_ifs at h with hpos
  obtain ⟨esc, hesc, rfl⟩ := Option.map_eq_some_iff.mp h
  have hrest : input.drop pos ≠ [] := by
    rw [ne_eq, List.drop_eq_nil_iff]
    omega
  refine ⟨result ++ (input.drop pos).take esc ++ escape.sequence, ?_⟩
  simp only [replaceFrom, if_neg hrest, hesc, List.drop_drop, Nat.add_assoc]

theorem lt_length_of_nextPosition
    (h : nextPosition escape input pos = some next) : pos < input.length := by
  unfold nextPosition at h
  split_ifs at h with hpos
  exact hpos

/-- A loop whose turns advance the position ends. -/
theorem replaceFrom_of_advances
    (hadvances : ∀ pos next, nextPosition escape input pos = some next →
      pos < next) {fuel : Nat} (hfuel : input.length - pos < fuel)
    (result : Octets) : ∃ escaped,
    replaceFrom escape fuel (input.drop pos) result = .ok escaped := by
  induction fuel generalizing pos result with
  | zero => omega
  | succ fuel ih =>
      cases hnext : nextPosition escape input pos with
      | none => exact replaceFrom_of_ends hnext fuel result
      | some next =>
          have hlt := hadvances pos next hnext
          have hpos := lt_length_of_nextPosition hnext
          obtain ⟨longer, hturn⟩ := replaceFrom_of_next hnext fuel result
          rw [hturn]
          exact ih (by omega) longer

theorem lt_of_nextPosition (hne : escape.character ≠ [])
    (h : nextPosition escape input pos = some next) : pos < next := by
  unfold nextPosition at h
  split_ifs at h
  obtain ⟨esc, _, rfl⟩ := Option.map_eq_some_iff.mp h
  have hlength := List.length_pos_of_ne_nil hne
  omega

/-- With an empty character the loop makes no progress. -/
theorem replaceFrom_empty_character (hnil : escape.character = [])
    {rest : Octets} (hrest : rest ≠ []) (fuel : Nat) (result : Octets) :
    replaceFrom escape fuel rest result = .error .nonTermination := by
  have hfirst : Occurrence.first escape.character rest = some 0 := by
    rw [hnil]
    exact Occurrence.first_of_prefix List.nil_prefix
  induction fuel generalizing result with
  | zero => rfl
  | succ fuel ih =>
      simp only [replaceFrom, if_neg hrest, hfirst]
      rw [hnil]
      exact ih _

end WriteOctetsWithEscape

namespace ReadOctetsUntilTerminator

/-- Where the turn of the loop at a position goes on, if it does. -/
def nextPosition (terminator : Octets) (escape : EscapeInfo) (input : Octets)
    (pos : Nat) : Option Nat :=
  if pos < input.length then
    match Occurrence.first terminator (input.drop pos),
        Occurrence.first escape.sequence (input.drop pos) with
    | _, none => none
    | none, some esc => some (pos + esc + escape.sequence.length)
    | some term, some esc =>
        if esc ≤ term then some (pos + esc + escape.sequence.length) else none
  else none

variable {terminator : Octets} {escape : EscapeInfo} {input : Octets}
  {pos next : Nat}

/-- A turn that goes on does so behind a sequence that no terminator comes
before. -/
theorem nextPosition_eq_some_iff :
    nextPosition terminator escape input pos = some next ↔
      pos < input.length ∧ ∃ esc,
        Occurrence.first escape.sequence (input.drop pos) = some esc ∧
        (∀ term, Occurrence.first terminator (input.drop pos) = some term →
          esc ≤ term) ∧ pos + esc + escape.sequence.length = next := by
  rw [nextPosition]
  by_cases hpos : pos < input.length
  · rw [if_pos hpos]
    cases hseq : Occurrence.first escape.sequence (input.drop pos) with
    | none => simp
    | some esc =>
        cases hterm : Occurrence.first terminator (input.drop pos) with
        | none => simp [hpos]
        | some term =>
            by_cases hle : esc ≤ term
            · simp [hpos, hle]
            · simp [hle]
  · simp [hpos]

theorem nextPosition_eq_none_cases
    (h : nextPosition terminator escape input pos = none) :
    input.drop pos = [] ∨
      Occurrence.first escape.sequence (input.drop pos) = none ∨
      ∃ term, Occurrence.first terminator (input.drop pos) = some term ∧
        ∀ esc, Occurrence.first escape.sequence (input.drop pos) = some esc →
          term < esc := by
  by_cases hpos : pos < input.length
  · rcases search_cases terminator escape.sequence (input.drop pos) with
      ⟨_, hseq⟩ | ⟨esc, hseq, hterm⟩ | hterm
    · exact Or.inr (Or.inl hseq)
    · rw [nextPosition_eq_some_iff.mpr ⟨hpos, esc, hseq, hterm, rfl⟩] at h
      cases h
    · exact Or.inr (Or.inr hterm)
  · exact Or.inl (List.drop_eq_nil_iff.mpr (by omega))

/-- The loop ends in a turn that does not go on. -/
theorem scan_of_ends (h : nextPosition terminator escape input pos = none)
    (fuel : Nat) (ctx : InputOutputOperationContext) : ∃ result,
    scan terminator escape (fuel + 1) (input.drop pos) pos ctx =
      .ok result := by
  by_cases hrest : input.drop pos = []
  · exact ⟨(0, ctx), by simp only [scan, if_pos hrest]⟩
  · rcases nextPosition_eq_none_cases h with hnil | hseq | ⟨term, hterm, hlt⟩
    · exact absurd hnil hrest
    · cases hterm : Occurrence.first terminator (input.drop pos) with
      | none => exact ⟨(0, ctx), by simp only [scan, if_neg hrest, hterm, hseq]⟩
      | some term =>
          exact ⟨_, scan_terminator hrest hterm (by simp [hseq]) pos ctx⟩
    · exact ⟨_, scan_terminator hrest hterm hlt pos ctx⟩

/-- The next turn of the loop is at the next position. -/
theorem scan_of_next (h : nextPosition terminator escape input pos = some next)
    (fuel : Nat) (ctx : InputOutputOperationContext) : ∃ longer,
    scan terminator escape (fuel + 1) (input.drop pos) pos ctx =
      scan terminator escape fuel (input.drop next) next longer := by
  obtain ⟨hpos, esc, hseq, hterm, rfl⟩ := nextPosition_eq_some_iff.mp h
  have hrest : input.drop pos ≠ [] := by
    rw [ne_eq, List.drop_eq_nil_iff]
    omega
  rw [scan_sequence hrest hseq hterm, List.drop_drop, ← Nat.add_assoc]
  exact ⟨_, rfl⟩

/-- A loop whose turns advance the position ends. -/
theorem scan_of_advances
    (hadvances : ∀ pos next,
      nextPosition terminator escape input pos = some next → pos < next)
    {fuel : Nat} (hfuel : input.length - pos < fuel)
    (ctx : InputOutputOperationContext) : ∃ result,
    scan terminator escape fuel (input.drop pos) pos ctx = .ok result := by
  induction fuel generalizing pos ctx with
  | zero => omega
  | succ fuel ih =>
      cases hnext : nextPosition terminator escape input pos with
      | none => exact scan_of_ends hnext fuel ctx
      | some next =>
          have hlt := hadvances pos next hnext
          have hpos := (nextPosition_eq_some_iff.mp hnext).1
          obtain ⟨longer, hturn⟩ := scan_of_next hnext fuel ctx
          rw [hturn]
          exact ih (by omega) longer

theorem lt_of_nextPosition (hne : escape.sequence ≠ [])
    (h : nextPosition terminator escape input pos = some next) :
    pos < next := by
  obtain ⟨_, esc, _, _, rfl⟩ := nextPosition_eq_some_iff.mp h
  have hlength := List.length_pos_of_ne_nil hne
  omega

end ReadOctetsUntilTerminator

namespace EscapeInfo

variable {escape : EscapeInfo}

/-- Writing the value and reading the input come to an end, and each turn of
the loops that goes on advances the position. -/
structure LoopsEnd (escape : EscapeInfo) (terminator value input : Octets) :
    Prop where
  writeAdvances : ∀ pos next,
    WriteOctetsWithEscape.nextPosition escape value pos = some next →
      pos < next
  writeEnds : ∃ escaped,
    WriteOctetsWithEscape.applyEscapeReplacement value escape = .ok escaped
  readAdvances : ∀ pos next,
    ReadOctetsUntilTerminator.nextPosition terminator escape input pos =
      some next → pos < next
  readEnds : ∀ ctx, ∃ result,
    ReadOctetsUntilTerminator.handleRead terminator (some escape) ctx input =
      .ok result

/-- The loops end unless a literal is empty and there is anything to search. -/
theorem loopsEnd_iff (escape : EscapeInfo) (terminator value input : Octets) :
    escape.LoopsEnd terminator value input ↔
      (escape.character = [] → value = []) ∧
        (escape.sequence = [] → input = []) := by
  constructor
  · intro h
    constructor
    · intro hnil
      by_contra hne
      obtain ⟨escaped, hwrite⟩ := h.writeEnds
      rw [WriteOctetsWithEscape.applyEscapeReplacement,
        WriteOctetsWithEscape.replaceFrom_empty_character hnil hne] at hwrite
      cases hwrite
    · intro hnil
      by_contra hne
      obtain ⟨result, hread⟩ := h.readEnds {}
      rw [ReadOctetsUntilTerminator.handleRead,
        ReadOctetsUntilTerminator.scan_empty_sequence hnil hne] at hread
      cases hread
  · rintro ⟨hcharacter, hsequence⟩
    have hwrite : ∀ pos next,
        WriteOctetsWithEscape.nextPosition escape value pos = some next →
          pos < next := by
      intro pos next hnext
      by_cases hnil : escape.character = []
      · have hpos := WriteOctetsWithEscape.lt_length_of_nextPosition hnext
        rw [hcharacter hnil] at hpos
        exact absurd hpos (Nat.not_lt_zero pos)
      · exact WriteOctetsWithEscape.lt_of_nextPosition hnil hnext
    have hread : ∀ pos next,
        ReadOctetsUntilTerminator.nextPosition terminator escape input pos =
          some next → pos < next := by
      intro pos next hnext
      by_cases hnil : escape.sequence = []
      · have hpos :=
          (ReadOctetsUntilTerminator.nextPosition_eq_some_iff.mp hnext).1
        rw [hsequence hnil] at hpos
        exact absurd hpos (Nat.not_lt_zero pos)
      · exact ReadOctetsUntilTerminator.lt_of_nextPosition hnil hnext
    refine ⟨hwrite, ?_, hread, fun ctx => ?_⟩
    · exact @WriteOctetsWithEscape.replaceFrom_of_advances escape value 0
        hwrite _ (Nat.lt_succ_self value.length) []
    · exact @ReadOctetsUntilTerminator.scan_of_advances terminator escape
        input 0 hread _ (Nat.lt_succ_self input.length) ctx

end EscapeInfo

/-- `tokens<escape=replace<"", "">> { x } terminator { "\n" }`. -/
def emptyEscapeParts : List Grammar.MessagePart :=
  [.tokenSequence [⟨.escape, .escapeReplacement ⟨[], []⟩⟩]
    [.identifierReference (.mk "x" none)], .terminator [10]]

theorem emptyEscapeParts_accepted :
    ∀ part ∈ emptyEscapeParts, part.Accepted := by
  intro part hpart
  rcases List.mem_pair.mp hpart with rfl | rfl
  · exact .tokenSequence _ (List.cons_ne_nil _ _)
  · exact .terminator _

theorem emptyEscapeParts_tree :
    Grammar.messageSequenceTree emptyEscapeParts =
      [.tokenSequence ⟨[.identifierReference (.mk "x" none)], none,
        some ⟨[], []⟩⟩, .terminator [10]] :=
  rfl

theorem emptyEscapeParts_readActions :
    PartsToReadActions.partsToReadActions
      (Grammar.messageSequenceTree emptyEscapeParts) =
    some [.readOctetsUntilTerminator [10] (.mk "x" none)
      (some ⟨[], []⟩)] := by
  simp [emptyEscapeParts_tree, PartsToReadActions.partsToReadActions,
    PartsToReadActions.tokenSequence,
    PartsToReadActions.individualTokenActions, Action.applyEscape]

theorem emptyEscapeParts_writeActions :
    PartsToWriteActions.partsToWriteActions
      (Grammar.messageSequenceTree emptyEscapeParts) =
    some [.writeFromIdentifier (.mk "x" none) (some ⟨[], []⟩),
      .writeStaticOctets [10]] := by
  simp [emptyEscapeParts_tree, PartsToWriteActions.partsToWriteActions,
    PartsToWriteActions.tokenSequence,
    PartsToWriteActions.individualTokenAction, Action.applyEscape,
    TokenSequence.embeddedTerminator]

/-- A transition of the agent reads a field up to the terminator with the
escape option. -/
def Agent.ReadsWithEscape (agent : Agent) (terminator : Octets)
    (escape : EscapeInfo) : Prop :=
  ∃ entry ∈ agent.states, ∃ transition ∈ entry.2.transitions,
    ∃ data actions identifier,
      transition.2.1 = .readTransition data actions ∧
        .readOctetsUntilTerminator terminator identifier (some escape) ∈
          actions

/-- A protocol with empty literals is accepted, and its loops do not end. -/
theorem empty_literals_do_not_end :
    ¬ ∀ tokens description protocol, parse tokens = some description →
      Analyze.analyze description = some protocol →
        ∀ terminator escape,
          protocol.server.ReadsWithEscape terminator escape →
            ∀ value input, escape.LoopsEnd terminator value input := by
  intro h
  have hparse := Grammar.parse_ofAttributes [109] "Open" "Closed" "Client"
    (List.cons_ne_nil ("x", .mk "str" []) [])
    (List.cons_ne_nil _ _) emptyEscapeParts_accepted
  have hreads : Agent.ReadsWithEscape ⟨[("Open", ⟨[([109],
      (.readTransition [("x", .mk (.mk "str" none) [])]
        [.readOctetsUntilTerminator [10] (.mk "x" none) (some ⟨[], []⟩)],
        "Closed"))]⟩), ("Closed", {})]⟩ [10] ⟨[], []⟩ :=
    ⟨_, List.mem_cons_self, _, List.mem_cons_self, _, _, _, rfl,
      List.mem_cons_self⟩
  obtain ⟨escaped, hwrite⟩ := (h _ _ _ hparse
    (analyze_singleton emptyEscapeParts_readActions
      emptyEscapeParts_writeActions) [10] ⟨[], []⟩ hreads [97] []).writeEnds
  cases hwrite

end NetworkProtocolDsl
