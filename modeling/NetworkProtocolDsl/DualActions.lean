/-
Reading and writing the same message.

Where both translations accept the parts of a message, the write actions are
the read actions turned around: a static piece is written as it is, a field is
written and then its terminator.
-/
import NetworkProtocolDsl.PartsToActions

namespace NetworkProtocolDsl

open PartsToReadActions PartsToWriteActions

namespace Action

mutual

/-- The actions that write what this action reads. -/
def dual : Action → List Action
  | .readStaticOctets octets => [.writeStaticOctets octets]
  | .readOctetsUntilTerminator terminator identifier escape =>
      [.writeFromIdentifier identifier escape, .writeStaticOctets terminator]
  | .loop loopVariable collection terminator actions =>
      [.loop loopVariable collection terminator (duals actions)]
  | .writeFromIdentifier identifier escape =>
      [.writeFromIdentifier identifier escape]
  | .writeStaticOctets octets => [.writeStaticOctets octets]

def duals : List Action → List Action
  | [] => []
  | action :: actions => dual action ++ duals actions

end

theorem duals_append (left right : List Action) :
    duals (left ++ right) = duals left ++ duals right := by
  induction left with
  | nil => rfl
  | cons action left ih =>
      rw [List.cons_append, duals, duals, ih, List.append_assoc]

end Action

open NetworkProtocolDsl.Action

theorem individualTokenActions_duals (escape : Option EscapeInfo)
    {tokens : List TokenPart} {actions : List Action}
    (h : individualTokenActions tokens = some actions) :
    duals (actions.map (applyEscape escape)) =
      tokens.map fun token =>
        (individualTokenAction token).applyEscape escape := by
  induction tokens using individualTokenActions.induct generalizing actions with
  | case1 =>
      obtain rfl := Option.some.inj h
      rfl
  | case2 value rest ih =>
      rw [individualTokenActions] at h
      obtain ⟨others, hothers, rfl⟩ := Option.map_eq_some_iff.mp h
      rw [List.map_cons, List.map_cons, duals, ih hothers]
      rfl
  | case3 identifier value rest ih =>
      rw [individualTokenActions] at h
      obtain ⟨others, hothers, rfl⟩ := Option.map_eq_some_iff.mp h
      rw [List.map_cons, List.map_cons, List.map_cons, duals, ih hothers]
      rfl
  | case4 identifier rest hnot =>
      rw [individualTokenActions] at h
      · contradiction
      · exact hnot

theorem tokenSequence_duals {escape : Option EscapeInfo}
    {tokens : List TokenPart} {actions : List Action}
    (h : PartsToReadActions.tokenSequence tokens escape = some actions) :
    tokens ≠ [] ∧ duals actions = tokens.map fun token =>
      (individualTokenAction token).applyEscape escape := by
  unfold PartsToReadActions.tokenSequence at h
  split at h
  · contradiction
  · rename_i hne
    obtain ⟨actions', hactions, rfl⟩ := Option.map_eq_some_iff.mp h
    refine ⟨fun hnil => hne (by rw [hnil]; rfl), ?_⟩
    exact individualTokenActions_duals escape hactions

theorem writeTokenSequence_eq {escape : Option EscapeInfo}
    {tokens : List TokenPart} {actions : List Action}
    (h : PartsToWriteActions.tokenSequence tokens escape = some actions) :
    actions = tokens.map fun token =>
      (individualTokenAction token).applyEscape escape := by
  unfold PartsToWriteActions.tokenSequence at h
  split at h
  · contradiction
  · exact (Option.some.inj h).symm

/-- The write actions of a message are the duals of its read actions. -/
theorem partsToWriteActions_eq_duals {parts : MessageSequence}
    {readActions writeActions : List Action}
    (hread : partsToReadActions parts = some readActions)
    (hwrite : partsToWriteActions parts = some writeActions) :
    writeActions = duals readActions := by
  match parts with
  | [] =>
      rw [partsToReadActions] at hread
      rw [partsToWriteActions] at hwrite
      obtain rfl := Option.some.inj hread
      exact (Option.some.inj hwrite).symm
  | [.tokenSequence sequence] =>
      rw [partsToReadActions] at hread
      rw [partsToWriteActions] at hwrite
      obtain ⟨actions, hactions, hwrite⟩ := Option.bind_eq_some_iff.mp hwrite
      rw [partsToWriteActions] at hwrite
      obtain rfl := Option.some.inj hwrite
      rw [(tokenSequence_duals hread).2, writeTokenSequence_eq hactions,
        List.append_nil]
  | .tokenSequence sequence :: .terminator value :: rest =>
      rw [partsToReadActions] at hread
      rw [partsToWriteActions] at hwrite
      split at hread
      · contradiction
      · rename_i hterminator
        obtain ⟨actions, hactions, hread⟩ := Option.bind_eq_some_iff.mp hread
        obtain ⟨others, hothers, hread⟩ := Option.bind_eq_some_iff.mp hread
        obtain rfl := Option.some.inj hread
        obtain ⟨actions', hactions', hwrite⟩ :=
          Option.bind_eq_some_iff.mp hwrite
        obtain ⟨tail, htail, hwrite⟩ := Option.bind_eq_some_iff.mp hwrite
        obtain rfl := Option.some.inj hwrite
        rw [partsToWriteActions] at htail
        obtain ⟨others', hothers', htail⟩ := Option.bind_eq_some_iff.mp htail
        obtain rfl := Option.some.inj htail
        rw [duals_append, (tokenSequence_duals hactions).2,
          writeTokenSequence_eq hactions',
          partsToWriteActions_eq_duals hothers hothers',
          TokenSequence.embeddedTerminator, hterminator, List.append_nil,
          List.map_append, List.append_assoc]
        rfl
  | .tokenSequence sequence :: .tokenSequence _ :: rest
  | .tokenSequence sequence :: .messageForLoop .. :: rest =>
      simp [partsToReadActions] at hread
  | .messageForLoop loopVariable collection block _ :: .terminator value ::
      rest =>
      rw [partsToReadActions] at hread
      rw [partsToWriteActions] at hwrite
      obtain ⟨actions, hactions, hread⟩ := Option.bind_eq_some_iff.mp hread
      obtain ⟨others, hothers, hread⟩ := Option.bind_eq_some_iff.mp hread
      obtain rfl := Option.some.inj hread
      obtain ⟨actions', hactions', hwrite⟩ := Option.bind_eq_some_iff.mp hwrite
      obtain ⟨others', hothers', hwrite⟩ := Option.bind_eq_some_iff.mp hwrite
      obtain rfl := Option.some.inj hwrite
      rw [duals, dual, partsToWriteActions_eq_duals hactions hactions',
        partsToWriteActions_eq_duals hothers hothers']
      rfl
  | [.messageForLoop ..]
  | .messageForLoop .. :: .tokenSequence _ :: _
  | .messageForLoop .. :: .messageForLoop .. :: _
  | .terminator _ :: _ => simp [partsToReadActions] at hread

end NetworkProtocolDsl
