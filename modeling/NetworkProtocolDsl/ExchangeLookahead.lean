/-
What the lookahead of a peer decides on the bytes of a message.

The conditions of a state are those of the messages that leave it.  Where the
messages of a state start with different pieces, and each of them goes on after
its piece, the bytes that have arrived decide for the message that was sent, or
do not decide yet.
-/
import NetworkProtocolDsl.Exchange

namespace NetworkProtocolDsl

open Run RunnerState Generate OpTreeNode Analyze TransitionChoice
open TransitionLookahead PartsToReadActions
open NetworkProtocolDsl.Action
open Session (Side Dialogue Config)

namespace Action

/-- Something is on the wire for the action, whatever the fields are. -/
def OnWire : Action → Prop
  | .readStaticOctets octets => octets ≠ []
  | .readOctetsUntilTerminator terminator _ _ => terminator ≠ []
  | _ => False

/-- The message goes on after the piece it starts with. -/
def GoesOn : List Action → Prop
  | .readStaticOctets _ :: actions => ∃ action ∈ actions, action.OnWire
  | actions => ∃ action ∈ actions, action.OnWire

theorem encoding_ne_nil (values : IdentifierReference → Octets)
    {actions : List Action} {action : Action}
    (hmem : action ∈ actions) (hwire : action.OnWire) :
    encoding values actions ≠ [] := by
  induction actions with
  | nil => contradiction
  | cons first actions ih =>
      rcases List.mem_cons.mp hmem with rfl | hrest
      · cases action with
        | readStaticOctets octets =>
            intro hnil
            exact hwire (List.append_eq_nil_iff.mp hnil).1
        | readOctetsUntilTerminator terminator identifier escape =>
            intro hnil
            exact hwire (List.append_eq_nil_iff.mp
              (List.append_eq_nil_iff.mp hnil).1).2
        | writeFromIdentifier _ _ | writeStaticOctets _ | loop _ _ _ _ =>
            exact hwire.elim
      · cases first with
        | readStaticOctets octets | readOctetsUntilTerminator _ _ _ =>
            intro hnil
            exact ih hrest (List.append_eq_nil_iff.mp hnil).2
        | writeFromIdentifier _ _ | writeStaticOctets _ | loop _ _ _ _ =>
            exact ih hrest

/-- The condition of a message fits everything that starts with its encoding.
-/
theorem fits_encoding {getType : ExtractTypeClosure} {actions : List Action}
    (hplain : ∀ action ∈ actions, action.PlainString getType)
    (hgoes : GoesOn actions) {data : MessageData}
    {condition : TransitionCondition}
    (hcondition : getTransitionCondition (.readTransition data actions) =
      some condition) (values : IdentifierReference → Octets)
    (rest : Octets) :
    Fits (encoding values actions ++ rest) false condition := by
  cases actions with
  | nil => contradiction
  | cons action actions =>
      have hfirst := hplain action List.mem_cons_self
      cases action with
      | readStaticOctets octets =>
          obtain rfl := Option.some.inj hcondition
          obtain ⟨action, hmem, hwire⟩ := hgoes
          have hne := encoding_ne_nil values hmem hwire
          rw [encoding, List.append_assoc]
          refine ⟨List.prefix_append .., fun heq => hne ?_⟩
          have hnil := List.append_cancel_left
            ((List.append_nil octets).trans heq)
          exact (List.append_eq_nil_iff.mp hnil.symm).1
      | readOctetsUntilTerminator terminator identifier escape =>
          obtain rfl := Option.some.inj hcondition
          refine ⟨values identifier, encoding values actions ++ rest, ?_⟩
          simp only [encoding, List.append_assoc]
      | writeFromIdentifier _ _ | writeStaticOctets _ | loop _ _ _ _ =>
          exact hfirst.elim

end Action

/-- What the exchange asks of a protocol: its messages are static pieces and
strings, go on after the first piece, and differ in it where they leave the
same state. -/
structure ProtocolDescription.Plain (description : ProtocolDescription) :
    Prop where
  strings : ∀ name message reads,
    description.messages.lookup name = some message →
      partsToReadActions message.parts = some reads →
        (∀ action ∈ reads, action.PlainString (extractType message.data)) ∧
          GoesOn reads
  apart : ∀ name message name' message' reads reads',
    description.messages.lookup name = some message →
      description.messages.lookup name' = some message' → name ≠ name' →
      message.whenState.name = message'.whenState.name →
      message.thenState.name ≠ "Closed" →
      message'.thenState.name ≠ "Closed" →
      partsToReadActions message.parts = some reads →
      partsToReadActions message'.parts = some reads' →
        ∃ piece rest piece' rest', reads = .readStaticOctets piece :: rest ∧
          reads' = .readStaticOctets piece' :: rest' ∧
          ¬ piece <+: piece' ∧ ¬ piece' <+: piece

/-- A message on the wire: its name, its bytes, and its fields. -/
structure Sent where
  name : Octets
  bytes : Octets
  fields : List (String × Octets)

/-- The message leads from here to there; its bytes encode its fields, and none
of them contains its terminator. -/
def Sent.Leads (sent : Sent) (description : ProtocolDescription)
    (here there : String) : Prop :=
  ∃ message reads values, description.messages.lookup sent.name = some message ∧
    message.whenState.name = here ∧ message.thenState.name = there ∧
    partsToReadActions message.parts = some reads ∧ Terminated values reads ∧
    sent.bytes = encoding values reads ∧ sent.fields = fieldValues values reads

namespace Peers.LooksAhead

variable {description : ProtocolDescription} {peers : Peers description}
  {side : Side} {here there : String} {state : State}
  {conditions : List (TransitionCondition × Octets)}
  (h : peers.LooksAhead side here state conditions)

include h

/-- The conditions are those of the messages that leave the state. -/
theorem condition_cases {entry : TransitionCondition × Octets}
    (hentry : entry ∈ conditions) :
    ∃ message reads, description.messages.lookup entry.2 = some message ∧
      message.whenState.name = here ∧
      partsToReadActions message.parts = some reads ∧
      (message.thenState.name = "Closed" ∧ entry.1 = .eofCondition ∨
        message.thenState.name ≠ "Closed" ∧
          getTransitionCondition (.readTransition message.data reads) =
            some entry.1) := by
  have hnodup := eachOnce_analyzeAgent (peers.analyzedAgent side) here state
    h.found
  obtain ⟨transition, htransition, hname, hfound⟩ :=
    h.conditionsOf.exists_entry hentry
  obtain ⟨name, transition, target⟩ := transition
  obtain ⟨message, hmessage, hwhen, rfl, hanalyze⟩ :=
    (transition_iff peers h.found).mp
      (Assoc.lookup_of_mem hnodup htransition)
  rw [analyzeMessage, if_neg (h.reads name message hmessage hwhen)]
    at hanalyze
  obtain ⟨reads, hactions, rfl⟩ := Option.map_eq_some_iff.mp hanalyze
  rw [hname]
  refine ⟨message, reads, hmessage, hwhen, hactions, ?_⟩
  rw [readStateCondition] at hfound
  split at hfound
  · rename_i hclosed
    exact Or.inl ⟨hclosed, (Except.ok.inj hfound).symm⟩
  · rename_i hopen
    exact Or.inr ⟨hopen, orNullopt_eq_ok hfound⟩

theorem exists_condition {name : Octets} {message : Message}
    (hmessage : description.messages.lookup name = some message)
    (hwhen : message.whenState.name = here) :
    ∃ condition, (condition, name) ∈ conditions := by
  obtain ⟨transitions, htransitions, _⟩ :=
    analyzeAgent_eq_some (peers.analyzedAgent side)
  obtain ⟨transition, hanalyze⟩ := analyzeMessage_isSome htransitions
    (Assoc.mem_of_lookup hmessage)
  have hlookup := (transition_iff peers h.found).mpr
    ⟨message, hmessage, hwhen, rfl, hanalyze⟩
  exact h.conditionsOf.exists_condition (Assoc.mem_of_lookup hlookup)

variable (hplain : description.Plain)

include hplain

/-- As long as nothing has arrived the lookahead waits. -/
theorem patient : Patient conditions := by
  have hundecided : ∀ entry ∈ conditions,
      matchCondition { buffer := [] } entry.1 = (false, false) := by
    intro entry hentry
    obtain ⟨message, reads, hmessage, _, hactions, hcondition⟩ :=
      h.condition_cases hentry
    rcases hcondition with ⟨_, heof⟩ | ⟨_, hcondition⟩
    · rw [heof]
      rfl
    · obtain ⟨hstrings, _⟩ := hplain.strings _ message reads hmessage hactions
      cases reads with
      | nil => contradiction
      | cons action actions =>
          have hfirst := hstrings action List.mem_cons_self
          cases action with
          | readStaticOctets octets =>
              rw [← Option.some.inj hcondition]
              simp [matchCondition]
          | readOctetsUntilTerminator terminator identifier escape =>
              rw [← Option.some.inj hcondition, matchCondition,
                Occurrence.first_nil_of_ne hfirst.1]
          | writeFromIdentifier _ _ | writeStaticOctets _ | loop _ _ _ _ =>
              exact hfirst.elim
  rw [Patient, decides, apply_blocked_iff, readyToEvaluate,
    Bool.or_eq_false_iff]
  constructor
  · rw [List.any_eq_false]
    intro entry hentry
    rw [hundecided entry hentry]
    exact Bool.false_ne_true
  · cases conditions with
    | nil => exact absurd rfl h.nonempty
    | cons entry rest =>
        rw [List.all_cons, hundecided entry List.mem_cons_self,
          Bool.false_and]

variable {sent : Sent} {tail : Octets}
  (hsent : sent.Leads description here there) (hthere : there ≠ "Closed")

include hsent hthere

/-- Of all conditions only that of the message fits its bytes. -/
theorem name_of_fits (tail : Octets) {entry : TransitionCondition × Octets}
    (hentry : entry ∈ conditions)
    (hfits : Fits (sent.bytes ++ tail) false entry.1) :
    entry.2 = sent.name := by
  by_contra hne
  obtain ⟨message', reads', hmessage', hwhen', hactions', hcondition⟩ :=
    h.condition_cases hentry
  obtain ⟨message, reads, values, hmessage, hwhen, rfl, hactions, _, hbytes, _⟩
    := hsent
  rcases hcondition with ⟨_, heof⟩ | ⟨hopen, hcondition⟩
  · rw [heof] at hfits
    exact absurd hfits.2 Bool.false_ne_true
  · obtain ⟨piece, rest, piece', rest', rfl, rfl, hnot, hnot'⟩ :=
      hplain.apart _ message _ message' reads reads' hmessage hmessage'
        (Ne.symm hne) (hwhen.trans hwhen'.symm) hthere hopen hactions hactions'
    have hstatic : entry.1 = .static piece' :=
      (Option.some.inj hcondition).symm
    rw [hstatic] at hfits
    have hpiece : piece <+: sent.bytes ++ tail := by
      rw [hbytes, encoding, List.append_assoc]
      exact List.prefix_append ..
    rcases List.prefix_or_prefix_of_prefix hpiece hfits.1 with hle | hle
    · exact hnot hle
    · exact hnot' hle

/-- The condition of the message is there, and fits its bytes. -/
theorem exists_fits (tail : Octets) :
    ∃ condition, (condition, sent.name) ∈ conditions ∧
      Fits (sent.bytes ++ tail) false condition := by
  obtain ⟨message, reads, values, hmessage, hwhen, rfl, hactions, _, hbytes, _⟩
    := hsent
  obtain ⟨condition, hmem⟩ := h.exists_condition hmessage hwhen
  refine ⟨condition, hmem, ?_⟩
  obtain ⟨found, reads', hfound, _, hactions', hcondition⟩ :=
    h.condition_cases hmem
  obtain rfl := Option.some.inj (hmessage.symm.trans hfound)
  obtain rfl := Option.some.inj (hactions.symm.trans hactions')
  obtain ⟨hstrings, hgoes⟩ :=
    hplain.strings _ message reads hmessage hactions
  rcases hcondition with ⟨hclosed, _⟩ | ⟨_, hcondition⟩
  · exact absurd hclosed hthere
  · rw [hbytes]
    exact fits_encoding hstrings hgoes hcondition values tail

/-- What has arrived of the message decides for it, or does not decide yet;
all of it decides. -/
theorem decides_sent {arrived later : Octets}
    (hsplit : sent.bytes ++ tail = arrived ++ later) :
    decides conditions arrived = .value (.octets sent.name) ∨
      decides conditions arrived = .blocked .waitingForRead ∧ later ≠ [] := by
  let seen : InputOutputOperationContext := { buffer := arrived }
  let all : InputOutputOperationContext := { buffer := sent.bytes ++ tail }
  have hlater : Later seen all :=
    ⟨⟨later, hsplit.symm⟩, fun h => h, fun h => by contradiction⟩
  obtain ⟨condition, hmem, hfits⟩ := h.exists_fits hplain hsent hthere tail
  rcases apply_cases conditions seen with
    ⟨before, found, target, after, hentries, _, hfound, hvalue⟩ |
      ⟨hnone, ⟨hout, _⟩ | ⟨_, hwaits⟩⟩
  · have hentry : (found, target) ∈ conditions := by
      rw [hentries]
      exact List.mem_append_right before List.mem_cons_self
    have hname := h.name_of_fits hplain hsent hthere tail hentry
      (hlater.fits hfound)
    left
    rw [← hname]
    exact hvalue
  · have hruled := hlater.ruledOut (hout _ hmem)
    have hvalid := (matchCondition_fits all condition).mpr hfits
    rw [hruled] at hvalid
    contradiction
  · refine Or.inr ⟨hwaits, ?_⟩
    rintro rfl
    rw [List.append_nil] at hsplit
    rw [hsplit] at hfits
    exact hnone _ hmem hfits

end Peers.LooksAhead

end NetworkProtocolDsl
