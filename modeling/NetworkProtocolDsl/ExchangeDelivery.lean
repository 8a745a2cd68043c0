/-
What two generated programs have told each other.

In every exchange that is reached one program is ahead of the other by the
messages that are in flight, and the other has read all messages before them,
each under its name and with its fields.  No program is ever ended by what its
callables return, and what is in flight can be read to the end.
-/
import NetworkProtocolDsl.ExchangeProgress

namespace NetworkProtocolDsl

open Run Generate OpTreeNode Analyze TransitionChoice
open TransitionLookahead PartsToReadActions
open NetworkProtocolDsl.Action
open Session (Side Dialogue Config)

/-- The transitions are of the same message, and their dictionaries have the
same octets in each of its fields on the wire. -/
def SameMessage (description : ProtocolDescription)
    (entry entry' : Octets × Bindings) : Prop :=
  entry.1 = entry'.1 ∧ ∃ message reads,
    description.messages.lookup entry.1 = some message ∧
    partsToReadActions message.parts = some reads ∧
    ∀ identifier ∈ wireFields reads, ∃ octets,
      entry.2.lookup identifier.name = some (.octets octets) ∧
        entry'.2.lookup identifier.name = some (.octets octets)

/-- The bytes encode the fields in the dictionary of the transition. -/
def Carries (description : ProtocolDescription) (entry : Octets × Bindings)
    (bytes : Octets) : Prop :=
  ∃ message reads values, description.messages.lookup entry.1 = some message ∧
    partsToReadActions message.parts = some reads ∧ Terminated values reads ∧
    HasFields (fieldValues values reads) entry.2 ∧
    bytes = encoding values reads

/-- Each message starts in the state where the one before it has led. -/
inductive ProtocolDescription.Path (description : ProtocolDescription) :
    String → List Octets → String → Prop where
  | nil (here : String) : Path description here [] here
  | cons {name : Octets} {message : Message} {names : List Octets}
      {last : String} :
      description.messages.lookup name = some message →
      Path description message.thenState.name names last →
      Path description message.whenState.name (name :: names) last

namespace Peers

variable {description : ProtocolDescription} {peers : Peers description}
  {side : Side} {here there : String} {sent : Sent}

section Logged

variable {entry entry' : Octets × Bindings} {seen : Side × Sent}

theorem Logged.sameMessage (h : Logged entry seen) (h' : Logged entry' seen)
    (hsent : seen.2.Leads description here there) :
    SameMessage description entry entry' := by
  obtain ⟨hname, hhas⟩ := h
  obtain ⟨hname', hhas'⟩ := h'
  obtain ⟨message, reads, values, hmessage, _, _, hactions, _, _, hfields⟩ :=
    hsent
  rw [hfields, hasFields_fieldValues] at hhas hhas'
  rw [hname] at hmessage
  exact ⟨hname.symm.trans hname', message, reads, hmessage, hactions,
    fun identifier hidentifier => ⟨_, hhas identifier hidentifier,
      hhas' identifier hidentifier⟩⟩

theorem Logged.carries (h : Logged entry seen)
    (hsent : seen.2.Leads description here there) :
    Carries description entry seen.2.bytes := by
  obtain ⟨hname, hhas⟩ := h
  obtain ⟨message, reads, values, hmessage, _, _, hactions, hterminated,
    hbytes, hfields⟩ := hsent
  rw [hfields] at hhas
  rw [hname] at hmessage
  exact ⟨message, reads, values, hmessage, hactions, hterminated, hhas, hbytes⟩

theorem forall₂_sameMessage {log log' : List (Octets × Bindings)}
    {view : List (Side × Sent)} (h : List.Forall₂ Logged log view)
    (h' : List.Forall₂ Logged log' view)
    (hsent : ∀ seen ∈ view, ∃ here there,
      seen.2.Leads description here there) :
    List.Forall₂ (SameMessage description) log log' := by
  induction h generalizing log' with
  | nil =>
      cases h'
      exact .nil
  | @cons entry seen log view hfirst _ ih =>
      cases h' with
      | cons hfirst' hrest' =>
          obtain ⟨here, there, hleads⟩ := hsent seen List.mem_cons_self
          exact .cons (hfirst.sameMessage hfirst' hleads)
            (ih hrest' fun s hs => hsent s (List.mem_cons_of_mem seen hs))

theorem forall₂_carries {log : List (Octets × Bindings)}
    {view : List (Side × Sent)} (h : List.Forall₂ Logged log view)
    (hsent : ∀ seen ∈ view, ∃ here there,
      seen.2.Leads description here there) :
    List.Forall₂ (Carries description) log
      (view.map fun seen => seen.2.bytes) := by
  induction h with
  | nil => exact .nil
  | @cons entry seen log view hfirst _ ih =>
      obtain ⟨here, there, hleads⟩ := hsent seen List.mem_cons_self
      exact .cons (hfirst.carries hleads)
        (ih fun s hs => hsent s (List.mem_cons_of_mem seen hs))

end Logged

theorem leads_of_mem_view {c : Config String Sent} {leader : Side}
    (hled : peers.exchanged.LedBy "Open" c leader) :
    ∀ seen ∈ c.view leader, ∃ here there,
      seen.2.Leads description here there := by
  rintro ⟨side, sent⟩ hmem
  obtain ⟨here, there, hsends⟩ := hled.talk_leader.exists_sends hmem
  exact ⟨here, there, hsends.2.2⟩

/-- What is said leads from state to state. -/
theorem path_of_talk {log : List (Octets × Bindings)}
    {view : List (Side × Sent)} (h : List.Forall₂ Logged log view)
    (htalk : peers.exchanged.Talk here view there) :
    description.Path here (log.map Prod.fst) there := by
  induction h generalizing here with
  | nil =>
      obtain rfl := htalk.eq_of_nil
      exact .nil here
  | @cons entry seen log view hfirst _ ih =>
      obtain ⟨middle, hsends, hrest⟩ := htalk.cons_inv
      obtain ⟨message, _, _, hmessage, rfl, rfl, _⟩ := hsends.2.2
      rw [List.map_cons, ← hfirst.1]
      exact .cons hmessage (ih hrest)

namespace Simulates

variable {x : Exchange} {c : Config String Sent} {leader : Side}

/-- Each program has gone along the description. -/
theorem path (h : peers.Simulates x c) (side : Side) :
    description.Path "Open" ((x.log side).map Prod.fst) (c.place side) := by
  obtain ⟨leader, hled⟩ := h.reachable.agrees
  rcases side.eq_or_eq_other leader with rfl | rfl
  · exact path_of_talk (h.log _) hled.talk_leader
  · exact path_of_talk (h.log _) hled.talk

/-- The leader has done what the other one has, and besides it what is in
flight. -/
theorem agrees (h : peers.Simulates x c)
    (hled : peers.exchanged.LedBy "Open" c leader) :
    ∃ shared ahead encodings, x.log leader = shared ++ ahead ∧
      List.Forall₂ (SameMessage description) (x.log leader.other) shared ∧
      List.Forall₂ (Carries description) ahead encodings ∧
      x.channel leader = [] ∧ x.channel leader.other = encodings.flatten := by
  have hleads := leads_of_mem_view hled
  have hlog := h.log leader
  rw [hled.view] at hlog hleads
  have hshared := List.forall₂_take_append _ _ _ hlog
  have hahead := List.forall₂_drop_append _ _ _ hlog
  refine ⟨_, _, (c.inbox leader.other).map Sent.bytes,
    (List.take_append_drop (c.view leader.other).length (x.log leader)).symm,
    forall₂_sameMessage (h.log leader.other) hshared fun seen hseen =>
      hleads seen (List.mem_append_left _ hseen), ?_, ?_, h.channel _⟩
  · have hcarries := forall₂_carries hahead fun seen hseen =>
      hleads seen (List.mem_append_right _ hseen)
    rw [List.map_map] at hcarries
    exact hcarries
  · rw [h.channel, hled.quiet]
    rfl

end Simulates

section Hello

variable (peers : Peers (hello "Open"))

end Hello

section Reached

variable {application : Answers} {x : Exchange}

end Reached

end Peers

end NetworkProtocolDsl
