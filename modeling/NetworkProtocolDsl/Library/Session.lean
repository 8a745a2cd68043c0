/-
Two peers that talk to each other over queues.

A peer goes from place to place by sending and receiving messages; what one of
them sends the other finds in its queue, in order.  Where one may send a
message the other can receive it, and nobody both sends and receives in one
place.  Then the two go along one conversation, in which one is ahead of the
other by what is in the queue.
-/
import Mathlib.Data.List.Basic
import Mathlib.Logic.Function.Basic
import Mathlib.Logic.Relation

namespace Session

universe u v

inductive Side where
  | first
  | second
  deriving DecidableEq, Repr

namespace Side

def other : Side → Side
  | first => second
  | second => first

@[simp] theorem other_other (side : Side) : side.other.other = side := by
  cases side <;> rfl

@[simp] theorem other_ne (side : Side) : side.other ≠ side := by
  cases side <;> decide

@[simp] theorem ne_other (side : Side) : side ≠ side.other :=
  side.other_ne.symm

theorem eq_or_eq_other (side side' : Side) :
    side = side' ∨ side = side'.other := by
  cases side <;> cases side' <;> decide

end Side

/-- What a peer may send and receive in a place, and where it goes with it. -/
structure Dialogue (κ : Type u) (μ : Type v) where
  sends : Side → κ → μ → κ → Prop
  receives : Side → κ → μ → κ → Prop
  mirrored : ∀ {side here message there}, sends side here message there →
    receives side.other here message there
  functional : ∀ {side here message there there'},
    receives side here message there → receives side here message there' →
      there = there'
  exclusive : ∀ {side here message message' there there'},
    sends side here message there → ¬ receives side here message' there'

/-- Where the peers are and what is on its way to each of them; `view` is what
a peer has sent and received, in its order. -/
structure Config (κ : Type u) (μ : Type v) where
  place : Side → κ
  inbox : Side → List μ
  view : Side → List (Side × μ)

variable {κ : Type u} {μ : Type v}

namespace Config

def start (here : κ) : Config κ μ :=
  ⟨fun _ => here, fun _ => [], fun _ => []⟩

def send (c : Config κ μ) (side : Side) (message : μ) (there : κ) :
    Config κ μ where
  place := Function.update c.place side there
  inbox := Function.update c.inbox side.other
    (c.inbox side.other ++ [message])
  view := Function.update c.view side (c.view side ++ [(side, message)])

def receive (c : Config κ μ) (side : Side) (message : μ) (rest : List μ)
    (there : κ) : Config κ μ where
  place := Function.update c.place side there
  inbox := Function.update c.inbox side rest
  view := Function.update c.view side (c.view side ++ [(side.other, message)])

section Fields

variable (c : Config κ μ) (side : Side) (message : μ) (rest : List μ)
  (there : κ)

@[simp] theorem send_place_self :
    (c.send side message there).place side = there :=
  Function.update_self ..

@[simp] theorem send_place_other :
    (c.send side message there).place side.other = c.place side.other :=
  Function.update_of_ne side.other_ne ..

@[simp] theorem send_inbox_self :
    (c.send side message there).inbox side = c.inbox side :=
  Function.update_of_ne side.ne_other ..

@[simp] theorem send_inbox_other :
    (c.send side message there).inbox side.other =
      c.inbox side.other ++ [message] :=
  Function.update_self ..

@[simp] theorem send_view_self :
    (c.send side message there).view side =
      c.view side ++ [(side, message)] :=
  Function.update_self ..

@[simp] theorem send_view_other :
    (c.send side message there).view side.other = c.view side.other :=
  Function.update_of_ne side.other_ne ..

@[simp] theorem receive_place_self :
    (c.receive side message rest there).place side = there :=
  Function.update_self ..

@[simp] theorem receive_place_other :
    (c.receive side message rest there).place side.other =
      c.place side.other :=
  Function.update_of_ne side.other_ne ..

@[simp] theorem receive_inbox_self :
    (c.receive side message rest there).inbox side = rest :=
  Function.update_self ..

@[simp] theorem receive_inbox_other :
    (c.receive side message rest there).inbox side.other =
      c.inbox side.other :=
  Function.update_of_ne side.other_ne ..

@[simp] theorem receive_view_self :
    (c.receive side message rest there).view side =
      c.view side ++ [(side.other, message)] :=
  Function.update_self ..

@[simp] theorem receive_view_other :
    (c.receive side message rest there).view side.other =
      c.view side.other :=
  Function.update_of_ne side.other_ne ..

end Fields

end Config

namespace Dialogue

variable (d : Dialogue κ μ)

/-- A peer sends what it may send, or receives the oldest message of its queue.
-/
inductive Step : Config κ μ → Config κ μ → Prop where
  | send {c : Config κ μ} {side : Side} {message : μ} {there : κ} :
      d.sends side (c.place side) message there →
      Step c (c.send side message there)
  | receive {c : Config κ μ} {side : Side} {message : μ} {rest : List μ}
      {there : κ} :
      c.inbox side = message :: rest →
      d.receives side (c.place side) message there →
      Step c (c.receive side message rest there)

/-- The steps from a common place. -/
def Reachable (here : κ) : Config κ μ → Prop :=
  Relation.ReflTransGen d.Step (Config.start here)

/-- A conversation without queues: every message is received as it is sent. -/
inductive Talk : κ → List (Side × μ) → κ → Prop where
  | nil (here : κ) : Talk here [] here
  | cons {side : Side} {message : μ} {here there last : κ}
      {talk : List (Side × μ)} :
      d.sends side here message there → Talk there talk last →
      Talk here ((side, message) :: talk) last

variable {d} {here middle there last : κ} {side : Side} {message : μ}
  {talk : List (Side × μ)}

namespace Talk

theorem append {talk' : List (Side × μ)} (h : d.Talk here talk middle)
    (h' : d.Talk middle talk' last) : d.Talk here (talk ++ talk') last := by
  induction h with
  | nil => exact h'
  | cons hsends _ ih => exact .cons hsends (ih h')

theorem concat (h : d.Talk here talk middle)
    (hsends : d.sends side middle message last) :
    d.Talk here (talk ++ [(side, message)]) last :=
  h.append (.cons hsends (.nil last))

theorem cons_inv (h : d.Talk here ((side, message) :: talk) last) :
    ∃ there, d.sends side here message there ∧ d.Talk there talk last := by
  cases h with
  | cons hsends hrest => exact ⟨_, hsends, hrest⟩

/-- Everything that is said is sent. -/
theorem exists_sends (h : d.Talk here talk last)
    (hmem : (side, message) ∈ talk) :
    ∃ here there, d.sends side here message there := by
  induction h with
  | nil => exact absurd hmem List.not_mem_nil
  | cons hsends _ ih =>
      rcases List.mem_cons.mp hmem with heq | hrest
      · obtain ⟨rfl, rfl⟩ := Prod.mk.inj heq
        exact ⟨_, _, hsends⟩
      · exact ih hrest

theorem eq_of_nil (h : d.Talk here [] last) : here = last := by
  cases h
  rfl

end Talk

/-- Nobody may send where the other one may. -/
theorem not_sends_other (hsends : d.sends side here message there)
    {message' : μ} {there' : κ} :
    ¬ d.sends side.other here message' there' := by
  intro hother
  have hreceives := d.mirrored hother
  rw [Side.other_other] at hreceives
  exact d.exclusive hsends hreceives

/-- What is sent in a place is received only where it leads to. -/
theorem target_eq (hsends : d.sends side here message there) {there' : κ}
    (hreceives : d.receives side.other here message there') :
    there = there' :=
  d.functional (d.mirrored hsends) hreceives

variable (d)

/-- One peer is ahead: nothing is on its way to it, and what is on its way to
the other one leads there. -/
structure LedBy (start : κ) (c : Config κ μ) (leader : Side) : Prop where
  quiet : c.inbox leader = []
  pending : d.Talk (c.place leader.other)
    ((c.inbox leader.other).map (leader, ·)) (c.place leader)
  talk : d.Talk start (c.view leader.other) (c.place leader.other)
  view : c.view leader =
    c.view leader.other ++ (c.inbox leader.other).map (leader, ·)

/-- The peers go along one conversation. -/
def Agrees (start : κ) (c : Config κ μ) : Prop :=
  ∃ leader, d.LedBy start c leader

variable {d} {start : κ} {c c' : Config κ μ} {leader : Side}

namespace LedBy

/-- What the leader has seen is a conversation. -/
theorem talk_leader (h : d.LedBy start c leader) :
    d.Talk start (c.view leader) (c.place leader) := by
  rw [h.view]
  exact h.talk.append h.pending

/-- Where nothing is on its way either one may be taken for the leader. -/
theorem swap (h : d.LedBy start c leader)
    (hquiet : c.inbox leader.other = []) :
    d.LedBy start c leader.other := by
  have hpending := h.pending
  have hview := h.view
  rw [hquiet, List.map_nil] at hpending hview
  rw [List.append_nil] at hview
  have hplace := hpending.eq_of_nil
  have htalk := h.talk
  refine ⟨hquiet, ?_, ?_, ?_⟩
  · rw [Side.other_other, h.quiet, hplace]
    exact .nil _
  · rw [Side.other_other, hview, ← hplace]
    exact htalk
  · rw [Side.other_other, h.quiet, hview, List.map_nil, List.append_nil]

/-- While something is on its way to a peer it has nothing to send. -/
theorem not_sends (h : d.LedBy start c leader)
    (hpending : c.inbox leader.other ≠ []) :
    ¬ d.sends leader.other (c.place leader.other) message there := by
  intro hsends
  have htalk := h.pending
  cases hinbox : c.inbox leader.other with
  | nil => exact hpending hinbox
  | cons oldest rest =>
      rw [hinbox, List.map_cons] at htalk
      obtain ⟨_, hfirst, _⟩ := htalk.cons_inv
      exact not_sends_other hfirst hsends

theorem send (h : d.LedBy start c leader)
    (hsends : d.sends leader (c.place leader) message there) :
    d.LedBy start (c.send leader message there) leader where
  quiet := by rw [Config.send_inbox_self, h.quiet]
  pending := by
    rw [Config.send_place_other, Config.send_inbox_other,
      Config.send_place_self, List.map_append]
    exact h.pending.concat hsends
  talk := by
    rw [Config.send_view_other, Config.send_place_other]
    exact h.talk
  view := by
    rw [Config.send_view_self, Config.send_view_other,
      Config.send_inbox_other, List.map_append, h.view, List.append_assoc]
    rfl

theorem receive {rest : List μ} (h : d.LedBy start c leader)
    (hinbox : c.inbox leader.other = message :: rest)
    (hreceives : d.receives leader.other (c.place leader.other) message
      there) :
    d.LedBy start (c.receive leader.other message rest there) leader := by
  have htalk := h.pending
  rw [hinbox, List.map_cons] at htalk
  obtain ⟨target, hsends, hrest⟩ := htalk.cons_inv
  obtain rfl := target_eq hsends hreceives
  have hinbox' := Config.receive_inbox_other c leader.other message rest target
  have hplace' := Config.receive_place_other c leader.other message rest target
  have hview' := Config.receive_view_other c leader.other message rest target
  rw [Side.other_other] at hinbox' hplace' hview'
  refine ⟨by rw [hinbox', h.quiet], ?_, ?_, ?_⟩
  · rw [Config.receive_place_self, Config.receive_inbox_self, hplace']
    exact hrest
  · rw [Config.receive_view_self, Config.receive_place_self,
      Side.other_other]
    exact h.talk.concat hsends
  · rw [hview', Config.receive_view_self, Config.receive_inbox_self,
      Side.other_other, h.view, hinbox, List.map_cons, List.append_assoc]
    rfl

end LedBy

theorem Agrees.step (h : d.Agrees start c) (hstep : d.Step c c') :
    d.Agrees start c' := by
  obtain ⟨leader, hled⟩ := h
  cases hstep with
  | @send side message there hsends =>
      rcases side.eq_or_eq_other leader with rfl | rfl
      · exact ⟨side, hled.send hsends⟩
      · by_cases hpending : c.inbox leader.other = []
        · exact ⟨leader.other, (hled.swap hpending).send hsends⟩
        · exact absurd hsends (hled.not_sends hpending)
  | @receive side message rest there hinbox hreceives =>
      rcases side.eq_or_eq_other leader with rfl | rfl
      · rw [hled.quiet] at hinbox
        contradiction
      · exact ⟨leader, hled.receive hinbox hreceives⟩

/-- In every configuration that is reached the peers go along one
conversation. -/
theorem Reachable.agrees (h : d.Reachable start c) : d.Agrees start c := by
  induction h with
  | refl =>
      exact ⟨.first, rfl, .nil start, .nil start, rfl⟩
  | tail _ hstep ih => exact ih.step hstep

section Reached

variable (h : d.Reachable start c)

include h

/-- The oldest message on its way to a peer is one the other may send where the
peer is. -/
theorem Reachable.sent {rest : List μ}
    (hinbox : c.inbox side = message :: rest) :
    ∃ there, d.sends side.other (c.place side) message there := by
  obtain ⟨leader, hled⟩ := h.agrees
  rcases side.eq_or_eq_other leader with rfl | rfl
  · rw [hled.quiet] at hinbox
    contradiction
  · have htalk := hled.pending
    rw [hinbox, List.map_cons] at htalk
    obtain ⟨target, hsends, _⟩ := htalk.cons_inv
    rw [Side.other_other]
    exact ⟨target, hsends⟩

/-- The oldest message on its way to a peer is one it can receive, and the peer
has nothing to send. -/
theorem Reachable.receivable {rest : List μ}
    (hinbox : c.inbox side = message :: rest) :
    (∃ there, d.receives side (c.place side) message there) ∧
      ∀ message' there', ¬ d.sends side (c.place side) message' there' := by
  obtain ⟨there, hsends⟩ := h.sent hinbox
  have hreceives := d.mirrored hsends
  rw [Side.other_other] at hreceives
  exact ⟨⟨there, hreceives⟩, fun _ _ hother => d.exclusive hother hreceives⟩

/-- Messages never cross. -/
theorem Reachable.one_way : c.inbox .first = [] ∨ c.inbox .second = [] := by
  obtain ⟨leader, hled⟩ := h.agrees
  cases leader with
  | first => exact Or.inl hled.quiet
  | second => exact Or.inr hled.quiet

/-- Where nothing is on its way the peers are in one place and have seen one
conversation. -/
theorem Reachable.of_quiet (hquiet : ∀ side, c.inbox side = []) :
    c.place .first = c.place .second ∧ c.view .first = c.view .second := by
  obtain ⟨leader, hled⟩ := h.agrees
  have hpending := hled.pending
  have hview := hled.view
  rw [hquiet, List.map_nil] at hpending hview
  rw [List.append_nil] at hview
  have hplace := hpending.eq_of_nil
  cases leader with
  | first => exact ⟨hplace.symm, hview⟩
  | second => exact ⟨hplace, hview.symm⟩

/-- A configuration without a step: everything was received and no peer may
send. -/
theorem Reachable.stuck_iff :
    (∀ c', ¬ d.Step c c') ↔ (∀ side, c.inbox side = []) ∧
      ∀ side message there, ¬ d.sends side (c.place side) message there := by
  constructor
  · intro hstuck
    refine ⟨fun side => ?_, fun side message there hsends =>
      hstuck _ (.send hsends)⟩
    cases hinbox : c.inbox side with
    | nil => rfl
    | cons message rest =>
        obtain ⟨⟨there, hreceives⟩, _⟩ := h.receivable hinbox
        exact absurd (.receive hinbox hreceives) (hstuck _)
  · rintro ⟨hquiet, hsilent⟩ c' hstep
    cases hstep with
    | send hsends => exact hsilent _ _ _ hsends
    | receive hinbox _ =>
        rw [hquiet] at hinbox
        contradiction

end Reached

end Dialogue

end Session
