/-
What two generated programs can do next.

A message that is on its way can be received: once all of it has arrived the
lookahead names it and its transition takes it.  A message that an application
has answered can be written.  A machine that can do neither waits for an
answer.
-/
import NetworkProtocolDsl.ExchangeSession

namespace NetworkProtocolDsl

open Run Generate OpTreeNode TransitionChoice TransitionLookahead
open Session (Side Config)

namespace Peers

variable {description : ProtocolDescription} {peers : Peers description}
  {side : Side} {here there : String} {sent : Sent}

/-- What a machine waits for that was told to transfer the message, with the
dictionary it was told. -/
def Transfers (peers : Peers description) (side : Side) (here there : String)
    (sent : Sent) (members : Bindings) (ctx : ControlFlowOperationContext) :
    Prop :=
  ∃ ctx' mode source info target transition,
    (peers.machines side).lookup here = some info ∧
    info.transitions.lookup sent.name = some transition ∧
    (peers.machines side).lookup there = some target ∧ Calm members ∧
    ctx = StateMachineOperation.transitionContext ctx'
      ⟨mode, source, some (sent.name, transition), (there, target)⟩ transition
      members

namespace Simulates

variable {x : Exchange} {c : Config String Sent} {rest : List Sent}

/-- Where a message is on its way to a machine, the machine looks ahead or takes
the message. -/
theorem state_or_transfers (h : peers.Simulates x c)
    (hinbox : c.inbox side = sent :: rest) :
    ∃ there, peers.exchanged.sends side.other (c.place side) sent there ∧
      peers.exchanged.receives side (c.place side) sent there ∧
      ((∃ members, peers.Transfers side (c.place side) there sent members
        (x.context side)) ∨
      ∃ ctx processing info dictionary,
        processing.toState = (c.place side, info) ∧
        (peers.machines side).lookup (c.place side) = some info ∧
        Calm dictionary ∧ x.context side = StateMachineOperation.stateContext
          ctx processing (.dictionary dictionary)) := by
  obtain ⟨there, hsends⟩ := h.reachable.sent hinbox
  have hreceives := peers.exchanged.mirrored hsends
  rw [Side.other_other] at hreceives
  refine ⟨there, hsends, hreceives, ?_⟩
  have hposition := h.position side
  generalize x.context side = context at hposition ⊢
  cases hposition with
  | @state ctx processing info dictionary htostate hinfo hcalm =>
      exact Or.inr ⟨ctx, processing, info, dictionary, htostate, hinfo, hcalm,
        rfl⟩
  | transition hinfo htransition htarget hcalm hcase =>
      rcases hcase with ⟨hother, _⟩ | ⟨⟨rest', hfirst⟩, hother⟩
      · exact absurd hreceives (peers.exchanged.exclusive hother)
      · obtain ⟨rfl, rfl⟩ := List.cons.inj (hinbox.symm.trans hfirst)
        obtain rfl := peers.exchanged.functional hreceives hother
        exact Or.inl ⟨_, _, _, _, _, _, _, hinfo, htransition, htarget, hcalm,
          rfl⟩

/-- Once all of it has arrived the lookahead tells which message it is. -/
theorem looks (h : peers.Simulates x c) (hplain : description.Plain)
    (application : Answers)
    (hsends : peers.exchanged.sends side.other (c.place side) sent there)
    (hreceives : peers.exchanged.receives side (c.place side) sent there)
    (hinbox : c.inbox side = sent :: rest)
    {ctx : ControlFlowOperationContext} {processing : ProcessingInfo}
    {info : StateInfo} {dictionary : Bindings}
    (htostate : processing.toState = (c.place side, info))
    (hinfo : (peers.machines side).lookup (c.place side) = some info)
    (hcalm : Calm dictionary)
    (hcontext : x.context side = StateMachineOperation.stateContext ctx
      processing (.dictionary dictionary)) :
    ∃ x', Exchange.Step peers.machines application x x' ∧
      peers.Simulates x' c ∧ x'.log side.other = x.log side.other ∧
      peers.Transfers side (c.place side) there sent dictionary
        (x'.context side) := by
  obtain ⟨hrunning, transition, target, htransition, hthere, htarget⟩ :=
    exists_transition hinfo (Or.inr hreceives)
  rcases (info_cases hinfo hrunning).2 with
    ⟨_, hasks⟩ | ⟨state, conditions, hlooks, hlookahead⟩
  · obtain ⟨_, found, _, conditions, hfound, hlookahead, _⟩ := hreceives
    obtain rfl := Option.some.inj (hinfo.symm.trans hfound)
    rw [hasks] at hlookahead
    cases hlookahead
  · have hbytes : sent.bytes ++ (rest.map Sent.bytes).flatten =
        x.channel side ++ [] := by
      rw [h.channel, hinbox, List.append_nil]
      rfl
    have hdecides : decides conditions (x.channel side) =
        .value (.octets sent.name) := by
      rcases hlooks.decides_sent hplain hsends.2.2 hsends.1 hbytes with
        hdecides | ⟨_, hlater⟩
      · exact hdecides
      · exact absurd rfl hlater
    have hcallback : (x.context side).callable = some (.callable
        ⟨lookaheadCallback conditions, ["dictionary"], true⟩) := by
      rw [hcontext, ← hlookahead]
      simp only [StateMachineOperation.stateContext, htostate]
    have harguments : (x.context side).accumulator =
        [.dictionary dictionary] := by
      rw [hcontext]
      rfl
    have hevaluates : (Callable.mk (lookaheadCallback conditions)
        ["dictionary"] true).Evaluates false (x.context side).accumulator
          ⟨x.pad side, x.errno side, [x.channel side], []⟩
          (.dynamicList [.octets sent.name, .dictionary dictionary])
          ⟨x.pad side, x.errno side, [x.channel side], []⟩ := by
      rw [harguments]
      exact Peers.LooksAhead.evaluates (hlooks.patient hplain) hdecides
        (Or.inl rfl) dictionary (x.pad side) (x.errno side)
    have hreturns : x.Returns application side
        (.dynamicList [.octets sent.name, .dictionary dictionary]) (x.pad side)
        (x.errno side) ([x.channel side].flatten ++ []) [] :=
      .evaluates hcallback (List.append_nil _).symm (Or.inl rfl) hevaluates
    rw [List.flatten_singleton, List.append_nil] at hreturns
    obtain ⟨⟨ctx', hnext⟩, hcompleted⟩ := next_stateContext
      dictionary hcontext htostate hrunning htransition hthere htarget
    refine ⟨_, .returns hreturns hnext, h.silent (.transition hinfo htransition
      htarget hcalm (Or.inr ⟨⟨rest, hinbox⟩, hreceives⟩)) hcompleted _ _,
      Exchange.returned_log_other .., ?_⟩
    rw [Exchange.returned_context_self]
    exact ⟨ctx', .state, some (c.place side, info), info, target, transition,
      hinfo, htransition, htarget, hcalm, rfl⟩

/-- Once all of it has arrived the message is taken. -/
theorem takes (h : peers.Simulates x c) (hplain : description.Plain)
    (application : Answers)
    (hsends : peers.exchanged.sends side.other (c.place side) sent there)
    (hreceives : peers.exchanged.receives side (c.place side) sent there)
    (hinbox : c.inbox side = sent :: rest)
    {members : Bindings} (htransfers : peers.Transfers side (c.place side) there
      sent members (x.context side)) :
    ∃ x', Exchange.Step peers.machines application x x' ∧
      peers.Simulates x' (c.receive side sent rest there) ∧
      x'.log side.other = x.log side.other := by
  obtain ⟨ctx, mode, source, info, target, transition, hinfo, htransition,
    htarget, hcalm, hcontext⟩ := htransfers
  have hchannel : x.channel side =
      sent.bytes ++ (rest.map Sent.bytes).flatten := by
    rw [h.channel, hinbox]
    rfl
  have hqueue : Holds [x.channel side] (x.channel side) := Or.inl rfl
  obtain ⟨tree, data, rfl, ⟨bindings, left, input, harrived, htail, hholds,
    hcalm', hhas, hevaluates⟩ | ⟨⟨missing, hne, hlater⟩, _⟩⟩ :=
      read_transition hplain hsends.2.2 hinfo hreceives htransition hcalm
        (x.pad side) (x.errno side)
        (hchannel.symm.trans (List.append_nil _).symm) hqueue
  · have hcallback : (x.context side).callable = some (.callable
        ⟨tree, extractArgumentNames data, true⟩) := by
      rw [hcontext]
      rfl
    have harguments : (x.context side).accumulator =
        StateMachineOperation.extractArguments (extractArgumentNames data)
          members := by
      rw [hcontext]
      rfl
    rw [← harguments] at hevaluates
    obtain ⟨⟨ctx', processing, htostate, hnext⟩, hcompleted⟩ :=
      next_transitionContext (peers.machines side) bindings hcontext
    exact ⟨_, .returns (.evaluates hcallback (List.append_nil _).symm hqueue
      hevaluates) hnext, h.receives hinbox hsends.1 hreceives
        (.state htostate htarget hcalm') (by
          rw [hchannel, hholds.flatten, htail]) hcompleted hhas _ _,
      Exchange.returned_log_other ..⟩
  · exact absurd (List.append_eq_nil_iff.mp hlater.symm).1 hne

theorem exists_step (h : peers.Simulates x c) (hplain : description.Plain)
    (application : Answers) (hinbox : c.inbox side = sent :: rest) :
    ∃ x', Exchange.Step peers.machines application x x' := by
  obtain ⟨there, hsends, hreceives, ⟨_, htransfers⟩ | ⟨ctx, processing, info,
    dictionary, htostate, hinfo, hcalm, hcontext⟩⟩ :=
      h.state_or_transfers hinbox
  · obtain ⟨x', hstep, _⟩ :=
      h.takes hplain application hsends hreceives hinbox htransfers
    exact ⟨x', hstep⟩
  · obtain ⟨x', hstep, _⟩ := h.looks hplain application hsends hreceives hinbox
      htostate hinfo hcalm hcontext
    exact ⟨x', hstep⟩

/-- The oldest message on its way is received in at most two steps. -/
theorem receive (h : peers.Simulates x c) (hplain : description.Plain)
    (application : Answers) (hinbox : c.inbox side = sent :: rest) :
    ∃ x' there,
      peers.exchanged.receives side (c.place side) sent there ∧
      Relation.ReflTransGen (Exchange.Step peers.machines application) x x' ∧
      peers.Simulates x' (c.receive side sent rest there) ∧
      x'.log side.other = x.log side.other := by
  obtain ⟨there, hsends, hreceives, ⟨_, htransfers⟩ | ⟨ctx, processing, info,
    dictionary, htostate, hinfo, hcalm, hcontext⟩⟩ :=
      h.state_or_transfers hinbox
  · obtain ⟨x', hstep, hsim, hlog⟩ :=
      h.takes hplain application hsends hreceives hinbox htransfers
    exact ⟨x', there, hreceives, .single hstep, hsim, hlog⟩
  · obtain ⟨x₁, hstep₁, hsim₁, hlog₁, htransfers⟩ :=
      h.looks hplain application hsends hreceives hinbox htostate hinfo hcalm
        hcontext
    obtain ⟨x₂, hstep₂, hsim₂, hlog₂⟩ :=
      hsim₁.takes hplain application hsends hreceives hinbox htransfers
    exact ⟨x₂, there, hreceives, .head hstep₁ (.single hstep₂), hsim₂,
      hlog₂.trans hlog₁⟩

end Simulates

/-- The machine waits for the callback of the state. -/
def WaitsIn (x : Exchange) (side : Side) (here : String)
    (dictionary : Bindings) : Prop :=
  ∃ processing, (x.context side).additionalInfo = some processing ∧
    processing.processingMode = .state ∧ processing.toState.1 = here ∧
    (x.context side).accumulator = [.dictionary dictionary]

namespace Simulates

variable {application : Answers} {x : Exchange} {c : Config String Sent}

/-- What the application answers is the transition the machine waits for next.
-/
theorem answers (h : peers.Simulates x c)
    (hsends : peers.exchanged.sends side here sent there) {members : Bindings}
    (hhas : HasFields sent.fields members) (hmembers : Calm members)
    {dictionary : Bindings} (hwaits : WaitsIn x side here dictionary)
    (hanswer : application side here (.dictionary dictionary)
      (.dynamicList [.octets sent.name, .dictionary members])) :
    here = c.place side ∧ ∃ x',
      Exchange.Step peers.machines application x x' ∧ peers.Simulates x' c ∧
      x'.log side = x.log side ∧ x'.channel side.other = x.channel side.other ∧
      peers.Transfers side here there sent members (x'.context side) := by
  obtain ⟨waiting, hwaiting, hmode, rfl, harguments⟩ := hwaits
  have hposition := h.position side
  generalize hcontext : x.context side = context at hposition hwaiting
  cases hposition with
  | transition hinfo htransition htarget hcalm hcase =>
      obtain rfl := Option.some.inj hwaiting
      contradiction
  | @state ctx processing info other htostate hinfo hcalm =>
      obtain rfl := Option.some.inj hwaiting
      simp only [htostate] at hsends hanswer ⊢
      obtain ⟨hrunning, transition, target, htransition, hthere, htarget⟩ :=
        exists_transition hinfo (Or.inl hsends.2.1)
      have hcallback : (x.context side).callable = some (.callable
          ⟨info.callbackOptree, ["dictionary"], true⟩) := by
        rw [hcontext]
        simp only [StateMachineOperation.stateContext, htostate]
      have hasks : info.callbackOptree = stateCallback (c.place side) := by
        obtain ⟨_, found, _, hfound, hasks, _⟩ := hsends.2.1
        obtain rfl := Option.some.inj (hinfo.symm.trans hfound)
        exact hasks
      obtain ⟨⟨ctx', hnext⟩, hcompleted⟩ := next_stateContext
        members hcontext htostate hrunning htransition hthere htarget
      refine ⟨trivial, _,
        .returns (.answers hcallback hasks harguments hanswer) hnext,
        h.silent (.transition hinfo htransition htarget hmembers
          (Or.inl ⟨hsends, hhas⟩)) hcompleted _ _, ?_, ?_, ?_⟩
      · rw [Exchange.returned_log_self, hcompleted, List.append_nil]
      · rw [Exchange.returned_channel_other, List.append_nil]
      · rw [Exchange.returned_context_self]
        exact ⟨ctx', .state, some (c.place side, info), info, target,
          transition, hinfo, htransition, htarget, hmembers, rfl⟩

/-- A machine that was told a message writes it. -/
theorem writes (h : peers.Simulates x c) (hplain : description.Plain)
    (application : Answers)
    (hsends : peers.exchanged.sends side (c.place side) sent there)
    {members : Bindings} (hhas : HasFields sent.fields members)
    (htransfers : peers.Transfers side (c.place side) there sent members
      (x.context side)) :
    ∃ x' bindings, Exchange.Step peers.machines application x x' ∧
      peers.Simulates x' (c.send side sent there) ∧
      HasFields sent.fields bindings ∧
      x'.log side = x.log side ++ [(sent.name, bindings)] ∧
      x'.channel side.other = x.channel side.other ++ sent.bytes := by
  obtain ⟨ctx, mode, source, info, target, transition, hinfo, htransition,
    htarget, hcalm, hcontext⟩ := htransfers
  obtain ⟨tree, data, bindings, written, rfl, hcalm', hhas', hflatten,
    hevaluates⟩ := write_transition hplain hsends.2.2 hinfo hsends.2.1
      htransition hhas hcalm (x.pad side) (x.errno side) []
  obtain ⟨⟨ctx', processing, htostate, hnext⟩, hcompleted⟩ :=
    next_transitionContext (peers.machines side) bindings hcontext
  have hcallback : (x.context side).callable = some (.callable
      ⟨tree, extractArgumentNames data, true⟩) := by
    rw [hcontext]
    rfl
  have harguments : (x.context side).accumulator =
      StateMachineOperation.extractArguments (extractArgumentNames data)
        members := by
    rw [hcontext]
    rfl
  have hsplit : x.channel side = [] ++ x.channel side := rfl
  rw [← harguments] at hevaluates
  have hstep : Exchange.Step peers.machines application x _ :=
    .returns (.evaluates hcallback hsplit (Or.inr ⟨rfl, rfl⟩) hevaluates) hnext
  rw [hflatten] at hstep
  refine ⟨_, bindings, hstep, h.sends hsends (.state htostate htarget hcalm')
    hcompleted hhas' _ _, hhas', ?_, ?_⟩
  · rw [Exchange.returned_log_self, hcompleted]
  · rw [Exchange.returned_channel_other]

end Simulates

end Peers

end NetworkProtocolDsl
