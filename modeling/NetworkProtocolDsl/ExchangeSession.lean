/-
Two generated programs follow the session of their state machines.

Asking the application and looking ahead leave the session where it is; the
write of a message sends it and the read receives it.  What is in flight is
the encoding of the messages that are on their way, so a callable that returns
returns what the session expects.
-/
import NetworkProtocolDsl.ExchangeLookahead

namespace NetworkProtocolDsl

open Run RunnerState Generate OpTreeNode Analyze TransitionChoice
open TransitionLookahead PartsToReadActions
open NetworkProtocolDsl.Action
open Session (Side Dialogue Config)

/-- A callback of the application is never evaluated. -/
theorem stateCallback_not_runsTo {key : String} {eof : Bool} {w w' : World}
    {value : Value} : ¬ (stateCallback key).RunsTo eof w value w' := by
  rintro ⟨last, hpasses, hfinished⟩
  let asking (ctx : CallbackOperationContext)
      (requests : List (String × List Value)) (result : OperationResult) :
      RunnerState :=
    ⟨{ interpreter := ⟨⟨[⟨stateCallback key, [w.pad.get "dictionary"],
          .callback ctx⟩], w.pad, result, true⟩, []⟩
       inputBuffer := w.input
       outputBuffer := w.output
       eof := eof
       callbackRequestQueue := requests }, w.errno⟩
  let request : String × List Value := (key, [w.pad.get "dictionary"])
  let waiting : RunnerState → Prop := fun s =>
    s = RunnerState.evaluating (stateCallback key) w eof ∨
      s = asking {} [] (.value (w.pad.get "dictionary")) ∨
      s = asking { callbackCalled := true } [request]
        (.blocked .waitingForCallback) ∨
      s = asking { callbackCalled := true } [request]
        (.blocked .waitingCallbackData)
  have hinvariant : ∀ s t, waiting s → s.pass = .ok t → waiting t := by
    rintro s t (rfl | rfl | rfl | rfl) hpass
    · exact Or.inr (Or.inl (Except.ok.inj (hpass.symm.trans rfl)))
    · exact Or.inr (Or.inr (Or.inl (Except.ok.inj (hpass.symm.trans rfl))))
    · exact Or.inr (Or.inr (Or.inr (Except.ok.inj (hpass.symm.trans rfl))))
    · exact Or.inr (Or.inr (Or.inr (Except.ok.inj (hpass.symm.trans rfl))))
  have hlast := Reaches.invariant hinvariant hpasses (Or.inl rfl)
  have hrunning : last.context.exited = false := by
    rcases hlast with rfl | rfl | rfl | rfl <;> rfl
  rw [hfinished.exited] at hrunning
  contradiction

namespace Callable

variable {callable : Callable} {arguments : List Value} {w w' w'' : World}
  {value value' : Value} {eof : Bool}

theorem Evaluates.unique (h : callable.Evaluates eof arguments w value w')
    (h' : callable.Evaluates eof arguments w value' w'') :
    value = value' ∧ w' = w'' := by
  obtain ⟨w₁, hvalue, rfl⟩ := h
  obtain ⟨w₂, hvalue', rfl⟩ := h'
  obtain ⟨rfl, rfl⟩ := hvalue.unique hvalue'
  exact ⟨rfl, rfl⟩

theorem not_evaluates_of_meets (h : callable.tree.Meets eof NeverExits
      { w with pad := Interpreter.calleePad callable w.pad arguments }) :
    ¬ callable.Evaluates eof arguments w value w' := by
  rintro ⟨w₁, hvalue, _⟩
  exact h.not_runsTo_of_neverExits hvalue.runsTo

end Callable

/-- Invoked for a transition, the callable evaluates to what the tree does over
the pad of the transition. -/
theorem Callable.evaluates_transition {tree : OpTreeNode} {data : MessageData}
    {members bindings : Bindings} {outer : LexicalPad} {errno errno' : Errno}
    {queue input output output' : List Octets} {eof : Bool} {value : Value}
    (h : tree.Evaluates eof
      ⟨transitionPad tree data members outer, errno, queue, output⟩ value
      ⟨.child bindings outer, errno', input, output'⟩) :
    (Callable.mk tree (extractArgumentNames data) true).Evaluates eof
      (StateMachineOperation.extractArguments (extractArgumentNames data)
        members)
      ⟨outer, errno, queue, output⟩ value
      ⟨outer, errno', input, output'⟩ :=
  ⟨_, h, rfl⟩

namespace Peers.LooksAhead

variable {description : ProtocolDescription} {peers : Peers description}
  {side : Side} {here there : String} {state : State}
  {conditions : List (TransitionCondition × Octets)} {sent : Sent}
  {tail arrived later : Octets} {queue : List Octets} {dictionary : Bindings}
  {outer : LexicalPad} {errno : Errno}

/-- Where the lookahead decides, the callback of the state returns the name and
the dictionary it was invoked with. -/
theorem evaluates (hpatient : Patient conditions)
    (hdecides : decides conditions arrived = .value (.octets sent.name))
    (hqueue : Holds queue arrived) (dictionary : Bindings)
    (outer : LexicalPad) (errno : Errno) :
    (Callable.mk (lookaheadCallback conditions) ["dictionary"]
      true).Evaluates false [.dictionary dictionary]
      ⟨outer, errno, queue, []⟩
      (.dynamicList [.octets sent.name, .dictionary dictionary])
      ⟨outer, errno, queue, []⟩ := by
  have hget : (LexicalPad.child [("dictionary", .dictionary dictionary)]
      outer).get "dictionary" = .dictionary dictionary :=
    LexicalPad.get_child List.lookup_cons_self outer
  have hcallback := lookaheadCallback_evaluates hpatient hdecides
    (w := ⟨.child [("dictionary", .dictionary dictionary)] outer, errno, queue,
      []⟩) hqueue hget rfl
  exact ⟨_, hcallback, rfl⟩

variable (h : peers.LooksAhead side here state conditions)
  (hplain : description.Plain)

include h hplain

/-- What the callback of a state returns is the name of the message whose bytes
have begun to arrive. -/
theorem returns {inbox : List Sent}
    (hinbox : ∀ sent rest, inbox = sent :: rest →
      ∃ there, there ≠ "Closed" ∧ sent.Leads description here there)
    (hchannel : (inbox.map Sent.bytes).flatten = arrived ++ later)
    (hqueue : Holds queue arrived) {value : Value} {w' : World}
    (hreturns : (Callable.mk (lookaheadCallback conditions) ["dictionary"]
      true).Evaluates false [.dictionary dictionary] ⟨outer, errno, queue, []⟩
      value w') :
    ∃ sent rest, inbox = sent :: rest ∧
      value = .dynamicList [.octets sent.name, .dictionary dictionary] ∧
      w' = ⟨outer, errno, queue, []⟩ := by
  have hpatient := h.patient hplain
  have hwaits : decides conditions arrived ≠ .blocked .waitingForRead :=
    fun hblocked => Callable.not_evaluates_of_meets
      (lookaheadCallback_waits hpatient hblocked hqueue) hreturns
  cases inbox with
  | nil =>
      obtain ⟨rfl, _⟩ := List.append_eq_nil_iff.mp hchannel.symm
      exact absurd hpatient hwaits
  | cons sent rest =>
      obtain ⟨there, hopen, hsent⟩ := hinbox sent rest rfl
      rw [List.map_cons, List.flatten_cons] at hchannel
      rcases h.decides_sent hplain hsent hopen hchannel with
        hdecides | ⟨hblocked, _⟩
      · obtain ⟨hvalue, hworld⟩ := hreturns.unique
          (evaluates hpatient hdecides hqueue dictionary outer errno)
        exact ⟨sent, rest, rfl, hvalue, hworld⟩
      · exact absurd hblocked hwaits

end Peers.LooksAhead

namespace Peers

variable {description : ProtocolDescription} {peers : Peers description}
  {side : Side} {here there : String} {sent : Sent}
  {transition : TransitionInfo}

/-- The transition of a message in the state map of the peer that writes it. -/
theorem write_transition (hplain : description.Plain)
    (hsent : sent.Leads description here there) {info : StateInfo}
    (hinfo : (peers.machines side).lookup here = some info)
    (hsends : (peers.machines side).Sends here sent.name there)
    (htransition : info.transitions.lookup sent.name = some transition)
    {members : Bindings} (hmembers : HasFields sent.fields members)
    (hcalm : Calm members) (outer : LexicalPad) (errno : Errno)
    (queue : List Octets) :
    ∃ tree data bindings written,
      transition = .mk tree (extractArgumentNames data) there ∧
      Calm bindings ∧ HasFields sent.fields bindings ∧
      written.flatten = sent.bytes ∧
      (Callable.mk tree (extractArgumentNames data) true).Evaluates false
        (StateMachineOperation.extractArguments (extractArgumentNames data)
          members) ⟨outer, errno, queue, []⟩
        (.dynamicList [.dictionary bindings])
        ⟨outer, errno, queue, written⟩ := by
  obtain ⟨hhere, message, hmessage, hwhen, hthen, hagent⟩ :=
    sends_iff.mp hsends
  obtain ⟨found, reads, values, hfound, _, _, hactions, hterminated, hbytes,
    hfields⟩ := hsent
  obtain rfl := Option.some.inj (hmessage.symm.trans hfound)
  obtain ⟨other, analyzed, hother, _, hanalyze, hgenerate⟩ :=
    ((info_cases hinfo hhere).1 sent.name transition).mp htransition
  obtain rfl := Option.some.inj (hmessage.symm.trans hother)
  rw [analyzeMessage, if_pos hagent] at hanalyze
  obtain ⟨writes, hwrites, rfl⟩ := Option.map_eq_some_iff.mp hanalyze
  obtain rfl := partsToWriteActions_eq_duals hactions hwrites
  obtain ⟨tree, htree, hgenerate⟩ := bind_eq_ok hgenerate
  obtain rfl := Except.ok.inj hgenerate
  rw [hthen, hfields, hbytes]
  rw [hfields] at hmembers
  obtain ⟨bindings, written, hlookup, hflatten, hhas, hevaluates⟩ :=
    writeTransition_evaluates (hplain.strings _ message reads hmessage
      hactions).1 htree hmembers outer errno queue []
  refine ⟨tree, message.data, bindings, written, rfl, ?_, hhas, hflatten, ?_⟩
  · intro name value hvalue
    rw [hlookup] at hvalue
    split at hvalue
    · rw [← Option.some.inj hvalue]
      cases hmember : members.lookup name with
      | none => rfl
      | some value => exact hcalm name value hmember
    · contradiction
  · exact Callable.evaluates_transition hevaluates

/-- The transition of a message in the state map of the peer that reads it:
given all the bytes of the message it takes them, given fewer it never returns.
-/
theorem read_transition (hplain : description.Plain)
    (hsent : sent.Leads description here there) {info : StateInfo}
    (hinfo : (peers.machines side).lookup here = some info)
    (hreceives : (peers.machines side).Receives here sent.name there)
    (htransition : info.transitions.lookup sent.name = some transition)
    {carried : Bindings} (hcalm : Calm carried) (outer : LexicalPad)
    (errno : Errno) {tail arrived later : Octets}
    (hchannel : sent.bytes ++ tail = arrived ++ later) {queue : List Octets}
    (hqueue : Holds queue arrived) :
    ∃ tree data, transition = .mk tree (extractArgumentNames data) there ∧
      ((∃ bindings rest input, arrived = sent.bytes ++ rest ∧
        tail = rest ++ later ∧ Holds input rest ∧ Calm bindings ∧
        HasFields sent.fields bindings ∧
        (Callable.mk tree (extractArgumentNames data) true).Evaluates false
          (StateMachineOperation.extractArguments (extractArgumentNames data)
            carried) ⟨outer, errno, queue, []⟩
          (.dynamicList [.dictionary bindings])
          ⟨outer, errno, input, []⟩) ∨
      (∃ missing, missing ≠ [] ∧ later = missing ++ tail) ∧
        ∀ value w', ¬ (Callable.mk tree (extractArgumentNames data)
          true).Evaluates false (StateMachineOperation.extractArguments
            (extractArgumentNames data) carried) ⟨outer, errno, queue, []⟩
          value w') := by
  obtain ⟨hhere, message, hmessage, hwhen, hthen, hagent⟩ :=
    receives_iff.mp hreceives
  obtain ⟨found, reads, values, hfound, _, _, hactions, hterminated, hbytes,
    hfields⟩ := hsent
  obtain rfl := Option.some.inj (hmessage.symm.trans hfound)
  obtain ⟨other, analyzed, hother, _, hanalyze, hgenerate⟩ :=
    ((info_cases hinfo hhere).1 sent.name transition).mp htransition
  obtain rfl := Option.some.inj (hmessage.symm.trans hother)
  rw [analyzeMessage, if_neg hagent] at hanalyze
  obtain ⟨reads', hreads, rfl⟩ := Option.map_eq_some_iff.mp hanalyze
  obtain rfl := Option.some.inj (hactions.symm.trans hreads)
  obtain ⟨tree, htree, hgenerate⟩ := bind_eq_ok hgenerate
  obtain rfl := Except.ok.inj hgenerate
  have hstrings := (hplain.strings _ message reads hmessage hactions).1
  rw [hthen]
  refine ⟨tree, message.data, rfl, ?_⟩
  rw [hbytes] at hchannel ⊢
  rw [hfields]
  by_cases hlength : arrived.length < (encoding values reads).length
  · right
    obtain ⟨missing, hmissing⟩ : arrived <+: encoding values reads :=
      List.prefix_of_prefix_length_le ⟨_, hchannel.symm⟩ ⟨_, rfl⟩
        (Nat.le_of_lt hlength)
    have hne : missing ≠ [] := by
      rintro rfl
      rw [List.append_nil] at hmissing
      rw [hmissing] at hlength
      exact Nat.lt_irrefl _ hlength
    rw [← hmissing, List.append_assoc] at hchannel
    refine ⟨⟨missing, hne, (List.append_cancel_left hchannel).symm⟩,
      fun value w' => Callable.not_evaluates_of_meets ?_⟩
    exact readTransition_waits hstrings htree hterminated hcalm outer errno
      hqueue hmissing.symm hne []
  · left
    obtain ⟨rest, rfl⟩ : encoding values reads <+: arrived :=
      List.prefix_of_prefix_length_le ⟨_, hchannel⟩ ⟨_, rfl⟩
        (Nat.le_of_not_lt hlength)
    rw [List.append_assoc] at hchannel
    obtain ⟨bindings, input, hcalm', hhas, hholds, hevaluates⟩ :=
      readTransition_evaluates hstrings htree hterminated hcalm outer errno
        hqueue []
    exact ⟨bindings, rest, input, rfl, List.append_cancel_left hchannel,
      hholds, hcalm', hhas, Callable.evaluates_transition hevaluates⟩

variable (peers)

/-- The session of the peers: the messages with their bytes, none of which
leads to the end. -/
def exchanged : Dialogue String Sent where
  sends side here sent there := there ≠ "Closed" ∧
    (peers.machines side).Sends here sent.name there ∧
    sent.Leads description here there
  receives side here sent there :=
    (peers.machines side).Receives here sent.name there
  mirrored := fun h => peers.dialogue.mirrored h.2.1
  functional := fun h h' => peers.dialogue.functional h h'
  exclusive := fun h h' => peers.dialogue.exclusive h.2.1 h'

/-- The application answers with a message of the state it is asked in, and
gives a value to each field that does not contain the terminator. -/
def Obeyed (application : Answers) : Prop :=
  ∀ side here dictionary answer, application side here dictionary answer →
    ∃ sent there members, peers.exchanged.sends side here sent there ∧
      answer = .dynamicList [.octets sent.name, .dictionary members] ∧
      HasFields sent.fields members ∧ Calm members

/-- What a machine waits for in a place of the session: the callback of the
state, or the transition of a message that the place allows. -/
inductive Position (side : Side) (here : String) (inbox : List Sent) :
    ControlFlowOperationContext → Prop where
  | state {ctx : ControlFlowOperationContext} {processing : ProcessingInfo}
      {info : StateInfo} {dictionary : Bindings} :
      processing.toState = (here, info) →
      (peers.machines side).lookup here = some info → Calm dictionary →
      Position side here inbox (StateMachineOperation.stateContext ctx
        processing (.dictionary dictionary))
  | transition {ctx : ControlFlowOperationContext}
      {mode : ProcessingMode} {source : Option (String × StateInfo)}
      {info target : StateInfo} {transition : TransitionInfo}
      {members : Bindings} {sent : Sent} {there : String} :
      (peers.machines side).lookup here = some info →
      info.transitions.lookup sent.name = some transition →
      (peers.machines side).lookup there = some target → Calm members →
      (peers.exchanged.sends side here sent there ∧
          HasFields sent.fields members ∨
        (∃ rest, inbox = sent :: rest) ∧
          peers.exchanged.receives side here sent there) →
      Position side here inbox (StateMachineOperation.transitionContext ctx
        ⟨mode, source, some (sent.name, transition), (there, target)⟩
        transition members)

/-- What the session does when the callable returns: nothing, or it sends or
receives the message of the transition. -/
inductive Turn (side : Side) (here : String) (inbox : List Sent)
    (before : Octets) (completed : List (Octets × Bindings)) :
    ControlFlowOperationContext → Octets → Octets → Prop where
  | silent {ctx : ControlFlowOperationContext} :
      peers.Position side here inbox ctx → completed = [] →
      Turn side here inbox before completed ctx before []
  | sends {ctx : ControlFlowOperationContext} {sent : Sent} {there : String}
      {bindings : Bindings} :
      peers.exchanged.sends side here sent there →
      peers.Position side there inbox ctx →
      completed = [(sent.name, bindings)] → HasFields sent.fields bindings →
      Turn side here inbox before completed ctx before sent.bytes
  | receives {ctx : ControlFlowOperationContext} {sent : Sent}
      {rest : List Sent} {there : String} {bindings : Bindings}
      {after : Octets} :
      inbox = sent :: rest → there ≠ "Closed" →
      peers.exchanged.receives side here sent there →
      peers.Position side there rest ctx → before = sent.bytes ++ after →
      completed = [(sent.name, bindings)] → HasFields sent.fields bindings →
      Turn side here inbox before completed ctx after []

/-- The dictionary of a completed transition has the fields of the message. -/
def Logged (entry : Octets × Bindings) (seen : Side × Sent) : Prop :=
  seen.2.name = entry.1 ∧ HasFields seen.2.fields entry.2

/-- The exchange stands where the session does. -/
structure Simulates (x : Exchange) (c : Config String Sent) : Prop where
  reachable : peers.exchanged.Reachable "Open" c
  running : ∀ side, c.place side ≠ "Closed"
  channel : ∀ side, x.channel side = ((c.inbox side).map Sent.bytes).flatten
  position : ∀ side,
    peers.Position side (c.place side) (c.inbox side) (x.context side)
  log : ∀ side, List.Forall₂ Logged (x.log side) (c.view side)

variable {peers} {inbox : List Sent} {ctx : ControlFlowOperationContext}

theorem Position.extend (h : peers.Position side here inbox ctx)
    (later : List Sent) : peers.Position side here (inbox ++ later) ctx := by
  cases h with
  | state htostate hinfo hcalm => exact .state htostate hinfo hcalm
  | transition hinfo htransition htarget hcalm hcase =>
      refine .transition hinfo htransition htarget hcalm (hcase.imp_right ?_)
      rintro ⟨⟨rest, rfl⟩, hreceives⟩
      exact ⟨⟨rest ++ later, rfl⟩, hreceives⟩

namespace Simulates

variable {x : Exchange} {c : Config String Sent} {value : Value}
  {pad : LexicalPad} {errno : Errno} {channel emitted : Octets}

theorem of_each {p : Side → Prop} (side : Side) (hself : p side)
    (hother : p side.other) (side' : Side) : p side' := by
  rcases side'.eq_or_eq_other side with rfl | rfl
  · exact hself
  · exact hother

theorem silent (h : peers.Simulates x c)
    (hposition : peers.Position side (c.place side) (c.inbox side) ctx)
    (hcompleted : Exchange.completed (x.context side) value = [])
    (pad : LexicalPad) (errno : Errno) :
    peers.Simulates
      (x.returned side value ctx pad errno (x.channel side) []) c := by
  refine ⟨h.reachable, h.running, of_each side ?_ ?_,
    of_each side ?_ ?_, of_each side ?_ ?_⟩
  · rw [Exchange.returned_channel_self, h.channel]
  · rw [Exchange.returned_channel_other, List.append_nil, h.channel]
  · rw [Exchange.returned_context_self]
    exact hposition
  · rw [Exchange.returned_context_other]
    exact h.position side.other
  · rw [Exchange.returned_log_self, hcompleted, List.append_nil]
    exact h.log side
  · rw [Exchange.returned_log_other]
    exact h.log side.other

theorem sends (h : peers.Simulates x c) {bindings : Bindings}
    (hsends : peers.exchanged.sends side (c.place side) sent there)
    (hposition : peers.Position side there (c.inbox side) ctx)
    (hcompleted : Exchange.completed (x.context side) value =
      [(sent.name, bindings)])
    (hhas : HasFields sent.fields bindings) (pad : LexicalPad)
    (errno : Errno) :
    peers.Simulates
      (x.returned side value ctx pad errno (x.channel side) sent.bytes)
      (c.send side sent there) := by
  refine ⟨h.reachable.tail (.send hsends), of_each side ?_ ?_,
    of_each side ?_ ?_, of_each side ?_ ?_,
    of_each side ?_ ?_⟩
  · rw [Config.send_place_self]
    exact hsends.1
  · rw [Config.send_place_other]
    exact h.running side.other
  · rw [Exchange.returned_channel_self, Config.send_inbox_self, h.channel]
  · rw [Exchange.returned_channel_other, Config.send_inbox_other,
      List.map_append, List.flatten_append, h.channel]
    simp
  · rw [Exchange.returned_context_self, Config.send_place_self,
      Config.send_inbox_self]
    exact hposition
  · rw [Exchange.returned_context_other, Config.send_place_other,
      Config.send_inbox_other]
    exact (h.position side.other).extend [sent]
  · rw [Exchange.returned_log_self, Config.send_view_self, hcompleted]
    exact List.rel_append (h.log side) (.cons ⟨rfl, hhas⟩ .nil)
  · rw [Exchange.returned_log_other, Config.send_view_other]
    exact h.log side.other

theorem receives (h : peers.Simulates x c) {rest : List Sent}
    {bindings : Bindings} {after : Octets}
    (hinbox : c.inbox side = sent :: rest) (hopen : there ≠ "Closed")
    (hreceives : peers.exchanged.receives side (c.place side) sent there)
    (hposition : peers.Position side there rest ctx)
    (hafter : x.channel side = sent.bytes ++ after)
    (hcompleted : Exchange.completed (x.context side) value =
      [(sent.name, bindings)])
    (hhas : HasFields sent.fields bindings) (pad : LexicalPad)
    (errno : Errno) :
    peers.Simulates (x.returned side value ctx pad errno after [])
      (c.receive side sent rest there) := by
  refine ⟨h.reachable.tail (.receive hinbox hreceives),
    of_each side ?_ ?_, of_each side ?_ ?_,
    of_each side ?_ ?_, of_each side ?_ ?_⟩
  · rw [Config.receive_place_self]
    exact hopen
  · rw [Config.receive_place_other]
    exact h.running side.other
  · rw [h.channel, hinbox, List.map_cons, List.flatten_cons] at hafter
    rw [Exchange.returned_channel_self, Config.receive_inbox_self]
    exact (List.append_cancel_left hafter).symm
  · rw [Exchange.returned_channel_other, Config.receive_inbox_other,
      List.append_nil, h.channel]
  · rw [Exchange.returned_context_self, Config.receive_place_self,
      Config.receive_inbox_self]
    exact hposition
  · rw [Exchange.returned_context_other, Config.receive_place_other,
      Config.receive_inbox_other]
    exact h.position side.other
  · rw [Exchange.returned_log_self, Config.receive_view_self, hcompleted]
    exact List.rel_append (h.log side) (.cons ⟨rfl, hhas⟩ .nil)
  · rw [Exchange.returned_log_other, Config.receive_view_other]
    exact h.log side.other

/-- The turn of one side takes the exchange along with the session. -/
theorem turn (h : peers.Simulates x c)
    (hturn : peers.Turn side (c.place side) (c.inbox side) (x.channel side)
      (Exchange.completed (x.context side) value) ctx channel emitted)
    (pad : LexicalPad) (errno : Errno) :
    ∃ c', (c' = c ∨ peers.exchanged.Step c c') ∧
      peers.Simulates (x.returned side value ctx pad errno channel emitted)
        c' := by
  cases hturn with
  | silent hposition hcompleted =>
      exact ⟨c, Or.inl rfl, h.silent hposition hcompleted pad errno⟩
  | sends hsends hposition hcompleted hhas =>
      exact ⟨_, Or.inr (.send hsends),
        h.sends hsends hposition hcompleted hhas pad errno⟩
  | receives hinbox hopen hreceives hposition hafter hcompleted hhas =>
      exact ⟨_, Or.inr (.receive hinbox hreceives), h.receives hinbox hopen
        hreceives hposition hafter hcompleted hhas pad errno⟩

end Simulates

section Next

variable {x : Exchange} {ctx : ControlFlowOperationContext} {states : StateMap}

/-- The callback of a state named a transition: its callable is next. -/
theorem next_stateContext {processing : ProcessingInfo}
    {info target : StateInfo} {dictionary : Bindings} (members : Bindings)
    {name : Octets}
    (hcontext : x.context side = StateMachineOperation.stateContext ctx
      processing (.dictionary dictionary))
    (htostate : processing.toState = (here, info)) (hhere : here ≠ "Closed")
    (htransition : info.transitions.lookup name = some transition)
    (hthere : transition.targetState = there)
    (htarget : states.lookup there = some target) :
    (∃ ctx', x.next states side
        (.dynamicList [.octets name, .dictionary members]) =
      .ok (.blocked .waitingForCallableInvocation,
        StateMachineOperation.transitionContext ctx'
          ⟨.state, some (here, info), some (name, transition),
            (there, target)⟩ transition members)) ∧
    Exchange.completed (x.context side)
      (.dynamicList [.octets name, .dictionary members]) = [] := by
  subst hthere
  obtain ⟨mode, source, previous, toState⟩ := processing
  obtain rfl : toState = (here, info) := htostate
  rw [Exchange.next, hcontext, StateMachineOperation.apply_stateContext]
  exact ⟨⟨_, StateMachineOperation.processStateReturn_leads
    ⟨.state, source, previous, (here, info)⟩ hhere ⟨htransition, htarget⟩
    members⟩, rfl⟩

/-- The callable of a transition returned its dictionary: the callback of the
target is next. -/
theorem next_transitionContext (states : StateMap) (bindings : Bindings)
    {mode : ProcessingMode} {source : Option (String × StateInfo)}
    {target : StateInfo} {members : Bindings} {name : Octets}
    (hcontext : x.context side = StateMachineOperation.transitionContext ctx
      ⟨mode, source, some (name, transition), (there, target)⟩ transition
      members) :
    (∃ ctx' processing, processing.toState = (there, target) ∧
      x.next states side (.dynamicList [.dictionary bindings]) =
        .ok (.blocked .waitingForCallableInvocation,
          StateMachineOperation.stateContext ctx' processing
            (.dictionary bindings))) ∧
    Exchange.completed (x.context side) (.dynamicList [.dictionary bindings]) =
      [(name, bindings)] := by
  rw [Exchange.next, hcontext,
    StateMachineOperation.apply_transitionContext states ctx _ rfl]
  exact ⟨⟨_, ⟨.state, source, some (name, transition), (there, target)⟩, rfl,
    rfl⟩, rfl⟩

end Next

/-- The transition that leads a peer from a state, and its target. -/
theorem exists_transition {info : StateInfo} {name : Octets}
    (hinfo : (peers.machines side).lookup here = some info)
    (hleaves : (peers.machines side).Sends here name there ∨
      (peers.machines side).Receives here name there) :
    here ≠ "Closed" ∧ ∃ transition target,
      info.transitions.lookup name = some transition ∧
      transition.targetState = there ∧
      (peers.machines side).lookup there = some target := by
  obtain ⟨hhere, message, hmessage, rfl⟩ : here ≠ "Closed" ∧ ∃ message,
      description.messages.lookup name = some message ∧
        message.thenState.name = there := by
    rcases hleaves with hsends | hreceives
    · obtain ⟨hhere, message, hmessage, _, hthen, _⟩ := sends_iff.mp hsends
      exact ⟨hhere, message, hmessage, hthen⟩
    · obtain ⟨hhere, message, hmessage, _, hthen, _⟩ :=
        receives_iff.mp hreceives
      exact ⟨hhere, message, hmessage, hthen⟩
  obtain ⟨target, htarget⟩ := (info_of_message peers hmessage
    side).2
  refine ⟨hhere, ?_⟩
  rcases hleaves with ⟨_, found, transition, hfound, _, htransition, hthere⟩ |
    ⟨_, found, transition, _, hfound, _, htransition, hthere⟩
  all_goals
    obtain rfl := Option.some.inj (hinfo.symm.trans hfound)
    exact ⟨transition, target, htransition, hthere, htarget⟩

/-- The callable of a transition asks nobody. -/
theorem transition_ne_stateCallback {info : StateInfo} {name : Octets}
    (hinfo : (peers.machines side).lookup here = some info)
    (hhere : here ≠ "Closed")
    (htransition : info.transitions.lookup name = some transition)
    (key : String) : transition.callbackOptree ≠ stateCallback key := by
  obtain ⟨_, analyzed, _, _, _, hgenerate⟩ :=
    ((info_cases hinfo hhere).1 name transition).mp htransition
  obtain ⟨tree, htree, hgenerate⟩ := bind_eq_ok hgenerate
  obtain ⟨operations, _, htree⟩ := bind_eq_ok htree
  obtain rfl := Except.ok.inj htree
  obtain rfl := Except.ok.inj hgenerate
  intro heq
  cases heq

section Turn

variable {application : Answers} {x : Exchange} {value : Value}
  {pad : LexicalPad} {errno : Errno} {channel emitted : Octets}
  {inbox : List Sent}

/-- Asking the application or looking ahead leaves the session where it is. -/
theorem turn_of_state (hplain : description.Plain)
    (hobeyed : peers.Obeyed application) (hrunning : here ≠ "Closed")
    (hinbox : ∀ sent rest, inbox = sent :: rest →
      ∃ there, peers.exchanged.sends side.other here sent there)
    (hchannel : x.channel side = (inbox.map Sent.bytes).flatten)
    {ctx : ControlFlowOperationContext} {processing : ProcessingInfo}
    {info : StateInfo} {dictionary : Bindings}
    (hcontext : x.context side = StateMachineOperation.stateContext ctx
      processing (.dictionary dictionary))
    (htostate : processing.toState = (here, info))
    (hinfo : (peers.machines side).lookup here = some info)
    (hcalm : Calm dictionary)
    (hreturns : x.Returns application side value pad errno channel emitted) :
    ∃ ctx', x.next (peers.machines side) side value =
        .ok (.blocked .waitingForCallableInvocation, ctx') ∧
      peers.Turn side here inbox (x.channel side)
        (Exchange.completed (x.context side) value) ctx' channel emitted := by
  have hcallback : (x.context side).callable = some (.callable
      ⟨info.callbackOptree, ["dictionary"], true⟩) := by
    rw [hcontext]
    simp only [StateMachineOperation.stateContext, htostate]
  have harguments : (x.context side).accumulator = [.dictionary dictionary] :=
    by rw [hcontext]; rfl
  obtain ⟨_, hcases⟩ := info_cases hinfo hrunning
  cases hreturns with
  | evaluates hcallable hsplit hqueue hvalue =>
      obtain rfl := Value.callable.inj
        (Option.some.inj (hcallback.symm.trans hcallable))
      rw [harguments] at hvalue
      rcases hcases with ⟨_, hasks⟩ | ⟨state, conditions, hlooks, hlookahead⟩
      · obtain ⟨w₁, hevaluates, _⟩ := hvalue
        simp only [hasks] at hevaluates
        exact absurd hevaluates.runsTo stateCallback_not_runsTo
      · rw [hlookahead] at hvalue
        obtain ⟨sent, rest, rfl, rfl, rfl⟩ := hlooks.returns hplain
          (fun sent rest hsent => (hinbox sent rest hsent).imp
            fun _ hsends => ⟨hsends.1, hsends.2.2⟩)
          (hchannel.symm.trans hsplit) hqueue hvalue
        obtain ⟨there, hsends⟩ := hinbox sent rest rfl
        have hreceives := peers.exchanged.mirrored hsends
        rw [Side.other_other] at hreceives
        obtain ⟨_, transition, target, htransition, hthere, htarget⟩ :=
          exists_transition hinfo (Or.inr hreceives)
        obtain ⟨⟨ctx', hnext⟩, hcompleted⟩ := next_stateContext
          dictionary hcontext htostate hrunning htransition hthere htarget
        refine ⟨_, hnext, ?_⟩
        rw [hqueue.flatten, ← hsplit]
        exact .silent (.transition hinfo htransition htarget hcalm
          (Or.inr ⟨⟨rest, rfl⟩, hreceives⟩)) hcompleted
  | @answers callable key _ _ hcallable htree haccumulator hanswer =>
      obtain rfl := Value.callable.inj
        (Option.some.inj (hcallback.symm.trans hcallable))
      have htree : info.callbackOptree = stateCallback key := htree
      rcases hcases with ⟨_, hasks⟩ | ⟨state, conditions, _, hlookahead⟩
      · obtain ⟨hkey, _⟩ := OpTreeNode.mk.inj (hasks.symm.trans htree)
        obtain rfl := Operation.unaryCallback.inj hkey
        obtain ⟨sent, there, members, hsends, rfl, hhas, hmembers⟩ :=
          hobeyed side _ _ _ hanswer
        obtain ⟨_, transition, target, htransition, hthere, htarget⟩ :=
          exists_transition hinfo (Or.inl hsends.2.1)
        obtain ⟨⟨ctx', hnext⟩, hcompleted⟩ := next_stateContext
          members hcontext htostate hrunning htransition hthere htarget
        exact ⟨_, hnext, .silent (.transition hinfo htransition htarget
          hmembers (Or.inl ⟨hsends, hhas⟩)) hcompleted⟩
      · rw [hlookahead] at htree
        cases htree

/-- The transition of a message sends it or receives it. -/
theorem turn_of_transition (hplain : description.Plain)
    (hinbox : ∀ sent rest, inbox = sent :: rest →
      ∃ there, peers.exchanged.sends side.other here sent there)
    (hchannel : x.channel side = (inbox.map Sent.bytes).flatten)
    {ctx : ControlFlowOperationContext} {mode : ProcessingMode}
    {source : Option (String × StateInfo)} {info target : StateInfo}
    {members : Bindings}
    (hcontext : x.context side = StateMachineOperation.transitionContext ctx
      ⟨mode, source, some (sent.name, transition), (there, target)⟩ transition
      members)
    (hinfo : (peers.machines side).lookup here = some info)
    (htransition : info.transitions.lookup sent.name = some transition)
    (htarget : (peers.machines side).lookup there = some target)
    (hcalm : Calm members)
    (hcase : peers.exchanged.sends side here sent there ∧
        HasFields sent.fields members ∨
      (∃ rest, inbox = sent :: rest) ∧
        peers.exchanged.receives side here sent there)
    (hreturns : x.Returns application side value pad errno channel emitted) :
    ∃ ctx', x.next (peers.machines side) side value =
        .ok (.blocked .waitingForCallableInvocation, ctx') ∧
      peers.Turn side here inbox (x.channel side)
        (Exchange.completed (x.context side) value) ctx' channel emitted := by
  have hcallback : (x.context side).callable = some (.callable
      ⟨transition.callbackOptree, transition.argumentNames, true⟩) := by
    rw [hcontext]
    rfl
  have harguments : (x.context side).accumulator =
      StateMachineOperation.extractArguments transition.argumentNames
        members := by
    rw [hcontext]
    rfl
  have hrunning : here ≠ "Closed" := by
    rcases hcase with ⟨hsends, _⟩ | ⟨_, hreceives⟩
    · exact hsends.2.1.1
    · exact hreceives.1
  cases hreturns with
  | @answers callable key _ _ hcallable htree =>
      obtain rfl := Value.callable.inj
        (Option.some.inj (hcallback.symm.trans hcallable))
      exact absurd htree
        (transition_ne_stateCallback hinfo hrunning htransition key)
  | @evaluates callable arrived later queue _ w' hcallable hsplit hqueue
      hvalue =>
      obtain rfl := Value.callable.inj
        (Option.some.inj (hcallback.symm.trans hcallable))
      rw [harguments] at hvalue
      rcases hcase with ⟨hsends, hhas⟩ | ⟨⟨rest, rfl⟩, hreceives⟩
      · obtain ⟨tree, data, bindings, written, rfl, hcalm', hhas', hflatten,
          hevaluates⟩ := write_transition hplain hsends.2.2 hinfo hsends.2.1
            htransition hhas hcalm (x.pad side) (x.errno side) queue
        obtain ⟨rfl, rfl⟩ := hvalue.unique hevaluates
        obtain ⟨⟨ctx', processing, htostate, hnext⟩, hcompleted⟩ :=
          next_transitionContext (peers.machines side) bindings hcontext
        refine ⟨_, hnext, ?_⟩
        rw [hqueue.flatten, ← hsplit, hflatten]
        exact .sends hsends (.state htostate htarget hcalm') hcompleted hhas'
      · obtain ⟨there', hsends⟩ := hinbox sent rest rfl
        have hmirrored := peers.exchanged.mirrored hsends
        rw [Side.other_other] at hmirrored
        obtain rfl := peers.exchanged.functional hreceives hmirrored
        rw [List.map_cons, List.flatten_cons] at hchannel
        obtain ⟨tree, data, rfl, ⟨bindings, left, input, rfl, htail, hholds,
          hcalm', hhas, hevaluates⟩ | ⟨_, hnever⟩⟩ := read_transition hplain
            hsends.2.2 hinfo hreceives htransition hcalm (x.pad side)
            (x.errno side) (hchannel.symm.trans hsplit) hqueue
        · obtain ⟨rfl, rfl⟩ := hvalue.unique hevaluates
          obtain ⟨⟨ctx', processing, htostate, hnext⟩, hcompleted⟩ :=
            next_transitionContext (peers.machines side) bindings hcontext
          refine ⟨_, hnext, ?_⟩
          rw [hholds.flatten, ← htail]
          exact .receives rfl hsends.1 hreceives
            (.state htostate htarget hcalm') hchannel hcompleted hhas
        · exact absurd hvalue (hnever _ _)

end Turn

namespace Simulates

variable {application : Answers} {x : Exchange} {c : Config String Sent}

/-- Whatever the awaited callable returns, the machine goes on, and the
exchange stays with the session. -/
theorem returns (h : peers.Simulates x c) (hplain : description.Plain)
    (hobeyed : peers.Obeyed application) {value : Value} {pad : LexicalPad}
    {errno : Errno} {channel emitted : Octets}
    (hreturns : x.Returns application side value pad errno channel emitted) :
    ∃ ctx', x.next (peers.machines side) side value =
        .ok (.blocked .waitingForCallableInvocation, ctx') ∧
      peers.Turn side (c.place side) (c.inbox side) (x.channel side)
        (Exchange.completed (x.context side) value) ctx' channel emitted := by
  have hinbox : ∀ sent rest, c.inbox side = sent :: rest →
      ∃ there, peers.exchanged.sends side.other (c.place side) sent there :=
    fun _ _ hinbox => h.reachable.sent hinbox
  have hposition := h.position side
  generalize hcontext : x.context side = context at hposition
  rw [← hcontext]
  cases hposition with
  | state htostate hinfo hcalm =>
      exact turn_of_state hplain hobeyed (h.running side) hinbox
        (h.channel side) hcontext htostate hinfo hcalm hreturns
  | transition hinfo htransition htarget hcalm hcase =>
      exact turn_of_transition hplain hinbox (h.channel side) hcontext hinfo
        htransition htarget hcalm hcase hreturns

/-- Every step of the exchange is none or one step of the session. -/
theorem step (h : peers.Simulates x c) (hplain : description.Plain)
    (hobeyed : peers.Obeyed application) {x' : Exchange}
    (hstep : Exchange.Step peers.machines application x x') :
    ∃ c', (c' = c ∨ peers.exchanged.Step c c') ∧ peers.Simulates x' c' := by
  obtain ⟨hreturns, hnext⟩ := hstep
  obtain ⟨ctx', hgoes, hturn⟩ := h.returns hplain hobeyed hreturns
  obtain ⟨_, rfl⟩ := Prod.mk.inj (Except.ok.inj (hnext.symm.trans hgoes))
  exact h.turn hturn _ _

end Simulates

end Peers

end NetworkProtocolDsl
