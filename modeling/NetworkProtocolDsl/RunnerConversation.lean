/-
The conversation of an emitted runner.

A call of `on_bytes_received` leaves the machine where it was, or one message
of the state is read and the handler's answer sent.  So, in whatever pieces the
bytes come, what a connection has read and written is a path of the protocol.
-/
import NetworkProtocolDsl.Library.MapM
import NetworkProtocolDsl.ProtocolInfo
import NetworkProtocolDsl.RunnerLoop
import NetworkProtocolDsl.SendFrame

namespace NetworkProtocolDsl

open Run

/-- The parser of the message returns `Complete` on the bytes, with this data.
-/
def MessageReader.Completes (reader : MessageReader) (data : Octets)
    (fields : List (String × FieldData)) : Prop :=
  ∃ parser parse, Reaches (ParseCall.step reader.stages) (.start parser data)
    parse ∧ parse.point = .returned .complete ∧
    parse.parser.takeData reader.info.data reader.info.actions = .ok fields

namespace ReceiveCall

variable {code : StateMachineCode} {before : GeneratedStateMachine}
  {data : Octets}

/-- No message was read. -/
structure Unread (before after : GeneratedStateMachine) : Prop where
  currentState : after.currentState = before.currentState
  outputBuffer : after.outputBuffer = before.outputBuffer
  hasMessage : after.hasMessage = false

/-- A message of the state was read. -/
structure Accepted (code : StateMachineCode) (before : GeneratedStateMachine)
    (data : Octets) (reader : MessageReader)
    (fields : List (String × FieldData)) (after : GeneratedStateMachine) :
    Prop where
  readable : reader ∈ code.readersAt before.currentState
  completes : reader.Completes data fields
  currentState : after.currentState = reader.info.thenState
  messageState : after.messageState = reader.info.thenState
  pending : after.pending reader.info.thenState =
    some ⟨reader.info.messageName, fields⟩
  outputBuffer : after.outputBuffer = before.outputBuffer
  hasMessage : after.hasMessage = true

/-- Where a call on the bytes may stand. -/
inductive Receives (code : StateMachineCode) (before : GeneratedStateMachine)
    (data : Octets) : ReceiveCall → Prop where
  | trying {machine : GeneratedStateMachine} {readers : List MessageReader}
      {reader : MessageReader} {later : List MessageReader}
      {parser : MessageParser} {parse : ParseCall} :
      Unread before machine →
      (∀ other ∈ reader :: later,
        other ∈ code.readersAt before.currentState) →
      Reaches (ParseCall.step reader.stages) (.start parser data) parse →
      Receives code before data
        ⟨machine, data, readers, .trying reader later parse⟩
  | unread {machine : GeneratedStateMachine} {readers : List MessageReader}
      {consumed : Nat} :
      Unread before machine →
      Receives code before data ⟨machine, data, readers, .returned consumed⟩
  | accepted {machine : GeneratedStateMachine} {readers : List MessageReader}
      {consumed : Nat} {reader : MessageReader}
      {fields : List (String × FieldData)} :
      Accepted code before data reader fields machine →
      Receives code before data ⟨machine, data, readers, .returned consumed⟩
  | thrown {machine : GeneratedStateMachine} {readers : List MessageReader}
      {error : ConversionError} :
      Receives code before data ⟨machine, data, readers, .thrown error⟩

theorem Receives.finish_unread {machine : GeneratedStateMachine}
    {readers : List MessageReader} {point : ReceivePoint}
    (h : Unread before machine) (consumed : Nat) (progressed : Bool) :
    Receives code before data
      ((ReceiveCall.mk machine data readers point).finish consumed
        progressed) := by
  rw [finish]
  split
  · exact .unread ⟨h.currentState, h.outputBuffer, h.hasMessage⟩
  · exact .unread h

theorem Receives.start (hnone : before.hasMessage = false) :
    Receives code before data (ReceiveCall.start code before data) := by
  rw [ReceiveCall.start]
  split
  · exact .unread ⟨rfl, rfl, hnone⟩
  · split
    · exact finish_unread ⟨rfl, rfl, hnone⟩ 0 false
    · rename_i reader later hreaders
      refine .trying ⟨rfl, rfl, hnone⟩ (fun other hother => ?_)
        (Reaches.refl _)
      rw [hreaders]
      exact hother

theorem Receives.settle {machine : GeneratedStateMachine}
    {readers later : List MessageReader} {reader : MessageReader}
    {parser : MessageParser} {parse : ParseCall} {status : ParseStatus}
    (h : Unread before machine)
    (hreadable : ∀ other ∈ reader :: later,
      other ∈ code.readersAt before.currentState)
    (hparse : Reaches (ParseCall.step reader.stages) (.start parser data)
      parse) (hstatus : parse.point = .returned status) :
    Receives code before data
      ((ReceiveCall.mk machine data readers
        (.trying reader later parse)).settle reader later parse status) := by
  cases status with
  | complete =>
      simp only [ReceiveCall.settle]
      split
      · exact .thrown
      · rename_i fields hfields
        rw [finish, if_neg (by simp)]
        exact .accepted ⟨hreadable reader List.mem_cons_self,
          ⟨parser, parse, hparse, hstatus, hfields⟩, rfl, rfl, if_pos rfl,
          h.outputBuffer, rfl⟩
  | needMoreData =>
      simp only [ReceiveCall.settle]
      refine finish_unread ?_ _ _
      exact ⟨h.currentState, h.outputBuffer, h.hasMessage⟩
  | error =>
      cases later with
      | nil =>
          simp only [ReceiveCall.settle]
          refine finish_unread ?_ _ _
          exact ⟨h.currentState, h.outputBuffer, h.hasMessage⟩
      | cons next rest =>
          exact .trying ⟨h.currentState, h.outputBuffer, h.hasMessage⟩
            (fun other hother => hreadable other
              (List.mem_cons_of_mem reader hother)) (Reaches.refl _)

theorem Receives.step {call call' : ReceiveCall}
    (h : Receives code before data call) (hstep : call.step = .ok call') :
    Receives code before data call' := by
  cases h with
  | @trying machine readers reader later parser parse hunread hreadable
      hparse =>
      cases hpoint : parse.point with
      | returned status =>
          simp only [ReceiveCall.step, hpoint] at hstep
          obtain rfl := Except.ok.inj hstep
          exact .settle hunread hreadable hparse hpoint
      | dispatch | scanning _ | scanningElement _ =>
          simp only [ReceiveCall.step, hpoint] at hstep
          obtain ⟨parse', hnext, rfl⟩ := map_eq_ok hstep
          exact .trying hunread hreadable
            (hparse.trans (Reaches.single hnext))
  | unread hunread =>
      obtain rfl := Except.ok.inj hstep
      exact .unread hunread
  | accepted haccepted =>
      obtain rfl := Except.ok.inj hstep
      exact .accepted haccepted
  | thrown =>
      obtain rfl := Except.ok.inj hstep
      exact .thrown

end ReceiveCall

/-- A message with its data, as it was read or as the handler gave it. -/
inductive Said where
  | received (name : Octets) (fields : List (String × FieldData))
  | sent (name : Octets) (fields : MessageFields)
  | dropped (name : Octets) (fields : MessageFields)

/-- What becomes of an output: the state it leads to and the bytes that are put
out.  A message of the other agent is dropped, in the state of the output. -/
inductive StateOutput.Gives {code : StateMachineCode} {state : String} :
    StateOutput code state → Said → String → Octets → Prop where
  | sent {writer : MessageWriter} {writes : writer ∈ code.writersAt state}
      {fields : MessageFields} {bytes : Octets} :
      writer.Emits fields bytes →
      Gives (.sent writer writes fields) (.sent writer.info.messageName fields)
        writer.info.thenState bytes
  | dropped {name : Octets} {leaves : (state, name) ∈ code.unsent}
      {fields : MessageFields} :
      Gives (.unsent name leaves fields) (.dropped name fields) state []

namespace RunnerCall

variable {code : StateMachineCode} {handler : RunnerHandler code}
  {before after : GeneratedStateMachine} {data : Octets} {state : String}

/-- The output was sent or dropped. -/
structure Sent (output : StateOutput code state)
    (before after : GeneratedStateMachine) (answer : Said) (bytes : Octets) :
    Prop where
  gives : output.Gives answer after.currentState bytes
  outputBuffer : after.outputBuffer = before.outputBuffer ++ bytes
  hasMessage : after.hasMessage = false

/-- Where a call stands that sends the output, or is through with it. -/
inductive Sends (output : StateOutput code state)
    (before : GeneratedStateMachine) : RunnerCall → Prop where
  | sending {writer : MessageWriter} {writes : writer ∈ code.writersAt state}
      {fields : MessageFields} {machine : GeneratedStateMachine}
      {consumed : Nat} {send : SendCall} :
      output = .sent writer writes fields →
      Reaches (SendCall.step writer.stages writer.info.thenState)
        (.start fields before.outputBuffer writer.info.whenState) send →
      machine.hasMessage = false →
      Sends output before ⟨machine, .sending consumed writer send⟩
  | sent {machine : GeneratedStateMachine} {point : RunnerPoint}
      {consumed : Nat} {answer : Said} {bytes : Octets} :
      Sent output before machine answer bytes →
      point = .loopHead consumed ∨ point = .returned consumed →
      Sends output before ⟨machine, point⟩

theorem Sends.step {output : StateOutput code state}
    {call call' : RunnerCall} (h : Sends output before call)
    (hstep : step code handler call = .ok call') :
    Sends output before call' := by
  cases h with
  | @sending writer writes fields machine consumed send houtput hsend hnone =>
      cases hpoint : send.point with
      | returned =>
          simp only [RunnerCall.step, hpoint] at hstep
          obtain rfl := Except.ok.inj hstep
          obtain ⟨bytes, hemits, hbuffer, hthen⟩ :=
            MessageWriter.emits_of_reaches hsend hpoint
          have hgives := @StateOutput.Gives.sent _ _ _ writes _ _ hemits
          rw [← houtput, ← hthen] at hgives
          exact .sent ⟨hgives, hbuffer, hnone⟩ (Or.inl rfl)
      | head | nextChunk | escaping _ _ _ _ | gotChunk _ =>
          simp only [RunnerCall.step, hpoint] at hstep
          obtain ⟨send', hnext, rfl⟩ := map_eq_ok hstep
          exact .sending houtput (hsend.trans (Reaches.single hnext)) hnone
  | sent hsent hpoint =>
      rcases hpoint with rfl | rfl
      · simp only [RunnerCall.step, hsent.hasMessage, Bool.false_eq_true,
          if_false] at hstep
        obtain rfl := Except.ok.inj hstep
        exact .sent hsent (Or.inr rfl)
      · obtain rfl := Except.ok.inj hstep
        exact .sent hsent (Or.inr rfl)

/-- Sending starts in the state the message leaves. -/
theorem Sends.start {machine : GeneratedStateMachine}
    (output : StateOutput code state) (hstate : machine.currentState = state)
    (hbuffer : machine.outputBuffer = before.outputBuffer)
    (hnone : machine.hasMessage = false) (consumed : Nat) :
    Sends output before (dispatchOutput code machine consumed output) := by
  cases output with
  | sent writer writes fields =>
      have hwhen : writer.info.whenState = machine.currentState :=
        (of_decide_eq_true (List.mem_filter.mp writes).2).trans hstate.symm
      refine .sending rfl ?_ hnone
      rw [hwhen, hbuffer]
      exact Reaches.refl _
  | unsent name leaves fields =>
      have hgives : (StateOutput.unsent name leaves fields).Gives
          (.dropped name fields) machine.currentState [] := by
        rw [hstate]
        exact .dropped
      exact .sent ⟨hgives, hbuffer.trans (List.append_nil _).symm, hnone⟩
        (Or.inl rfl)

theorem Sends.sent_of_returned {output : StateOutput code state}
    {consumed : Nat} (h : Sends output before ⟨after, .returned consumed⟩) :
    ∃ answer bytes, Sent output before after answer bytes := by
  generalize hcall : RunnerCall.mk after (.returned consumed) = call at h
  cases h with
  | sending _ _ _ => exact absurd (congrArg point hcall) RunnerPoint.noConfusion
  | sent hsent _ =>
      obtain rfl := congrArg machine hcall
      exact ⟨_, _, hsent⟩

/-- A message of the state was read, and the handler has answered it. -/
structure Answered (code : StateMachineCode) (handler : RunnerHandler code)
    (before : GeneratedStateMachine) (data : Octets) (reader : MessageReader)
    (fields : List (String × FieldData))
    (output : StateOutput code reader.info.thenState) : Prop where
  readable : reader ∈ code.readersAt before.currentState
  completes : reader.Completes data fields
  output : ∃ hcase, handler.on _ hcase ⟨reader.info.messageName, fields⟩ =
    output

/-- Where a call on the bytes may stand. -/
inductive Receives (code : StateMachineCode) (handler : RunnerHandler code)
    (before : GeneratedStateMachine) (data : Octets) : RunnerCall → Prop where
  | receiving {machine : GeneratedStateMachine} {receive : ReceiveCall} :
      ReceiveCall.Receives code before data receive →
      Receives code handler before data ⟨machine, .receiving receive⟩
  | unread {machine : GeneratedStateMachine} {point : RunnerPoint}
      {consumed : Nat} : ReceiveCall.Unread before machine →
      point = .loopHead consumed ∨ point = .returned consumed →
      Receives code handler before data ⟨machine, point⟩
  | accepted {machine : GeneratedStateMachine} {consumed : Nat}
      {reader : MessageReader} {fields : List (String × FieldData)} :
      ReceiveCall.Accepted code before data reader fields machine →
      Receives code handler before data ⟨machine, .loopHead consumed⟩
  | answered {call : RunnerCall} {reader : MessageReader}
      {fields : List (String × FieldData)}
      {output : StateOutput code reader.info.thenState} :
      Answered code handler before data reader fields output →
      Sends output before call →
      Receives code handler before data call
  | thrown {machine : GeneratedStateMachine} {error : ConversionError} :
      Receives code handler before data ⟨machine, .thrown error⟩

theorem Receives.dispatch {machine : GeneratedStateMachine}
    {reader : MessageReader} {fields : List (String × FieldData)}
    {consumed : Nat} {call : RunnerCall}
    (h : ReceiveCall.Accepted code before data reader fields machine)
    (hstep : dispatchMessage code handler ⟨machine, .loopHead consumed⟩
      consumed = .ok call) : Receives code handler before data call := by
  have hstate := h.messageState
  simp only [dispatchMessage] at hstep
  split at hstep
  · rename_i hcase
    split at hstep
    · contradiction
    · rename_i message hmessage
      obtain rfl := Except.ok.inj hstep
      generalize hgeneral : machine.messageState = state at *
      subst hstate
      obtain rfl := Option.some.inj (h.pending.symm.trans hmessage)
      have hthen : (machine.takeMessage reader.info.thenState).currentState =
          reader.info.thenState := h.currentState
      exact .answered ⟨h.readable, h.completes, hcase, rfl⟩
        (.start _ hthen h.outputBuffer rfl consumed)
  · obtain rfl := Except.ok.inj hstep
    exact .accepted h

theorem Receives.step {call call' : RunnerCall}
    (h : Receives code handler before data call)
    (hstep : step code handler call = .ok call') :
    Receives code handler before data call' := by
  cases h with
  | @receiving machine receive hreceives =>
      cases hreceives with
      | trying hunread hreadable hparse =>
          simp only [RunnerCall.step] at hstep
          obtain ⟨receive', hnext, rfl⟩ := map_eq_ok hstep
          exact .receiving (ReceiveCall.Receives.step
            (.trying hunread hreadable hparse) hnext)
      | unread hunread =>
          obtain rfl := Except.ok.inj hstep
          exact .unread hunread (Or.inl rfl)
      | accepted haccepted =>
          obtain rfl := Except.ok.inj hstep
          exact .accepted haccepted
      | thrown =>
          obtain rfl := Except.ok.inj hstep
          exact .thrown
  | unread hunread hpoint =>
      rcases hpoint with rfl | rfl
      · simp only [RunnerCall.step, hunread.hasMessage, Bool.false_eq_true,
          if_false] at hstep
        obtain rfl := Except.ok.inj hstep
        exact .unread hunread (Or.inr rfl)
      · obtain rfl := Except.ok.inj hstep
        exact .unread hunread (Or.inr rfl)
  | accepted haccepted =>
      simp only [RunnerCall.step, haccepted.hasMessage, if_true] at hstep
      exact .dispatch haccepted hstep
  | answered hanswered hsends => exact .answered hanswered (hsends.step hstep)
  | thrown =>
      obtain rfl := Except.ok.inj hstep
      exact .thrown

/-- What a call with these bytes makes of the machine: nothing that can be
seen, or one message is read and answered. -/
theorem turn_of_returnsWith (hnone : before.hasMessage = false)
    (h : ReturnsWith code handler (start code before data) after) :
    ReceiveCall.Unread before after ∨
      ∃ (reader : MessageReader) (fields : List (String × FieldData))
        (output : StateOutput code reader.info.thenState) (answer : Said)
        (bytes : Octets),
        Answered code handler before data reader fields output ∧
          Sent output before after answer bytes := by
  obtain ⟨consumed, hreached⟩ := h
  have hlast := hreached.invariant (fun _ _ => Receives.step)
    (Receives.receiving (ReceiveCall.Receives.start hnone))
  generalize hcall : RunnerCall.mk after (.returned consumed) = call at hlast
  cases hlast with
  | unread hunread _ =>
      obtain rfl := congrArg machine hcall
      exact Or.inl hunread
  | @answered _ reader fields output hanswered hsends =>
      subst hcall
      obtain ⟨answer, bytes, hsent⟩ := hsends.sent_of_returned
      exact Or.inr ⟨reader, fields, output, answer, bytes, hanswered, hsent⟩
  | receiving _ | accepted _ | thrown =>
      exact absurd (congrArg point hcall) RunnerPoint.noConfusion

theorem sent_of_returnsWith {machine : GeneratedStateMachine}
    {output : StateOutput code state} (hstate : machine.currentState = state)
    (hnone : machine.hasMessage = false)
    (h : ReturnsWith code handler (dispatchOutput code machine 0 output)
      after) :
    ∃ answer bytes, Sent output machine after answer bytes := by
  obtain ⟨consumed, hreached⟩ := h
  exact (hreached.invariant (fun _ _ => Sends.step)
    (Sends.start output hstate rfl hnone 0)).sent_of_returned

end RunnerCall

/-- A connection served by the runner: `start` is called in the state `Open`,
bytes are given to it, and what it has to write is taken; `written` was taken.
At each call the handler is one of those that `handles` allows. -/
inductive RunnerHistory (code : StateMachineCode)
    (handles : RunnerHandler code → Prop) :
    Octets → GeneratedStateMachine → Prop where
  | initial : RunnerHistory code handles [] (.initial code)
  | started {written : Octets} {machine machine' : GeneratedStateMachine}
      {handler : RunnerHandler code} (hopen : code.writersAt "Open" ≠ []) :
      RunnerHistory code handles written machine →
      machine.currentState = "Open" → handles handler →
      RunnerCall.ReturnsWith code handler
        (.dispatchOutput code machine 0 (handler.onOpen hopen)) machine' →
      RunnerHistory code handles written machine'
  | bytesReceived {written : Octets} {machine machine' : GeneratedStateMachine}
      {handler : RunnerHandler code} (data : Octets) :
      RunnerHistory code handles written machine → handles handler →
      RunnerCall.ReturnsWith code handler (.start code machine data) machine' →
      RunnerHistory code handles written machine'
  | bytesWritten {written : Octets} {machine : GeneratedStateMachine}
      (count : Nat) : RunnerHistory code handles written machine →
      RunnerHistory code handles (written ++ machine.outputBuffer.take count)
        (machine.bytesWritten count)

namespace RunnerHistory

variable {code : StateMachineCode} {handles : RunnerHandler code → Prop}
  {written : Octets} {machine : GeneratedStateMachine}

theorem hasMessage_eq_false (h : RunnerHistory code handles written machine) :
    machine.hasMessage = false := by
  induction h with
  | initial => rfl
  | started hopen _ hstate _ hreturns ih =>
      obtain ⟨_, _, hsent⟩ := RunnerCall.sent_of_returnsWith hstate ih hreturns
      exact hsent.hasMessage
  | bytesReceived data _ _ hreturns ih =>
      rcases RunnerCall.turn_of_returnsWith ih hreturns with hunread |
        ⟨_, _, _, _, _, _, hsent⟩
      · exact hunread.hasMessage
      · exact hsent.hasMessage
  | bytesWritten count _ ih => exact ih

end RunnerHistory

namespace GenerateStateMachine

variable {info : ProtocolInfo} {agent : AgentName} {code : StateMachineCode}

theorem info_eq_of_reader {read : ReadTransitionInfo} {found : MessageReader}
    (h : reader read = some found) : found.info = read := by
  rw [reader] at h
  split at h
  · obtain rfl := Option.some.inj h
    rfl
  · contradiction

theorem info_eq_of_writer {written : WriteTransitionInfo}
    {found : MessageWriter} (h : writer written = some found) :
    found.info = written := by
  rw [writer] at h
  split at h
  · obtain rfl := Option.some.inj h
    rfl
  · contradiction

theorem info_of_reader (h : generate info agent = some code)
    {reader : MessageReader} (hmem : reader ∈ code.readers) :
    reader.info ∈ info.readTransitions ∧ reader.info.agent = agent := by
  obtain ⟨readers, hreaders, h⟩ := Option.bind_eq_some_iff.mp h
  obtain ⟨writers, _, h⟩ := Option.bind_eq_some_iff.mp h
  obtain rfl := Option.some.inj h
  obtain ⟨hmem, hagent⟩ := List.mem_filter.mp hmem
  obtain ⟨found, hfound, hreader⟩ := MapM.exists_of_mem hreaders hmem
  exact ⟨info_eq_of_reader hreader ▸ hfound, of_decide_eq_true hagent⟩

theorem info_of_writer (h : generate info agent = some code)
    {writer : MessageWriter} (hmem : writer ∈ code.writers) :
    writer.info ∈ info.writeTransitions ∧ writer.info.agent = agent := by
  obtain ⟨readers, _, h⟩ := Option.bind_eq_some_iff.mp h
  obtain ⟨writers, hwriters, h⟩ := Option.bind_eq_some_iff.mp h
  obtain rfl := Option.some.inj h
  obtain ⟨hmem, hagent⟩ := List.mem_filter.mp hmem
  obtain ⟨found, hfound, hwriter⟩ := MapM.exists_of_mem hwriters hmem
  exact ⟨info_eq_of_writer hwriter ▸ hfound, of_decide_eq_true hagent⟩

variable {description : ProtocolDescription} {protocol : Protocol}

end GenerateStateMachine

section Follows

variable {description : ProtocolDescription} {protocol : Protocol}
  {agent : AgentName} {code : StateMachineCode}
  {handles : RunnerHandler code → Prop}
  (hanalyze : Analyze.analyze description = some protocol)
  (hcode : GenerateStateMachine.generate (.collectTransitions protocol) agent =
    some code)

include hanalyze hcode

end Follows

def pingMessage (name : Octets) (whenState thenState agent : String)
    (piece : Octets) : Octets × Message :=
  (name, ⟨name, .mk whenState none, .mk thenState none, .mk agent none, [],
    [.tokenSequence ⟨[.stringLiteral piece], none, none⟩]⟩)

/-- The client asks `P` and is answered `R`, or quits with `Q`. -/
def pingDescription : ProtocolDescription :=
  ⟨[pingMessage [112] "Open" "Asked" "Client" [80],
    pingMessage [113] "Open" "Closed" "Client" [81],
    pingMessage [114] "Asked" "Open" "Server" [82]], by decide⟩

theorem analyze_pingDescription :
    Analyze.analyze pingDescription = some RunnerCall.pingProtocol := by
  have hread : ∀ piece : Octets, PartsToReadActions.partsToReadActions
      [.tokenSequence ⟨[.stringLiteral piece], none, none⟩] =
        some [.readStaticOctets piece] := by
    intro piece
    simp [PartsToReadActions.partsToReadActions,
      PartsToReadActions.tokenSequence,
      PartsToReadActions.individualTokenActions,
      TokenSequence.embeddedTerminator, Action.applyEscape]
  have hwrite : ∀ piece : Octets, PartsToWriteActions.partsToWriteActions
      [.tokenSequence ⟨[.stringLiteral piece], none, none⟩] =
        some [.writeStaticOctets piece] := by
    intro piece
    simp [PartsToWriteActions.partsToWriteActions,
      PartsToWriteActions.tokenSequence,
      PartsToWriteActions.individualTokenAction,
      TokenSequence.embeddedTerminator, Action.applyEscape]
  simp [Analyze.analyze, Analyze.analyzeAgent, Analyze.analyzeTransitions,
    Analyze.analyzeMessage, Analyze.analyzeReadMessage,
    Analyze.analyzeWriteMessage, pingDescription, pingMessage, hread, hwrite]
  rfl

end NetworkProtocolDsl
