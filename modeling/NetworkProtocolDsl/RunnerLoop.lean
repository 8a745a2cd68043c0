/-
The dispatch loop of the emitted runner.

A message that leads to a state with an output is taken, answered and gone
after one turn.  One that leads to any other state is left pending by every
turn.
-/
import NetworkProtocolDsl.GeneratedRunner
import NetworkProtocolDsl.SendTermination

namespace NetworkProtocolDsl

open Run

namespace ReceiveCall

variable {code : StateMachineCode}

/-- A pending message is held by the state it leads to, and the parsers that
are tried are those of the machine. -/
structure PendingHeld (code : StateMachineCode) (call : ReceiveCall) :
    Prop where
  held : call.machine.hasMessage = true →
    ∃ message, call.machine.pending call.machine.messageState = some message
  target : call.machine.hasMessage = true →
    call.machine.messageState ∈ code.readers.map (·.info.thenState)
  tried : ∀ reader later parse, call.point = .trying reader later parse →
    ∀ other ∈ reader :: later, other ∈ code.readers

/-- The end of the call keeps the message. -/
theorem PendingHeld.finish {call : ReceiveCall} (h : PendingHeld code call)
    (totalConsumed : Nat) (anyParserProgressed : Bool) :
    PendingHeld code (call.finish totalConsumed anyParserProgressed) := by
  have htried : ∀ reader later parse, ReceivePoint.returned totalConsumed =
      .trying reader later parse → ∀ other ∈ reader :: later,
        other ∈ code.readers := by
    intro _ _ _ hpoint
    contradiction
  rw [ReceiveCall.finish]
  split
  · exact ⟨h.held, h.target, htried⟩
  · exact ⟨h.held, h.target, htried⟩

theorem PendingHeld.start {machine : GeneratedStateMachine}
    (hnone : machine.hasMessage = false) (data : Octets) :
    PendingHeld code (ReceiveCall.start code machine data) := by
  have hmachine : ∀ {point : ReceivePoint} {readers : List MessageReader},
      (∀ reader later parse, point = .trying reader later parse →
        ∀ other ∈ reader :: later, other ∈ code.readers) →
      PendingHeld code ⟨machine, data, readers, point⟩ := by
    intro point readers htried
    refine ⟨fun h => ?_, fun h => ?_, htried⟩ <;>
      exact absurd (hnone.symm.trans h) (by decide)
  rw [ReceiveCall.start]
  split
  · refine hmachine ?_
    intro _ _ _ hpoint
    contradiction
  · split
    · refine PendingHeld.finish (hmachine ?_) 0 false
      intro _ _ _ hpoint
      contradiction
    · rename_i reader later hreaders
      refine hmachine ?_
      intro _ _ _ hpoint other hother
      obtain ⟨rfl, rfl, _⟩ := ReceivePoint.trying.inj hpoint
      rw [← hreaders] at hother
      exact (List.mem_filter.mp hother).1

theorem PendingHeld.settle {call : ReceiveCall} (h : PendingHeld code call)
    {reader : MessageReader} {later : List MessageReader} {parse : ParseCall}
    (hpoint : call.point = .trying reader later parse)
    (status : ParseStatus) :
    PendingHeld code (call.settle reader later parse status) := by
  have htried := h.tried reader later parse hpoint
  have hother : ∀ {machine : GeneratedStateMachine} {point : ReceivePoint},
      machine.hasMessage = call.machine.hasMessage →
      machine.messageState = call.machine.messageState →
      machine.pending = call.machine.pending →
      (∀ reader later parse, point = .trying reader later parse →
        ∀ other ∈ reader :: later, other ∈ code.readers) →
      PendingHeld code { call with machine := machine, point := point } := by
    intro machine point hhas hstate hpending htried
    refine ⟨?_, ?_, htried⟩
    · simpa only [hhas, hstate, hpending] using h.held
    · simpa only [hhas, hstate] using h.target
  have hstill : ∀ reader later' parse, call.point = .trying reader later' parse
      → ∀ other ∈ reader :: later', other ∈ code.readers := h.tried
  cases status with
  | complete =>
      simp only [ReceiveCall.settle]
      split
      · refine hother rfl rfl rfl ?_
        intro _ _ _ hthrown
        contradiction
      · refine PendingHeld.finish ?_ _ _
        refine ⟨?_, ?_, hstill⟩
        · intro _
          exact ⟨_, if_pos rfl⟩
        · intro _
          exact List.mem_map.mpr ⟨reader, htried reader List.mem_cons_self, rfl⟩
  | needMoreData =>
      simp only [ReceiveCall.settle]
      refine PendingHeld.finish ?_ _ _
      exact hother rfl rfl rfl hstill
  | error =>
      simp only [ReceiveCall.settle]
      split
      · rename_i next rest
        refine hother rfl rfl rfl ?_
        intro _ _ _ hnext other hmem
        obtain ⟨rfl, rfl, _⟩ := ReceivePoint.trying.inj hnext
        exact htried other (List.mem_cons_of_mem reader hmem)
      · refine PendingHeld.finish ?_ _ _
        exact hother rfl rfl rfl hstill

/-- What a call of the machine keeps. -/
theorem PendingHeld.step {call call' : ReceiveCall}
    (h : PendingHeld code call) (hstep : call.step = .ok call') :
    PendingHeld code call' := by
  rw [ReceiveCall.step] at hstep
  split at hstep
  · rename_i reader later parse hpoint
    split at hstep
    · obtain rfl := Except.ok.inj hstep
      exact h.settle hpoint _
    · cases hparse : parse.step reader.stages with
      | error fault =>
          rw [hparse] at hstep
          contradiction
      | ok parse' =>
          rw [hparse] at hstep
          obtain rfl := Except.ok.inj hstep
          refine ⟨h.held, h.target, ?_⟩
          intro _ _ _ hnext
          obtain ⟨rfl, rfl, _⟩ := ReceivePoint.trying.inj hnext
          exact h.tried _ _ parse hpoint
  · obtain rfl := Except.ok.inj hstep
    exact h
  · obtain rfl := Except.ok.inj hstep
    exact h

end ReceiveCall

namespace RunnerCall

variable {code : StateMachineCode} {handler : RunnerHandler code}

/-- A call that has returned has left no message. -/
def NoneLeft (call : RunnerCall) : Prop :=
  ∀ consumed, call.point = .returned consumed →
    call.machine.hasMessage = false

/-- An output is sent or dropped, the call goes on either way. -/
theorem dispatchOutput_point (machine : GeneratedStateMachine)
    (consumed : Nat) {state : String} (output : StateOutput code state)
    (total : Nat) :
    (dispatchOutput code machine consumed output).point ≠ .returned total := by
  cases output with
  | sent _ _ _ => exact RunnerPoint.noConfusion
  | unsent _ _ _ => exact RunnerPoint.noConfusion

theorem NoneLeft.step {call call' : RunnerCall} (h : NoneLeft call)
    (hstep : step code handler call = .ok call') : NoneLeft call' := by
  intro consumed hpoint
  rw [RunnerCall.step] at hstep
  split at hstep
  · split at hstep
    · obtain rfl := Except.ok.inj hstep
      contradiction
    · obtain rfl := Except.ok.inj hstep
      contradiction
    · obtain ⟨_, _, rfl⟩ := map_eq_ok hstep
      contradiction
  · rename_i consumed' hhead
    split at hstep
    · rw [dispatchMessage] at hstep
      split at hstep
      · split at hstep
        · contradiction
        · obtain rfl := Except.ok.inj hstep
          exact absurd hpoint (dispatchOutput_point _ _ _ _)
      · obtain rfl := Except.ok.inj hstep
        rw [hhead] at hpoint
        contradiction
    · rename_i hmessage
      obtain rfl := Except.ok.inj hstep
      simpa using hmessage
  · split at hstep
    · obtain rfl := Except.ok.inj hstep
      contradiction
    · obtain ⟨_, _, rfl⟩ := map_eq_ok hstep
      contradiction
  · obtain rfl := Except.ok.inj hstep
    exact h consumed hpoint
  · obtain rfl := Except.ok.inj hstep
    exact h consumed hpoint

/-- Between the calls of the runner there is no message. -/
theorem Reachable.hasMessage_eq_false {machine : GeneratedStateMachine}
    (h : Reachable code machine) : machine.hasMessage = false := by
  have hreturned : ∀ {handler : RunnerHandler code} {call : RunnerCall}
      {machine : GeneratedStateMachine}, NoneLeft call →
        ReturnsWith code handler call machine →
          machine.hasMessage = false := by
    rintro handler call machine hcall ⟨consumed, hreached⟩
    have hlast := hreached.invariant (fun _ _ => NoneLeft.step) hcall
    exact hlast consumed rfl
  induction h with
  | initial => rfl
  | started handler hopen _ hreturns _ =>
      refine hreturned ?_ hreturns
      exact fun _ hpoint => absurd hpoint (dispatchOutput_point _ _ _ _)
  | bytesReceived handler data _ hreturns _ =>
      refine hreturned ?_ hreturns
      intro _ hpoint
      contradiction
  | bytesWritten count _ ih => exact ih

variable (code handler) in
/-- The runner waits for the machine. -/
theorem reaches_receiving (machine : GeneratedStateMachine)
    {receive receive' : ReceiveCall}
    (h : Reaches ReceiveCall.step receive receive') :
    Reaches (step code handler) ⟨machine, .receiving receive⟩
      ⟨machine, .receiving receive'⟩ := by
  refine Reaches.map (fun receive =>
    RunnerCall.mk machine (.receiving receive)) ?_ h
  intro s t hstep
  cases hpoint : s.point with
  | trying reader later parse =>
      refine Or.inr ?_
      simp only [step, hpoint, hstep, Except.map]
  | returned _ | thrown _ =>
      rw [ReceiveCall.step, hpoint] at hstep
      exact Or.inl (Except.ok.inj hstep).symm

variable (code handler) in
/-- The runner waits for the send method. -/
theorem reaches_sending (machine : GeneratedStateMachine) (consumed : Nat)
    (writer : MessageWriter) {send send' : SendCall}
    (h : Reaches (SendCall.step writer.stages writer.info.thenState) send
      send') :
    Reaches (step code handler) ⟨machine, .sending consumed writer send⟩
      ⟨machine, .sending consumed writer send'⟩ := by
  refine Reaches.map (fun send =>
    RunnerCall.mk machine (.sending consumed writer send)) ?_ h
  intro s t hstep
  cases hpoint : s.point with
  | returned =>
      rw [SendCall.step, hpoint] at hstep
      exact Or.inl (Except.ok.inj hstep).symm
  | head | nextChunk | escaping _ _ _ _ | gotChunk _ =>
      refine Or.inr ?_
      simp only [step, hpoint, hstep, Except.map]

/-- The agent writes a message in the state. -/
def HasOutput (code : StateMachineCode) (state : String) : Prop :=
  ∃ writer, writer ∈ code.writersAt state

/-- No escape loop of a serializer stands still. -/
def EscapesEnd (code : StateMachineCode) : Prop :=
  ∀ writer ∈ code.writers, ∀ stage ∈ writer.stages, stage.EscapeEnds

theorem mem_dispatchCases {state : String} :
    state ∈ code.dispatchCases ↔
      state ∈ code.readers.map (·.info.thenState) ∧ HasOutput code state := by
  rw [StateMachineCode.dispatchCases, List.mem_filter, decide_eq_true_iff,
    List.isEmpty_eq_false_iff_exists_mem, HasOutput]

variable (handler) in
/-- A message with an output is dispatched in one turn of the loop. -/
theorem loopHead_returns (machine : GeneratedStateMachine) (consumed : Nat)
    (hmessage : machine.hasMessage = false ∨
      machine.messageState ∈ code.dispatchCases ∧
        (∃ message, machine.pending machine.messageState = some message) ∧
        EscapesEnd code) :
    ∃ machine', ReturnsWith code handler ⟨machine, .loopHead consumed⟩
      machine' := by
  have hdone : ∀ machine : GeneratedStateMachine, machine.hasMessage = false →
      Reaches (step code handler) ⟨machine, .loopHead consumed⟩
        ⟨machine, .returned consumed⟩ := by
    intro machine hnone
    refine Reaches.single ?_
    simp only [step, hnone, Bool.false_eq_true, if_false]
  cases hhas : machine.hasMessage with
  | false => exact ⟨machine, consumed, hdone machine hhas⟩
  | true =>
      obtain ⟨hcase, ⟨message, hheld⟩, hends⟩ :=
        hmessage.resolve_left (by rw [hhas]; decide)
      let taken := machine.takeMessage machine.messageState
      have hdispatch : step code handler ⟨machine, .loopHead consumed⟩ =
          .ok (dispatchOutput code taken consumed
            (handler.on machine.messageState hcase message)) := by
        simp only [step, hhas, if_true, dispatchMessage, dif_pos hcase, hheld,
          taken]
      generalize handler.on machine.messageState hcase message = output
        at hdispatch
      cases output with
      | unsent name leaves fields =>
          exact ⟨taken, consumed, Reaches.head hdispatch (hdone taken rfl)⟩
      | sent writer writes fields =>
          have hwriter : writer ∈ code.writers := (List.mem_filter.mp writes).1
          obtain ⟨last, hlast, hreturned⟩ := SendCall.start_returns
            writer.info.thenState (hends _ hwriter) fields machine.outputBuffer
            machine.currentState
          have hsent := reaches_sending code handler taken consumed writer hlast
          let after : GeneratedStateMachine :=
            { taken with
              currentState := last.currentState
              outputBuffer := last.outputBuffer }
          have hback : step code handler
              ⟨taken, .sending consumed writer last⟩ =
                .ok ⟨after, .loopHead consumed⟩ := by
            simp only [step, hreturned, after]
          exact ⟨after, consumed, Reaches.head hdispatch (hsent.trans
            (Reaches.head hback (hdone after rfl)))⟩

/-- Once the machine has taken the bytes, `on_bytes_received` of the runner
returns if there is no message, or one that leads to a state with an output,
and, as far as escape loops end, only then. -/
theorem returns_iff_hasOutput (code : StateMachineCode)
    (handler : RunnerHandler code) {machine : GeneratedStateMachine}
    (hreachable : Reachable code machine) (data : Octets)
    {received : ReceiveCall} {consumed : Nat}
    (hreceived : Reaches ReceiveCall.step
      (ReceiveCall.start code machine data) received)
    (hpoint : received.point = .returned consumed) :
    ((received.machine.hasMessage = false ∨
        HasOutput code received.machine.messageState ∧ EscapesEnd code) →
      ∃ machine', ReturnsWith code handler (start code machine data)
        machine') ∧
    ((∃ machine', ReturnsWith code handler (start code machine data)
        machine') →
      received.machine.hasMessage = false ∨
        HasOutput code received.machine.messageState) := by
  have hheld := hreceived.invariant (fun _ _ => ReceiveCall.PendingHeld.step)
    (ReceiveCall.PendingHeld.start hreachable.hasMessage_eq_false data)
  have hhead : Reaches (step code handler) (start code machine data)
      ⟨received.machine, .loopHead consumed⟩ := by
    refine (reaches_receiving code handler machine hreceived).trans
      (Reaches.single ?_)
    simp only [step, hpoint]
  constructor
  · intro hmessage
    obtain ⟨machine', n, hreturned⟩ :=
        loopHead_returns handler received.machine consumed <| by
      cases hhas : received.machine.hasMessage with
      | false => exact Or.inl rfl
      | true =>
          obtain ⟨houtput, hends⟩ :=
            hmessage.resolve_left (by rw [hhas]; decide)
          exact Or.inr ⟨mem_dispatchCases.mpr ⟨hheld.target hhas, houtput⟩,
            hheld.held hhas, hends⟩
    exact ⟨machine', n, hhead.trans hreturned⟩
  · rintro ⟨machine', n, hreturned⟩
    by_contra hstuck
    rw [not_or, Bool.not_eq_false] at hstuck
    obtain ⟨hhas, hnone⟩ := hstuck
    have hspin : step code handler ⟨received.machine, .loopHead consumed⟩ =
        .ok ⟨received.machine, .loopHead consumed⟩ := by
      have hcase : received.machine.messageState ∉ code.dispatchCases :=
        fun hmem => hnone (mem_dispatchCases.mp hmem).2
      simp only [step, hhas, if_true, dispatchMessage, dif_neg hcase]
    have hsame := Reaches.eq_of_fixed (s := ⟨machine', .returned n⟩)
      (by rfl) (Reaches.of_fixed hspin hhead hreturned)
    exact RunnerPoint.noConfusion (congrArg point hsame)

/-- A server that reads `P` and writes `R`, or reads `Q` and closes. -/
def ping : MessageReader :=
  ⟨⟨[112], "Open", "Asked", .server, [], [.readStaticOctets [80]]⟩,
    [.matchStaticOctets 1 [80, 0]], rfl⟩

def quit : MessageReader :=
  ⟨⟨[113], "Open", "Closed", .server, [], [.readStaticOctets [81]]⟩,
    [.matchStaticOctets 1 [81, 0]], rfl⟩

def pong : MessageWriter :=
  ⟨⟨[114], "Asked", "Open", .server, [], [.writeStaticOctets [82]]⟩,
    [.chunk (.assignLiteral [82, 0])], rfl⟩

def pingCode : StateMachineCode where
  readers := [ping, quit]
  writers := [pong]
  unsent := [("Open", [112]), ("Open", [113])]

def pingProtocol : Protocol where
  client := ⟨[
    ("Open", ⟨[
      ([112], (.writeTransition [] [.writeStaticOctets [80]], "Asked")),
      ([113], (.writeTransition [] [.writeStaticOctets [81]], "Closed"))]⟩),
    ("Asked", ⟨[
      ([114], (.readTransition [] [.readStaticOctets [82]], "Open"))]⟩),
    ("Closed", {})]⟩
  server := ⟨[
    ("Open", ⟨[
      ([112], (.readTransition [] [.readStaticOctets [80]], "Asked")),
      ([113], (.readTransition [] [.readStaticOctets [81]], "Closed"))]⟩),
    ("Asked", ⟨[
      ([114], (.writeTransition [] [.writeStaticOctets [82]], "Open"))]⟩),
    ("Closed", {})]⟩

theorem pingCode_dispatchCases : pingCode.dispatchCases = ["Asked"] :=
  rfl

/-- The handler that answers `R`. -/
def pingHandler : RunnerHandler pingCode where
  on := fun state hstate _ =>
    .sent pong
      (by
        rw [pingCode_dispatchCases, List.mem_singleton] at hstate
        rw [hstate]
        exact List.mem_cons_self)
      ⟨fun _ => [], fun _ => 0, fun _ => 0⟩
  onOpen := fun hopen => absurd rfl hopen

theorem returns_iff_hasOutput_ping :
    ∃ machine, ReturnsWith pingCode pingHandler (start pingCode {} [80])
      machine := by
  have hreceived : ∃ received : ReceiveCall, ∃ consumed,
      Reaches ReceiveCall.step (ReceiveCall.start pingCode {} [80]) received ∧
        received.point = .returned consumed ∧
        received.machine.messageState = "Asked" :=
    ⟨_, _, Reaches.head rfl (Reaches.head rfl (Reaches.head rfl
      (Reaches.single rfl))), rfl, rfl⟩
  obtain ⟨received, consumed, hreached, hpoint, hstate⟩ := hreceived
  refine (returns_iff_hasOutput pingCode pingHandler .initial [80] hreached
    hpoint).1 (Or.inr ⟨⟨pong, ?_⟩, ?_⟩)
  · rw [hstate]
    exact List.mem_cons_self
  · intro writer hwriter stage hstage
    rw [List.mem_singleton.mp hwriter] at hstage
    rw [List.mem_singleton.mp hstage]
    trivial

/-- The message that closes the connection is dispatched for ever. -/
theorem quit_is_dispatched_for_ever :
    ¬ ∃ machine, ReturnsWith pingCode pingHandler (start pingCode {} [81])
      machine := by
  rintro ⟨machine, consumed, hreturned⟩
  have hloops : ∃ loop, Reaches (step pingCode pingHandler)
      (start pingCode {} [81]) loop ∧
        step pingCode pingHandler loop = .ok loop ∧
        loop.point = .loopHead 1 :=
    ⟨_, Reaches.head rfl (Reaches.head rfl (Reaches.head rfl (Reaches.head rfl
      (Reaches.head rfl (Reaches.head rfl (Reaches.single rfl)))))), rfl, rfl⟩
  obtain ⟨loop, hloop, hspin, hpoint⟩ := hloops
  have hsame := Reaches.eq_of_fixed (s := ⟨machine, .returned consumed⟩)
    (by rfl) (Reaches.of_fixed hspin hloop hreturned)
  rw [hsame] at hpoint
  contradiction

end RunnerCall

end NetworkProtocolDsl
