/-
When the emitted machine notices a protocol error.

The flag is set at the end of `on_bytes_received` where no byte was counted.
With several transitions the bytes of a parser that fails are not counted, with
a single one they are: an error behind the first bytes of a call is lost.
-/
import NetworkProtocolDsl.GeneratedRunner
import NetworkProtocolDsl.MessageRecognition
import NetworkProtocolDsl.ParserStages

namespace NetworkProtocolDsl

open Run

/-- The parser of the message reports an error before it took any byte. -/
def MessageReader.FailsAtOnce (reader : MessageReader) (parser : MessageParser)
    (data : Octets) : Prop :=
  ∃ call, Reaches (ParseCall.step reader.stages) (.start parser data) call ∧
    call.point = .returned .error ∧ call.totalConsumed = 0

namespace ReceiveCall

/-- In this call the parser was tried and reported the status. -/
def Reported (call : ReceiveCall) (reader : MessageReader)
    (status : ParseStatus) : Prop :=
  ∃ later parse, parse.point = .returned status ∧
    ∃ tried, Reaches step call tried ∧
      tried.point = .trying reader later parse

/-- A parser was tried, and all that were tried reported an error. -/
structure AllFail (call : ReceiveCall) : Prop where
  tried : ∃ reader status, call.Reported reader status
  failed : ∀ reader status, call.Reported reader status → status = .error

/-- The call has returned or an exception has left it. -/
def Ended (call : ReceiveCall) : Prop :=
  ∀ reader later parse, call.point ≠ .trying reader later parse

end ReceiveCall

/-- A call of `on_bytes_received` that has ended. -/
structure ReceivedCall (code : StateMachineCode) where
  before : GeneratedStateMachine
  data : Octets
  last : ReceiveCall
  reached : Reaches ReceiveCall.step (.start code before data) last
  ended : last.Ended

namespace ReceivedCall

variable {code : StateMachineCode}

def first (call : ReceivedCall code) : ReceiveCall :=
  .start code call.before call.data

/-- The state has several transitions, or the parser of the only one fails
before it took a byte. -/
def CountsNothing (call : ReceivedCall code) : Prop :=
  ∀ reader, code.readersAt call.before.currentState = [reader] →
    reader.FailsAtOnce (call.before.parsers reader.info.messageName) call.data

end ReceivedCall

/-- The machine after some of its methods were called, with the calls of
`on_bytes_received` among them. -/
inductive MachineHistory (code : StateMachineCode) :
    List (ReceivedCall code) → GeneratedStateMachine → Prop where
  | initial : MachineHistory code [] (.initial code)
  | bytesReceived {calls : List (ReceivedCall code)}
      (call : ReceivedCall code) (h : MachineHistory code calls call.before) :
      MachineHistory code (calls ++ [call]) call.last.machine
  | messageTaken {calls : List (ReceivedCall code)}
      {machine : GeneratedStateMachine} (state : String)
      (h : MachineHistory code calls machine) :
      MachineHistory code calls (machine.takeMessage state)
  | messageSent {calls : List (ReceivedCall code)}
      {machine : GeneratedStateMachine} {writer : MessageWriter}
      (hwriter : writer ∈ code.writers) (fields : MessageFields)
      {send : SendCall}
      (hsend : Reaches (SendCall.step writer.stages writer.info.thenState)
        (.start fields machine.outputBuffer machine.currentState) send)
      (hreturned : send.point = .returned)
      (h : MachineHistory code calls machine) :
      MachineHistory code calls { machine with
        currentState := send.currentState
        outputBuffer := send.outputBuffer }
  | bytesWritten {calls : List (ReceivedCall code)}
      {machine : GeneratedStateMachine} (count : Nat)
      (h : MachineHistory code calls machine) :
      MachineHistory code calls (machine.bytesWritten count)

namespace ReceiveCall

variable {code : StateMachineCode} {before : GeneratedStateMachine}
  {data : Octets} {s t : ReceiveCall}

/-- Where a call stands that has tried the parsers before `reader`. -/
structure Tries (code : StateMachineCode) (before : GeneratedStateMachine)
    (data : Octets) (call : ReceiveCall) (reader : MessageReader)
    (later : List MessageReader) (parse : ParseCall) : Prop where
  point : call.point = .trying reader later parse
  given : call.data = data
  nonempty : data ≠ []
  readers : call.readers = code.readersAt before.currentState
  noError : call.machine.hasError = false
  tried : ∃ earlier parser, call.readers = earlier ++ reader :: later ∧
    Reaches (ParseCall.step reader.stages) (.start parser data) parse ∧
    (earlier = [] → parser = before.parsers reader.info.messageName)

/-- Where a call stands that has ended because every parser failed. -/
structure Fails (code : StateMachineCode) (before : GeneratedStateMachine)
    (data : Octets) (call : ReceiveCall) : Prop where
  ended : call.Ended
  flag : call.machine.hasError = true ↔
    ∀ reader, code.readersAt before.currentState = [reader] →
      reader.FailsAtOnce (before.parsers reader.info.messageName) data

/-- How a call goes on: it tries a parser, all have failed, one has not, or
none was tried. -/
inductive Progress (code : StateMachineCode) (before : GeneratedStateMachine)
    (data : Octets) (call : ReceiveCall) : Prop where
  | tries {reader : MessageReader} {later : List MessageReader}
      {parse : ParseCall} (h : Tries code before data call reader later parse)
  | fails (h : Fails code before data call)
  | answered {reader : MessageReader} {status : ParseStatus}
      (hended : call.Ended) (hstatus : status ≠ .error)
      (hreported : (start code before data).Reported reader status)
  | refused (hended : call.Ended) (heq : call = start code before data)

theorem step_of_ended (h : s.Ended) : step s = .ok s := by
  obtain ⟨machine, data, readers, point⟩ := s
  cases point with
  | trying reader later parse => exact absurd rfl (h reader later parse)
  | returned _ | thrown _ => rfl

theorem ended_finish (call : ReceiveCall) (consumed : Nat) (progressed : Bool) :
    (call.finish consumed progressed).Ended :=
  fun _ _ _ => ReceivePoint.noConfusion

theorem start_of_readers {reader : MessageReader}
    {later : List MessageReader}
    (hgoes : ¬ (data = [] ∨ before.isClosed ∨ before.hasError))
    (hreaders : code.readersAt before.currentState = reader :: later) :
    start code before data = ⟨before, data, reader :: later,
      .trying reader later
        (.start (before.parsers reader.info.messageName) data)⟩ := by
  rw [start, if_neg hgoes]
  simp only [hreaders]

theorem progress_start (code : StateMachineCode)
    (before : GeneratedStateMachine) (data : Octets) :
    Progress code before data (start code before data) := by
  by_cases hstops : data = [] ∨ before.isClosed ∨ before.hasError
  · refine .refused ?_ rfl
    rw [start, if_pos hstops]
    exact fun _ _ _ => ReceivePoint.noConfusion
  · cases hreaders : code.readersAt before.currentState with
    | nil =>
        refine .refused ?_ rfl
        rw [start, if_neg hstops]
        simp only [hreaders]
        exact ended_finish _ 0 false
    | cons reader later =>
        have hstart := start_of_readers hstops hreaders
        rw [not_or, not_or, Bool.not_eq_true, Bool.not_eq_true] at hstops
        have htries : Tries code before data (start code before data) reader
            later (.start (before.parsers reader.info.messageName) data) := by
          rw [hstart]
          exact ⟨rfl, rfl, hstops.1, hreaders.symm, hstops.2.2, [], _, rfl,
            Reaches.refl _, fun _ => rfl⟩
        exact .tries htries

namespace Tries

variable {reader : MessageReader} {later : List MessageReader}
  {parse : ParseCall}

/-- The last parser that fails decides on the flag. -/
theorem fails (h : Tries code before data s reader [] parse)
    (herror : parse.point = .returned .error) :
    Fails code before data (s.settle reader [] parse .error) := by
  obtain ⟨earlier, parser, hreaders, hparse, hfirst⟩ := h.tried
  have hnone : ∀ machine : GeneratedStateMachine, machine.hasError = false →
      ∀ n, ((({ s with machine := machine } : ReceiveCall).finish n
        false).machine.hasError = true ↔ n = 0) := by
    intro machine hmachine n
    have hdata : s.data ≠ [] := h.given ▸ h.nonempty
    by_cases hn : n = 0
    · simp [finish, hdata, hn]
    · simp [finish, hn, hmachine]
  refine ⟨ended_finish _ _ _, (hnone (s.machine.setParser
    reader.info.messageName parse.parser) h.noError _).trans ?_⟩
  rw [← h.readers, hreaders]
  cases earlier with
  | nil =>
      obtain rfl := hfirst rfl
      rw [List.nil_append, if_pos List.length_singleton]
      constructor
      · intro hzero other hother
        obtain rfl := List.singleton_inj.mp hother
        exact ⟨parse, hparse, herror, hzero⟩
      · intro hatOnce
        obtain ⟨call, hcall, hreturned, hzero⟩ := hatOnce reader rfl
        rw [← ParseCall.returned_unique hreturned herror hcall hparse] at hzero
        exact hzero
  | cons first earlier =>
      rw [if_neg (by simp)]
      refine iff_of_true rfl fun other hother => ?_
      simp at hother

/-- A turn of a call that tries a parser. -/
theorem step (h : Tries code before data s reader later parse)
    (hreached : Reaches ReceiveCall.step (start code before data) s)
    (hstep : ReceiveCall.step s = .ok t) : Progress code before data t := by
  obtain ⟨earlier, parser, hreaders, hparse, hfirst⟩ := h.tried
  rw [ReceiveCall.step, h.point] at hstep
  dsimp only at hstep
  split at hstep
  · rename_i status hstatus
    obtain rfl := Except.ok.inj hstep
    have hreported : (start code before data).Reported reader status :=
      ⟨later, parse, hstatus, s, hreached, h.point⟩
    cases status with
    | complete =>
        refine .answered ?_ ParseStatus.noConfusion hreported
        rw [settle]
        split
        · exact fun _ _ _ => ReceivePoint.noConfusion
        · exact ended_finish _ _ _
    | needMoreData =>
        exact .answered (ended_finish _ _ _) ParseStatus.noConfusion hreported
    | error =>
        cases later with
        | nil => exact .fails (h.fails hstatus)
        | cons next rest =>
            refine .tries ⟨rfl, h.given, h.nonempty, h.readers, h.noError,
              earlier ++ [reader], (s.machine.setParser
                reader.info.messageName parse.parser).parsers
                  next.info.messageName, ?_, ?_, ?_⟩
            · exact hreaders.trans (by simp)
            · rw [← h.given]
              exact Reaches.refl _
            · intro hnil
              simp at hnil
  · obtain ⟨parse', hparse', rfl⟩ := map_eq_ok hstep
    exact .tries ⟨rfl, h.given, h.nonempty, h.readers, h.noError, earlier,
      parser, hreaders, hparse.trans (Reaches.single hparse'), hfirst⟩

end Tries

theorem progress_of_reaches (h : Reaches step (start code before data) s) :
    Progress code before data s := by
  induction h with
  | refl => exact progress_start code before data
  | @tail s t hreached hstep ih =>
      cases ih with
      | tries htries => exact htries.step hreached hstep
      | fails hfails =>
          rw [step_of_ended hfails.ended] at hstep
          cases hstep
          exact .fails hfails
      | answered hended hstatus hreported =>
          rw [step_of_ended hended] at hstep
          cases hstep
          exact .answered hended hstatus hreported
      | refused hended heq =>
          rw [step_of_ended hended] at hstep
          cases hstep
          exact .refused hended heq

/-- Where every parser that is tried fails, the flag tells of it unless the
only one took bytes before it failed. -/
theorem hasError_iff_of_allFail
    (hreached : Reaches step (start code before data) s) (hended : s.Ended)
    (h : (start code before data).AllFail) :
    s.machine.hasError = true ↔
      ∀ reader, code.readersAt before.currentState = [reader] →
        reader.FailsAtOnce (before.parsers reader.info.messageName) data := by
  cases progress_of_reaches hreached with
  | tries htries => exact absurd htries.point (hended _ _ _)
  | fails hfails => exact hfails.flag
  | answered _ hstatus hreported =>
      exact absurd (h.failed _ _ hreported) hstatus
  | refused hended heq =>
      obtain ⟨reader, status, later, parse, _, tried, htried, hpoint⟩ := h.tried
      rw [heq] at hended
      rw [Reaches.eq_of_fixed (step_of_ended hended) htried] at hpoint
      exact absurd hpoint (hended _ _ _)

/-- In a state with one transition all parsers fail if its parser does. -/
theorem allFail_of_single {reader : MessageReader} {parse : ParseCall}
    (hgoes : ¬ (data = [] ∨ before.isClosed ∨ before.hasError))
    (hreaders : code.readersAt before.currentState = [reader])
    (hparse : Reaches (ParseCall.step reader.stages)
      (.start (before.parsers reader.info.messageName) data) parse)
    (herror : parse.point = .returned .error) :
    (start code before data).AllFail := by
  refine ⟨⟨reader, .error, [], parse, herror,
    ⟨before, data, [reader], .trying reader [] parse⟩, ?_, rfl⟩, ?_⟩
  · rw [start_of_readers hgoes hreaders]
    exact reaches_trying hparse
  · rintro other status ⟨later, parse', hstatus, tried, htried, hpoint⟩
    cases progress_of_reaches htried with
    | @tries other' later' parse'' h =>
        obtain ⟨rfl, rfl, rfl⟩ := ReceivePoint.trying.inj
          (hpoint.symm.trans h.point)
        obtain ⟨earlier, parser, hsplit, hparse', hfirst⟩ := h.tried
        rw [h.readers, hreaders] at hsplit
        cases earlier with
        | nil =>
            obtain ⟨rfl, _⟩ := List.cons.inj hsplit
            rw [hfirst rfl] at hparse'
            exact ParseCall.status_unique hstatus herror hparse' hparse
        | cons first earlier => simp at hsplit
    | fails h => exact absurd hpoint (h.ended _ _ _)
    | answered hended _ _ => exact absurd hpoint (hended _ _ _)
    | refused hended _ => exact absurd hpoint (hended _ _ _)

/-- A call leaves the flag set. -/
theorem hasError_of_before (herror : before.hasError = true)
    (hreached : Reaches step (start code before data) s) :
    s.machine.hasError = true := by
  have hstart : start code before data = ⟨before, data,
      code.readersAt before.currentState, .returned 0⟩ := by
    rw [start, if_pos (Or.inr (Or.inr herror))]
  have hfixed : step (start code before data) =
      .ok (start code before data) := by
    rw [hstart]
    rfl
  rw [Reaches.eq_of_fixed hfixed hreached, hstart]
  exact herror

end ReceiveCall

namespace MachineHistory

variable {code : StateMachineCode} {calls : List (ReceivedCall code)}
  {machine : GeneratedStateMachine}

/-- No method takes the flag back. -/
theorem hasError_of_call (h : MachineHistory code calls machine) :
    ∀ call ∈ calls, call.last.machine.hasError = true →
      machine.hasError = true := by
  induction h with
  | initial => exact fun _ hmem => absurd hmem List.not_mem_nil
  | bytesReceived call _ ih =>
      intro other hmem herror
      rcases List.mem_append.mp hmem with hmem | hmem
      · exact ReceiveCall.hasError_of_before (ih other hmem herror)
          call.reached
      · rw [List.mem_singleton.mp hmem] at herror
        exact herror
  | messageTaken _ _ ih => exact ih
  | messageSent _ _ _ _ _ ih => exact ih
  | bytesWritten _ _ ih => exact ih

/-- In every use of a machine: a call in which all parsers fail sets the flag
exactly when the state has several transitions or the parser of the only one
took no byte, and from then on the flag is set. -/
theorem error_noticed_iff (h : MachineHistory code calls machine) :
    ∀ call ∈ calls, call.first.AllFail →
      (call.last.machine.hasError = true ↔ call.CountsNothing) ∧
        (call.CountsNothing → machine.hasError = true) := by
  intro call hmem hfail
  have hiff : call.last.machine.hasError = true ↔ call.CountsNothing :=
    ReceiveCall.hasError_iff_of_allFail call.reached call.ended hfail
  exact ⟨hiff, fun hcounts => h.hasError_of_call call hmem (hiff.mpr hcounts)⟩

/-- A server that reads `P` and then `Q`. -/
def twoPieces : MessageReader :=
  ⟨⟨[112], "Open", "Greeted", .server, [],
    [.readStaticOctets [80], .readStaticOctets [81]]⟩,
    [.matchStaticOctets 1 [80, 0], .matchStaticOctets 1 [81, 0]], rfl⟩

def twoPiecesCode : StateMachineCode where
  readers := [twoPieces]
  writers := []
  unsent := [("Open", [112])]

theorem twoPieces_code : GenerateStateMachine.generate (.collectTransitions
    (ReceiveCall.greetingProtocol [twoPieces])) .server =
      some twoPiecesCode :=
  rfl

theorem error_noticed_iff_first_byte :
    ∃ call : ReceivedCall twoPiecesCode,
      call.first.AllFail ∧ call.last.machine.hasError = true := by
  let call : ReceivedCall twoPiecesCode :=
    ⟨{}, [88], _, Reaches.head rfl (Reaches.single rfl),
      fun _ _ _ => ReceivePoint.noConfusion⟩
  have hfail : call.first.AllFail :=
    ReceiveCall.allFail_of_single (by decide) rfl (Reaches.single rfl) rfl
  have hcounts : call.CountsNothing := by
    intro reader hreader
    obtain rfl := List.singleton_inj.mp hreader
    exact ⟨_, Reaches.single rfl, rfl, rfl⟩
  have hnoticed := error_noticed_iff (.bytesReceived call .initial) call
    (by simp) hfail
  exact ⟨call, hfail, hnoticed.2 hcounts⟩

/-- After `P` the machine does not notice that there is no `Q`. -/
theorem error_behind_piece_unnoticed :
    ∃ code, GenerateStateMachine.generate (.collectTransitions
        (ReceiveCall.greetingProtocol [twoPieces])) .server = some code ∧
      ∃ call : ReceivedCall code,
        MachineHistory code [call] call.last.machine ∧
          call.first.AllFail ∧ call.last.machine.hasError = false := by
  let call : ReceivedCall twoPiecesCode :=
    ⟨{}, [80, 88], _,
      Reaches.head rfl (Reaches.head rfl (Reaches.single rfl)),
      fun _ _ _ => ReceivePoint.noConfusion⟩
  refine ⟨twoPiecesCode, twoPieces_code, call, ?_, ?_, rfl⟩
  · exact .bytesReceived call .initial
  · exact ReceiveCall.allFail_of_single (by decide) rfl
      (Reaches.head rfl (Reaches.single rfl)) rfl

end MachineHistory

end NetworkProtocolDsl
