/-
Which message the emitted machine recognises in a state with several.

The parsers are tried in their order.  One whose static piece does not match
gives way to the next, but one that has fewer bytes than its static piece waits
for more, whatever these bytes are.
-/
import NetworkProtocolDsl.DualActions
import NetworkProtocolDsl.GeneratedStateMachine
import NetworkProtocolDsl.SendMethod

namespace NetworkProtocolDsl

open Run CppLiteral OutputContext GenerateParser

namespace MessageReader

/-- The message starts with this static piece. -/
def StartsWith (reader : MessageReader) (octets : Octets) : Prop :=
  ∃ actions, reader.info.actions = .readStaticOctets octets :: actions

/-- The bytes are an encoding of the message: they start as it does, and its
own parser takes them all and finds these fields. -/
structure Encodes (reader : MessageReader) (bytes : Octets)
    (fields : List (String × FieldData)) : Prop where
  starts : ∃ octets, reader.StartsWith octets ∧ octets <+: bytes
  parsed : ∃ call, Reaches (ParseCall.step reader.stages)
      (ParseCall.start .reset bytes) call ∧
    call.point = .returned .complete ∧ call.totalConsumed = bytes.length ∧
    call.parser.takeData reader.info.data reader.info.actions = .ok fields

/-- The static pieces tell the two messages apart. -/
def Distinct (first second : MessageReader) : Prop :=
  ∃ s t, first.StartsWith s ∧ second.StartsWith t ∧ ¬ s <+: t ∧ ¬ t <+: s

theorem StartsWith.unique {reader : MessageReader} {s t : Octets}
    (hs : reader.StartsWith s) (ht : reader.StartsWith t) : s = t := by
  obtain ⟨_, hactions⟩ := hs
  obtain ⟨_, hactions'⟩ := ht
  rw [hactions] at hactions'
  simpa using (List.cons.inj hactions').1

/-- The bytes do not start as a message that is distinct from theirs. -/
theorem Distinct.mismatch {first second : MessageReader}
    (h : first.Distinct second) {t bytes : Octets}
    (ht : second.StartsWith t) (hbytes : t <+: bytes) :
    ∃ s, first.StartsWith s ∧ ¬ s <+: bytes := by
  obtain ⟨s, t', hs, ht', hno, hno'⟩ := h
  obtain rfl := ht.unique ht'
  refine ⟨s, hs, fun hprefix => ?_⟩
  rcases List.prefix_or_prefix_of_prefix hprefix hbytes with h | h
  · exact hno h
  · exact hno' h

/-- The first case matches the static piece. -/
theorem StartsWith.stages {reader : MessageReader} {octets : Octets}
    (h : reader.StartsWith octets) :
    ∃ array rest, constant octets = some array ∧
      reader.stages = .matchStaticOctets octets.length array :: rest := by
  obtain ⟨actions, hactions⟩ := h
  have hgenerated := reader.generated
  rw [hactions, messageParser, List.mapM_cons] at hgenerated
  obtain ⟨stage, hstage, hgenerated⟩ := Option.bind_eq_some_iff.mp hgenerated
  obtain ⟨rest, _, hstages⟩ := Option.bind_eq_some_iff.mp hgenerated
  obtain ⟨array, harray, hstage⟩ := Option.bind_eq_some_iff.mp hstage
  obtain rfl := Option.some.inj hstage
  exact ⟨array, rest, harray, (Option.some.inj hstages).symm⟩

end MessageReader

namespace ReceiveCall

variable {machine : GeneratedStateMachine} {bytes : Octets}
  {readers later : List MessageReader} {reader : MessageReader}

/-- The machine waits for the parser. -/
theorem reaches_trying {p q : ParseCall}
    (h : Reaches (ParseCall.step reader.stages) p q) :
    Reaches step ⟨machine, bytes, readers, .trying reader later p⟩
      ⟨machine, bytes, readers, .trying reader later q⟩ := by
  induction h using Relation.ReflTransGen.head_induction_on with
  | refl => exact Reaches.refl _
  | @head p r hstep _ ih =>
      cases hpoint : p.point with
      | returned status =>
          have hsame : r = p := by
            rw [ParseCall.step, hpoint] at hstep
            exact (Except.ok.inj hstep).symm
          rwa [hsame] at ih
      | dispatch | scanning _ | scanningElement _ =>
          refine Reaches.head ?_ ih
          simp only [step, hpoint, hstep, Except.map]

variable (readers later) in
/-- A static piece that does not match gives way to the next parser. -/
theorem reaches_next {octets : Octets} (hstart : reader.StartsWith octets)
    (hsurvives : Survives octets) (hlength : octets.length ≤ bytes.length)
    (hno : ¬ octets <+: bytes)
    (hreset : machine.parsers reader.info.messageName = .reset)
    (next : MessageReader) :
    Reaches step
      ⟨machine, bytes, readers, .trying reader (next :: later)
        (.start .reset bytes)⟩
      ⟨machine, bytes, readers, .trying next later
        (.start (machine.parsers next.info.messageName) bytes)⟩ := by
  obtain ⟨array, rest, harray, hstages⟩ := hstart.stages
  obtain rfl := Option.some.inj
    ((charArray_of_survives hsurvives).symm.trans harray)
  have hparse : ParseCall.step reader.stages (.start .reset bytes) =
      .ok ((ParseCall.start .reset bytes).finish .error) := by
    have hequal := SendCall.memcmpEqual_append octets [0] bytes
    rw [decide_eq_false hno] at hequal
    simp only [ParseCall.step, ParseCall.start, ParseCall.dispatch,
      MessageParser.reset, hstages, List.drop_zero, ParseCall.atCase,
      ParseCall.matchStatic, Nat.not_lt.mpr hlength, if_false, hequal,
      Except.map, Bool.false_eq_true]
  have hkeep : machine.setParser reader.info.messageName .reset = machine := by
    rw [GeneratedStateMachine.setParser]
    congr 1
    funext other
    split
    · rename_i hother
      rw [hother, hreset]
    · rfl
  refine (reaches_trying (Reaches.single hparse)).trans (Reaches.single ?_)
  simp only [step, ParseCall.finish, ParseCall.goto, ParseCall.start, settle,
    hkeep]

/-- A static piece that is longer than the bytes waits for more. -/
theorem reaches_waiting {octets : Octets} (hstart : reader.StartsWith octets)
    (hlength : bytes.length < octets.length) :
    ∃ machine', Reaches step
      ⟨machine, bytes, readers, .trying reader later (.start .reset bytes)⟩
      ⟨machine', bytes, readers, .returned 0⟩ := by
  obtain ⟨array, rest, _, hstages⟩ := hstart.stages
  have hparse : ParseCall.step reader.stages (.start .reset bytes) =
      .ok ((ParseCall.start .reset bytes).finish .needMoreData) := by
    simp only [ParseCall.step, ParseCall.start, ParseCall.dispatch,
      MessageParser.reset, hstages, List.drop_zero, ParseCall.atCase,
      ParseCall.matchStatic, hlength, if_true, Bool.false_eq_true, if_false]
  exact ⟨_, (reaches_trying (Reaches.single hparse)).trans
    (Reaches.single rfl)⟩

/-- The call ends with the message: all bytes are consumed, and the machine is
in the target state with the message at hand. -/
def Reports (code : StateMachineCode) (machine : GeneratedStateMachine)
    (bytes : Octets) (reader : MessageReader)
    (fields : List (String × FieldData)) : Prop :=
  ∃ call, Reaches step (start code machine bytes) call ∧
    call.point = .returned bytes.length ∧
    call.machine.currentState = reader.info.thenState ∧
    call.machine.hasMessage = true ∧
    call.machine.messageState = reader.info.thenState ∧
    call.machine.pending reader.info.thenState =
      some ⟨reader.info.messageName, fields⟩

/-- No parser of an earlier transition is left waiting. -/
def EarlierPass (before : List MessageReader) (bytes : Octets) : Prop :=
  ∀ reader ∈ before, ∀ octets, reader.StartsWith octets →
    octets.length ≤ bytes.length

variable (machine bytes readers) in
/-- The parsers before one either give way to it, or one of them waits. -/
theorem reaches_own_or_waits {own : MessageReader}
    {before : List MessageReader}
    (hstarts : ∀ reader ∈ before, ∃ octets, reader.StartsWith octets ∧
      Survives octets ∧ ¬ octets <+: bytes)
    (hreset : ∀ reader ∈ before ++ own :: later,
      machine.parsers reader.info.messageName = .reset)
    {first : MessageReader} {rest : List MessageReader}
    (hfirst : first :: rest = before ++ own :: later) :
    EarlierPass before bytes ∧ Reaches step
        ⟨machine, bytes, readers, .trying first rest (.start .reset bytes)⟩
        ⟨machine, bytes, readers, .trying own later (.start .reset bytes)⟩ ∨
      ¬ EarlierPass before bytes ∧ ∃ machine', Reaches step
        ⟨machine, bytes, readers, .trying first rest (.start .reset bytes)⟩
        ⟨machine', bytes, readers, .returned 0⟩ := by
  induction before generalizing first rest with
  | nil =>
      obtain ⟨rfl, rfl⟩ := List.cons.inj hfirst
      exact Or.inl ⟨fun _ h => absurd h List.not_mem_nil, Reaches.refl _⟩
  | cons reader before ih =>
      obtain ⟨rfl, hrest⟩ := List.cons.inj hfirst
      have hrest : rest = before ++ own :: later := hrest
      rw [List.forall_mem_cons] at hstarts
      rw [List.cons_append, List.forall_mem_cons] at hreset
      obtain ⟨⟨octets, hstart, hsurvives, hno⟩, hstarts⟩ := hstarts
      by_cases hlength : octets.length ≤ bytes.length
      · cases rest with
        | nil => simp at hrest
        | cons next rest =>
            have hnext := reaches_next readers rest hstart
              hsurvives hlength hno hreset.1 next
            rw [hreset.2 next (by rw [← hrest]; exact List.mem_cons_self)]
              at hnext
            have hpass : EarlierPass (first :: before) bytes ↔
                EarlierPass before bytes := by
              rw [EarlierPass, List.forall_mem_cons]
              refine and_iff_right fun other hother => ?_
              rw [hother.unique hstart]
              exact hlength
            rw [hpass]
            refine (ih hstarts hreset.2 hrest).imp ?_ ?_
            · exact And.imp_right hnext.trans
            · rintro ⟨hwaits, machine', hreturned⟩
              exact ⟨hwaits, machine', hnext.trans hreturned⟩
      · refine Or.inr ⟨fun hpass => hlength ?_, ?_⟩
        · exact hpass first List.mem_cons_self octets hstart
        · exact reaches_waiting hstart (Nat.lt_of_not_le hlength)

variable (machine bytes readers later) in
/-- A parser that is complete ends the call with its message. -/
theorem step_complete {parse : ParseCall}
    (hpoint : parse.point = .returned .complete)
    {fields : List (String × FieldData)}
    (htake : parse.parser.takeData reader.info.data reader.info.actions =
      .ok fields) :
    ∃ machine', step ⟨machine, bytes, readers, .trying reader later parse⟩ =
        .ok ⟨machine', bytes, readers, .returned parse.totalConsumed⟩ ∧
      machine'.currentState = reader.info.thenState ∧
      machine'.hasMessage = true ∧
      machine'.messageState = reader.info.thenState ∧
      machine'.pending reader.info.thenState =
        some ⟨reader.info.messageName, fields⟩ := by
  refine ⟨((machine.setParser reader.info.messageName
    parse.parser).acceptMessage reader fields).resetParsers readers, ?_⟩
  constructor
  · simp only [step, hpoint, settle, htake, finish, Bool.true_eq_false,
      false_and, and_false, if_false]
  · simp [GeneratedStateMachine.resetParsers,
      GeneratedStateMachine.acceptMessage]

/-- A call that has returned stays as it is. -/
theorem returned_unique {s t u : ReceiveCall} {m n : Nat}
    (ht : t.point = .returned m) (hu : u.point = .returned n)
    (hst : Reaches step s t) (hsu : Reaches step s u) : u = t := by
  have hfixed : ∀ {call : ReceiveCall} {k : Nat}, call.point = .returned k →
      step call = .ok call := by
    intro call k hcall
    simp only [step, hcall]
  exact (Reaches.eq_of_fixed (hfixed hu)
    (Reaches.of_fixed (hfixed ht) hst hsu)).symm

theorem start_trying {code : StateMachineCode} {first : MessageReader}
    {rest : List MessageReader}
    (hreaders : code.readersAt machine.currentState = first :: rest)
    (hbytes : bytes ≠ []) (hclosed : machine.currentState ≠ "Closed")
    (herror : machine.hasError = false)
    (hreset : machine.parsers first.info.messageName = .reset) :
    start code machine bytes = ⟨machine, bytes, first :: rest,
      .trying first rest (.start .reset bytes)⟩ := by
  have hstops : ¬ (bytes = [] ∨ machine.isClosed = true ∨
      machine.hasError = true) := by
    simp [hbytes, GeneratedStateMachine.isClosed, hclosed, herror]
  rw [start, hreaders, if_neg hstops]
  simp only [hreset]

/-- In a state with several messages that their static pieces tell apart, the
machine reports the message whose encoding the bytes are if every earlier
static piece is read back as it was printed and is no longer than the bytes;
only where none is longer. -/
theorem reports_iff_earlierPass (code : StateMachineCode)
    (machine : GeneratedStateMachine) (before after : List MessageReader)
    (own : MessageReader)
    (hreaders : code.readersAt machine.currentState = before ++ own :: after)
    (hseveral : 2 ≤ (before ++ own :: after).length)
    (hdistinct : (before ++ own :: after).Pairwise MessageReader.Distinct)
    (herror : machine.hasError = false)
    (hreset : ∀ reader ∈ before ++ own :: after,
      machine.parsers reader.info.messageName = .reset)
    (bytes : Octets) (fields : List (String × FieldData))
    (hencodes : own.Encodes bytes fields) :
    (machine.currentState ≠ "Closed" ∧ EarlierPass before bytes ∧
        (∀ reader ∈ before, ∀ octets, reader.StartsWith octets →
          Survives octets) →
      Reports code machine bytes own fields) ∧
    ((∀ reader ∈ before, ∀ octets, reader.StartsWith octets →
        Survives octets) →
      Reports code machine bytes own fields →
        machine.currentState ≠ "Closed" ∧ EarlierPass before bytes) := by
  obtain ⟨⟨octets, hown, hstarts⟩, parsed, hparsed, hcomplete, hconsumed,
    htake⟩ := hencodes
  rw [List.pairwise_append, List.pairwise_cons] at hdistinct
  obtain ⟨_, ⟨hafter, _⟩, hbefore⟩ := hdistinct
  have hbefore := fun reader hreader =>
    hbefore reader hreader own List.mem_cons_self
  have hbytes : bytes ≠ [] := by
    rintro rfl
    obtain rfl := List.prefix_nil.mp hstarts
    cases before with
    | cons reader before =>
        obtain ⟨_, t, _, ht, _, hno⟩ := hbefore reader List.mem_cons_self
        exact hno (by rw [← hown.unique ht]; exact List.nil_prefix)
    | nil =>
        cases after with
        | nil => simp at hseveral
        | cons reader after =>
            obtain ⟨s, _, hs, _, hno, _⟩ := hafter reader List.mem_cons_self
            exact hno (by rw [← hown.unique hs]; exact List.nil_prefix)
  obtain ⟨first, rest, hfirst⟩ : ∃ first rest,
      first :: rest = before ++ own :: after := by
    cases before with
    | nil => exact ⟨own, after, rfl⟩
    | cons reader before => exact ⟨reader, before ++ own :: after, rfl⟩
  have hrun : ∀ (hclosed : machine.currentState ≠ "Closed")
      (hsurvive : ∀ reader ∈ before, ∀ octets, reader.StartsWith octets →
        Survives octets), _ := fun hclosed hsurvive =>
    reaches_own_or_waits machine bytes (first :: rest)
      (fun reader hreader => by
        obtain ⟨s, hs, hno⟩ :=
          (hbefore reader hreader).mismatch hown hstarts
        exact ⟨s, hs, hsurvive reader hreader s hs, hno⟩) hreset hfirst
  have hstart := fun hclosed => start_trying
    (hreaders.trans hfirst.symm) hbytes hclosed herror
    (hreset first (by rw [← hfirst]; exact List.mem_cons_self))
  constructor
  · rintro ⟨hclosed, hpass, hsurvive⟩
    obtain ⟨_, hreached⟩ :=
      (hrun hclosed hsurvive).resolve_right fun h => h.1 hpass
    have hreturned := hreached.trans (reaches_trying hparsed)
    rw [← hstart hclosed] at hreturned
    obtain ⟨machine', hstep, hreported⟩ := step_complete machine bytes
      (first :: rest) after hcomplete htake
    rw [hconsumed] at hstep
    exact ⟨_, hreturned.trans (Reaches.single hstep), rfl, hreported⟩
  · rintro hsurvive ⟨call, hcall, hpoint, _⟩
    by_cases hclosed : machine.currentState = "Closed"
    · have hstop : start code machine bytes =
          ⟨machine, bytes, code.readersAt machine.currentState,
            .returned 0⟩ := by
        rw [start, if_pos (by simp [GeneratedStateMachine.isClosed, hclosed])]
      have hsame := returned_unique hpoint (congrArg point hstop) hcall
        (Reaches.refl _)
      rw [← hsame, hstop] at hpoint
      injection hpoint with hlength
      exact absurd hlength.symm (by simpa using hbytes)
    · refine ⟨hclosed, ?_⟩
      rcases hrun hclosed hsurvive with h | ⟨_, machine', hreturned⟩
      · exact h.1
      · rw [← hstart hclosed] at hreturned
        have hsame := returned_unique hpoint rfl hcall hreturned
        rw [← hsame] at hpoint
        injection hpoint with hlength
        exact absurd hlength.symm (by simpa using hbytes)

/-- A server that reads `HELLO` or `BYE`. -/
def hello : MessageReader :=
  ⟨⟨[104], "Open", "Greeted", .server, [],
    [.readStaticOctets [72, 69, 76, 76, 79]]⟩,
    [.matchStaticOctets 5 [72, 69, 76, 76, 79, 0]], rfl⟩

def bye : MessageReader :=
  ⟨⟨[98], "Open", "Parted", .server, [], [.readStaticOctets [66, 89, 69]]⟩,
    [.matchStaticOctets 3 [66, 89, 69, 0]], rfl⟩

/-- The protocol with its transitions in this order. -/
def greetingProtocol (readers : List MessageReader) : Protocol where
  client := ⟨[
    ("Open", ⟨readers.map fun reader => (reader.info.messageName,
      (.writeTransition reader.info.data (Action.duals reader.info.actions),
        reader.info.thenState))⟩), ("Greeted", {}), ("Parted", {})]⟩
  server := ⟨[
    ("Open", ⟨readers.map fun reader => (reader.info.messageName,
      (.readTransition reader.info.data reader.info.actions,
        reader.info.thenState))⟩), ("Greeted", {}), ("Parted", {})]⟩

def partingCode : StateMachineCode where
  readers := [hello, bye]
  writers := []
  unsent := [("Open", [104]), ("Open", [98])]

theorem partingProtocol_code :
    GenerateStateMachine.generate (.collectTransitions
      (greetingProtocol [hello, bye])) .server = some partingCode :=
  rfl

theorem hello_encodes : hello.Encodes [72, 69, 76, 76, 79] [] :=
  ⟨⟨_, ⟨[], rfl⟩, List.prefix_refl _⟩,
    ⟨_, Reaches.head rfl (Reaches.head rfl (Reaches.single rfl)), rfl, rfl,
      rfl⟩⟩

theorem bye_encodes : bye.Encodes [66, 89, 69] [] :=
  ⟨⟨_, ⟨[], rfl⟩, List.prefix_refl _⟩,
    ⟨_, Reaches.head rfl (Reaches.head rfl (Reaches.single rfl)), rfl, rfl,
      rfl⟩⟩

theorem reports_iff_earlierPass_hello :
    Reports { readers := [bye, hello], writers := [] } {}
      [72, 69, 76, 76, 79] hello [] := by
  have hbye : ∀ octets, bye.StartsWith octets → octets = [66, 89, 69] :=
    fun octets h => h.unique ⟨[], rfl⟩
  refine (reports_iff_earlierPass { readers := [bye, hello], writers := [] } {}
    [bye] [] hello rfl (by decide) ?_ rfl (fun _ _ => rfl) [72, 69, 76, 76, 79] []
    hello_encodes).1 ⟨by decide, ?_, ?_⟩
  · have hdistinct : bye.Distinct hello :=
      ⟨_, _, ⟨[], rfl⟩, ⟨[], rfl⟩, by decide, by decide⟩
    simpa using hdistinct
  · intro reader hreader octets hstart
    rw [List.mem_singleton.mp hreader] at hstart
    rw [hbye octets hstart]
    decide
  · intro reader hreader octets hstart
    rw [List.mem_singleton.mp hreader] at hstart
    rw [hbye octets hstart]
    decide

/-- Where `HELLO` is listed first, `BYE` is taken for the start of it. -/
theorem bye_is_not_recognised :
    ∃ code, GenerateStateMachine.generate (.collectTransitions
        (greetingProtocol [hello, bye])) .server = some code ∧
      bye.Encodes [66, 89, 69] [] ∧ hello.Distinct bye ∧
      ¬ Reports code {} [66, 89, 69] bye [] := by
  refine ⟨_, partingProtocol_code, bye_encodes,
    ⟨_, _, ⟨[], rfl⟩, ⟨[], rfl⟩, by decide, by decide⟩, ?_⟩
  rintro ⟨call, hcall, hpoint, _⟩
  have hwaits : ∃ machine, Reaches step
      (start partingCode {} [66, 89, 69])
      ⟨machine, [66, 89, 69], [hello, bye], .returned 0⟩ :=
    ⟨_, Reaches.head rfl (Reaches.single rfl)⟩
  obtain ⟨machine, hwaits⟩ := hwaits
  have hsame := returned_unique hpoint rfl hcall hwaits
  rw [← hsame] at hpoint
  injection hpoint with hlength
  contradiction

end ReceiveCall

end NetworkProtocolDsl
