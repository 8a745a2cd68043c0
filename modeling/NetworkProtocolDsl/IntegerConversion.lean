/-
What the emitted code makes of the octets of an integer.

The buffer goes through `std::stoul` or `std::stol` and a cast, and nothing is
an error: an empty buffer is a zero, what follows the digits is ignored, the
cast wraps around, and the exceptions are not caught.
-/
import NetworkProtocolDsl.MessageReading
import NetworkProtocolDsl.ProtocolErrors
import NetworkProtocolDsl.ThreadErrno

namespace NetworkProtocolDsl

open Run GenerateParser

/-- Some digits, and nothing else. -/
def digitsOnly? (s : Octets) : Option Nat :=
  if s ≠ [] ∧ s.all isDigit then some (digitsValue s) else none

/-- The number in decimal notation. -/
def decimalValue? : Octets → Option Int
  | 45 :: digits => (digitsOnly? digits).map fun n : Nat => -(n : Int)
  | digits => (digitsOnly? digits).map fun n : Nat => (n : Int)

/-- The numbers of that many bits. -/
def Represents (isUnsigned : Bool) (bits : Nat) (v : Int) : Prop :=
  if isUnsigned then 0 ≤ v ∧ v < 2 ^ bits
  else -2 ^ bits ≤ 2 * v ∧ 2 * v < 2 ^ bits

/-- The numbers of an integer type with its declared bits and sign. -/
def DataType.Represents (type : DataType) (v : Int) : Prop :=
  NetworkProtocolDsl.Represents ((getBoolParam type "unsigned").getD false)
    ((getIntParam type "bits").getD 32).toNat v

/-- The numbers of the type of a member. -/
def CppType.Represents : CppType → Int → Prop
  | .unsigned bits, v => NetworkProtocolDsl.Represents true bits v
  | .signed bits, v => NetworkProtocolDsl.Represents false bits v
  | .other, _ => False

theorem digitsOnly?_eq_some {s : Octets} {n : Nat}
    (h : digitsOnly? s = some n) :
    s ≠ [] ∧ (∀ b ∈ s, isDigit b = true) ∧ digitsValue s = n := by
  rw [digitsOnly?] at h
  split_ifs at h with hdigits
  exact ⟨hdigits.1, List.all_eq_true.mp hdigits.2, Option.some.inj h⟩

/-- The conversion finds the number. -/
theorem strtolValue_of_decimalValue? {s : Octets} {v : Int}
    (h : decimalValue? s = some v) :
    s ≠ [] ∧ startsWithNumber s = true ∧ strtolValue s = v := by
  unfold decimalValue? at h
  split at h
  · rename_i digits
    obtain ⟨n, hn, rfl⟩ := Option.map_eq_some_iff.mp h
    obtain ⟨hne, hdigits, hvalue⟩ := digitsOnly?_eq_some hn
    obtain ⟨b, rest, rfl⟩ := List.exists_cons_of_ne_nil hne
    have hb := hdigits b List.mem_cons_self
    have htake : (b :: rest).takeWhile isDigit = b :: rest :=
      List.takeWhile_eq_self_iff.mpr hdigits
    refine ⟨List.cons_ne_nil _ _, ?_, ?_⟩
    · simp [startsWithNumber, hb]
    · simp [strtolValue, htake, hvalue]
  · obtain ⟨n, hn, rfl⟩ := Option.map_eq_some_iff.mp h
    obtain ⟨hne, hdigits, hvalue⟩ := digitsOnly?_eq_some hn
    refine ⟨hne, ?_, ?_⟩
    · obtain ⟨b, rest, rfl⟩ := List.exists_cons_of_ne_nil hne
      have hb := hdigits b List.mem_cons_self
      have hdrop := dropWhile_blank_of_isDigit hb rest
      have hsign := ne_sign_of_isDigit hb
      simp only [startsWithNumber, hdrop]
      rw [if_neg (not_or_intro hsign.1 hsign.2)]
      exact hb
    · rw [strtolValue_of_digits hdigits, hvalue]

/-- `std::stoul` and the cast leave the number as it is just when the type has
it. -/
theorem takeField_unsigned_iff {s : Octets} {v : Int} {bits : Nat}
    (hbits : bits ≤ 64) (h : decimalValue? s = some v) :
    MessageParser.takeField (.unsigned bits) s = .ok (.number v) ↔
      (CppType.unsigned bits).Represents v := by
  obtain ⟨hne, hnumber, hvalue⟩ := strtolValue_of_decimalValue? h
  have hpow : (2 : Int) ^ bits ≤ 2 ^ 64 := by
    exact_mod_cast Nat.pow_le_pow_right (by decide) hbits
  have hpos : (0 : Int) < 2 ^ bits := by positivity
  simp only [MessageParser.takeField, if_neg hne, stoul, hnumber, hvalue,
    CppType.Represents, Represents, if_true, Bool.true_eq_false, if_false]
  split_ifs with hlarge
  · refine iff_of_false (by simp [Except.map]) ?_
    omega
  · have hcast : (((v % 2 ^ 64).toNat % 2 ^ bits : Nat) : Int) =
        v % 2 ^ 64 % 2 ^ bits := by
      rw [Int.natCast_mod, Int.toNat_of_nonneg (Int.emod_nonneg _ (by decide))]
      norm_cast
    have hdvd : ((2 : Int) ^ bits) ∣ 2 ^ 64 := pow_dvd_pow 2 hbits
    simp only [Except.map, Except.ok.injEq, FieldData.number.injEq]
    rw [hcast, Int.emod_emod_of_dvd v hdvd]
    constructor
    · intro hv
      rw [← hv]
      exact ⟨Int.emod_nonneg _ hpos.ne', Int.emod_lt_of_pos _ hpos⟩
    · rintro ⟨hlow, hhigh⟩
      exact Int.emod_eq_of_lt hlow hhigh

/-- So do `std::stol` and the cast. -/
theorem takeField_signed_iff {s : Octets} {v : Int} {bits : Nat}
    (hbits : bits ≤ 64) (h : decimalValue? s = some v) :
    MessageParser.takeField (.signed bits) s = .ok (.number v) ↔
      (CppType.signed bits).Represents v := by
  obtain ⟨hne, hnumber, hvalue⟩ := strtolValue_of_decimalValue? h
  have hpow : (2 : Int) ^ bits ≤ 2 ^ 64 := by
    exact_mod_cast Nat.pow_le_pow_right (by decide) hbits
  simp only [MessageParser.takeField, if_neg hne, stol, hnumber, hvalue,
    CppType.Represents, Represents, Bool.true_eq_false, if_false,
    Bool.false_eq_true]
  split_ifs with hlarge
  · refine iff_of_false (by simp [Except.map]) ?_
    simp only [LONG_MAX, LONG_MIN] at hlarge
    omega
  · simp only [Except.map, Except.ok.injEq, FieldData.number.injEq]
    rw [Int.bmod_eq_iff (by positivity)]
    push_cast
    simp
    omega

theorem mapIntType_eq (type : DataType) : ∃ bits, bits ≤ 64 ∧
    (mapIntType type = .unsigned bits ∨ mapIntType type = .signed bits) := by
  rw [mapIntType]
  by_cases hunsigned : (getBoolParam type "unsigned").getD false = true
  · rw [if_pos hunsigned]
    refine ⟨_, ?_, Or.inl rfl⟩
    split_ifs <;> decide
  · rw [if_neg hunsigned]
    refine ⟨_, ?_, Or.inr rfl⟩
    split_ifs <;> decide

/-- The conversion to the type of a member leaves the number as it is just when
the type has it. -/
theorem takeField_integer_iff (type : DataType) {s : Octets} {v : Int}
    (h : decimalValue? s = some v) :
    MessageParser.takeField (mapIntType type) s = .ok (.number v) ↔
      (mapIntType type).Represents v := by
  obtain ⟨bits, hbits, htype⟩ := mapIntType_eq type
  rcases htype with htype | htype
  · rw [htype]
    exact takeField_unsigned_iff hbits h
  · rw [htype]
    exact takeField_signed_iff hbits h

namespace MessageParser

variable {parser : MessageParser} {data : MessageData} {actions : List Action}
  {fields : List (String × FieldData)}

/-- The data of a message are there if every field is converted. -/
theorem exists_takeData (h : ∀ name ∈ Action.fieldNames actions, ∃ field,
      takeField (getFieldCppType data name) (parser.buffers name) =
        .ok field) :
    ∃ fields, parser.takeData data actions = .ok fields := by
  induction actions with
  | nil => exact ⟨[], rfl⟩
  | cons action actions ih =>
      cases action with
      | readOctetsUntilTerminator terminator identifier escape =>
          obtain ⟨hfield, hfields⟩ := List.forall_mem_cons.mp h
          obtain ⟨field, hfield⟩ := hfield
          obtain ⟨fields, htake⟩ := ih hfields
          exact ⟨_, by rw [takeData, hfield, htake]; rfl⟩
      | loop element collection terminator elements =>
          obtain ⟨fields, htake⟩ := ih h
          exact ⟨_, by rw [takeData, htake]; rfl⟩
      | _ => exact ih h

/-- What the data of a message say of the field that was read first. -/
theorem takeData_cons {terminator : Octets} {identifier : IdentifierReference}
    {escape : Option EscapeInfo} (h : parser.takeData data
      (.readOctetsUntilTerminator terminator identifier escape :: actions) =
        .ok fields) :
    ∃ field rest, takeField (getFieldCppType data identifier.name)
        (parser.buffers identifier.name) = .ok field ∧
      parser.takeData data actions = .ok rest ∧
      fields = (identifier.name, field) :: rest := by
  rw [takeData] at h
  split at h
  · rename_i field hfield
    obtain ⟨rest, hrest, hfields⟩ := map_eq_ok h
    exact ⟨field, rest, hfield, hrest, hfields.symm⟩
  · cases h

/-- Each field of a message is there as it was converted. -/
theorem mem_takeData (h : parser.takeData data actions = .ok fields)
    {name : String} (hname : name ∈ Action.fieldNames actions) :
    ∃ field, takeField (getFieldCppType data name) (parser.buffers name) =
      .ok field ∧ (name, field) ∈ fields := by
  induction actions generalizing fields with
  | nil => exact absurd hname List.not_mem_nil
  | cons action actions ih =>
      cases action with
      | readOctetsUntilTerminator terminator identifier escape =>
          obtain ⟨field, rest, hfield, hrest, rfl⟩ := takeData_cons h
          rcases List.mem_cons.mp hname with rfl | hname
          · exact ⟨field, hfield, List.mem_cons_self⟩
          · obtain ⟨other, hother, hmem⟩ := ih hrest hname
            exact ⟨other, hother, List.mem_cons_of_mem _ hmem⟩
      | loop element collection terminator elements =>
          obtain ⟨rest, hrest, rfl⟩ := map_eq_ok h
          obtain ⟨other, hother, hmem⟩ := ih hrest hname
          exact ⟨other, hother, List.mem_cons_of_mem _ hmem⟩
      | _ => exact ih h hname

/-- A number is the conversion of its field. -/
theorem takeField_of_mem (h : parser.takeData data actions = .ok fields)
    {name : String} {v : Int} (hmem : (name, .number v) ∈ fields) :
    takeField (getFieldCppType data name) (parser.buffers name) =
      .ok (.number v) := by
  induction actions generalizing fields with
  | nil =>
      obtain rfl := Except.ok.inj h
      exact absurd hmem List.not_mem_nil
  | cons action actions ih =>
      cases action with
      | readOctetsUntilTerminator terminator identifier escape =>
          obtain ⟨field, rest, hfield, hrest, rfl⟩ := takeData_cons h
          rcases List.mem_cons.mp hmem with heq | hmem
          · obtain ⟨rfl, rfl⟩ := Prod.mk.inj heq
            exact hfield
          · exact ih hrest hmem
      | loop element collection terminator elements =>
          obtain ⟨rest, hrest, rfl⟩ := map_eq_ok h
          rcases List.mem_cons.mp hmem with heq | hmem
          · exact absurd (Prod.mk.inj heq).2 FieldData.noConfusion
          · exact ih hrest hmem
      | _ => exact ih h hmem

end MessageParser

theorem getFieldCppType_of_int {data : MessageData} {name : String}
    {type : DataType} (h : data.lookup name = some type)
    (hint : type.name.name = "int") :
    getFieldCppType data name = mapIntType type := by
  simp only [getFieldCppType, h, if_pos hint]

/-- A member of eight, sixteen, thirty-two or sixty-four bits has the numbers
of the declared type. -/
theorem represents_mapIntType_iff {type : DataType} {bits : Int}
    (hbits : bits = 8 ∨ bits = 16 ∨ bits = 32 ∨ bits = 64)
    (h : getIntParam type "bits" = some bits) (v : Int) :
    (mapIntType type).Represents v ↔ type.Represents v := by
  rw [mapIntType, DataType.Represents, h]
  rcases hbits with rfl | rfl | rfl | rfl <;>
    cases (getBoolParam type "unsigned").getD false <;> exact Iff.rfl

/-- The field of the message is declared as an integer. -/
structure MessageReader.ReadsInteger (reader : MessageReader) (name : String)
    (type : DataType) : Prop where
  read : name ∈ Action.fieldNames reader.info.actions
  declared : reader.info.data.lookup name = some type
  int : type.name.name = "int"

/-- A call of `on_bytes_received` in which a parser completed its message. -/
structure CompletedCall (code : StateMachineCode) extends
    ReceivedCall code where
  reader : MessageReader
  later : List MessageReader
  parse : ParseCall
  tried : ReceiveCall
  reachedTried : Reaches ReceiveCall.step (.start code before data) tried
  trying : tried.point = .trying reader later parse
  complete : parse.point = .returned .complete

namespace CompletedCall

variable {code : StateMachineCode}

/-- What the parser accumulated for a field. -/
def octets (call : CompletedCall code) (name : String) : Octets :=
  call.parse.parser.buffers name

/-- The octets of every integer are the notation of a number of its declared
type. -/
def Decimal (call : CompletedCall code) : Prop :=
  ∀ name type, call.reader.ReadsInteger name type →
    ∃ v, decimalValue? (call.octets name) = some v ∧ type.Represents v

/-- The call returns and the machine holds the message. -/
structure Takes (call : CompletedCall code)
    (fields : List (String × FieldData)) : Prop where
  returned : ∃ consumed, call.last.point = .returned consumed
  pending : call.last.machine.pending call.reader.info.thenState =
    some ⟨call.reader.info.messageName, fields⟩

/-- The integers are taken as they were written, or else there is an error of
the machine and no exception. -/
structure TakesExactly (call : CompletedCall code) : Prop where
  taken : call.Decimal → ∃ fields, call.Takes fields ∧
    ∀ name type, call.reader.ReadsInteger name type →
      ∀ v, decimalValue? (call.octets name) = some v →
        (name, .number v) ∈ fields
  rejected : ¬ call.Decimal → call.last.machine.hasError = true ∧
    ∃ consumed, call.last.point = .returned consumed

theorem last_eq (call : CompletedCall code) :
    call.last = call.tried.settle call.reader call.later call.parse
      .complete := by
  have hstep : ReceiveCall.step call.tried = .ok (call.tried.settle
      call.reader call.later call.parse .complete) := by
    simp only [ReceiveCall.step, call.trying, call.complete]
  have hended : (call.tried.settle call.reader call.later call.parse
      .complete).Ended := by
    rw [ReceiveCall.settle]
    split
    · exact fun _ _ _ => ReceivePoint.noConfusion
    · exact ReceiveCall.ended_finish _ _ _
  have hlast := Reaches.of_fixed (ReceiveCall.step_of_ended call.ended)
    call.reached (call.reachedTried.trans (Reaches.single hstep))
  exact (Reaches.eq_of_fixed (ReceiveCall.step_of_ended hended) hlast)

theorem noError (call : CompletedCall code) :
    call.tried.machine.hasError = false := by
  cases ReceiveCall.progress_of_reaches call.reachedTried with
  | tries h => exact h.noError
  | fails h => exact absurd call.trying (h.ended _ _ _)
  | answered h _ _ => exact absurd call.trying (h _ _ _)
  | refused h _ => exact absurd call.trying (h _ _ _)

/-- The machine holds the data that were taken, and there is no error. -/
theorem takes_of_takeData (call : CompletedCall code)
    {fields : List (String × FieldData)}
    (h : call.parse.parser.takeData call.reader.info.data
      call.reader.info.actions = .ok fields) :
    call.Takes fields ∧ call.last.machine.hasError = false := by
  have hlast := call.last_eq
  simp only [ReceiveCall.settle, h, ReceiveCall.finish, Bool.true_eq_false,
    false_and, and_false, if_false] at hlast
  refine ⟨⟨⟨call.parse.totalConsumed, ?_⟩, ?_⟩, ?_⟩
  · rw [hlast]
  · rw [hlast]
    simp [GeneratedStateMachine.resetParsers,
      GeneratedStateMachine.acceptMessage]
  · rw [hlast]
    exact call.noError

theorem thrown_of_takeData (call : CompletedCall code)
    {error : ConversionError}
    (h : call.parse.parser.takeData call.reader.info.data
      call.reader.info.actions = .error error) :
    call.last.point = .thrown error := by
  rw [call.last_eq, ReceiveCall.settle]
  simp only [h]

/-- The integers are exact or rejected just when all of them are the notation
of a number that both the declared type and the member has. -/
theorem takesExactly_iff (call : CompletedCall code) :
    call.TakesExactly ↔ ∀ name type, call.reader.ReadsInteger name type →
      ∃ v, decimalValue? (call.octets name) = some v ∧ type.Represents v ∧
        (mapIntType type).Represents v := by
  constructor
  · intro h
    by_cases hdecimal : call.Decimal
    · intro name type hinteger
      obtain ⟨fields, htakes, hfields⟩ := h.taken hdecimal
      obtain ⟨v, hv, hrepresents⟩ := hdecimal name type hinteger
      have hmem := hfields name type hinteger v hv
      refine ⟨v, hv, hrepresents, (takeField_integer_iff type hv).mp ?_⟩
      cases htake : call.parse.parser.takeData call.reader.info.data
          call.reader.info.actions with
      | error error =>
          obtain ⟨consumed, hreturned⟩ := htakes.returned
          rw [call.thrown_of_takeData htake] at hreturned
          cases hreturned
      | ok taken =>
          have hpending := (call.takes_of_takeData htake).1.pending
          rw [htakes.pending] at hpending
          obtain rfl : fields = taken := by
            injection Option.some.inj hpending
          rw [← getFieldCppType_of_int hinteger.declared hinteger.int]
          exact MessageParser.takeField_of_mem htake hmem
    · obtain ⟨herror, consumed, hreturned⟩ := h.rejected hdecimal
      cases htake : call.parse.parser.takeData call.reader.info.data
          call.reader.info.actions with
      | error error =>
          rw [call.thrown_of_takeData htake] at hreturned
          cases hreturned
      | ok taken =>
          rw [(call.takes_of_takeData htake).2] at herror
          cases herror
  · intro h
    have hdecimal : call.Decimal := by
      intro name type hinteger
      obtain ⟨v, hv, hrepresents, _⟩ := h name type hinteger
      exact ⟨v, hv, hrepresents⟩
    refine ⟨fun _ => ?_, fun hnot => absurd hdecimal hnot⟩
    obtain ⟨fields, htake⟩ : ∃ fields, call.parse.parser.takeData
        call.reader.info.data call.reader.info.actions = .ok fields := by
      refine MessageParser.exists_takeData fun name hname => ?_
      by_cases hinteger : ∃ type, call.reader.ReadsInteger name type
      · obtain ⟨type, hinteger⟩ := hinteger
        obtain ⟨v, hv, _, hmember⟩ := h name type hinteger
        rw [getFieldCppType_of_int hinteger.declared hinteger.int]
        exact ⟨.number v, (takeField_integer_iff type hv).mpr hmember⟩
      · have hother : getFieldCppType call.reader.info.data name = .other := by
          unfold getFieldCppType
          split
          · rename_i type hlookup
            rw [if_neg fun hint => hinteger ⟨type, hname, hlookup, hint⟩]
          · rfl
        exact ⟨_, by rw [hother]; rfl⟩
    refine ⟨fields, (call.takes_of_takeData htake).1, ?_⟩
    intro name type hinteger v hv
    obtain ⟨w, hw, _, hmember⟩ := h name type hinteger
    obtain rfl : v = w := Option.some.inj (hv.symm.trans hw)
    obtain ⟨field, hfield, hmem⟩ :=
      MessageParser.mem_takeData htake hinteger.read
    rw [getFieldCppType_of_int hinteger.declared hinteger.int] at hfield
    have hnumber := (takeField_integer_iff type hv).mpr hmember
    obtain rfl := Except.ok.inj (hfield.symm.trans hnumber)
    exact hmem

/-- `tokens { n } terminator { "\n" }` with `n: int<unsigned=true, bits=8>`. -/
def octetReader : MessageReader :=
  ⟨⟨[110], "Open", "Greeted", .server,
    [("n", .mk (.mk "int" none)
      [("bits", .integer 8), ("unsigned", .boolean true)])],
    [.readOctetsUntilTerminator [10] (.mk "n" none) none]⟩,
    [.readUntilTerminator "n" 1 [10, 0] none], rfl⟩

def octetCode : StateMachineCode where
  readers := [octetReader]
  writers := []
  unsent := [("Open", [110])]

theorem octet_code : GenerateStateMachine.generate (.collectTransitions
    (ReceiveCall.greetingProtocol [octetReader])) .server = some octetCode :=
  rfl

/-- Of `300` the machine takes 44, without an error. -/
theorem three_hundred_wraps :
    ∃ code, GenerateStateMachine.generate (.collectTransitions
        (ReceiveCall.greetingProtocol [octetReader])) .server = some code ∧
      ∃ call : CompletedCall code, call.before = {} ∧
        call.data = [51, 48, 48, 10] ∧ call.octets "n" = [51, 48, 48] ∧
        call.Takes [("n", .number 44)] ∧
        call.last.machine.hasError = false ∧ ¬ call.TakesExactly := by
  let call : CompletedCall octetCode :=
    { before := {}
      data := [51, 48, 48, 10]
      last := _
      reached := Reaches.head rfl (Reaches.head rfl (Reaches.head rfl
        (Reaches.head rfl (Reaches.head rfl (Reaches.head rfl (Reaches.head rfl
          (Reaches.single rfl)))))))
      ended := fun _ _ _ => ReceivePoint.noConfusion
      reader := octetReader
      later := []
      parse := _
      tried := _
      reachedTried := Reaches.head rfl (Reaches.head rfl (Reaches.head rfl
        (Reaches.head rfl (Reaches.head rfl (Reaches.head rfl
          (Reaches.single rfl))))))
      trying := rfl
      complete := rfl }
  have htaken : call.parse.parser.takeData call.reader.info.data
      call.reader.info.actions = .ok [("n", .number 44)] := by
    have htype : getFieldCppType call.reader.info.data "n" = .unsigned 8 := by
      decide
    have hoctets : call.parse.parser.buffers "n" = [51, 48, 48] := rfl
    have hfield : MessageParser.takeField (.unsigned 8) [51, 48, 48] =
        .ok (.number 44) := rfl
    have hactions : call.reader.info.actions =
        [.readOctetsUntilTerminator [10] (.mk "n" none) none] := rfl
    rw [hactions, MessageParser.takeData, IdentifierReference.name, htype,
      hoctets, hfield]
    rfl
  obtain ⟨htakes, hnoError⟩ := call.takes_of_takeData htaken
  refine ⟨octetCode, octet_code, call, rfl, rfl, rfl, htakes, hnoError, ?_⟩
  intro hexact
  have hdecimal : ¬ call.Decimal := by
    intro h
    obtain ⟨v, hv, hrepresents⟩ := h "n" _ ⟨List.mem_cons_self, rfl, rfl⟩
    obtain rfl : (300 : Int) = v := Option.some.inj hv
    exact absurd hrepresents.2 (by decide)
  rw [(hexact.rejected hdecimal).1] at hnoError
  exact Bool.noConfusion hnoError

end CompletedCall

end NetworkProtocolDsl
