/-
Integer fields leave their terminator in the input.

The generated read of an integer has the read of the terminator as a child,
but the operation takes no arguments, so its children are never evaluated.
-/
import NetworkProtocolDsl.FieldAccess
import NetworkProtocolDsl.ThreadErrno

namespace NetworkProtocolDsl

open Generate IdentifierReference

theorem isDigit_of_decimal (n : Nat) : ∀ b ∈ decimal n, isDigit b = true := by
  intro b hb
  unfold decimal at hb
  split at hb
  · rw [List.mem_singleton.mp hb]
    rfl
  · obtain ⟨digit, hdigit, rfl⟩ := List.mem_map.mp hb
    have hlt := Nat.digits_lt_base (by decide) (List.mem_reverse.mp hdigit)
    simp only [isDigit, Bool.and_eq_true, decide_eq_true_eq,
      UInt8.le_iff_toNat_le, UInt8.toNat_ofNat']
    change 48 ≤ (48 + digit) % 256 ∧ (48 + digit) % 256 ≤ 57
    omega

namespace ReadIntFromAscii

/-- The scan takes digits only, so it stops before a terminator that does not
start with one. -/
theorem takeWhile_scans_le (digits terminator : Octets) {b : UInt8}
    (hb : isDigit b = false) (rest : Octets) :
    ((digits ++ b :: terminator ++ rest).takeWhile scans).length ≤
      digits.length := by
  have hstop : scans b = false := by
    rw [Bool.eq_false_iff]
    intro hscans
    rw [isDigit_of_scans hscans] at hb
    contradiction
  rw [List.append_assoc, List.takeWhile_append]
  split
  · simp [hstop]
  · exact (List.takeWhile_prefix _).length_le

theorem apply_ready (ctx : InputOutputOperationContext)
    (h : ctx.ready = true) (errno : Errno) :
    ∃ value, (apply ctx errno).1 = .value value := by
  simp only [apply, h, ↓reduceIte]
  split
  · exact ⟨_, rfl⟩
  · split
    · exact ⟨_, rfl⟩
    · split <;> exact ⟨_, rfl⟩

/-- The read of an integer consumes the digits it scans and nothing else. -/
theorem evaluates {eof : Bool} (children : List OpTreeNode) {w : World}
    {bytes : Octets} (hw : w.input = [bytes])
    (hlt : (bytes.takeWhile scans).length < bytes.length) :
    ∃ value input errno,
      Holds input (bytes.drop (bytes.takeWhile scans).length) ∧
      (OpTreeNode.mk (.inputOutput .readIntFromAscii) children).Evaluates eof w
        value { w with input := input, errno := errno } := by
  obtain ⟨value, hvalue⟩ := apply_ready
    { buffer := bytes.take (bytes.takeWhile scans).length, ready := true }
    rfl w.errno
  have hread : InputOutputOperation.readIntFromAscii.handleRead {} bytes =
      .ok ((bytes.takeWhile scans).length,
        { buffer := bytes.take (bytes.takeWhile scans).length
          ready := true }) := by
    simp only [InputOutputOperation.handleRead, handleRead, hlt, ↓reduceIte]
  obtain ⟨input, hholds, hevaluates⟩ := OpTreeNode.evaluates_read rfl
    hw rfl hread rfl (by
      simp only [InputOutputOperation.apply]
      rw [hvalue])
  exact ⟨value, input, _, hholds, hevaluates⟩

end ReadIntFromAscii

/-- Run on the bytes, the read of the field stores the number in the field and
leaves exactly the rest. -/
def ReadsInteger (tree : OpTreeNode) (identifier : IdentifierReference)
    (eof : Bool) (pad : LexicalPad) (errno : Errno) (bytes : Octets) (v : Nat)
    (rest : Octets) : Prop :=
  ∃ result w, tree.RunsTo eof ⟨pad, errno, [bytes], []⟩ result w ∧
    fieldValue w.pad identifier = .int32 (Int32.ofNat v) ∧
    w.input.flatten = rest

/-- The generated read of an integer field consumes some of its digits and
nothing else. -/
theorem visitReadOctetsUntilTerminator_int_runsTo
    {getType : ExtractTypeClosure} {b : UInt8} {terminator : Octets}
    {identifier : IdentifierReference} {escape : Option EscapeInfo}
    {tree : OpTreeNode} {type : DataType}
    (htree : visitReadOctetsUntilTerminator getType (b :: terminator)
      identifier escape = .ok tree)
    (htype : fieldType getType identifier = some type)
    (hint : type.name.name = "int") (hb : isDigit b = false)
    (digits rest : Octets) (eof : Bool) (pad : LexicalPad) (errno : Errno) :
    ∃ result w consumed, consumed ≤ digits.length ∧
      tree.RunsTo eof ⟨pad, errno, [digits ++ b :: terminator ++ rest], []⟩
        result w ∧
      w.input.flatten = (digits ++ b :: terminator ++ rest).drop consumed := by
  obtain ⟨type', reader, htype', hreader, hevaluates⟩ :=
    visitReadOctetsUntilTerminator_evaluates htree
  obtain rfl := Option.some.inj (htype.symm.trans htype')
  rw [readValueFromOctets, if_pos hint] at hreader
  obtain rfl := Except.ok.inj hreader
  have hle := ReadIntFromAscii.takeWhile_scans_le digits terminator hb rest
  have hlt : ((digits ++ b :: terminator ++ rest).takeWhile
      ReadIntFromAscii.scans).length <
        (digits ++ b :: terminator ++ rest).length := by
    rw [List.length_append, List.length_append, List.length_cons]
    omega
  obtain ⟨value, input, errno', hholds, hread⟩ := ReadIntFromAscii.evaluates
    [readOctetsUntilTerminator (b :: terminator) escape]
    (w := ⟨pad, errno, [digits ++ b :: terminator ++ rest], []⟩) rfl hlt
  obtain ⟨result, pad', htree'⟩ := hevaluates hread
  exact ⟨result, _, _, hle, htree'.runsTo, hholds.flatten⟩

/-- Whatever the number, the terminator and the rest are, the generated read of
an integer field does not leave exactly the rest. -/
theorem visitReadOctetsUntilTerminator_int_leaves_terminator
    {getType : ExtractTypeClosure} {terminator : Octets}
    {identifier : IdentifierReference} {escape : Option EscapeInfo}
    {tree : OpTreeNode} {type : DataType}
    (htree : visitReadOctetsUntilTerminator getType terminator identifier
      escape = .ok tree)
    (htype : fieldType getType identifier = some type)
    (hint : type.name.name = "int")
    (hterminator : ∃ b tail, terminator = b :: tail ∧ isDigit b = false)
    (v : Nat) (rest : Octets) (eof : Bool) (pad : LexicalPad)
    (errno : Errno) :
    ¬ ReadsInteger tree identifier eof pad errno
      (decimal v ++ terminator ++ rest) v rest := by
  rintro ⟨result, w, hrun, _, hrest⟩
  obtain ⟨b, tail, rfl, hb⟩ := hterminator
  obtain ⟨result', w', consumed, hle, hrun', hinput⟩ :=
    visitReadOctetsUntilTerminator_int_runsTo htree htype hint hb (decimal v)
      rest eof pad errno
  obtain ⟨_, rfl⟩ := hrun.unique hrun'
  have hlength := congrArg List.length (hinput.symm.trans hrest)
  simp only [List.length_drop, List.length_append, List.length_cons] at hlength
  omega

/-- `int<encoding=AsciiInt, unsigned=True, bits=32>`. -/
def asciiIntType : DataType :=
  .mk (.mk "int" none)
    [("bits", .integer 32),
      ("encoding", .type (.mk (.mk "AsciiInt" none) [])),
      ("unsigned", .boolean true)]

/-- The read of `minor_version` up to a line end. -/
def minorVersionRead : OpTreeNode :=
  lexicalPadSet "minor_version" (.mk (.inputOutput .readIntFromAscii)
    [readOctetsUntilTerminator [13, 10] none])

theorem visitReadOctetsUntilTerminator_minorVersion :
    visitReadOctetsUntilTerminator
      (extractType [("minor_version", asciiIntType)]) [13, 10]
      (.mk "minor_version" none) none = .ok minorVersionRead :=
  rfl

theorem visitReadOctetsUntilTerminator_int_leaves_terminator_minorVersion :
    ¬ ReadsInteger minorVersionRead (.mk "minor_version" none) false
      (.root [("minor_version", .bool false)]) 0
      (decimal 1 ++ [13, 10] ++ [72]) 1 [72] :=
  visitReadOctetsUntilTerminator_int_leaves_terminator
    visitReadOctetsUntilTerminator_minorVersion rfl rfl ⟨13, [10], rfl, rfl⟩ 1
    [72] false _ 0

/-- After `1`, the line end and `H` were read as a number, the line end is
still there. -/
theorem minorVersionRead_leaves_line_end :
    visitReadOctetsUntilTerminator
      (extractType [("minor_version", asciiIntType)]) [13, 10]
      (.mk "minor_version" none) none = .ok minorVersionRead ∧
    ¬ ReadsInteger minorVersionRead (.mk "minor_version" none) false
      (.root [("minor_version", .bool false)]) 0
      (decimal 1 ++ [13, 10] ++ [72]) 1 [72] := by
  refine ⟨visitReadOctetsUntilTerminator_minorVersion, ?_⟩
  rintro ⟨result, w, hrun, _, hrest⟩
  obtain ⟨result', w', consumed, hle, hrun', hinput⟩ :=
    visitReadOctetsUntilTerminator_int_runsTo
      visitReadOctetsUntilTerminator_minorVersion rfl rfl rfl (decimal 1) [72]
      false
      (.root [("minor_version", .bool false)]) 0
  obtain ⟨_, rfl⟩ := hrun.unique hrun'
  have hlength := congrArg List.length (hinput.symm.trans hrest)
  simp only [List.length_drop, List.length_append, List.length_cons,
    List.length_nil] at hlength
  omega

end NetworkProtocolDsl
