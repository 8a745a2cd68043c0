/-
What each case of the emitted parser takes from its input.

A case that finds what it looks for in the bytes of one call leaves the parser
at the next case.  The scanning loops are followed turn by turn: one for the
terminator alone, one that replaces escape sequences on the way.
-/
import NetworkProtocolDsl.GeneratedParser
import NetworkProtocolDsl.Library.Escape
import NetworkProtocolDsl.Library.Run

namespace NetworkProtocolDsl

open Run CppLiteral OutputContext GenerateParser

/-- `memcmp` with an array that is long enough looks for a prefix. -/
theorem memcmpEqual_eq {array : Octets} {len : Nat} (h : len ≤ array.length)
    (data : Octets) :
    memcmpEqual data array len = .ok (decide (array.take len <+: data)) := by
  rw [memcmpEqual, if_neg (Nat.not_lt.mpr h)]
  congr 1
  rw [Bool.eq_iff_iff, beq_iff_eq, decide_eq_true_iff,
    List.prefix_iff_eq_take, List.length_take, Nat.min_eq_left h]
  exact eq_comm

/-- A comparison only looks at the bytes it compares. -/
theorem memcmpEqual_congr {data data' : Octets} {len : Nat} (array : Octets)
    (h : data.take len = data'.take len) :
    memcmpEqual data array len = memcmpEqual data' array len := by
  rw [memcmpEqual, memcmpEqual, h]

/-- The arrays of the constants have the bytes that are compared or copied. -/
structure EscapeConstants.Readable (escape : EscapeConstants) : Prop where
  sequence : escape.escapeSeqLen ≤ escape.escapeSeq.length
  character : escape.escapeCharLen ≤ escape.escapeChar.length

namespace EscapeConstants

/-- The escape sequence the emitted code compares with. -/
def sequence (escape : EscapeConstants) : Octets :=
  escape.escapeSeq.take escape.escapeSeqLen

/-- The octets the emitted code replaces an escape sequence by. -/
def character (escape : EscapeConstants) : Octets :=
  escape.escapeChar.take escape.escapeCharLen

theorem Readable.length_sequence {escape : EscapeConstants}
    (h : escape.Readable) : escape.sequence.length = escape.escapeSeqLen := by
  rw [EscapeConstants.sequence, List.length_take, Nat.min_eq_left h.sequence]

theorem Readable.memcmpEqual_sequence {escape : EscapeConstants}
    (h : escape.Readable) (data : Octets) :
    memcmpEqual data escape.escapeSeq escape.escapeSeqLen =
      .ok (decide (escape.sequence <+: data)) :=
  memcmpEqual_eq h.sequence data

end EscapeConstants

namespace MessageParser

variable (parser : MessageParser) (name : String)

theorem appendTo_appendTo (data more : Octets) :
    (parser.appendTo name data).appendTo name more =
      parser.appendTo name (data ++ more) := by
  simp only [appendTo, MessageParser.mk.injEq, true_and, and_true]
  funext other
  split
  · rw [List.append_assoc]
  · rfl

theorem buffers_appendTo_self (data : Octets) :
    (parser.appendTo name data).buffers name = parser.buffers name ++ data :=
  if_pos rfl

theorem buffers_appendTo_ne {other : String} (h : other ≠ name)
    (data : Octets) :
    (parser.appendTo name data).buffers other = parser.buffers other :=
  if_neg h

theorem loops_updateLoop (collection : String)
    (update : LoopState → LoopState) :
    (parser.updateLoop collection update).loops collection =
      update (parser.loops collection) :=
  if_pos rfl

/-- An update that keeps the case of the inner switch. -/
theorem stage_updateLoop (collection : String) (update : LoopState → LoopState)
    (h : ∀ loop, (update loop).stage = loop.stage) (other : String) :
    ((parser.updateLoop collection update).loops other).stage =
      (parser.loops other).stage := by
  by_cases hother : other = collection
  · simp only [updateLoop, if_pos hother, h]
  · simp only [updateLoop, if_neg hother]

end MessageParser

namespace GenerateParser

/-- The cases of a message are those of its actions. -/
theorem messageParser_cons {action : Action} {actions : List Action}
    {stages : List ParseStage} :
    messageParser (action :: actions) = some stages ↔
      ∃ first rest, stage action = some first ∧
        messageParser actions = some rest ∧ stages = first :: rest := by
  rw [messageParser, List.mapM_cons, ← messageParser]
  constructor
  · intro h
    obtain ⟨first, hfirst, h⟩ := Option.bind_eq_some_iff.mp h
    obtain ⟨rest, hrest, h⟩ := Option.bind_eq_some_iff.mp h
    exact ⟨first, rest, hfirst, hrest, (Option.some.inj h).symm⟩
  · rintro ⟨first, rest, hfirst, hrest, rfl⟩
    rw [hfirst, hrest]
    rfl

end GenerateParser

namespace ParseStage

theorem matchStaticOctets_ne_noCode (len : Nat) (expected : Octets) :
    matchStaticOctets len expected ≠ noCode :=
  ParseStage.noConfusion

theorem readUntilTerminator_ne_noCode (name : String) (termLen : Nat)
    (terminator : Octets) (escape : Option EscapeConstants) :
    readUntilTerminator name termLen terminator escape ≠ noCode :=
  ParseStage.noConfusion

end ParseStage

namespace ParseCall

variable {stages before after : List ParseStage} {call : ParseCall}

/-- What comes after a `return` is the state it left. -/
theorem step_returned {status : ParseStatus}
    (h : call.point = .returned status) : step stages call = .ok call := by
  simp only [step, h]

theorem returned_unique {s t u : ParseCall} {status status' : ParseStatus}
    (ht : t.point = .returned status) (hu : u.point = .returned status')
    (hst : Reaches (step stages) s t) (hsu : Reaches (step stages) s u) :
    u = t :=
  (Reaches.eq_of_fixed (step_returned hu)
    (Reaches.of_fixed (step_returned ht) hst hsu)).symm

theorem status_unique {s t u : ParseCall} {status status' : ParseStatus}
    (ht : t.point = .returned status) (hu : u.point = .returned status')
    (hst : Reaches (step stages) s t) (hsu : Reaches (step stages) s u) :
    status = status' := by
  rw [returned_unique ht hu hst hsu, ht] at hu
  exact ParsePoint.returned.inj hu

/-- A call that comes to an access outside of an array does not return. -/
theorem not_returned_of_fault {s t u : ParseCall} {status : ParseStatus}
    {fault : Fault} (ht : step stages t = .error fault)
    (hst : Reaches (step stages) s t) (hu : u.point = .returned status) :
    ¬ Reaches (step stages) s u := by
  intro hsu
  have htu := Reaches.of_fixed (step_returned hu) hsu hst
  rcases Relation.ReflTransGen.cases_head htu with rfl | ⟨v, hstep, _⟩
  · rw [step_returned hu] at ht
    contradiction
  · rw [ht] at hstep
    contradiction

variable (before after) in
/-- The case that runs is the one behind `before`. -/
theorem atCase_drop {stage : ParseStage} (hcode : stage ≠ .noCode) {n : Nat}
    (hn : n = before.length) :
    atCase ((before ++ stage :: after).drop n) = some stage := by
  rw [hn, List.drop_left]
  cases stage with
  | noCode => exact absurd rfl hcode
  | matchStaticOctets _ _ | readUntilTerminator _ _ _ _ | parseLoop _ _ _ _ =>
      rfl

section Fields

variable (call) (point point' : ParsePoint)

@[simp] theorem goto_input : (call.goto point).input = call.input := rfl
@[simp] theorem goto_members : (call.goto point).parser = call.parser := rfl
@[simp] theorem goto_totalConsumed :
    (call.goto point).totalConsumed = call.totalConsumed := rfl
@[simp] theorem goto_point : (call.goto point).point = point := rfl
@[simp] theorem goto_goto :
    (call.goto point).goto point' = call.goto point' := rfl

end Fields

section MatchStatic

variable (call) {len : Nat} {expected : Octets}
  {next : MessageParser → MessageParser}

theorem matchStatic_short (h : call.input.length < len) :
    call.matchStatic len expected next = .ok (call.finish .needMoreData) := by
  rw [matchStatic, if_pos h]

theorem matchStatic_hits (harray : len ≤ expected.length)
    (hhit : expected.take len <+: call.input) :
    call.matchStatic len expected next =
      .ok ((call.consume len).modify next) := by
  have hlength := hhit.length_le
  rw [List.length_take, Nat.min_eq_left harray] at hlength
  rw [matchStatic, if_neg (Nat.not_lt.mpr hlength), memcmpEqual_eq harray,
    decide_eq_true hhit]
  rfl

theorem matchStatic_misses (harray : len ≤ expected.length)
    (hlength : len ≤ call.input.length)
    (hmiss : ¬ expected.take len <+: call.input) :
    call.matchStatic len expected next = .ok (call.finish .error) := by
  rw [matchStatic, if_neg (Nat.not_lt.mpr hlength), memcmpEqual_eq harray,
    decide_eq_false hmiss]
  rfl

end MatchStatic

section ScanTerminator

variable {termLen : Nat} {terminator : Octets}
  {append : Octets → MessageParser → MessageParser}
  {next : MessageParser → MessageParser} {again : Nat → ParsePoint} {pos : Nat}

variable (call) in
theorem scanTerminator_misses (harray : termLen ≤ terminator.length)
    (hroom : pos + termLen ≤ call.input.length)
    (hmiss : ¬ terminator.take termLen <+: call.input.drop pos) :
    call.scanTerminator pos termLen terminator append next again =
      .ok (call.goto (again (pos + 1))) := by
  rw [scanTerminator, memcmpEqual_eq harray, if_pos hroom,
    decide_eq_false hmiss]
  rfl

variable (call) in
theorem scanTerminator_hits (harray : termLen ≤ terminator.length)
    (hroom : pos + termLen ≤ call.input.length)
    (hhit : terminator.take termLen <+: call.input.drop pos) :
    call.scanTerminator pos termLen terminator append next again =
      .ok ((((call.modify (append (call.input.take pos))).consume
        (pos + termLen)).modify next).goto .dispatch) := by
  rw [scanTerminator, memcmpEqual_eq harray, if_pos hroom,
    decide_eq_true hhit]
  rfl

variable (call) in
theorem scanTerminator_ends (hroom : call.input.length < pos + termLen) :
    call.scanTerminator pos termLen terminator append next again =
      .ok { (call.modify (append call.input)).finish .needMoreData with
        totalConsumed := call.totalConsumed + call.input.length } := by
  rw [scanTerminator, if_neg (Nat.not_le.mpr hroom)]

variable (call) (hscan : ∀ pos, step stages (call.goto (again pos)) =
  (call.goto (again pos)).scanTerminator pos termLen terminator append next
    again)

include hscan

/-- Behind positions where there is no terminator the loop goes on. -/
theorem scanTerminator_skips (harray : termLen ≤ terminator.length)
    {target : Nat} (hle : pos ≤ target)
    (hroom : target + termLen ≤ call.input.length + 1 ∨ target = pos)
    (hno : ∀ j, pos ≤ j → j < target →
      ¬ terminator.take termLen <+: call.input.drop j) :
    Reaches (step stages) (call.goto (again pos))
      (call.goto (again target)) := by
  induction target with
  | zero =>
      obtain rfl : pos = 0 := Nat.le_zero.mp hle
      exact Reaches.refl _
  | succ target ih =>
      rcases Nat.lt_or_eq_of_le hle with hlt | rfl
      · have hskip := ih (Nat.le_of_lt_succ hlt) (Or.inl (by omega))
          fun j hj hlt' => hno j hj (Nat.lt_succ_of_lt hlt')
        have hmiss := hno target (Nat.le_of_lt_succ hlt) (Nat.lt_succ_self _)
        have hturn : target + termLen ≤ call.input.length := by omega
        exact hskip.trans (Reaches.single ((hscan target).trans
          (scanTerminator_misses (call.goto (again target)) harray hturn
            hmiss)))
      · exact Reaches.refl _

/-- The loop stops at the first terminator. -/
theorem scanTerminator_finds (harray : termLen ≤ terminator.length) {p : Nat}
    (hfirst : Occurrence.first (terminator.take termLen) call.input = some p) :
    Reaches (step stages) (call.goto (again 0))
      ((((call.modify (append (call.input.take p))).consume
        (p + termLen)).modify next).goto .dispatch) := by
  have hlength := Occurrence.length_le_of_first hfirst
  rw [List.length_take, Nat.min_eq_left harray] at hlength
  have hskip := scanTerminator_skips call hscan harray (Nat.zero_le p)
    (Or.inl (by omega))
    fun j _ hj => Occurrence.not_prefix_drop_of_lt hfirst hj
  exact hskip.trans (Reaches.single ((hscan p).trans
    (scanTerminator_hits (call.goto (again p)) harray hlength
      (Occurrence.prefix_drop_of_first hfirst))))

/-- Without a terminator the loop takes all of the input and waits. -/
theorem scanTerminator_waits (harray : termLen ≤ terminator.length)
    (hfirst : Occurrence.first (terminator.take termLen) call.input = none) :
    Reaches (step stages) (call.goto (again 0))
      { (call.modify (append call.input)).finish .needMoreData with
        totalConsumed := call.totalConsumed + call.input.length } := by
  have hno := Occurrence.first_eq_none_iff.mp hfirst
  by_cases hroom : termLen ≤ call.input.length
  · have hskip := scanTerminator_skips call hscan harray
      (Nat.zero_le (call.input.length + 1 - termLen)) (Or.inl (by omega))
      fun j _ hj => hno j (by omega)
    have hturn : call.input.length <
        call.input.length + 1 - termLen + termLen := by omega
    exact hskip.trans (Reaches.single ((hscan _).trans
      (scanTerminator_ends (call.goto (again _)) hturn)))
  · have hturn : call.input.length < 0 + termLen := by omega
    exact Reaches.single ((hscan 0).trans
      (scanTerminator_ends (call.goto (again 0)) hturn))

end ScanTerminator

section ScanEscape

variable {termLen : Nat} {terminator : Octets} {escape : EscapeConstants}
  {name : String} {pos : Nat}

variable (call) in
theorem scanEscape_replaces (hescape : escape.Readable)
    (hroom : pos + termLen ≤ call.input.length)
    (hhit : escape.sequence <+: call.input.drop pos) :
    call.scanEscape pos termLen terminator escape name =
      .ok ((((call.modify (·.appendTo name (call.input.take pos))).modify
        (·.appendTo name escape.character)).consume
          (pos + escape.escapeSeqLen)).goto (.scanning 0)) := by
  have hlength := hhit.length_le
  rw [hescape.length_sequence, List.length_drop] at hlength
  have hsequence : pos + escape.escapeSeqLen ≤ call.input.length := by omega
  rw [scanEscape, if_pos hroom, if_pos hsequence,
    hescape.memcmpEqual_sequence, decide_eq_true hhit]
  simp only [if_neg (Nat.not_lt.mpr hescape.character)]
  rfl

variable (call) in
theorem scanEscape_passes (hescape : escape.Readable)
    (hmiss : call.input.length < pos + termLen ∨
      ¬ escape.sequence <+: call.input.drop pos) :
    call.scanEscape pos termLen terminator escape name =
      call.scanTerminator pos termLen terminator
        (fun data parser => parser.appendTo name data) MessageParser.nextStage
        .scanning := by
  rw [scanEscape]
  split
  · rename_i hroom
    have hmiss := hmiss.resolve_left (Nat.not_lt.mpr hroom)
    split
    · rw [hescape.memcmpEqual_sequence, decide_eq_false hmiss]
    · rfl
  · rfl

/-- The scanning loop takes the field that starts at its position. -/
theorem scanEscape_reads {n : Nat}
    (hscan : ∀ call : ParseCall, call.parser.stage = n → ∀ pos,
      step stages (call.goto (.scanning pos)) =
        (call.goto (.scanning pos)).scanEscape pos termLen terminator escape
          name)
    (harray : termLen ≤ terminator.length) (hescape : escape.Readable)
    {stream value : Octets} {size : Nat}
    (h : Escape.Field (terminator.take termLen) escape.character
      escape.sequence stream value size)
    (call : ParseCall) (hstage : call.parser.stage = n) (pos : Nat)
    (hpos : pos ≤ call.input.length) (hstream : call.input.drop pos = stream) :
    Reaches (step stages) (call.goto (.scanning pos))
      ⟨(call.parser.appendTo name (call.input.take pos ++ value)).nextStage,
        call.input.drop (pos + size), call.totalConsumed + (pos + size),
        .dispatch⟩ := by
  have hpattern : (terminator.take termLen).length = termLen := by
    rw [List.length_take, Nat.min_eq_left harray]
  have hstart := hscan call hstage pos
  induction h generalizing call pos with
  | @terminator stream _ hno hterminator =>
      subst hstream
      have hlength := hterminator.length_le
      rw [hpattern, List.length_drop] at hlength
      have hroom : pos + termLen ≤ call.input.length := by omega
      refine Reaches.single (hstart.trans ?_)
      rw [hpattern, List.append_nil]
      exact (scanEscape_passes (call.goto (.scanning pos)) hescape
        (Or.inr hno)).trans (scanTerminator_hits (call.goto (.scanning pos))
          harray hroom hterminator)
  | @sequence rest value size hfield ih =>
      have hsize := hfield.size_le
      have hterm := hfield.terminator_length_le
      have hlength := congrArg List.length hstream
      rw [List.length_drop, List.length_append] at hlength
      have hroom : pos + termLen ≤ call.input.length := by omega
      have hhit : escape.sequence <+: call.input.drop pos := by
        rw [hstream]
        exact List.prefix_append _ _
      have hdrop : call.input.drop (pos + escape.escapeSeqLen) = rest := by
        rw [← List.drop_drop, hstream, ← hescape.length_sequence,
          List.drop_left]
      have hturn := hstart.trans (scanEscape_replaces
        (call.goto (.scanning pos)) hescape hroom hhit)
      let next : ParseCall :=
        ⟨(call.parser.appendTo name (call.input.take pos)).appendTo name
          escape.character, call.input.drop (pos + escape.escapeSeqLen),
          call.totalConsumed + (pos + escape.escapeSeqLen), .scanning 0⟩
      have hread := ih next hstage 0 (Nat.zero_le _) hdrop
        (hscan next hstage 0)
      refine Reaches.head (t := next) hturn ?_
      rw [List.take_zero, List.nil_append, Nat.zero_add] at hread
      have hparser : next.parser.appendTo name value =
          call.parser.appendTo name
            (call.input.take pos ++ (escape.character ++ value)) := by
        rw [MessageParser.appendTo_appendTo, MessageParser.appendTo_appendTo]
      have hinput : next.input.drop size = call.input.drop
          (pos + (escape.sequence.length + size)) := by
        rw [List.drop_drop, hescape.length_sequence, Nat.add_assoc]
      have hconsumed : next.totalConsumed + size = call.totalConsumed +
          (pos + (escape.sequence.length + size)) := by
        rw [hescape.length_sequence]
        change call.totalConsumed + (pos + escape.escapeSeqLen) + size = _
        omega
      rw [hparser, hconsumed, hinput] at hread
      exact hread
  | @element a rest value size hno hmiss hfield ih =>
      have hterm := hfield.terminator_length_le
      have hsize := hfield.size_le
      rw [hpattern] at hterm
      have hlength := congrArg List.length hstream
      rw [List.length_drop, List.length_cons] at hlength
      have hroom : pos + termLen ≤ call.input.length := by omega
      have hrest : call.input.drop (pos + 1) = rest := by
        rw [← List.drop_drop, hstream, List.drop_succ_cons, List.drop_zero]
      have htake : call.input.take (pos + 1) = call.input.take pos ++ [a] := by
        rw [List.take_add, hstream, List.take_succ_cons, List.take_zero]
      have hread := ih call hstage (pos + 1) (by omega) hrest
        (hscan call hstage (pos + 1))
      rw [htake, List.append_assoc, List.singleton_append,
        Nat.add_right_comm, Nat.add_assoc] at hread
      rw [← hstream] at hno hmiss
      exact Reaches.head (hstart.trans
        ((scanEscape_passes (call.goto (.scanning pos)) hescape
          (Or.inr hno)).trans (scanTerminator_misses
            (call.goto (.scanning pos)) harray hroom hmiss))) hread

end ScanEscape

/-- Wherever the parser comes to the case, it takes so many bytes of the input
and goes on with the next case. -/
def StageReads (stage : ParseStage) (input : Octets) (size : Nat)
    (update : MessageParser → MessageParser) : Prop :=
  ∀ (before after : List ParseStage) (parser : MessageParser) (total : Nat),
    parser.complete = false → parser.stage = before.length →
      Reaches (step (before ++ stage :: after))
        ⟨parser, input, total, .dispatch⟩
        ⟨(update parser).nextStage, input.drop size, total + size, .dispatch⟩

section Dispatch

variable (call : ParseCall) (hpoint : call.point = .dispatch)
  (hopen : call.parser.complete = false)

include hpoint hopen

theorem step_static {len : Nat} {expected : Octets}
    (hcase : atCase (stages.drop call.parser.stage) =
      some (.matchStaticOctets len expected)) :
    step stages call =
      call.matchStatic len expected MessageParser.nextStage := by
  simp only [step, hpoint, dispatch, hopen, Bool.false_eq_true, if_false, hcase]

theorem step_read {name : String} {termLen : Nat} {terminator : Octets}
    {escape : Option EscapeConstants}
    (hcase : atCase (stages.drop call.parser.stage) =
      some (.readUntilTerminator name termLen terminator escape)) :
    step stages call = .ok (call.goto (.scanning 0)) := by
  simp only [step, hpoint, dispatch, hopen, Bool.false_eq_true, if_false, hcase]

theorem step_loop {collection : String} {termLen : Nat}
    {loopTerminator : Octets} {elementStages : List ParseStage}
    (hcase : atCase (stages.drop call.parser.stage) =
      some (.parseLoop collection termLen loopTerminator elementStages)) :
    step stages call = call.dispatchLoop collection termLen loopTerminator
      elementStages := by
  simp only [step, hpoint, dispatch, hopen, Bool.false_eq_true, if_false, hcase]

end Dispatch

section Scan

variable (call : ParseCall) {name : String} {termLen : Nat}
  {terminator : Octets}

theorem step_scan_plain (pos : Nat)
    (hcase : atCase (stages.drop call.parser.stage) =
      some (.readUntilTerminator name termLen terminator none)) :
    step stages (call.goto (.scanning pos)) =
      (call.goto (.scanning pos)).scanTerminator pos termLen terminator
        (fun data parser => parser.appendTo name data)
        MessageParser.nextStage .scanning := by
  simp only [step, goto_point, scan, goto_members, hcase]

theorem step_scan_escape {escape : EscapeConstants} (pos : Nat)
    (hcase : atCase (stages.drop call.parser.stage) =
      some (.readUntilTerminator name termLen terminator (some escape))) :
    step stages (call.goto (.scanning pos)) =
      (call.goto (.scanning pos)).scanEscape pos termLen terminator escape
        name := by
  simp only [step, goto_point, scan, goto_members, hcase]

end Scan

/-- A static piece that the input starts with is skipped. -/
theorem matchStatic_reads {len : Nat} {expected : Octets}
    (harray : len ≤ expected.length) {input : Octets}
    (hinput : expected.take len <+: input) :
    StageReads (.matchStaticOctets len expected) input len id := by
  intro before after parser total hopen hstage
  have hcase := atCase_drop before after
    (ParseStage.matchStaticOctets_ne_noCode len expected) hstage
  exact Reaches.single ((step_static _ rfl hopen hcase).trans
    (matchStatic_hits ⟨parser, input, total, .dispatch⟩ harray hinput))

/-- A field without escape option goes up to the first terminator. -/
theorem readPlain_reads {termLen : Nat} {terminator : Octets}
    (harray : termLen ≤ terminator.length) {input : Octets} {p : Nat}
    (hfirst : Occurrence.first (terminator.take termLen) input = some p)
    (name : String) :
    StageReads (.readUntilTerminator name termLen terminator none) input
      (p + termLen) (·.appendTo name (input.take p)) := by
  intro before after parser total hopen hstage
  have hcase := atCase_drop before after
    (ParseStage.readUntilTerminator_ne_noCode name termLen terminator none)
    hstage
  have hfound := scanTerminator_finds ⟨parser, input, total, .dispatch⟩
    (fun pos => step_scan_plain _ pos hcase) harray hfirst
  exact Reaches.head (step_read _ rfl hopen hcase) hfound

/-- A field with an escape option is read as the escape rules say. -/
theorem readEscaped_reads {termLen : Nat} {terminator : Octets}
    {escape : EscapeConstants} (harray : termLen ≤ terminator.length)
    (hescape : escape.Readable) {input value : Octets} {size : Nat}
    (h : Escape.Field (terminator.take termLen) escape.character
      escape.sequence input value size) (name : String) :
    StageReads (.readUntilTerminator name termLen terminator (some escape))
      input size (·.appendTo name value) := by
  intro before after parser total hopen hstage
  have hcase : ∀ n, n = before.length → atCase ((before ++
      .readUntilTerminator name termLen terminator (some escape) ::
        after).drop n) = _ := fun n hn => atCase_drop before after
    (ParseStage.readUntilTerminator_ne_noCode name termLen terminator
      (some escape)) hn
  have hread := scanEscape_reads
    (fun _ hcall pos => step_scan_escape _ pos (hcase _ hcall)) harray hescape h
    ⟨parser, input, total, .dispatch⟩ hstage 0 (Nat.zero_le _) rfl
  rw [List.take_zero, List.nil_append, Nat.zero_add] at hread
  exact Reaches.head (step_read _ rfl hopen (hcase _ hstage)) hread

/-- Behind the last case the call returns. -/
theorem reaches_complete {stages : List ParseStage} {parser : MessageParser}
    (hopen : parser.complete = false) (hstage : parser.stage = stages.length)
    (input : Octets) (total : Nat) :
    Reaches (step stages) ⟨parser, input, total, .dispatch⟩
      ⟨{ parser with complete := true }, input, total,
        .returned .complete⟩ := by
  refine Reaches.head (t := ⟨{ parser with complete := true }, input, total,
    .dispatch⟩) ?_ (Reaches.single ?_)
  · simp only [step, dispatch, hopen, Bool.false_eq_true, if_false, hstage,
      List.drop_length, atCase, modify]
  · simp only [step, dispatch, if_true, finish, goto]

end ParseCall

namespace LoopState

theorem fieldNames_drop_subset (stages : List ParseStage) {m n : Nat}
    (h : m ≤ n) : fieldNames (stages.drop n) ⊆ fieldNames (stages.drop m) := by
  have hdrop : ∀ (stages : List ParseStage) (n : Nat),
      fieldNames (stages.drop n) ⊆ fieldNames stages := by
    intro stages
    induction stages with
    | nil => simp
    | cons stage stages ih =>
        intro n
        cases n with
        | zero => exact fun _ h => h
        | succ n =>
            have hnext : fieldNames stages ⊆ fieldNames (stage :: stages) := by
              cases stage with
              | readUntilTerminator _ _ _ _ =>
                  exact List.subset_cons_self _ _
              | matchStaticOctets _ _ | parseLoop _ _ _ _ | noCode =>
                  exact fun _ h => h
            exact fun _ h => hnext (ih n h)
  obtain ⟨k, rfl⟩ := Nat.exists_eq_add_of_le h
  rw [← List.drop_drop]
  exact hdrop _ k

/-- A field that is being read is one of the cases to come. -/
theorem mem_fieldNames_of_atCase {stages : List ParseStage} {name : String}
    {termLen : Nat} {terminator : Octets} {escape : Option EscapeConstants}
    (h : ParseCall.atCase stages =
      some (.readUntilTerminator name termLen terminator escape)) :
    name ∈ fieldNames stages := by
  induction stages with
  | nil => contradiction
  | cons stage stages ih =>
      cases stage with
      | noCode => exact ih h
      | readUntilTerminator _ _ _ _ =>
          obtain rfl := (ParseStage.readUntilTerminator.inj
            (Option.some.inj h)).1
          exact List.mem_cons_self
      | matchStaticOctets _ _ | parseLoop _ _ _ _ =>
          exact ParseStage.noConfusion (Option.some.inj h)

end LoopState

namespace MessageParser

/-- The buffers are only appended to, and only those of these names; the
stage never falls back. -/
structure Grows (names : List String) (p q : MessageParser) : Prop where
  stage : p.stage ≤ q.stage
  buffers : ∀ name, ∃ data, q.buffers name = p.buffers name ++ data ∧
    (name ∉ names → data = [])

namespace Grows

variable {names names' : List String} {p q r : MessageParser}

theorem of_eq (hstage : p.stage ≤ q.stage) (hbuffers : q.buffers = p.buffers) :
    Grows names p q := by
  refine ⟨hstage, fun name => ⟨[], ?_, fun _ => rfl⟩⟩
  rw [hbuffers, List.append_nil]

theorem appendTo {name : String} (hname : name ∈ names) (data : Octets) :
    Grows names p (p.appendTo name data) := by
  constructor
  · exact Nat.le_refl _
  · intro other
    by_cases h : other = name
    · subst h
      exact ⟨data, p.buffers_appendTo_self other data, fun hno =>
        absurd hname hno⟩
    · refine ⟨[], ?_, fun _ => rfl⟩
      rw [p.buffers_appendTo_ne name h, List.append_nil]

theorem trans (hpq : Grows names p q) (hqr : Grows names' q r)
    (hsubset : names' ⊆ names) : Grows names p r := by
  constructor
  · exact hpq.stage.trans hqr.stage
  · intro name
    obtain ⟨data, hdata, hno⟩ := hpq.buffers name
    obtain ⟨more, hmore, hno'⟩ := hqr.buffers name
    refine ⟨data ++ more, ?_, fun hname => ?_⟩
    · rw [hmore, hdata, List.append_assoc]
    · rw [hno hname, hno' fun h => hname (hsubset h), List.append_nil]

end Grows

end MessageParser

namespace ParseCall

variable {stages : List ParseStage} {s t : ParseCall}

theorem matchStatic_members {len : Nat} {expected : Octets}
    {next : MessageParser → MessageParser}
    (h : s.matchStatic len expected next = .ok t) :
    t.parser = s.parser ∨ t.parser = next s.parser := by
  rw [matchStatic] at h
  split at h
  · obtain rfl := Except.ok.inj h
    exact Or.inl rfl
  · obtain ⟨equal, _, h⟩ := map_eq_ok h
    subst h
    cases equal with
    | true => exact Or.inr rfl
    | false => exact Or.inl rfl

theorem scanTerminator_members {pos termLen : Nat} {terminator : Octets}
    {append : Octets → MessageParser → MessageParser}
    {next : MessageParser → MessageParser} {again : Nat → ParsePoint}
    (h : s.scanTerminator pos termLen terminator append next again = .ok t) :
    t.parser = s.parser ∨ (∃ data, t.parser = append data s.parser) ∨
      ∃ data, t.parser = next (append data s.parser) := by
  rw [scanTerminator] at h
  split at h
  · obtain ⟨equal, _, h⟩ := map_eq_ok h
    subst h
    cases equal with
    | true => exact Or.inr (Or.inr ⟨_, rfl⟩)
    | false => exact Or.inl rfl
  · obtain rfl := Except.ok.inj h
    exact Or.inr (Or.inl ⟨_, rfl⟩)

/-- The data that was appended, and whether the field is at its end. -/
theorem scan_members {pos : Nat} {name : String} {termLen : Nat}
    {terminator : Octets} {escape : Option EscapeConstants}
    (hcase : atCase (stages.drop s.parser.stage) =
      some (.readUntilTerminator name termLen terminator escape))
    (h : s.scan stages pos = .ok t) :
    ∃ data, t.parser = s.parser.appendTo name data ∨
      t.parser = (s.parser.appendTo name data).nextStage := by
  have hnothing : s.parser.appendTo name [] = s.parser := by
    simp [MessageParser.appendTo]
  have hplain : s.scanTerminator pos termLen terminator
      (fun data parser => parser.appendTo name data) MessageParser.nextStage
      .scanning = .ok t → ∃ data, t.parser = s.parser.appendTo name data ∨
        t.parser = (s.parser.appendTo name data).nextStage := by
    intro h
    rcases scanTerminator_members h with h | ⟨data, h⟩ | ⟨data, h⟩
    · exact ⟨[], Or.inl (h.trans hnothing.symm)⟩
    · exact ⟨data, Or.inl h⟩
    · exact ⟨data, Or.inr h⟩
  rw [scan, hcase] at h
  cases escape with
  | none => exact hplain h
  | some escape =>
      simp only [scanEscape] at h
      split at h
      · split at h
        · split at h
          · contradiction
          · split at h
            · contradiction
            · obtain rfl := Except.ok.inj h
              exact ⟨_, Or.inl (MessageParser.appendTo_appendTo _ _ _ _)⟩
          · exact hplain h
        · exact hplain h
      · exact hplain h

theorem dispatchElement_members {collection : String}
    {elementStages : List ParseStage}
    (h : s.dispatchElement collection elementStages = .ok t) :
    t.parser = s.parser ∨
      ∃ update, t.parser = s.parser.updateLoop collection update := by
  rw [dispatchElement] at h
  split at h
  · exact (matchStatic_members h).imp id fun h => ⟨_, h⟩
  · obtain rfl := Except.ok.inj h
    exact Or.inl rfl
  · obtain rfl := Except.ok.inj h
    exact Or.inr ⟨(·.pushElement elementStages), rfl⟩

theorem dispatchLoop_members {collection : String} {termLen : Nat}
    {loopTerminator : Octets} {elementStages : List ParseStage}
    (h : s.dispatchLoop collection termLen loopTerminator elementStages =
      .ok t) :
    t.parser = s.parser ∨ t.parser = s.parser.nextStage ∨
      ∃ update, t.parser = s.parser.updateLoop collection update := by
  have helement : (if s.input = [] then .ok (s.finish .needMoreData)
      else s.dispatchElement collection elementStages) = .ok t →
      t.parser = s.parser ∨
        ∃ update, t.parser = s.parser.updateLoop collection update := by
    intro h
    split at h
    · obtain rfl := Except.ok.inj h
      exact Or.inl rfl
    · exact dispatchElement_members h
  rw [dispatchLoop] at h
  split at h
  · split at h
    · contradiction
    · obtain rfl := Except.ok.inj h
      exact Or.inr (Or.inl rfl)
    · exact (helement h).imp id Or.inr
  · exact (helement h).imp id Or.inr

/-- One turn appends to the buffer of the field that is being read, if to
any. -/
theorem step_grows (h : step stages s = .ok t) :
    s.parser.Grows (LoopState.fieldNames (stages.drop s.parser.stage))
      t.parser := by
  have hkeep : ∀ {q : MessageParser}, t.parser = q → s.parser.stage ≤ q.stage →
      q.buffers = s.parser.buffers → s.parser.Grows
        (LoopState.fieldNames (stages.drop s.parser.stage)) t.parser := by
    rintro q rfl hstage hbuffers
    exact .of_eq hstage hbuffers
  rw [step] at h
  split at h
  · rw [dispatch] at h
    split at h
    · obtain rfl := Except.ok.inj h
      exact hkeep rfl (Nat.le_refl _) rfl
    · split at h
      · rcases matchStatic_members h with h | h
        · exact hkeep h (Nat.le_refl _) rfl
        · exact hkeep h (Nat.le_succ _) rfl
      · obtain rfl := Except.ok.inj h
        exact hkeep rfl (Nat.le_refl _) rfl
      · rcases dispatchLoop_members h with h | h | ⟨update, h⟩
        · exact hkeep h (Nat.le_refl _) rfl
        · exact hkeep h (Nat.le_succ _) rfl
        · exact hkeep h (Nat.le_refl _) rfl
      · obtain rfl := Except.ok.inj h
        exact hkeep rfl (Nat.le_refl _) rfl
  · have hread : ∃ name termLen terminator escape, atCase (stages.drop
        s.parser.stage) = some (.readUntilTerminator name termLen terminator
          escape) := by
      rw [scan] at h
      split at h
      · exact ⟨_, _, _, _, ‹_›⟩
      · exact ⟨_, _, _, _, ‹_›⟩
      · contradiction
    obtain ⟨name, termLen, terminator, escape, hcase⟩ := hread
    have hname := LoopState.mem_fieldNames_of_atCase hcase
    obtain ⟨data, h | h⟩ := scan_members hcase h
    · rw [h]
      exact .appendTo hname data
    · rw [h]
      exact (MessageParser.Grows.appendTo hname data).trans
        (.of_eq (Nat.le_succ _) rfl) (List.Subset.refl _)
  · rw [scanElement] at h
    split at h
    · split at h
      · rcases scanTerminator_members h with h | ⟨data, h⟩ | ⟨data, h⟩
        · exact hkeep h (Nat.le_refl _) rfl
        · exact hkeep h (Nat.le_refl _) rfl
        · exact hkeep h (Nat.le_refl _) rfl
      · contradiction
    · contradiction
  · obtain rfl := Except.ok.inj h
    exact hkeep rfl (Nat.le_refl _) rfl

/-- The buffers of the fields that are still to come grow, the others are
kept. -/
theorem reaches_grows (h : Reaches (step stages) s t) :
    s.parser.Grows (LoopState.fieldNames (stages.drop s.parser.stage))
      t.parser := by
  induction h with
  | refl => exact .of_eq (Nat.le_refl _) rfl
  | tail _ hstep ih =>
      exact ih.trans (step_grows hstep)
        (LoopState.fieldNames_drop_subset stages ih.stage)

end ParseCall

end NetworkProtocolDsl
