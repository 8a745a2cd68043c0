/-
When the emitted parser returns.

What a turn of the loops lowers is compared in this order: the cases still to
come, the input, the pieces of an element before the next one that takes input,
and the way of the scanning loop.  There is nothing to lower where an escape
sequence is empty, and where the elements of a loop take no input; whether the
parser comes there is decided by the literals in front.
-/
import Mathlib.Data.Prod.Lex
import NetworkProtocolDsl.EscapeLoops
import NetworkProtocolDsl.Library.Endings
import NetworkProtocolDsl.Library.MapM
import NetworkProtocolDsl.ParserStages

namespace NetworkProtocolDsl

open Run CppLiteral OutputContext GenerateParser

namespace ParseStage

/-- What the case looks for is empty, so it goes on without input. -/
def takesNothing : ParseStage → Bool
  | .matchStaticOctets len _ => len == 0
  | .readUntilTerminator _ termLen _ _ => termLen == 0
  | .parseLoop _ _ _ _ | .noCode => true

/-- Some input takes the parser past the case.  The arrays have their bytes,
and an escape sequence is not what every terminator starts with. -/
def Passable : ParseStage → Prop
  | .matchStaticOctets len expected => len ≤ expected.length
  | .readUntilTerminator _ termLen terminator none =>
      termLen ≤ terminator.length
  | .readUntilTerminator _ termLen terminator (some escape) =>
      termLen ≤ terminator.length ∧
        (escape.escapeSeqLen ≤ termLen →
          memcmpEqual (terminator.take termLen) escape.escapeSeq
            escape.escapeSeqLen = .ok false)
  | .parseLoop _ termLen loopTerminator _ => termLen ≤ loopTerminator.length
  | .noCode => True

/-- The case has a loop that can go on without taking input. -/
def Degenerate : ParseStage → Prop
  | .readUntilTerminator _ _ _ (some escape) =>
      escape.escapeSeqLen = 0 ∧
        escape.escapeCharLen ≤ escape.escapeChar.length
  | .parseLoop _ termLen _ elementStages =>
      0 < termLen ∧ ∀ stage ∈ elementStages, stage.takesNothing = true
  | .matchStaticOctets _ _ | .readUntilTerminator _ _ _ none | .noCode => False

def isLoop : ParseStage → Bool
  | .parseLoop _ _ _ _ => true
  | .matchStaticOctets _ _ | .readUntilTerminator _ _ _ _ | .noCode => false

/-- What the generator keeps to: the array of a terminator has its NUL, and
there are no loops inside of a loop. -/
def WellFormed : ParseStage → Prop
  | .parseLoop _ _ loopTerminator elementStages =>
      loopTerminator ≠ [] ∧
        ∀ stage ∈ elementStages, stage.isLoop = false
  | .matchStaticOctets _ _ | .readUntilTerminator _ _ _ _ | .noCode => True

/-- The arrays of a case have the bytes that are compared or copied. -/
def PieceReadable : ParseStage → Prop
  | .matchStaticOctets len expected => len ≤ expected.length
  | .readUntilTerminator _ termLen terminator escape =>
      termLen ≤ terminator.length ∧
        ∀ constants, escape = some constants → constants.Readable
  | .parseLoop _ _ _ _ | .noCode => True

def Readable : ParseStage → Prop
  | .parseLoop _ termLen loopTerminator elementStages =>
      termLen ≤ loopTerminator.length ∧
        ∀ stage ∈ elementStages, stage.PieceReadable
  | .matchStaticOctets len expected =>
      PieceReadable (.matchStaticOctets len expected)
  | .readUntilTerminator name termLen terminator escape =>
      PieceReadable (.readUntilTerminator name termLen terminator escape)
  | .noCode => True

end ParseStage

namespace GenerateParser

variable {s array : Octets}

theorem constant_ne_nil (h : constant s = some array) : array ≠ [] := by
  obtain ⟨characters, _, rfl⟩ := Option.map_eq_some_iff.mp h
  simp

theorem elementStage_isLoop {action : Action} {stage : ParseStage}
    (h : elementStage action = some stage) : stage.isLoop = false := by
  cases action with
  | readStaticOctets octets =>
      obtain ⟨array, _, h⟩ := Option.bind_eq_some_iff.mp h
      obtain rfl := Option.some.inj h
      rfl
  | readOctetsUntilTerminator terminator identifier escape =>
      obtain ⟨array, _, h⟩ := Option.bind_eq_some_iff.mp h
      obtain rfl := Option.some.inj h
      rfl
  | _ =>
      obtain rfl := Option.some.inj h
      rfl

theorem wellFormed_of_stage {action : Action} {first : ParseStage}
    (h : stage action = some first) : first.WellFormed := by
  cases action with
  | readStaticOctets octets =>
      obtain ⟨array, _, h⟩ := Option.bind_eq_some_iff.mp h
      obtain rfl := Option.some.inj h
      exact trivial
  | readOctetsUntilTerminator terminator identifier escape =>
      obtain ⟨array, _, h⟩ := Option.bind_eq_some_iff.mp h
      cases escape with
      | none =>
          obtain rfl := Option.some.inj h
          exact trivial
      | some escape =>
          obtain ⟨constants, _, h⟩ := Option.bind_eq_some_iff.mp h
          obtain rfl := Option.some.inj h
          exact trivial
  | loop name collection terminator actions =>
      obtain ⟨array, harray, h⟩ := Option.bind_eq_some_iff.mp h
      obtain ⟨elements, helements, h⟩ := Option.bind_eq_some_iff.mp h
      obtain rfl := Option.some.inj h
      refine ⟨constant_ne_nil harray, fun element helement => ?_⟩
      obtain ⟨action, _, haction⟩ := MapM.exists_of_mem helements helement
      exact elementStage_isLoop haction
  | _ =>
      obtain rfl := Option.some.inj h
      exact trivial

theorem wellFormed_of_messageParser {actions : List Action}
    {stages : List ParseStage} (h : messageParser actions = some stages) :
    ∀ stage ∈ stages, stage.WellFormed := by
  intro stage hstage
  obtain ⟨action, _, haction⟩ := MapM.exists_of_mem h hstage
  exact wellFormed_of_stage haction

end GenerateParser

namespace ParseCall

section Cases

variable {stages : List ParseStage} {stage : ParseStage} {n : Nat}

theorem atCase_ne_noCode (h : atCase stages = some stage) :
    stage ≠ .noCode := by
  induction stages with
  | nil => contradiction
  | cons first stages ih =>
      cases first with
      | noCode => exact ih h
      | matchStaticOctets _ _ | readUntilTerminator _ _ _ _
        | parseLoop _ _ _ _ =>
          obtain rfl := Option.some.inj h
          exact ParseStage.noConfusion

theorem mem_of_atCase (h : atCase stages = some stage) : stage ∈ stages := by
  induction stages with
  | nil => contradiction
  | cons first stages ih =>
      cases first with
      | noCode => exact List.mem_cons_of_mem _ (ih h)
      | matchStaticOctets _ _ | readUntilTerminator _ _ _ _
        | parseLoop _ _ _ _ =>
          obtain rfl := Option.some.inj h
          exact List.mem_cons_self

theorem lt_length_of_atCase (h : atCase (stages.drop n) = some stage) :
    n < stages.length := by
  rcases Nat.lt_or_ge n stages.length with hlt | hge
  · exact hlt
  · rw [List.drop_eq_nil_of_le hge] at h
    contradiction

/-- A piece that takes input has code. -/
theorem atCase_of_getElem {i : Nat} (hi : i < stages.length)
    (htakes : stages[i].takesNothing = false) :
    atCase (stages.drop i) = some stages[i] := by
  rw [List.drop_eq_getElem_cons hi]
  cases hstage : stages[i] with
  | noCode | parseLoop _ _ _ _ =>
      rw [hstage] at htakes
      contradiction
  | matchStaticOctets _ _ | readUntilTerminator _ _ _ _ => rfl

theorem atCase_isSome {i : Nat} (hn : n ≤ i) (hi : i < stages.length)
    (htakes : stages[i].takesNothing = false) :
    ∃ stage, atCase (stages.drop n) = some stage := by
  induction hn using Nat.decreasingInduction with
  | self => exact ⟨_, atCase_of_getElem hi htakes⟩
  | of_succ k hk ih =>
      obtain ⟨stage, hstage⟩ := ih
      rw [List.drop_eq_getElem_cons (by omega)]
      cases stages[k] with
      | noCode => exact ⟨stage, hstage⟩
      | matchStaticOctets _ _ | readUntilTerminator _ _ _ _
        | parseLoop _ _ _ _ => exact ⟨_, rfl⟩

end Cases

/-- The first piece of an element that takes input. -/
def firstTaking (elementStages : List ParseStage) : Nat :=
  elementStages.findIdx fun stage => !stage.takesNothing

/-- How many turns of the inner switch there are at most before one of them
takes input. -/
def turnsWithoutInput (elementStages : List ParseStage) (inner : Nat) : Nat :=
  if inner ≤ firstTaking elementStages then firstTaking elementStages - inner
  else elementStages.length - inner + 1 + firstTaking elementStages

section Inner

variable {elementStages : List ParseStage} {piece : ParseStage} {inner : Nat}

theorem firstTaking_takes
    (h : firstTaking elementStages < elementStages.length) :
    elementStages[firstTaking elementStages].takesNothing = false := by
  have htakes : (!elementStages[firstTaking elementStages].takesNothing) =
      true := @List.findIdx_getElem _
    (fun stage : ParseStage => !stage.takesNothing) elementStages h
  simpa using htakes

theorem turnsWithoutInput_next
    (hcase : atCase (elementStages.drop inner) = some piece)
    (hnothing : piece.takesNothing = true) :
    turnsWithoutInput elementStages (inner + 1) <
      turnsWithoutInput elementStages inner := by
  have hlength := lt_length_of_atCase hcase
  have hne : inner ≠ firstTaking elementStages := by
    rintro rfl
    have htakes := firstTaking_takes hlength
    rw [atCase_of_getElem hlength htakes] at hcase
    obtain rfl := Option.some.inj hcase
    rw [hnothing] at htakes
    contradiction
  unfold turnsWithoutInput
  split_ifs <;> omega

theorem turnsWithoutInput_restart
    (htaking : ∃ stage ∈ elementStages, stage.takesNothing = false)
    (hcase : ∀ piece, atCase (elementStages.drop inner) = some piece →
      piece.isLoop = true)
    (hflat : ∀ stage ∈ elementStages, stage.isLoop = false) :
    turnsWithoutInput elementStages 0 <
      turnsWithoutInput elementStages inner := by
  obtain ⟨stage, hstage, hstageTakes⟩ := htaking
  have hlength : firstTaking elementStages < elementStages.length :=
    List.findIdx_lt_length_of_exists ⟨stage, hstage, by rw [hstageTakes]; rfl⟩
  have htakes := firstTaking_takes hlength
  have hlt : firstTaking elementStages < inner := by
    by_contra hle
    obtain ⟨piece, hpiece⟩ :=
      atCase_isSome (Nat.le_of_not_lt hle) hlength htakes
    have hloop := hcase piece hpiece
    rw [hflat piece (List.mem_of_mem_drop (mem_of_atCase hpiece))] at hloop
    contradiction
  unfold turnsWithoutInput
  split_ifs <;> omega

end Inner

/-- The literals in front of a case let the parser pass. -/
def Passed (stages : List ParseStage) (n : Nat) : Prop :=
  ∀ j < n, ∃ earlier, atCase (stages.drop j) = some earlier ∧ earlier.Passable

/-- The call is behind a `return`, or a comparison is outside of its array. -/
def Halted (stages : List ParseStage) (call : ParseCall) : Prop :=
  (∃ status, call.point = .returned status) ∨
    step stages call = .error .outOfRange

/-- The same for the case of a loop that the parser stands at. -/
def innerTurns (stages : List ParseStage) (parser : MessageParser) : Nat :=
  match atCase (stages.drop parser.stage) with
  | some (.parseLoop collection _ _ elementStages) =>
      turnsWithoutInput elementStages (parser.loops collection).stage
  | _ => 0

/-- How long the scanning loop goes on, with the turn that comes to it. -/
def scanTurns (call : ParseCall) : Nat :=
  match call.point with
  | .dispatch => call.input.length + 3
  | .scanning pos | .scanningElement pos => call.input.length + 1 - pos + 1
  | .returned _ => 0

/-- The cases to come, when the message is not complete. -/
def casesLeft (stages : List ParseStage) (parser : MessageParser) : Nat :=
  if parser.complete then 0 else stages.length + 1 - parser.stage

/-- What every turn lowers. -/
def rank (stages : List ParseStage) (call : ParseCall) :
    Nat ×ₗ Nat ×ₗ Nat ×ₗ Nat :=
  toLex (casesLeft stages call.parser, toLex (call.input.length,
    toLex (innerTurns stages call.parser, call.scanTurns)))

/-- The case a scanning loop belongs to, and what the parser went past. -/
structure Sound (stages : List ParseStage) (call : ParseCall) : Prop where
  passed : Passed stages call.parser.stage
  opened : ∀ pos,
    call.point = .scanning pos ∨ call.point = .scanningElement pos →
      call.parser.complete = false
  scanning : ∀ pos, call.point = .scanning pos →
    ∃ name termLen terminator escape,
      atCase (stages.drop call.parser.stage) =
        some (.readUntilTerminator name termLen terminator escape)
  scanningElement : ∀ pos, call.point = .scanningElement pos →
    ∃ collection termLen loopTerminator elementStages,
      atCase (stages.drop call.parser.stage) =
        some (.parseLoop collection termLen loopTerminator elementStages) ∧
      0 < termLen ∧ ∃ name elemTermLen elemTerminator escape,
        atCase (elementStages.drop (call.parser.loops collection).stage) =
          some (.readUntilTerminator name elemTermLen elemTerminator escape)

/-- The result of a turn is a state of lower rank. -/
def Descends (stages : List ParseStage) (s : ParseCall)
    (result : Except Fault ParseCall) : Prop :=
  result = .error .outOfRange ∨
    ∃ t, result = .ok t ∧ Sound stages t ∧ rank stages t < rank stages s

section Rank

variable {stages : List ParseStage} {s t : ParseCall} {p q : MessageParser}

theorem Passed.le_length {n : Nat} (h : Passed stages n) :
    n ≤ stages.length := by
  cases n with
  | zero => exact Nat.zero_le _
  | succ n =>
      obtain ⟨stage, hstage, _⟩ := h n (Nat.lt_succ_self n)
      exact lt_length_of_atCase hstage

theorem Passed.next {n : Nat} (h : Passed stages n) {stage : ParseStage}
    (hcase : atCase (stages.drop n) = some stage) (hpass : stage.Passable) :
    Passed stages (n + 1) := by
  intro j hj
  rcases Nat.lt_succ_iff_lt_or_eq.mp hj with hlt | rfl
  · exact h j hlt
  · exact ⟨stage, hcase, hpass⟩

theorem Sound.of_dispatch {call : ParseCall} (hpoint : call.point = .dispatch)
    (hpassed : Passed stages call.parser.stage) : Sound stages call := by
  refine ⟨hpassed, fun pos h => ?_, fun pos h => ?_, fun pos h => ?_⟩
  · rcases h with h | h <;>
      exact ParsePoint.noConfusion (hpoint.symm.trans h)
  · exact ParsePoint.noConfusion (hpoint.symm.trans h)
  · exact ParsePoint.noConfusion (hpoint.symm.trans h)

theorem Sound.of_returned {call : ParseCall} {status : ParseStatus}
    (hpoint : call.point = .returned status)
    (hpassed : Passed stages call.parser.stage) : Sound stages call := by
  refine ⟨hpassed, fun pos h => ?_, fun pos h => ?_, fun pos h => ?_⟩
  · rcases h with h | h <;>
      exact ParsePoint.noConfusion (hpoint.symm.trans h)
  · exact ParsePoint.noConfusion (hpoint.symm.trans h)
  · exact ParsePoint.noConfusion (hpoint.symm.trans h)

theorem rank_lt_of_casesLeft
    (h : casesLeft stages t.parser < casesLeft stages s.parser) :
    rank stages t < rank stages s :=
  Prod.Lex.toLex_lt_toLex.mpr (Or.inl h)

theorem rank_lt_of_input
    (hcases : casesLeft stages t.parser = casesLeft stages s.parser)
    (h : t.input.length < s.input.length) : rank stages t < rank stages s :=
  Prod.Lex.toLex_lt_toLex.mpr (Or.inr ⟨hcases,
    Prod.Lex.toLex_lt_toLex.mpr (Or.inl h)⟩)

theorem rank_lt_of_innerTurns
    (hcases : casesLeft stages t.parser = casesLeft stages s.parser)
    (hinput : t.input.length ≤ s.input.length)
    (h : innerTurns stages t.parser < innerTurns stages s.parser) :
    rank stages t < rank stages s := by
  rcases Nat.lt_or_eq_of_le hinput with hlt | heq
  · exact rank_lt_of_input hcases hlt
  · exact Prod.Lex.toLex_lt_toLex.mpr (Or.inr ⟨hcases,
      Prod.Lex.toLex_lt_toLex.mpr (Or.inr ⟨heq,
        Prod.Lex.toLex_lt_toLex.mpr (Or.inl h)⟩)⟩)

theorem rank_lt_of_scanTurns
    (hcases : casesLeft stages t.parser = casesLeft stages s.parser)
    (hinput : t.input.length = s.input.length)
    (hinner : innerTurns stages t.parser = innerTurns stages s.parser)
    (h : t.scanTurns < s.scanTurns) : rank stages t < rank stages s :=
  Prod.Lex.toLex_lt_toLex.mpr (Or.inr ⟨hcases,
    Prod.Lex.toLex_lt_toLex.mpr (Or.inr ⟨hinput,
      Prod.Lex.toLex_lt_toLex.mpr (Or.inr ⟨hinner, h⟩)⟩)⟩)

/-- The counts do not look at the buffers. -/
theorem innerTurns_congr (hstage : q.stage = p.stage)
    (hloops : ∀ name, (q.loops name).stage = (p.loops name).stage) :
    innerTurns stages q = innerTurns stages p := by
  simp only [innerTurns, hstage, hloops]

theorem casesLeft_congr (hcomplete : q.complete = p.complete)
    (hstage : q.stage = p.stage) :
    casesLeft stages q = casesLeft stages p := by
  simp only [casesLeft, hcomplete, hstage]

/-- A turn that returns. -/
theorem descends_returned (hs : Sound stages s)
    (hrunning : 0 < s.scanTurns) {status : ParseStatus}
    (hpoint : t.point = .returned status) (hinput : t.input = s.input)
    (hcomplete : t.parser.complete = s.parser.complete)
    (hstage : t.parser.stage = s.parser.stage)
    (hloops : ∀ name,
      (t.parser.loops name).stage = (s.parser.loops name).stage) :
    Descends stages s (.ok t) := by
  refine Or.inr ⟨t, rfl, Sound.of_returned hpoint ?_, ?_⟩
  · rw [hstage]
    exact hs.passed
  · refine rank_lt_of_scanTurns (casesLeft_congr hcomplete hstage)
      (congrArg _ hinput) (innerTurns_congr hstage hloops) ?_
    rw [scanTurns, hpoint]
    exact hrunning

theorem descends_finish (hs : Sound stages s) (hrunning : 0 < s.scanTurns)
    (status : ParseStatus) : Descends stages s (.ok (s.finish status)) :=
  descends_returned hs hrunning rfl rfl rfl rfl fun _ => rfl

/-- A turn that goes to the next case. -/
theorem descends_nextStage (hs : Sound stages s)
    (hopen : s.parser.complete = false) {stage : ParseStage}
    (hcase : atCase (stages.drop s.parser.stage) = some stage)
    (hpass : stage.Passable) (hpoint : t.point = .dispatch)
    (hcomplete : t.parser.complete = s.parser.complete)
    (hstage : t.parser.stage = s.parser.stage + 1) :
    Descends stages s (.ok t) := by
  refine Or.inr ⟨t, rfl, Sound.of_dispatch hpoint ?_, rank_lt_of_casesLeft ?_⟩
  · rw [hstage]
    exact hs.passed.next hcase hpass
  · have hlt := lt_length_of_atCase hcase
    rw [hopen] at hcomplete
    simp only [casesLeft, hopen, hcomplete, hstage, Bool.false_eq_true,
      if_false]
    omega

end Rank

theorem memcmpEqual_short {data array : Octets} {len : Nat}
    (h : array.length < len) :
    memcmpEqual data array len = .error .outOfRange :=
  if_pos h

theorem eq_of_memcmpEqual_error {data array : Octets} {len : Nat}
    {fault : Fault} (h : memcmpEqual data array len = .error fault) :
    fault = .outOfRange := by
  by_cases harray : array.length < len
  · rw [memcmpEqual_short harray] at h
    exact (Except.error.inj h).symm
  · rw [memcmpEqual, if_neg harray] at h
    contradiction

/-- Where a field with an escape option ends there is a terminator that does
not start with the sequence. -/
theorem passable_of_hit {name : String} {termLen : Nat} {terminator : Octets}
    {escape : EscapeConstants} {data : Octets}
    (harray : termLen ≤ terminator.length)
    (hhit : terminator.take termLen <+: data)
    (hmiss : escape.escapeSeqLen ≤ termLen →
      memcmpEqual data escape.escapeSeq escape.escapeSeqLen = .ok false) :
    (ParseStage.readUntilTerminator name termLen terminator
      (some escape)).Passable := by
  refine ⟨harray, fun hle => ?_⟩
  have hstart := List.prefix_iff_eq_take.mp hhit
  rw [List.length_take, Nat.min_eq_left harray] at hstart
  rw [← hmiss hle]
  refine memcmpEqual_congr _ ?_
  rw [hstart, List.take_take, Nat.min_eq_left hle]

section Turns

variable {stages : List ParseStage} {s : ParseCall}

/-- What `matchStatic` can do. -/
theorem matchStatic_cases (len : Nat) (expected : Octets)
    (next : MessageParser → MessageParser) :
    s.matchStatic len expected next = .error .outOfRange ∨
      (∃ status, s.matchStatic len expected next = .ok (s.finish status)) ∨
      len ≤ s.input.length ∧ len ≤ expected.length ∧
        s.matchStatic len expected next =
          .ok ((s.consume len).modify next) := by
  by_cases hlength : s.input.length < len
  · exact Or.inr (Or.inl ⟨_, matchStatic_short s hlength⟩)
  · have hlength := Nat.le_of_not_lt hlength
    by_cases harray : len ≤ expected.length
    · by_cases hhit : expected.take len <+: s.input
      · exact Or.inr (Or.inr
          ⟨hlength, harray, matchStatic_hits s harray hhit⟩)
      · exact Or.inr (Or.inl
          ⟨_, matchStatic_misses s harray hlength hhit⟩)
    · refine Or.inl ?_
      rw [matchStatic, if_neg (Nat.not_lt.mpr hlength),
        memcmpEqual_short (Nat.lt_of_not_le harray)]
      rfl

variable {pos termLen : Nat} {terminator : Octets}
  {append : Octets → MessageParser → MessageParser}
  {next : MessageParser → MessageParser} {again : Nat → ParsePoint}

/-- What a turn of the loop that searches the terminator can do. -/
theorem scanTerminator_cases :
    s.scanTerminator pos termLen terminator append next again =
        .error .outOfRange ∨
      (termLen ≤ terminator.length ∧ pos + termLen ≤ s.input.length ∧
        terminator.take termLen <+: s.input.drop pos ∧
        s.scanTerminator pos termLen terminator append next again =
          .ok ((((s.modify (append (s.input.take pos))).consume
            (pos + termLen)).modify next).goto .dispatch)) ∨
      (pos ≤ s.input.length ∧
        s.scanTerminator pos termLen terminator append next again =
          .ok (s.goto (again (pos + 1)))) ∨
      s.scanTerminator pos termLen terminator append next again =
        .ok { (s.modify (append s.input)).finish .needMoreData with
          totalConsumed := s.totalConsumed + s.input.length } := by
  by_cases hroom : pos + termLen ≤ s.input.length
  · by_cases harray : termLen ≤ terminator.length
    · by_cases hhit : terminator.take termLen <+: s.input.drop pos
      · exact Or.inr (Or.inl ⟨harray, hroom, hhit,
          scanTerminator_hits s harray hroom hhit⟩)
      · exact Or.inr (Or.inr (Or.inl ⟨by omega,
          scanTerminator_misses s harray hroom hhit⟩))
    · refine Or.inl ?_
      rw [scanTerminator, if_pos hroom,
        memcmpEqual_short (Nat.lt_of_not_le harray)]
      rfl
  · exact Or.inr (Or.inr (Or.inr
      (scanTerminator_ends s (Nat.lt_of_not_le hroom))))

/-- Where there is no escape sequence, only the terminator is searched. -/
theorem scanEscape_eq_scanTerminator {escape : EscapeConstants}
    {name : String}
    (h : pos + termLen ≤ s.input.length →
      pos + escape.escapeSeqLen ≤ s.input.length →
        memcmpEqual (s.input.drop pos) escape.escapeSeq escape.escapeSeqLen =
          .ok false) :
    s.scanEscape pos termLen terminator escape name =
      s.scanTerminator pos termLen terminator
        (fun data parser => parser.appendTo name data)
        MessageParser.nextStage .scanning := by
  rw [scanEscape]
  split
  · rename_i hroom
    split
    · rename_i hsequence
      rw [h hroom hsequence]
    · rfl
  · rfl

theorem scanTurns_pos (h : s.point = .scanning pos ∨
    s.point = .scanningElement pos) :
    s.scanTurns = s.input.length + 1 - pos + 1 := by
  rcases h with h | h <;> simp only [scanTurns, h]

section TopLevel

variable {name : String} {escape : Option EscapeConstants}
  (hs : Sound stages s) (hpoint : s.point = .scanning pos)
  (hcase : atCase (stages.drop s.parser.stage) =
    some (.readUntilTerminator name termLen terminator escape))

include hs hpoint hcase

/-- The search of a terminator behind which the next case stands. -/
theorem scanTerminator_descends
    (hpass : termLen ≤ terminator.length →
      pos + termLen ≤ s.input.length →
      terminator.take termLen <+: s.input.drop pos →
      (ParseStage.readUntilTerminator name termLen terminator
        escape).Passable) :
    Descends stages s (s.scanTerminator pos termLen terminator
      (fun data parser => parser.appendTo name data)
      MessageParser.nextStage .scanning) := by
  have hturns := scanTurns_pos (Or.inl hpoint)
  have hopen := hs.opened pos (Or.inl hpoint)
  rcases scanTerminator_cases with h | ⟨harray, hroom, hhit, h⟩ | ⟨hpos, h⟩ | h
  · exact Or.inl h
  · rw [h]
    exact descends_nextStage hs hopen hcase (hpass harray hroom hhit) rfl rfl
      rfl
  · rw [h]
    refine Or.inr ⟨_, rfl, ⟨hs.passed, fun _ _ => hopen,
      fun _ _ => ⟨_, _, _, _, hcase⟩,
      fun _ h => ParsePoint.noConfusion h⟩, ?_⟩
    refine rank_lt_of_scanTurns rfl rfl rfl ?_
    rw [hturns]
    change s.input.length + 1 - (pos + 1) + 1 < _
    omega
  · rw [h]
    exact descends_returned hs (by omega) rfl rfl rfl rfl fun _ => rfl

theorem scan_descends (hgood : ¬ (ParseStage.readUntilTerminator name termLen
    terminator escape).Degenerate) : Descends stages s (s.scan stages pos) := by
  cases escape with
  | none =>
      simp only [scan, hcase]
      exact scanTerminator_descends hs hpoint hcase fun harray _ _ => harray
  | some escape =>
      simp only [scan, hcase]
      have hopen := hs.opened pos (Or.inl hpoint)
      rw [scanEscape]
      split
      · split
        · split
          · rename_i fault hfault
            obtain rfl := eq_of_memcmpEqual_error hfault
            exact Or.inl rfl
          · split
            · exact Or.inl rfl
            · rename_i hroom hsequence _ hchar
              have hchar := Nat.le_of_not_lt hchar
              have hlen : escape.escapeSeqLen ≠ 0 :=
                fun h => hgood ⟨h, hchar⟩
              refine Or.inr ⟨_, rfl, ⟨hs.passed, fun _ _ => hopen,
                fun _ _ => ⟨_, _, _, _, hcase⟩,
                fun _ h => ParsePoint.noConfusion h⟩, ?_⟩
              refine rank_lt_of_input rfl ?_
              change (s.input.drop (pos + escape.escapeSeqLen)).length < _
              rw [List.length_drop]
              omega
          · rename_i hmiss
            exact scanTerminator_descends hs hpoint hcase
              fun harray _ hhit => passable_of_hit harray hhit fun _ => hmiss
        · rename_i hroom hsequence
          refine scanTerminator_descends hs hpoint hcase
            fun harray _ hhit => passable_of_hit harray hhit fun hle => ?_
          omega
      · rename_i hroom
        exact scanTerminator_descends hs hpoint hcase
          fun _ hroom' _ => absurd hroom' hroom

end TopLevel

section Element

variable {collection : String} {loopTermLen : Nat} {loopTerminator : Octets}
  {elementStages : List ParseStage} (hs : Sound stages s)
  (hopen : s.parser.complete = false)
  (hcase : atCase (stages.drop s.parser.stage) =
    some (.parseLoop collection loopTermLen loopTerminator elementStages))

include hcase

theorem innerTurns_parseLoop (parser : MessageParser)
    (hstage : parser.stage = s.parser.stage) :
    innerTurns stages parser = turnsWithoutInput elementStages
      (parser.loops collection).stage := by
  simp only [innerTurns, hstage, hcase]

include hs

/-- A turn that goes to the next piece of an element. -/
theorem descends_nextPiece {piece : ParseStage}
    (hpiece : atCase (elementStages.drop
      (s.parser.loops collection).stage) = some piece) {t : ParseCall}
    (hpoint : t.point = .dispatch)
    (hcomplete : t.parser.complete = s.parser.complete)
    (hstage : t.parser.stage = s.parser.stage)
    (hloop : (t.parser.loops collection).stage =
      (s.parser.loops collection).stage + 1)
    (hinput : t.input.length ≤ s.input.length)
    (hnothing : piece.takesNothing = true ∨
      t.input.length < s.input.length) :
    Descends stages s (.ok t) := by
  have hpassed : Passed stages t.parser.stage := by
    rw [hstage]
    exact hs.passed
  have hcases : casesLeft stages t.parser = casesLeft stages s.parser :=
    casesLeft_congr hcomplete hstage
  refine Or.inr ⟨t, rfl, Sound.of_dispatch hpoint hpassed, ?_⟩
  rcases hnothing with hnothing | hlt
  · refine rank_lt_of_innerTurns hcases hinput ?_
    rw [innerTurns_parseLoop hcase _ hstage, innerTurns_parseLoop hcase _ rfl,
      hloop]
    exact turnsWithoutInput_next hpiece hnothing
  · exact rank_lt_of_input hcases hlt

theorem scanElement_descends (hpoint : s.point = .scanningElement pos) :
    Descends stages s (s.scanElement stages pos) := by
  have hturns := scanTurns_pos (Or.inr hpoint)
  have hopen := hs.opened pos (Or.inr hpoint)
  obtain ⟨_, _, _, _, hcase', hterm, name, elemTermLen, elemTerminator, escape,
    hpiece⟩ := hs.scanningElement pos hpoint
  obtain ⟨rfl, rfl, rfl, rfl⟩ := ParseStage.parseLoop.inj
    (Option.some.inj (hcase.symm.trans hcase'))
  simp only [scanElement, hcase, hpiece]
  rcases scanTerminator_cases with h | ⟨harray, hroom, hhit, h⟩ | ⟨hpos, h⟩ | h
  · exact Or.inl h
  · rw [h]
    refine descends_nextPiece hs hcase hpiece rfl rfl rfl ?_ ?_ ?_
    · have happend := s.parser.stage_updateLoop collection
        (·.appendTo name (s.input.take pos)) (fun _ => rfl) collection
      refine (congrArg LoopState.stage (MessageParser.loops_updateLoop _
        collection LoopState.nextStage)).trans ?_
      exact congrArg (· + 1) happend
    · change (s.input.drop (pos + elemTermLen)).length ≤ s.input.length
      rw [List.length_drop]
      omega
    · cases hlen : elemTermLen with
      | zero => exact Or.inl rfl
      | succ len =>
          right
          change (s.input.drop (pos + (len + 1))).length < s.input.length
          rw [List.length_drop]
          omega
  · rw [h]
    refine Or.inr ⟨_, rfl, ⟨hs.passed, fun _ _ => hopen,
      fun _ h => ParsePoint.noConfusion h,
      fun _ _ => hs.scanningElement pos hpoint⟩, ?_⟩
    refine rank_lt_of_scanTurns rfl rfl rfl ?_
    rw [hturns]
    change s.input.length + 1 - (pos + 1) + 1 < _
    omega
  · rw [h]
    exact descends_returned hs (by omega) rfl rfl rfl rfl
      (s.parser.stage_updateLoop collection (·.appendTo name s.input)
        fun _ => rfl)

/-- A turn of the inner switch. -/
theorem dispatchElement_descends (hrunning : 0 < s.scanTurns)
    (hpoint : s.point = .dispatch) (hopen : s.parser.complete = false)
    (hterm : 0 < loopTermLen)
    (htaking : ∃ stage ∈ elementStages, stage.takesNothing = false)
    (hflat : ∀ stage ∈ elementStages, stage.isLoop = false) :
    Descends stages s (s.dispatchElement collection elementStages) := by
  have hpush : (∀ piece, atCase (elementStages.drop
      (s.parser.loops collection).stage) = some piece → piece.isLoop = true) →
      Descends stages s (.ok (s.modify fun parser =>
        parser.updateLoop collection (·.pushElement elementStages))) := by
    intro hpieces
    refine Or.inr ⟨_, rfl, Sound.of_dispatch hpoint hs.passed, ?_⟩
    refine rank_lt_of_innerTurns rfl (Nat.le_refl _) ?_
    have hloop := s.parser.loops_updateLoop collection
      (·.pushElement elementStages)
    have hpushed := innerTurns_parseLoop hcase (s.parser.updateLoop collection
      (·.pushElement elementStages)) rfl
    rw [hloop] at hpushed
    rw [innerTurns_parseLoop hcase s.parser rfl]
    exact hpushed.trans_lt (turnsWithoutInput_restart htaking hpieces hflat)
  rw [dispatchElement]
  split
  · rename_i len expected hpiece
    rcases matchStatic_cases len expected (fun parser : MessageParser =>
      parser.updateLoop collection LoopState.nextStage) with
      h | ⟨status, h⟩ | ⟨hlength, _, h⟩
    · exact Or.inl h
    · rw [h]
      exact descends_finish hs hrunning status
    · rw [h]
      refine descends_nextPiece hs hcase hpiece hpoint rfl rfl ?_ ?_ ?_
      · exact congrArg LoopState.stage (s.parser.loops_updateLoop collection
          LoopState.nextStage)
      · change (s.input.drop len).length ≤ s.input.length
        rw [List.length_drop]
        omega
      · cases len with
        | zero => exact Or.inl rfl
        | succ len =>
            right
            change (s.input.drop (len + 1)).length < s.input.length
            rw [List.length_drop]
            omega
  · rename_i hpiece
    refine Or.inr ⟨_, rfl, ⟨hs.passed, fun _ _ => hopen,
      fun _ h => ParsePoint.noConfusion h,
      fun _ _ => ⟨_, _, _, _, hcase, hterm, _, _, _, _, hpiece⟩⟩, ?_⟩
    refine rank_lt_of_scanTurns rfl rfl rfl ?_
    simp only [scanTurns, hpoint, goto_point, goto_input]
    omega
  · rename_i hstatic hread
    refine hpush fun piece hpiece => ?_
    cases piece with
    | matchStaticOctets len expected => exact absurd hpiece (hstatic _ _)
    | readUntilTerminator name termLen terminator escape =>
        exact absurd hpiece (hread _ _ _ _)
    | parseLoop _ _ _ _ => rfl
    | noCode => exact absurd rfl (atCase_ne_noCode hpiece)

theorem dispatchLoop_descends (hrunning : 0 < s.scanTurns)
    (hpoint : s.point = .dispatch) (hopen : s.parser.complete = false)
    (hgood : ¬ (ParseStage.parseLoop collection loopTermLen loopTerminator
      elementStages).Degenerate)
    (hflat : ∀ stage ∈ elementStages, stage.isLoop = false) :
    Descends stages s (s.dispatchLoop collection loopTermLen loopTerminator
      elementStages) := by
  have helement : 0 < loopTermLen → Descends stages s
      (if s.input = [] then .ok (s.finish .needMoreData)
      else s.dispatchElement collection elementStages) := by
    intro hterm
    split_ifs
    · exact descends_finish hs hrunning .needMoreData
    · have htaking : ∃ stage ∈ elementStages, stage.takesNothing = false := by
        by_contra hnone
        refine hgood ⟨hterm, fun stage hstage => ?_⟩
        by_contra htakes
        exact hnone ⟨stage, hstage, Bool.eq_false_of_not_eq_true htakes⟩
      exact dispatchElement_descends hs hcase hrunning hpoint hopen hterm
        htaking hflat
  rw [dispatchLoop]
  split
  · rename_i hroom
    split
    · rename_i fault hfault
      obtain rfl := eq_of_memcmpEqual_error hfault
      exact Or.inl rfl
    · rename_i hequal
      have harray : loopTermLen ≤ loopTerminator.length := by
        by_contra hshort
        rw [memcmpEqual_short (Nat.lt_of_not_le hshort)] at hequal
        contradiction
      exact descends_nextStage hs hopen hcase harray hpoint rfl rfl
    · rename_i hequal
      refine helement (Nat.pos_of_ne_zero ?_)
      rintro rfl
      rw [memcmpEqual_eq (Nat.zero_le _), List.take_zero,
        decide_eq_true List.nil_prefix] at hequal
      contradiction
  · rename_i hroom
    exact helement (by omega)

end Element

/-- No case that the parser can come to is degenerate. -/
def NoneDegenerate (stages : List ParseStage) : Prop :=
  ∀ n stage, atCase (stages.drop n) = some stage → Passed stages n →
    ¬ stage.Degenerate

theorem dispatch_descends (hs : Sound stages s) (hpoint : s.point = .dispatch)
    (hgood : NoneDegenerate stages)
    (hformed : ∀ stage ∈ stages, stage.WellFormed) :
    Descends stages s (s.dispatch stages) := by
  have hrunning : 0 < s.scanTurns := by
    simp only [scanTurns, hpoint]
    omega
  rw [dispatch]
  split
  · exact descends_finish hs hrunning .complete
  · rename_i hcomplete
    have hopen := Bool.eq_false_of_not_eq_true hcomplete
    split
    · rename_i len expected hcase
      rcases matchStatic_cases len expected MessageParser.nextStage with
        h | ⟨status, h⟩ | ⟨_, harray, h⟩
      · exact Or.inl h
      · rw [h]
        exact descends_finish hs hrunning status
      · rw [h]
        exact descends_nextStage hs hopen hcase harray hpoint rfl rfl
    · rename_i hcase
      refine Or.inr ⟨_, rfl, ⟨hs.passed, fun _ _ => hopen,
        fun _ _ => ⟨_, _, _, _, hcase⟩,
        fun _ h => ParsePoint.noConfusion h⟩, ?_⟩
      refine rank_lt_of_scanTurns rfl rfl rfl ?_
      simp only [scanTurns, hpoint, goto_point, goto_input]
      omega
    · rename_i hcase
      have hformed := hformed _ (List.mem_of_mem_drop (mem_of_atCase hcase))
      exact dispatchLoop_descends hs hcase hrunning hpoint hopen
        (hgood _ _ hcase hs.passed) hformed.2
    · refine Or.inr ⟨_, rfl, Sound.of_dispatch hpoint hs.passed,
        rank_lt_of_casesLeft ?_⟩
      have hle := hs.passed.le_length
      simp only [casesLeft, modify, hopen, Bool.false_eq_true, if_false,
        if_true]
      omega

/-- Every turn lowers the rank. -/
theorem step_descends (hs : Sound stages s) (hgood : NoneDegenerate stages)
    (hformed : ∀ stage ∈ stages, stage.WellFormed)
    (hrunning : ¬ Halted stages s) :
    ∃ t, step stages s = .ok t ∧ Sound stages t ∧
      rank stages t < rank stages s := by
  have hstep : Descends stages s (step stages s) := by
    cases hpoint : s.point with
    | dispatch =>
        simp only [step, hpoint]
        exact dispatch_descends hs hpoint hgood hformed
    | scanning pos =>
        simp only [step, hpoint]
        obtain ⟨name, termLen, terminator, escape, hcase⟩ :=
          hs.scanning pos hpoint
        exact scan_descends hs hpoint hcase (hgood _ _ hcase hs.passed)
    | scanningElement pos =>
        simp only [step, hpoint]
        obtain ⟨collection, termLen, loopTerminator, elementStages, hcase, _⟩ :=
          hs.scanningElement pos hpoint
        exact scanElement_descends hs hcase hpoint
    | returned status => exact absurd (Or.inl ⟨status, hpoint⟩) hrunning
  rcases hstep with hfault | hstep
  · exact absurd (Or.inr hfault) hrunning
  · exact hstep

end Turns

/-- The states a parser is in between its calls. -/
inductive Reachable (stages : List ParseStage) : MessageParser → Prop
  | reset : Reachable stages MessageParser.reset
  | parse {parser : MessageParser} (input : Octets) {t : ParseCall}
      {status : ParseStatus} :
      Reachable stages parser →
      Reaches (step stages) (start parser input) t →
      t.point = .returned status → Reachable stages t.parser

/-- Whatever the parser is given, the call comes to an end. -/
def AlwaysEnds (stages : List ParseStage) : Prop :=
  ∀ parser, Reachable stages parser → ∀ input,
    Ends (step stages) (Halted stages) (start parser input)

section Termination

variable {stages : List ParseStage} {s t : ParseCall}

theorem eq_of_halted (hhalted : Halted stages s) (t : ParseCall)
    (hstep : step stages s = .ok t) : t = s := by
  rcases hhalted with ⟨status, hpoint⟩ | hfault
  · exact Except.ok.inj (hstep.symm.trans (step_returned hpoint))
  · rw [hfault] at hstep
    contradiction

variable (hgood : NoneDegenerate stages)
  (hformed : ∀ stage ∈ stages, stage.WellFormed)

include hgood hformed

theorem sound_of_reaches (hreach : Reaches (step stages) s t)
    (hs : Sound stages s) : Sound stages t := by
  refine hreach.invariant (fun u v hu huv => ?_) hs
  by_cases hhalted : Halted stages u
  · obtain rfl := eq_of_halted hhalted v huv
    exact hu
  · obtain ⟨next, hnext, hsound, _⟩ := step_descends hu hgood hformed hhalted
    obtain rfl := Except.ok.inj (huv.symm.trans hnext)
    exact hsound

theorem passed_of_reachable {parser : MessageParser}
    (h : Reachable stages parser) : Passed stages parser.stage := by
  induction h with
  | reset => exact fun j hj => absurd hj (Nat.not_lt_zero j)
  | parse input _ hreach _ ih =>
      exact (sound_of_reaches hgood hformed hreach
        (Sound.of_dispatch rfl ih)).passed

theorem alwaysEnds_of_noneDegenerate : AlwaysEnds stages := by
  intro parser hparser input
  have hpassed := passed_of_reachable hgood hformed hparser
  exact Ends.of_rank (rank stages)
    (fun s hs hrunning => step_descends hs hgood hformed hrunning)
    (Sound.of_dispatch rfl hpassed)

end Termination

end ParseCall

namespace ParseStage

/-- What the case looks for. -/
def literal : ParseStage → Octets
  | .matchStaticOctets len expected => expected.take len
  | .readUntilTerminator _ termLen terminator _ => terminator.take termLen
  | .parseLoop _ termLen loopTerminator _ => loopTerminator.take termLen
  | .noCode => []

def searchSize : ParseStage → Nat
  | .matchStaticOctets len _ => len
  | .readUntilTerminator _ termLen _ _ => termLen
  | .parseLoop _ termLen _ _ => termLen
  | .noCode => 0

theorem literal_eq_nil {stage : ParseStage} (h : stage.searchSize = 0) :
    stage.literal = [] := by
  cases stage with
  | noCode => rfl
  | matchStaticOctets len _ | readUntilTerminator _ len _ _
    | parseLoop _ len _ _ =>
      obtain rfl : len = 0 := h
      rfl

end ParseStage

namespace ParseCall

/-- The call is at the head of a case and has no input left. -/
structure StandsAt (n : Nat) (call : ParseCall) : Prop where
  point : call.point = .dispatch
  input : call.input = []
  stage : call.parser.stage = n
  opened : call.parser.complete = false

section Literals

variable {stages : List ParseStage} {stage : ParseStage}
  {parser : MessageParser}
  (hcase : atCase (stages.drop parser.stage) = some stage)
  (hopen : parser.complete = false)

include hcase hopen

/-- Its literal alone takes the parser past the case. -/
theorem reaches_next (hpass : stage.Passable) (total : Nat) :
    ∃ t, Reaches (step stages) ⟨parser, stage.literal, total, .dispatch⟩ t ∧
      StandsAt (parser.stage + 1) t := by
  cases stage with
  | noCode => exact absurd rfl (atCase_ne_noCode hcase)
  | matchStaticOctets len expected =>
      have hdrop : (expected.take len).drop len = [] :=
        List.drop_eq_nil_of_le (List.length_take_le len expected)
      exact ⟨_, Reaches.single ((step_static _ rfl hopen hcase).trans
        (matchStatic_hits _ hpass (List.prefix_refl _))),
        ⟨rfl, hdrop, rfl, hopen⟩⟩
  | readUntilTerminator name termLen terminator escape =>
      have harray : termLen ≤ terminator.length := by
        cases escape with
        | none => exact hpass
        | some escape => exact hpass.1
      have hlength : (terminator.take termLen).length = termLen := by
        rw [List.length_take, Nat.min_eq_left harray]
      have hroom : 0 + termLen ≤ (terminator.take termLen).length := by
        omega
      have hdrop : (terminator.take termLen).drop (0 + termLen) = [] :=
        List.drop_eq_nil_of_le (by omega)
      let call : ParseCall :=
        ⟨parser, terminator.take termLen, total, .dispatch⟩
      have hfound : step stages (call.goto (.scanning 0)) =
          (call.goto (.scanning 0)).scanTerminator 0 termLen terminator
            (fun data parser => parser.appendTo name data)
            MessageParser.nextStage .scanning := by
        cases escape with
        | none => exact step_scan_plain call 0 hcase
        | some escape =>
            refine (step_scan_escape call 0 hcase).trans
              (scanEscape_eq_scanTerminator fun _ hsequence => hpass.2 ?_)
            change 0 + _ ≤ (terminator.take termLen).length at hsequence
            omega
      exact ⟨_, Reaches.head (step_read call rfl hopen hcase)
        (Reaches.single (hfound.trans (scanTerminator_hits
          (call.goto (.scanning 0)) harray hroom (List.prefix_refl _)))),
        ⟨rfl, hdrop, rfl, hopen⟩⟩
  | parseLoop collection termLen loopTerminator elementStages =>
      have hlength : (loopTerminator.take termLen).length = termLen := by
        rw [List.length_take, Nat.min_eq_left hpass]
      have hdrop : (loopTerminator.take termLen).drop termLen = [] :=
        List.drop_eq_nil_of_le (by omega)
      let call : ParseCall :=
        ⟨parser, loopTerminator.take termLen, total, .dispatch⟩
      have hends : call.dispatchLoop collection termLen loopTerminator
          elementStages =
            .ok ((call.consume termLen).modify MessageParser.nextStage) := by
        rw [dispatchLoop, if_pos (by exact hlength.ge), memcmpEqual_eq hpass,
          decide_eq_true (List.prefix_refl _)]
      exact ⟨_, Reaches.single ((step_loop call rfl hopen hcase).trans hends),
        ⟨rfl, hdrop, rfl, hopen⟩⟩

/-- Without input a case that looks for something returns. -/
theorem reaches_waiting (hsize : 0 < stage.searchSize) (total : Nat) :
    ∃ t status, Reaches (step stages) ⟨parser, [], total, .dispatch⟩ t ∧
      t.point = .returned status ∧ t.parser.stage = parser.stage ∧
      t.parser.complete = false := by
  cases stage with
  | noCode => exact absurd rfl (atCase_ne_noCode hcase)
  | matchStaticOctets len expected =>
      exact ⟨_, _, Reaches.single ((step_static _ rfl hopen hcase).trans
        (matchStatic_short _ hsize)), rfl, rfl, hopen⟩
  | readUntilTerminator name termLen terminator escape =>
      have hterm : 0 < termLen := hsize
      let call : ParseCall := ⟨parser, [], total, .dispatch⟩
      have hroom : call.input.length < 0 + termLen := by
        change 0 < 0 + termLen
        omega
      have hends : step stages (call.goto (.scanning 0)) =
          (call.goto (.scanning 0)).scanTerminator 0 termLen terminator
            (fun data parser => parser.appendTo name data)
            MessageParser.nextStage .scanning := by
        cases escape with
        | none => exact step_scan_plain call 0 hcase
        | some escape =>
            exact (step_scan_escape call 0 hcase).trans
              (scanEscape_eq_scanTerminator fun hle _ =>
                absurd hle (Nat.not_le.mpr hroom))
      exact ⟨_, _, Reaches.head (step_read call rfl hopen hcase)
        (Reaches.single (hends.trans
          (scanTerminator_ends (call.goto (.scanning 0)) hroom))),
        rfl, rfl, hopen⟩
  | parseLoop collection termLen loopTerminator elementStages =>
      let call : ParseCall := ⟨parser, [], total, .dispatch⟩
      have hterm : ¬ termLen ≤ call.input.length := Nat.not_le.mpr hsize
      have hwaits : call.dispatchLoop collection termLen loopTerminator
          elementStages = .ok (call.finish .needMoreData) := by
        rw [dispatchLoop, if_neg hterm, if_pos rfl]
      exact ⟨_, _, Reaches.single ((step_loop call rfl hopen hcase).trans
        hwaits), rfl, rfl, hopen⟩

end Literals

section Degenerate

variable {stages : List ParseStage}

/-- A state that goes on has not halted. -/
theorem not_halted {s t : ParseCall}
    (hpoint : ∀ status, s.point ≠ .returned status)
    (hstep : step stages s = .ok t) : ¬ Halted stages s := by
  rintro (⟨status, h⟩ | hfault)
  · exact hpoint status h
  · rw [hstep] at hfault
    contradiction

/-- Calls that keep clear of every `return` have no end. -/
theorem not_ends {invariant : ParseCall → Prop} {s : ParseCall}
    (hpoint : ∀ s status, invariant s → s.point ≠ .returned status)
    (hstep : ∀ s, invariant s → ∃ t, step stages s = .ok t ∧ invariant t)
    (hs : invariant s) : ¬ Ends (step stages) (Halted stages) s := by
  refine Ends.not_of_invariant hstep (fun s hs => ?_) hs
  obtain ⟨t, ht, _⟩ := hstep s hs
  exact not_halted (fun status => hpoint s status hs) ht

/-- The call replaces an empty escape sequence. -/
structure Replacing (n termLen : Nat) (call : ParseCall) : Prop where
  point : call.point = .dispatch ∨ call.point = .scanning 0
  stage : call.parser.stage = n
  opened : call.parser.complete = false
  room : termLen ≤ call.input.length

/-- With an empty escape sequence there is no way out of the scanning loop. -/
theorem replacing_next {n : Nat} {name : String} {termLen : Nat}
    {terminator : Octets} {escape : EscapeConstants}
    (hcase : atCase (stages.drop n) =
      some (.readUntilTerminator name termLen terminator (some escape)))
    (hempty : escape.escapeSeqLen = 0)
    (hchar : escape.escapeCharLen ≤ escape.escapeChar.length) (s : ParseCall)
    (hs : Replacing n termLen s) :
    ∃ t, step stages s = .ok t ∧ Replacing n termLen t := by
  rw [← hs.stage] at hcase
  have hroom : 0 + termLen ≤ s.input.length := by
    have hroom := hs.room
    omega
  rcases hs.point with hpoint | hpoint
  · exact ⟨_, step_read s hpoint hs.opened hcase,
      ⟨Or.inr rfl, hs.stage, hs.opened, hs.room⟩⟩
  · have hgoto : s = s.goto (.scanning 0) := by
      rw [← hpoint]
      rfl
    have hreadable : escape.Readable := ⟨by omega, hchar⟩
    have hnil : escape.sequence = [] := by
      rw [EscapeConstants.sequence, hempty]
      exact List.take_zero
    have hstep := (step_scan_escape s 0 hcase).trans
      (scanEscape_replaces (s.goto (.scanning 0)) hreadable hroom
        (by rw [hnil]; exact List.nil_prefix))
    rw [← hgoto] at hstep
    refine ⟨_, hstep, ⟨Or.inr rfl, hs.stage, hs.opened, ?_⟩⟩
    change termLen ≤ (s.input.drop (0 + escape.escapeSeqLen)).length
    rw [hempty]
    exact hs.room

/-- The call repeats elements that take no input. -/
structure Repeating (n : Nat) (input : Octets) (collection : String)
    (elementStages : List ParseStage) (call : ParseCall) : Prop where
  stage : call.parser.stage = n
  opened : call.parser.complete = false
  input : call.input = input
  point : call.point = .dispatch ∨ call.point = .scanningElement 0 ∧
    ∃ name terminator escape, atCase (elementStages.drop
      (call.parser.loops collection).stage) =
        some (.readUntilTerminator name 0 terminator escape)

/-- The pieces of such an element follow each other without end. -/
theorem repeating_next {n : Nat} {collection : String} {termLen : Nat}
    {loopTerminator : Octets} {elementStages : List ParseStage}
    (hcase : atCase (stages.drop n) =
      some (.parseLoop collection termLen loopTerminator elementStages))
    (hnothing : ∀ stage ∈ elementStages, stage.takesNothing = true)
    {input : Octets} (hinput : input ≠ [])
    (hno : termLen ≤ input.length →
      memcmpEqual input loopTerminator termLen = .ok false) (s : ParseCall)
    (hs : Repeating n input collection elementStages s) :
    ∃ t, step stages s = .ok t ∧
      Repeating n input collection elementStages t := by
  rw [← hs.stage] at hcase
  rcases hs.point with hpoint | ⟨hpoint, name, terminator, escape, hpiece⟩
  · have hstep : step stages s =
        s.dispatchElement collection elementStages := by
      rw [step_loop s hpoint hs.opened hcase, dispatchLoop, hs.input,
        if_neg hinput]
      split
      · rename_i hroom
        rw [hno hroom]
      · rfl
    rw [hstep, dispatchElement]
    split
    · rename_i len expected hpiece
      have hlen : len = 0 := by
        have h := hnothing _ (List.mem_of_mem_drop (mem_of_atCase hpiece))
        exact eq_of_beq h
      subst hlen
      exact ⟨_, matchStatic_hits s (Nat.zero_le _) List.nil_prefix,
        ⟨hs.stage, hs.opened, hs.input, Or.inl hpoint⟩⟩
    · rename_i name termLen terminator escape hpiece
      have hlen : termLen = 0 := by
        have h := hnothing _ (List.mem_of_mem_drop (mem_of_atCase hpiece))
        exact eq_of_beq h
      subst hlen
      exact ⟨_, rfl, ⟨hs.stage, hs.opened, hs.input,
        Or.inr ⟨rfl, _, _, _, hpiece⟩⟩⟩
    · exact ⟨_, rfl, ⟨hs.stage, hs.opened, hs.input, Or.inl hpoint⟩⟩
  · simp only [step, hpoint, scanElement, hcase, hpiece]
    exact ⟨_, scanTerminator_hits s (Nat.zero_le _) (Nat.zero_le _)
      List.nil_prefix, ⟨hs.stage, hs.opened, hs.input, Or.inl rfl⟩⟩

/-- At a degenerate case there is input that the call does not get out of. -/
theorem exists_endless {n : Nat} {stage : ParseStage}
    (hcase : atCase (stages.drop n) = some stage)
    (hformed : stage.WellFormed) (hdegenerate : stage.Degenerate) :
    ∃ input, (stage.searchSize = 0 → input = []) ∧
      ∀ parser : MessageParser, parser.stage = n → parser.complete = false →
        ∀ total, ¬ Ends (step stages) (Halted stages)
          ⟨parser, input, total, .dispatch⟩ := by
  cases stage with
  | matchStaticOctets _ _ | noCode => exact hdegenerate.elim
  | readUntilTerminator name termLen terminator escape =>
      cases escape with
      | none => exact hdegenerate.elim
      | some escape =>
          obtain ⟨hempty, hchar⟩ := hdegenerate
          refine ⟨List.replicate termLen 0, fun h => ?_,
            fun parser hstage hopen total => ?_⟩
          · obtain rfl : termLen = 0 := h
            rfl
          · refine not_ends (fun s status hs hpoint => ?_)
              (replacing_next hcase hempty hchar)
              ⟨Or.inl rfl, hstage, hopen, (List.length_replicate).ge⟩
            rcases hs.point with h | h <;>
              exact ParsePoint.noConfusion (h.symm.trans hpoint)
  | parseLoop collection termLen loopTerminator elementStages =>
      obtain ⟨hterm, hnothing⟩ := hdegenerate
      obtain ⟨first, rest, rfl⟩ := List.exists_cons_of_ne_nil hformed.1
      refine ⟨[first + 1], fun h => absurd h hterm.ne',
        fun parser hstage hopen total => ?_⟩
      have hno : termLen ≤ [first + 1].length →
          memcmpEqual [first + 1] (first :: rest) termLen = .ok false := by
        intro hle
        obtain rfl : termLen = 1 := Nat.le_antisymm hle hterm
        rw [memcmpEqual_eq (Nat.succ_le_succ (Nat.zero_le _)),
          decide_eq_false]
        intro hstart
        obtain ⟨heq, _⟩ := List.cons_prefix_cons.mp hstart
        exact absurd heq (by simp)
      refine not_ends (fun s status hs hpoint => ?_)
        (repeating_next hcase hnothing (List.cons_ne_nil _ _) hno)
        ⟨hstage, hopen, rfl, Or.inl rfl⟩
      rcases hs.point with h | ⟨h, _⟩ <;>
        exact ParsePoint.noConfusion (h.symm.trans hpoint)

end Degenerate

/-- A parser comes to the case of its stage, between two calls or in a call
that has used up its input. -/
def Arrives (stages : List ParseStage) (n : Nat) : Prop :=
  (∃ parser, Reachable stages parser ∧ parser.stage = n ∧
    parser.complete = false) ∨
  ∃ parser input t, Reachable stages parser ∧
    Reaches (step stages) (start parser input) t ∧ StandsAt n t

section Arrival

variable {stages : List ParseStage} {n : Nat} {stage : ParseStage}

/-- At a case that looks for something the parser is between two calls. -/
theorem Arrives.between (h : Arrives stages n)
    (hcase : atCase (stages.drop n) = some stage)
    (hsize : 0 < stage.searchSize) :
    ∃ parser, Reachable stages parser ∧ parser.stage = n ∧
      parser.complete = false := by
  rcases h with h | ⟨parser, input, t, hparser, hreach, ht⟩
  · exact h
  · rw [← ht.stage] at hcase
    obtain ⟨u, status, hwait, hpoint, hstage, hopen⟩ :=
      reaches_waiting hcase ht.opened hsize t.totalConsumed
    rw [← ht.input, ← ht.point] at hwait
    exact ⟨u.parser, .parse input hparser (hreach.trans hwait) hpoint,
      hstage.trans ht.stage, hopen⟩

theorem Arrives.next (h : Arrives stages n)
    (hcase : atCase (stages.drop n) = some stage) (hpass : stage.Passable) :
    Arrives stages (n + 1) := by
  right
  have hbetween : ∀ parser, Reachable stages parser → parser.stage = n →
      parser.complete = false → ∃ parser input t, Reachable stages parser ∧
        Reaches (step stages) (start parser input) t ∧
          StandsAt (n + 1) t := by
    rintro parser hparser rfl hopen
    obtain ⟨t, hreach, ht⟩ := reaches_next hcase hopen hpass 0
    exact ⟨parser, stage.literal, t, hparser, hreach, ht⟩
  rcases Nat.eq_zero_or_pos stage.searchSize with hzero | hpos
  · rcases h with ⟨parser, hparser, hstage, hopen⟩ | h
    · exact hbetween parser hparser hstage hopen
    · obtain ⟨parser, input, t, hparser, hreach, ht⟩ := h
      obtain rfl := ht.stage
      obtain ⟨u, hnext, hu⟩ :=
        reaches_next hcase ht.opened hpass t.totalConsumed
      rw [ParseStage.literal_eq_nil hzero, ← ht.input, ← ht.point] at hnext
      exact ⟨parser, input, u, hparser, hreach.trans hnext, hu⟩
  · obtain ⟨parser, hparser, hstage, hopen⟩ := h.between hcase hpos
    exact hbetween parser hparser hstage hopen

/-- What is behind cases that let the parser pass is come to. -/
theorem Arrives.of_passed (h : Passed stages n) : Arrives stages n := by
  induction n with
  | zero => exact Or.inl ⟨.reset, .reset, rfl, rfl⟩
  | succ n ih =>
      obtain ⟨stage, hcase, hpass⟩ := h n (Nat.lt_succ_self n)
      exact (ih fun j hj => h j (Nat.lt_succ_of_lt hj)).next hcase hpass

/-- A degenerate case that is come to keeps a call from ending. -/
theorem noneDegenerate_of_alwaysEnds
    (hformed : ∀ stage ∈ stages, stage.WellFormed)
    (hends : AlwaysEnds stages) : NoneDegenerate stages := by
  intro n stage hcase hpassed hdegenerate
  have hmem := List.mem_of_mem_drop (mem_of_atCase hcase)
  obtain ⟨input, hnil, hendless⟩ :=
    exists_endless hcase (hformed stage hmem) hdegenerate
  have hbetween : ∀ parser, Reachable stages parser → parser.stage = n →
      parser.complete = false → False := fun parser hparser hstage hopen =>
    hendless parser hstage hopen 0 (hends parser hparser input)
  have harrives := Arrives.of_passed hpassed
  rcases Nat.eq_zero_or_pos stage.searchSize with hzero | hpos
  · rcases harrives with ⟨parser, hparser, hstage, hopen⟩ | h
    · exact hbetween parser hparser hstage hopen
    · obtain ⟨parser, other, t, hparser, hreach, ht⟩ := h
      have hrest := (hends parser hparser other).reached
        (fun s hs u => eq_of_halted hs u) hreach
      refine hendless t.parser ht.stage ht.opened t.totalConsumed ?_
      rw [hnil hzero, ← ht.input, ← ht.point]
      exact hrest
  · obtain ⟨parser, hparser, hstage, hopen⟩ := harrives.between hcase hpos
    exact hbetween parser hparser hstage hopen

end Arrival

section Readable

variable {stages : List ParseStage} {s : ParseCall}

theorem ok_ne_outOfRange (call : ParseCall) :
    (.ok call : Except Fault ParseCall) ≠ .error .outOfRange := by
  intro h
  contradiction

theorem matchStatic_readable {len : Nat} {expected : Octets}
    (h : len ≤ expected.length) (next : MessageParser → MessageParser) :
    s.matchStatic len expected next ≠ .error .outOfRange := by
  rw [matchStatic]
  split
  · exact ok_ne_outOfRange _
  · rw [memcmpEqual_eq h]
    exact ok_ne_outOfRange _

theorem scanTerminator_readable {pos termLen : Nat} {terminator : Octets}
    {append : Octets → MessageParser → MessageParser}
    {next : MessageParser → MessageParser} {again : Nat → ParsePoint}
    (h : termLen ≤ terminator.length) :
    s.scanTerminator pos termLen terminator append next again ≠
      .error .outOfRange := by
  rw [scanTerminator]
  split
  · rw [memcmpEqual_eq h]
    exact ok_ne_outOfRange _
  · exact ok_ne_outOfRange _

theorem scanEscape_readable {pos termLen : Nat} {terminator : Octets}
    {escape : EscapeConstants} {name : String}
    (h : termLen ≤ terminator.length) (hescape : escape.Readable) :
    s.scanEscape pos termLen terminator escape name ≠ .error .outOfRange := by
  by_cases hhit : pos + termLen ≤ s.input.length ∧
      escape.sequence <+: s.input.drop pos
  · rw [scanEscape_replaces s hescape hhit.1 hhit.2]
    exact ok_ne_outOfRange _
  · rw [scanEscape_passes s hescape]
    · exact scanTerminator_readable h
    · by_contra hmiss
      rw [not_or, not_not] at hmiss
      exact hhit ⟨by omega, hmiss.2⟩

theorem dispatchLoop_readable {collection : String} {termLen : Nat}
    {loopTerminator : Octets} {elementStages : List ParseStage}
    (h : termLen ≤ loopTerminator.length)
    (helements : ∀ stage ∈ elementStages, stage.PieceReadable) :
    s.dispatchLoop collection termLen loopTerminator elementStages ≠
      .error .outOfRange := by
  have helement : (if s.input = [] then .ok (s.finish .needMoreData)
      else s.dispatchElement collection elementStages) ≠
        .error .outOfRange := by
    split_ifs
    · exact ok_ne_outOfRange _
    · rw [dispatchElement]
      split
      · rename_i hpiece
        exact matchStatic_readable (helements _
          (List.mem_of_mem_drop (mem_of_atCase hpiece))) _
      · exact ok_ne_outOfRange _
      · exact ok_ne_outOfRange _
  rw [dispatchLoop]
  split
  · rw [memcmpEqual_eq h]
    split
    · contradiction
    · exact ok_ne_outOfRange _
    · exact helement
  · exact helement

/-- No comparison is outside of an array that has its bytes. -/
theorem step_readable (hread : ∀ stage ∈ stages, stage.Readable) :
    step stages s ≠ .error .outOfRange := by
  have hmem : ∀ stage, atCase (stages.drop s.parser.stage) = some stage →
      stage.Readable := fun stage hcase =>
    hread stage (List.mem_of_mem_drop (mem_of_atCase hcase))
  rw [step]
  split
  · rw [dispatch]
    split
    · exact ok_ne_outOfRange _
    · split
      · rename_i hcase
        exact matchStatic_readable (hmem _ hcase) _
      · exact ok_ne_outOfRange _
      · rename_i hcase
        exact dispatchLoop_readable (hmem _ hcase).1 (hmem _ hcase).2
      · exact ok_ne_outOfRange _
  · rw [scan]
    split
    · rename_i hcase
      exact scanTerminator_readable (hmem _ hcase).1
    · rename_i hcase
      exact scanEscape_readable (hmem _ hcase).1 ((hmem _ hcase).2 _ rfl)
    · exact fun h => Fault.noConfusion (Except.error.inj h)
  · rw [scanElement]
    split
    · rename_i hcase
      split
      · rename_i hpiece
        exact scanTerminator_readable ((hmem _ hcase).2 _
          (List.mem_of_mem_drop (mem_of_atCase hpiece))).1
      · exact fun h => Fault.noConfusion (Except.error.inj h)
    · exact fun h => Fault.noConfusion (Except.error.inj h)
  · exact ok_ne_outOfRange _

end Readable

/-- Whatever the parser is given, the call returns. -/
def AlwaysReturns (stages : List ParseStage) : Prop :=
  ∀ parser, Reachable stages parser → ∀ input, ∃ t status,
    Reaches (step stages) (start parser input) t ∧
      t.point = .returned status

theorem alwaysReturns_iff_alwaysEnds {stages : List ParseStage}
    (hread : ∀ stage ∈ stages, stage.Readable) :
    AlwaysReturns stages ↔ AlwaysEnds stages := by
  constructor
  · intro h parser hparser input
    obtain ⟨t, status, hreach, hpoint⟩ := h parser hparser input
    exact ⟨t, hreach, Or.inl ⟨status, hpoint⟩⟩
  · intro h parser hparser input
    obtain ⟨t, hreach, ⟨status, hpoint⟩ | hfault⟩ := h parser hparser input
    · exact ⟨t, status, hreach, hpoint⟩
    · exact absurd hfault (step_readable hread)

/-- Every call of an emitted parser comes to an end exactly if no case that
can be come to has an empty escape sequence or elements without bytes.  Where
the arrays of the literals have their bytes, the end is a `return`. -/
theorem alwaysEnds_iff {actions : List Action} {stages : List ParseStage}
    (hstages : messageParser actions = some stages) :
    (AlwaysEnds stages ↔ NoneDegenerate stages) ∧
      ((∀ stage ∈ stages, stage.Readable) →
        (AlwaysReturns stages ↔ NoneDegenerate stages)) := by
  have hformed := wellFormed_of_messageParser hstages
  have hends : AlwaysEnds stages ↔ NoneDegenerate stages := by
    constructor
    · exact noneDegenerate_of_alwaysEnds hformed
    · intro hgood
      exact alwaysEnds_of_noneDegenerate hgood hformed
  exact ⟨hends, fun hread => (alwaysReturns_iff_alwaysEnds hread).trans hends⟩

/-- A call on a line with its line ends escaped always returns. -/
theorem alwaysReturns_escaped_line : AlwaysReturns
    [.readUntilTerminator "x" 1 [10, 0]
      (some ⟨2, [92, 110, 0], 1, [10, 0]⟩)] := by
  have hstages : messageParser [.readOctetsUntilTerminator [10] (.mk "x" none)
      (some ⟨[10], [92, 110]⟩)] =
    some [.readUntilTerminator "x" 1 [10, 0]
      (some ⟨2, [92, 110, 0], 1, [10, 0]⟩)] := rfl
  have hread : ∀ stage ∈ [ParseStage.readUntilTerminator "x" 1 [10, 0]
      (some ⟨2, [92, 110, 0], 1, [10, 0]⟩)], stage.Readable := by
    intro stage hstage
    obtain rfl := List.mem_singleton.mp hstage
    refine ⟨by decide, fun constants hconstants => ?_⟩
    obtain rfl := Option.some.inj hconstants
    exact ⟨by decide, by decide⟩
  refine ((alwaysEnds_iff hstages).2 hread).mpr fun n stage hcase _ => ?_
  cases n with
  | zero =>
      obtain rfl := Option.some.inj hcase
      exact fun h => absurd h.1 (by decide)
  | succ n =>
      rw [List.drop_succ_cons, List.drop_nil] at hcase
      contradiction

/-- A protocol is accepted whose parser, given one byte, does not return. -/
theorem empty_sequence_never_returns :
    ¬ ∀ tokens description protocol, parse tokens = some description →
      Analyze.analyze description = some protocol →
        ∀ entry ∈ protocol.server.states,
          ∀ transition ∈ entry.2.transitions, ∀ data actions stages,
            transition.2.1 = .readTransition data actions →
              messageParser actions = some stages → AlwaysEnds stages := by
  intro h
  have hparse := Grammar.parse_ofAttributes [109] "Open" "Closed" "Client"
    (List.cons_ne_nil ("x", .mk "str" []) [])
    (List.cons_ne_nil _ _) emptyEscapeParts_accepted
  have hends := h _ _ _ hparse
    (analyze_singleton emptyEscapeParts_readActions
      emptyEscapeParts_writeActions) _ List.mem_cons_self _
    List.mem_cons_self _ _
    [.readUntilTerminator "x" 1 [10, 0] (some ⟨0, [0], 0, [0]⟩)] rfl rfl
    .reset .reset [97]
  refine not_ends (fun s status hs hpoint => ?_)
    (replacing_next rfl rfl (Nat.zero_le _))
    ⟨Or.inl rfl, rfl, rfl, Nat.le_refl 1⟩ hends
  rcases hs.point with h | h <;>
    exact ParsePoint.noConfusion (h.symm.trans hpoint)

end ParseCall

end NetworkProtocolDsl
