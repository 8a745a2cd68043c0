/-
The emitted parser called once for each chunk.

What a call leaves unconsumed stands before the next chunk.  A turn of the one
call on the whole stream is harmless to a cut if the cut is not inside of what
the turn finds; the definitions here say what that means for each kind of turn.
-/
import NetworkProtocolDsl.ParserStages

namespace NetworkProtocolDsl

open Run GenerateParser

/-- What a call of the parser, or several, came to. -/
structure ParseOutcome where
  status : ParseStatus
  totalConsumed : Nat
  parser : MessageParser

/-- The same status, as many bytes, and the same values in the fields and the
loops. -/
structure ParseOutcome.Agrees (p q : ParseOutcome) : Prop where
  status : p.status = q.status
  totalConsumed : p.totalConsumed = q.totalConsumed
  buffers : p.parser.buffers = q.parser.buffers
  elements : ∀ collection, (p.parser.loops collection).elements =
    (q.parser.loops collection).elements

namespace ParseCall

/-- One call of the parser on the input returns. -/
def Returns (stages : List ParseStage) (parser : MessageParser)
    (input : Octets) (outcome : ParseOutcome) : Prop :=
  ∃ left, Reaches (step stages) (start parser input)
    ⟨outcome.parser, left, outcome.totalConsumed, .returned outcome.status⟩

/-- One call for each chunk returns; each is given what the call before left
unconsumed and then the chunk. -/
inductive Feeds (stages : List ParseStage) :
    MessageParser → Octets → List Octets → ParseOutcome → Prop where
  | last {parser : MessageParser} {unread chunk : Octets}
      {outcome : ParseOutcome}
      (h : Returns stages parser (unread ++ chunk) outcome) :
      Feeds stages parser unread [chunk] outcome
  | next {parser : MessageParser} {unread chunk : Octets}
      {chunks : List Octets} {first outcome : ParseOutcome}
      (h : Returns stages parser (unread ++ chunk) first)
      (hrest : Feeds stages first.parser
        ((unread ++ chunk).drop first.totalConsumed) chunks outcome) :
      Feeds stages parser unread (chunk :: chunks) { outcome with
        totalConsumed := first.totalConsumed + outcome.totalConsumed }

/-- What the calls on the chunks come to is what one call on the whole stream
comes to. -/
def FeedsAlike (stages : List ParseStage) (chunks : List Octets) : Prop :=
  ∀ outcome, Returns stages .reset chunks.flatten outcome →
    ∃ fed, Feeds stages .reset [] chunks fed ∧ fed.Agrees outcome

/-- The comparison with the array at this position is made and succeeds. -/
def Finds (call : ParseCall) (pos : Nat) (array : Octets) (len : Nat) : Prop :=
  pos + len ≤ call.input.length ∧
    memcmpEqual (call.input.drop pos) array len = .ok true

/-- The comparison at this position is not made, or it fails. -/
def Lacks (call : ParseCall) (pos : Nat) (array : Octets) (len : Nat) : Prop :=
  pos + len ≤ call.input.length →
    memcmpEqual (call.input.drop pos) array len = .ok false

/-- The cut of the stream is not strictly inside these bytes. -/
def Apart (call : ParseCall) (cut pos width : Nat) : Prop :=
  call.totalConsumed + pos < cut → call.totalConsumed + pos + width ≤ cut

/-- The cut is not inside a terminator or an escape sequence at this position,
and behind a sequence it leaves room for a terminator: the emitted loop looks
for a sequence only where a terminator would fit. -/
def ClearScan (call : ParseCall) (cut pos termLen : Nat) (terminator : Octets)
    (escape : Option EscapeConstants) : Prop :=
  (call.Finds pos terminator termLen → call.Apart cut pos termLen) ∧
    ∀ option ∈ escape, pos + termLen ≤ call.input.length →
      call.Finds pos option.escapeSeq option.escapeSeqLen →
        call.Apart cut pos (max termLen option.escapeSeqLen) ∧
          (termLen = 0 → call.totalConsumed + pos ≠ cut)

/-- Inside a field of an element the parser does not come to the cut with the
terminator of the loop behind it: the next call begins at the loop. -/
def ClearElement (call : ParseCall) (cut pos termLen loopLen : Nat)
    (loopTerminator : Octets) : Prop :=
  call.totalConsumed + pos = cut ∨
      call.totalConsumed + pos ≤ cut ∧ call.input.length < pos + termLen →
    ¬ call.Finds (cut - call.totalConsumed) loopTerminator loopLen

/-- The turn the call is about to take finds nothing that the cut divides. -/
def Clear (stages : List ParseStage) (cut : Nat) (call : ParseCall) : Prop :=
  match call.point with
  | .dispatch =>
      match atCase (stages.drop call.parser.stage) with
      | some (.parseLoop _ termLen loopTerminator _) =>
          call.Finds 0 loopTerminator termLen → call.Apart cut 0 termLen
      | _ => True
  | .scanning pos =>
      match atCase (stages.drop call.parser.stage) with
      | some (.readUntilTerminator _ termLen terminator escape) =>
          call.ClearScan cut pos termLen terminator escape
      | _ => True
  | .scanningElement pos =>
      match atCase (stages.drop call.parser.stage) with
      | some (.parseLoop collection loopLen loopTerminator elementStages) =>
          match atCase (elementStages.drop
              (call.parser.loops collection).stage) with
          | some (.readUntilTerminator _ termLen terminator _) =>
              call.ClearScan cut pos termLen terminator none ∧
                call.ClearElement cut pos termLen loopLen loopTerminator
          | _ => True
      | _ => True
  | .returned _ => True

/-- The stream is cut into the chunks at this position. -/
def CutAt (chunks : List Octets) (cut : Nat) : Prop :=
  ∃ before after, before ≠ [] ∧ after ≠ [] ∧ chunks = before ++ after ∧
    cut = before.flatten.length

/-- No turn of the one call on the whole stream finds anything that is cut. -/
def CutsClear (stages : List ParseStage) (chunks : List Octets) : Prop :=
  ∀ cut, CutAt chunks cut → ∀ call,
    Reaches (step stages) (start .reset chunks.flatten) call →
      call.Clear stages cut

section Finds

variable {call : ParseCall} {pos len : Nat} {array : Octets}

theorem Finds.not_lacks (h : call.Finds pos array len) :
    ¬ call.Lacks pos array len := by
  intro hlacks
  have hfalse := h.2.symm.trans (hlacks h.1)
  contradiction

theorem Lacks.pos_len (h : call.Lacks pos array len)
    (hroom : pos + len ≤ call.input.length) : 0 < len := by
  rcases Nat.eq_zero_or_pos len with rfl | hpos
  · have hfalse := h hroom
    rw [memcmpEqual, if_neg (Nat.not_lt_zero _), List.take_zero,
      List.take_zero] at hfalse
    contradiction
  · exact hpos

/-- Behind `k` bytes that are taken away the same is found. -/
theorem finds_drop (call other : ParseCall) {k : Nat}
    (hinput : other.input = call.input.drop k) (hk : k ≤ call.input.length) :
    other.Finds pos array len ↔ call.Finds (k + pos) array len := by
  rw [Finds, Finds, hinput, List.length_drop, List.drop_drop]
  have hroom : pos + len ≤ call.input.length - k ↔
      k + pos + len ≤ call.input.length := by omega
  rw [hroom]

theorem lacks_drop (call other : ParseCall) {k : Nat}
    (hinput : other.input = call.input.drop k) (hk : k ≤ call.input.length) :
    other.Lacks pos array len ↔ call.Lacks (k + pos) array len := by
  rw [Lacks, Lacks, hinput, List.length_drop, List.drop_drop]
  have hroom : pos + len ≤ call.input.length - k ↔
      k + pos + len ≤ call.input.length := by omega
  rw [hroom]

/-- In the first `m` bytes the same is found as far as they go. -/
theorem finds_take (call other : ParseCall) {m : Nat}
    (hinput : other.input = call.input.take m) (hm : m ≤ call.input.length) :
    other.Finds pos array len ↔ call.Finds pos array len ∧ pos + len ≤ m := by
  rw [Finds, Finds, hinput, List.length_take, Nat.min_eq_left hm]
  have hsame : pos + len ≤ m →
      memcmpEqual ((call.input.take m).drop pos) array len =
        memcmpEqual (call.input.drop pos) array len := by
    intro h
    refine memcmpEqual_congr array ?_
    rw [List.drop_take, List.take_take, Nat.min_eq_left (by omega)]
  constructor
  · rintro ⟨hroom, hequal⟩
    rw [hsame hroom] at hequal
    exact ⟨⟨by omega, hequal⟩, hroom⟩
  · rintro ⟨⟨_, hequal⟩, hroom⟩
    rw [hsame hroom]
    exact ⟨hroom, hequal⟩

theorem Lacks.take (other : ParseCall) {m : Nat}
    (h : call.Lacks pos array len)
    (hinput : other.input = call.input.take m) (hm : m ≤ call.input.length) :
    other.Lacks pos array len := by
  intro hroom
  rw [hinput, List.length_take, Nat.min_eq_left hm] at hroom
  rw [← h (by omega), hinput]
  refine memcmpEqual_congr array ?_
  rw [List.drop_take, List.take_take, Nat.min_eq_left (by omega)]

end Finds

/-- At the terminator of the loop the loop ends. -/
theorem dispatchLoop_finds {call : ParseCall} (collection : String)
    {termLen : Nat} {loopTerminator : Octets}
    (elementStages : List ParseStage)
    (h : call.Finds 0 loopTerminator termLen) :
    call.dispatchLoop collection termLen loopTerminator elementStages =
      .ok ((call.consume termLen).modify MessageParser.nextStage) := by
  rw [Finds, Nat.zero_add, List.drop_zero] at h
  rw [dispatchLoop, if_pos h.1, h.2]

/-- Without the terminator of the loop the element is parsed. -/
theorem dispatchLoop_misses {call : ParseCall} (collection : String)
    {termLen : Nat} {loopTerminator : Octets}
    (elementStages : List ParseStage)
    (hno : ¬ call.Finds 0 loopTerminator termLen)
    (hreads : termLen ≤ call.input.length → termLen ≤ loopTerminator.length) :
    call.dispatchLoop collection termLen loopTerminator elementStages =
      if call.input = [] then .ok (call.finish .needMoreData)
      else call.dispatchElement collection elementStages := by
  rw [dispatchLoop]
  by_cases hroom : termLen ≤ call.input.length
  · rw [if_pos hroom]
    rw [Finds, Nat.zero_add, List.drop_zero, memcmpEqual_eq (hreads hroom)]
      at hno
    rw [memcmpEqual_eq (hreads hroom)]
    have hmiss : decide (loopTerminator.take termLen <+: call.input) =
        false := by
      cases hequal : decide (loopTerminator.take termLen <+: call.input) with
      | true => exact absurd ⟨hroom, congrArg _ hequal⟩ hno
      | false => rfl
    rw [hmiss]
  · rw [if_neg hroom]

end ParseCall

/-- A scanning loop of the emitted code. -/
structure ScanLoop where
  termLen : Nat
  terminator : Octets
  escape : Option EscapeConstants
  append : Octets → MessageParser → MessageParser
  next : MessageParser → MessageParser
  again : Nat → ParsePoint

namespace ScanLoop

/-- The loop for a field of the message. -/
def field (name : String) (termLen : Nat) (terminator : Octets)
    (escape : Option EscapeConstants) : ScanLoop where
  termLen := termLen
  terminator := terminator
  escape := escape
  append := fun data parser => parser.appendTo name data
  next := MessageParser.nextStage
  again := .scanning

/-- The loop for a field of an element. -/
def element (collection name : String) (termLen : Nat) (terminator : Octets) :
    ScanLoop where
  termLen := termLen
  terminator := terminator
  escape := none
  append := fun data parser => parser.updateLoop collection (·.appendTo name data)
  next := fun parser => parser.updateLoop collection LoopState.nextStage
  again := .scanningElement

/-- The parser stands in the loop. -/
inductive Scans (stages : List ParseStage) :
    MessageParser → ScanLoop → Prop where
  | field {parser : MessageParser} {name : String} {termLen : Nat}
      {terminator : Octets} {escape : Option EscapeConstants}
      (hcase : ParseCall.atCase (stages.drop parser.stage) =
        some (.readUntilTerminator name termLen terminator escape)) :
      Scans stages parser (.field name termLen terminator escape)
  | element {parser : MessageParser} {collection name : String}
      {loopLen termLen : Nat} {loopTerminator terminator : Octets}
      {elementStages : List ParseStage} {escape : Option EscapeConstants}
      (hcase : ParseCall.atCase (stages.drop parser.stage) =
        some (.parseLoop collection loopLen loopTerminator elementStages))
      (helement : ParseCall.atCase (elementStages.drop
        (parser.loops collection).stage) =
          some (.readUntilTerminator name termLen terminator escape)) :
      Scans stages parser (.element collection name termLen terminator)

variable (loop : ScanLoop) (call : ParseCall) (pos : Nat)

/-- The loop takes all that is left and waits. -/
def ending : ParseCall :=
  { (call.modify (loop.append call.input)).finish .needMoreData with
    totalConsumed := call.totalConsumed + call.input.length }

/-- The loop replaces the escape sequence at the position. -/
def replacing (escape : EscapeConstants) : ParseCall :=
  (((call.modify (loop.append (call.input.take pos))).modify
    (loop.append escape.character)).consume
      (pos + escape.escapeSeqLen)).goto (loop.again 0)

/-- The loop ends the field with the terminator at the position. -/
def hitting : ParseCall :=
  (((call.modify (loop.append (call.input.take pos))).consume
    (pos + loop.termLen)).modify loop.next).goto .dispatch

theorem replacing_eq (escape : EscapeConstants) :
    loop.replacing call pos escape =
      ⟨loop.append escape.character (loop.append (call.input.take pos)
        call.parser), call.input.drop (pos + escape.escapeSeqLen),
        call.totalConsumed + (pos + escape.escapeSeqLen), loop.again 0⟩ :=
  rfl

theorem hitting_eq :
    loop.hitting call pos =
      ⟨loop.next (loop.append (call.input.take pos) call.parser),
        call.input.drop (pos + loop.termLen),
        call.totalConsumed + (pos + loop.termLen), .dispatch⟩ :=
  rfl

/-- How one turn of the loop at the position goes. -/
inductive Turn : ParseCall → Prop where
  | ends (h : call.input.length < pos + loop.termLen) :
      Turn (loop.ending call)
  | replaces {escape : EscapeConstants} (hescape : loop.escape = some escape)
      (hroom : pos + loop.termLen ≤ call.input.length)
      (hfinds : call.Finds pos escape.escapeSeq escape.escapeSeqLen)
      (hreadable : escape.escapeCharLen ≤ escape.escapeChar.length) :
      Turn (loop.replacing call pos escape)
  | hits (hlacks : ∀ escape ∈ loop.escape,
        call.Lacks pos escape.escapeSeq escape.escapeSeqLen)
      (hfinds : call.Finds pos loop.terminator loop.termLen) :
      Turn (loop.hitting call pos)
  | misses (hroom : pos + loop.termLen ≤ call.input.length)
      (hlacks : ∀ escape ∈ loop.escape,
        call.Lacks pos escape.escapeSeq escape.escapeSeqLen)
      (hmiss : call.Lacks pos loop.terminator loop.termLen) :
      Turn (call.goto (loop.again (pos + 1)))

variable {loop call pos} {stages : List ParseStage} {t : ParseCall}

/-- The part of a turn that looks for the terminator. -/
theorem turn_of_scanTerminator (hlacks : ∀ escape ∈ loop.escape,
      pos + loop.termLen ≤ call.input.length →
        call.Lacks pos escape.escapeSeq escape.escapeSeqLen)
    (h : call.scanTerminator pos loop.termLen loop.terminator loop.append
      loop.next loop.again = .ok t) : loop.Turn call pos t := by
  rw [ParseCall.scanTerminator] at h
  split at h
  · rename_i hroom
    have hlacks := fun escape hescape => hlacks escape hescape hroom
    obtain ⟨equal, hequal, rfl⟩ := map_eq_ok h
    cases equal with
    | true => exact .hits hlacks ⟨hroom, hequal⟩
    | false => exact .misses hroom hlacks fun _ => hequal
  · rename_i hroom
    obtain rfl := Except.ok.inj h
    exact .ends (Nat.lt_of_not_le hroom)

theorem scanTerminator_of_turn (h : loop.Turn call pos t)
    (hlacks : ∀ escape ∈ loop.escape, pos + loop.termLen ≤ call.input.length →
      call.Lacks pos escape.escapeSeq escape.escapeSeqLen) :
    call.scanTerminator pos loop.termLen loop.terminator loop.append
      loop.next loop.again = .ok t := by
  rw [ParseCall.scanTerminator]
  cases h with
  | ends h =>
      rw [if_neg (Nat.not_le.mpr h)]
      rfl
  | replaces hescape hroom hfinds _ =>
      exact absurd (hlacks _ hescape hroom) hfinds.not_lacks
  | hits _ hfinds =>
      rw [if_pos hfinds.1, hfinds.2]
      rfl
  | misses hroom _ hmiss =>
      rw [if_pos hroom, hmiss hroom]
      rfl

theorem scanTerminator_iff (hescape : loop.escape = none) :
    call.scanTerminator pos loop.termLen loop.terminator loop.append
      loop.next loop.again = .ok t ↔ loop.Turn call pos t := by
  have hlacks : ∀ escape ∈ loop.escape,
      pos + loop.termLen ≤ call.input.length →
        call.Lacks pos escape.escapeSeq escape.escapeSeqLen := by
    rw [hescape]
    simp
  exact ⟨turn_of_scanTerminator hlacks,
    fun h => scanTerminator_of_turn h hlacks⟩

theorem scanEscape_iff (name : String) (termLen : Nat) (terminator : Octets)
    (escape : EscapeConstants) :
    call.scanEscape pos termLen terminator escape name = .ok t ↔
      (field name termLen terminator (some escape)).Turn call pos t := by
  let loop := field name termLen terminator (some escape)
  have hpasses : (pos + termLen ≤ call.input.length →
      call.Lacks pos escape.escapeSeq escape.escapeSeqLen) →
      (call.scanTerminator pos termLen terminator
        (fun data parser => parser.appendTo name data) MessageParser.nextStage
        .scanning = .ok t ↔ loop.Turn call pos t) := by
    intro hlacks
    have hlacks : ∀ option ∈ loop.escape,
        pos + loop.termLen ≤ call.input.length →
          call.Lacks pos option.escapeSeq option.escapeSeqLen := by
      rintro option hoption
      obtain rfl := Option.some.inj hoption
      exact hlacks
    exact ⟨turn_of_scanTerminator hlacks,
      fun h => scanTerminator_of_turn h hlacks⟩
  rw [ParseCall.scanEscape]
  split
  · rename_i hroom
    split
    · rename_i hsequence
      split
      · rename_i fault hfault
        constructor
        · intro h
          contradiction
        · intro h
          cases h with
          | ends h => exact absurd hroom (Nat.not_le.mpr h)
          | replaces hescape _ hfinds _ =>
              obtain rfl := Option.some.inj hescape
              have hequal := hfault.symm.trans hfinds.2
              contradiction
          | hits hlacks _ | misses _ hlacks _ =>
              have hequal := hfault.symm.trans (hlacks escape rfl hsequence)
              contradiction
      · rename_i hequal
        have hfinds : call.Finds pos escape.escapeSeq escape.escapeSeqLen :=
          ⟨hsequence, hequal⟩
        constructor
        · intro h
          split at h
          · contradiction
          · rename_i hreadable
            obtain rfl := Except.ok.inj h
            exact .replaces rfl hroom hfinds (Nat.not_lt.mp hreadable)
        · intro h
          cases h with
          | ends h => exact absurd hroom (Nat.not_le.mpr h)
          | replaces hescape _ _ hreadable =>
              obtain rfl := Option.some.inj hescape
              rw [if_neg (Nat.not_lt.mpr hreadable)]
              rfl
          | hits hlacks _ | misses _ hlacks _ =>
              exact absurd (hlacks escape rfl) hfinds.not_lacks
      · rename_i hequal
        exact hpasses fun _ _ => hequal
    · rename_i hsequence
      exact hpasses fun _ h => absurd h hsequence
  · rename_i hroom
    exact hpasses fun h => absurd h hroom

/-- A turn of the emitted loop goes in one of these ways. -/
theorem Scans.step_iff {parser : MessageParser} (h : Scans stages parser loop)
    {input : Octets} {total : Nat} :
    ParseCall.step stages ⟨parser, input, total, loop.again pos⟩ = .ok t ↔
      loop.Turn ⟨parser, input, total, loop.again pos⟩ pos t := by
  cases h with
  | @field name termLen terminator escape hcase =>
      cases escape with
      | none =>
          rw [← scanTerminator_iff rfl]
          have hstep := ParseCall.step_scan_plain
            ⟨parser, input, total, .scanning pos⟩ pos hcase
          exact Eq.congr_left hstep
      | some escape =>
          rw [← scanEscape_iff]
          have hstep := ParseCall.step_scan_escape
            ⟨parser, input, total, .scanning pos⟩ pos hcase
          exact Eq.congr_left hstep
  | element hcase helement =>
      rw [← scanTerminator_iff rfl]
      simp only [ParseCall.step, ScanLoop.element, ParseCall.scanElement,
        hcase, helement]

/-- What is appended leaves the parser in the loop. -/
theorem Scans.append {parser : MessageParser} (h : Scans stages parser loop)
    (data : Octets) : Scans stages (loop.append data parser) loop := by
  cases h with
  | field hcase => exact .field hcase
  | @element collection name loopLen termLen loopTerminator terminator _ _
      hcase helement =>
      have hloop : ((ScanLoop.element collection name termLen
          terminator).append data parser).loops collection =
            (parser.loops collection).appendTo name data := if_pos rfl
      exact .element hcase (by rw [hloop]; exact helement)

theorem Scans.members {parser : MessageParser} (h : Scans stages parser loop)
    (data : Octets) : (loop.append data parser).stage = parser.stage ∧
      (loop.append data parser).complete = parser.complete := by
  cases h with
  | field _ => exact ⟨rfl, rfl⟩
  | element _ _ => exact ⟨rfl, rfl⟩

theorem Scans.append_append {parser : MessageParser}
    (h : Scans stages parser loop) (data more : Octets) :
    loop.append more (loop.append data parser) =
      loop.append (data ++ more) parser := by
  cases h with
  | field hcase => exact parser.appendTo_appendTo _ data more
  | element hcase helement =>
      simp only [ScanLoop.element, MessageParser.updateLoop,
        MessageParser.mk.injEq, true_and]
      funext other
      split
      · simp only [LoopState.appendTo, LoopState.mk.injEq, true_and]
        funext name
        split
        · rw [List.append_assoc]
        · rfl
      · rfl

/-- A clear turn of a scanning loop finds nothing that the cut divides. -/
theorem Scans.clearScan {parser : MessageParser} (h : Scans stages parser loop)
    {input : Octets} {total cut : Nat}
    (hclear : ParseCall.Clear stages cut
      ⟨parser, input, total, loop.again pos⟩) :
    ParseCall.ClearScan ⟨parser, input, total, loop.again pos⟩ cut pos
      loop.termLen loop.terminator loop.escape := by
  cases h with
  | field hcase =>
      simp only [ParseCall.Clear, ScanLoop.field, hcase] at hclear
      exact hclear
  | element hcase helement =>
      simp only [ParseCall.Clear, ScanLoop.element, hcase, helement] at hclear
      exact hclear.1

end ScanLoop

end NetworkProtocolDsl
