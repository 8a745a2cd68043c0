/-
The emitted parser on a stream that arrives in chunks.

The call on the first chunk goes along with the one call on the whole stream up
to the end of the chunk.  There it stops, and the call on the rest is a twin of
the one call, ahead of it by what it has already taken of a field.
-/
import NetworkProtocolDsl.ChunkedParse

namespace NetworkProtocolDsl

open Run GenerateParser ScanLoop

namespace ParseCall

/-- The call, with bytes that earlier calls consumed counted in. -/
def behind (n : Nat) (call : ParseCall) : ParseCall :=
  { call with totalConsumed := n + call.totalConsumed }

section Behind

variable (n : Nat) (call : ParseCall)

theorem behind_input : (call.behind n).input = call.input := rfl

theorem behind_members : (call.behind n).parser = call.parser := rfl

theorem consume_behind (count : Nat) :
    (call.behind n).consume count = (call.consume count).behind n := by
  simp only [consume, behind, Nat.add_assoc]

theorem matchStatic_behind (len : Nat) (expected : Octets)
    (next : MessageParser → MessageParser) :
    (call.behind n).matchStatic len expected next =
      (call.matchStatic len expected next).map (behind n) := by
  rw [matchStatic, matchStatic, behind_input]
  by_cases h : call.input.length < len
  · rw [if_pos h, if_pos h]
    rfl
  · rw [if_neg h, if_neg h, consume_behind]
    cases memcmpEqual call.input expected len with
    | error _ => rfl
    | ok equal => cases equal <;> rfl

theorem scanTerminator_behind (pos termLen : Nat) (terminator : Octets)
    (append : Octets → MessageParser → MessageParser)
    (next : MessageParser → MessageParser) (again : Nat → ParsePoint) :
    (call.behind n).scanTerminator pos termLen terminator append next again =
      (call.scanTerminator pos termLen terminator append next again).map
        (behind n) := by
  rw [scanTerminator, scanTerminator, behind_input]
  by_cases h : pos + termLen ≤ call.input.length
  · rw [if_pos h, if_pos h]
    cases memcmpEqual (call.input.drop pos) terminator termLen with
    | error _ => rfl
    | ok equal =>
        cases equal with
        | true =>
            have hconsume := consume_behind n
              (call.modify (append (call.input.take pos))) (pos + termLen)
            exact congrArg (fun call : ParseCall =>
              Except.ok ((call.modify next).goto .dispatch)) hconsume
        | false => rfl
  · rw [if_neg h, if_neg h]
    simp only [behind, Nat.add_assoc]
    rfl

theorem scanEscape_behind (pos termLen : Nat) (terminator : Octets)
    (escape : EscapeConstants) (name : String) :
    (call.behind n).scanEscape pos termLen terminator escape name =
      (call.scanEscape pos termLen terminator escape name).map
        (behind n) := by
  rw [scanEscape, scanEscape, behind_input, scanTerminator_behind]
  by_cases h : pos + termLen ≤ call.input.length
  · rw [if_pos h, if_pos h]
    by_cases hsequence : pos + escape.escapeSeqLen ≤ call.input.length
    · rw [if_pos hsequence, if_pos hsequence]
      cases memcmpEqual (call.input.drop pos) escape.escapeSeq
          escape.escapeSeqLen with
      | error _ => rfl
      | ok equal =>
          cases equal with
          | true =>
              by_cases hcharacter :
                  escape.escapeChar.length < escape.escapeCharLen
              · simp only [if_pos hcharacter]
                rfl
              · simp only [if_neg hcharacter]
                have hconsume := consume_behind n ((call.modify
                  (·.appendTo name (call.input.take pos))).modify
                    (·.appendTo name (escape.escapeChar.take
                      escape.escapeCharLen))) (pos + escape.escapeSeqLen)
                exact congrArg (fun call : ParseCall =>
                  Except.ok (call.goto (.scanning 0))) hconsume
          | false => rfl
    · rw [if_neg hsequence, if_neg hsequence]
  · rw [if_neg h, if_neg h]

theorem dispatchElement_behind (collection : String)
    (elementStages : List ParseStage) :
    (call.behind n).dispatchElement collection elementStages =
      (call.dispatchElement collection elementStages).map (behind n) := by
  simp only [dispatchElement, matchStatic_behind, behind_members]
  cases atCase (elementStages.drop (call.parser.loops collection).stage) with
  | none => rfl
  | some stage => cases stage <;> rfl

theorem dispatchLoop_behind (collection : String) (termLen : Nat)
    (loopTerminator : Octets) (elementStages : List ParseStage) :
    (call.behind n).dispatchLoop collection termLen loopTerminator
        elementStages =
      (call.dispatchLoop collection termLen loopTerminator
        elementStages).map (behind n) := by
  rw [dispatchLoop, dispatchLoop, behind_input, dispatchElement_behind]
  have helement : (if call.input = [] then
        Except.ok ((call.behind n).finish .needMoreData)
      else (call.dispatchElement collection elementStages).map (behind n)) =
      (if call.input = [] then Except.ok (call.finish .needMoreData)
      else call.dispatchElement collection elementStages).map (behind n) := by
    by_cases h : call.input = []
    · rw [if_pos h, if_pos h]
      rfl
    · rw [if_neg h, if_neg h]
  rw [helement]
  by_cases h : termLen ≤ call.input.length
  · rw [if_pos h, if_pos h]
    cases memcmpEqual call.input loopTerminator termLen with
    | error _ => rfl
    | ok equal =>
        cases equal with
        | true =>
            exact congrArg (fun call : ParseCall =>
              Except.ok (call.modify MessageParser.nextStage))
              (consume_behind n call termLen)
        | false => rfl
  · rw [if_neg h, if_neg h]

theorem dispatch_behind (stages : List ParseStage) :
    dispatch stages (call.behind n) =
      (dispatch stages call).map (behind n) := by
  simp only [dispatch, matchStatic_behind, dispatchLoop_behind, behind_members]
  by_cases hcomplete : call.parser.complete = true
  · simp only [if_pos hcomplete]
    rfl
  · simp only [if_neg hcomplete]
    cases atCase (stages.drop call.parser.stage) with
    | none => rfl
    | some stage => cases stage <;> rfl

theorem scan_behind (stages : List ParseStage) (pos : Nat) :
    scan stages (call.behind n) pos =
      (scan stages call pos).map (behind n) := by
  simp only [scan, scanTerminator_behind, scanEscape_behind, behind_members]
  cases atCase (stages.drop call.parser.stage) with
  | none => rfl
  | some stage =>
      cases stage with
      | readUntilTerminator name termLen terminator escape =>
          cases escape <;> rfl
      | matchStaticOctets _ _ | parseLoop _ _ _ _ | noCode => rfl

theorem scanElement_behind (stages : List ParseStage) (pos : Nat) :
    scanElement stages (call.behind n) pos =
      (scanElement stages call pos).map (behind n) := by
  simp only [scanElement, scanTerminator_behind, behind_members]
  cases atCase (stages.drop call.parser.stage) with
  | none => rfl
  | some stage =>
      cases stage with
      | parseLoop collection _ _ elementStages =>
          simp only
          cases atCase (elementStages.drop
              (call.parser.loops collection).stage) with
          | none => rfl
          | some stage => cases stage <;> rfl
      | matchStaticOctets _ _ | readUntilTerminator _ _ _ _ | noCode => rfl

/-- The count of the consumed bytes has no effect on what a turn does. -/
theorem step_behind (stages : List ParseStage) :
    step stages (call.behind n) = (step stages call).map (behind n) := by
  have hpoint : (call.behind n).point = call.point := rfl
  rw [step, step, hpoint]
  cases call.point with
  | dispatch => exact dispatch_behind n call stages
  | scanning pos => exact scan_behind n call stages pos
  | scanningElement pos => exact scanElement_behind n call stages pos
  | returned _ => rfl

end Behind

section Clear

variable {n cut pos : Nat} {call : ParseCall}

theorem apart_behind {width : Nat} :
    (call.behind n).Apart (n + cut) pos width ↔ call.Apart cut pos width := by
  have htotal : (call.behind n).totalConsumed = n + call.totalConsumed := rfl
  rw [Apart, Apart, htotal]
  constructor
  · intro h hlt
    have hle := h (by omega)
    omega
  · intro h hlt
    have hle := h (by omega)
    omega

theorem ClearScan.of_behind {termLen : Nat} {terminator : Octets}
    {escape : Option EscapeConstants}
    (h : (call.behind n).ClearScan (n + cut) pos termLen terminator escape) :
    call.ClearScan cut pos termLen terminator escape := by
  refine ⟨fun hfinds => apart_behind.mp (h.1 hfinds), ?_⟩
  intro option hoption hroom hfinds
  obtain ⟨hapart, hempty⟩ := h.2 option hoption hroom hfinds
  refine ⟨apart_behind.mp hapart, fun hlen heq => hempty hlen ?_⟩
  change n + call.totalConsumed + pos = n + cut
  omega

theorem ClearElement.of_behind {termLen loopLen : Nat} {loopTerminator : Octets}
    (h : (call.behind n).ClearElement (n + cut) pos termLen loopLen
      loopTerminator) :
    call.ClearElement cut pos termLen loopLen loopTerminator := by
  intro hcut
  have hdistance : n + cut - (n + call.totalConsumed) =
      cut - call.totalConsumed := by omega
  have htotal : (call.behind n).totalConsumed = n + call.totalConsumed := rfl
  have hno := h (by
    rw [htotal, behind_input]
    omega)
  change ¬ call.Finds (n + cut - (n + call.totalConsumed)) _ _ at hno
  rwa [hdistance] at hno

/-- What is harmless to a cut of the stream is harmless to the same cut of what
is left of it. -/
theorem Clear.of_behind {stages : List ParseStage}
    (h : (call.behind n).Clear stages (n + cut)) : call.Clear stages cut := by
  have hpoint : (call.behind n).point = call.point := rfl
  rw [Clear, hpoint, behind_members] at h
  rw [Clear]
  cases hp : call.point with
  | dispatch =>
      simp only [hp] at h ⊢
      cases hcase : atCase (stages.drop call.parser.stage) with
      | none => trivial
      | some stage =>
          cases stage with
          | parseLoop _ _ _ _ =>
              rw [hcase] at h
              exact fun hfinds => apart_behind.mp (h hfinds)
          | matchStaticOctets _ _ | readUntilTerminator _ _ _ _ | noCode =>
              trivial
  | scanning pos =>
      simp only [hp] at h ⊢
      cases hcase : atCase (stages.drop call.parser.stage) with
      | none => trivial
      | some stage =>
          cases stage with
          | readUntilTerminator _ _ _ _ =>
              rw [hcase] at h
              exact ClearScan.of_behind h
          | matchStaticOctets _ _ | parseLoop _ _ _ _ | noCode => trivial
  | scanningElement pos =>
      simp only [hp] at h ⊢
      cases hcase : atCase (stages.drop call.parser.stage) with
      | none => trivial
      | some stage =>
          cases stage with
          | parseLoop collection _ _ elementStages =>
              simp only [hcase] at h ⊢
              cases helement : atCase (elementStages.drop
                  (call.parser.loops collection).stage) with
              | none => trivial
              | some stage =>
                  cases stage with
                  | readUntilTerminator _ _ _ _ =>
                      rw [helement] at h
                      exact ⟨ClearScan.of_behind h.1,
                        ClearElement.of_behind h.2⟩
                  | matchStaticOctets _ _ | parseLoop _ _ _ _ | noCode =>
                      trivial
          | matchStaticOctets _ _ | readUntilTerminator _ _ _ _ | noCode =>
              trivial
  | returned _ => trivial

end Clear

/-- The call on the rest of the stream and the one call on all of it: they
stand at the same place, or in the same field, of which the call on the rest is
given only what its predecessors left. -/
inductive Twin (stages : List ParseStage) (n : Nat) :
    ParseCall → ParseCall → Prop where
  | same (call : ParseCall) : Twin stages n (call.behind n) call
  | ahead {loop : ScanLoop} {parser : MessageParser} {input : Octets}
      {total k p pos : Nat} (hscans : loop.Scans stages parser)
      (hk : k ≤ input.length) (hn : n = total + k)
      (hpos : p = k + pos ∨ p ≤ k + pos ∧
        input.length < p + loop.termLen) :
      Twin stages n ⟨parser, input, total, loop.again p⟩
        ⟨loop.append (input.take k) parser, input.drop k, 0, loop.again pos⟩
  | returned {parser : MessageParser} {input input' : Octets} {total : Nat}
      {status : ParseStatus} :
      Twin stages n ⟨parser, input, n + total, .returned status⟩
        ⟨parser, input', total, .returned status⟩

namespace Twin

variable {stages : List ParseStage} {n : Nat} {w w' c c' : ParseCall}

/-- The twin takes the same turn. -/
theorem step (h : Twin stages n w c) (hw : ParseCall.step stages w = .ok w') :
    ∃ c', ParseCall.step stages c = .ok c' ∧ Twin stages n w' c' := by
  cases h with
  | same =>
      rw [step_behind] at hw
      obtain ⟨c', hc', rfl⟩ := map_eq_ok hw
      exact ⟨c', hc', .same c'⟩
  | returned =>
      obtain rfl := Except.ok.inj hw
      exact ⟨_, rfl, .returned⟩
  | @ahead loop parser input total k p pos hscans hk hn hpos =>
      let whole : ParseCall := ⟨parser, input, total, loop.again p⟩
      let rest : ParseCall := ⟨loop.append (input.take k) parser,
        input.drop k, 0, loop.again pos⟩
      have hrest := hscans.append (input.take k)
      have hlength : rest.input.length = input.length - k := List.length_drop
      have htaken : p = k + pos → loop.append (rest.input.take pos)
          rest.parser = loop.append (input.take p) parser := by
        rintro rfl
        rw [hscans.append_append, ← List.take_add]
      have hleft : ∀ width, p = k + pos →
          rest.input.drop (pos + width) = input.drop (p + width) := by
        rintro width rfl
        rw [List.drop_drop, Nat.add_assoc]
      cases hscans.step_iff.mp hw with
      | ends hend =>
          change input.length < p + loop.termLen at hend
          refine ⟨_, hrest.step_iff.mpr (.ends (by rw [hlength]; omega)), ?_⟩
          have hparser : loop.append rest.input rest.parser =
              loop.append input parser := by
            rw [hscans.append_append, List.take_append_drop]
          have htotal : total + input.length = n + (0 + rest.input.length) := by
            rw [hlength]
            omega
          have hsame : loop.ending whole = ⟨loop.append rest.input rest.parser,
              input, n + (0 + rest.input.length),
              .returned .needMoreData⟩ := by
            rw [hparser, ← htotal]
            rfl
          rw [hsame]
          exact .returned
      | @replaces escape hescape hroom hfinds hreadable =>
          change p + loop.termLen ≤ input.length at hroom
          have hp : p = k + pos := by omega
          have hturn : loop.Turn rest pos (loop.replacing rest pos escape) := by
            refine .replaces hescape (by rw [hlength]; omega) ?_ hreadable
            rw [finds_drop whole rest rfl hk, ← hp]
            exact hfinds
          have hsame : loop.replacing whole p escape =
              (loop.replacing rest pos escape).behind n := by
            have htotal : total + (p + escape.escapeSeqLen) =
                n + (0 + (pos + escape.escapeSeqLen)) := by omega
            rw [replacing_eq, replacing_eq, htaken hp, hleft _ hp]
            exact congrArg (fun total => (⟨_, _, total, _⟩ : ParseCall)) htotal
          exact ⟨_, hrest.step_iff.mpr hturn, hsame ▸ .same _⟩
      | hits hlacks hfinds =>
          have hroom := hfinds.1
          change p + loop.termLen ≤ input.length at hroom
          have hp : p = k + pos := by omega
          have hturn : loop.Turn rest pos (loop.hitting rest pos) := by
            refine .hits (fun escape hescape => ?_) ?_
            · rw [lacks_drop whole rest rfl hk, ← hp]
              exact hlacks escape hescape
            · rw [finds_drop whole rest rfl hk, ← hp]
              exact hfinds
          have hsame : loop.hitting whole p =
              (loop.hitting rest pos).behind n := by
            have htotal : total + (p + loop.termLen) =
                n + (0 + (pos + loop.termLen)) := by omega
            rw [hitting_eq, hitting_eq, htaken hp, hleft _ hp]
            exact congrArg (fun total => (⟨_, _, total, _⟩ : ParseCall)) htotal
          exact ⟨_, hrest.step_iff.mpr hturn, hsame ▸ .same _⟩
      | misses hroom hlacks hmiss =>
          change p + loop.termLen ≤ input.length at hroom
          have hp : p = k + pos := by omega
          have hturn : loop.Turn rest pos
              (rest.goto (loop.again (pos + 1))) := by
            refine .misses (by rw [hlength]; omega)
              (fun escape hescape => ?_) ?_
            · rw [lacks_drop whole rest rfl hk, ← hp]
              exact hlacks escape hescape
            · rw [lacks_drop whole rest rfl hk, ← hp]
              exact hmiss
          exact ⟨_, hrest.step_iff.mpr hturn,
            .ahead hscans hk hn (Or.inl (by omega))⟩

/-- What is harmless to a cut for the one call is harmless for its twin. -/
theorem clear (h : Twin stages n w c) {cut : Nat}
    (hclear : w.Clear stages (n + cut)) : c.Clear stages cut := by
  cases h with
  | same => exact hclear.of_behind
  | returned => trivial
  | @ahead loop parser input total k p pos hscans hk hn hpos =>
      let whole : ParseCall := ⟨parser, input, total, loop.again p⟩
      let rest : ParseCall := ⟨loop.append (input.take k) parser,
        input.drop k, 0, loop.again pos⟩
      have hlength : rest.input.length = input.length - k := List.length_drop
      have hsame : ∀ {array : Octets} {len : Nat}, rest.Finds pos array len →
          pos + loop.termLen ≤ rest.input.length →
            p = k + pos ∧ whole.Finds p array len := by
        intro array len hfinds hroom
        rw [hlength] at hroom
        have hp : p = k + pos := by omega
        rw [finds_drop whole rest rfl hk, ← hp] at hfinds
        exact ⟨hp, hfinds⟩
      have hapart : ∀ {width : Nat}, p = k + pos →
          whole.Apart (n + cut) p width → rest.Apart cut pos width := by
        intro width hp happart hlt
        change total + p < n + cut → total + p + width ≤ n + cut at happart
        change 0 + pos < cut at hlt
        change 0 + pos + width ≤ cut
        omega
      have hscan : whole.ClearScan (n + cut) p loop.termLen loop.terminator
          loop.escape → rest.ClearScan cut pos loop.termLen loop.terminator
            loop.escape := by
        intro hwhole
        constructor
        · intro hfinds
          obtain ⟨hp, hfinds⟩ := hsame hfinds hfinds.1
          exact hapart hp (hwhole.1 hfinds)
        · intro option hoption hroom hfinds
          obtain ⟨hp, hfinds⟩ := hsame hfinds hroom
          have hroom' : p + loop.termLen ≤ input.length := by
            rw [hlength] at hroom
            omega
          obtain ⟨hclose, hempty⟩ := hwhole.2 option hoption hroom' hfinds
          refine ⟨hapart hp hclose, fun hlen heq => hempty hlen ?_⟩
          change 0 + pos = cut at heq
          change total + p = n + cut
          omega
      cases hscans with
      | @field name termLen terminator escape hcase =>
          have hcase' : atCase (stages.drop (parser.appendTo name
            (input.take k)).stage) = _ := hcase
          simp only [Clear, ScanLoop.field, hcase] at hclear
          simp only [Clear, ScanLoop.field, hcase']
          exact hscan hclear
      | @element collection name loopLen termLen loopTerminator terminator
          elementStages escape hcase helement =>
          have hcase' : atCase (stages.drop rest.parser.stage) = _ := hcase
          have helement' : atCase (elementStages.drop
              (rest.parser.loops collection).stage) =
                some (.readUntilTerminator name termLen terminator escape) := by
            have hloop : rest.parser.loops collection =
                (parser.loops collection).appendTo name (input.take k) :=
              if_pos rfl
            rw [hloop]
            exact helement
          have hwhole : whole.Clear stages (n + cut) := hclear
          have hpoint : whole.point = .scanningElement p := rfl
          have hpoint' : rest.point = .scanningElement pos := rfl
          simp only [Clear, hpoint, show whole.parser = parser from rfl, hcase,
            helement] at hwhole
          change rest.Clear stages cut
          simp only [Clear, hpoint', hcase', helement']
          refine ⟨hscan hwhole.1, fun hcut hfinds => hwhole.2 ?_ ?_⟩
          · change total + p = n + cut ∨
              total + p ≤ n + cut ∧ input.length < p + termLen
            change 0 + pos = cut ∨
              0 + pos ≤ cut ∧ rest.input.length < pos + termLen at hcut
            change p = k + pos ∨ p ≤ k + pos ∧ input.length < p + termLen at hpos
            omega
          · have hdistance : n + cut - total = k + cut := by omega
            change whole.Finds (n + cut - total) _ _
            rw [hdistance, ← finds_drop whole rest rfl hk]
            exact hfinds

theorem reaches (h : Twin stages n w c)
    (hw : Reaches (ParseCall.step stages) w w') :
    ∃ c', Reaches (ParseCall.step stages) c c' ∧ Twin stages n w' c' := by
  induction hw with
  | refl => exact ⟨c, Reaches.refl c, h⟩
  | tail _ hstep ih =>
      obtain ⟨d, hd, htwin⟩ := ih
      obtain ⟨c', hc', htwin'⟩ := htwin.step hstep
      exact ⟨c', hd.trans (Reaches.single hc'), htwin'⟩

/-- The twin of a call that returned has returned the same. -/
theorem of_returned (h : Twin stages n w c) {status : ParseStatus}
    (hw : w.point = .returned status) :
    c.point = .returned status ∧ c.parser = w.parser ∧
      w.totalConsumed = n + c.totalConsumed := by
  cases h with
  | same => exact ⟨hw, rfl, rfl⟩
  | returned => exact ⟨hw, rfl, rfl⟩
  | ahead hscans => cases hscans <;> contradiction

/-- All that the twin of a call that returns comes to are twins of what the
call comes to. -/
theorem back (h : Twin stages n w c) {status : ParseStatus}
    (hw : Reaches (ParseCall.step stages) w w')
    (hreturned : w'.point = .returned status)
    (hc : Reaches (ParseCall.step stages) c c') :
    ∃ v, Reaches (ParseCall.step stages) w v ∧ Twin stages n v c' := by
  induction hw using Relation.ReflTransGen.head_induction_on generalizing c with
  | refl =>
      obtain ⟨hpoint, _⟩ := h.of_returned hreturned
      obtain rfl := Reaches.eq_of_fixed (step_returned hpoint) hc
      exact ⟨w', Reaches.refl _, h⟩
  | head hstep _ ih =>
      obtain ⟨d, hd, htwin⟩ := h.step hstep
      rcases Relation.ReflTransGen.cases_head hc with rfl | ⟨d', hd', hrest⟩
      · exact ⟨_, Reaches.refl _, h⟩
      · obtain rfl := Except.ok.inj (hd.symm.trans hd')
        obtain ⟨v, hv, hv'⟩ := ih htwin hrest
        exact ⟨v, Reaches.head hstep hv, hv'⟩

end Twin

/-- The call on the part of the stream up to the cut. -/
def upTo (cut : Nat) (call : ParseCall) : ParseCall :=
  { call with input := call.input.take (cut - call.totalConsumed) }

/-- The loop the parser stands in can compare its terminator as long as there
is input for it. -/
def LoopReads (stages : List ParseStage) (parser : MessageParser)
    (input : Octets) : Prop :=
  ∀ collection loopLen loopTerminator elementStages,
    atCase (stages.drop parser.stage) =
        some (.parseLoop collection loopLen loopTerminator elementStages) →
      loopLen ≤ input.length → loopLen ≤ loopTerminator.length

theorem LoopReads.drop {stages : List ParseStage}
    {parser parser' : MessageParser} {input : Octets}
    (h : LoopReads stages parser input) (hstage : parser'.stage = parser.stage)
    (count : Nat) : LoopReads stages parser' (input.drop count) := by
  intro collection loopLen loopTerminator elementStages hcase hlength
  rw [hstage] at hcase
  rw [List.length_drop] at hlength
  exact h _ _ _ _ hcase (by omega)

/-- A call that has not gone beyond the cut. -/
inductive Going (stages : List ParseStage) (cut : Nat) : ParseCall → Prop where
  | dispatch {parser : MessageParser} {input : Octets} {total : Nat}
      (hcut : total ≤ cut) (hend : cut ≤ total + input.length) :
      Going stages cut ⟨parser, input, total, .dispatch⟩
  | scanning {loop : ScanLoop} {parser : MessageParser} {input : Octets}
      {total pos : Nat} (hscans : loop.Scans stages parser)
      (hopen : parser.complete = false) (hreads : LoopReads stages parser input)
      (hcut : total + pos ≤ cut) (hend : cut ≤ total + input.length) :
      Going stages cut ⟨parser, input, total, loop.again pos⟩

/-- The call on the rest of the stream, from what a call on its first part
left, is a twin of the call; at its own first turn no cut does harm. -/
def Resumes (stages : List ParseStage) (call first : ParseCall) : Prop :=
  ∃ w c, Reaches (step stages) call w ∧ Twin stages first.totalConsumed w c ∧
    (c = start first.parser
        (call.input.drop (first.totalConsumed - call.totalConsumed)) ∨
      step stages (start first.parser (call.input.drop
          (first.totalConsumed - call.totalConsumed))) = .ok c ∧
        ∀ cut, (start first.parser (call.input.drop (first.totalConsumed -
          call.totalConsumed))).Clear stages cut)

section Scanning

variable {stages : List ParseStage} {cut total pos : Nat} {loop : ScanLoop}
  {parser : MessageParser} {input : Octets}
  (hscans : loop.Scans stages parser) (hopen : parser.complete = false)
  (hreads : LoopReads stages parser input) (hcut : total + pos ≤ cut)
  (hend : cut ≤ total + input.length)

include hscans hopen hreads hcut hend

/-- Where a terminator would fit before the cut, a clear turn is the same for
the call up to the cut. -/
theorem scan_together (hroom : total + pos + loop.termLen ≤ cut)
    (hclear : (ParseCall.mk parser input total (loop.again pos)).ClearScan cut
      pos loop.termLen loop.terminator loop.escape)
    {t : ParseCall}
    (hturn : loop.Turn ⟨parser, input, total, loop.again pos⟩ pos t) :
    step stages (upTo cut ⟨parser, input, total, loop.again pos⟩) =
        .ok (t.upTo cut) ∧ Going stages cut t := by
  let whole : ParseCall := ⟨parser, input, total, loop.again pos⟩
  let first : ParseCall :=
    ⟨parser, input.take (cut - total), total, loop.again pos⟩
  have hm : cut - total ≤ input.length := by omega
  have hlength : first.input.length = cut - total := by
    rw [List.length_take, Nat.min_eq_left hm]
  have hfits : pos + loop.termLen ≤ first.input.length := by omega
  have hfirst : ∀ {array : Octets} {len : Nat}, whole.Finds pos array len →
      pos + len ≤ cut - total → first.Finds pos array len :=
    fun hfinds hlen => (finds_take whole first rfl hm).mpr ⟨hfinds, hlen⟩
  have htake : first.input.take pos = input.take pos := by
    rw [List.take_take, Nat.min_eq_left (by omega)]
  have hleft : ∀ width, first.input.drop (pos + width) =
      (input.drop (pos + width)).take (cut - (total + (pos + width))) := by
    intro width
    rw [List.drop_take]
    congr 1
    omega
  change step stages first = _ ∧ _
  cases hturn with
  | ends h =>
      change input.length < pos + loop.termLen at h
      omega
  | @replaces escape hescape hroom' hfinds hreadable =>
      have hwithin : total + pos + max loop.termLen escape.escapeSeqLen ≤
          cut := by
        obtain ⟨hapart, hempty⟩ := hclear.2 escape hescape hroom' hfinds
        rcases Nat.lt_or_eq_of_le hcut with hlt | heq
        · exact hapart hlt
        · exact absurd heq (hempty (by omega))
      have hturn : loop.Turn first pos (loop.replacing first pos escape) :=
        .replaces hescape hfits (hfirst hfinds (by omega)) hreadable
      constructor
      · rw [hscans.step_iff.mpr hturn, replacing_eq, htake, hleft]
        rfl
      · have hend' : cut ≤ total + (pos + escape.escapeSeqLen) +
            (input.drop (pos + escape.escapeSeqLen)).length := by
          rw [List.length_drop]
          omega
        have hcut' : total + (pos + escape.escapeSeqLen) + 0 ≤ cut := by omega
        have hfirst := hscans.members (input.take pos)
        have hthen := (hscans.append (input.take pos)).members escape.character
        exact .scanning ((hscans.append _).append _)
          (hthen.2.trans (hfirst.2.trans hopen))
          (hreads.drop (hthen.1.trans hfirst.1) _) hcut' hend'
  | hits hlacks hfinds =>
      have hturn : loop.Turn first pos (loop.hitting first pos) :=
        .hits (fun escape hescape => (hlacks escape hescape).take first rfl hm)
          (hfirst hfinds (by omega))
      constructor
      · rw [hscans.step_iff.mpr hturn, hitting_eq, htake, hleft]
        rfl
      · have hend' : cut ≤ total + (pos + loop.termLen) +
            (input.drop (pos + loop.termLen)).length := by
          rw [List.length_drop]
          omega
        have hcut' : total + (pos + loop.termLen) ≤ cut := by omega
        exact .dispatch hcut' hend'
  | misses hroom' hlacks hmiss =>
      have hturn : loop.Turn first pos (first.goto (loop.again (pos + 1))) :=
        .misses hfits
          (fun escape hescape => (hlacks escape hescape).take first rfl hm)
          (hmiss.take first rfl hm)
      have hpositive := hmiss.pos_len hroom'
      constructor
      · rw [hscans.step_iff.mpr hturn]
        rfl
      · have hcut' : total + (pos + 1) ≤ cut := by omega
        exact .scanning hscans hopen hreads hcut' hend

omit hopen hreads hend in
/-- Where a terminator does not fit before the cut any more, the loop goes on
to the cut, or to the end of the stream. -/
theorem scan_reaches (hshort : cut < total + pos + loop.termLen)
    (hsteps : ∀ w, Reaches (step stages)
      ⟨parser, input, total, loop.again pos⟩ w → ∃ w', step stages w = .ok w')
    (hclear : ∀ w, Reaches (step stages)
      ⟨parser, input, total, loop.again pos⟩ w → w.Clear stages cut) :
    ∃ p, total + p ≤ cut ∧
      Reaches (step stages) ⟨parser, input, total, loop.again pos⟩
        ⟨parser, input, total, loop.again p⟩ ∧
      cut < total + p + loop.termLen ∧
      (total + p = cut ∨ input.length < p + loop.termLen) := by
  generalize hdistance : cut - (total + pos) = d
  induction d generalizing pos with
  | zero =>
      exact ⟨pos, hcut, Reaches.refl _, hshort, Or.inl (by omega)⟩
  | succ d ih =>
      by_cases hroom : input.length < pos + loop.termLen
      · exact ⟨pos, hcut, Reaches.refl _, hshort, Or.inr hroom⟩
      · obtain ⟨w, hw⟩ := hsteps _ (Reaches.refl _)
        have hscan := hscans.clearScan (hclear _ (Reaches.refl _))
        have hbefore : total + pos < cut := by omega
        cases hscans.step_iff.mp hw with
        | ends h => exact absurd h hroom
        | @replaces escape hescape hroom' hfinds _ =>
            have hwithin : total + pos + max loop.termLen escape.escapeSeqLen ≤
                cut := (hscan.2 escape hescape hroom' hfinds).1 hbefore
            omega
        | hits _ hfinds =>
            have hwithin : total + pos + loop.termLen ≤ cut :=
              hscan.1 hfinds hbefore
            omega
        | misses hroom' hlacks hmiss =>
            have hnext : Reaches (step stages)
                ⟨parser, input, total, loop.again pos⟩
                ⟨parser, input, total, loop.again (pos + 1)⟩ :=
              Reaches.single hw
            have hcut' : total + (pos + 1) ≤ cut := by omega
            obtain ⟨p, hp, hreaches, hrest⟩ := ih hcut' (by omega)
              (fun w h => hsteps w (hnext.trans h))
              (fun w h => hclear w (hnext.trans h)) (by omega)
            exact ⟨p, hp, hnext.trans hreaches, hrest⟩

/-- There the call up to the cut stops, and the call on the rest resumes. -/
theorem scan_stops (hshort : cut < total + pos + loop.termLen)
    (hsteps : ∀ w, Reaches (step stages)
      ⟨parser, input, total, loop.again pos⟩ w → ∃ w', step stages w = .ok w')
    (hclear : ∀ w, Reaches (step stages)
      ⟨parser, input, total, loop.again pos⟩ w → w.Clear stages cut) :
    ∃ first, step stages (upTo cut ⟨parser, input, total, loop.again pos⟩) =
        .ok first ∧ first.point = .returned .needMoreData ∧
      total ≤ first.totalConsumed ∧ first.totalConsumed ≤ cut ∧
      Resumes stages ⟨parser, input, total, loop.again pos⟩ first := by
  obtain ⟨p, hp, hreaches, hshort', hstop⟩ := scan_reaches hscans hcut hshort
    hsteps hclear
  let k := cut - total
  let first : ParseCall := ⟨parser, input.take k, total, loop.again pos⟩
  have hk : k ≤ input.length := by omega
  have hlength : first.input.length = k := by
    rw [List.length_take, Nat.min_eq_left hk]
  have hturn : loop.Turn first pos (loop.ending first) :=
    .ends (by rw [hlength]; omega)
  have htotal : (loop.ending first).totalConsumed = cut := by
    change total + first.input.length = cut
    omega
  refine ⟨_, hscans.step_iff.mpr hturn, rfl, by omega, Nat.le_of_eq htotal, ?_⟩
  have htwin : Twin stages cut ⟨parser, input, total, loop.again p⟩
      ⟨loop.append (input.take k) parser, input.drop k, 0, loop.again 0⟩ :=
    .ahead hscans hk (by omega) (by omega)
  rw [Resumes]
  simp only [htotal]
  cases hscans with
  | @field name termLen terminator escape hcase =>
      have hcase' : atCase (stages.drop (parser.appendTo name
          (input.take k)).stage) = _ := hcase
      have hfree : ∀ cut', Clear stages cut'
          ⟨parser.appendTo name (input.take k), input.drop k, 0,
            .dispatch⟩ := by
        intro cut'
        simp only [Clear, hcase']
      exact ⟨_, _, hreaches, htwin, Or.inr
        ⟨step_read _ rfl hopen hcase, hfree⟩⟩
  | @element collection name loopLen termLen loopTerminator terminator
      elementStages escape hcase helement =>
      let loop := ScanLoop.element collection name termLen terminator
      let rest : ParseCall :=
        ⟨loop.append (input.take k) parser, input.drop k, 0, .dispatch⟩
      have hcase' : atCase (stages.drop rest.parser.stage) = _ := hcase
      have hsame : (rest.parser.loops collection).stage =
          (parser.loops collection).stage := by
        have hloop : rest.parser.loops collection =
            (parser.loops collection).appendTo name (input.take k) := if_pos rfl
        rw [hloop]
        rfl
      have hno : ¬ rest.Finds 0 loopTerminator loopLen := by
        have hcleared := hclear _ hreaches
        simp only [Clear, ScanLoop.element, hcase, helement] at hcleared
        rw [finds_drop ⟨parser, input, total, loop.again p⟩ rest rfl hk]
        exact hcleared.2 (hstop.imp id fun hlt => ⟨hp, hlt⟩)
      have hfree : ∀ cut', rest.Clear stages cut' := by
        intro cut'
        have hpoint : rest.point = .dispatch := rfl
        simp only [Clear, hpoint, hcase']
        exact fun h => absurd h hno
      have hloop := (step_loop rest rfl hopen hcase').trans
        (dispatchLoop_misses _ _ hno (hreads.drop rfl k _ _ _ _ hcase'))
      by_cases hempty : input.drop k = []
      · have hle : input.length ≤ k := List.drop_eq_nil_iff.mp hempty
        have hlast : input.length < p + loop.termLen := by
          change cut < total + p + loop.termLen at hshort'
          omega
        have hwhole : step stages ⟨parser, input, total, loop.again p⟩ =
            .ok (loop.ending ⟨parser, input, total, loop.again p⟩) :=
          (Scans.element hcase helement).step_iff.mpr (.ends hlast)
        have hreturned : Twin stages cut
            (loop.ending ⟨parser, input, total, loop.again p⟩)
            (rest.finish .needMoreData) := by
          have hall : input.take k = input := List.take_of_length_le hle
          have htotal : total + input.length = cut + 0 := by omega
          have hending : loop.ending ⟨parser, input, total, loop.again p⟩ =
              ⟨rest.parser, input, cut + 0, .returned .needMoreData⟩ := by
            rw [← htotal]
            simp only [rest, hall]
            rfl
          rw [hending]
          exact .returned
        refine ⟨_, _, hreaches.trans (Reaches.single hwhole), hreturned,
          Or.inr ⟨?_, hfree⟩⟩
        exact hloop.trans (if_pos hempty)
      · refine ⟨_, _, hreaches, htwin, Or.inr ⟨?_, hfree⟩⟩
        have helement' : rest.dispatchElement collection elementStages =
            .ok (rest.goto (.scanningElement 0)) := by
          simp only [dispatchElement, hsame, helement]
        exact hloop.trans ((if_neg hempty).trans helement')

end Scanning

section Dispatch

variable {stages : List ParseStage} {cut total : Nat} {parser : MessageParser}
  {input : Octets} {t : ParseCall}

/-- The call up to the cut takes the same turn and has not gone beyond the
cut. -/
def Together (stages : List ParseStage) (cut : Nat)
    (turn : ParseCall → Except Fault ParseCall) (call t : ParseCall) : Prop :=
  turn (call.upTo cut) = .ok (t.upTo cut) ∧ Going stages cut t

/-- The call up to the cut returns where it stands. -/
def Stops (cut : Nat) (turn : ParseCall → Except Fault ParseCall)
    (call : ParseCall) : Prop :=
  ∃ status, turn (call.upTo cut) = .ok ((call.upTo cut).finish status)

variable (hcut : total ≤ cut) (hend : cut ≤ total + input.length)

include hcut hend

theorem matchStatic_together {len : Nat} {expected : Octets}
    {next : MessageParser → MessageParser}
    (h : matchStatic ⟨parser, input, total, .dispatch⟩ len expected next =
      .ok t) :
    Together stages cut (·.matchStatic len expected next)
        ⟨parser, input, total, .dispatch⟩ t ∨
      Stops cut (·.matchStatic len expected next)
        ⟨parser, input, total, .dispatch⟩ := by
  let first : ParseCall := ⟨parser, input.take (cut - total), total, .dispatch⟩
  have hm : cut - total ≤ input.length := by omega
  have hlength : first.input.length = cut - total := by
    rw [List.length_take, Nat.min_eq_left hm]
  by_cases hshort : cut - total < len
  · exact Or.inr ⟨_, matchStatic_short first (by rw [hlength]; exact hshort)⟩
  · rw [matchStatic] at h
    split at h
    · rename_i hlt
      change input.length < len at hlt
      omega
    · obtain ⟨equal, hequal, rfl⟩ := map_eq_ok h
      have hsame : memcmpEqual first.input expected len = .ok equal := by
        rw [← hequal]
        refine memcmpEqual_congr expected ?_
        rw [List.take_take, Nat.min_eq_left (by omega)]
      have hfirst : first.matchStatic len expected next = .ok
          (if equal then (first.consume len).modify next
            else first.finish .error) := by
        rw [matchStatic, if_neg (by rw [hlength]; exact hshort), hsame]
        rfl
      cases equal with
      | true =>
          have hend' : cut ≤ total + len + (input.drop len).length := by
            rw [List.length_drop]
            omega
          have hcut' : total + len ≤ cut := by omega
          refine Or.inl ⟨hfirst.trans ?_, .dispatch hcut' hend'⟩
          have hleft : first.input.drop len =
              (input.drop len).take (cut - (total + len)) := by
            rw [List.drop_take]
            congr 1
            omega
          simp only [consume, hleft]
          rfl
      | false => exact Or.inr ⟨_, hfirst⟩

theorem dispatchLoop_together {collection : String} {loopLen : Nat}
    {loopTerminator : Octets} {elementStages : List ParseStage}
    (hopen : parser.complete = false)
    (hcase : atCase (stages.drop parser.stage) =
      some (.parseLoop collection loopLen loopTerminator elementStages))
    (hclear : Finds ⟨parser, input, total, .dispatch⟩ 0 loopTerminator loopLen →
      Apart ⟨parser, input, total, .dispatch⟩ cut 0 loopLen)
    (h : dispatchLoop ⟨parser, input, total, .dispatch⟩ collection loopLen
      loopTerminator elementStages = .ok t) :
    Together stages cut
        (·.dispatchLoop collection loopLen loopTerminator elementStages)
        ⟨parser, input, total, .dispatch⟩ t ∨
      Stops cut
        (·.dispatchLoop collection loopLen loopTerminator elementStages)
        ⟨parser, input, total, .dispatch⟩ := by
  let whole : ParseCall := ⟨parser, input, total, .dispatch⟩
  let first : ParseCall := ⟨parser, input.take (cut - total), total, .dispatch⟩
  have hm : cut - total ≤ input.length := by omega
  have hlength : first.input.length = cut - total := by
    rw [List.length_take, Nat.min_eq_left hm]
  have hfirst : first.Finds 0 loopTerminator loopLen ↔
      whole.Finds 0 loopTerminator loopLen ∧ 0 + loopLen ≤ cut - total :=
    finds_take whole first rfl hm
  by_cases hfinds : whole.Finds 0 loopTerminator loopLen
  · obtain rfl := Except.ok.inj ((dispatchLoop_finds _ _ hfinds).symm.trans h)
    have happart : total + 0 < cut → total + 0 + loopLen ≤ cut := hclear hfinds
    by_cases hroom : loopLen ≤ cut - total
    · have hturn := dispatchLoop_finds collection elementStages
        (hfirst.mpr ⟨hfinds, by rwa [Nat.zero_add]⟩)
      have hend' : cut ≤ total + loopLen + (input.drop loopLen).length := by
        rw [List.length_drop]
        omega
      have hcut' : total + loopLen ≤ cut := by omega
      refine Or.inl ⟨hturn.trans ?_, .dispatch hcut' hend'⟩
      have hleft : first.input.drop loopLen =
          (input.drop loopLen).take (cut - (total + loopLen)) := by
        rw [List.drop_take]
        congr 1
        omega
      simp only [consume, hleft]
      rfl
    · have hempty : first.input = [] :=
        List.length_eq_zero_iff.mp (by omega)
      refine Or.inr ⟨.needMoreData, ?_⟩
      change first.dispatchLoop collection loopLen loopTerminator elementStages
        = _
      rw [dispatchLoop, if_neg (by omega), if_pos hempty]
      rfl
  · have hreads : loopLen ≤ input.length →
        loopLen ≤ loopTerminator.length := by
      intro hroom
      by_contra hlt
      rw [dispatchLoop, if_pos hroom, memcmpEqual,
        if_pos (Nat.lt_of_not_le hlt)] at h
      contradiction
    have hno : ¬ first.Finds 0 loopTerminator loopLen :=
      fun hfound => hfinds (hfirst.mp hfound).1
    have hturn := dispatchLoop_misses collection elementStages hno
      (fun hroom => hreads (by omega))
    rw [dispatchLoop_misses _ _ hfinds hreads] at h
    by_cases hempty : first.input = []
    · exact Or.inr ⟨_, hturn.trans (if_pos hempty)⟩
    · have hsome : input ≠ [] := by
        rintro rfl
        exact hempty (List.take_nil)
      rw [if_neg hsome] at h
      have hturn := hturn.trans (if_neg hempty)
      rw [dispatchElement] at h hturn
      cases hinner : atCase (elementStages.drop
          (parser.loops collection).stage) with
      | none =>
          rw [hinner] at h hturn
          obtain rfl := Except.ok.inj h
          exact Or.inl ⟨hturn, .dispatch hcut hend⟩
      | some stage =>
          rw [hinner] at h hturn
          cases stage with
          | matchStaticOctets len expected =>
              rcases matchStatic_together hcut hend h with
                ⟨heq, hgoing⟩ | ⟨status, heq⟩
              · exact Or.inl ⟨hturn.trans heq, hgoing⟩
              · exact Or.inr ⟨status, hturn.trans heq⟩
          | readUntilTerminator name termLen terminator escape =>
              obtain rfl := Except.ok.inj h
              have hscans : (ScanLoop.element collection name termLen
                  terminator).Scans stages parser := .element hcase hinner
              have hquiet : LoopReads stages parser input := by
                intro _ _ _ _ hcase'
                obtain ⟨_, rfl, rfl, _⟩ := ParseStage.parseLoop.inj
                  (Option.some.inj (hcase.symm.trans hcase'))
                exact hreads
              exact Or.inl ⟨hturn, .scanning hscans hopen hquiet hcut hend⟩
          | parseLoop _ _ _ _ | noCode =>
              obtain rfl := Except.ok.inj h
              exact Or.inl ⟨hturn, .dispatch hcut hend⟩

/-- At the head of its loop the call up to the cut takes the turn of the whole
call, or returns where it stands. -/
theorem dispatch_together
    (hstep : step stages ⟨parser, input, total, .dispatch⟩ = .ok t)
    (hclear : Clear stages cut ⟨parser, input, total, .dispatch⟩) :
    Together stages cut (step stages) ⟨parser, input, total, .dispatch⟩ t ∨
      Stops cut (step stages) ⟨parser, input, total, .dispatch⟩ := by
  let first : ParseCall := ⟨parser, input.take (cut - total), total, .dispatch⟩
  by_cases hcomplete : parser.complete = true
  · refine Or.inr ⟨.complete, ?_⟩
    change dispatch stages first = _
    rw [dispatch, if_pos hcomplete]
    rfl
  · have hopen : parser.complete = false := by simpa using hcomplete
    have hturn : step stages first = dispatch stages first := rfl
    change dispatch stages ⟨parser, input, total, .dispatch⟩ = _ at hstep
    rw [dispatch] at hstep hturn
    simp only [first, hopen, Bool.false_eq_true, if_false] at hstep hturn
    simp only [Clear] at hclear
    cases hcase : atCase (stages.drop parser.stage) with
    | none =>
        rw [hcase] at hstep hturn
        obtain rfl := Except.ok.inj hstep
        exact Or.inl ⟨hturn, .dispatch hcut hend⟩
    | some stage =>
        rw [hcase] at hstep hturn hclear
        cases stage with
        | matchStaticOctets len expected =>
            rcases matchStatic_together hcut hend hstep with
              ⟨heq, hgoing⟩ | ⟨status, heq⟩
            · exact Or.inl ⟨hturn.trans heq, hgoing⟩
            · exact Or.inr ⟨status, hturn.trans heq⟩
        | readUntilTerminator name termLen terminator escape =>
            obtain rfl := Except.ok.inj hstep
            have hscans : (ScanLoop.field name termLen terminator
                escape).Scans stages parser := .field hcase
            have hquiet : LoopReads stages parser input := by
              intro _ _ _ _ hcase'
              exact ParseStage.noConfusion
                (Option.some.inj (hcase.symm.trans hcase'))
            exact Or.inl ⟨hturn, .scanning hscans hopen hquiet hcut hend⟩
        | parseLoop collection loopLen loopTerminator elementStages =>
            rcases dispatchLoop_together hcut hend hopen hcase hclear hstep with
              ⟨heq, hgoing⟩ | ⟨status, heq⟩
            · exact Or.inl ⟨hturn.trans heq, hgoing⟩
            · exact Or.inr ⟨status, hturn.trans heq⟩
        | noCode =>
            obtain rfl := Except.ok.inj hstep
            exact Or.inl ⟨hturn, .dispatch hcut hend⟩

end Dispatch

section Left

variable {stages : List ParseStage} {s t : ParseCall}

/-- The call has returned, or what it counted is what it took away. -/
def Leaves (s t : ParseCall) : Prop :=
  (∃ status, t.point = .returned status) ∨
    ∃ k, t.input = s.input.drop k ∧ t.totalConsumed = s.totalConsumed + k

theorem Leaves.stays (hinput : t.input = s.input)
    (htotal : t.totalConsumed = s.totalConsumed) : Leaves s t :=
  Or.inr ⟨0, hinput, htotal⟩

theorem matchStatic_leaves {len : Nat} {expected : Octets}
    {next : MessageParser → MessageParser}
    (h : s.matchStatic len expected next = .ok t) : Leaves s t := by
  rw [matchStatic] at h
  split at h
  · obtain rfl := Except.ok.inj h
    exact Or.inl ⟨_, rfl⟩
  · obtain ⟨equal, _, rfl⟩ := map_eq_ok h
    cases equal with
    | true => exact Or.inr ⟨len, rfl, rfl⟩
    | false => exact Or.inl ⟨_, rfl⟩

theorem scanTerminator_leaves {pos termLen : Nat} {terminator : Octets}
    {append : Octets → MessageParser → MessageParser}
    {next : MessageParser → MessageParser} {again : Nat → ParsePoint}
    (h : s.scanTerminator pos termLen terminator append next again = .ok t) :
    Leaves s t := by
  rw [scanTerminator] at h
  split at h
  · obtain ⟨equal, _, rfl⟩ := map_eq_ok h
    cases equal with
    | true => exact Or.inr ⟨pos + termLen, rfl, rfl⟩
    | false => exact .stays rfl rfl
  · obtain rfl := Except.ok.inj h
    exact Or.inl ⟨_, rfl⟩

theorem scanEscape_leaves {pos termLen : Nat} {terminator : Octets}
    {escape : EscapeConstants} {name : String}
    (h : s.scanEscape pos termLen terminator escape name = .ok t) :
    Leaves s t := by
  rw [scanEscape] at h
  split at h
  · split at h
    · split at h
      · contradiction
      · split at h
        · contradiction
        · obtain rfl := Except.ok.inj h
          exact Or.inr ⟨pos + escape.escapeSeqLen, rfl, rfl⟩
      · exact scanTerminator_leaves h
    · exact scanTerminator_leaves h
  · exact scanTerminator_leaves h

theorem dispatchElement_leaves {collection : String}
    {elementStages : List ParseStage}
    (h : s.dispatchElement collection elementStages = .ok t) :
    Leaves s t := by
  rw [dispatchElement] at h
  split at h
  · exact matchStatic_leaves h
  · obtain rfl := Except.ok.inj h
    exact .stays rfl rfl
  · obtain rfl := Except.ok.inj h
    exact .stays rfl rfl

theorem dispatchLoop_leaves {collection : String} {termLen : Nat}
    {loopTerminator : Octets} {elementStages : List ParseStage}
    (h : s.dispatchLoop collection termLen loopTerminator elementStages =
      .ok t) : Leaves s t := by
  have helement : (if s.input = [] then .ok (s.finish .needMoreData)
      else s.dispatchElement collection elementStages) = .ok t →
        Leaves s t := by
    intro h
    split at h
    · obtain rfl := Except.ok.inj h
      exact Or.inl ⟨_, rfl⟩
    · exact dispatchElement_leaves h
  rw [dispatchLoop] at h
  split at h
  · split at h
    · contradiction
    · obtain rfl := Except.ok.inj h
      exact Or.inr ⟨termLen, rfl, rfl⟩
    · exact helement h
  · exact helement h

theorem step_leaves (h : step stages s = .ok t) : Leaves s t := by
  rw [step] at h
  split at h
  · rw [dispatch] at h
    split at h
    · obtain rfl := Except.ok.inj h
      exact Or.inl ⟨_, rfl⟩
    · split at h
      · exact matchStatic_leaves h
      · obtain rfl := Except.ok.inj h
        exact .stays rfl rfl
      · exact dispatchLoop_leaves h
      · obtain rfl := Except.ok.inj h
        exact .stays rfl rfl
  · rw [scan] at h
    split at h
    · exact scanTerminator_leaves h
    · exact scanEscape_leaves h
    · contradiction
  · rw [scanElement] at h
    split at h
    · split at h
      · exact scanTerminator_leaves h
      · contradiction
    · contradiction
  · obtain rfl := Except.ok.inj h
    exact .stays rfl rfl

end Left

theorem Going.not_returned {stages : List ParseStage} {cut : Nat}
    {call : ParseCall} (h : Going stages cut call) (status : ParseStatus) :
    call.point ≠ .returned status := by
  cases h with
  | dispatch _ _ => exact ParsePoint.noConfusion
  | scanning hscans _ _ _ _ =>
      cases hscans <;> exact ParsePoint.noConfusion

/-- What resumes a later state of the call resumes the call. -/
theorem Resumes.of_step {stages : List ParseStage} {cut : Nat}
    {s t first : ParseCall} (hstep : step stages s = .ok t)
    (hgoing : Going stages cut t)
    (hle : t.totalConsumed ≤ first.totalConsumed)
    (h : Resumes stages t first) :
    s.totalConsumed ≤ t.totalConsumed ∧ Resumes stages s first := by
  rcases step_leaves hstep with ⟨status, hreturned⟩ | ⟨k, hinput, htotal⟩
  · exact absurd hreturned (hgoing.not_returned status)
  · have hrest : t.input.drop (first.totalConsumed - t.totalConsumed) =
        s.input.drop (first.totalConsumed - s.totalConsumed) := by
      rw [hinput, List.drop_drop]
      congr 1
      omega
    obtain ⟨w, c, hw, hrest'⟩ := h
    rw [hrest] at hrest'
    exact ⟨by omega, w, c, Reaches.head hstep hw, hrest'⟩

/-- The call up to the cut returns, and the call on the rest resumes. -/
theorem splits {stages : List ParseStage} {cut : Nat} {call last : ParseCall}
    {status : ParseStatus} (hlast : Reaches (step stages) call last)
    (hreturned : last.point = .returned status)
    (hgoing : Going stages cut call)
    (hclear : ∀ w, Reaches (step stages) call w → w.Clear stages cut) :
    ∃ first status, Reaches (step stages) (call.upTo cut) first ∧
      first.point = .returned status ∧
      call.totalConsumed ≤ first.totalConsumed ∧
      first.totalConsumed ≤ cut ∧ Resumes stages call first := by
  induction hlast using Relation.ReflTransGen.head_induction_on with
  | refl => exact absurd hreturned (hgoing.not_returned status)
  | @head call t hstep hrest ih =>
      have hsteps : ∀ w, Reaches (step stages) call w →
          ∃ w', step stages w = .ok w' := by
        intro w hw
        cases hnext : step stages w with
        | ok w' => exact ⟨w', rfl⟩
        | error fault =>
            exact absurd (Reaches.head hstep hrest)
              (not_returned_of_fault hnext hw hreturned)
      have htogether : Together stages cut (step stages) call t →
          ∃ first status, Reaches (step stages) (call.upTo cut) first ∧
            first.point = .returned status ∧
            call.totalConsumed ≤ first.totalConsumed ∧
            first.totalConsumed ≤ cut ∧ Resumes stages call first := by
        rintro ⟨hfirst, hgoing'⟩
        obtain ⟨first, status, hreaches, hpoint, hle, hcut, hresumes⟩ :=
          ih hgoing' fun w hw => hclear w (Reaches.head hstep hw)
        obtain ⟨hle', hresumes⟩ := hresumes.of_step hstep hgoing' hle
        exact ⟨first, status, Reaches.head hfirst hreaches, hpoint,
          hle'.trans hle, hcut, hresumes⟩
      cases hgoing with
      | @dispatch parser input total hcut hend =>
          rcases dispatch_together hcut hend hstep (hclear _ (Reaches.refl _))
            with h | ⟨status, h⟩
          · exact htogether h
          · refine ⟨_, status, Reaches.single h, rfl, Nat.le_refl total, hcut,
              ⟨parser, input, total, .dispatch⟩,
              ⟨parser, input, 0, .dispatch⟩, Reaches.refl _,
              .same ⟨parser, input, 0, .dispatch⟩, Or.inl ?_⟩
            change _ = start parser (input.drop (total - total))
            rw [Nat.sub_self]
            rfl
      | @scanning loop parser input total pos hscans hopen hreads hcut hend =>
          by_cases hroom : total + pos + loop.termLen ≤ cut
          · exact htogether (scan_together hscans hopen hreads hcut hend hroom
              (hscans.clearScan (hclear _ (Reaches.refl _)))
              (hscans.step_iff.mp hstep))
          · obtain ⟨first, hfirst, hpoint, hle, hcut', hresumes⟩ :=
              scan_stops hscans hopen hreads hcut hend (by omega) hsteps hclear
            exact ⟨first, _, Reaches.single hfirst, hpoint, hle, hcut',
              hresumes⟩

/-- If the end of the first part is clear, the call on the first part returns,
and the call on the rest comes to what the one call comes to. -/
theorem returns_split {stages : List ParseStage} {parser : MessageParser}
    {x y : Octets} {outcome : ParseOutcome}
    (h : Returns stages parser (x ++ y) outcome)
    (hclear : ∀ w, Reaches (step stages) (start parser (x ++ y)) w →
      w.Clear stages x.length) :
    ∃ first rest, Returns stages parser x first ∧
      first.totalConsumed ≤ x.length ∧
      Returns stages first.parser (x.drop first.totalConsumed ++ y) rest ∧
      outcome = { rest with
        totalConsumed := first.totalConsumed + rest.totalConsumed } ∧
      ∀ cut, (∀ w, Reaches (step stages) (start parser (x ++ y)) w →
          w.Clear stages (first.totalConsumed + cut)) →
        ∀ c, Reaches (step stages)
            (start first.parser (x.drop first.totalConsumed ++ y)) c →
          c.Clear stages cut := by
  obtain ⟨left, hlast⟩ := h
  have hlength : x.length ≤ 0 + (x ++ y).length := by
    rw [List.length_append]
    omega
  obtain ⟨first, status, hfirst, hpoint, _, hcut, w, c, hw, htwin, hc⟩ :=
    splits hlast rfl (.dispatch (Nat.zero_le _) hlength) hclear
  have hstart : (start parser (x ++ y)).upTo x.length = start parser x := by
    simp only [upTo, start, Nat.sub_zero, List.take_left]
  have hrest : (start parser (x ++ y)).input.drop (first.totalConsumed -
      (start parser (x ++ y)).totalConsumed) =
        x.drop first.totalConsumed ++ y :=
    List.drop_append_of_le_length hcut
  rw [hstart] at hfirst
  rw [hrest] at hc
  have hreaches : Reaches (step stages)
      (start first.parser (x.drop first.totalConsumed ++ y)) c := by
    rcases hc with rfl | ⟨hstep, _⟩
    · exact Reaches.refl _
    · exact Reaches.single hstep
  have hwlast := Reaches.of_fixed (step_returned rfl) hlast hw
  obtain ⟨last, hclast, htwin'⟩ := htwin.reaches hwlast
  obtain ⟨hlastPoint, hlastParser, htotal⟩ := htwin'.of_returned rfl
  refine ⟨⟨status, first.totalConsumed, first.parser⟩,
    ⟨outcome.status, last.totalConsumed, outcome.parser⟩, ⟨first.input, ?_⟩,
    hcut, ⟨last.input, ?_⟩, ?_, fun cut hcuts d hd => ?_⟩
  · obtain ⟨_, _, _, _⟩ := first
    obtain rfl := hpoint
    exact hfirst
  · obtain ⟨_, _, _, _⟩ := last
    obtain rfl := hlastPoint
    obtain rfl := hlastParser
    exact hreaches.trans hclast
  · exact congrArg (fun total => ParseOutcome.mk outcome.status total
      outcome.parser) htotal
  · have htwins : ∀ {d}, Reaches (step stages) c d → d.Clear stages cut := by
      intro d hd
      obtain ⟨v, hv, htwin⟩ := htwin.back hwlast rfl hd
      exact htwin.clear (hcuts v (hw.trans hv))
    rcases hc with rfl | ⟨hstep, hfree⟩
    · exact htwins hd
    · rcases Relation.ReflTransGen.cases_head hd with rfl | ⟨e, he, hed⟩
      · exact hfree cut
      · obtain rfl := Except.ok.inj (hstep.symm.trans he)
        exact htwins hed

theorem CutAt.cons {chunk : Octets} {chunks : List Octets} {cut : Nat}
    (h : CutAt chunks cut) : CutAt (chunk :: chunks) (chunk.length + cut) := by
  obtain ⟨before, after, _, hafter, rfl, rfl⟩ := h
  exact ⟨chunk :: before, after, List.cons_ne_nil _ _, hafter, rfl,
    by rw [List.flatten_cons, List.length_append]⟩

/-- With clear cuts the calls on the chunks come to exactly what one call comes
to. -/
theorem feeds_of_clear {stages : List ParseStage} {chunks : List Octets}
    (hne : chunks ≠ []) {parser : MessageParser} {unread : Octets}
    {outcome : ParseOutcome}
    (h : Returns stages parser (unread ++ chunks.flatten) outcome)
    (hclear : ∀ cut, CutAt chunks cut → ∀ w,
      Reaches (step stages) (start parser (unread ++ chunks.flatten)) w →
        w.Clear stages (unread.length + cut)) :
    Feeds stages parser unread chunks outcome := by
  induction chunks generalizing parser unread outcome with
  | nil => contradiction
  | cons chunk chunks ih =>
      cases chunks with
      | nil =>
          rw [List.flatten_cons, List.flatten_nil, List.append_nil] at h
          exact .last h
      | cons next chunks =>
          have hcut : CutAt (chunk :: next :: chunks) chunk.length :=
            ⟨[chunk], next :: chunks, List.cons_ne_nil _ _,
              List.cons_ne_nil _ _, rfl, by simp⟩
          rw [List.flatten_cons, ← List.append_assoc] at h hclear
          obtain ⟨first, rest, hfirst, hle, hrest, rfl, htransfer⟩ :=
            returns_split h fun w hw => by
              rw [List.length_append]
              exact hclear _ hcut w hw
          refine .next hfirst (ih (List.cons_ne_nil _ _) hrest ?_)
          intro cut hcut
          refine htransfer _ fun w hw => ?_
          have hposition : first.totalConsumed +
              (((unread ++ chunk).drop first.totalConsumed).length + cut) =
              unread.length + (chunk.length + cut) := by
            rw [List.length_append] at hle
            rw [List.length_drop, List.length_append]
            omega
          rw [hposition]
          exact hclear _ hcut.cons w hw

end ParseCall

end NetworkProtocolDsl
