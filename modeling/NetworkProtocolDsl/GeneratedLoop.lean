/-
The loops of the emitted parser.

Before every case of the inner switch the emitted code looks for the terminator
of the loop, also before the case that keeps the element.  What the elements
and the buffers hold is, with the literals between them, what was consumed; so
the element in front of the terminator is never kept.
-/
import NetworkProtocolDsl.Library.MapM
import NetworkProtocolDsl.LoopRoundTrip
import NetworkProtocolDsl.NamesApart
import NetworkProtocolDsl.ParserStages

namespace NetworkProtocolDsl

open Run Generate NetworkProtocolDsl.Action IdentifierReference

namespace ParseStage

/-- The bytes of the literal of a case. -/
def literalSize : ParseStage → Nat
  | .matchStaticOctets len _ => len
  | .readUntilTerminator _ termLen _ _ => termLen
  | _ => 0

/-- A case for a static piece or for a field. -/
def ReadsPiece : ParseStage → Prop
  | .matchStaticOctets _ _ | .readUntilTerminator _ _ _ _ => True
  | _ => False

end ParseStage

namespace LoopState

/-- The bytes of the literals of these cases. -/
def literalsSize (stages : List ParseStage) : Nat :=
  (stages.map ParseStage.literalSize).sum

/-- The bytes in the buffers with these names. -/
def bufferSize (names : List String) (buffers : String → Octets) : Nat :=
  (names.map fun name => (buffers name).length).sum

/-- The bytes of an element with the literals between its fields. -/
def elementSize (stages : List ParseStage) (element : List (String × Octets)) :
    Nat :=
  literalsSize stages + (element.map fun field => field.2.length).sum

/-- The bytes of the elements that were kept. -/
def keptSize (stages : List ParseStage) (loop : LoopState) : Nat :=
  (loop.elements.map (elementSize stages)).sum

/-- The bytes of the element that is being read. -/
def heldSize (stages : List ParseStage) (loop : LoopState) : Nat :=
  literalsSize (stages.take loop.stage) +
    bufferSize (fieldNames stages) loop.buffers

variable {stages : List ParseStage} {loop : LoopState} {name : String}

theorem bufferSize_of_notMem {names : List String} (h : name ∉ names)
    (buffers : String → Octets) (data : Octets) :
    bufferSize names (fun other =>
      if other = name then buffers other ++ data else buffers other) =
        bufferSize names buffers := by
  refine congrArg List.sum (List.map_congr_left fun other hother => ?_)
  have hne : other ≠ name := by
    rintro rfl
    exact h hother
  simp only [if_neg hne]

theorem bufferSize_appendTo {names : List String} (hnodup : names.Nodup)
    (h : name ∈ names) (buffers : String → Octets) (data : Octets) :
    bufferSize names (fun other =>
      if other = name then buffers other ++ data else buffers other) =
        bufferSize names buffers + data.length := by
  induction names with
  | nil => exact absurd h List.not_mem_nil
  | cons first names ih =>
      obtain ⟨hfirst, hnames⟩ := List.nodup_cons.mp hnodup
      rcases List.mem_cons.mp h with rfl | h
      · have hrest := bufferSize_of_notMem hfirst buffers data
        simp only [bufferSize, List.map_cons, List.sum_cons, if_true,
          List.length_append] at hrest ⊢
        omega
      · have hne : first ≠ name := by
          rintro rfl
          exact hfirst h
        have hrest := ih hnames h
        simp only [bufferSize, List.map_cons, List.sum_cons, if_neg hne]
          at hrest ⊢
        omega

theorem heldSize_nextStage {stage : ParseStage} {rest : List ParseStage}
    (h : stages.drop loop.stage = stage :: rest) :
    heldSize stages loop.nextStage =
      heldSize stages loop + stage.literalSize := by
  have htake : stages.take (loop.stage + 1) =
      stages.take loop.stage ++ [stage] := by
    rw [List.take_add, h]
    rfl
  simp only [heldSize, nextStage, htake, literalsSize, List.map_append,
    List.sum_append, List.map_cons, List.map_nil, List.sum_cons, List.sum_nil]
  omega

theorem heldSize_appendTo (hnodup : (fieldNames stages).Nodup)
    (h : name ∈ fieldNames stages) (data : Octets) :
    heldSize stages (loop.appendTo name data) =
      heldSize stages loop + data.length := by
  simp only [heldSize, appendTo,
    bufferSize_appendTo hnodup h loop.buffers data]
  omega

/-- Keeping an element moves its bytes. -/
theorem keptSize_pushElement (h : stages.drop loop.stage = []) :
    keptSize stages (loop.pushElement stages) =
      keptSize stages loop + heldSize stages loop := by
  have htake : stages.take loop.stage = stages :=
    List.take_of_length_le (List.drop_eq_nil_iff.mp h)
  simp only [keptSize, pushElement, List.map_append, List.sum_append,
    List.map_cons, List.map_nil, List.sum_cons, List.sum_nil, elementSize,
    List.map_map, heldSize, htake, bufferSize]
  rfl

theorem heldSize_pushElement :
    heldSize stages (loop.pushElement stages) = 0 := by
  have hbuffers : bufferSize (fieldNames stages)
      (loop.pushElement stages).buffers = 0 := by
    rw [bufferSize, List.sum_eq_zero_iff_forall_eq_nat]
    intro size hsize
    obtain ⟨name, hname, rfl⟩ := List.mem_map.mp hsize
    simp [pushElement, hname]
  rw [heldSize, hbuffers]
  rfl

end LoopState

namespace ParseCall

/-- The input begins with the terminator of the loop. -/
def EndsList (termLen : Nat) (loopTerminator input : Octets) : Prop :=
  termLen ≤ input.length ∧ memcmpEqual input loopTerminator termLen = .ok true

/-- A case of a loop that reads static pieces and fields with distinct names.
-/
structure LoopCase (stages : List ParseStage) (n : Nat) (collection : String)
    (termLen : Nat) (loopTerminator : Octets)
    (elementStages : List ParseStage) : Prop where
  runs : atCase (stages.drop n) =
    some (.parseLoop collection termLen loopTerminator elementStages)
  reads : ∀ stage ∈ elementStages, stage.ReadsPiece
  distinct : (LoopState.fieldNames elementStages).Nodup

/-- Where a call stands that came to the loop as `first` and has not left it.
-/
structure InLoop (n : Nat) (collection : String) (termLen : Nat)
    (loopTerminator : Octets) (elementStages : List ParseStage)
    (first call : ParseCall) : Prop where
  stage : call.parser.stage = n
  notComplete : call.parser.complete = false
  input : call.input = first.input.drop
    (LoopState.keptSize elementStages (call.parser.loops collection) +
      LoopState.heldSize elementStages (call.parser.loops collection))
  consumed : call.totalConsumed = first.totalConsumed +
    (LoopState.keptSize elementStages (call.parser.loops collection) +
      LoopState.heldSize elementStages (call.parser.loops collection))
  notEnded : (call.parser.loops collection).elements ≠ [] →
    ¬ EndsList termLen loopTerminator (first.input.drop
      (LoopState.keptSize elementStages (call.parser.loops collection)))

/-- A turn that leaves the loop at its terminator. -/
structure LeavesLoop (n : Nat) (termLen : Nat) (loopTerminator : Octets)
    (call next : ParseCall) : Prop where
  ends : EndsList termLen loopTerminator call.input
  stage : next.parser.stage = n + 1
  loops : next.parser.loops = call.parser.loops
  consumed : next.totalConsumed = call.totalConsumed + termLen

/-- The call returns in the loop. -/
def ReturnsInLoop (n : Nat) (next : ParseCall) : Prop :=
  (∃ status, next.point = .returned status) ∧ next.parser.stage = n

/-- The parser comes to the loop at the `n`-th case, with nothing of it read.
-/
structure AtLoop (n : Nat) (collection : String) (parser : MessageParser) :
    Prop where
  stage : parser.stage = n
  notComplete : parser.complete = false
  fresh : parser.loops collection = {}

/-- The parser leaves the loop behind these bytes, and holds these elements, in
each the values in order. -/
def ReadsList (stages : List ParseStage) (n : Nat) (collection : String)
    (parser : MessageParser) (total : Nat) (bytes rest : Octets)
    (tuples : List (List Octets)) : Prop :=
  ∃ last next, Reaches (step stages) ⟨parser, bytes ++ rest, total, .dispatch⟩
      last ∧ last.parser.stage = n ∧ step stages last = .ok next ∧
    next.parser.stage = n + 1 ∧ next.input = rest ∧
    next.totalConsumed = total + bytes.length ∧
    (next.parser.loops collection).elements.map (·.map Prod.snd) = tuples

section Loop

variable {stages : List ParseStage} {n : Nat} {collection : String}
  {termLen : Nat} {loopTerminator : Octets} {elementStages : List ParseStage}
  {first call next : ParseCall}

/-- Without empty cases the case that runs is the next one. -/
theorem drop_of_atCase {stage : ParseStage} {k : Nat}
    (hreads : ∀ stage ∈ elementStages, stage.ReadsPiece)
    (h : atCase (elementStages.drop k) = some stage) :
    ∃ rest, elementStages.drop k = stage :: rest := by
  cases hdrop : elementStages.drop k with
  | nil =>
      rw [hdrop] at h
      cases h
  | cons other rest =>
      have hother := hreads other (List.mem_of_mem_drop
        (hdrop ▸ List.mem_cons_self))
      rw [hdrop] at h
      cases other with
      | matchStaticOctets _ _ | readUntilTerminator _ _ _ _ =>
          obtain rfl := Option.some.inj h
          exact ⟨rest, rfl⟩
      | parseLoop _ _ _ _ | noCode => exact hother.elim

theorem drop_of_atCase_none {k : Nat}
    (hreads : ∀ stage ∈ elementStages, stage.ReadsPiece)
    (h : atCase (elementStages.drop k) = none) :
    elementStages.drop k = [] := by
  cases hdrop : elementStages.drop k with
  | nil => rfl
  | cons other rest =>
      have hother := hreads other (List.mem_of_mem_drop
        (hdrop ▸ List.mem_cons_self))
      rw [hdrop] at h
      cases other with
      | matchStaticOctets _ _ | readUntilTerminator _ _ _ _ => cases h
      | parseLoop _ _ _ _ | noCode => exact hother.elim

variable (hcase : LoopCase stages n collection termLen loopTerminator
    elementStages)
  (h : InLoop n collection termLen loopTerminator elementStages first call)

include h

theorem InLoop.goto (point : ParsePoint) :
    InLoop n collection termLen loopTerminator elementStages first
      (call.goto point) :=
  ⟨h.stage, h.notComplete, h.input, h.consumed, h.notEnded⟩

/-- Bytes of the element that is being read are taken. -/
theorem InLoop.take (count : Nat)
    (hstage : next.parser.stage = call.parser.stage)
    (hcomplete : next.parser.complete = call.parser.complete)
    (hinput : next.input = call.input.drop count)
    (hconsumed : next.totalConsumed = call.totalConsumed + count)
    (helements : (next.parser.loops collection).elements =
      (call.parser.loops collection).elements)
    (hheld : LoopState.heldSize elementStages (next.parser.loops collection) =
      LoopState.heldSize elementStages (call.parser.loops collection) +
        count) :
    InLoop n collection termLen loopTerminator elementStages first next := by
  have hkept : LoopState.keptSize elementStages
      (next.parser.loops collection) =
      LoopState.keptSize elementStages (call.parser.loops collection) := by
    rw [LoopState.keptSize, helements]
    rfl
  refine ⟨hstage.trans h.stage, hcomplete.trans h.notComplete, ?_, ?_, ?_⟩
  · rw [hkept, hheld, hinput, h.input, List.drop_drop, Nat.add_assoc]
  · rw [hkept, hheld, hconsumed, h.consumed]
    omega
  · rw [hkept, helements]
    exact h.notEnded

/-- An element is kept only where the terminator of the loop is not next. -/
theorem InLoop.push
    (hdone : elementStages.drop (call.parser.loops collection).stage = [])
    (hgoes : ¬ EndsList termLen loopTerminator call.input) :
    InLoop n collection termLen loopTerminator elementStages first
      (call.modify fun parser =>
        parser.updateLoop collection (·.pushElement elementStages)) := by
  have hkept := LoopState.keptSize_pushElement hdone
  have hheld : LoopState.heldSize elementStages ((call.parser.loops
      collection).pushElement elementStages) = 0 :=
    LoopState.heldSize_pushElement
  have hloop : (call.modify fun parser => parser.updateLoop collection
      (·.pushElement elementStages)).parser.loops collection =
        (call.parser.loops collection).pushElement elementStages :=
    MessageParser.loops_updateLoop call.parser collection fun loop =>
      loop.pushElement elementStages
  refine ⟨h.stage, h.notComplete, ?_, ?_, ?_⟩
  · rw [hloop, hheld, hkept]
    exact h.input
  · rw [hloop, hheld, hkept]
    exact h.consumed
  · intro _
    rw [hloop, hkept, ← h.input]
    exact hgoes

omit h in
theorem name_mem_of_drop {k : Nat} {name : String} {size : Nat}
    {terminator : Octets} {escape : Option EscapeConstants}
    {rest : List ParseStage} (hdrop : elementStages.drop k =
      .readUntilTerminator name size terminator escape :: rest) :
    name ∈ LoopState.fieldNames elementStages := by
  refine LoopState.fieldNames_drop_subset elementStages (Nat.zero_le k) ?_
  rw [hdrop]
  exact List.mem_cons_self

include hcase

/-- A turn of the inner switch. -/
theorem InLoop.dispatchElement
    (hgoes : ¬ EndsList termLen loopTerminator call.input)
    (hstep : call.dispatchElement collection elementStages = .ok next) :
    InLoop n collection termLen loopTerminator elementStages first next ∨
      ReturnsInLoop n next := by
  rw [ParseCall.dispatchElement] at hstep
  cases hcurrent : atCase (elementStages.drop
      (call.parser.loops collection).stage) with
  | none =>
      rw [hcurrent] at hstep
      obtain rfl := Except.ok.inj hstep
      exact Or.inl (h.push (drop_of_atCase_none hcase.reads hcurrent) hgoes)
  | some stage =>
      obtain ⟨rest, hdrop⟩ := drop_of_atCase hcase.reads hcurrent
      rw [hcurrent] at hstep
      cases stage with
      | matchStaticOctets len expected =>
          simp only [matchStatic] at hstep
          split at hstep
          · obtain rfl := Except.ok.inj hstep
            exact Or.inr ⟨⟨_, rfl⟩, h.stage⟩
          · obtain ⟨equal, _, rfl⟩ := map_eq_ok hstep
            cases equal with
            | true =>
                rw [if_pos rfl]
                have hloop : (((call.consume len).modify fun parser =>
                    parser.updateLoop collection
                      LoopState.nextStage).parser.loops collection) =
                    (call.parser.loops collection).nextStage :=
                  MessageParser.loops_updateLoop call.parser collection
                    LoopState.nextStage
                have helements := congrArg LoopState.elements hloop
                refine Or.inl (h.take len rfl rfl rfl rfl helements ?_)
                exact (congrArg (LoopState.heldSize elementStages)
                  hloop).trans (LoopState.heldSize_nextStage hdrop)
            | false => exact Or.inr ⟨⟨_, rfl⟩, h.stage⟩
      | readUntilTerminator name size terminator escape =>
          obtain rfl := Except.ok.inj hstep
          exact Or.inl (h.goto _)
      | parseLoop _ _ _ _ | noCode =>
          have hpiece := hcase.reads _ (List.mem_of_mem_drop
            (hdrop ▸ List.mem_cons_self))
          exact hpiece.elim

/-- A turn of the outer switch goes on with an element, unless the terminator
is next. -/
theorem InLoop.dispatch (hpoint : call.point = .dispatch)
    (hstep : ParseCall.step stages call = .ok next) :
    InLoop n collection termLen loopTerminator elementStages first next ∨
      ReturnsInLoop n next ∨
        LeavesLoop n termLen loopTerminator call next := by
  have hruns := hcase.runs
  rw [← h.stage] at hruns
  rw [step_loop call hpoint h.notComplete hruns, dispatchLoop] at hstep
  have helement : ¬ EndsList termLen loopTerminator call.input →
      (if call.input = [] then .ok (call.finish .needMoreData)
        else call.dispatchElement collection elementStages) = .ok next →
      InLoop n collection termLen loopTerminator elementStages first next ∨
        ReturnsInLoop n next := by
    intro hgoes hturn
    split at hturn
    · obtain rfl := Except.ok.inj hturn
      exact Or.inr ⟨⟨_, rfl⟩, h.stage⟩
    · exact h.dispatchElement hcase hgoes hturn
  split at hstep
  · rename_i hroom
    cases hequal : memcmpEqual call.input loopTerminator termLen with
    | error fault =>
        rw [hequal] at hstep
        cases hstep
    | ok equal =>
        rw [hequal] at hstep
        cases equal with
        | true =>
            obtain rfl := Except.ok.inj hstep
            exact Or.inr (Or.inr ⟨⟨hroom, hequal⟩,
              congrArg (· + 1) h.stage, rfl, rfl⟩)
        | false =>
            have hgoes : ¬ EndsList termLen loopTerminator call.input := by
              intro hends
              rw [hends.2] at hequal
              cases hequal
            exact (helement hgoes hstep).imp id Or.inl
  · rename_i hroom
    exact (helement (fun hends => hroom hends.1) hstep).imp id Or.inl

/-- A turn that searches the terminator of a field takes the field, or goes on
to the next position. -/
theorem InLoop.scanElement {pos : Nat}
    (hpoint : call.point = .scanningElement pos)
    (hstep : ParseCall.step stages call = .ok next) :
    InLoop n collection termLen loopTerminator elementStages first next ∨
      ReturnsInLoop n next := by
  have hruns := hcase.runs
  rw [← h.stage] at hruns
  rw [ParseCall.step, hpoint] at hstep
  simp only [ParseCall.scanElement, hruns] at hstep
  cases hcurrent : atCase (elementStages.drop
      (call.parser.loops collection).stage) with
  | none =>
      rw [hcurrent] at hstep
      cases hstep
  | some stage =>
      obtain ⟨rest, hdrop⟩ := drop_of_atCase hcase.reads hcurrent
      rw [hcurrent] at hstep
      cases stage with
      | readUntilTerminator name size terminator escape =>
          simp only [scanTerminator] at hstep
          split at hstep
          · rename_i hroom
            obtain ⟨equal, _, rfl⟩ := map_eq_ok hstep
            cases equal with
            | true =>
                rw [if_pos rfl]
                let taken := (call.parser.loops collection).appendTo name
                  (call.input.take pos)
                have hloop : ((((call.modify fun parser =>
                    parser.updateLoop collection
                      (·.appendTo name (call.input.take pos))).consume
                        (pos + size)).modify fun parser =>
                          parser.updateLoop collection
                            LoopState.nextStage).parser.loops collection) =
                    taken.nextStage := by
                  rw [modify, MessageParser.loops_updateLoop]
                  exact congrArg LoopState.nextStage
                    (MessageParser.loops_updateLoop call.parser collection
                      fun loop => loop.appendTo name (call.input.take pos))
                have hlength : (call.input.take pos).length = pos :=
                  List.length_take_of_le (by omega)
                have hheld : LoopState.heldSize elementStages
                    taken.nextStage = LoopState.heldSize elementStages
                      (call.parser.loops collection) + (pos + size) := by
                  have htaken : elementStages.drop taken.stage = _ := hdrop
                  rw [LoopState.heldSize_nextStage htaken,
                    LoopState.heldSize_appendTo hcase.distinct
                      (name_mem_of_drop hdrop), hlength, Nat.add_assoc]
                  rfl
                have helements := congrArg LoopState.elements hloop
                exact Or.inl (h.take (pos + size) rfl rfl rfl rfl helements
                  ((congrArg (LoopState.heldSize elementStages) hloop).trans
                    hheld))
            | false => exact Or.inl (h.goto _)
          · obtain rfl := Except.ok.inj hstep
            exact Or.inr ⟨⟨_, rfl⟩, h.stage⟩
      | matchStaticOctets _ _ => cases hstep
      | parseLoop _ _ _ _ | noCode => cases hstep

/-- One turn stays in the loop, returns, or leaves the loop at its terminator.
-/
theorem InLoop.step (hstep : ParseCall.step stages call = .ok next) :
    InLoop n collection termLen loopTerminator elementStages first next ∨
      ReturnsInLoop n next ∨
        LeavesLoop n termLen loopTerminator call next := by
  have hruns := hcase.runs
  rw [← h.stage] at hruns
  cases hpoint : call.point with
  | dispatch => exact h.dispatch hcase hpoint hstep
  | scanning pos =>
      rw [ParseCall.step, hpoint] at hstep
      simp only [scan, hruns] at hstep
      cases hstep
  | scanningElement pos =>
      exact (h.scanElement hcase hpoint hstep).imp id Or.inl
  | returned status =>
      rw [ParseCall.step, hpoint] at hstep
      obtain rfl := Except.ok.inj hstep
      exact Or.inr (Or.inl ⟨⟨status, hpoint⟩, h.stage⟩)

/-- A run that comes to the loop is in it, has returned from it, or is behind
it. -/
theorem InLoop.reaches (hreach : Reaches (ParseCall.step stages) call next) :
    InLoop n collection termLen loopTerminator elementStages first next ∨
      ReturnsInLoop n next ∨ n < next.parser.stage := by
  induction hreach with
  | refl => exact Or.inl h
  | tail _ hstep ih =>
      rcases ih with hloop | ⟨⟨status, hreturned⟩, hstage⟩ | hbehind
      · rcases hloop.step hcase hstep with hloop | hreturns | hleaves
        · exact Or.inl hloop
        · exact Or.inr (Or.inl hreturns)
        · have hstage := hleaves.stage
          exact Or.inr (Or.inr (by omega))
      · rw [step_returned hreturned] at hstep
        obtain rfl := Except.ok.inj hstep
        exact Or.inr (Or.inl ⟨⟨status, hreturned⟩, hstage⟩)
      · exact Or.inr (Or.inr (hbehind.trans_le (step_grows hstep).stage))

omit h in
/-- A list that is read back from as many bytes as its values and literals have
is empty. -/
theorem eq_nil_of_readsList {parser : MessageParser}
    (hat : AtLoop n collection parser) {total : Nat} {bytes rest : Octets}
    {tuples : List (List Octets)}
    (hsize : bytes.length ≤ (tuples.map fun tuple =>
      LoopState.literalsSize elementStages +
        (tuple.map List.length).sum).sum + termLen)
    (hreads : ReadsList stages n collection parser total bytes rest tuples) :
    tuples = [] := by
  obtain ⟨last, next, hreach, hlast, hstep, hnext, _, hconsumed, rfl⟩ := hreads
  let first : ParseCall := ⟨parser, bytes ++ rest, total, .dispatch⟩
  have hempty : LoopState.keptSize elementStages (parser.loops collection) +
      LoopState.heldSize elementStages (parser.loops collection) = 0 := by
    rw [hat.fresh]
    simp [LoopState.keptSize, LoopState.heldSize, LoopState.literalsSize,
      LoopState.bufferSize]
  have hfirst : InLoop n collection termLen loopTerminator elementStages first
      first := by
    refine ⟨hat.stage, hat.notComplete, ?_, ?_, ?_⟩
    · rw [hempty]
      rfl
    · rw [hempty]
      rfl
    · intro hne
      simp [first, hat.fresh] at hne
  rcases hfirst.reaches hcase hreach with hloop | ⟨⟨status, hreturned⟩, _⟩ |
    hbehind
  · rcases hloop.step hcase hstep with hloop | ⟨_, hstage⟩ | hleaves
    · exact absurd (hloop.stage.symm.trans hnext) (by omega)
    · exact absurd (hstage.symm.trans hnext) (by omega)
    · have hkept : LoopState.keptSize elementStages
          (last.parser.loops collection) =
          (((next.parser.loops collection).elements.map
            (·.map Prod.snd)).map fun tuple =>
              LoopState.literalsSize elementStages +
                (tuple.map List.length).sum).sum := by
        rw [hleaves.loops, LoopState.keptSize, List.map_map]
        refine congrArg List.sum (List.map_congr_left fun element _ => ?_)
        rw [LoopState.elementSize, Function.comp_apply, List.map_map]
        rfl
      have hheld : LoopState.heldSize elementStages
          (last.parser.loops collection) = 0 := by
        have hleft := hleaves.consumed
        have hbehind := hloop.consumed
        have htotal : first.totalConsumed = total := rfl
        omega
      have hinput := hloop.input
      rw [hheld, Nat.add_zero] at hinput
      by_contra hne
      refine hloop.notEnded ?_ (hinput ▸ hleaves.ends)
      intro hnil
      rw [hleaves.loops, hnil] at hne
      exact hne rfl
  · rw [step_returned hreturned] at hstep
    obtain rfl := Except.ok.inj hstep
    exact absurd (hlast.symm.trans hnext) (by omega)
  · exact absurd hlast (by omega)

end Loop

end ParseCall

namespace GenerateParser

variable {loopVariable : String} {elementType : DataType}
  {reads : List Action} {elementStages : List ParseStage}

/-- The cases for the pieces of an element. -/
theorem elementStage_cases {action : Action} {stage : ParseStage}
    (htuple : action.TupleField loopVariable elementType)
    (h : elementStage action = some stage) :
    (∃ octets array, action = .readStaticOctets octets ∧
      stage = .matchStaticOctets octets.length array) ∨
    ∃ terminator identifier escape array,
      action = .readOctetsUntilTerminator terminator identifier escape ∧
        stage = .readUntilTerminator identifier.name terminator.length array
          none := by
  cases action with
  | readStaticOctets octets =>
      obtain ⟨array, _, h⟩ := Option.bind_eq_some_iff.mp h
      exact Or.inl ⟨octets, array, rfl, (Option.some.inj h).symm⟩
  | readOctetsUntilTerminator terminator identifier escape =>
      obtain ⟨array, _, h⟩ := Option.bind_eq_some_iff.mp h
      exact Or.inr ⟨terminator, identifier, escape, array, rfl,
        (Option.some.inj h).symm⟩
  | writeFromIdentifier _ _ | writeStaticOctets _ | loop _ _ _ _ =>
      exact htuple.elim

section Element

variable
  (htuple : ∀ action ∈ reads, action.TupleField loopVariable elementType)
  (hstages : List.Forall₂ (fun action stage => elementStage action = some stage)
    reads elementStages)

include htuple hstages

theorem readsPiece_of_elementStages :
    ∀ stage ∈ elementStages, stage.ReadsPiece := by
  intro stage hstage
  obtain ⟨action, haction, h⟩ := MapM.exists_of_mem
    (MapM.eq_some_of_forall₂ hstages) hstage
  rcases elementStage_cases (htuple action haction) h with
    ⟨octets, array, _, rfl⟩ | ⟨terminator, identifier, escape, array, _, rfl⟩
  · trivial
  · trivial

theorem fieldNames_elementStages : LoopState.fieldNames elementStages =
    (wireFields reads).map IdentifierReference.name := by
  induction hstages with
  | nil => rfl
  | @cons action stage reads elementStages h _ ih =>
      rw [List.forall_mem_cons] at htuple
      rcases elementStage_cases htuple.1 h with
        ⟨octets, array, rfl, rfl⟩ |
        ⟨terminator, identifier, escape, array, rfl, rfl⟩
      · exact ih htuple.2
      · exact congrArg (identifier.name :: ·) (ih htuple.2)

/-- The encoding has the bytes of the literals and of the values. -/
theorem length_encoding_elementStages
    (values : IdentifierReference → Octets) :
    (encoding values reads).length = LoopState.literalsSize elementStages +
      (((wireFields reads).map values).map List.length).sum := by
  induction hstages with
  | nil => rfl
  | @cons action stage reads elementStages h _ ih =>
      rw [List.forall_mem_cons] at htuple
      have hrest := ih htuple.2
      rcases elementStage_cases htuple.1 h with
        ⟨octets, array, rfl, rfl⟩ |
        ⟨terminator, identifier, escape, array, rfl, rfl⟩
      · simp only [encoding, wireFields, LoopState.literalsSize, List.map_cons,
          List.sum_cons, List.length_append, ParseStage.literalSize]
          at hrest ⊢
        omega
      · simp only [encoding, wireFields, LoopState.literalsSize, List.map_cons,
          List.sum_cons, List.length_append, ParseStage.literalSize]
          at hrest ⊢
        omega

theorem length_encodings (tuples : List (IdentifierReference → Octets)) :
    (encodings reads tuples).length =
      ((tuples.map fun values => (wireFields reads).map values).map
        fun tuple => LoopState.literalsSize elementStages +
          (tuple.map List.length).sum).sum := by
  induction tuples with
  | nil => rfl
  | cons values tuples ih =>
      rw [encodings_cons, List.length_append, ih,
        length_encoding_elementStages htuple hstages]
      rfl

end Element

theorem joinedElementNames_eq (collection : String) (reads : List Action) :
    joinedElementNames collection reads =
      ((wireFields reads).map IdentifierReference.name).map
        (joined collection) := by
  induction reads with
  | nil => rfl
  | cons action reads ih =>
      cases action with
      | readOctetsUntilTerminator terminator identifier escape =>
          exact congrArg (joined collection identifier.name :: ·) ih
      | _ => exact ih

theorem joinedNames_append (before after : List Action) :
    joinedNames (before ++ after) =
      joinedNames before ++ joinedNames after := by
  induction before with
  | nil => rfl
  | cons action before ih =>
      cases action with
      | loop element collection terminator elements =>
          rw [List.cons_append, joinedNames, joinedNames, ih,
            List.append_assoc]
      | _ => exact ih

/-- Where no member is declared twice the fields of a loop have distinct names.
-/
theorem distinct_of_memberNames {before after : List Action}
    {element collection : IdentifierReference} {terminator : Octets}
    (h : (memberNames (before ++ .loop element collection terminator reads ::
      after)).Nodup) :
    ((wireFields reads).map IdentifierReference.name).Nodup := by
  have hjoined := ((memberNames_nodup_iff _).mp h).joined
  rw [joinedNames_append, joinedNames, joinedElementNames_eq] at hjoined
  exact (List.nodup_append.mp (List.nodup_append.mp hjoined).2.1).1.of_map _

/-- The case of a loop among the cases of a message. -/
theorem loopCase_of_messageParser {before after : List Action}
    {element collection : IdentifierReference} {terminator : Octets}
    (htuple : ∀ action ∈ reads, action.TupleField loopVariable elementType)
    {stages : List ParseStage}
    (hstages : messageParser (before ++
      .loop element collection terminator reads :: after) = some stages)
    (hmembers : (memberNames (before ++
      .loop element collection terminator reads :: after)).Nodup) :
    ∃ array elementStages, reads.mapM elementStage = some elementStages ∧
      ParseCall.LoopCase stages before.length collection.name terminator.length
        array elementStages := by
  obtain ⟨stagesBefore, stage, stagesAfter, hbefore, hstage, _, rfl⟩ :=
    MapM.append_cons hstages
  obtain ⟨array, _, hstage⟩ := Option.bind_eq_some_iff.mp hstage
  obtain ⟨elementStages, helements, hstage⟩ :=
    Option.bind_eq_some_iff.mp hstage
  obtain rfl := Option.some.inj hstage
  have hall := MapM.forall₂_of_eq_some helements
  have hlength := (MapM.forall₂_of_eq_some hbefore).length_eq
  refine ⟨array, elementStages, helements, ?_,
    readsPiece_of_elementStages htuple hall, ?_⟩
  · exact ParseCall.atCase_drop stagesBefore stagesAfter
      ParseStage.noConfusion hlength
  · rw [fieldNames_elementStages htuple hall]
    exact distinct_of_memberNames hmembers

end GenerateParser

open GenerateParser

/-- The emitted parser of a message, where it compiles, leaves the loop behind
these bytes and holds these elements. -/
def ParserReadsList (actions : List Action) (n : Nat) (collection : String)
    (parser : MessageParser) (total : Nat) (bytes rest : Octets)
    (tuples : List (List Octets)) : Prop :=
  (memberNames actions).Nodup ∧ ∃ stages, messageParser actions = some stages ∧
    ParseCall.ReadsList stages n collection parser total bytes rest tuples

/-- A list that is read back from what stands for its elements is empty. -/
theorem eq_nil_of_parserReadsList {reads before after : List Action}
    {loopVariable collection : IdentifierReference} {terminator : Octets}
    {elementType : DataType}
    (htuple : ∀ action ∈ reads,
      action.TupleField loopVariable.name elementType)
    {parser : MessageParser}
    (hat : ParseCall.AtLoop before.length collection.name parser)
    {tuples : List (IdentifierReference → Octets)} {total : Nat}
    {rest : Octets}
    (hlist : ParserReadsList
      (before ++ .loop loopVariable collection terminator reads :: after)
      before.length collection.name parser total
      (encodings reads tuples ++ terminator) rest
      (tuples.map fun values => (wireFields reads).map values)) :
    tuples = [] := by
  obtain ⟨hmembers, stages, hstages, hlist⟩ := hlist
  obtain ⟨array, elementStages, helements, hcase⟩ :=
    loopCase_of_messageParser htuple hstages hmembers
  have hsize : (encodings reads tuples ++ terminator).length ≤
      ((tuples.map fun values => (wireFields reads).map values).map
        fun tuple => LoopState.literalsSize elementStages +
          (tuple.map List.length).sum).sum + terminator.length := by
    rw [List.length_append, length_encodings htuple
      (MapM.forall₂_of_eq_some helements)]
  exact List.map_eq_nil_iff.mp
    (ParseCall.eq_nil_of_readsList hcase hat hsize hlist)

/-- What the write loop emits for the tuples is read by the emitted parser as
the same tuples, whatever follows. -/
def LoopReadBack (writeTree : OpTreeNode) (writer : World)
    (actions : List Action) (n : Nat) (collection : String)
    (parser : MessageParser) (total : Nat) (rest : Octets)
    (tuples : List (List Octets)) : Prop :=
  ∀ result w, writeTree.RunsTo false { writer with output := [] } result w →
    ParserReadsList actions n collection parser total w.output.flatten rest
      tuples

/-- The emitted parser recovers no list but the empty one, for which nothing is
emitted. -/
theorem messageForLoop_readBack {block : MessageSequence}
    {reads writes before after : List Action}
    (hreads : PartsToReadActions.partsToReadActions block = some reads)
    (hwrites : PartsToWriteActions.partsToWriteActions block = some writes)
    {getType : ExtractTypeClosure}
    {loopVariable collection : IdentifierReference} {terminator : Octets}
    {arrayType elementType : DataType}
    (harray : getType collection.name = some arrayType)
    (helement : arrayType.parameters.lookup "element_type" =
      some (.type elementType))
    (htuple : ∀ action ∈ reads,
      action.TupleField loopVariable.name elementType)
    {writeTree : OpTreeNode}
    (hwriteTree : visitAction .write getType
      (.loop loopVariable collection terminator writes) = .ok writeTree)
    {tuples : List (IdentifierReference → Octets)} {elements : List Value}
    (hholds : List.Forall₂ (HoldsTuple reads) tuples elements)
    (writer : World)
    (hwriter : writer.pad.get collection.name = .dynamicList elements)
    {parser : MessageParser}
    (hat : ParseCall.AtLoop before.length collection.name parser)
    (total : Nat) (rest : Octets) :
    let readBack := LoopReadBack writeTree writer
      (before ++ .loop loopVariable collection terminator reads :: after)
      before.length collection.name parser total rest
      (tuples.map fun values => (wireFields reads).map values)
    (tuples = [] → readBack) ∧
      (readBack → tuples = [] ∨ ∃ values ∈ tuples, ¬ Unescaped values reads) := by
  obtain rfl := partsToWriteActions_eq_duals hreads hwrites
  obtain ⟨wrapper, hwrapper, hwriteTree⟩ := bind_eq_ok hwriteTree
  obtain ⟨writeOperations, hwriteOperations, hwriteTree⟩ :=
    bind_eq_ok hwriteTree
  obtain rfl := Except.ok.inj hwriteTree
  have hget := createGetTypeWrapper_loopVariable hwrapper harray helement
  intro readBack
  constructor
  · rintro rfl result w hwrite
    cases hholds
    exact absurd hwrite (writeLoop_not_runsTo terminator hwriter)
  · intro hback
    by_contra! hcontra
    obtain ⟨hne, hplain⟩ := hcontra
    obtain ⟨result, w, hwrite, hflatten⟩ := writeLoop_runsTo terminator htuple
      hget hwriteOperations hne hplain hholds hwriter
    have hlist := hback result w hwrite
    rw [hflatten] at hlist
    exact hne (eq_nil_of_parserReadsList htuple hat hlist)

/-- The body of `for word in words`: the word and a line feed. -/
def wordBlock : MessageSequence :=
  [.tokenSequence { tokens := [.identifierReference
      (.mk "word" (some (.mk "word" none)))] },
    .terminator [10]]

/-- `array<element_type=tuple<word=str>>`. -/
def wordsType : DataType :=
  .mk (.mk "array" none) [("element_type", .type wordType)]
where
  wordType : DataType :=
    .mk (.mk "tuple" none) [("word", .type (.mk (.mk "str" none) []))]

def wordReads : List Action :=
  [.readOctetsUntilTerminator [10] (.mk "word" (some (.mk "word" none))) none]

def wordWrites : List Action :=
  [.writeFromIdentifier (.mk "word" (some (.mk "word" none))) none,
    .writeStaticOctets [10]]

theorem wordBlock_reads :
    PartsToReadActions.partsToReadActions wordBlock = some wordReads := by
  simp [PartsToReadActions.partsToReadActions, wordBlock,
    PartsToReadActions.tokenSequence, wordReads,
    PartsToReadActions.individualTokenActions, Action.applyEscape]

theorem wordBlock_writes :
    PartsToWriteActions.partsToWriteActions wordBlock = some wordWrites := by
  simp [PartsToWriteActions.partsToWriteActions, wordBlock,
    PartsToWriteActions.tokenSequence, TokenSequence.embeddedTerminator,
    wordWrites, PartsToWriteActions.individualTokenAction, Action.applyEscape]

theorem wordReads_tupleField : ∀ action ∈ wordReads,
    action.TupleField (IdentifierReference.mk "word" none).name
      wordsType.wordType := by
  intro action haction
  rw [List.mem_singleton.mp haction]
  exact ⟨"word", _, rfl, rfl, rfl⟩

def wordWriteOperations : List OpTreeNode :=
  [.mk (.inputOutput .writeOctets)
      [.mk (.interpreted (.dictionaryGet "word")) [lexicalPadGet "word"]],
    .mk (.inputOutput (.writeStaticOctets [10])) []]

/-- The type of a name inside the loop. -/
def wordGetType : ExtractTypeClosure := fun name =>
  if name = "word" then some wordsType.wordType
  else extractType [("words", wordsType)] name

theorem wordWrites_operations :
    actionsToOptreenodes .write wordGetType wordWrites =
      .ok wordWriteOperations := by
  have haccess : recursiveVariableAccess wordsType.wordType (.mk "word" none)
      (lexicalPadGet "word") none =
        .ok (.mk (.interpreted (.dictionaryGet "word"))
          [lexicalPadGet "word"], .mk (.mk "str" none) []) := by
    rw [recursiveVariableAccess.eq_def]
    rfl
  have hwrite : visitWriteFromIdentifier wordGetType
      (.mk "word" (some (.mk "word" none))) none =
        .ok (.mk (.inputOutput .writeOctets)
          [.mk (.interpreted (.dictionaryGet "word"))
            [lexicalPadGet "word"]]) := by
    change (recursiveVariableAccess wordsType.wordType (.mk "word" none)
      (lexicalPadGet "word") none >>= fun access =>
        writeOctetsFromValue access.2 access.1 none) = _
    rw [haccess]
    rfl
  rw [wordWrites, actionsToOptreenodes, visitAction, hwrite]
  rfl

def wordLoopWrite : OpTreeNode :=
  writeLoop "word" "words" [10] wordWriteOperations

theorem wordLoop_write :
    visitAction .write (extractType [("words", wordsType)])
      (.loop (.mk "word" none) (.mk "words" none) [10] wordWrites) =
        .ok wordLoopWrite := by
  rw [visitAction]
  change (actionsToOptreenodes .write wordGetType wordWrites >>=
    fun operations => pure (writeLoop "word" "words" [10] operations)) = _
  rw [wordWrites_operations]
  rfl

/-- A writer that holds the words. -/
def wordWriter (words : List Octets) : World :=
  ⟨.root [("words", .dynamicList (words.map fun word =>
    .dictionary [("word", .octets word)]))], 0, [], []⟩

/-- One word that says `a`. -/
theorem word_conditions :
    (∀ values ∈ [fun _ => ([97] : Octets)], Terminated values wordReads) ∧
      NoEarlyTerminator [10] wordReads [fun _ => [97]] ∧
      List.Forall₂ (HoldsTuple wordReads) [fun _ => [97]]
        [.dictionary [("word", .octets [97])]] := by
  refine ⟨?_, ?_, .cons ?_ .nil⟩
  · intro values hvalues terminator identifier escape haction
    obtain rfl := List.mem_singleton.mp hvalues
    obtain ⟨rfl, rfl, _⟩ := Action.readOctetsUntilTerminator.inj
      (List.mem_singleton.mp haction)
    decide
  · intro values rest hsuffix
    have hlength := hsuffix.length_le
    obtain rfl : rest = [] := List.length_eq_zero_iff.mp (by simpa using hlength)
    obtain rfl : values = fun _ => [97] := by
      simpa using hsuffix.eq_of_length rfl
    decide
  · intro identifier hidentifier member hmember
    obtain rfl := List.mem_singleton.mp hidentifier
    obtain rfl := Option.some.inj hmember
    rfl

theorem messageForLoop_readBack_word :
    let readBack := LoopReadBack wordLoopWrite (wordWriter [[97]])
      [.loop (.mk "word" none) (.mk "words" none) [10] wordReads] 0 "words" {} 0
      [72] [[[97]]]
    ([fun _ => [97]] = ([] : List (IdentifierReference → Octets)) →
        readBack) ∧
      (readBack → [fun _ => [97]] = ([] : List (IdentifierReference → Octets)) ∨
        ∃ values ∈ [fun _ => [97]], ¬ Unescaped values wordReads) :=
  @messageForLoop_readBack wordBlock wordReads wordWrites [] []
    wordBlock_reads wordBlock_writes _ (.mk "word" none) (.mk "words" none)
    [10] _ _ rfl rfl wordReads_tupleField _ wordLoop_write _ _
    word_conditions.2.2 (wordWriter [[97]]) rfl _ ⟨rfl, rfl, rfl⟩ 0 [72]

/-- The word `a` is written as `a`, a line feed and the line feed that ends the
list; the emitted parser does not hold it behind them. -/
theorem word_is_dropped :
    visitAction .write (extractType [("words", wordsType)])
        (.loop (.mk "word" none) (.mk "words" none) [10] wordWrites) =
          .ok wordLoopWrite ∧
      (memberNames [.loop (.mk "word" none) (.mk "words" none) [10]
        wordReads]).Nodup ∧
      (messageParser [.loop (.mk "word" none) (.mk "words" none) [10]
        wordReads]).isSome ∧
      (∀ values ∈ [fun _ => ([97] : Octets)], Terminated values wordReads) ∧
      NoEarlyTerminator [10] wordReads [fun _ => [97]] ∧
      ¬ LoopReadBack wordLoopWrite (wordWriter [[97]])
        [.loop (.mk "word" none) (.mk "words" none) [10] wordReads] 0 "words"
        .reset 0 [72] [[[97]]] := by
  refine ⟨wordLoop_write, by decide, by decide, word_conditions.1,
    word_conditions.2.1, fun hback => ?_⟩
  have hwrites : actionsToOptreenodes .write wordGetType (duals wordReads) =
      .ok wordWriteOperations := by
    rw [← partsToWriteActions_eq_duals wordBlock_reads wordBlock_writes]
    exact wordWrites_operations
  have hplain : ∀ values ∈ [fun _ => ([97] : Octets)],
      Unescaped values wordReads := by
    intro values _ terminator identifier escape haction
    cases List.mem_singleton.mp haction
  obtain ⟨result, w, hwrite, hflatten⟩ := @writeLoop_runsTo wordGetType "word"
    "words" wordReads wordWriteOperations (wordWriter [[97]]) [10]
    wordsType.wordType wordReads_tupleField rfl hwrites _
    (List.cons_ne_nil _ _) hplain _ word_conditions.2.2 rfl
  have hlist := hback result w hwrite
  rw [hflatten] at hlist
  exact List.cons_ne_nil _ _ (@eq_nil_of_parserReadsList wordReads [] []
    (.mk "word" none) (.mk "words" none) [10] wordsType.wordType
    wordReads_tupleField .reset ⟨rfl, rfl, rfl⟩ [fun _ => [97]] 0 [72] hlist)

end NetworkProtocolDsl
