/-
The cuts that the parser of a message of plain fields does not survive.

Without escape options and loops the stream alone says where the fields end.
The terminators that the one call on the whole stream finds are those, and a
call that ends inside of one has taken its first bytes into the field.
-/
import NetworkProtocolDsl.ParserFragmentation

namespace NetworkProtocolDsl

open Run GenerateParser
open NetworkProtocolDsl.Action

namespace Action

/-- A static piece, or a field without escape option. -/
def IsPlainRead : Action → Prop
  | .readStaticOctets _ => True
  | .readOctetsUntilTerminator _ _ escape => escape = none
  | _ => False

end Action

namespace ParseStage

/-- The code of a static piece, or of a field without escape option. -/
def IsPlain : ParseStage → Prop
  | .matchStaticOctets _ _ => True
  | .readUntilTerminator _ _ _ escape => escape = none
  | _ => False

end ParseStage

/-- Where the terminators of the fields stand in the stream from the offset on,
and how long they are. -/
def fieldEnds : List ParseStage → Nat → Octets → List (Nat × Nat)
  | .matchStaticOctets len expected :: stages, offset, stream =>
      if len ≤ expected.length ∧ expected.take len <+: stream then
        fieldEnds stages (offset + len) (stream.drop len)
      else []
  | .readUntilTerminator _ termLen terminator _ :: stages, offset, stream =>
      if termLen ≤ terminator.length then
        match Occurrence.first (terminator.take termLen) stream with
        | some p => (offset + p, termLen) ::
            fieldEnds stages (offset + (p + termLen))
              (stream.drop (p + termLen))
        | none => []
      else []
  | _, _, _ => []

/-- No chunk ends strictly inside the terminator of a field. -/
def TerminatorsWhole (stages : List ParseStage) (chunks : List Octets) : Prop :=
  ∀ cut, ParseCall.CutAt chunks cut →
    ∀ terminator ∈ fieldEnds stages 0 chunks.flatten,
      terminator.1 < cut → terminator.1 + terminator.2 ≤ cut

section FieldEnds

variable {stages : List ParseStage} {offset : Nat} {stream : Octets}

theorem fieldEnds_static {len : Nat} {expected : Octets}
    (harray : len ≤ expected.length) (hhit : expected.take len <+: stream) :
    fieldEnds (.matchStaticOctets len expected :: stages) offset stream =
      fieldEnds stages (offset + len) (stream.drop len) := by
  rw [fieldEnds, if_pos ⟨harray, hhit⟩]

theorem fieldEnds_read {name : String} {termLen : Nat} {terminator : Octets}
    {escape : Option EscapeConstants} (harray : termLen ≤ terminator.length)
    {p : Nat}
    (hfirst : Occurrence.first (terminator.take termLen) stream = some p) :
    fieldEnds (.readUntilTerminator name termLen terminator escape :: stages)
        offset stream =
      (offset + p, termLen) :: fieldEnds stages (offset + (p + termLen))
        (stream.drop (p + termLen)) := by
  rw [fieldEnds, if_pos harray, hfirst]

/-- What is not the terminator is skipped. -/
theorem fieldEnds_skip {name : String} {termLen : Nat} {terminator : Octets}
    {escape : Option EscapeConstants} (harray : termLen ≤ terminator.length)
    {b : UInt8} (hmiss : ¬ terminator.take termLen <+: b :: stream) :
    fieldEnds (.readUntilTerminator name termLen terminator escape :: stages)
        offset (b :: stream) =
      fieldEnds (.readUntilTerminator name termLen terminator escape :: stages)
        (offset + 1) stream := by
  have hnext := Occurrence.first_cons_of_mismatch hmiss
  cases hfirst : Occurrence.first (terminator.take termLen) stream with
  | some p =>
      rw [hfirst, Option.map_some] at hnext
      have hdistance : p + 1 + termLen = p + termLen + 1 := by omega
      rw [fieldEnds_read harray hnext, fieldEnds_read harray hfirst,
        hdistance, List.drop_succ_cons]
      congr 2
      · omega
      · omega
  | none =>
      rw [hfirst] at hnext
      rw [fieldEnds, fieldEnds, if_pos harray, if_pos harray, hnext, hfirst]
      rfl

theorem le_of_mem_fieldEnds {terminator : Nat × Nat}
    (h : terminator ∈ fieldEnds stages offset stream) :
    offset ≤ terminator.1 := by
  induction stages generalizing offset stream with
  | nil => exact absurd h List.not_mem_nil
  | cons stage stages ih =>
      cases stage with
      | matchStaticOctets len expected =>
          rw [fieldEnds] at h
          split at h
          · exact (Nat.le_add_right offset len).trans (ih h)
          · exact absurd h List.not_mem_nil
      | readUntilTerminator name termLen array escape =>
          rw [fieldEnds] at h
          split at h
          · split at h
            · rename_i p _
              cases List.mem_cons.mp h with
              | inl h =>
                  rw [h]
                  exact Nat.le_add_right offset p
              | inr h =>
                  exact (Nat.le_add_right offset (p + termLen)).trans (ih h)
            · exact absurd h List.not_mem_nil
          · exact absurd h List.not_mem_nil
      | parseLoop _ _ _ _ | noCode => exact absurd h List.not_mem_nil

/-- More of the stream only adds to the terminators. -/
theorem fieldEnds_append_subset (more : Octets) :
    fieldEnds stages offset stream ⊆
      fieldEnds stages offset (stream ++ more) := by
  induction stages generalizing offset stream with
  | nil => exact fun _ h => h
  | cons stage stages ih =>
      cases stage with
      | matchStaticOctets len expected =>
          by_cases hhit : len ≤ expected.length ∧ expected.take len <+: stream
          · have hlength := hhit.2.length_le
            rw [List.length_take, Nat.min_eq_left hhit.1] at hlength
            rw [fieldEnds_static hhit.1 hhit.2, fieldEnds_static hhit.1
              (hhit.2.trans (List.prefix_append stream more)),
              List.drop_append_of_le_length hlength]
            exact ih
          · rw [fieldEnds, if_neg hhit]
            exact List.nil_subset _
      | readUntilTerminator name termLen array escape =>
          by_cases harray : termLen ≤ array.length
          · cases hfirst : Occurrence.first (array.take termLen) stream with
            | some p =>
                have hlength := Occurrence.length_le_of_first hfirst
                rw [List.length_take, Nat.min_eq_left harray] at hlength
                rw [fieldEnds_read harray hfirst, fieldEnds_read harray
                  (Occurrence.first_append hfirst more),
                  List.drop_append_of_le_length hlength]
                exact List.cons_subset_cons _ ih
            | none =>
                rw [fieldEnds, if_pos harray, hfirst]
                exact List.nil_subset _
          · rw [fieldEnds, if_neg harray]
            exact List.nil_subset _
      | parseLoop _ _ _ _ | noCode => exact List.nil_subset _

end FieldEnds

namespace ParseCall

/-- A case of plain code is the one that runs. -/
theorem atCase_of_plain {stages : List ParseStage} {n : Nat}
    (hplain : ∀ stage ∈ stages, stage.IsPlain) :
    stages.drop n = [] ∧ atCase (stages.drop n) = none ∨
      ∃ stage, stage.IsPlain ∧ stages.drop n = stage :: stages.drop (n + 1) ∧
        atCase (stages.drop n) = some stage := by
  cases hdrop : stages.drop n with
  | nil => exact Or.inl ⟨rfl, rfl⟩
  | cons stage rest =>
      have hstage : stage ∈ stages.drop n := by
        rw [hdrop]
        exact List.mem_cons_self
      have hplain := hplain stage (List.mem_of_mem_drop hstage)
      have hrest : stages.drop (n + 1) = rest := by
        rw [← List.drop_drop, hdrop, List.drop_succ_cons, List.drop_zero]
      refine Or.inr ⟨stage, hplain, by rw [hrest], ?_⟩
      cases stage with
      | matchStaticOctets _ _ | readUntilTerminator _ _ _ _ => rfl
      | parseLoop _ _ _ _ | noCode => exact hplain.elim

/-- The terminators the call has still to come to. -/
def comingEnds (stages : List ParseStage) (call : ParseCall) :
    List (Nat × Nat) :=
  match call.point with
  | .dispatch =>
      fieldEnds (stages.drop call.parser.stage) call.totalConsumed call.input
  | .scanning pos =>
      fieldEnds (stages.drop call.parser.stage) (call.totalConsumed + pos)
        (call.input.drop pos)
  | .scanningElement _ | .returned _ => []

theorem comingEnds_returned {stages : List ParseStage} {call : ParseCall}
    {status : ParseStatus} (h : call.point = .returned status) :
    comingEnds stages call = [] := by
  rw [comingEnds, h]

theorem memcmpEqual_ok {array data : Octets} {len : Nat} {equal : Bool}
    (h : memcmpEqual data array len = .ok equal) :
    len ≤ array.length ∧ equal = decide (array.take len <+: data) := by
  by_cases harray : array.length < len
  · rw [memcmpEqual, if_pos harray] at h
    contradiction
  · have harray := Nat.not_lt.mp harray
    rw [memcmpEqual_eq harray] at h
    exact ⟨harray, (Except.ok.inj h).symm⟩

section Turn

variable {stages : List ParseStage} {parser : MessageParser} {input : Octets}
  {total : Nat} {t : ParseCall}

theorem matchStatic_ends {len : Nat} {expected : Octets}
    (hdrop : stages.drop parser.stage =
      .matchStaticOctets len expected :: stages.drop (parser.stage + 1))
    (h : matchStatic ⟨parser, input, total, .dispatch⟩ len expected
      MessageParser.nextStage = .ok t) :
    comingEnds stages t ⊆
      comingEnds stages ⟨parser, input, total, .dispatch⟩ := by
  rw [matchStatic] at h
  split at h
  · obtain rfl := Except.ok.inj h
    exact List.nil_subset _
  · obtain ⟨equal, hequal, ht⟩ := map_eq_ok h
    obtain ⟨harray, rfl⟩ := memcmpEqual_ok hequal
    by_cases hhit : expected.take len <+: input
    · rw [if_pos (decide_eq_true hhit)] at ht
      subst ht
      change _ ⊆ fieldEnds (stages.drop parser.stage) total input
      rw [hdrop, fieldEnds_static harray hhit]
      exact List.Subset.refl _
    · rw [if_neg (by simpa using hhit)] at ht
      subst ht
      exact List.nil_subset _

theorem scanTerminator_ends_subset {name : String} {termLen pos : Nat}
    {terminator : Octets} {escape : Option EscapeConstants}
    (hdrop : stages.drop parser.stage =
      .readUntilTerminator name termLen terminator escape ::
        stages.drop (parser.stage + 1))
    (h : scanTerminator ⟨parser, input, total, .scanning pos⟩ pos termLen
      terminator (fun data parser => parser.appendTo name data)
      MessageParser.nextStage .scanning = .ok t) :
    comingEnds stages t ⊆
      comingEnds stages ⟨parser, input, total, .scanning pos⟩ := by
  rw [scanTerminator] at h
  split at h
  · rename_i hroom
    change pos + termLen ≤ input.length at hroom
    obtain ⟨equal, hequal, ht⟩ := map_eq_ok h
    obtain ⟨harray, rfl⟩ := memcmpEqual_ok hequal
    by_cases hhit : terminator.take termLen <+: input.drop pos
    · rw [if_pos (decide_eq_true hhit)] at ht
      subst ht
      have hends : fieldEnds (.readUntilTerminator name termLen terminator
          escape :: stages.drop (parser.stage + 1)) (total + pos)
            (input.drop pos) = _ :=
        fieldEnds_read harray (Occurrence.first_of_prefix hhit)
      rw [Nat.zero_add, List.drop_drop, Nat.add_assoc total pos termLen] at hends
      change _ ⊆ fieldEnds (stages.drop parser.stage) (total + pos)
        (input.drop pos)
      rw [hdrop, hends]
      exact List.subset_cons_self _ _
    · rw [if_neg (by simpa using hhit)] at ht
      subst ht
      have hpositive : termLen ≠ 0 := by
        rintro rfl
        exact hhit List.nil_prefix
      have hsplit := List.drop_eq_getElem_cons (l := input) (i := pos)
        (by omega)
      rw [hsplit] at hhit
      change fieldEnds (stages.drop parser.stage) (total + (pos + 1))
        (input.drop (pos + 1)) ⊆ fieldEnds (stages.drop parser.stage)
          (total + pos) (input.drop pos)
      rw [hdrop, hsplit, fieldEnds_skip harray hhit]
      exact List.Subset.refl _
  · obtain rfl := Except.ok.inj h
    exact List.nil_subset _

end Turn

section Plain

variable {stages : List ParseStage}
  (hplain : ∀ stage ∈ stages, stage.IsPlain) {s t : ParseCall}

include hplain

/-- A turn of the call only takes terminators away. -/
theorem comingEnds_step (h : step stages s = .ok t) :
    comingEnds stages t ⊆ comingEnds stages s := by
  obtain ⟨parser, input, total, point⟩ := s
  have hreturned : ∀ {status}, t.point = .returned status →
      comingEnds stages t ⊆
        comingEnds stages ⟨parser, input, total, point⟩ := by
    intro status hpoint
    rw [comingEnds_returned hpoint]
    exact List.nil_subset _
  rcases atCase_of_plain (n := parser.stage) hplain with
    ⟨hdrop, hcase⟩ | ⟨stage, hstage, hdrop, hcase⟩
  · cases point with
    | dispatch =>
        simp only [step, dispatch, hcase] at h
        split at h
        · obtain rfl := Except.ok.inj h
          exact hreturned rfl
        · obtain rfl := Except.ok.inj h
          exact List.Subset.refl _
    | scanning pos =>
        simp only [step, scan, hcase] at h
        contradiction
    | scanningElement pos =>
        simp only [step, scanElement, hcase] at h
        contradiction
    | returned status =>
        obtain rfl := Except.ok.inj h
        exact List.Subset.refl _
  · cases point with
    | dispatch =>
        simp only [step, dispatch, hcase] at h
        split at h
        · obtain rfl := Except.ok.inj h
          exact hreturned rfl
        · cases stage with
          | matchStaticOctets len expected =>
              exact matchStatic_ends hdrop h
          | readUntilTerminator name termLen terminator escape =>
              obtain rfl := Except.ok.inj h
              exact List.Subset.refl _
          | parseLoop _ _ _ _ | noCode => exact hstage.elim
    | scanning pos =>
        simp only [step, scan, hcase] at h
        cases stage with
        | readUntilTerminator name termLen terminator escape =>
            obtain rfl : escape = none := hstage
            exact scanTerminator_ends_subset hdrop h
        | matchStaticOctets _ _ | parseLoop _ _ _ _ | noCode => contradiction
    | scanningElement pos =>
        simp only [step, scanElement, hcase] at h
        cases stage with
        | parseLoop _ _ _ _ => exact hstage.elim
        | matchStaticOctets _ _ | readUntilTerminator _ _ _ _ | noCode =>
            contradiction
    | returned status =>
        obtain rfl := Except.ok.inj h
        exact List.Subset.refl _

/-- What is to come later is to come now. -/
theorem comingEnds_reaches (h : Reaches (step stages) s t) :
    comingEnds stages t ⊆ comingEnds stages s := by
  induction h with
  | refl => exact List.Subset.refl _
  | tail _ hstep ih =>
      exact List.Subset.trans (comingEnds_step hplain hstep) ih

/-- A call whose terminators are not cut is clear. -/
theorem clear_of_comingEnds {cut : Nat}
    (h : ∀ terminator ∈ comingEnds stages s,
      terminator.1 < cut → terminator.1 + terminator.2 ≤ cut) :
    s.Clear stages cut := by
  obtain ⟨parser, input, total, point⟩ := s
  rcases atCase_of_plain (n := parser.stage) hplain with
    ⟨_, hcase⟩ | ⟨stage, hstage, hdrop, hcase⟩
  · cases point with
    | dispatch | scanning _ | scanningElement _ =>
        simp only [Clear, hcase]
    | returned _ => trivial
  · cases stage with
    | matchStaticOctets len expected =>
        cases point with
        | dispatch | scanning _ | scanningElement _ =>
            simp only [Clear, hcase]
        | returned _ => trivial
    | readUntilTerminator name termLen terminator escape =>
        obtain rfl : escape = none := hstage
        cases point with
        | dispatch | scanningElement _ => simp only [Clear, hcase]
        | returned _ => trivial
        | scanning pos =>
            simp only [Clear, hcase]
            refine ⟨fun hfinds => ?_, by simp⟩
            obtain ⟨harray, hhit⟩ := memcmpEqual_ok hfinds.2
            have hends : fieldEnds (.readUntilTerminator name termLen terminator
                none :: stages.drop (parser.stage + 1)) (total + pos)
                  (input.drop pos) = _ :=
              fieldEnds_read harray
                (Occurrence.first_of_prefix (of_decide_eq_true hhit.symm))
            refine h (total + pos, termLen) ?_
            change _ ∈ fieldEnds (stages.drop parser.stage) (total + pos)
              (input.drop pos)
            rw [hdrop, hends]
            exact List.mem_cons_self
    | parseLoop _ _ _ _ | noCode => exact hstage.elim

/-- Where no terminator is cut, no turn of the one call finds anything that is
cut. -/
theorem cutsClear_of_terminatorsWhole {chunks : List Octets}
    (h : TerminatorsWhole stages chunks) : CutsClear stages chunks := by
  intro cut hcut call hcall
  exact clear_of_comingEnds hplain fun terminator hterminator =>
    h cut hcut terminator (comingEnds_reaches hplain hcall hterminator)

end Plain

section Overrun

variable {before after : List ParseStage} {parser : MessageParser}
  {x y : Octets} {total : Nat}

/-- The call on the first part of the stream returns, with more in a buffer
than the one call will ever have there. -/
def Overruns (stages : List ParseStage) (parser : MessageParser) (x y : Octets)
    (total : Nat) : Prop :=
  ∃ first name, Reaches (step stages) ⟨parser, x, total, .dispatch⟩ first ∧
    first.point = .returned .needMoreData ∧
    ∀ last status, last.point = .returned status →
      Reaches (step stages) ⟨parser, x ++ y, total, .dispatch⟩ last →
        (last.parser.buffers name).length < (first.parser.buffers name).length

/-- What happens behind a case that both calls pass happens to both. -/
theorem Overruns.of_reads {stage : ParseStage} {size : Nat}
    {update : MessageParser → MessageParser}
    (hopen : parser.complete = false) (hstage : parser.stage = before.length)
    (hreads : StageReads stage (x ++ y) size update)
    (hreads' : StageReads stage x size update)
    (hsize : size ≤ x.length)
    (h : Overruns (before ++ stage :: after) (update parser).nextStage
      (x.drop size) y (total + size)) :
    Overruns (before ++ stage :: after) parser x y total := by
  have hwhole := hreads before after parser total hopen hstage
  have hpart := hreads' before after parser total hopen hstage
  obtain ⟨first, name, hfirst, hpoint, hless⟩ := h
  refine ⟨first, name, hpart.trans hfirst, hpoint, ?_⟩
  intro last status hlast hreaches
  refine hless last status hlast ?_
  rw [List.drop_append_of_le_length hsize] at hwhole
  exact Reaches.of_fixed (step_returned hlast) hreaches hwhole

/-- A call that ends inside of the terminator of a field takes what it has of
the terminator into the field. -/
theorem overruns_read {name : String} {termLen : Nat} {terminator : Octets}
    (harray : termLen ≤ terminator.length)
    (hname : name ∉ LoopState.fieldNames after)
    (hopen : parser.complete = false) (hstage : parser.stage = before.length)
    {p : Nat}
    (hfirst : Occurrence.first (terminator.take termLen) (x ++ y) = some p)
    (hlt : p < x.length) (hgt : x.length < p + termLen) :
    Overruns (before ++ .readUntilTerminator name termLen terminator none ::
      after) parser x y total := by
  have hcase := atCase_drop before after
    (ParseStage.readUntilTerminator_ne_noCode name termLen terminator none)
    hstage
  have hnone : Occurrence.first (terminator.take termLen) x = none := by
    cases hx : Occurrence.first (terminator.take termLen) x with
    | none => rfl
    | some q =>
        have hlength := Occurrence.length_le_of_first hx
        rw [List.length_take, Nat.min_eq_left harray] at hlength
        obtain rfl : q = p := Option.some.inj
          ((Occurrence.first_append hx y).symm.trans hfirst)
        omega
  have hpart := Reaches.head (step_read _ rfl hopen hcase)
    (scanTerminator_waits ⟨parser, x, total, .dispatch⟩
      (fun pos => step_scan_plain _ pos hcase) harray hnone)
  have hwhole := readPlain_reads harray hfirst name before after parser total
    hopen hstage
  refine ⟨_, name, hpart, rfl, fun last status hlast hreaches => ?_⟩
  have hrest := Reaches.of_fixed (step_returned hlast) hreaches hwhole
  obtain ⟨data, hdata, hnothing⟩ := (reaches_grows hrest).buffers name
  have hafter : (before ++ .readUntilTerminator name termLen terminator none ::
      after).drop (parser.stage + 1) = after := by
    rw [hstage, ← List.drop_drop, List.drop_left, List.drop_succ_cons,
      List.drop_zero]
  have hempty : data = [] := by
    refine hnothing ?_
    change name ∉ LoopState.fieldNames (List.drop (parser.stage + 1) _)
    rw [hafter]
    exact hname
  have hbuffer : last.parser.buffers name =
      parser.buffers name ++ (x ++ y).take p := by
    rw [hdata, hempty, List.append_nil]
    exact parser.buffers_appendTo_self name _
  have hlonger : (parser.appendTo name x).buffers name =
      parser.buffers name ++ x := parser.buffers_appendTo_self name x
  change _ < ((parser.appendTo name x).buffers name).length
  rw [hbuffer, hlonger, List.length_append, List.length_append,
    List.length_take]
  omega

/-- So does a call that ends inside of any terminator of the stream. -/
theorem overruns_of_cut (hplain : ∀ stage ∈ after, stage.IsPlain)
    (hnodup : (LoopState.fieldNames after).Nodup)
    (hopen : parser.complete = false) (hstage : parser.stage = before.length)
    {terminator : Nat × Nat}
    (hmem : terminator ∈ fieldEnds after total (x ++ y))
    (hlt : terminator.1 < total + x.length)
    (hgt : total + x.length < terminator.1 + terminator.2) :
    Overruns (before ++ after) parser x y total := by
  induction after generalizing before parser x total with
  | nil => exact absurd hmem List.not_mem_nil
  | cons stage after ih =>
      rw [List.forall_mem_cons] at hplain
      have hagain : ∀ {parser : MessageParser} {x : Octets} {total : Nat},
          (LoopState.fieldNames after).Nodup → parser.complete = false →
          parser.stage = before.length + 1 →
          terminator ∈ fieldEnds after total (x ++ y) →
          terminator.1 < total + x.length →
          total + x.length < terminator.1 + terminator.2 →
            Overruns (before ++ stage :: after) parser x y total := by
        intro parser x total hnodup hopen hstage hmem hlt hgt
        have hrest : Overruns ((before ++ [stage]) ++ after) parser x y total :=
          ih hplain.2 hnodup hopen (by rw [hstage, List.length_append]; rfl)
            hmem hlt hgt
        rwa [List.append_assoc, List.singleton_append] at hrest
      cases stage with
      | matchStaticOctets len expected =>
          rw [fieldEnds] at hmem
          split at hmem
          · rename_i hhit
            obtain ⟨harray, hhit⟩ := hhit
            have hbehind := le_of_mem_fieldEnds hmem
            have hsize : len ≤ x.length := by omega
            have hpart : expected.take len <+: x :=
              List.prefix_of_prefix_length_le hhit (List.prefix_append x y)
                ((List.length_take_le _ _).trans hsize)
            rw [List.drop_append_of_le_length hsize] at hmem
            have hlength : (x.drop len).length = x.length - len :=
              List.length_drop
            exact .of_reads hopen hstage (matchStatic_reads harray hhit)
              (matchStatic_reads harray hpart) hsize
              (hagain hnodup hopen (congrArg _ hstage) hmem (by omega)
                (by omega))
          · exact absurd hmem List.not_mem_nil
      | readUntilTerminator name termLen array escape =>
          obtain rfl : escape = none := hplain.1
          obtain ⟨hname, hnodup⟩ := List.nodup_cons.mp hnodup
          rw [fieldEnds] at hmem
          split at hmem
          · rename_i harray
            split at hmem
            · rename_i p hfirst
              cases List.mem_cons.mp hmem with
              | inl h =>
                  subst h
                  exact overruns_read harray hname hopen hstage hfirst
                    (by omega) (by omega)
              | inr hmem =>
                  have hbehind := le_of_mem_fieldEnds hmem
                  have hsize : p + termLen ≤ x.length := by omega
                  have hpart := Occurrence.first_of_append hfirst (by
                    rw [List.length_take, Nat.min_eq_left harray]
                    exact hsize)
                  have htake : (x ++ y).take p = x.take p :=
                    List.take_append_of_le_length (by omega)
                  have hreads := readPlain_reads harray hfirst name
                  rw [htake] at hreads
                  rw [List.drop_append_of_le_length hsize] at hmem
                  have hlength : (x.drop (p + termLen)).length =
                      x.length - (p + termLen) := List.length_drop
                  exact .of_reads hopen hstage hreads
                    (readPlain_reads harray hpart name) hsize
                    (hagain hnodup hopen (congrArg _ hstage) hmem (by omega)
                      (by omega))
            · exact absurd hmem List.not_mem_nil
          · exact absurd hmem List.not_mem_nil
      | parseLoop _ _ _ _ | noCode => exact absurd hmem List.not_mem_nil

end Overrun

section Calls

variable {stages : List ParseStage} {parser : MessageParser}
  {unread input : Octets} {before after chunks : List Octets}
  {outcome fed fed' : ParseOutcome}

/-- A call returns one thing only. -/
theorem Returns.unique {outcome' : ParseOutcome}
    (h : Returns stages parser input outcome)
    (h' : Returns stages parser input outcome') : outcome = outcome' := by
  obtain ⟨left, h⟩ := h
  obtain ⟨left', h'⟩ := h'
  have hsame := returned_unique rfl rfl h' h
  obtain ⟨status, total, parser⟩ := outcome
  injection hsame with hparser hleft htotal hpoint
  subst hparser htotal
  obtain rfl := ParsePoint.returned.inj hpoint
  rfl

theorem Feeds.not_nil : ¬ Feeds stages parser unread [] fed :=
  fun h => nomatch h

/-- So do the calls on the chunks. -/
theorem Feeds.unique (h : Feeds stages parser unread chunks fed)
    (h' : Feeds stages parser unread chunks fed') : fed = fed' := by
  induction h generalizing fed' with
  | last h =>
      cases h' with
      | last h' => exact h.unique h'
      | next _ hrest => exact absurd hrest Feeds.not_nil
  | next h hrest ih =>
      cases h' with
      | last _ => exact absurd hrest Feeds.not_nil
      | next h' hrest' =>
          obtain rfl := h.unique h'
          rw [ih hrest']

/-- The calls only append to the buffers. -/
theorem Feeds.grows (h : Feeds stages parser unread chunks fed)
    (name : String) :
    ∃ data, fed.parser.buffers name = parser.buffers name ++ data := by
  have hcall : ∀ {parser : MessageParser} {input : Octets}
      {outcome : ParseOutcome}, Returns stages parser input outcome →
      ∃ data, outcome.parser.buffers name = parser.buffers name ++ data := by
    rintro parser input outcome ⟨left, h⟩
    obtain ⟨data, hdata, _⟩ := (reaches_grows h).buffers name
    exact ⟨data, hdata⟩
  induction h with
  | last h => exact hcall h
  | next h _ ih =>
      obtain ⟨data, hdata⟩ := hcall h
      obtain ⟨more, hmore⟩ := ih
      exact ⟨data ++ more, by rw [hmore, hdata, List.append_assoc]⟩

/-- The calls on the first chunks come first. -/
theorem Feeds.of_append (hbefore : before ≠ []) (hafter : after ≠ [])
    (h : Feeds stages parser unread (before ++ after) fed) :
    ∃ middle, Feeds stages parser unread before middle ∧
      ∀ name, ∃ data, fed.parser.buffers name =
        middle.parser.buffers name ++ data := by
  induction before generalizing parser unread fed with
  | nil => contradiction
  | cons chunk before ih =>
      rw [List.cons_append] at h
      generalize hrest : before ++ after = rest at h
      cases h with
      | last _ => exact absurd (List.append_eq_nil_iff.mp hrest).2 hafter
      | next hfirst hfeeds =>
          subst hrest
          cases before with
          | nil => exact ⟨_, .last hfirst, fun name => hfeeds.grows name⟩
          | cons next before =>
              obtain ⟨middle, hmiddle, hgrows⟩ :=
                ih (List.cons_ne_nil next before) hfeeds
              exact ⟨_, .next hfirst hmiddle, hgrows⟩

/-- Where the one call returns and the calls on the chunks come to the same, no
terminator is cut. -/
theorem terminatorsWhole_of_feedsAlike
    (hplain : ∀ stage ∈ stages, stage.IsPlain)
    (hnodup : (LoopState.fieldNames stages).Nodup)
    (hreturns : Returns stages .reset chunks.flatten outcome)
    (h : FeedsAlike stages chunks) : TerminatorsWhole stages chunks := by
  obtain ⟨fed, hfed, hagrees⟩ := h outcome hreturns
  rintro cut ⟨before, after, hbefore, hafter, hchunks, rfl⟩
  induction hn : before.length using Nat.strong_induction_on
      generalizing before after with
  | h n ih =>
      subst hn
      intro terminator hmem hlt
      by_contra hgt
      have hflatten : chunks.flatten = before.flatten ++ after.flatten := by
        rw [hchunks, List.flatten_append]
      rw [hflatten] at hmem
      have hover : Overruns ([] ++ stages) .reset before.flatten after.flatten
          0 := overruns_of_cut hplain hnodup rfl rfl hmem (by omega) (by omega)
      obtain ⟨first, name, hfirst, hpoint, hless⟩ := hover
      have hearlier : TerminatorsWhole stages before := by
        rintro cut ⟨earlier, later, hne, hlater, rfl, rfl⟩ terminator hmem
        have hshorter : earlier.length < (earlier ++ later).length := by
          have hpositive := List.length_pos_of_ne_nil hlater
          rw [List.length_append]
          omega
        refine ih earlier.length hshorter earlier (later ++ after) hne
          (List.append_ne_nil_of_left_ne_nil hlater after)
          (by rw [hchunks, List.append_assoc]) rfl terminator ?_
        rw [hflatten]
        exact fieldEnds_append_subset after.flatten hmem
      have hone : Returns stages .reset before.flatten
          ⟨.needMoreData, first.totalConsumed, first.parser⟩ := by
        refine ⟨first.input, ?_⟩
        rw [← hpoint]
        exact hfirst
      have hfeeds : Feeds stages .reset [] before
          ⟨.needMoreData, first.totalConsumed, first.parser⟩ := by
        refine feeds_of_clear hbefore hone fun cut hcut call hcall => ?_
        rw [List.length_nil, Nat.zero_add]
        exact cutsClear_of_terminatorsWhole hplain hearlier cut hcut call hcall
      rw [hchunks] at hfed
      obtain ⟨middle, hmiddle, hgrows⟩ := hfed.of_append hbefore hafter
      obtain rfl := hmiddle.unique hfeeds
      obtain ⟨data, hdata⟩ := hgrows name
      obtain ⟨left, hlast⟩ := hreturns
      rw [hflatten] at hlast
      have hshort := hless _ outcome.status rfl hlast
      change (outcome.parser.buffers name).length <
        (first.parser.buffers name).length at hshort
      rw [← hagrees.buffers, hdata, List.length_append] at hshort
      exact absurd hshort (Nat.not_lt.mpr (Nat.le_add_right _ _))

end Calls

/-- The cases of plain reads are plain. -/
theorem isPlain_of_messageParser {actions : List Action}
    {stages : List ParseStage} (h : messageParser actions = some stages)
    (hplain : ∀ action ∈ actions, action.IsPlainRead) :
    ∀ stage ∈ stages, stage.IsPlain := by
  induction actions generalizing stages with
  | nil =>
      obtain rfl := Option.some.inj h
      exact fun _ h => absurd h List.not_mem_nil
  | cons action actions ih =>
      obtain ⟨first, rest, hfirst, hrest, rfl⟩ := messageParser_cons.mp h
      rw [List.forall_mem_cons] at hplain
      refine List.forall_mem_cons.mpr ⟨?_, ih hrest hplain.2⟩
      cases action with
      | readStaticOctets octets =>
          obtain ⟨array, _, hfirst⟩ := Option.bind_eq_some_iff.mp hfirst
          obtain rfl := Option.some.inj hfirst
          trivial
      | readOctetsUntilTerminator terminator identifier escape =>
          obtain rfl : escape = none := hplain.1
          obtain ⟨array, _, hfirst⟩ := Option.bind_eq_some_iff.mp hfirst
          obtain rfl := Option.some.inj hfirst
          rfl
      | writeFromIdentifier _ _ | writeStaticOctets _ | loop _ _ _ _ =>
          exact hplain.1.elim

/-- The calls on the chunks come to what one call on the stream comes to where
no cut divides what that call finds; for plain fields this is so exactly where
no terminator is cut. -/
theorem feedsAlike_iff_terminatorsWhole {actions : List Action}
    {stages : List ParseStage} (hstages : messageParser actions = some stages)
    {chunks : List Octets} (hne : chunks ≠ []) :
    (CutsClear stages chunks → FeedsAlike stages chunks) ∧
    ((∀ action ∈ actions, action.IsPlainRead) →
      (LoopState.fieldNames stages).Nodup →
      (∃ outcome, Returns stages .reset chunks.flatten outcome) →
        (FeedsAlike stages chunks ↔ TerminatorsWhole stages chunks)) := by
  have halike : CutsClear stages chunks → FeedsAlike stages chunks := by
    intro hclear outcome houtcome
    have hfeeds : Feeds stages .reset [] chunks outcome := by
      refine feeds_of_clear hne houtcome fun cut hcut call hcall => ?_
      rw [List.length_nil, Nat.zero_add]
      exact hclear cut hcut call hcall
    exact ⟨outcome, hfeeds, rfl, rfl, rfl, fun _ => rfl⟩
  refine ⟨halike, fun hplain hnodup hreturns => ?_⟩
  have hplain := isPlain_of_messageParser hstages hplain
  obtain ⟨outcome, houtcome⟩ := hreturns
  constructor
  · exact terminatorsWhole_of_feedsAlike hplain hnodup houtcome
  · exact fun hwhole => halike (cutsClear_of_terminatorsWhole hplain hwhole)

/-- A line. -/
def lineReads : List Action :=
  [.readOctetsUntilTerminator [13, 10] (.mk "line" none) none]

def lineStages : List ParseStage :=
  [.readUntilTerminator "line" 2 [13, 10, 0] none]

theorem messageParser_line : messageParser lineReads = some lineStages := by
  rfl

/-- One call on a line with its end is complete. -/
theorem line_returns : ∃ outcome,
    Returns lineStages .reset [97, 98, 13, 10] outcome ∧
      outcome.status = .complete ∧ outcome.totalConsumed = 4 := by
  have hreads : StageReads (.readUntilTerminator "line" 2 [13, 10, 0] none)
      [97, 98, 13, 10] (2 + 2) (·.appendTo "line" [97, 98]) :=
    readPlain_reads (by decide) (by decide) "line"
  have hread := hreads [] [] .reset 0 rfl rfl
  exact ⟨⟨.complete, 4, _⟩, ⟨_, hread.trans (reaches_complete rfl rfl _ _)⟩,
    rfl, rfl⟩

/-- A call on a part of a line takes all of it into the line. -/
theorem line_waits (parser : MessageParser) (hopen : parser.complete = false)
    (hstage : parser.stage = 0) (chunk : Octets)
    (hpart : Occurrence.first [13, 10] chunk = none) :
    Returns lineStages parser chunk
      ⟨.needMoreData, 0 + chunk.length, parser.appendTo "line" chunk⟩ := by
  have hcase : atCase (lineStages.drop parser.stage) =
      some (.readUntilTerminator "line" 2 [13, 10, 0] none) := by
    rw [hstage]
    rfl
  exact ⟨chunk, Reaches.head (step_read (start parser chunk) rfl hopen hcase)
    (scanTerminator_waits (start parser chunk)
      (fun pos => step_scan_plain _ pos hcase) (by decide) hpart)⟩

/-- Two chunks have one cut. -/
theorem CutAt.of_pair {first second : Octets} {cut : Nat}
    (h : CutAt [first, second] cut) : cut = first.length := by
  obtain ⟨before, after, hbefore, hafter, hchunks, rfl⟩ := h
  cases before with
  | nil => contradiction
  | cons chunk before =>
      obtain ⟨rfl, hchunks⟩ := List.cons.inj hchunks
      cases before with
      | nil => rw [List.flatten_singleton]
      | cons chunk before =>
          have hlength := congrArg List.length hchunks
          have hpositive := List.length_pos_of_ne_nil hafter
          simp only [List.length_append, List.length_cons, List.length_nil]
            at hlength
          omega

/-- A line in two chunks, the second of them its end. -/
theorem feedsAlike_iff_terminatorsWhole_line :
    FeedsAlike lineStages [[97, 98], [13, 10]] := by
  obtain ⟨outcome, houtcome, _⟩ := line_returns
  have hplain : ∀ action ∈ lineReads, action.IsPlainRead :=
    List.forall_mem_singleton.mpr rfl
  have hne : ([[97, 98], [13, 10]] : List Octets) ≠ [] := by decide
  have halike := (feedsAlike_iff_terminatorsWhole messageParser_line hne).2
    hplain (by decide) ⟨outcome, houtcome⟩
  have hends : fieldEnds lineStages 0 [97, 98, 13, 10] = [(2, 2)] := by decide
  refine halike.mpr ?_
  intro cut hcut terminator hmem hlt
  rw [hcut.of_pair] at hlt
  have hmem : terminator ∈ fieldEnds lineStages 0 [97, 98, 13, 10] := hmem
  rw [hends, List.mem_singleton] at hmem
  subst hmem
  exact absurd hlt (by decide)

/-- With the cut between the two bytes of its end the parser takes the first of
them into the line, and waits for the end that it has taken. -/
theorem cut_line_end_is_lost :
    messageParser lineReads = some lineStages ∧
      (∃ outcome, Returns lineStages .reset [97, 98, 13, 10] outcome ∧
        outcome.status = .complete ∧ outcome.totalConsumed = 4) ∧
      (∃ fed, Feeds lineStages .reset [] [[97, 98, 13], [10]] fed ∧
        fed.status = .needMoreData ∧
        fed.parser.buffers "line" = [97, 98, 13, 10]) ∧
      ¬ FeedsAlike lineStages [[97, 98, 13], [10]] := by
  have hfirst := line_waits .reset rfl rfl [97, 98, 13] (by decide)
  have hsecond := line_waits (.appendTo .reset "line" [97, 98, 13]) rfl rfl [10]
    (by decide)
  have hfeeds : Feeds lineStages .reset [] [[97, 98, 13], [10]] _ :=
    .next hfirst (.last hsecond)
  refine ⟨rfl, line_returns, ⟨_, hfeeds, rfl, rfl⟩, fun halike => ?_⟩
  obtain ⟨outcome, houtcome, hcomplete, _⟩ := line_returns
  obtain ⟨fed, hfed, hagrees⟩ := halike outcome houtcome
  obtain rfl := hfed.unique hfeeds
  have hstatus := hagrees.status.trans hcomplete
  contradiction

end ParseCall

end NetworkProtocolDsl
