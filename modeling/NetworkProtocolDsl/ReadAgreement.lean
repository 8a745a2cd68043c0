/-
The emitted parser and the interpreter read a message alike.

Both take the pieces and the fields one after the other.  They differ only
where an octet string is not read back from the literal it is printed as, and
without escape options they then always differ.
-/
import NetworkProtocolDsl.MessageReading
import NetworkProtocolDsl.ParserStages

namespace NetworkProtocolDsl

open Run Generate OutputContext CppLiteral GenerateParser
open OpTreeNode EvaluateInOrder
open NetworkProtocolDsl.Action

namespace Action

/-- The literals in the code for the action are read back. -/
def LiteralsSurvive : Action → Prop
  | .readStaticOctets octets => Survives octets
  | .readOctetsUntilTerminator terminator _ escape =>
      Survives terminator ∧ ∀ option ∈ escape,
        Survives option.sequence ∧ Survives option.character
  | _ => True

/-- The action has no escape option. -/
def ReadsPlainly : Action → Prop
  | .readOctetsUntilTerminator _ _ escape => escape = none
  | _ => True

end Action

namespace MessageParser

/-- The values are appended to the buffers of their fields. -/
def store (parser : MessageParser) (fields : List (String × Octets)) :
    MessageParser :=
  fields.foldl (fun parser field => parser.appendTo field.1 field.2) parser

theorem store_members (parser : MessageParser)
    (fields : List (String × Octets)) :
    (parser.store fields).complete = parser.complete ∧
      (parser.store fields).stage = parser.stage := by
  induction fields generalizing parser with
  | nil => exact ⟨rfl, rfl⟩
  | cons field fields ih => exact ih (parser.appendTo field.1 field.2)

theorem store_nextStage (parser : MessageParser)
    (fields : List (String × Octets)) :
    parser.nextStage.store fields = (parser.store fields).nextStage := by
  induction fields generalizing parser with
  | nil => rfl
  | cons field fields ih => exact ih (parser.appendTo field.1 field.2)

theorem buffers_store_of_notMem (parser : MessageParser)
    {fields : List (String × Octets)} {name : String}
    (hname : name ∉ fields.map Prod.fst) :
    (parser.store fields).buffers name = parser.buffers name := by
  induction fields generalizing parser with
  | nil => rfl
  | cons field fields ih =>
      rw [List.map_cons, List.mem_cons, not_or] at hname
      have hrest := ih (parser.appendTo field.1 field.2) hname.2
      rwa [buffers_appendTo_ne parser field.1 hname.1] at hrest

theorem buffers_store (parser : MessageParser)
    {fields : List (String × Octets)} (hnodup : (fields.map Prod.fst).Nodup)
    {field : String × Octets} (hfield : field ∈ fields) :
    (parser.store fields).buffers field.1 =
      parser.buffers field.1 ++ field.2 := by
  induction fields generalizing parser with
  | nil => exact absurd hfield List.not_mem_nil
  | cons first fields ih =>
      rw [List.map_cons, List.nodup_cons] at hnodup
      rcases List.mem_cons.mp hfield with rfl | hfield
      · have hrest := buffers_store_of_notMem
          (parser.appendTo field.1 field.2) hnodup.1
        rwa [buffers_appendTo_self] at hrest
      · have hne : field.1 ≠ first.1 := by
          rintro heq
          exact hnodup.1 (heq ▸ List.mem_map_of_mem hfield)
        have hrest := ih (parser.appendTo first.1 first.2) hnodup.2 hfield
        rwa [buffers_appendTo_ne parser first.1 hne] at hrest

/-- The data of a message of strings are the buffers of its fields. -/
theorem takeData_strings (parser : MessageParser) {data : MessageData}
    {actions : List Action}
    (hstring : ∀ action ∈ actions,
      action.TopLevelString (extractType data)) :
    parser.takeData data actions = .ok ((fieldNames actions).map
      fun name => (name, .string (parser.buffers name))) := by
  induction actions with
  | nil => rfl
  | cons action actions ih =>
      rw [List.forall_mem_cons] at hstring
      cases action with
      | readStaticOctets _ => exact ih hstring.2
      | readOctetsUntilTerminator terminator identifier escape =>
          obtain ⟨_, type, htype, hstr⟩ := hstring.1
          have hlookup : data.lookup identifier.name = some type := htype
          have hint : type.name.name ≠ "int" := by
            rw [hstr]
            decide
          have hother : getFieldCppType data identifier.name = .other := by
            simp only [getFieldCppType, hlookup, if_neg hint]
          simp only [takeData, hother, takeField, ih hstring.2, fieldNames,
            List.map_cons]
          rfl
      | writeFromIdentifier _ _ | writeStaticOctets _ | loop _ _ _ _ =>
          exact hstring.1.elim

end MessageParser

/-- The emitted parser, started from its reset state on the chunk, returns
`Complete`, has consumed this many bytes, and finds in every field the octets
of the bindings. -/
def ParserReads (data : MessageData) (actions : List Action) (chunk : Octets)
    (bindings : Bindings) (size : Nat) : Prop :=
  ∃ stages call fields, messageParser actions = some stages ∧
    Reaches (ParseCall.step stages) (.start .reset chunk) call ∧
    call.point = .returned .complete ∧ call.totalConsumed = size ∧
    call.parser.takeData data actions = .ok fields ∧
    fields.map Prod.fst = fieldNames actions ∧
    ∀ field ∈ fields, ∃ octets, field.2 = .string octets ∧
      bindings.lookup field.1 = some (.octets octets)

theorem constant_of_survives {s : Octets} (h : Survives s) :
    constant s = some (s ++ [0]) :=
  charArray_of_survives h

theorem readsField_none_iff {terminator input value : Octets} {size : Nat} :
    ReadsField terminator none input value size ↔
      ∃ p, Occurrence.first terminator input = some p ∧
        value = input.take p ∧ size = p + terminator.length := by
  rw [ReadsField, ReadOctetsUntilTerminator.handleRead]
  constructor
  · intro h
    cases hfirst : Occurrence.first terminator input with
    | none =>
        rw [hfirst] at h
        simp at h
    | some p =>
        rw [hfirst] at h
        simp only [Except.ok.injEq, Prod.mk.injEq,
          InputOutputOperationContext.mk.injEq] at h
        exact ⟨p, rfl, h.2.1.symm, h.1.symm⟩
  · rintro ⟨p, hfirst, rfl, rfl⟩
    rw [hfirst]

theorem field_of_readsField {terminator input value : Octets}
    {escape : EscapeInfo} {size : Nat}
    (h : ReadsField terminator (some escape) input value size) :
    Escape.Field terminator escape.character escape.sequence input value
      size := by
  rcases ReadOctetsUntilTerminator.handleRead_escape_cases h with
    ⟨value', hfield, hctx⟩ | ⟨_, _, read, hctx⟩
  · have hvalue := congrArg InputOutputOperationContext.buffer hctx
    obtain rfl : value = value' := hvalue
    exact hfield
  · have hready := congrArg InputOutputOperationContext.ready hctx
    contradiction

theorem append_zero_take (s : Octets) : (s ++ [0]).take s.length = s :=
  List.take_left

/-- A message is not longer than its input. -/
theorem ReadsMessage.size_le {actions : List Action} {input : Octets}
    {fields : List (String × Octets)} {size : Nat}
    (h : ReadsMessage actions input fields size) : size ≤ input.length := by
  induction h with
  | nil => exact Nat.zero_le _
  | piece _ ih =>
      rw [List.length_append]
      omega
  | @field terminator input value escape name actions fields first size hfield
      _ ih =>
      have hfirst : first ≤ input.length := by
        cases escape with
        | none =>
            obtain ⟨p, hfirst, _, rfl⟩ := readsField_none_iff.mp hfield
            exact Occurrence.length_le_of_first hfirst
        | some escape => exact (field_of_readsField hfield).size_le
      rw [List.length_drop] at ih
      omega

namespace ParseCall

/-- A field the interpreter reads, the parser with the right literals reads
too. -/
theorem readStage_reads {terminator input value : Octets}
    {escape : Option EscapeInfo} {size : Nat}
    (hfield : ReadsField terminator escape input value size) (name : String)
    (hsurvives : (Action.readOctetsUntilTerminator terminator (.mk name none)
      escape).LiteralsSurvive) :
    ∃ constants, readStage name terminator escape = some
        (.readUntilTerminator name terminator.length (terminator ++ [0])
          constants) ∧
      StageReads (.readUntilTerminator name terminator.length
        (terminator ++ [0]) constants) input size (·.appendTo name value) := by
  obtain ⟨hterminator, hescape⟩ := hsurvives
  have hconstant := constant_of_survives hterminator
  have harray : terminator.length ≤ (terminator ++ [0]).length := by simp
  cases escape with
  | none =>
      refine ⟨none, by rw [readStage, hconstant]; rfl, ?_⟩
      obtain ⟨p, hfirst, rfl, rfl⟩ := readsField_none_iff.mp hfield
      rw [← append_zero_take terminator] at hfirst
      exact readPlain_reads harray hfirst name
  | some escape =>
      obtain ⟨hsequence, hcharacter⟩ := hescape escape rfl
      let constants : EscapeConstants := ⟨escape.sequence.length,
        escape.sequence ++ [0], escape.character.length,
        escape.character ++ [0]⟩
      have hconstants : escapeConstants escape = some constants := by
        rw [escapeConstants, constant_of_survives hsequence,
          constant_of_survives hcharacter]
        rfl
      have hread := field_of_readsField hfield
      rw [← append_zero_take terminator,
        ← append_zero_take escape.character,
        ← append_zero_take escape.sequence] at hread
      have hreadable : constants.Readable :=
        ⟨by simp [constants], by simp [constants]⟩
      refine ⟨some constants, ?_,
        readEscaped_reads harray hreadable hread name⟩
      simp only [readStage, hconstant, hconstants]
      rfl

/-- The parser takes the message case by case. -/
theorem reaches_reads {actions : List Action} {input : Octets}
    {fields : List (String × Octets)} {size : Nat}
    (h : ReadsMessage actions input fields size)
    (hsurvive : ∀ action ∈ actions, action.LiteralsSurvive) :
    ∃ after, messageParser actions = some after ∧
      ∀ (before : List ParseStage) (parser : MessageParser) (total : Nat),
        parser.complete = false → parser.stage = before.length →
        Reaches (step (before ++ after)) ⟨parser, input, total, .dispatch⟩
          ⟨{ parser.store fields with stage := (before ++ after).length },
            input.drop size, total + size, .dispatch⟩ := by
  induction h with
  | nil input =>
      refine ⟨[], rfl, fun before parser total _ hstage => ?_⟩
      have hsame : ({ parser.store [] with
          stage := (before ++ []).length } : MessageParser) = parser := by
        rw [List.append_nil, ← hstage]
        rfl
      rw [hsame]
      exact Reaches.refl _
  | @piece octets rest actions fields size _ ih =>
      rw [List.forall_mem_cons] at hsurvive
      obtain ⟨after, hafter, hrest⟩ := ih hsurvive.2
      have harray : octets.length ≤ (octets ++ [0]).length := by simp
      have hstart : (octets ++ [0]).take octets.length <+: octets ++ rest := by
        rw [append_zero_take]
        exact List.prefix_append _ _
      have hpiece := matchStatic_reads harray hstart
      refine ⟨.matchStaticOctets octets.length (octets ++ [0]) :: after, ?_,
        fun before parser total hopen hstage => ?_⟩
      · refine messageParser_cons.mpr ⟨_, _, ?_, hafter, rfl⟩
        rw [stage, staticStage, constant_of_survives hsurvive.1]
        rfl
      · have hfirst := hpiece before after parser total hopen hstage
        have hnext := hrest (before ++ [.matchStaticOctets octets.length
          (octets ++ [0])]) parser.nextStage (total + octets.length) hopen
          (by simp [MessageParser.nextStage, hstage])
        rw [List.append_assoc, List.singleton_append,
          MessageParser.store_nextStage] at hnext
        rw [List.drop_left] at hfirst
        rw [List.drop_length_add_append, ← Nat.add_assoc]
        exact hfirst.trans hnext
  | @field terminator input value escape name actions fields first size hfield
      _ ih =>
      rw [List.forall_mem_cons] at hsurvive
      obtain ⟨after, hafter, hrest⟩ := ih hsurvive.2
      obtain ⟨constants, hread, hstageReads⟩ :=
        readStage_reads hfield name hsurvive.1
      refine ⟨.readUntilTerminator name terminator.length (terminator ++ [0])
        constants :: after, ?_, fun before parser total hopen hstage => ?_⟩
      · exact messageParser_cons.mpr ⟨_, _, hread, hafter, rfl⟩
      · have hfirst := hstageReads before after parser total hopen hstage
        have hnext := hrest (before ++ [.readUntilTerminator name
          terminator.length (terminator ++ [0]) constants])
          (parser.appendTo name value).nextStage (total + first) hopen
          (by simp [MessageParser.nextStage, MessageParser.appendTo, hstage])
        rw [List.append_assoc, List.singleton_append,
          MessageParser.store_nextStage, List.drop_drop] at hnext
        rw [← Nat.add_assoc]
        exact hfirst.trans hnext

end ParseCall

namespace LoopState

/-- The cases read the fields of the actions. -/
theorem fieldNames_messageParser {actions : List Action}
    {stages : List ParseStage} (h : messageParser actions = some stages) :
    fieldNames stages = Action.fieldNames actions := by
  induction actions generalizing stages with
  | nil =>
      obtain rfl := Option.some.inj h
      rfl
  | cons action actions ih =>
      obtain ⟨first, rest, hfirst, hrest, rfl⟩ := messageParser_cons.mp h
      have hsame := ih hrest
      cases action with
      | readStaticOctets octets =>
          obtain ⟨array, _, hfirst⟩ := Option.bind_eq_some_iff.mp hfirst
          obtain rfl := Option.some.inj hfirst
          exact hsame
      | readOctetsUntilTerminator terminator identifier escape =>
          obtain ⟨_, _, hfirst⟩ := Option.bind_eq_some_iff.mp hfirst
          cases escape with
          | none =>
              obtain rfl := Option.some.inj hfirst
              exact congrArg _ hsame
          | some escape =>
              obtain ⟨_, _, hfirst⟩ := Option.bind_eq_some_iff.mp hfirst
              obtain rfl := Option.some.inj hfirst
              exact congrArg _ hsame
      | loop _ _ _ _ =>
          obtain ⟨_, _, hfirst⟩ := Option.bind_eq_some_iff.mp hfirst
          obtain ⟨_, _, hfirst⟩ := Option.bind_eq_some_iff.mp hfirst
          obtain rfl := Option.some.inj hfirst
          exact hsame
      | writeFromIdentifier _ _ | writeStaticOctets _ =>
          obtain rfl := Option.some.inj hfirst
          exact hsame

end LoopState

namespace ParseCall

/-- An array that stands for the octets is that of a literal that survives. -/
theorem survives_of_prefix {s array data : Octets}
    (h : constant s = some array) (hlength : s.length ≤ array.length)
    (hs : s <+: data) (harray : array.take s.length <+: data) :
    Survives s := by
  refine survives_of_charArray h hlength ?_
  have htake : (array.take s.length).length = s.length := by
    rw [List.length_take, Nat.min_eq_left hlength]
  rw [List.prefix_iff_eq_take] at hs harray
  rw [harray, htake, ← hs]

/-- The parser takes a static piece only if it has its octets. -/
theorem staticStage_survives {octets rest array : Octets}
    (hconstant : constant octets = some array)
    (before after : List ParseStage) {parser : MessageParser} {total : Nat}
    (hopen : parser.complete = false) (hstage : parser.stage = before.length)
    {call : ParseCall} (hdone : call.point = .returned .complete)
    (hcall : Reaches (step (before ++ .matchStaticOctets octets.length array ::
      after)) ⟨parser, octets ++ rest, total, .dispatch⟩ call) :
    Survives octets := by
  have hcase := atCase_drop before after
    (ParseStage.matchStaticOctets_ne_noCode octets.length array) hstage
  have hstep := step_static ⟨parser, octets ++ rest, total, .dispatch⟩ rfl
    hopen hcase
  rcases Nat.lt_or_ge array.length octets.length with hlt | hlength
  · rw [matchStatic, if_neg (by simp), memcmpEqual, if_pos hlt] at hstep
    exact absurd hcall
      (not_returned_of_fault hstep (Reaches.refl _) hdone)
  · by_cases hequal : array.take octets.length <+: octets ++ rest
    · exact survives_of_prefix hconstant hlength (List.prefix_append _ _) hequal
    · rw [matchStatic_misses _ hlength (by simp) hequal] at hstep
      have hstatus := status_unique rfl hdone (Reaches.single hstep) hcall
      contradiction

/-- The parser finds the value of a field only if it has the terminator. -/
theorem readStage_survives {terminator input array : Octets} {p : Nat}
    (hfirst : Occurrence.first terminator input = some p)
    (hconstant : constant terminator = some array) {name : String}
    (before after : List ParseStage) {parser : MessageParser} {total : Nat}
    (hopen : parser.complete = false) (hstage : parser.stage = before.length)
    (hfresh : name ∉ LoopState.fieldNames after)
    {call : ParseCall} (hdone : call.point = .returned .complete)
    (hcall : Reaches (step (before ++ .readUntilTerminator name
      terminator.length array none :: after)) ⟨parser, input, total, .dispatch⟩
      call)
    (hvalue : call.parser.buffers name =
      parser.buffers name ++ input.take p) : Survives terminator := by
  have hcase := atCase_drop before after
    (ParseStage.readUntilTerminator_ne_noCode name terminator.length array none)
    hstage
  have hend := Occurrence.length_le_of_first hfirst
  have hread := step_read ⟨parser, input, total, .dispatch⟩ rfl hopen hcase
  rcases Nat.lt_or_ge array.length terminator.length with hlt | hlength
  · have hfault : step (before ++ .readUntilTerminator name terminator.length
        array none :: after) ⟨parser, input, total, .scanning 0⟩ =
          .error .outOfRange := by
      refine (step_scan_plain ⟨parser, input, total, .dispatch⟩ 0
        hcase).trans ?_
      rw [scanTerminator, if_pos (by simp; omega), memcmpEqual, if_pos hlt]
      rfl
    exact absurd hcall
      (not_returned_of_fault hfault (Reaches.single hread) hdone)
  · have hscan : ∀ pos, _ := fun pos =>
      step_scan_plain ⟨parser, input, total, .dispatch⟩ pos hcase
    cases hfound : Occurrence.first (array.take terminator.length) input with
    | none =>
        have hwaits := Reaches.head hread
          (scanTerminator_waits _ hscan hlength hfound)
        have hstatus := status_unique rfl hdone hwaits hcall
        contradiction
    | some q =>
        have hnext := Reaches.head hread
          (scanTerminator_finds _ hscan hlength hfound)
        have hrest := Reaches.of_fixed (step_returned hdone) hcall hnext
        obtain ⟨data, hdata, hno⟩ := (reaches_grows hrest).buffers name
        have hkept : call.parser.buffers name =
            parser.buffers name ++ input.take q := by
          rw [hdata, hno ?_, List.append_nil]
          · exact parser.buffers_appendTo_self name (input.take q)
          · change name ∉ LoopState.fieldNames (List.drop (parser.stage + 1) _)
            rw [hstage, List.drop_length_add_append]
            exact hfresh
        have hend' := Occurrence.length_le_of_first hfound
        have htake : input.take p = input.take q :=
          List.append_cancel_left (hvalue.symm.trans hkept)
        have hlengths := congrArg List.length htake
        rw [List.length_take, List.length_take] at hlengths
        obtain rfl : p = q := by omega
        exact survives_of_prefix hconstant hlength
          (Occurrence.prefix_drop_of_first hfirst)
          (Occurrence.prefix_drop_of_first hfound)

/-- A parser that finds the message has all its literals. -/
theorem literalsSurvive_of_reaches {actions : List Action} {input : Octets}
    {fields : List (String × Octets)} {size : Nat}
    (h : ReadsMessage actions input fields size)
    (hplain : ∀ action ∈ actions, action.ReadsPlainly)
    (hnodup : (fieldNames actions).Nodup)
    {after : List ParseStage} (hafter : messageParser actions = some after)
    (before : List ParseStage) (parser : MessageParser) {total : Nat}
    (hopen : parser.complete = false) (hstage : parser.stage = before.length)
    {call : ParseCall} (hdone : call.point = .returned .complete)
    (hcall : Reaches (step (before ++ after)) ⟨parser, input, total, .dispatch⟩
      call)
    (hvalues : ∀ field ∈ fields, call.parser.buffers field.1 =
      parser.buffers field.1 ++ field.2) :
    ∀ action ∈ actions, action.LiteralsSurvive := by
  induction h generalizing before parser total after with
  | nil => exact fun _ h => absurd h List.not_mem_nil
  | @piece octets rest actions fields size _ ih =>
      rw [List.forall_mem_cons] at hplain ⊢
      obtain ⟨first, after, hfirst, hrest, rfl⟩ :=
        messageParser_cons.mp hafter
      obtain ⟨array, harray, hfirst⟩ := Option.bind_eq_some_iff.mp hfirst
      obtain rfl := Option.some.inj hfirst
      have hsurvives := staticStage_survives harray before after hopen hstage
        hdone hcall
      obtain rfl := Option.some.inj
        ((constant_of_survives hsurvives).symm.trans harray)
      have hlength : octets.length ≤ (octets ++ [0]).length := by simp
      have hstart : (octets ++ [0]).take octets.length <+: octets ++ rest := by
        rw [append_zero_take]
        exact List.prefix_append _ _
      have hnext := Reaches.of_fixed (step_returned hdone) hcall
        (matchStatic_reads hlength hstart before after parser total hopen
          hstage)
      rw [List.drop_left, ← List.singleton_append, ← List.append_assoc] at hnext
      have hnextStage : parser.nextStage.stage = (before ++
          [ParseStage.matchStaticOctets octets.length
            (octets ++ [0])]).length := by
        simp [MessageParser.nextStage, hstage]
      exact ⟨hsurvives, ih hplain.2 hnodup hrest _ parser.nextStage hopen
        hnextStage hnext hvalues⟩
  | @field terminator input value escape name actions fields first size hfield
      hreads ih =>
      rw [List.forall_mem_cons] at hplain ⊢
      obtain rfl : escape = none := hplain.1
      obtain ⟨hfresh, hnodup⟩ := List.nodup_cons.mp hnodup
      obtain ⟨p, hfirst, rfl, rfl⟩ := readsField_none_iff.mp hfield
      obtain ⟨stage, after, hstage', hrest, rfl⟩ :=
        messageParser_cons.mp hafter
      obtain ⟨array, harray, hstage'⟩ := Option.bind_eq_some_iff.mp hstage'
      obtain rfl := Option.some.inj hstage'
      rw [List.forall_mem_cons] at hvalues
      have hsurvives := readStage_survives hfirst harray before after hopen
        hstage (by rwa [LoopState.fieldNames_messageParser hrest]) hdone hcall
        hvalues.1
      obtain rfl := Option.some.inj
        ((constant_of_survives hsurvives).symm.trans harray)
      have hlength : terminator.length ≤ (terminator ++ [0]).length := by simp
      rw [← append_zero_take terminator] at hfirst
      have hnext := Reaches.of_fixed (step_returned hdone) hcall
        (readPlain_reads hlength hfirst name before after parser total hopen
          hstage)
      rw [← List.singleton_append, ← List.append_assoc] at hnext
      have hnextStage : (parser.appendTo name (input.take p)).nextStage.stage =
          (before ++ [ParseStage.readUntilTerminator name terminator.length
            (terminator ++ [0]) none]).length := by
        simp [MessageParser.nextStage, MessageParser.appendTo, hstage]
      refine ⟨⟨hsurvives, by simp⟩, ih hplain.2 hnodup hrest _
        (parser.appendTo name (input.take p)).nextStage hopen hnextStage hnext
        ?_⟩
      intro field hmem
      have hne : field.1 ≠ name := by
        rintro rfl
        rw [← hreads.names] at hfresh
        exact hfresh (List.mem_map_of_mem hmem)
      rw [hvalues.2 field hmem]
      exact congrArg (· ++ field.2)
        (parser.buffers_appendTo_ne name hne _).symm

end ParseCall

section ReadTransition

variable {eof : Bool} {data : MessageData} {actions : List Action}
  {tree : OpTreeNode} {carried bindings : Bindings} {outer : LexicalPad}
  {errno : Errno} {chunk : Octets} {output : List Octets} {w' : World}

/-- Where the interpreter reads a message, the emitted parser reads the same if
the literals in its code survive, and without escape options only then. -/
theorem parserReads_iff_literalsSurvive
    (hstring : ∀ action ∈ actions, action.TopLevelString (extractType data))
    (hnodup : (fieldNames actions).Nodup)
    (htree : generateTransitionOptree (.readTransition data actions) = .ok tree)
    (hruns : tree.RunsTo eof
      ⟨transitionPad tree data carried outer, errno, [chunk], output⟩
      (.dynamicList [.dictionary bindings]) w')
    (hoctets : ∀ name ∈ fieldNames actions, ∃ octets,
      bindings.lookup name = some (.octets octets)) :
    ((∀ action ∈ actions, action.LiteralsSurvive) →
      ParserReads data actions chunk bindings
        (chunk.length - w'.input.flatten.length)) ∧
    ((∀ action ∈ actions, action.ReadsPlainly) →
      ParserReads data actions chunk bindings
        (chunk.length - w'.input.flatten.length) →
      ∀ action ∈ actions, action.LiteralsSurvive) := by
  obtain ⟨fields, size, hreads, hunread, hfields⟩ :=
    readTransition_readsMessage hstring hnodup htree hruns hoctets
  have hsize : chunk.length - w'.input.flatten.length = size := by
    have hle := hreads.size_le
    rw [hunread, List.length_drop]
    omega
  rw [hsize]
  constructor
  · intro hsurvive
    obtain ⟨stages, hstages, hreaches⟩ :=
      ParseCall.reaches_reads hreads hsurvive
    have hread := hreaches [] .reset 0 rfl rfl
    let parser : MessageParser :=
      { MessageParser.reset.store fields with stage := stages.length }
    have hopen : parser.complete = false :=
      (MessageParser.store_members .reset fields).1
    have hdone := hread.trans (ParseCall.reaches_complete hopen rfl
      (chunk.drop size) (0 + size))
    refine ⟨stages, _, _, hstages, hdone, rfl, Nat.zero_add size,
      MessageParser.takeData_strings _ hstring, ?_, ?_⟩
    · rw [List.map_map]
      exact List.map_id _
    · intro field hfield
      obtain ⟨name, hname, rfl⟩ := List.mem_map.mp hfield
      refine ⟨_, rfl, ?_⟩
      rw [← hreads.names] at hname hnodup
      obtain ⟨read, hread, rfl⟩ := List.mem_map.mp hname
      rw [hfields read hread]
      congr 2
      exact (MessageParser.buffers_store .reset hnodup hread).symm
  · rintro hplain ⟨stages, call, taken, hstages, hcall, hdone, -, htaken,
      hnames, hvalues⟩
    refine ParseCall.literalsSurvive_of_reaches hreads hplain hnodup hstages []
      .reset rfl rfl hdone hcall ?_
    intro field hfield
    rw [MessageParser.takeData_strings call.parser hstring] at htaken
    obtain rfl := Except.ok.inj htaken
    have hname : field.1 ∈ fieldNames actions := by
      rw [← hreads.names]
      exact List.mem_map_of_mem hfield
    obtain ⟨octets, hoctets, hvalue⟩ :=
      hvalues _ (List.mem_map_of_mem hname)
    have hbound := (hfields field hfield).symm.trans hvalue
    obtain rfl := Value.octets.inj (Option.some.inj hbound)
    exact FieldData.string.inj hoctets

end ReadTransition

/-- A length that is ended by the byte 1, behind a static piece. -/
def tagData : MessageData :=
  [("length", .mk (.mk "str" none) [])]

def tagReads (piece : Octets) : List Action :=
  [.readStaticOctets piece,
    .readOctetsUntilTerminator [1] (.mk "length" none) none]

def tagTree (piece : Octets) : OpTreeNode :=
  transitionOptree [.mk (.inputOutput (.readStaticOctets piece)) [],
    lexicalPadSet "length" (readOctetsUntilTerminator [1] none)]

theorem tagReads_topLevelString {piece : Octets} (hnul : 0 ∉ piece) :
    ∀ action ∈ tagReads piece, action.TopLevelString (extractType tagData) :=
  List.forall_mem_cons.mpr ⟨hnul, List.forall_mem_singleton.mpr
    ⟨rfl, _, rfl, rfl⟩⟩

/-- The interpreter reads the length. -/
theorem tagTree_runsTo (piece : Octets) :
    ∃ bindings queue, (tagTree piece).RunsTo false
        ⟨transitionPad (tagTree piece) tagData [] (.root []), 0,
          [piece ++ [53, 1]], []⟩ (.dynamicList [.dictionary bindings])
        ⟨.child bindings (.root []), 0, queue, []⟩ ∧
      queue.flatten = [] ∧
      bindings.lookup "length" = some (.octets [53]) := by
  let pad := transitionPad (tagTree piece) tagData [] (.root [])
  obtain ⟨queue, hqueue, hpiece⟩ : ∃ queue, Holds queue [53, 1] ∧
      (OpTreeNode.mk (.inputOutput (.readStaticOctets piece)) []).Evaluates
        false ⟨pad, 0, [piece ++ [53, 1]], []⟩ (.bool true)
        ⟨pad, 0, queue, []⟩ := evaluates_readStaticOctets (Or.inl rfl)
  have hfull : queue = [[53] ++ [1] ++ []] := hqueue.of_ne_nil (by decide)
  obtain ⟨queue', hqueue', hread⟩ : ∃ queue', Holds queue' [] ∧
      (readOctetsUntilTerminator [1] none).Evaluates false
        ⟨pad, 0, queue, []⟩ (.octets [53]) ⟨pad, 0, queue', []⟩ :=
    evaluates_readOctetsUntilTerminator (by decide) hfull
  have hset := evaluates_lexicalPadSet "length" hread
  have hthrough : RunsThrough [Value.bool true, .bool false] :=
    List.forall_mem_cons.mpr ⟨rfl, List.forall_mem_singleton.mpr rfl⟩
  exact ⟨_, queue', (transitionOptree_evaluates
    (.cons hpiece rfl (.cons hset rfl (.nil _))) hthrough).runsTo,
    hqueue'.flatten, rfl⟩

/-- A piece `9=` is read alike. -/
theorem parserReads_iff_literalsSurvive_tag :
    ∃ bindings, bindings.lookup "length" = some (.octets [53]) ∧
      ParserReads tagData (tagReads [57, 61]) [57, 61, 53, 1] bindings 4 := by
  obtain ⟨bindings, queue, hruns, hqueue, hlength⟩ := tagTree_runsTo [57, 61]
  have hreads := (parserReads_iff_literalsSurvive
    (tagReads_topLevelString (by decide)) (by decide) rfl hruns
    (List.forall_mem_singleton.mpr ⟨_, hlength⟩)).1
      (List.forall_mem_cons.mpr ⟨(by decide : Survives [57, 61]),
        List.forall_mem_singleton.mpr ⟨(by decide : Survives [1]), by simp⟩⟩)
  simp only [hqueue] at hreads
  exact ⟨bindings, hlength, hreads⟩

/-- A byte 1 is printed as a hexadecimal escape that takes the 9 behind it;
the emitted parser then expects the byte 25. -/
theorem soh_piece_is_misread :
    ∃ bindings w', (tagTree [1, 57, 61]).RunsTo false
        ⟨transitionPad (tagTree [1, 57, 61]) tagData [] (.root []), 0,
          [[1, 57, 61, 53, 1]], []⟩ (.dynamicList [.dictionary bindings]) w' ∧
      generateTransitionOptree (.readTransition tagData
        (tagReads [1, 57, 61])) = .ok (tagTree [1, 57, 61]) ∧
      (∀ action ∈ tagReads [1, 57, 61],
        action.TopLevelString (extractType tagData)) ∧
      w'.input.flatten = [] ∧
      bindings.lookup "length" = some (.octets [53]) ∧
      ¬ ParserReads tagData (tagReads [1, 57, 61]) [1, 57, 61, 53, 1] bindings
        5 := by
  obtain ⟨bindings, queue, hruns, hqueue, hlength⟩ := tagTree_runsTo [1, 57, 61]
  refine ⟨bindings, _, hruns, rfl, tagReads_topLevelString (by decide), hqueue,
    hlength, ?_⟩
  rintro ⟨stages, call, fields, hstages, hcall, hdone, _⟩
  have hmisread : messageParser (tagReads [1, 57, 61]) =
      some [.matchStaticOctets 3 [25, 61, 0],
        .readUntilTerminator "length" 1 [1, 0] none] := by rfl
  obtain rfl := Option.some.inj (hstages.symm.trans hmisread)
  have herror : ParseCall.step [.matchStaticOctets 3 [25, 61, 0],
      .readUntilTerminator "length" 1 [1, 0] none]
        (.start .reset [1, 57, 61, 53, 1]) =
      .ok ((ParseCall.start .reset [1, 57, 61, 53, 1]).finish .error) := by
    rfl
  have hstatus := ParseCall.status_unique rfl hdone (Reaches.single herror)
    hcall
  contradiction

end NetworkProtocolDsl
