/-
What the reader of a message takes from one chunk.

A read that is not satisfied by the chunk waits for ever, yields an error or
stores one, so a reader that comes to its end with the octets of all its fields
has read the pieces and the fields of the message one after the other.
-/
import NetworkProtocolDsl.EscapeReplacement
import NetworkProtocolDsl.MessageRoundTrip
import NetworkProtocolDsl.Obstruction
import NetworkProtocolDsl.StaticMatch

namespace NetworkProtocolDsl

open Run RunnerState Generate OpTreeNode EvaluateInOrder
open NetworkProtocolDsl.Action

/-- A fresh read of the field takes this many bytes and finds this value. -/
def ReadsField (terminator : Octets) (escape : Option EscapeInfo)
    (input value : Octets) (size : Nat) : Prop :=
  ReadOctetsUntilTerminator.handleRead terminator escape {} input =
    .ok (size, { buffer := value, ready := true })

/-- The input starts with the message: the pieces and the fields of its
actions, which take this many bytes. -/
inductive ReadsMessage :
    List Action → Octets → List (String × Octets) → Nat → Prop where
  | nil (input : Octets) : ReadsMessage [] input [] 0
  | piece {octets rest : Octets} {actions : List Action}
      {fields : List (String × Octets)} {size : Nat}
      (h : ReadsMessage actions rest fields size) :
      ReadsMessage (.readStaticOctets octets :: actions) (octets ++ rest)
        fields (octets.length + size)
  | field {terminator input value : Octets} {escape : Option EscapeInfo}
      {name : String} {actions : List Action}
      {fields : List (String × Octets)} {first size : Nat}
      (hfield : ReadsField terminator escape input value first)
      (h : ReadsMessage actions (input.drop first) fields size) :
      ReadsMessage
        (.readOctetsUntilTerminator terminator (.mk name none) escape ::
          actions) input ((name, value) :: fields) (first + size)

namespace Action

/-- A static piece without a NUL, or a field that is a string at the top
level. -/
def TopLevelString (getType : ExtractTypeClosure) : Action → Prop
  | .readStaticOctets octets => 0 ∉ octets
  | .readOctetsUntilTerminator _ identifier _ => identifier.member = none ∧
      ∃ type, getType identifier.name = some type ∧ type.name.name = "str"
  | _ => False

/-- The names of the fields, one for each read. -/
def fieldNames : List Action → List String
  | [] => []
  | .readOctetsUntilTerminator _ identifier _ :: actions =>
      identifier.name :: fieldNames actions
  | _ :: actions => fieldNames actions

theorem type_of_mem_fieldNames {getType : ExtractTypeClosure}
    {actions : List Action}
    (h : ∀ action ∈ actions, action.TopLevelString getType) {name : String}
    (hname : name ∈ fieldNames actions) :
    ∃ type, getType name = some type ∧ type.name.name = "str" := by
  induction actions with
  | nil => exact absurd hname List.not_mem_nil
  | cons action actions ih =>
      rw [List.forall_mem_cons] at h
      cases action with
      | readOctetsUntilTerminator _ identifier _ =>
          rcases List.mem_cons.mp hname with rfl | hname
          · exact h.1.2
          · exact ih h.2 hname
      | readStaticOctets _ => exact ih h.2 hname
      | writeFromIdentifier _ _ | writeStaticOctets _ | loop _ _ _ _ =>
          exact h.1.elim

end Action

theorem strncmpEqual_eq {s contents : Octets} (hnul : 0 ∉ contents)
    (hlength : s.length = contents.length)
    (h : strncmpEqual contents.length s contents = true) : s = contents :=
  eq_of_cString_eq (fun hmem => hnul (List.mem_of_mem_dropLast hmem)) hlength
    ((strncmpEqual_iff hlength).mp h)

namespace ReadOctetsUntilTerminator

/-- A read finds its field, does not come back, or consumes nothing. -/
theorem handleRead_outcome (terminator : Octets) (escape : Option EscapeInfo)
    (input : Octets) :
    (∃ value size, ReadsField terminator escape input value size) ∨
    (∃ fault, handleRead terminator escape {} input = .error fault) ∨
    ∀ ctx, ∃ read, handleRead terminator escape ctx input =
      .ok (0, { ctx with buffer := ctx.buffer ++ read }) := by
  cases escape with
  | none =>
      cases hfirst : Occurrence.first terminator input with
      | none =>
          refine Or.inr (Or.inr fun ctx => ⟨[], ?_⟩)
          simp only [handleRead, hfirst, List.append_nil]
      | some pos =>
          refine Or.inl ⟨input.take pos, pos + terminator.length, ?_⟩
          simp only [ReadsField, handleRead, hfirst]
  | some escape =>
      by_cases hfield : ∃ value size, Escape.Field terminator escape.character
          escape.sequence input value size
      · obtain ⟨value, size, hfield⟩ := hfield
        refine Or.inl ⟨value, size, ?_⟩
        rw [ReadsField, handleRead_field hfield]
        rfl
      · have hno : ∀ value size, ¬ Escape.Field terminator escape.character
            escape.sequence input value size := fun value size h =>
          hfield ⟨value, size, h⟩
        right
        by_cases hne : escape.sequence = []
        · by_cases hinput : input = []
          · refine Or.inr fun ctx => ⟨[], ?_⟩
            simp only [handleRead, scan, hinput, ↓reduceIte, List.append_nil]
          · exact Or.inl ⟨_, scan_empty_sequence hne hinput _ _ _⟩
        · refine Or.inr fun ctx => ?_
          obtain ⟨read, hread, _⟩ := handleRead_no_field hne hno ctx
          exact ⟨read, hread⟩

end ReadOctetsUntilTerminator

namespace OpTreeNode

variable {eof : Bool} {children : List OpTreeNode} {w : World}
  {operation : InputOutputOperation}

theorem readFrame_ready (children : List OpTreeNode)
    (harity : operation.arity = 0) (ctx : InputOutputOperationContext) :
    (Site.inputOutputFrame operation children [] ctx).hasArgumentsReady =
      true := by
  simp [ExecutionStackFrame.hasArgumentsReady, Site.inputOutputFrame,
    OpTreeNode.operation, Operation.arity, harity]

/-- A read that every look at the queue leaves waiting waits for ever. -/
theorem meets_neverExits_of_waiting
    (waits : InputOutputOperationContext → Prop)
    (harity : operation.arity = 0) (hstart : waits {})
    (hwaits : ∀ ctx, waits ctx → operation.readyToEvaluate ctx = false ∧
      ∃ report ctx', operation.readQueue ctx eof w.input =
        .ok (report, ctx', w.input) ∧ waits ctx') :
    (OpTreeNode.mk (.inputOutput operation) children).Meets eof NeverExits
      w := by
  have hready := readFrame_ready children harity {}
  refine ⟨⟨_, descend_of_ready hready⟩, fun site heof frames result =>
    ⟨_, Leads.refl _, ?_⟩⟩
  subst heof
  have hle : operation.arity ≤ ([] : List Value).length := by
    rw [harity]
    exact Nat.le_refl 0
  let waiting : RunnerState → Prop := fun s => ∃ ctx result, waits ctx ∧
    s = site.state (Site.inputOutputFrame operation children [] ctx :: frames)
      w result
  have hinvariant : ∀ s t, waiting s → s.pass = .ok t → waiting t := by
    rintro s t ⟨ctx, result, hctx, rfl⟩ hpass
    obtain ⟨hblocked, report, ctx', hqueue, hctx'⟩ := hwaits ctx hctx
    have hstep := site.pass_waiting result children hle hblocked frames hqueue
    exact ⟨ctx', _, hctx', Except.ok.inj (hpass.symm.trans hstep.pass)⟩
  intro t ht
  obtain ⟨ctx, result, _, rfl⟩ := Reaches.invariant hinvariant ht
    ⟨{}, result, hstart, rfl⟩
  exact site.running

/-- A read that does not come back never exits. -/
theorem meets_neverExits_of_fault (harity : operation.arity = 0)
    (hblocked : operation.readyToEvaluate {} = false) {fault : Fault}
    (hqueue : operation.readQueue {} eof w.input = .error fault) :
    (OpTreeNode.mk (.inputOutput operation) children).Meets eof NeverExits
      w := by
  have hready := readFrame_ready children harity {}
  refine ⟨⟨_, descend_of_ready hready⟩, fun site heof frames result =>
    ⟨_, Leads.refl _, ?_⟩⟩
  subst heof
  have hle : operation.arity ≤ ([] : List Value).length := by
    rw [harity]
    exact Nat.le_refl 0
  let r : Reader := ⟨operation, children, [], frames,
    (site.state [] w result).context, hle, site.running⟩
  have hpass := r.pass_eq w.errno w.input result hblocked
  have heof : r.base.eof = site.base.eof := rfl
  rw [heof, hqueue] at hpass
  apply Faulty.neverExits
  refine ⟨fault, ?_⟩
  change (InterpreterContext.pass (r.context {} w.input result)
    w.errno).map _ = _
  rw [hpass]
  rfl

/-- A read that still waits at the end of the input yields what it makes of
the end. -/
theorem evaluates_eof (harity : operation.arity = 0) (hinput : w.input = [])
    (hblocked : operation.readyToEvaluate {} = false) {value : Value}
    {ctx : InputOutputOperationContext} {errno : Errno}
    (happly : operation.apply (operation.handleEof {}) [] w.errno =
      .ok ⟨.value value, ctx, errno⟩) :
    (OpTreeNode.mk (.inputOutput operation) children).Evaluates true w value
      { w with errno := errno } := by
  have hqueue : operation.readQueue {} true w.input =
      .ok (.unblocked, operation.handleEof {}, w.input) := by
    rw [hinput]
    rfl
  exact evaluates_readQueue harity hblocked hqueue happly

/-- A read of a field finds it, yields an error at the end of the input, or
never exits. -/
theorem readOctetsUntilTerminator_outcome (terminator : Octets)
    (escape : Option EscapeInfo) {input : Octets} (hw : Holds w.input input) :
    (∃ value size rest, ReadsField terminator escape input value size ∧
      Holds rest (input.drop size) ∧
      (readOctetsUntilTerminator terminator escape).Evaluates eof w
        (.octets value) { w with input := rest }) ∨
    (∃ e, (readOctetsUntilTerminator terminator escape).Evaluates eof w
      (.runtimeError e) w) ∨
    (readOctetsUntilTerminator terminator escape).Meets eof NeverExits w := by
  rcases hw with hw | ⟨hw, _⟩
  · rcases ReadOctetsUntilTerminator.handleRead_outcome terminator escape
      input with ⟨value, size, hfield⟩ | ⟨fault, hfault⟩ | hwaits
    · have hread : (InputOutputOperation.readOctetsUntilTerminator terminator
          escape).handleRead {} input =
            .ok (size, { buffer := value, ready := true }) := hfield
      obtain ⟨rest, hrest, hevaluates⟩ : ∃ rest,
          Holds rest (input.drop size) ∧
          (readOctetsUntilTerminator terminator escape).Evaluates eof w
            (.octets value) { w with input := rest } :=
        evaluates_read rfl hw rfl hread rfl rfl
      exact Or.inl ⟨value, size, rest, hfield, hrest, hevaluates⟩
    · have hqueue : (InputOutputOperation.readOctetsUntilTerminator terminator
          escape).readQueue {} eof w.input = .error fault := by
        rw [hw]
        simp only [InputOutputOperation.readQueue,
          InputOutputOperation.handleRead, hfault]
      exact Or.inr (Or.inr (meets_neverExits_of_fault rfl rfl hqueue))
    · refine Or.inr (Or.inr (meets_neverExits_of_waiting
        (fun ctx => ctx.ready = false ∧ ctx.eof = false) rfl ⟨rfl, rfl⟩ ?_))
      rintro ctx ⟨hready, heof⟩
      obtain ⟨read, hread⟩ := hwaits ctx
      refine ⟨?_, .stillBlocked,
        { ctx with buffer := ctx.buffer ++ read }, ?_, hready, heof⟩
      · simp only [InputOutputOperation.readyToEvaluate,
          ReadOctetsUntilTerminator.readyToEvaluate, hready, heof,
          Bool.or_self]
      · rw [hw]
        simp only [InputOutputOperation.readQueue,
          InputOutputOperation.handleRead, hread, ↓reduceIte,
          InputOutputOperation.joinQueue,
          InputOutputOperation.readyToEvaluate,
          ReadOctetsUntilTerminator.readyToEvaluate, hready, heof,
          Bool.or_self, Bool.false_eq_true]
  · cases eof with
    | true => exact Or.inr (Or.inl ⟨_, evaluates_eof rfl hw rfl rfl⟩)
    | false =>
        refine Or.inr (Or.inr (meets_neverExits_of_waiting (· = {})
          rfl rfl ?_))
        rintro ctx rfl
        refine ⟨rfl, .stillBlocked, {}, ?_, rfl⟩
        rw [hw]
        rfl

/-- A read of a static piece takes it, yields an error, or never exits. -/
theorem readStaticOctets_outcome {octets : Octets} (hnul : 0 ∉ octets)
    {input : Octets} (hw : Holds w.input input) :
    (∃ rest queue, input = octets ++ rest ∧ Holds queue rest ∧
      (OpTreeNode.mk (.inputOutput (.readStaticOctets octets)) []).Evaluates
        eof w (.bool true) { w with input := queue }) ∨
    (∃ e w', (OpTreeNode.mk (.inputOutput (.readStaticOctets octets))
      []).Evaluates eof w (.runtimeError e) w') ∨
    (OpTreeNode.mk (.inputOutput (.readStaticOctets octets)) []).Meets eof
      NeverExits w := by
  by_cases hnil : octets = []
  · subst hnil
    obtain ⟨queue, hqueue, hevaluates⟩ : ∃ queue, Holds queue input ∧
        (OpTreeNode.mk (.inputOutput (.readStaticOctets [])) []).Evaluates eof
          w (.bool true) { w with input := queue } :=
      evaluates_readStaticOctets hw
    exact Or.inl ⟨input, queue, rfl, hqueue, hevaluates⟩
  · have hpositive := List.length_pos_of_ne_nil hnil
    have hblocked : (InputOutputOperation.readStaticOctets
        octets).readyToEvaluate {} = false := by
      simp only [InputOutputOperation.readyToEvaluate,
        ReadStaticOctets.readyToEvaluate, List.length_nil, Bool.or_false]
      exact decide_eq_false (by omega)
    rcases hw with hw | ⟨hw, _⟩
    · by_cases hlength : input.length < octets.length
      · refine Or.inr (Or.inr (meets_neverExits_of_waiting (· = {})
          rfl rfl ?_))
        rintro ctx rfl
        refine ⟨hblocked, .stillBlocked, {}, ?_, rfl⟩
        rw [hw]
        simp only [InputOutputOperation.readQueue,
          InputOutputOperation.handleRead, ReadStaticOctets.handleRead,
          if_pos hlength, ↓reduceIte, InputOutputOperation.joinQueue,
          hblocked, Bool.false_eq_true]
      · have hread : (InputOutputOperation.readStaticOctets octets).handleRead
            {} input = .ok (octets.length,
              { buffer := input.take octets.length }) := by
          simp only [InputOutputOperation.handleRead,
            ReadStaticOctets.handleRead, if_neg hlength]
        have htaken : (input.take octets.length).length = octets.length := by
          rw [List.length_take]
          omega
        have hready : (InputOutputOperation.readStaticOctets
            octets).readyToEvaluate { buffer := input.take octets.length } =
              true := by
          simp [InputOutputOperation.readyToEvaluate,
            ReadStaticOctets.readyToEvaluate, htaken]
        cases hequal : strncmpEqual octets.length (input.take octets.length)
            octets with
        | true =>
            have htake := strncmpEqual_eq hnul htaken hequal
            have hinput : input = octets ++ input.drop octets.length := by
              conv_lhs => rw [← List.take_append_drop octets.length input,
                htake]
            rw [hinput] at hw
            obtain ⟨queue, hqueue, hevaluates⟩ : ∃ queue,
                Holds queue (input.drop octets.length) ∧
                (OpTreeNode.mk (.inputOutput (.readStaticOctets octets))
                  []).Evaluates eof w (.bool true) { w with input := queue } :=
              evaluates_readStaticOctets (Or.inl hw)
            exact Or.inl ⟨_, queue, hinput, hqueue, hevaluates⟩
        | false =>
            have happly : (InputOutputOperation.readStaticOctets octets).apply
                { buffer := input.take octets.length } [] w.errno =
                .ok ⟨.value (.runtimeError .protocolMismatchError),
                  { buffer := input.take octets.length }, w.errno⟩ := by
              simp only [InputOutputOperation.apply, ReadStaticOctets.apply,
                htaken, Nat.lt_irrefl, ↓reduceIte, hequal, Bool.false_eq_true]
            obtain ⟨queue, _, hevaluates⟩ : ∃ queue,
                Holds queue (input.drop octets.length) ∧
                (OpTreeNode.mk (.inputOutput (.readStaticOctets octets))
                  []).Evaluates eof w
                    (.runtimeError .protocolMismatchError)
                    { w with input := queue } :=
              evaluates_read rfl hw hblocked hread hready happly
            exact Or.inr (Or.inl ⟨_, _, hevaluates⟩)
    · cases eof with
      | true =>
          have happly : (InputOutputOperation.readStaticOctets octets).apply
              ((InputOutputOperation.readStaticOctets octets).handleEof {}) []
              w.errno = .ok ⟨.value (.runtimeError .protocolMismatchError),
                { eof := true }, w.errno⟩ := by
            simp only [InputOutputOperation.apply, ReadStaticOctets.apply,
              InputOutputOperation.handleEof, List.length_nil, if_pos hpositive,
              ↓reduceIte]
          exact Or.inr (Or.inl ⟨_, _, evaluates_eof rfl hw hblocked happly⟩)
      | false =>
          refine Or.inr (Or.inr (meets_neverExits_of_waiting
            (· = {}) rfl rfl ?_))
          rintro ctx rfl
          refine ⟨hblocked, .stillBlocked, {}, ?_, rfl⟩
          rw [hw]
          rfl

end OpTreeNode

theorem ReadsMessage.names {actions : List Action} {input : Octets}
    {fields : List (String × Octets)} {size : Nat}
    (h : ReadsMessage actions input fields size) :
    fields.map Prod.fst = Action.fieldNames actions := by
  induction h with
  | nil => rfl
  | piece _ ih => exact ih
  | field _ _ ih => exact congrArg _ ih

/-- The pad after the reads: the fields hold what the input starts with, or
one of them holds an error. -/
def FieldsRead (actions : List Action) (input : Octets)
    (before after : Bindings) (unread : List Octets) : Prop :=
  (∀ name ∉ Action.fieldNames actions,
      after.lookup name = before.lookup name) ∧
    ((∃ fields size, ReadsMessage actions input fields size ∧
        Holds unread (input.drop size) ∧
        ∀ field ∈ fields, after.lookup field.1 = some (.octets field.2)) ∨
      ∃ name ∈ Action.fieldNames actions, ∃ e,
        after.lookup name = some (.runtimeError e))

/-- The nodes run through to such a world, are stopped, or never end. -/
def SequenceOutcome (eof : Bool) (operations : List OpTreeNode) (w : World)
    (ends : World → Prop) : Prop :=
  (∃ results w', EvaluateInOrder eof operations w results w' ∧
    RunsThrough results ∧ ends w') ∨
  (∃ results w', EvaluateInOrder eof operations w results w' ∧
    (DynamicInputOperation.opSequence.apply results).stops = true) ∨
  MeetsInOrder eof NeverExits operations w

namespace SequenceOutcome

variable {eof : Bool} {node : OpTreeNode} {rest : List OpTreeNode}
  {w w₁ : World} {value : Value} {ends ends' : World → Prop}

theorem stop (h : node.Evaluates eof w value w₁) (hstops : value.stops = true) :
    SequenceOutcome eof (node :: rest) w ends :=
  Or.inr (Or.inl ⟨[value], w₁, .stop h hstops, hstops⟩)

theorem meets (h : node.Meets eof NeverExits w) :
    SequenceOutcome eof (node :: rest) w ends :=
  Or.inr (Or.inr (.here h))

theorem cons (h : node.Evaluates eof w value w₁) (hgoes : value.stops = false)
    (hrest : SequenceOutcome eof rest w₁ ends)
    (hends : ∀ w', ends w' → ends' w') :
    SequenceOutcome eof (node :: rest) w ends' := by
  rcases hrest with ⟨results, w', heval, hthrough, hw'⟩ |
    ⟨results, w', heval, hstops⟩ | hmeets
  · exact Or.inl ⟨value :: results, w', .cons h hgoes heval,
      List.forall_mem_cons.mpr ⟨hgoes, hthrough⟩, hends w' hw'⟩
  · refine Or.inr (Or.inl ⟨value :: results, w', .cons h hgoes heval, ?_⟩)
    cases results with
    | nil => contradiction
    | cons next results => simpa [DynamicInputOperation.apply] using hstops
  · exact Or.inr (Or.inr (.later h hgoes hmeets))

end SequenceOutcome

/-- Storing what a read yields, be it an error, yields what was bound. -/
theorem lexicalPadSet_evaluates {eof : Bool} {child : OpTreeNode}
    {w w₁ : World} {value old : Value} {name : String} {bindings : Bindings}
    {outer : LexicalPad} (h : child.Evaluates eof w value w₁)
    (hpad : w₁.pad = .child bindings outer)
    (hold : bindings.lookup name = some old) :
    (lexicalPadSet name child).Evaluates eof w old
      { w₁ with pad := .child (Assoc.assign name value bindings) outer } := by
  have hset := evaluates_lexicalPadSet name h
  simp only [hpad] at hset
  rw [LexicalPad.set_child hold] at hset
  exact hset

namespace FieldsRead

variable {actions : List Action} {before after : Bindings}
  {unread : List Octets} {input terminator : Octets} {name : String}
  {escape : Option EscapeInfo} {old value : Value}

/-- The field itself has what was stored, and no other name has changed. -/
theorem kept_of_assign (hold : before.lookup name = some old)
    (hfresh : name ∉ Action.fieldNames actions)
    (h : ∀ other ∉ Action.fieldNames actions, after.lookup other =
      (Assoc.assign name value before).lookup other) :
    after.lookup name = some value ∧
      ∀ other ∉ name :: Action.fieldNames actions,
        after.lookup other = before.lookup other := by
  constructor
  · rw [h name hfresh, Assoc.lookup_assign_self]
    simp [hold]
  · intro other hmem
    rw [List.mem_cons, not_or] at hmem
    rw [h other hmem.2, Assoc.lookup_assign_ne hmem.1]

theorem piece (h : FieldsRead actions input before after unread)
    (octets : Octets) :
    FieldsRead (.readStaticOctets octets :: actions) (octets ++ input) before
      after unread := by
  obtain ⟨hkept, hread⟩ := h
  refine ⟨hkept, hread.imp_left ?_⟩
  rintro ⟨fields, size, hreads, hunread, hfields⟩
  refine ⟨fields, _, .piece hreads, ?_, hfields⟩
  rw [List.drop_length_add_append]
  exact hunread

theorem field {contents : Octets} {size : Nat}
    (hold : before.lookup name = some old)
    (hfresh : name ∉ Action.fieldNames actions)
    (hfield : ReadsField terminator escape input contents size)
    (h : FieldsRead actions (input.drop size)
      (Assoc.assign name (.octets contents) before) after unread) :
    FieldsRead (.readOctetsUntilTerminator terminator (.mk name none) escape ::
      actions) input before after unread := by
  obtain ⟨hkept, hread⟩ := h
  obtain ⟨hvalue, hkeeps⟩ := kept_of_assign hold hfresh hkept
  refine ⟨hkeeps, hread.imp ?_ ?_⟩
  · rintro ⟨fields, rest, hreads, hunread, hfields⟩
    refine ⟨(name, contents) :: fields, _, .field hfield hreads, ?_,
      List.forall_mem_cons.mpr ⟨hvalue, hfields⟩⟩
    rw [← List.drop_drop]
    exact hunread
  · rintro ⟨other, hmem, herror⟩
    exact ⟨other, List.mem_cons_of_mem name hmem, herror⟩

/-- A field whose read failed holds the error. -/
theorem failed {e : RuntimeError} (hold : before.lookup name = some old)
    (hfresh : name ∉ Action.fieldNames actions)
    (h : FieldsRead actions input
      (Assoc.assign name (.runtimeError e) before) after unread) :
    FieldsRead (.readOctetsUntilTerminator terminator (.mk name none) escape ::
      actions) input before after unread := by
  obtain ⟨hvalue, hkeeps⟩ := kept_of_assign hold hfresh h.1
  exact ⟨hkeeps, Or.inr ⟨name, List.mem_cons_self, e, hvalue⟩⟩

end FieldsRead

/-- What is stored, an error as well as the field, is bound for the rest. -/
theorem SequenceOutcome.store {eof : Bool} {child : OpTreeNode}
    {rest : List OpTreeNode} {w w₁ : World} {value old : Value} {name : String}
    {bindings : Bindings} {outer : LexicalPad} {ends ends' : World → Prop}
    (h : child.Evaluates eof w value w₁) (hpad : w₁.pad = .child bindings outer)
    (hold : bindings.lookup name = some old)
    (hrest : SequenceOutcome eof rest
      { w₁ with pad := .child (Assoc.assign name value bindings) outer } ends)
    (hends : ∀ w', ends w' → ends' w') :
    SequenceOutcome eof (lexicalPadSet name child :: rest) w ends' := by
  have hset := lexicalPadSet_evaluates h hpad hold
  cases hgoes : old.stops with
  | true => exact .stop hset hgoes
  | false => exact .cons hset hgoes hrest hends

theorem exists_lookup_assign {bindings : Bindings} {names : List String}
    {name : String} {old : Value} (value : Value)
    (hold : bindings.lookup name = some old)
    (hbound : ∀ other ∈ names, ∃ old, bindings.lookup other = some old) :
    ∀ other ∈ names, ∃ old,
      (Assoc.assign name value bindings).lookup other = some old := by
  intro other hmem
  by_cases hne : other = name
  · subst hne
    rw [Assoc.lookup_assign_self]
    simp [hold]
  · rw [Assoc.lookup_assign_ne hne]
    exact hbound other hmem

/-- The reads of a message run through, are stopped by an error, or never
end. -/
theorem readOperations_outcome {eof : Bool} {getType : ExtractTypeClosure}
    {actions : List Action} {operations : List OpTreeNode}
    (hstring : ∀ action ∈ actions, action.TopLevelString getType)
    (hnodup : (Action.fieldNames actions).Nodup)
    (hoperations : actionsToOptreenodes .read getType actions =
      .ok operations)
    {w : World} {bindings : Bindings} {outer : LexicalPad}
    (hpad : w.pad = .child bindings outer)
    (hbound : ∀ name ∈ Action.fieldNames actions,
      ∃ old, bindings.lookup name = some old)
    {input : Octets} (hinput : Holds w.input input) :
    SequenceOutcome eof operations w fun w' => ∃ bindings',
      w'.pad = .child bindings' outer ∧
        FieldsRead actions input bindings bindings' w'.input := by
  induction actions generalizing operations w bindings input with
  | nil =>
      obtain rfl := Except.ok.inj hoperations
      refine Or.inl ⟨[], w, .nil w, fun _ h => absurd h List.not_mem_nil,
        bindings, hpad, fun _ _ => rfl, Or.inl ⟨[], 0, .nil input, hinput, ?_⟩⟩
      exact fun _ h => absurd h List.not_mem_nil
  | cons action actions ih =>
      rw [List.forall_mem_cons] at hstring
      obtain ⟨operation, rest, hoperation, hrest, rfl⟩ :=
        actionsToOptreenodes_cons hoperations
      cases action with
      | readStaticOctets octets =>
          obtain rfl := Except.ok.inj hoperation
          rcases readStaticOctets_outcome hstring.1 hinput with
            ⟨input, queue, rfl, hqueue, heval⟩ | ⟨e, w', heval⟩ | hmeets
          · refine .cons heval rfl (ih hstring.2 hnodup hrest
              (w := { w with input := queue }) hpad hbound hqueue) ?_
            rintro w' ⟨bindings', hpad', hread⟩
            exact ⟨bindings', hpad', hread.piece octets⟩
          · exact .stop heval rfl
          · exact .meets hmeets
      | readOctetsUntilTerminator terminator identifier escape =>
          obtain ⟨name, member⟩ := identifier
          obtain ⟨hmember, type, htype, hstr⟩ := hstring.1
          obtain rfl : member = none := hmember
          obtain rfl := Except.ok.inj ((visitReadOctetsUntilTerminator_str
            htype hstr terminator escape).symm.trans hoperation)
          obtain ⟨hfresh, hnodup⟩ := List.nodup_cons.mp hnodup
          obtain ⟨old, hold⟩ := hbound name List.mem_cons_self
          have hothers : ∀ other ∈ Action.fieldNames actions,
              ∃ old, bindings.lookup other = some old :=
            fun other hmem => hbound other (List.mem_cons_of_mem name hmem)
          have hnext := fun value => exists_lookup_assign value hold hothers
          rcases readOctetsUntilTerminator_outcome terminator escape hinput
            with ⟨value, size, queue, hfield, hqueue, heval⟩ | ⟨e, heval⟩ |
              hmeets
          · refine .store heval hpad hold
              (ih hstring.2 hnodup hrest rfl (hnext _) hqueue) ?_
            rintro w' ⟨bindings', hpad', hread⟩
            exact ⟨bindings', hpad', hread.field hold hfresh hfield⟩
          · refine .store heval hpad hold
              (ih hstring.2 hnodup hrest rfl (hnext _) hinput) ?_
            rintro w' ⟨bindings', hpad', hread⟩
            exact ⟨bindings', hpad', hread.failed hold hfresh⟩
          · exact .meets (hmeets.unary rfl)
      | writeFromIdentifier _ _ | writeStaticOctets _ | loop _ _ _ _ =>
          exact hstring.1.elim

/-- A read transition that runs to the octets of all its fields has read the
message from the chunk. -/
theorem readTransition_readsMessage {eof : Bool} {data : MessageData}
    {actions : List Action} {tree : OpTreeNode}
    (hstring : ∀ action ∈ actions,
      action.TopLevelString (extractType data))
    (hnodup : (Action.fieldNames actions).Nodup)
    (htree : generateTransitionOptree (.readTransition data actions) = .ok tree)
    {carried bindings : Bindings} {outer : LexicalPad} {errno : Errno}
    {chunk : Octets} {output : List Octets} {w' : World}
    (hruns : tree.RunsTo eof
      ⟨transitionPad tree data carried outer, errno, [chunk], output⟩
      (.dynamicList [.dictionary bindings]) w')
    (hoctets : ∀ name ∈ Action.fieldNames actions, ∃ octets,
      bindings.lookup name = some (.octets octets)) :
    ∃ fields size, ReadsMessage actions chunk fields size ∧
      w'.input.flatten = chunk.drop size ∧
      ∀ field ∈ fields, bindings.lookup field.1 = some (.octets field.2) := by
  obtain ⟨operations, hoperations, htree⟩ := bind_eq_ok htree
  obtain rfl := Except.ok.inj htree
  obtain ⟨start, hpad, hlookup⟩ := transitionPad_child
    (transitionOptree operations) data carried outer
  have hbound : ∀ name ∈ Action.fieldNames actions,
      ∃ old, start.lookup name = some old := by
    intro name hname
    obtain ⟨type, htype, _⟩ := Action.type_of_mem_fieldNames hstring hname
    exact ⟨_, hlookup name type htype⟩
  have houtcome : SequenceOutcome eof operations
      ⟨transitionPad (transitionOptree operations) data carried outer, errno,
        [chunk], output⟩ _ :=
    readOperations_outcome hstring hnodup hoperations hpad hbound (Or.inl rfl)
  rcases houtcome with ⟨results, w₁, heval, hthrough, after, hafter, hread⟩ |
    ⟨results, w₁, heval, hstops⟩ | hmeets
  · obtain ⟨hvalue, rfl⟩ := hruns.unique
      (transitionOptree_evaluates heval hthrough).runsTo
    rw [hafter, LexicalPad.asDict] at hvalue
    have hsame := List.cons.inj (Value.dynamicList.inj hvalue)
    obtain rfl : bindings = after := Value.dictionary.inj hsame.1
    rcases hread.2 with ⟨fields, size, hreads, hunread, hfields⟩ |
      ⟨name, hname, e, herror⟩
    · exact ⟨fields, size, hreads, hunread.flatten, hfields⟩
    · obtain ⟨octets, hvalue⟩ := hoctets name hname
      rw [herror] at hvalue
      exact absurd (Option.some.inj hvalue) (by simp)
  · have hstopped : (transitionOptree operations).Evaluates eof _ _ w₁ :=
      EvaluateInOrder.evaluates .opSequence
        (.stop (EvaluateInOrder.evaluates .opSequence heval) hstops)
    obtain ⟨hvalue, _⟩ := hruns.unique hstopped.runsTo
    have hlist : DynamicInputOperation.opSequence.apply results =
        .dynamicList [.dictionary bindings] := hvalue.symm
    rw [hlist] at hstops
    contradiction
  · have hnever : (transitionOptree operations).Meets eof NeverExits _ :=
      MeetsInOrder.meets .opSequence (.here (MeetsInOrder.meets .opSequence
        hmeets))
    exact absurd hruns hnever.not_runsTo_of_neverExits

end NetworkProtocolDsl
