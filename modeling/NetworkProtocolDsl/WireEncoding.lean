/-
The bytes that stand for string fields and static pieces.

The generated writes emit them from wherever the fields are held; the generated
reads take them back from one chunk, provided that storing a field keeps the
fields that were stored before.
-/
import NetworkProtocolDsl.DualActions
import NetworkProtocolDsl.FieldAccess

namespace NetworkProtocolDsl

open Generate OpTreeNode EvaluateInOrder IdentifierReference

namespace Action

/-- A static piece, or a string field without an escape option. -/
def StringField (getType : ExtractTypeClosure) : Action → Prop
  | .readStaticOctets _ => True
  | .readOctetsUntilTerminator _ identifier escape =>
      escape = none ∧
        ∃ type, fieldType getType identifier = some type ∧
          type.name.name = "str"
  | _ => False

/-- A static piece, or a string field. -/
def StringPiece (getType : ExtractTypeClosure) : Action → Prop
  | .readStaticOctets _ => True
  | .readOctetsUntilTerminator _ identifier _ =>
      ∃ type, fieldType getType identifier = some type ∧
        type.name.name = "str"
  | _ => False

theorem StringField.stringPiece {getType : ExtractTypeClosure}
    {action : Action} (h : action.StringField getType) :
    action.StringPiece getType := by
  cases action with
  | readStaticOctets _ => trivial
  | readOctetsUntilTerminator _ _ _ => exact h.2
  | writeFromIdentifier _ _ | writeStaticOctets _ | loop _ _ _ _ =>
      exact h.elim

/-- The fields that occur on the wire. -/
def wireFields : List Action → List IdentifierReference
  | [] => []
  | .readOctetsUntilTerminator _ identifier _ :: actions =>
      identifier :: wireFields actions
  | _ :: actions => wireFields actions

/-- The bytes that stand for these values of the fields. -/
def encoding (values : IdentifierReference → Octets) : List Action → Octets
  | [] => []
  | .readStaticOctets octets :: actions => octets ++ encoding values actions
  | .readOctetsUntilTerminator terminator identifier _ :: actions =>
      values identifier ++ terminator ++ encoding values actions
  | _ :: actions => encoding values actions

/-- No value has anything to escape. -/
def Unescaped (values : IdentifierReference → Octets)
    (actions : List Action) : Prop :=
  ∀ terminator identifier escape,
    .readOctetsUntilTerminator terminator identifier (some escape) ∈ actions →
      ¬ escape.character <:+: values identifier

/-- No value can be mistaken to end before its terminator. -/
def Terminated (values : IdentifierReference → Octets)
    (actions : List Action) : Prop :=
  ∀ terminator identifier escape,
    .readOctetsUntilTerminator terminator identifier escape ∈ actions →
      Occurrence.first terminator (values identifier ++ terminator) =
        some (values identifier).length

end Action

open NetworkProtocolDsl.Action

theorem actionsToOptreenodes_cons {transition : TransitionType}
    {getType : ExtractTypeClosure} {action : Action} {actions : List Action}
    {operations : List OpTreeNode}
    (h : actionsToOptreenodes transition getType (action :: actions) =
      .ok operations) :
    ∃ operation rest, visitAction transition getType action = .ok operation ∧
      actionsToOptreenodes transition getType actions = .ok rest ∧
      operations = operation :: rest := by
  rw [actionsToOptreenodes] at h
  obtain ⟨operation, hoperation, h⟩ := bind_eq_ok h
  obtain ⟨rest, hrest, h⟩ := bind_eq_ok h
  exact ⟨operation, rest, hoperation, hrest, (Except.ok.inj h).symm⟩

/-- What has nothing to escape is written as it is. -/
theorem applyEscapeReplacement_of_absent {escape : EscapeInfo}
    {value : Octets} (h : ¬ escape.character <:+: value) :
    WriteOctetsWithEscape.applyEscapeReplacement value escape = .ok value := by
  have hfirst : Occurrence.first escape.character value = none := by
    rw [← Option.not_isSome_iff_eq_none, Occurrence.first_isSome_iff_infix]
    exact h
  cases value with
  | nil => rfl
  | cons b rest =>
      simp only [WriteOctetsWithEscape.applyEscapeReplacement,
        WriteOctetsWithEscape.replaceFrom, hfirst, List.cons_ne_nil, if_false,
        List.nil_append]

theorem readValueFromOctets_str {type : DataType}
    (htype : type.name.name = "str") (terminator : Octets)
    (escape : Option EscapeInfo) :
    readValueFromOctets type terminator escape =
      .ok (readOctetsUntilTerminator terminator escape) := by
  rw [readValueFromOctets, if_neg (by simp [htype]), if_pos htype]

section

variable {getType : ExtractTypeClosure}
  {values : IdentifierReference → Octets} {actions : List Action}
  {operations : List OpTreeNode}

/-- The generated writes emit the encoding of values that have nothing to
escape. -/
theorem writes_unescaped
    (hstring : ∀ action ∈ actions, action.StringPiece getType)
    (hplain : Unescaped values actions)
    (hoperations : actionsToOptreenodes .write getType (duals actions) =
      .ok operations)
    (w : World)
    (hpad : ∀ identifier ∈ wireFields actions,
      fieldValue w.pad identifier = .octets (values identifier)) :
    ∃ results buffers, EvaluateInOrder false operations w results
        { w with output := w.output ++ buffers } ∧
      RunsThrough results ∧ buffers.flatten = encoding values actions := by
  induction actions generalizing operations w with
  | nil =>
      obtain rfl := Except.ok.inj hoperations
      refine ⟨[], [], ?_, fun _ h => absurd h List.not_mem_nil, rfl⟩
      rw [List.append_nil]
      exact .nil w
  | cons action actions ih =>
      have hrest := fun a ha => hstring a (List.mem_cons_of_mem action ha)
      have hfirst := hstring action List.mem_cons_self
      have hplain' : Unescaped values actions :=
        fun t i e h => hplain t i e (List.mem_cons_of_mem action h)
      cases action with
      | readStaticOctets octets =>
          obtain ⟨operation, rest, hoperation, hothers, rfl⟩ :=
            actionsToOptreenodes_cons hoperations
          obtain rfl := Except.ok.inj hoperation
          obtain ⟨results, buffers, hevaluate, hthrough, hflatten⟩ :=
            ih hrest hplain' hothers
              { w with output := w.output ++ emitted octets } hpad
          refine ⟨.int32 0 :: results, emitted octets ++ buffers, ?_, ?_, ?_⟩
          · rw [← List.append_assoc]
            exact .cons (evaluates_writeStaticOctets octets) rfl hevaluate
          · exact List.forall_mem_cons.mpr ⟨rfl, hthrough⟩
          · rw [List.flatten_append, emitted_flatten, hflatten, encoding]
      | readOctetsUntilTerminator terminator identifier escape =>
          obtain ⟨type, htype, hstr⟩ := hfirst
          obtain ⟨operation, following, hoperation, hfollowing, rfl⟩ :=
            actionsToOptreenodes_cons hoperations
          obtain ⟨ending, rest, hending, hothers, rfl⟩ :=
            actionsToOptreenodes_cons hfollowing
          obtain rfl := Except.ok.inj hending
          obtain ⟨type', access, htype', hwrite, haccess⟩ :=
            visitWriteFromIdentifier_evaluates hoperation
          obtain rfl := Option.some.inj (htype.symm.trans htype')
          rw [writeOctetsFromValue, if_neg (by simp [hstr]), if_pos hstr]
            at hwrite
          obtain rfl := Except.ok.inj hwrite
          have hget := haccess false w
          rw [hpad identifier List.mem_cons_self] at hget
          obtain ⟨results, buffers, hevaluate, hthrough, hflatten⟩ :=
            ih hrest hplain' hothers
              { w with output := w.output ++ emitted (values identifier) ++
                  emitted terminator }
              (fun f hf => hpad f (List.mem_cons_of_mem identifier hf))
          have hvalue : (OpTreeNode.mk (writeOctetsOperation escape)
              [access]).Evaluates false w (.int32 0)
              { w with
                output := w.output ++ emitted (values identifier) } := by
            cases escape with
            | none => exact evaluates_writeOctets hget
            | some escape =>
                exact evaluates_writeOctetsWithEscape
                  (applyEscapeReplacement_of_absent
                    (hplain terminator identifier escape
                      List.mem_cons_self)) hget
          refine ⟨.int32 0 :: .int32 0 :: results,
            emitted (values identifier) ++ (emitted terminator ++ buffers),
            ?_, ?_, ?_⟩
          · rw [← List.append_assoc, ← List.append_assoc]
            exact .cons hvalue rfl
              (.cons (evaluates_writeStaticOctets terminator) rfl hevaluate)
          · exact List.forall_mem_cons.mpr
              ⟨rfl, List.forall_mem_cons.mpr ⟨rfl, hthrough⟩⟩
          · rw [List.flatten_append, List.flatten_append, emitted_flatten,
              emitted_flatten, hflatten, encoding, List.append_assoc]
      | writeFromIdentifier _ _ | writeStaticOctets _ | loop _ _ _ _ =>
          exact hfirst.elim

/-- The generated writes emit the encoding. -/
theorem writes_encoding
    (hstring : ∀ action ∈ actions, action.StringField getType)
    (hoperations : actionsToOptreenodes .write getType (duals actions) =
      .ok operations)
    (w : World)
    (hpad : ∀ identifier ∈ wireFields actions,
      fieldValue w.pad identifier = .octets (values identifier)) :
    ∃ results buffers, EvaluateInOrder false operations w results
        { w with output := w.output ++ buffers } ∧
      RunsThrough results ∧ buffers.flatten = encoding values actions := by
  refine writes_unescaped (fun a ha => (hstring a ha).stringPiece) ?_
    hoperations w hpad
  intro terminator identifier escape hmem
  cases (hstring _ hmem).1

/-- Once the value of a field is read the generated tree stores it, does not
stop, and keeps the invariant and the fields that hold their value. -/
def StoresFields (eof : Bool) (getType : ExtractTypeClosure)
    (values : IdentifierReference → Octets)
    (fields : List IdentifierReference) (invariant : LexicalPad → Prop) :
    Prop :=
  ∀ identifier ∈ fields, ∀ terminator operation,
    visitReadOctetsUntilTerminator getType terminator identifier none =
      .ok operation →
    ∀ (w : World) (input : List Octets), invariant w.pad →
      (readOctetsUntilTerminator terminator none).Evaluates eof w
        (.octets (values identifier)) { w with input := input } →
      ∃ old pad, old.stops = false ∧
        operation.Evaluates eof w old
          { w with pad := pad, input := input } ∧
        invariant pad ∧
        fieldValue pad identifier = .octets (values identifier) ∧
        ∀ other ∈ fields, fieldValue w.pad other = .octets (values other) →
          fieldValue pad other = .octets (values other)

/-- The generated reads take the encoding from the chunk and store the values.
-/
theorem reads_encoding {eof : Bool} {fields : List IdentifierReference}
    {invariant : LexicalPad → Prop}
    (hstores : StoresFields eof getType values fields invariant)
    (hfields : ∀ identifier ∈ wireFields actions, identifier ∈ fields)
    (hstring : ∀ action ∈ actions, action.StringField getType)
    (hoperations : actionsToOptreenodes .read getType actions =
      .ok operations)
    (hterminated : Terminated values actions) {rest : Octets}
    (hrest : rest ≠ [] ∨ ∀ terminator identifier escape,
      .readOctetsUntilTerminator terminator identifier escape ∈ actions →
        terminator ≠ [])
    {w : World} (hpad : invariant w.pad)
    (hinput : Holds w.input (encoding values actions ++ rest)) :
    ∃ results pad input, EvaluateInOrder eof operations w results
        { w with pad := pad, input := input } ∧
      RunsThrough results ∧ Holds input rest ∧ invariant pad ∧
      ∀ identifier ∈ fields, identifier ∈ wireFields actions ∨
          fieldValue w.pad identifier = .octets (values identifier) →
        fieldValue pad identifier = .octets (values identifier) := by
  induction actions generalizing operations w with
  | nil =>
      obtain rfl := Except.ok.inj hoperations
      refine ⟨[], w.pad, w.input, .nil w, fun _ h => absurd h List.not_mem_nil,
        hinput, hpad, fun identifier _ hheld => ?_⟩
      rcases hheld with hmem | hheld
      · exact absurd hmem List.not_mem_nil
      · exact hheld
  | cons action actions ih =>
      have hstring' := fun a ha => hstring a (List.mem_cons_of_mem action ha)
      have hfirst := hstring action List.mem_cons_self
      have hterminated' : Terminated values actions :=
        fun t i e h => hterminated t i e (List.mem_cons_of_mem action h)
      have hrest' := hrest.imp_right fun h t i e ha =>
        h t i e (List.mem_cons_of_mem action ha)
      obtain ⟨operation, others, hoperation, hothers, rfl⟩ :=
        actionsToOptreenodes_cons hoperations
      cases action with
      | readStaticOctets octets =>
          obtain rfl := Except.ok.inj hoperation
          rw [encoding, List.append_assoc] at hinput
          obtain ⟨input, hholds, hread⟩ := evaluates_readStaticOctets hinput
          obtain ⟨results, pad, input', hevaluate, hthrough, hholds', hinv,
            hheld⟩ := ih hfields hstring' hothers hterminated' hrest'
              (w := { w with input := input }) hpad hholds
          exact ⟨.bool true :: results, pad, input',
            .cons hread rfl hevaluate,
            List.forall_mem_cons.mpr ⟨rfl, hthrough⟩, hholds', hinv, hheld⟩
      | readOctetsUntilTerminator terminator identifier escape =>
          obtain ⟨rfl, _⟩ := hfirst
          have hvalue := hterminated terminator identifier none
            List.mem_cons_self
          have hfields' := fun i hi =>
            hfields i (List.mem_cons_of_mem identifier hi)
          have hne : encoding values
              (.readOctetsUntilTerminator terminator identifier none ::
                actions) ++ rest ≠ [] := by
            rcases hrest with hrest | hterminators
            · simp [hrest]
            · have hne := hterminators terminator identifier none
                List.mem_cons_self
              simp [encoding, hne]
          have hqueue : w.input = [values identifier ++ terminator ++
              (encoding values actions ++ rest)] := by
            rw [← List.append_assoc]
            exact hinput.of_ne_nil hne
          obtain ⟨input, hholds, hread⟩ :=
            evaluates_readOctetsUntilTerminator hvalue hqueue
          obtain ⟨old, pad, hgoes, hstore, hinv, hset, hkept⟩ := hstores
            identifier (hfields identifier List.mem_cons_self) terminator
            operation hoperation w input hpad hread
          obtain ⟨results, pad', input', hevaluate, hthrough, hholds', hinv',
            hheld⟩ := ih hfields' hstring' hothers hterminated' hrest'
              (w := { w with
                pad := pad
                input := input }) hinv hholds
          refine ⟨old :: results, pad', input', .cons hstore hgoes hevaluate,
            List.forall_mem_cons.mpr ⟨hgoes, hthrough⟩, hholds', hinv',
            fun other hother hbefore => hheld other hother ?_⟩
          rcases hbefore with hmem | hbefore
          · rcases List.mem_cons.mp hmem with rfl | hmem
            · exact Or.inr hset
            · exact Or.inl hmem
          · exact Or.inr (hkept other hother hbefore)
      | writeFromIdentifier _ _ | writeStaticOctets _ | loop _ _ _ _ =>
          exact hfirst.elim

end

end NetworkProtocolDsl
