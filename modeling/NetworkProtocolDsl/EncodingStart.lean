/-
How the encoding of a message starts.

The reader's condition for a message is taken from its first action, and what
the writer emits meets it: the encoding starts with the static piece, or has
the terminator of its first field.
-/
import NetworkProtocolDsl.WriterOutcome

namespace NetworkProtocolDsl

open RunnerState Generate OpTreeNode EvaluateInOrder
open NetworkProtocolDsl.Action

/-- What the condition takes for the start of its message. -/
def TransitionCondition.Starts : TransitionCondition → Octets → Prop
  | .eofCondition, _ => False
  | .matchUntilTerminator terminator, bytes => terminator <:+: bytes
  | .static octets, bytes => octets <+: bytes

theorem TransitionCondition.Starts.append {condition : TransitionCondition}
    {bytes : Octets} (h : condition.Starts bytes) (more : Octets) :
    condition.Starts (bytes ++ more) := by
  cases condition with
  | eofCondition => exact h
  | matchUntilTerminator terminator =>
      exact List.IsInfix.trans h (List.prefix_append bytes more).isInfix
  | static octets => exact List.IsPrefix.trans h (List.prefix_append bytes more)

/-- What is written for a message meets the condition of its first action. -/
theorem dual_emits_starts {getType : ExtractTypeClosure} {action : Action}
    {condition : TransitionCondition}
    (hcondition : getActionCondition action = some condition)
    {rest : List Action} {operations : List OpTreeNode}
    (h : actionsToOptreenodes .write getType (dual action ++ rest) =
      .ok operations) (w : World) :
    EmitInOrder operations condition.Starts w := by
  match action with
  | .writeFromIdentifier _ _ => contradiction
  | .writeStaticOctets _ => contradiction
  | .readStaticOctets octets =>
      rw [getActionCondition] at hcondition
      rw [dual, List.singleton_append, actionsToOptreenodes] at h
      obtain ⟨operation, hoperation, h⟩ := bind_eq_ok h
      obtain ⟨others, hothers, h⟩ := bind_eq_ok h
      obtain rfl := Option.some.inj hcondition
      obtain rfl := Except.ok.inj hoperation
      obtain rfl := Except.ok.inj h
      refine .cons (emits_writeStaticOctets octets w [])
        (fun w' => actionsToOptreenodes_emit hothers w') ?_
      rintro left right rfl _
      exact List.prefix_append left right
  | .readOctetsUntilTerminator terminator identifier escape =>
      rw [getActionCondition] at hcondition
      rw [dual, List.cons_append, List.singleton_append,
        actionsToOptreenodes] at h
      obtain ⟨field, hfield, h⟩ := bind_eq_ok h
      obtain ⟨others, hothers, h⟩ := bind_eq_ok h
      rw [actionsToOptreenodes] at hothers
      obtain ⟨operation, hoperation, hothers⟩ := bind_eq_ok hothers
      obtain ⟨others', hothers', hothers⟩ := bind_eq_ok hothers
      obtain rfl := Option.some.inj hcondition
      obtain rfl := Except.ok.inj hoperation
      obtain rfl := Except.ok.inj hothers
      obtain rfl := Except.ok.inj h
      have hterminator : ∀ w', EmitInOrder
          (.mk (.inputOutput (.writeStaticOctets terminator)) [] :: others')
          (terminator <+: ·) w' := by
        intro w'
        refine .cons (emits_writeStaticOctets terminator w' [])
          (fun w'' => actionsToOptreenodes_emit hothers' w'') ?_
        rintro left right rfl _
        exact List.prefix_append left right
      refine .cons (visitAction_emits hfield w) hterminator ?_
      intro left right _ hright
      exact List.IsInfix.trans (List.IsPrefix.isInfix hright)
        (List.suffix_append left right).isInfix
  | .loop _ _ _ [] => contradiction
  | .loop loopVariable collection terminator (first :: actions) =>
      rw [getActionCondition] at hcondition
      rw [dual, List.singleton_append, actionsToOptreenodes] at h
      obtain ⟨operation, hoperation, h⟩ := bind_eq_ok h
      obtain ⟨others, hothers, h⟩ := bind_eq_ok h
      rw [visitAction] at hoperation
      obtain ⟨wrapper, _, hoperation⟩ := bind_eq_ok hoperation
      obtain ⟨body, hbody, hoperation⟩ := bind_eq_ok hoperation
      obtain rfl := Except.ok.inj hoperation
      obtain rfl := Except.ok.inj h
      rw [duals] at hbody
      have hkind : ∀ left right, condition.Starts left →
          condition.Starts (left ++ right) := fun _ right hleft =>
        hleft.append right
      have hloop := emits_writeLoop loopVariable.name collection.name
        terminator hkind (fun w => dual_emits_starts hcondition hbody w) w
      exact .cons hloop (fun w' => actionsToOptreenodes_emit hothers w')
        fun left right hleft _ => hkind left right hleft

/-- A transition writes what its actions write. -/
theorem transitionOptree_emits {operations : List OpTreeNode}
    {kind : Octets → Prop} {w : World} (h : EmitInOrder operations kind w)
    (hkind : ∀ left right, kind left → kind (left ++ right)) :
    (transitionOptree operations).Emits kind w := by
  have hdictionary : ∀ w', EmitInOrder [.mk (.dynamicInput .dynamicList)
      [.mk (.lexicalPad .lexicalPadAsDict) []]] Anything w' := by
    intro w'
    have hdict : (OpTreeNode.mk (.dynamicInput .dynamicList)
        [.mk (.lexicalPad .lexicalPadAsDict) []]).Evaluates false w'
          (.dynamicList [w'.pad.asDict]) w' :=
      EvaluateInOrder.evaluates .dynamicList
        (.cons evaluates_lexicalPadAsDict rfl (.nil w'))
    have hemits : (OpTreeNode.mk (.dynamicInput .dynamicList)
        [.mk (.lexicalPad .lexicalPadAsDict) []]).Emits Anything w' :=
      .of_evaluates hdict (List.append_nil w'.output).symm fun _ => trivial
    exact .cons hemits
      (fun w'' => (.nil trivial : EmitInOrder [] Anything w''))
      fun _ _ _ _ => trivial
  exact (EmitInOrder.cons h.opSequence hdictionary
    fun left right hleft _ => hkind left right hleft).opSequence

/-- The last pass yielded an error or a control flow instruction. -/
def RunnerState.stumbled (s : RunnerState) : Bool :=
  match s.context.interpreter.getResult with
  | .value value => value.stops
  | .blocked _ => false

theorem RunnerState.not_stumbles {s t : RunnerState} (hpass : s.pass = .ok t)
    (hgoes : t.stumbled = false) : ¬ s.Stumbles := by
  rintro ⟨u, value, hu, hresult, hstops⟩
  obtain rfl := Except.ok.inj (hpass.symm.trans hu)
  rw [stumbled, hresult] at hgoes
  exact absurd hstops (Bool.eq_false_iff.mp hgoes)

/-- The writer runs over the pad to its end, no operation of it yields an
error, and this is what it has written. -/
def OpTreeNode.Encodes (writeTree : OpTreeNode) (pad : LexicalPad)
    (encoding : Octets) : Prop :=
  ∃ errno input result w',
    writeTree.RunsTo false ⟨pad, errno, input, []⟩ result w' ∧
    w'.output.flatten = encoding ∧
    ∀ s, (evaluating writeTree ⟨pad, errno, input, []⟩ false).Passes s →
      ¬ s.Stumbles

theorem OpTreeNode.Encodes.of_emits {writeTree : OpTreeNode}
    {pad : LexicalPad} {encoding : Octets} (h : writeTree.Encodes pad encoding)
    {kind : Octets → Prop} (hemits : ∀ w, writeTree.Emits kind w) :
    kind encoding := by
  obtain ⟨errno, input, result, w', hruns, rfl, hclean⟩ := h
  rcases hemits ⟨pad, errno, input, []⟩ with
    ⟨value, w'', buffers, hevaluate, _, houtput, hkind⟩ | hfails
  · obtain ⟨_, rfl⟩ := hruns.unique hevaluate.runsTo
    rw [houtput, List.nil_append]
    exact hkind
  · obtain ⟨s, t, hs, hpass, hfails⟩ := hfails.passes
    rcases hfails.of_pass_eq hpass with hfaulty | hstumbles
    · exact absurd hfaulty (hruns.not_faulty hs)
    · exact absurd hstumbles (hclean s hs)

/-- What this many passes write, if they come to the end without an error. -/
def RunnerState.encoding? : Nat → RunnerState → Option Octets
  | 0, s =>
      if s.context.exited = true ∧ s.context.interpreterResult.isSome = true ∧
          s.stumbled = false then
        some s.context.outputBuffer.flatten
      else none
  | n + 1, s =>
      match s.pass with
      | .ok t => if t.stumbled then none else t.encoding? n
      | .error _ => none

theorem RunnerState.encoding?_sound {n : Nat} {s : RunnerState}
    {encoding : Octets} (h : s.encoding? n = some encoding) :
    (∃ t result, s.Passes t ∧ t.context.exited = true ∧
        t.context.interpreterResult = some result ∧
        t.context.outputBuffer.flatten = encoding) ∧
      ∀ u, s.Passes u → ¬ u.Stumbles := by
  induction n generalizing s with
  | zero =>
      rw [encoding?] at h
      split at h
      · rename_i hend
        obtain ⟨hexited, hresult, hgoes⟩ := hend
        obtain ⟨result, hresult⟩ := Option.isSome_iff_exists.mp hresult
        have hfixed := pass_of_exited hexited
        constructor
        · exact ⟨s, result, .refl s, hexited, hresult, Option.some.inj h⟩
        · intro u hu
          obtain rfl := Run.Reaches.eq_of_fixed hfixed hu
          exact not_stumbles hfixed hgoes
      · contradiction
  | succ n ih =>
      rw [encoding?] at h
      split at h
      · rename_i t hpass
        split at h
        · contradiction
        · rename_i hgoes
          obtain ⟨⟨v, result, hv, hrest⟩, hclean⟩ := ih h
          constructor
          · exact ⟨v, result, .head hpass hv, hrest⟩
          · intro u hu
            rcases Relation.ReflTransGen.cases_head hu with rfl | ⟨t', ht, hu⟩
            · exact not_stumbles hpass ((Bool.not_eq_true _).mp hgoes)
            · obtain rfl := Except.ok.inj (hpass.symm.trans ht)
              exact hclean u hu
      · contradiction

theorem OpTreeNode.encodes_of_encoding? {writeTree : OpTreeNode}
    {pad : LexicalPad} {encoding : Octets} (n : Nat)
    (h : (evaluating writeTree ⟨pad, 0, [], []⟩ false).encoding? n =
      some encoding) : writeTree.Encodes pad encoding := by
  obtain ⟨⟨t, result, ht, hexited, hresult, houtput⟩, hclean⟩ :=
    encoding?_sound h
  exact ⟨0, [], result, ⟨t.context.interpreter.top.pad, t.errno,
    t.context.inputBuffer, t.context.outputBuffer⟩,
    ⟨t, ht, hexited, hresult, rfl, rfl, rfl, rfl⟩, houtput, hclean⟩

end NetworkProtocolDsl
