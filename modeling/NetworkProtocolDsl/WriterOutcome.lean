/-
What a generated writer can come to.

Over any pad it either writes some bytes and goes on, or comes to a state whose
next pass fails or yields an error.  What is known of the bytes that its first
actions write is known of all that it writes.
-/
import NetworkProtocolDsl.DualActions
import NetworkProtocolDsl.FieldAccess
import NetworkProtocolDsl.Obstruction

namespace NetworkProtocolDsl

open Run RunnerState Generate OpTreeNode EvaluateInOrder

/-- The next pass fails, or yields an error or a control flow instruction. -/
def RunnerState.Fails (s : RunnerState) : Prop :=
  s.Faulty ∨ s.Stumbles

/-- A state fails as well if its next pass is that of one that fails. -/
theorem RunnerState.Fails.of_pass_eq {s t : RunnerState} (h : t.Fails)
    (hpass : s.pass = t.pass) : s.Fails := by
  rcases h with ⟨fault, hfault⟩ | ⟨u, value, hu, hrest⟩
  · exact Or.inl ⟨fault, hpass.trans hfault⟩
  · exact Or.inr ⟨u, value, hpass.trans hu, hrest⟩

theorem Continuation.prepare_result {c c' : Continuation}
    {state : ContinuationState} (h : c.prepare = .ok (state, c')) :
    c'.result = c.result := by
  rcases prepare_ready h with ⟨_, _, rfl⟩ | ⟨_, _, _, rfl, _⟩
  · rfl
  · rfl

/-- A callee's value is the result of its invoker. -/
theorem Interpreter.returnTo_cases (i : Interpreter) (value : Value)
    (invoker : Continuation) (suspended : List Continuation) :
    (∃ fault, i.returnTo value invoker suspended = .error fault) ∨
      ∃ state i', i.returnTo value invoker suspended = .ok (state, i') ∧
        state ≠ .blocked ∧ i'.getResult = .value value := by
  simp only [returnTo]
  cases hprepare : Continuation.prepare _ with
  | error fault => exact Or.inl ⟨fault, rfl⟩
  | ok prepared =>
      obtain ⟨state, invoker'⟩ := prepared
      refine Or.inr ⟨state, _, rfl, ?_, ?_⟩
      · rcases Continuation.prepare_ready hprepare with ⟨_, rfl, _⟩ |
          ⟨_, _, rfl, _⟩
        · decide
        · decide
      · rw [Interpreter.getResult, Continuation.prepare_result hprepare]
        exact Continuation.setCallableReturn_result _ value

namespace ExecutionStackFrame

variable {frame : ExecutionStackFrame} {w w' : World} {value : Value}

theorem meets_of_error (hready : frame.hasArgumentsReady = true)
    {fault : Fault} (hexecute : frame.execute w.pad w.errno = .error fault)
    (eof : Bool) : frame.Meets eof Faulty w := by
  intro site _ frames result
  refine ⟨_, Leads.refl _, fault, ?_⟩
  have hprepare := site.prepare_top (w := w) result hready frames
  have hrunning := site.running
  simp only [Site.top] at hprepare
  simp only [RunnerState.pass, Site.state, Site.top, InterpreterContext.pass,
    hrunning, Bool.false_eq_true, ↓reduceIte, Interpreter.step,
    Continuation.step, hprepare, Continuation.executeTop, hexecute,
    Except.map]

/-- The pass in which a frame yields an error shows it, or fails to return it
to an invoker. -/
theorem meets_of_yields (h : frame.Yields w value w')
    (hstops : value.stops = true) (eof : Bool) : frame.Meets eof Fails w := by
  intro site _ frames result
  refine ⟨_, Leads.refl _, ?_⟩
  cases frames with
  | cons parent frames =>
      have hpass := (site.pass_yields h result parent frames).pass
      exact Or.inr ⟨_, value, hpass, rfl, hstops⟩
  | nil =>
      cases hsuspended : site.suspended with
      | nil =>
          have hpass := (site.exit_yields h result hsuspended).pass
          exact Or.inr ⟨_, value, hpass, rfl, hstops⟩
      | cons invoker suspended =>
          obtain ⟨hready, ⟨ctx, hexecute⟩, _, _⟩ := h
          have hprepare := site.prepare_top (w := w) result hready []
          have hrunning := site.running
          simp only [Site.top] at hprepare
          have hstep : (site.state [frame] w result).context.interpreter.step
              w.errno = (Interpreter.returnTo ⟨⟨[], w'.pad, .value value,
                site.inherits⟩, invoker :: suspended⟩ value invoker
                  suspended).map fun returned =>
                    (returned.1, returned.2, w'.errno) := by
            simp only [Site.state, Site.top, Interpreter.step,
              Continuation.step, hprepare, Continuation.executeTop, hexecute,
              hsuspended]
          rcases Interpreter.returnTo_cases ⟨⟨[], w'.pad, .value value,
              site.inherits⟩, invoker :: suspended⟩ value invoker suspended with
            ⟨fault, hfault⟩ | ⟨state, i, hok, hstate, hresult⟩
          · rw [hfault] at hstep
            exact Or.inl ⟨fault, pass_of_fault hrunning hstep⟩
          · rw [hok] at hstep
            obtain ⟨t, hpass, hinterpreter⟩ :=
              pass_of_step hrunning hstep hstate
            exact Or.inr ⟨t, value, hpass, hinterpreter ▸ hresult, hstops⟩

end ExecutionStackFrame

/-- A node that evaluates to an error comes to a failing state. -/
theorem OpTreeNode.Evaluates.meets_fails {eof : Bool} {node : OpTreeNode}
    {w w' : World} {value : Value} (h : node.Evaluates eof w value w')
    (hstops : value.stops = true) : node.Meets eof Fails w := by
  refine ⟨h.1, fun site heof frames result => ?_⟩
  obtain ⟨last, middle, result', hleads, hyields⟩ :=
    h.2 site heof frames result
  obtain ⟨t, ht, hfails⟩ := ExecutionStackFrame.meets_of_yields hyields
    hstops eof site heof frames result'
  exact ⟨t, hleads.trans ht, hfails⟩

/-- The node writes bytes of this kind and goes on, or comes to a failing
state. -/
def OpTreeNode.Emits (node : OpTreeNode) (kind : Octets → Prop) (w : World) :
    Prop :=
  (∃ value w' buffers, node.Evaluates false w value w' ∧
    value.stops = false ∧ w'.output = w.output ++ buffers ∧
    kind buffers.flatten) ∨
  node.Meets false Fails w

/-- The nodes do one after the other. -/
def EmitInOrder (nodes : List OpTreeNode) (kind : Octets → Prop) (w : World) :
    Prop :=
  (∃ values w' buffers, EvaluateInOrder false nodes w values w' ∧
    RunsThrough values ∧ w'.output = w.output ++ buffers ∧
    kind buffers.flatten) ∨
  MeetsInOrder false Fails nodes w

/-- Any bytes at all. -/
abbrev Anything (_ : Octets) : Prop := True

section Emits

variable {node : OpTreeNode} {nodes : List OpTreeNode}
  {kind kind' : Octets → Prop} {w : World}

/-- A node that evaluates writes, or yields an error. -/
theorem OpTreeNode.Emits.of_evaluates {value : Value} {w' : World}
    {buffers : List Octets} (h : node.Evaluates false w value w')
    (houtput : w'.output = w.output ++ buffers)
    (hkind : value.stops = false → kind buffers.flatten) :
    node.Emits kind w := by
  cases hstops : value.stops with
  | true => exact Or.inr (h.meets_fails hstops)
  | false => exact Or.inl ⟨value, w', buffers, h, hstops, houtput, hkind hstops⟩

theorem OpTreeNode.Emits.mono (h : node.Emits kind w)
    (hkind : ∀ bytes, kind bytes → kind' bytes) : node.Emits kind' w := by
  rcases h with ⟨value, w', buffers, hevaluate, hgoes, houtput, hbytes⟩ | hfails
  · exact Or.inl ⟨value, w', buffers, hevaluate, hgoes, houtput,
      hkind _ hbytes⟩
  · exact Or.inr hfails

theorem EmitInOrder.nil (hkind : kind []) : EmitInOrder [] kind w :=
  Or.inl ⟨[], w, [], .nil w, fun _ h => absurd h List.not_mem_nil, by simp,
    hkind⟩

/-- Bytes of the first kind and then any bytes are of the kind. -/
theorem EmitInOrder.cons (hfirst : node.Emits kind w)
    (hrest : ∀ w', EmitInOrder nodes kind' w')
    {both : Octets → Prop}
    (hboth : ∀ left right, kind left → kind' right → both (left ++ right)) :
    EmitInOrder (node :: nodes) both w := by
  rcases hfirst with ⟨value, w', buffers, hevaluate, hgoes, houtput, hbytes⟩ |
    hfails
  · rcases hrest w' with ⟨values, w'', buffers', hrest, hthrough, houtput',
      hbytes'⟩ | hfails
    · refine Or.inl ⟨value :: values, w'', buffers ++ buffers',
        .cons hevaluate hgoes hrest,
        List.forall_mem_cons.mpr ⟨hgoes, hthrough⟩, ?_, ?_⟩
      · rw [houtput', houtput, List.append_assoc]
      · rw [List.flatten_append]
        exact hboth _ _ hbytes hbytes'
    · exact Or.inr (.later hevaluate hgoes hfails)
  · exact Or.inr (.here hfails)

theorem EmitInOrder.opSequence (h : EmitInOrder nodes kind w) :
    (Generate.opSequence nodes).Emits kind w := by
  rcases h with ⟨values, w', buffers, hevaluate, hthrough, houtput, hbytes⟩ |
    hfails
  · exact Or.inl ⟨_, w', buffers, hevaluate.evaluates .opSequence,
      opSequence_apply_goes hthrough, houtput, hbytes⟩
  · exact Or.inr (hfails.meets .opSequence)

theorem emits_writeStaticOctets (contents : Octets) (w : World)
    (children : List OpTreeNode) :
    (OpTreeNode.mk (.inputOutput (.writeStaticOctets contents))
      children).Emits (· = contents) w :=
  .of_evaluates (evaluates_writeStaticOctets contents) rfl
    fun _ => emitted_flatten contents

/-- An operation with one argument meets what its frame meets. -/
theorem OpTreeNode.Meets.of_argument {eof : Bool} {goal : RunnerState → Prop}
    {operation : Operation} {argument : Value} {w' : World}
    (harity : operation.arity = some 1)
    (hchild : node.Evaluates eof w argument w')
    (hmeets : (ExecutionStackFrame.mk (.mk operation [node]) [argument]
      operation.initializeContext).Meets eof goal w') :
    (OpTreeNode.mk operation [node]).Meets eof goal w := by
  have hready : ∀ ctx, (ExecutionStackFrame.mk (.mk operation [node]) []
      ctx).hasArgumentsReady = false := by
    intro ctx
    simp [ExecutionStackFrame.hasArgumentsReady, OpTreeNode.operation, harity]
  obtain ⟨pushed, hdescend⟩ := hchild.1
  exact .of_fills (descend_of_child (hready _) hdescend)
    (Fills.next hready rfl hchild) hmeets

/-- A write of a value that is no string yields an error. -/
theorem evaluates_write_error {operation : InputOutputOperation}
    (harity : operation.arity = 1) {argument : Value} {w' : World}
    (hchild : node.Evaluates false w argument w') {value : Value}
    (happly : operation.apply {} [argument] w'.errno =
      .ok ⟨.value value, {}, w'.errno⟩) :
    (OpTreeNode.mk (.inputOutput operation) [node]).Evaluates false w value
      w' := by
  have hready : (Site.inputOutputFrame operation [node] [argument]
      {}).hasArgumentsReady = true := by
    simp [ExecutionStackFrame.hasArgumentsReady, Site.inputOutputFrame,
      OpTreeNode.operation, Operation.arity, harity]
  refine .unary (by rw [Operation.arity, harity]) hchild
    (.of_execute (.inputOutput {}) hready ?_ false)
  simp only [Site.inputOutputFrame, ExecutionStackFrame.execute,
    OpTreeNode.operation, happly, Except.map]

/-- The node yields a value, having written what it may, or comes to a fault.
-/
def OpTreeNode.Settles (node : OpTreeNode) (w : World) : Prop :=
  (∃ value w' buffers, node.Evaluates false w value w' ∧
    w'.output = w.output ++ buffers) ∨ node.Meets false Faulty w

theorem OpTreeNode.Settles.emits (h : node.Settles w) :
    node.Emits Anything w := by
  rcases h with ⟨value, w', buffers, hevaluate, houtput⟩ | hfaulty
  · exact .of_evaluates hevaluate houtput fun _ => trivial
  · exact .inr (hfaulty.mono fun _ => Or.inl)

theorem settles_writeOctets {value : Value} {w' : World}
    (hchild : node.Evaluates false w value w')
    (houtput : w'.output = w.output) :
    (OpTreeNode.mk (.inputOutput .writeOctets) [node]).Settles w := by
  cases value with
  | octets data =>
      have hwritten : w'.output ++ emitted data = w.output ++ emitted data := by
        rw [houtput]
      exact .inl ⟨_, _, _, evaluates_writeOctets hchild, hwritten⟩
  | bool _ | int32 _ | dictionary _ | callable _ | runtimeError _
  | controlFlowInstruction _ | dynamicList _ =>
      exact .inl ⟨_, _, [], evaluates_write_error rfl hchild rfl,
        by rw [houtput, List.append_nil]⟩

theorem settles_writeOctetsWithEscape (escape : EscapeInfo) {value : Value}
    {w' : World} (hchild : node.Evaluates false w value w')
    (houtput : w'.output = w.output) :
    (OpTreeNode.mk (.inputOutput (.writeOctetsWithEscape escape))
      [node]).Settles w := by
  cases value with
  | octets data =>
      cases hescaped : WriteOctetsWithEscape.applyEscapeReplacement data
          escape with
      | ok escaped =>
          have hwritten : w'.output ++ emitted escaped =
              w.output ++ emitted escaped := by rw [houtput]
          exact .inl ⟨_, _, _, evaluates_writeOctetsWithEscape hescaped
            hchild, hwritten⟩
      | error fault =>
          have hne : data.length ≠ 0 := by
            intro hzero
            rw [List.length_eq_zero_iff.mp hzero] at hescaped
            contradiction
          have hready : (Site.inputOutputFrame
              (.writeOctetsWithEscape escape) [node] [.octets data]
              {}).hasArgumentsReady = true := rfl
          have hexecute : (Site.inputOutputFrame
              (.writeOctetsWithEscape escape) [node] [.octets data]
              {}).execute w'.pad w'.errno = .error fault := by
            simp only [Site.inputOutputFrame, ExecutionStackFrame.execute,
              OpTreeNode.operation, InputOutputOperation.apply,
              WriteOctetsWithEscape.apply, if_neg hne, hescaped,
              List.length_nil, ↓reduceIte, Except.map]
          exact .inr (.of_argument rfl hchild
            (ExecutionStackFrame.meets_of_error hready hexecute false))
  | bool _ | int32 _ | dictionary _ | callable _ | runtimeError _
  | controlFlowInstruction _ | dynamicList _ =>
      exact .inl ⟨_, _, [], evaluates_write_error rfl hchild rfl,
        by rw [houtput, List.append_nil]⟩

/-- The generated write of a field. -/
theorem settles_writeFromIdentifier {getType : ExtractTypeClosure}
    {identifier : IdentifierReference} {escape : Option EscapeInfo}
    {tree : OpTreeNode}
    (h : visitWriteFromIdentifier getType identifier escape = .ok tree)
    (w : World) : tree.Settles w := by
  obtain ⟨type, access, _, hwrite, haccess⟩ :=
    visitWriteFromIdentifier_evaluates h
  have hsettles : ∀ (child : OpTreeNode) (value : Value),
      child.Evaluates false w value w →
      (OpTreeNode.mk (writeOctetsOperation escape) [child]).Settles w := by
    intro child value hchild
    cases escape with
    | none => exact settles_writeOctets hchild rfl
    | some escape => exact settles_writeOctetsWithEscape escape hchild rfl
  unfold writeOctetsFromValue at hwrite
  split at hwrite
  · obtain rfl := Except.ok.inj hwrite
    exact hsettles _ _ (evaluates_interpreted_unary rfl (haccess false w) rfl)
  · split at hwrite
    · obtain rfl := Except.ok.inj hwrite
      exact hsettles _ _ (haccess false w)
    · contradiction

/-- Some element's callee comes to the state once the elements before it are
done. -/
inductive Callable.MapMeets (eof : Bool) (goal : RunnerState → Prop)
    (callable : Callable) : List Value → World → Prop where
  | here {argument : Value} {arguments : List Value} {w : World} :
      callable.tree.Meets eof goal { w with
        pad := Interpreter.calleePad callable w.pad [argument] } →
      MapMeets eof goal callable (argument :: arguments) w
  | later {argument value : Value} {arguments : List Value} {w w₁ : World} :
      callable.Evaluates eof [argument] w value w₁ →
      MapMeets eof goal callable arguments w₁ →
      MapMeets eof goal callable (argument :: arguments) w

theorem meets_functionCallForEach {eof : Bool} {goal : RunnerState → Prop}
    {callable : Callable} (children : List OpTreeNode) (list : Value)
    {arguments : List Value} (h : callable.MapMeets eof goal arguments w)
    (before accumulator : List Value)
    {ctx : ControlFlowOperationContext}
    (hlength : accumulator.length = before.length)
    (happly : FunctionCallForEach.apply ctx (.callable callable) list =
      .ok (.blocked .waitingForCallableInvocation,
        { callable := some (.callable callable)
          arglist := some (before ++ arguments)
          accumulator := accumulator })) :
    (Site.controlFlowFrame (.functionCallForEach true) children
      [.callable callable, list] ctx).Meets eof goal w := by
  have harity : (ControlFlowOperation.functionCallForEach true).arity ≤
      [Value.callable callable, list].length := Nat.le_refl 2
  induction h generalizing before accumulator ctx with
  | here htree =>
      exact .of_callee children harity happly rfl
        (FunctionCallForEach.getArgumentList_next hlength _) (Or.inl rfl)
        htree
  | @later argument value arguments w w₁ hvalue hrest ih =>
      intro site heof frames result
      subst heof
      have hleads := site.leads_invocation (.functionCallForEach true)
        children [.callable callable, list] harity happly rfl
        (FunctionCallForEach.getArgumentList_next hlength _) (Or.inl rfl)
        hvalue frames result
      have hmore : arguments ≠ [] := by
        cases hrest <;> simp
      have hpositive := List.length_pos_of_ne_nil hmore
      have hagain : FunctionCallForEach.apply
          { callable := some (.callable callable)
            value := some value
            arglist := some (before ++ argument :: arguments)
            accumulator := accumulator
            callableInvoked := true } (.callable callable) list =
          .ok (.blocked .waitingForCallableInvocation,
            { callable := some (.callable callable)
              arglist := some ((before ++ [argument]) ++ arguments)
              accumulator := accumulator ++ [value] }) := by
        simp only [FunctionCallForEach.apply, ↓reduceIte, Option.getD_some,
          List.length_append, List.length_cons, List.length_nil,
          List.append_assoc, List.singleton_append]
        rw [if_pos (by omega)]
      obtain ⟨t, ht, hgoal⟩ := ih (before ++ [argument])
        (accumulator ++ [value]) (by simp [hlength]) hagain site rfl frames
        (.value value)
      exact ⟨t, hleads.trans ht, hgoal⟩

/-- Every element writes bytes and goes on, or one of them comes to a failing
state. -/
theorem mapsTo_or_meets (callable : Callable)
    (hkind : ∀ left right, kind left → kind (left ++ right))
    (htree : ∀ w, callable.tree.Emits kind w)
    (argument : Value) (arguments : List Value) (w : World) :
    (∃ values w' buffers,
      callable.MapsTo false (argument :: arguments) w values w' ∧
      w'.output = w.output ++ buffers ∧ kind buffers.flatten) ∨
    callable.MapMeets false Fails (argument :: arguments) w := by
  induction arguments generalizing argument w with
  | nil =>
      rcases htree { w with
          pad := Interpreter.calleePad callable w.pad [argument] } with
        ⟨value, w', buffers, hevaluate, _, houtput, hbytes⟩ | hfails
      · exact Or.inl ⟨_, _, buffers, .cons ⟨w', hevaluate, rfl⟩ (.nil _),
          houtput, hbytes⟩
      · exact Or.inr (.here hfails)
  | cons next arguments ih =>
      rcases htree { w with
          pad := Interpreter.calleePad callable w.pad [argument] } with
        ⟨value, w', buffers, hevaluate, _, houtput, hbytes⟩ | hfails
      · have hfirst : callable.Evaluates false [argument] w value { w' with
            pad := LexicalPad.afterCall callable.inheritsLexicalPad w.pad
              w'.pad } := ⟨w', hevaluate, rfl⟩
        rcases ih next { w' with
            pad := LexicalPad.afterCall callable.inheritsLexicalPad w.pad
              w'.pad } with
          ⟨values, w'', buffers', hmaps, houtput', _⟩ | hfails
        · refine Or.inl ⟨_, w'', buffers ++ buffers', .cons hfirst hmaps, ?_,
            ?_⟩
          · rw [houtput', ← List.append_assoc, ← houtput]
          · rw [List.flatten_append]
            exact hkind _ _ hbytes
        · exact Or.inr (.later hfirst hfails)
      · exact Or.inr (.here hfails)

/-- A loop over anything but a list of at least one element has no defined
behaviour. -/
theorem functionCallForEach_cases {first second : OpTreeNode}
    {callable : Callable} {value : Value}
    (hfirst : first.Evaluates false w (.callable callable) w)
    (hsecond : second.Evaluates false w value w) :
    (∃ argument arguments, value = .dynamicList (argument :: arguments)) ∨
      (OpTreeNode.mk (.controlFlow (.functionCallForEach true))
        [first, second]).Meets false Faulty w := by
  cases hstart : FunctionCallForEach.start {} (.callable callable) value with
  | error fault =>
      have hready := Site.controlFlowFrame_ready (.functionCallForEach true)
        [first, second] [.callable callable, value] (Nat.le_refl 2) {}
      have hexecute : (Site.controlFlowFrame (.functionCallForEach true)
          [first, second] [.callable callable, value] {}).execute w.pad
            w.errno = .error fault := by
        simp only [Site.controlFlowFrame, ExecutionStackFrame.execute,
          OpTreeNode.operation, ControlFlowOperation.apply,
          FunctionCallForEach.apply, hstart, Except.map]
      exact .inr (.binary rfl hfirst hsecond
        (ExecutionStackFrame.meets_of_error hready hexecute false))
  | ok outcome =>
      cases value with
      | dynamicList arguments =>
          cases arguments with
          | nil => exact .inr (functionCallForEach_meets_faulty hfirst hsecond)
          | cons argument arguments => exact .inl ⟨argument, arguments, rfl⟩
      | bool _ | int32 _ | dictionary _ | callable _ | runtimeError _
      | controlFlowInstruction _ | octets _ => contradiction

theorem emits_functionCallForEach {first second : OpTreeNode}
    {callable : Callable} {value : Value}
    (hkind : ∀ left right, kind left → kind (left ++ right))
    (htree : ∀ w, callable.tree.Emits kind w)
    (hfirst : first.Evaluates false w (.callable callable) w)
    (hsecond : second.Evaluates false w value w) :
    (OpTreeNode.mk (.controlFlow (.functionCallForEach true))
      [first, second]).Emits kind w := by
  rcases functionCallForEach_cases hfirst hsecond with
    ⟨argument, arguments, rfl⟩ | hfaulty
  · rcases mapsTo_or_meets callable hkind htree argument arguments w with
      ⟨values, w', buffers, hmaps, houtput, hbytes⟩ | hfails
    · have hevaluates := evaluates_functionCallForEach
        (List.cons_ne_nil argument arguments) hfirst hsecond hmaps
      exact .of_evaluates hevaluates houtput fun _ => hbytes
    · exact .inr (.binary rfl hfirst hsecond
        (meets_functionCallForEach _ _ hfails [] [] rfl rfl))
  · exact .inr (hfaulty.mono fun _ => Or.inl)

/-- The loop writes what its first element starts with. -/
theorem emits_writeLoop {operations : List OpTreeNode} (loopVariable : String)
    (collection : String) (terminator : Octets)
    (hkind : ∀ left right, kind left → kind (left ++ right))
    (hbody : ∀ w, EmitInOrder operations kind w) (w : World) :
    (writeLoop loopVariable collection terminator operations).Emits kind w := by
  have hfirst : ∀ w, (staticCallable (opSequence operations)
      [loopVariable]).Evaluates false w (.callable
        ⟨opSequence operations, [loopVariable], true⟩) w :=
    fun w => evaluates_interpreted rfl rfl
  have hcollection : (lexicalPadGet collection).Evaluates false w
      (w.pad.get collection) w := evaluates_lexicalPadGet collection
  have hloop := emits_functionCallForEach hkind
    (fun w => (hbody w).opSequence) (hfirst w) hcollection
  have hend : ∀ w, EmitInOrder
      [.mk (.inputOutput (.writeStaticOctets terminator)) []] Anything w :=
    fun w => .cons (emits_writeStaticOctets terminator w [])
      (fun w' => (.nil trivial : EmitInOrder [] Anything w'))
      fun _ _ _ _ => trivial
  exact (EmitInOrder.cons hloop hend
    fun left right hleft _ => hkind left right hleft).opSequence

end Emits

mutual

/-- Every generated write writes or fails. -/
theorem visitAction_emits {getType : ExtractTypeClosure} {action : Action}
    {operation : OpTreeNode}
    (h : visitAction .write getType action = .ok operation) (w : World) :
    operation.Emits Anything w := by
  match action with
  | .readOctetsUntilTerminator _ _ _ => contradiction
  | .readStaticOctets _ => contradiction
  | .writeFromIdentifier identifier escape =>
      exact (settles_writeFromIdentifier h w).emits
  | .writeStaticOctets octets =>
      obtain rfl := Except.ok.inj h
      exact (emits_writeStaticOctets octets w []).mono fun _ _ => trivial
  | .loop loopVariable collection terminator actions =>
      rw [visitAction] at h
      obtain ⟨wrapper, _, h⟩ := bind_eq_ok h
      obtain ⟨operations, hoperations, h⟩ := bind_eq_ok h
      obtain rfl := Except.ok.inj h
      exact emits_writeLoop _ _ _ (fun _ _ _ => trivial)
        (fun w => actionsToOptreenodes_emit hoperations w) w

theorem actionsToOptreenodes_emit {getType : ExtractTypeClosure}
    {actions : List Action} {operations : List OpTreeNode}
    (h : actionsToOptreenodes .write getType actions = .ok operations)
    (w : World) : EmitInOrder operations Anything w := by
  match actions with
  | [] =>
      obtain rfl := Except.ok.inj h
      exact .nil trivial
  | action :: actions =>
      rw [actionsToOptreenodes] at h
      obtain ⟨operation, hoperation, h⟩ := bind_eq_ok h
      obtain ⟨rest, hrest, h⟩ := bind_eq_ok h
      obtain rfl := Except.ok.inj h
      exact .cons (visitAction_emits hoperation w)
        (fun w' => actionsToOptreenodes_emit hrest w')
        fun _ _ _ _ => trivial

end

end NetworkProtocolDsl
