/-
A generated program runs in its scopes.

Every frame of every continuation stands for a well-scoped tree whose names
the pad binds.  A callable of the generator hangs below the pad of its
invoker, where the names around it stay bound until it returns.
-/
import NetworkProtocolDsl.RunnerState
import NetworkProtocolDsl.ScopedFrame

namespace NetworkProtocolDsl

open Run Generate

/-- The frames of a tree that runs, topmost first: each waits for the value of
the one above it. -/
inductive Stacked (pad : LexicalPad) (node : OpTreeNode) :
    List ExecutionStackFrame → Prop where
  | bottom {frame : ExecutionStackFrame} (hnode : frame.optreenode = node)
      (hframe : ScopedFrame pad frame) : Stacked pad node [frame]
  | push {frame parent : ExecutionStackFrame}
      {frames : List ExecutionStackFrame}
      (hbelow : Stacked pad node (parent :: frames))
      (hwaits : parent.hasArgumentsReady = false)
      (hnext : parent.nextOp = .ok frame.optreenode)
      (hframe : ScopedFrame pad frame) :
      Stacked pad node (frame :: parent :: frames)

namespace Stacked

variable {pad pad' : LexicalPad} {node : OpTreeNode}
  {frame frame' : ExecutionStackFrame} {frames stack : List ExecutionStackFrame}

theorem grows (h : Stacked pad node stack) (hgrows : pad.Grows pad') :
    Stacked pad' node stack := by
  induction h with
  | bottom hnode hframe => exact .bottom hnode (hframe.grows hgrows)
  | push _ hwaits hnext hframe ih =>
      exact .push ih hwaits hnext (hframe.grows hgrows)

theorem scopedFrame (h : Stacked pad node stack) (hmem : frame ∈ stack) :
    ScopedFrame pad frame := by
  induction h with
  | bottom _ hframe =>
      obtain rfl := List.mem_singleton.mp hmem
      exact hframe
  | push _ _ _ hframe ih =>
      rcases List.mem_cons.mp hmem with rfl | hmem
      · exact hframe
      · exact ih hmem

/-- Another frame of the same tree on top. -/
theorem replace (h : Stacked pad node (frame :: frames))
    (hnode : frame'.optreenode = frame.optreenode)
    (hframe : ScopedFrame pad frame') :
    Stacked pad node (frame' :: frames) := by
  cases h with
  | bottom hbottom _ => exact .bottom (hnode.trans hbottom) hframe
  | push hbelow hwaits hnext _ =>
      exact .push hbelow hwaits (hnode ▸ hnext) hframe

/-- Preparing a fresh frame never fails. -/
theorem descend (child : OpTreeNode) {frames : List ExecutionStackFrame}
    (h : Stacked pad node (ExecutionStackFrame.new child :: frames)) :
    ∃ pushed, child.descend = .ok pushed ∧
      Stacked pad node (pushed ++ frames) := by
  match child with
  | .mk operation [] =>
      have hready : (ExecutionStackFrame.new (.mk operation
          [])).hasArgumentsReady = true := by
        by_contra hwaits
        obtain ⟨child, _, _, hnext, _⟩ :=
          (h.scopedFrame List.mem_cons_self).nextOp
            (Bool.eq_false_iff.mpr hwaits)
        contradiction
      refine ⟨[_], ?_, h⟩
      simp only [OpTreeNode.descend, hready, ↓reduceIte]
  | .mk operation (first :: children) =>
      by_cases hready : (ExecutionStackFrame.new (.mk operation
          (first :: children))).hasArgumentsReady = true
      · refine ⟨[_], ?_, h⟩
        simp only [OpTreeNode.descend, hready, ↓reduceIte]
      · have hwaits := Bool.eq_false_iff.mpr hready
        obtain ⟨child, place, scope, hnext, hscoped, hnames⟩ :=
          (h.scopedFrame List.mem_cons_self).nextOp hwaits
        obtain rfl : first = child := Except.ok.inj hnext
        obtain ⟨pushed, hdescend, hstack⟩ := descend first
          (.push h hwaits hnext (.new hscoped hnames))
        refine ⟨pushed ++ [ExecutionStackFrame.new
          (.mk operation (first :: children))], ?_, ?_⟩
        · simp only [OpTreeNode.descend, hwaits, Bool.false_eq_true,
            ↓reduceIte, hdescend]
        · rw [List.append_assoc]
          exact hstack

end Stacked

namespace Continuation

variable {c c' : Continuation} {node : OpTreeNode}

/-- What a step of a continuation keeps of every tree it may run. -/
structure Keeps (c c' : Continuation) : Prop where
  pad : c.pad.Grows c'.pad
  inherits : c'.inheritsLexicalPad = c.inheritsLexicalPad
  stacked : ∀ node, Stacked c.pad node c.stack → Stacked c'.pad node c'.stack

theorem Keeps.refl (c : Continuation) : c.Keeps c :=
  ⟨.refl _, rfl, fun _ h => h⟩

theorem Keeps.trans {c'' : Continuation} (h : c.Keeps c')
    (h' : c'.Keeps c'') : c.Keeps c'' :=
  ⟨h.pad.trans h'.pad, h'.inherits.trans h.inherits,
    fun node hstack => h'.stacked node (h.stacked node hstack)⟩

/-- Preparing the stack of a running tree never fails. -/
theorem prepare_of_stacked (h : Stacked c.pad node c.stack) :
    ∃ frame frames, c.prepare = .ok (.ready, { c with
        stack := frame :: frames }) ∧ frame.hasArgumentsReady = true ∧
      c.Keeps { c with stack := frame :: frames } := by
  cases hstack : c.stack with
  | nil =>
      rw [hstack] at h
      cases h
  | cons frame frames =>
      by_cases hready : frame.hasArgumentsReady = true
      · refine ⟨frame, frames, ?_, hready, ?_⟩
        · rw [prepare_of_ready hstack hready, ← hstack]
        · rw [← hstack]
          exact .refl c
      · have hwaits := Bool.eq_false_iff.mpr hready
        rw [hstack] at h
        obtain ⟨child, place, scope, hnext, hscoped, hnames⟩ :=
          (h.scopedFrame List.mem_cons_self).nextOp hwaits
        have hnew : ScopedFrame c.pad (ExecutionStackFrame.new child) :=
          .new hscoped hnames
        obtain ⟨pushed, hdescend, _⟩ :=
          Stacked.descend child (.push h hwaits hnext hnew)
        obtain ⟨top, below, rfl, htop⟩ := OpTreeNode.descend_ready hdescend
        refine ⟨top, below ++ frame :: frames, ?_, htop, .refl _, rfl, ?_⟩
        · simp only [prepare, hstack, hwaits, Bool.false_eq_true, ↓reduceIte,
            hnext, hdescend, List.cons_append]
        · intro node' h'
          rw [hstack] at h'
          obtain ⟨pushed', hdescend', hstacked⟩ :=
            Stacked.descend child (.push h' hwaits hnext hnew)
          rw [← Except.ok.inj (hdescend.symm.trans hdescend')] at hstacked
          exact hstacked

/-- The topmost frame of a running tree is evaluated without a failed
assertion. -/
theorem executeTop_ne_assertion {frame : ExecutionStackFrame}
    {frames : List ExecutionStackFrame} (hstack : c.stack = frame :: frames)
    (hready : frame.hasArgumentsReady = true)
    (h : Stacked c.pad node c.stack) (errno : Errno) :
    c.executeTop errno ≠ .error .assertion := by
  rw [hstack] at h
  have hne := (h.scopedFrame List.mem_cons_self).execute_ne_assertion hready
    errno
  simp only [executeTop, hstack]
  split
  · rename_i fault hexecute
    intro heq
    rw [Except.error.inj heq] at hexecute
    exact hne hexecute
  · intro heq
    cases heq
  · split
    · intro heq
      cases heq
    · intro heq
      cases heq

/-- What the evaluation of the topmost frame leaves of a running tree. -/
theorem executeTop_keeps {frame : ExecutionStackFrame}
    {frames : List ExecutionStackFrame} (hstack : c.stack = frame :: frames)
    (hframe : ScopedFrame c.pad frame) {errno errno' : Errno}
    {state : ContinuationState}
    (h : c.executeTop errno = .ok (state, c', errno')) :
    c.pad.Grows c'.pad ∧ c'.inheritsLexicalPad = c.inheritsLexicalPad ∧
      (state = .exited ∧ (∃ value, c'.result = .value value) ∨
        state ≠ .exited ∧ c.Keeps c') := by
  simp only [executeTop, hstack] at h
  split at h
  · contradiction
  · rename_i reason ctx pad errno'' hexecute
    obtain ⟨rfl, hpair⟩ := Prod.mk.inj (Except.ok.inj h)
    obtain ⟨rfl, _⟩ := Prod.mk.inj hpair
    have hgrows := ExecutionStackFrame.execute_grows hexecute
    have hblocked := hframe.execute_blocked hexecute rfl
    refine ⟨hgrows, rfl, Or.inr ⟨by decide, hgrows, rfl, fun node hnode => ?_⟩⟩
    rw [hstack] at hnode
    exact (hnode.grows hgrows).replace rfl hblocked
  · rename_i value ctx pad errno'' hexecute
    have hgrows := ExecutionStackFrame.execute_grows hexecute
    cases frames with
    | nil =>
        obtain ⟨rfl, hpair⟩ := Prod.mk.inj (Except.ok.inj h)
        obtain ⟨rfl, _⟩ := Prod.mk.inj hpair
        exact ⟨hgrows, rfl, Or.inl ⟨rfl, value, rfl⟩⟩
    | cons parent frames =>
        obtain ⟨rfl, hpair⟩ := Prod.mk.inj (Except.ok.inj h)
        obtain ⟨rfl, _⟩ := Prod.mk.inj hpair
        refine ⟨hgrows, rfl,
          Or.inr ⟨by decide, hgrows, rfl, fun node hnode => ?_⟩⟩
        rw [hstack] at hnode
        cases hnode with
        | push hbelow _ hnext _ =>
            have hparent := hbelow.scopedFrame List.mem_cons_self
            refine (hbelow.grows hgrows).replace rfl
              (hparent.pushBack hnext hgrows
                (fun _ hname =>
                  ExecutionStackFrame.execute_binds hexecute hname)
                fun tree names hcallable => ?_)
            have hvalue :=
              ExecutionStackFrame.execute_staticCallable hcallable hexecute
            exact OperationResult.value.inj hvalue

/-- An operation on top that invokes callables has one to invoke. -/
def HasCallable (c : Continuation) : Prop :=
  ∀ operation children args ctx below, c.stack =
      ⟨.mk (.controlFlow operation) children, args, .controlFlow ctx⟩ ::
        below →
    ctx.callable.isSome = true

theorem executeTop_hasCallable {frame : ExecutionStackFrame}
    {frames : List ExecutionStackFrame} (hstack : c.stack = frame :: frames)
    (hframe : ScopedFrame c.pad frame) {errno errno' : Errno}
    (h : c.executeTop errno = .ok (.blocked, c', errno')) :
    c'.HasCallable := by
  simp only [executeTop, hstack] at h
  split at h
  · contradiction
  · rename_i reason ctx pad errno'' hexecute
    obtain ⟨_, hpair⟩ := Prod.mk.inj (Except.ok.inj h)
    obtain ⟨rfl, _⟩ := Prod.mk.inj hpair
    intro operation children args ctx' below hbelow
    obtain ⟨hhead, _⟩ := List.cons.inj hbelow
    obtain ⟨hnode, hargs, hctx⟩ := ExecutionStackFrame.mk.inj hhead
    obtain ⟨node, accumulator, before⟩ := frame
    obtain rfl : node = .mk (.controlFlow operation) children := hnode
    obtain rfl : ctx = .controlFlow ctx' := hctx
    cases before with
    | none | callback _ | inputOutput _ => contradiction
    | controlFlow before =>
        obtain ⟨⟨result, after⟩, happly, heq⟩ := map_eq_ok hexecute
        obtain ⟨hresult, hafter, _⟩ := Execution.mk.inj heq
        obtain rfl : result = .blocked reason := hresult
        rw [← OperationContext.controlFlow.inj hafter]
        exact hframe.holdsCallable happly
  · split at h
    · cases h
    · cases h

/-- One step of a running tree. -/
theorem step_keeps (hstacked : Stacked c.pad node c.stack)
    {errno errno' : Errno} {state : ContinuationState}
    (h : c.step errno = .ok (state, c', errno')) :
    c.pad.Grows c'.pad ∧ c'.inheritsLexicalPad = c.inheritsLexicalPad ∧
      (state = .exited ∧ (∃ value, c'.result = .value value) ∨
        state ≠ .exited ∧ c.Keeps c' ∧
          (state = .blocked → c'.HasCallable)) := by
  obtain ⟨frame, frames, hprepare, _, hkeeps⟩ := prepare_of_stacked hstacked
  have hframe : ScopedFrame c.pad frame :=
    (hkeeps.stacked node hstacked).scopedFrame List.mem_cons_self
  simp only [step, hprepare] at h
  obtain ⟨hgrows, hinherits, hexited | ⟨hstate, hexecuted⟩⟩ :=
    executeTop_keeps (c := { c with stack := frame :: frames }) rfl hframe h
  · exact ⟨hgrows, hinherits, Or.inl hexited⟩
  · refine ⟨hgrows, hinherits,
      Or.inr ⟨hstate, hkeeps.trans hexecuted, fun hblocked => ?_⟩⟩
    rw [hblocked] at h
    exact executeTop_hasCallable (c := { c with stack := frame :: frames }) rfl
      hframe h

theorem step_ne_assertion (hstacked : Stacked c.pad node c.stack)
    (errno : Errno) : c.step errno ≠ .error .assertion := by
  obtain ⟨frame, frames, hprepare, hready, hkeeps⟩ :=
    prepare_of_stacked hstacked
  simp only [step, hprepare]
  exact executeTop_ne_assertion rfl hready (hkeeps.stacked node hstacked) errno

/-- A change of the context of the topmost operation that leaves what it
invokes as it is. -/
theorem keeps_modifyControlFlow
    (f : ControlFlowOperation → ControlFlowOperationContext →
      ControlFlowOperationContext)
    (hf : ∀ operation ctx, (f operation ctx).callable = ctx.callable ∧
      (f operation ctx).additionalInfo = ctx.additionalInfo ∧
      (f operation ctx).accumulator = ctx.accumulator)
    (c : Continuation) : c.Keeps (c.modifyControlFlow f) := by
  unfold modifyControlFlow
  split
  · rename_i operation children args ctx below hstack
    refine ⟨.refl _, rfl, fun node hnode => ?_⟩
    rw [hstack] at hnode
    have hframe := hnode.scopedFrame List.mem_cons_self
    refine hnode.replace rfl ⟨hframe.scope, hframe.callables, ?_⟩
    obtain ⟨hcallable, hinfo, haccumulator⟩ := hf operation ctx
    exact hframe.context.congr hcallable hinfo haccumulator
  · exact .refl c

end Continuation

/-- The callable is that of the operation on top. -/
theorem Continuation.getCallable_eq_ok {c : Continuation} {callable : Callable}
    (h : c.getCallable = .ok (.callable callable)) :
    ∃ operation children args ctx below, c.stack =
        ⟨.mk (.controlFlow operation) children, args, .controlFlow ctx⟩ ::
          below ∧
      ctx.callable = some (.callable callable) := by
  unfold getCallable at h
  split at h
  · rename_i operation children args ctx below hstack
    refine ⟨operation, children, args, ctx, below, hstack, ?_⟩
    unfold ControlFlowOperation.getCallable at h
    split at h
    · rename_i value hvalue
      rw [hvalue, Except.ok.inj h]
    · contradiction
  · cases h

theorem Continuation.HasCallable.getCallable {c : Continuation}
    (h : c.HasCallable) : ∃ value, c.getCallable = .ok value := by
  unfold Continuation.getCallable
  split
  · rename_i operation children args ctx below hstack
    obtain ⟨value, hvalue⟩ := Option.isSome_iff_exists.mp
      (h operation children args ctx below hstack)
    exact ⟨value, by simp only [ControlFlowOperation.getCallable, hvalue]⟩
  · exact ⟨_, rfl⟩

theorem Continuation.getArgumentList_ne_assertion (c : Continuation) :
    c.getArgumentList ≠ .error .assertion := by
  unfold Continuation.getArgumentList
  split
  · unfold ControlFlowOperation.getArgumentList
    split
    · unfold FunctionCallForEach.getArgumentList
      split
      · intro heq
        cases heq
      · split
        · intro heq
          cases heq
        · split
          · intro heq
            cases heq
          · split
            · intro heq
              cases heq
            · intro heq
              cases heq
    · intro heq
      cases heq
    · intro heq
      cases heq
  · intro heq
    cases heq

theorem Continuation.keeps_setCallableInvoked (c : Continuation) :
    c.Keeps c.setCallableInvoked :=
  keeps_modifyControlFlow ControlFlowOperation.setCallableInvoked
    (fun _ _ => ⟨rfl, rfl, rfl⟩) c

theorem Continuation.keeps_setCallableReturn (c : Continuation)
    (value : Value) : c.Keeps (c.setCallableReturn value) := by
  have hresult : c.Keeps { c with result := .value value } :=
    ⟨.refl _, rfl, fun _ h => h⟩
  exact hresult.trans (keeps_modifyControlFlow
    (fun operation ctx => operation.setCallableReturn ctx value)
    (fun _ _ => ⟨rfl, rfl, rfl⟩) _)

/-- The topmost operation of the continuation invoked this callable. -/
def Continuation.Invoked (invoker : Continuation) (callable : Callable) :
    Prop :=
  ∃ operation children args ctx below, invoker.stack =
      ⟨.mk (.controlFlow operation) children, args, .controlFlow ctx⟩ ::
        below ∧
    ctx.callable = some (.callable callable) ∧ ctx.callableInvoked = true

/-- The pad of a callee hangs below the pad of its invoker, which has grown
since. -/
def Continuation.HangsBelow (callee invoker : Continuation) : Prop :=
  callee.inheritsLexicalPad = true ∧ ∃ bindings parent,
    callee.pad = .child bindings parent ∧ invoker.pad.Grows parent

/-- The continuations of a program that runs: the last one runs the program,
every other one the callable the one below it invoked. -/
inductive Active (program : OpTreeNode) :
    Continuation → List Continuation → Prop where
  | program {c : Continuation} (hstacked : Stacked c.pad program c.stack) :
      Active program c []
  | callee {c invoker : Continuation} {suspended : List Continuation}
      {callable : Callable} (hinvoker : Active program invoker suspended)
      (hinvoked : invoker.Invoked callable) (hhangs : c.HangsBelow invoker)
      (hstacked : Stacked c.pad callable.tree c.stack) :
      Active program c (invoker :: suspended)

namespace Active

variable {program : OpTreeNode} {c c' : Continuation}
  {suspended : List Continuation}

theorem stacked (h : Active program c suspended) :
    ∃ node, Stacked c.pad node c.stack := by
  cases h with
  | program hstacked => exact ⟨program, hstacked⟩
  | callee _ _ _ hstacked => exact ⟨_, hstacked⟩

theorem scopedFrame (h : Active program c suspended)
    {continuation : Continuation} (hmem : continuation ∈ c :: suspended)
    {frame : ExecutionStackFrame}
    (hframe : frame ∈ continuation.stack) :
    ScopedFrame continuation.pad frame := by
  induction h with
  | program hstacked =>
      obtain rfl := List.mem_singleton.mp hmem
      exact hstacked.scopedFrame hframe
  | callee _ _ _ hstacked ih =>
      rcases List.mem_cons.mp hmem with rfl | hmem
      · exact hstacked.scopedFrame hframe
      · exact ih hmem

theorem keeps (h : Active program c suspended) (hkeeps : c.Keeps c') :
    Active program c' suspended := by
  cases h with
  | program hstacked => exact .program (hkeeps.stacked program hstacked)
  | callee hinvoker hinvoked hhangs hstacked =>
      obtain ⟨hinherits, bindings, parent, hpad, hgrows⟩ := hhangs
      obtain ⟨bindings', parent', hpad', hparent⟩ :=
        (hpad ▸ hkeeps.pad).of_child
      exact .callee hinvoker hinvoked
        ⟨hkeeps.inherits.trans hinherits, bindings', parent', hpad',
          hgrows.trans hparent⟩ (hkeeps.stacked _ hstacked)

/-- A callable that is invoked runs in its scope. -/
theorem callee_new (h : Active program c suspended) {callable : Callable}
    (hcallable : c.getCallable = .ok (.callable callable))
    {arglist : Option (List Value)}
    (hargs : c.setCallableInvoked.getArgumentList = .ok arglist) :
    Active program (Continuation.new callable.tree
      (Interpreter.calleePad callable c.setCallableInvoked.pad
        (arglist.getD [])) callable.inheritsLexicalPad)
      (c.setCallableInvoked :: suspended) := by
  obtain ⟨operation, children, args, ctx, below, hstack, hheld⟩ :=
    Continuation.getCallable_eq_ok hcallable
  have hframe := h.scopedFrame List.mem_cons_self
    (hstack ▸ List.mem_cons_self)
  have hinvoker : c.setCallableInvoked =
      { c with stack := ⟨.mk (.controlFlow operation) children, args,
        .controlFlow { ctx with callableInvoked := true }⟩ :: below } := by
    simp only [Continuation.setCallableInvoked, Continuation.modifyControlFlow,
      hstack, ControlFlowOperation.setCallableInvoked]
  obtain ⟨hinherits, ⟨place, scope, hscoped, hnames⟩, _⟩ :=
    hframe.callable_wellScoped hheld
  have hinvoked := h.keeps (Continuation.keeps_setCallableInvoked c)
  have hlength : callable.argumentNames.length ≤ (arglist.getD []).length := by
    rw [hinvoker] at hargs hinvoked
    have hframe' := hinvoked.scopedFrame List.mem_cons_self List.mem_cons_self
    exact (hframe'.callable_wellScoped hheld).2.2 arglist hargs
  rw [hinvoker] at hinvoked ⊢
  obtain ⟨bindings, hbind, hgrows, hbound⟩ :=
    LexicalPad.binds_bindArguments callable.argumentNames (arglist.getD [])
      hlength [] c.pad
  have hpad : Interpreter.calleePad callable c.pad (arglist.getD []) =
      .child bindings c.pad := by
    rw [Interpreter.calleePad, hinherits]
    exact hbind
  refine .callee hinvoked ⟨_, _, _, _, _, rfl, hheld, rfl⟩
    ⟨hinherits, bindings, c.pad, hpad, .refl _⟩ (.bottom rfl ?_)
  refine .new hscoped fun name hname => ?_
  simp only [Continuation.new, hpad]
  rcases hnames name hname with hargument | houter
  · exact hbound name hargument
  · exact Or.inr houter

theorem invoke (h : Active program c suspended) {state : ContinuationState}
    {i : Interpreter}
    (hinvoke : Interpreter.invoke ⟨c, suspended⟩ = .ok (state, i)) :
    Active program i.top i.suspended := by
  unfold Interpreter.invoke at hinvoke
  split at hinvoke
  · contradiction
  · rename_i callable hcallable
    simp only at hinvoke
    split at hinvoke
    · contradiction
    · rename_i arglist hargs
      split at hinvoke
      · contradiction
      · have hcallee := h.callee_new hcallable hargs
        obtain ⟨node, hstacked⟩ := hcallee.stacked
        obtain ⟨frame, frames, hprepare, _, hprepared⟩ :=
          Continuation.prepare_of_stacked hstacked
        rw [hprepare] at hinvoke
        obtain ⟨_, rfl⟩ := Prod.mk.inj (Except.ok.inj hinvoke)
        exact hcallee.keeps hprepared
  · contradiction

theorem invoke_ne_assertion (h : Active program c suspended)
    (hheld : c.HasCallable) :
    Interpreter.invoke ⟨c, suspended⟩ ≠ .error .assertion := by
  obtain ⟨value, hvalue⟩ := hheld.getCallable
  unfold Interpreter.invoke
  split
  · rename_i fault hcallable
    rw [hvalue] at hcallable
    contradiction
  · rename_i callable hcallable
    simp only
    split
    · rename_i fault hargs
      intro heq
      rw [Except.error.inj heq] at hargs
      exact Continuation.getArgumentList_ne_assertion _ hargs
    · rename_i arglist hargs
      split
      · intro heq
        cases heq
      · have hcallee := h.callee_new hcallable hargs
        obtain ⟨node, hstacked⟩ := hcallee.stacked
        obtain ⟨frame, frames, hprepare, _, _⟩ :=
          Continuation.prepare_of_stacked hstacked
        rw [hprepare]
        intro heq
        cases heq
  · intro heq
    cases heq

/-- The invoker takes its pad back and goes on. -/
theorem returnTo {invoker : Continuation}
    (h : Active program c (invoker :: suspended))
    (hgrows : c.pad.Grows c'.pad)
    (hinherits : c'.inheritsLexicalPad = c.inheritsLexicalPad) (value : Value) :
    ∃ i, Interpreter.returnTo ⟨c', invoker :: suspended⟩ value invoker
        suspended = .ok (.ready, i) ∧ Active program i.top i.suspended := by
  cases h with
  | callee hinvoker _ hhangs _ =>
      obtain ⟨hcallee, bindings, parent, hpad, hparent⟩ := hhangs
      obtain ⟨bindings', parent', hpad', hparent'⟩ := (hpad ▸ hgrows).of_child
      have hback : invoker.Keeps { invoker with pad := parent' } :=
        ⟨hparent.trans hparent', rfl, fun _ hstacked =>
          hstacked.grows (hparent.trans hparent')⟩
      have hactive := (hinvoker.keeps hback).keeps
        (Continuation.keeps_setCallableReturn _ value)
      obtain ⟨node, hstacked⟩ := hactive.stacked
      obtain ⟨frame, frames, hprepare, _, hprepared⟩ :=
        Continuation.prepare_of_stacked hstacked
      refine ⟨⟨_, suspended⟩, ?_, hactive.keeps hprepared⟩
      simp only [Interpreter.returnTo, hinherits, hcallee, hpad',
        LexicalPad.afterCall_child, hprepare]

/-- One step of the interpreter keeps the program in its scopes, until it
exits. -/
theorem step (h : Active program c suspended) {errno errno' : Errno}
    {state : ContinuationState} {i : Interpreter}
    (hstep : Interpreter.step ⟨c, suspended⟩ errno = .ok (state, i, errno')) :
    state = .exited ∨ Active program i.top i.suspended := by
  obtain ⟨node, hstacked⟩ := h.stacked
  unfold Interpreter.step at hstep
  split at hstep
  · contradiction
  · rename_i top errno'' htop
    obtain ⟨_, _, ⟨hstate, _⟩ | ⟨_, hkeeps, _⟩⟩ :=
      Continuation.step_keeps hstacked htop
    · contradiction
    · right
      split at hstep
      · obtain ⟨⟨state', i'⟩, hinvoke, heq⟩ := map_eq_ok hstep
        obtain ⟨_, hpair⟩ := Prod.mk.inj heq
        obtain ⟨rfl, _⟩ := Prod.mk.inj hpair
        exact (h.keeps hkeeps).invoke hinvoke
      · obtain ⟨_, hpair⟩ := Prod.mk.inj (Except.ok.inj hstep)
        obtain ⟨rfl, _⟩ := Prod.mk.inj hpair
        exact h.keeps hkeeps
  · rename_i top errno'' htop
    obtain ⟨hgrows, hinherits, _⟩ := Continuation.step_keeps hstacked htop
    split at hstep
    · contradiction
    · rename_i value _
      cases suspended with
      | nil =>
          obtain ⟨hstate, _⟩ := Prod.mk.inj (Except.ok.inj hstep)
          exact Or.inl hstate.symm
      | cons invoker suspended =>
          right
          obtain ⟨i', hreturn, hactive⟩ := h.returnTo hgrows hinherits value
          simp only [hreturn] at hstep
          obtain ⟨_, hpair⟩ := Prod.mk.inj (Except.ok.inj hstep)
          obtain ⟨rfl, _⟩ := Prod.mk.inj hpair
          exact hactive
  · rename_i state' top errno'' _ hexited htop
    obtain ⟨_, _, ⟨hstate, _⟩ | ⟨_, hkeeps, _⟩⟩ :=
      Continuation.step_keeps hstacked htop
    · exact absurd hstate hexited
    · right
      obtain ⟨_, hpair⟩ := Prod.mk.inj (Except.ok.inj hstep)
      obtain ⟨rfl, _⟩ := Prod.mk.inj hpair
      exact h.keeps hkeeps

theorem step_ne_assertion (h : Active program c suspended) (errno : Errno) :
    Interpreter.step ⟨c, suspended⟩ errno ≠ .error .assertion := by
  obtain ⟨node, hstacked⟩ := h.stacked
  unfold Interpreter.step
  split
  · rename_i fault htop
    intro heq
    rw [Except.error.inj heq] at htop
    exact Continuation.step_ne_assertion hstacked errno htop
  · rename_i top errno'' htop
    obtain ⟨_, _, ⟨hstate, _⟩ | ⟨_, hkeeps, hheld⟩⟩ :=
      Continuation.step_keeps hstacked htop
    · contradiction
    · split
      · exact map_ne_error ((h.keeps hkeeps).invoke_ne_assertion (hheld rfl))
      · intro heq
        cases heq
  · rename_i top errno'' htop
    obtain ⟨hgrows, hinherits, _⟩ := Continuation.step_keeps hstacked htop
    split
    · intro heq
      cases heq
    · rename_i value _
      cases suspended with
      | nil =>
          intro heq
          cases heq
      | cons invoker suspended =>
          obtain ⟨i', hreturn, _⟩ := h.returnTo hgrows hinherits value
          simp only [hreturn]
          intro heq
          cases heq
  · intro heq
    cases heq

end Active

section Handlers

variable {c c' : Continuation}

/-- Only the context of the operation on top, which invokes nothing, is
another. -/
theorem Continuation.keeps_of_context {frame : ExecutionStackFrame}
    {frames : List ExecutionStackFrame} (hstack : c.stack = frame :: frames)
    (hoperation : ∀ operation,
      frame.optreenode.operation ≠ .controlFlow operation)
    (ctx : OperationContext) :
    c.Keeps { c with stack := { frame with ctx := ctx } :: frames } := by
  refine ⟨.refl _, rfl, fun node hnode => ?_⟩
  rw [hstack] at hnode
  have hframe := hnode.scopedFrame List.mem_cons_self
  refine hnode.replace rfl ⟨hframe.scope, hframe.callables, ?_⟩
  obtain ⟨⟨operation, children⟩, accumulator, before⟩ := frame
  cases operation with
  | controlFlow operation => exact absurd rfl (hoperation operation)
  | interpreted _ | unaryCallback _ | inputOutput _ | lexicalPad _
  | dynamicInput _ => trivial

theorem Continuation.keeps_setInputOutput
    {operation : InputOutputOperation} {ctx : InputOutputOperationContext}
    (h : c.inputOutput? = some (operation, ctx))
    (ctx' : InputOutputOperationContext) : c.Keeps (c.setInputOutput ctx') := by
  unfold Continuation.inputOutput? at h
  split at h
  · rename_i hstack
    unfold Continuation.setInputOutput
    rw [hstack]
    exact Continuation.keeps_of_context hstack (fun _ h => by cases h) _
  · contradiction

theorem Continuation.keeps_setCallback {key : String}
    {ctx : CallbackOperationContext} (h : c.callback? = some (key, ctx))
    (ctx' : CallbackOperationContext) : c.Keeps (c.setCallback ctx') := by
  unfold Continuation.callback? at h
  split at h
  · rename_i hstack
    unfold Continuation.setCallback
    rw [hstack]
    exact Continuation.keeps_of_context hstack (fun _ h => by cases h) _
  · contradiction

theorem Continuation.keeps_handleRead {input : Octets} {consumed : Nat}
    (h : c.handleRead input = .ok (consumed, c')) : c.Keeps c' := by
  unfold Continuation.handleRead at h
  split at h
  · obtain ⟨_, rfl⟩ := Prod.mk.inj (Except.ok.inj h)
    exact .refl c
  · rename_i operation ctx hinputOutput
    split at h
    · contradiction
    · obtain ⟨_, rfl⟩ := Prod.mk.inj (Except.ok.inj h)
      exact Continuation.keeps_setInputOutput hinputOutput _

theorem Continuation.keeps_handleWrite (c : Continuation) (s : Nat) :
    c.Keeps (c.handleWrite s).2 := by
  unfold Continuation.handleWrite
  split
  · exact .refl c
  · rename_i operation ctx hinputOutput
    exact Continuation.keeps_setInputOutput hinputOutput _

theorem Continuation.keeps_handleEof (c : Continuation) :
    c.Keeps c.handleEof := by
  unfold Continuation.handleEof
  split
  · exact .refl c
  · rename_i operation ctx hinputOutput
    exact Continuation.keeps_setInputOutput hinputOutput _

theorem Continuation.keeps_setCallbackCalled (c : Continuation) :
    c.Keeps c.setCallbackCalled := by
  unfold Continuation.setCallbackCalled
  split
  · rename_i key ctx hcallback
    exact Continuation.keeps_setCallback hcallback _
  · exact .refl c

theorem Continuation.keeps_setCallbackReturn (c : Continuation)
    (value : Value) : c.Keeps (c.setCallbackReturn value) := by
  unfold Continuation.setCallbackReturn
  split
  · rename_i key ctx hcallback
    exact Continuation.keeps_setCallback hcallback _
  · exact .refl c

/-- Reading can fail to end only. -/
theorem ReadOctetsUntilTerminator.scan_ne_assertion (terminator : Octets)
    (escape : EscapeInfo) (fuel : Nat) (rest : Octets) (pos : Nat)
    (ctx : InputOutputOperationContext) :
    scan terminator escape fuel rest pos ctx ≠ .error .assertion := by
  induction fuel generalizing rest pos ctx with
  | zero =>
      intro heq
      cases heq
  | succ fuel ih =>
      unfold scan
      split
      · intro heq
        cases heq
      · split
        · intro heq
          cases heq
        · intro heq
          cases heq
        · exact ih _ _ _
        · split
          · exact ih _ _ _
          · intro heq
            cases heq

theorem InputOutputOperation.handleRead_ne_assertion
    (operation : InputOutputOperation) (ctx : InputOutputOperationContext)
    (input : Octets) : operation.handleRead ctx input ≠ .error .assertion := by
  cases operation with
  | readOctetsUntilTerminator terminator escape =>
      cases escape with
      | some escape =>
          exact ReadOctetsUntilTerminator.scan_ne_assertion _ _ _ _ _ _
      | none =>
          simp only [handleRead, ReadOctetsUntilTerminator.handleRead]
          split
          · intro heq
            cases heq
          · intro heq
            cases heq
  | readInt32Native | readIntFromAscii | readStaticOctets _
  | terminateListIfReadAhead _ | transitionLookahead _ | writeInt32Native
  | writeOctets | writeOctetsWithEscape _ | writeStaticOctets _ =>
      intro heq
      cases heq

theorem Continuation.handleRead_ne_assertion (c : Continuation)
    (input : Octets) : c.handleRead input ≠ .error .assertion := by
  unfold Continuation.handleRead
  split
  · intro heq
    cases heq
  · rename_i operation ctx _
    split
    · rename_i fault hread
      intro heq
      rw [Except.error.inj heq] at hread
      exact operation.handleRead_ne_assertion ctx input hread
    · intro heq
      cases heq

end Handlers

namespace InterpreterContext

variable {program : OpTreeNode} {context context' : InterpreterContext}

/-- The program is in its scopes. -/
def Running (program : OpTreeNode) (context : InterpreterContext) : Prop :=
  Active program context.interpreter.top context.interpreter.suspended

theorem running_handleRead {input : Octets} {consumed : Nat}
    {interpreter : Interpreter} (hrunning : context.Running program)
    (h : context.interpreter.handleRead input = .ok (consumed, interpreter)) :
    Active program interpreter.top interpreter.suspended := by
  obtain ⟨⟨consumed', top⟩, hread, heq⟩ := map_eq_ok h
  obtain ⟨_, rfl⟩ := Prod.mk.inj heq
  exact hrunning.keeps (Continuation.keeps_handleRead hread)

theorem running_joinBuffers {joined : Octets} {didJoin : Bool}
    {queue : List Octets} {result : HandleBlockedResult}
    (hrunning : context.Running program)
    (h : context.joinBuffers joined didJoin queue = .ok (result, context')) :
    context'.Running program := by
  induction queue generalizing context joined didJoin with
  | nil =>
      unfold joinBuffers at h
      simp only at h
      split at h
      · obtain ⟨_, rfl⟩ := Prod.mk.inj (Except.ok.inj h)
        exact hrunning
      · split at h
        · obtain ⟨_, rfl⟩ := Prod.mk.inj (Except.ok.inj h)
          exact hrunning
        · obtain ⟨_, rfl⟩ := Prod.mk.inj (Except.ok.inj h)
          exact hrunning
  | cons buffer queue ih =>
      unfold joinBuffers at h
      simp only at h
      split at h
      · contradiction
      · rename_i consumed interpreter hread
        have hread' : Running program
            { context with interpreter := interpreter } :=
          running_handleRead hrunning hread
        split at h
        · exact ih hread' h
        · obtain ⟨_, rfl⟩ := Prod.mk.inj (Except.ok.inj h)
          exact hread'

theorem joinBuffers_ne_assertion (context : InterpreterContext)
    (joined : Octets) (didJoin : Bool) (queue : List Octets) :
    context.joinBuffers joined didJoin queue ≠ .error .assertion := by
  induction queue generalizing context joined didJoin with
  | nil =>
      unfold joinBuffers
      simp only
      split
      · intro heq
        cases heq
      · split
        · intro heq
          cases heq
        · intro heq
          cases heq
  | cons buffer queue ih =>
      unfold joinBuffers
      simp only
      split
      · rename_i fault hread
        intro heq
        rw [Except.error.inj heq] at hread
        exact map_ne_error
          (Continuation.handleRead_ne_assertion _ _) hread
      · split
        · exact ih _ _ _
        · intro heq
          cases heq

theorem handleRead_ne_assertion (context : InterpreterContext) :
    context.handleRead ≠ .error .assertion := by
  unfold handleRead
  split
  · rename_i buffer queue _
    split
    · rename_i fault hread
      intro heq
      rw [Except.error.inj heq] at hread
      exact map_ne_error (Continuation.handleRead_ne_assertion _ _) hread
    · simp only
      split
      · exact joinBuffers_ne_assertion _ _ _ _
      · intro heq
        cases heq
  · split
    · intro heq
      cases heq
    · intro heq
      cases heq

theorem running_handleRead_queue {result : HandleBlockedResult}
    (hrunning : context.Running program)
    (h : context.handleRead = .ok (result, context')) :
    context'.Running program := by
  unfold handleRead at h
  split at h
  · rename_i buffer queue _
    split at h
    · contradiction
    · rename_i consumed interpreter hread
      have hread' : Running program
          { context with interpreter := interpreter } :=
        running_handleRead hrunning hread
      simp only at h
      split at h
      · exact running_joinBuffers hread' h
      · obtain ⟨_, rfl⟩ := Prod.mk.inj (Except.ok.inj h)
        exact hread'
  · split at h
    · obtain ⟨_, rfl⟩ := Prod.mk.inj (Except.ok.inj h)
      exact hrunning.keeps (Continuation.keeps_handleEof _)
    · obtain ⟨_, rfl⟩ := Prod.mk.inj (Except.ok.inj h)
      exact hrunning

/-- Serving a blocked operation keeps the program in its scopes. -/
theorem running_handleBlocked {result : HandleBlockedResult}
    (hrunning : context.Running program)
    (h : context.handleBlockedInterpreter = .ok (result, context')) :
    context'.Running program := by
  unfold handleBlockedInterpreter at h
  split at h
  · exact running_handleRead_queue hrunning h
  · have hwrite : context.handleWrite.2 = context' :=
      congrArg Prod.snd (Except.ok.inj h)
    rw [← hwrite]
    unfold handleWrite
    split
    · exact hrunning.keeps (Continuation.keeps_handleEof _)
    · exact hrunning.keeps (Continuation.keeps_handleWrite _ _)
  · obtain ⟨_, rfl⟩ := Prod.mk.inj (Except.ok.inj h)
    exact hrunning.keeps (Continuation.keeps_setCallbackCalled _)
  · have hfinish : context.handleFinishCallback.2 = context' :=
      congrArg Prod.snd (Except.ok.inj h)
    rw [← hfinish]
    unfold handleFinishCallback
    split
    · exact hrunning
    · exact hrunning.keeps (Continuation.keeps_setCallbackReturn _ _)
  · obtain ⟨_, rfl⟩ := Prod.mk.inj (Except.ok.inj h)
    exact hrunning

theorem handleBlocked_ne_assertion (context : InterpreterContext) :
    context.handleBlockedInterpreter ≠ .error .assertion := by
  unfold handleBlockedInterpreter
  split
  · exact handleRead_ne_assertion context
  · intro heq
    cases heq
  · intro heq
    cases heq
  · intro heq
    cases heq
  · intro heq
    cases heq

end InterpreterContext

namespace RunnerState

variable {program : OpTreeNode} {s t : RunnerState}

/-- The program is in its scopes, or has exited. -/
def InScope (program : OpTreeNode) (s : RunnerState) : Prop :=
  s.context.exited = true ∨ s.context.Running program

theorem inScope_start (h : WellScoped .machine [] program)
    (arglist : Option Value) (errno : Errno) :
    InScope program (start program arglist errno) := by
  have hnew : ∀ pad, ScopedFrame pad (ExecutionStackFrame.new program) :=
    fun pad => .new h fun name hname => by cases hname
  right
  cases arglist with
  | none => exact .program (.bottom rfl (hnew _))
  | some argv => exact .program (.bottom rfl (hnew _))

theorem inScope_pass (h : InScope program s) (hpass : s.pass = .ok t) :
    InScope program t := by
  obtain ⟨⟨progress, context, errno⟩, hcontext, rfl⟩ := map_eq_ok hpass
  unfold InterpreterContext.pass at hcontext
  split at hcontext
  · rename_i hexited
    obtain ⟨_, hpair⟩ := Prod.mk.inj (Except.ok.inj hcontext)
    obtain ⟨rfl, _⟩ := Prod.mk.inj hpair
    exact Or.inl hexited
  · rename_i hrunning
    rcases h with hexited | h
    · exact absurd hexited hrunning
    · split at hcontext
      · contradiction
      · rename_i interpreter errno' hstep
        obtain ⟨⟨result, context'⟩, hblocked, heq⟩ := map_eq_ok hcontext
        obtain ⟨_, hpair⟩ := Prod.mk.inj heq
        obtain ⟨rfl, _⟩ := Prod.mk.inj hpair
        rcases h.step hstep with hstate | hactive
        · contradiction
        · have hrunning' : InterpreterContext.Running program
              { s.context with interpreter := interpreter } := hactive
          exact Or.inr
            (InterpreterContext.running_handleBlocked hrunning' hblocked)
      · obtain ⟨_, hpair⟩ := Prod.mk.inj (Except.ok.inj hcontext)
        obtain ⟨rfl, _⟩ := Prod.mk.inj hpair
        exact Or.inl rfl
      · rename_i interpreter errno' _ hexited hstep
        obtain ⟨_, hpair⟩ := Prod.mk.inj (Except.ok.inj hcontext)
        obtain ⟨rfl, _⟩ := Prod.mk.inj hpair
        rcases h.step hstep with hstate | hactive
        · exact absurd hstate hexited
        · exact Or.inr hactive

theorem inScope_event {event : RunnerEvent} (h : InScope program s)
    (hevent : RunnerState.event event s = .ok t) : InScope program t := by
  cases event with
  | chunk data =>
      obtain rfl := Except.ok.inj hevent
      exact h
  | endOfInput =>
      obtain rfl := Except.ok.inj hevent
      exact h
  | callbackResponse value =>
      obtain rfl := Except.ok.inj hevent
      exact h
  | pass => exact inScope_pass h hevent

/-- Every run of a well-scoped program stays in its scopes. -/
theorem inScope_run (h : WellScoped .machine [] program)
    (arglist : Option Value) (errno : Errno) {events : List RunnerEvent}
    (hrun : run event events (start program arglist errno) = .ok s) :
    InScope program s :=
  run_invariant (fun _ _ _ _ hscope hevent => inScope_event hscope hevent)
    (fun _ _ => trivial) (inScope_start h arglist errno) hrun

/-- No assertion of the interpreter fails. -/
theorem pass_ne_assertion (h : InScope program s) :
    s.context.pass s.errno ≠ .error .assertion := by
  unfold InterpreterContext.pass
  split
  · intro heq
    cases heq
  · rename_i hrunning
    rcases h with hexited | h
    · exact absurd hexited hrunning
    · split
      · rename_i fault hstep
        intro heq
        rw [Except.error.inj heq] at hstep
        exact h.step_ne_assertion s.errno hstep
      · exact map_ne_error (InterpreterContext.handleBlocked_ne_assertion _)
      · intro heq
        cases heq
      · intro heq
        cases heq

/-- The names a frame on top accesses are bound. -/
theorem InScope.binds (h : InScope program s)
    (hrunning : s.context.exited = false) {state : ContinuationState}
    {top : Continuation}
    (hprepare : s.context.interpreter.top.prepare = .ok (state, top))
    {frame : ExecutionStackFrame} {frames : List ExecutionStackFrame}
    (hstack : top.stack = frame :: frames) {name : String}
    (hname : name ∈ frame.optreenode.operation.accesses) :
    top.pad.Binds name := by
  rcases h with hexited | hactive
  · rw [hrunning] at hexited
    contradiction
  · obtain ⟨node, hstacked⟩ := hactive.stacked
    obtain ⟨frame', frames', hprepared, _, hkeeps⟩ :=
      Continuation.prepare_of_stacked hstacked
    rw [hprepared] at hprepare
    obtain ⟨_, rfl⟩ := Prod.mk.inj (Except.ok.inj hprepare)
    obtain ⟨rfl, _⟩ := List.cons.inj hstack
    obtain ⟨place, scope, hscoped, hnames⟩ :=
      ((hkeeps.stacked node hstacked).scopedFrame List.mem_cons_self).scope
    exact hnames name (mem_scopeAt (hscoped.accesses_mem hname) _ _)

/-- Every frame that asks for its next operation has it. -/
theorem InScope.nextOp (h : InScope program s)
    (hrunning : s.context.exited = false) {continuation : Continuation}
    (hmem : continuation ∈
      s.context.interpreter.top :: s.context.interpreter.suspended)
    {frame : ExecutionStackFrame} (hframe : frame ∈ continuation.stack)
    (hwaits : frame.hasArgumentsReady = false) :
    ∃ child, frame.nextOp = .ok child := by
  rcases h with hexited | hactive
  · rw [hrunning] at hexited
    contradiction
  · obtain ⟨child, _, _, hnext, _⟩ :=
      (hactive.scopedFrame hmem hframe).nextOp hwaits
    exact ⟨child, hnext⟩

end RunnerState

/-- In every run of a generated program, the names that are read and written
are bound when they are, every frame that waits has a next child, and no
assertion fails. -/
theorem generated_program_inScope {protocol : Protocol} {optree : OpTreeNode}
    (h : client protocol = .ok optree ∨ server protocol = .ok optree)
    (arglist : Option Value) (errno : Errno) (events : List RunnerEvent)
    (s : RunnerState)
    (hrun : run RunnerState.event events
      (RunnerState.start optree arglist errno) = .ok s)
    (hrunning : s.context.exited = false) :
    (∀ state top frame frames name,
      s.context.interpreter.top.prepare = .ok (state, top) →
      top.stack = frame :: frames →
      (frame.optreenode.operation = .lexicalPad (.lexicalPadGet name) ∨
        frame.optreenode.operation = .lexicalPad (.lexicalPadSet name)) →
      top.pad.Binds name) ∧
    (∀ continuation ∈
        s.context.interpreter.top :: s.context.interpreter.suspended,
      ∀ frame ∈ continuation.stack, frame.hasArgumentsReady = false →
        ∃ child, frame.nextOp = .ok child) ∧
    s.context.pass s.errno ≠ .error .assertion := by
  have hscoped : WellScoped .machine [] optree := by
    rcases h with h | h
    · exact wellScoped_generateAgent h
    · exact wellScoped_generateAgent h
  have hscope := RunnerState.inScope_run hscoped arglist errno hrun
  refine ⟨?_, ?_, RunnerState.pass_ne_assertion hscope⟩
  · intro state top frame frames name hprepare hstack hoperation
    refine hscope.binds hrunning hprepare hstack ?_
    rcases hoperation with hget | hset
    · rw [hget]
      exact List.mem_cons_self
    · rw [hset]
      exact List.mem_cons_self
  · intro continuation hmem frame hframe hwaits
    exact hscope.nextOp hrunning hmem hframe hwaits

/-- A client that waits for its first message. -/
theorem generated_program_inScope_overlapping : ∃ optree s,
    run RunnerState.event [.pass, .pass] (RunnerState.start optree none 0) =
      .ok s ∧
    (∀ continuation ∈
        s.context.interpreter.top :: s.context.interpreter.suspended,
      ∀ frame ∈ continuation.stack, frame.hasArgumentsReady = false →
        ∃ child, frame.nextOp = .ok child) ∧
    s.context.pass s.errno ≠ .error .assertion := by
  obtain ⟨protocol, transitions, _, hclient⟩ :=
    TransitionChoice.client_overlapping
  obtain ⟨s, hrun, hrunning⟩ : ∃ s, run RunnerState.event [.pass, .pass]
      (RunnerState.start (.mk (.controlFlow (.stateMachineOperation
        [("Open", .mk (TransitionChoice.lookaheadCallback
          TransitionChoice.overlappingConditions) transitions)])) []) none 0) =
      .ok s ∧ s.context.exited = false := ⟨_, rfl, rfl⟩
  exact ⟨_, s, hrun, (generated_program_inScope (Or.inl hclient) none 0 _ s
    hrun hrunning).2⟩

end NetworkProtocolDsl
