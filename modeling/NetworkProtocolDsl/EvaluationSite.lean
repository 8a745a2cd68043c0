/-
Where an operation is evaluated.

A site is everything an evaluation does not touch: the frames below it, the
suspended invocations and the flags of the context.  A world is what it can
change.  States that differ only by preparing the stack behave alike, so runs
are followed up to that.
-/
import NetworkProtocolDsl.Reader

namespace NetworkProtocolDsl

open Run

/-- What an evaluation can change. -/
structure World where
  pad : LexicalPad
  errno : Errno
  input : List Octets
  output : List Octets

/-- What stays while the active continuation runs; its own stack, pad and
buffers in `base` do not count. -/
structure Site where
  base : InterpreterContext
  inherits : Bool
  suspended : List Continuation
  running : base.exited = false

namespace Site

def top (site : Site) (stack : List ExecutionStackFrame) (w : World)
    (result : OperationResult) : Continuation :=
  ⟨stack, w.pad, result, site.inherits⟩

def state (site : Site) (stack : List ExecutionStackFrame) (w : World)
    (result : OperationResult) : RunnerState :=
  ⟨{ site.base with
      interpreter := ⟨site.top stack w result, site.suspended⟩
      inputBuffer := w.input
      outputBuffer := w.output }, w.errno⟩

/-- The state in which the program has exited. -/
def exited (site : Site) (w : World) (value : Value) : RunnerState :=
  ⟨{ site.base with
      interpreter := ⟨site.top [] w (.value value), []⟩
      inputBuffer := w.input
      outputBuffer := w.output
      exited := true
      interpreterResult := some value }, w.errno⟩

end Site

namespace RunnerState

/-- The same state, or states whose stacks have the same prepared form. -/
def Alike (s t : RunnerState) : Prop :=
  s = t ∨ s.context.exited = false ∧ ∃ top,
    s.context.interpreter.top.prepare = .ok (.ready, top) ∧
    t.context.interpreter.top.prepare = .ok (.ready, top) ∧
    t = { s with context := { s.context with
      interpreter := { s.context.interpreter with
        top := t.context.interpreter.top } } }

namespace Alike

variable {s t u : RunnerState}

theorem refl (s : RunnerState) : Alike s s :=
  Or.inl rfl

theorem symm (h : Alike s t) : Alike t s := by
  rcases h with rfl | ⟨hrunning, top, hs, ht, heq⟩
  · exact refl s
  · refine Or.inr ⟨by rw [heq]; exact hrunning, top, ht, hs, ?_⟩
    rw [heq]

theorem trans (hst : Alike s t) (htu : Alike t u) : Alike s u := by
  rcases hst with rfl | ⟨hrunning, top, hs, ht, heq⟩
  · exact htu
  · rcases htu with rfl | ⟨_, top', ht', hu, heq'⟩
    · exact Or.inr ⟨hrunning, top, hs, ht, heq⟩
    · obtain ⟨_, rfl⟩ := Prod.mk.inj (Except.ok.inj (ht.symm.trans ht'))
      refine Or.inr ⟨hrunning, top, hs, hu, ?_⟩
      rw [heq', heq]

theorem context_pass_eq (h : Alike s t) :
    s.context.pass s.errno = t.context.pass t.errno := by
  rcases h with rfl | ⟨hrunning, top, hs, ht, heq⟩
  · rfl
  · have hrunning' : t.context.exited = false := by
      rw [heq]
      exact hrunning
    rw [InterpreterContext.pass_eq_of_prepare hrunning hs,
      InterpreterContext.pass_eq_of_prepare hrunning' ht, heq]

/-- Alike states have the same next state. -/
theorem pass_eq (h : Alike s t) : s.pass = t.pass := by
  rw [pass, pass, h.context_pass_eq]

theorem exited_eq (h : Alike s t) : s.context.exited = t.context.exited := by
  rcases h with rfl | ⟨_, _, _, _, heq⟩
  · rfl
  · rw [heq]

end Alike

/-- Passes lead from the first state to one that is alike the second. -/
def Leads (s t : RunnerState) : Prop :=
  ∃ s', Passes s s' ∧ Alike s' t

namespace Leads

variable {s t u : RunnerState}

theorem refl (s : RunnerState) : Leads s s :=
  ⟨s, Reaches.refl s, Alike.refl s⟩

theorem of_alike (h : Alike s t) : Leads s t :=
  ⟨s, Reaches.refl s, h⟩

theorem single (h : s.pass = .ok t) : Leads s t :=
  ⟨t, Reaches.single h, Alike.refl t⟩

theorem trans (hst : Leads s t) (htu : Leads t u) : Leads s u := by
  obtain ⟨s', hs, halike⟩ := hst
  obtain ⟨t', ht, halike'⟩ := htu
  rcases Relation.ReflTransGen.cases_head ht with rfl | ⟨t₁, hstep, hrest⟩
  · exact ⟨s', hs, halike.trans halike'⟩
  · have hstep' : s'.pass = .ok t₁ := halike.pass_eq.trans hstep
    exact ⟨t', hs.trans (Reaches.head hstep' hrest), halike'⟩

theorem step (h : Leads s t) (hpass : t.pass = .ok u) : Leads s u :=
  h.trans (single hpass)

/-- An exited state is reached, not just one alike it. -/
theorem passes_of_exited (h : Leads s t) (ht : t.context.exited = true) :
    Passes s t := by
  obtain ⟨s', hs, halike⟩ := h
  rcases halike with rfl | ⟨hrunning, _, _, _, heq⟩
  · exact hs
  · rw [heq] at ht
    simp [hrunning] at ht

end Leads

/-- One pass, with what it reports. -/
def Steps (s : RunnerState) (progress : InterpreterContext.Progress)
    (t : RunnerState) : Prop :=
  s.context.pass s.errno = .ok (progress, t.context, t.errno)

namespace Steps

variable {s t u : RunnerState} {progress : InterpreterContext.Progress}

theorem pass (h : Steps s progress t) : s.pass = .ok t := by
  rw [RunnerState.pass, h]
  rfl

theorem of_alike (hst : Alike s t) (h : Steps t progress u) :
    Steps s progress u :=
  hst.context_pass_eq.trans h

/-- A pass that reports anything else is not the last one. -/
theorem not_settled (h : Steps s progress t) (hexited : s.context.exited = false)
    (hprogress : progress ≠ .blocked .stillBlocked) : ¬ s.Settled := by
  rintro (hs | ⟨context, errno, hpass⟩)
  · rw [hexited] at hs
    contradiction
  · have heq := Except.ok.inj (h.symm.trans hpass)
    exact hprogress (congrArg Prod.fst heq)

end Steps

theorem pass_of_exited {s : RunnerState} (h : s.context.exited = true) :
    s.pass = .ok s := by
  simp only [pass, InterpreterContext.pass, h, ↓reduceIte, Except.map]

/-- An exited state is where every run of passes ends. -/
theorem Passes.eq_of_exited {s t u : RunnerState} (ht : Passes s t)
    (hexited : t.context.exited = true) (hu : Passes s u)
    (hfixed : u.pass = .ok u) : u = t := by
  have hreach := Reaches.of_fixed (pass_of_exited hexited) ht hu
  exact (Reaches.eq_of_fixed hfixed hreach).symm

end RunnerState

namespace Site

variable (site : Site) {frame : ExecutionStackFrame} {w : World}
  (result : OperationResult)

theorem prepare_top (hready : frame.hasArgumentsReady = true)
    (frames : List ExecutionStackFrame) :
    (site.top (frame :: frames) w result).prepare =
      .ok (.ready, site.top (frame :: frames) w result) :=
  Continuation.prepare_of_ready rfl hready

/-- Preparing a frame that waits for its next child. -/
theorem alike_child (hready : frame.hasArgumentsReady = false)
    {child : OpTreeNode} (hchild : frame.nextOp = .ok child)
    {pushed : List ExecutionStackFrame} (hdescend : child.descend = .ok pushed)
    (frames : List ExecutionStackFrame) :
    (site.state (frame :: frames) w result).Alike
      (site.state (pushed ++ frame :: frames) w result) := by
  obtain ⟨first, below, rfl, hfirst⟩ := OpTreeNode.descend_ready hdescend
  refine Or.inr ⟨site.running,
    site.top (first :: below ++ frame :: frames) w result, ?_, ?_, rfl⟩
  · simp only [state, top, Continuation.prepare, hready, hchild, hdescend]
    simp
  · exact site.prepare_top result hfirst _

/-- Preparing a fresh frame. -/
theorem alike_new {node : OpTreeNode} {pushed : List ExecutionStackFrame}
    (hdescend : node.descend = .ok pushed)
    (frames : List ExecutionStackFrame) :
    (site.state (ExecutionStackFrame.new node :: frames) w result).Alike
      (site.state (pushed ++ frames) w result) := by
  match node, hdescend with
  | .mk operation [], hdescend =>
      simp only [OpTreeNode.descend] at hdescend
      split at hdescend
      · obtain rfl := Except.ok.inj hdescend
        exact .refl _
      · contradiction
  | .mk operation (child :: children), hdescend =>
      simp only [OpTreeNode.descend] at hdescend
      split at hdescend
      · obtain rfl := Except.ok.inj hdescend
        exact .refl _
      · rename_i hready
        split at hdescend
        · rename_i pushed' hchild
          obtain rfl := Except.ok.inj hdescend
          rw [List.append_assoc]
          exact site.alike_child result (Bool.eq_false_iff.mpr hready) rfl
            hchild frames
        · contradiction

/-- The topmost frame yields a value to the frame below it. -/
theorem pass_value (hready : frame.hasArgumentsReady = true) {value : Value}
    {ctx : OperationContext} {pad : LexicalPad} {errno : Errno}
    (hexecute : frame.execute w.pad w.errno =
      .ok ⟨.value value, ctx, pad, errno⟩)
    (parent : ExecutionStackFrame) (frames : List ExecutionStackFrame) :
    (site.state (frame :: parent :: frames) w result).Steps .ready
      (site.state (parent.pushBack value :: frames)
        { w with pad := pad, errno := errno } (.value value)) := by
  have hrunning := site.running
  have hprepare := site.prepare_top (w := w) result hready
    (parent :: frames)
  simp only [top] at hprepare
  simp only [RunnerState.Steps, InterpreterContext.pass, state, top, hrunning,
    Bool.false_eq_true, ↓reduceIte, Interpreter.step, Continuation.step,
    hprepare, Continuation.executeTop, hexecute]

/-- The last frame of the last continuation yields the result. -/
theorem pass_exit (hready : frame.hasArgumentsReady = true) {value : Value}
    {ctx : OperationContext} {pad : LexicalPad} {errno : Errno}
    (hexecute : frame.execute w.pad w.errno =
      .ok ⟨.value value, ctx, pad, errno⟩) (hlast : site.suspended = []) :
    (site.state [frame] w result).Steps .exited
      (site.exited { w with pad := pad, errno := errno } value) := by
  have hrunning := site.running
  have hprepare := site.prepare_top (w := w) result hready []
  simp only [top] at hprepare
  simp only [RunnerState.Steps, InterpreterContext.pass, state, top, exited,
    hrunning, Bool.false_eq_true, ↓reduceIte, Interpreter.step,
    Continuation.step, hprepare, Continuation.executeTop, hexecute, hlast,
    Interpreter.getResult]

/-- The frame of an operation that reads or writes. -/
def inputOutputFrame (operation : InputOutputOperation)
    (children : List OpTreeNode) (accumulator : List Value)
    (ctx : InputOutputOperationContext) : ExecutionStackFrame :=
  ⟨.mk (.inputOutput operation) children, accumulator, .inputOutput ctx⟩

/-- A pass over a state whose topmost operation waits for input. -/
theorem pass_waiting {operation : InputOutputOperation}
    (children : List OpTreeNode) {accumulator : List Value}
    (harity : operation.arity ≤ accumulator.length)
    {ctx : InputOutputOperationContext}
    (hwaits : operation.readyToEvaluate ctx = false)
    (frames : List ExecutionStackFrame) {report : HandleBlockedResult}
    {ctx' : InputOutputOperationContext} {queue : List Octets}
    (hread : operation.readQueue ctx site.base.eof w.input =
      .ok (report, ctx', queue)) :
    (site.state (inputOutputFrame operation children accumulator ctx :: frames)
        w result).Steps (.blocked report)
      (site.state
        (inputOutputFrame operation children accumulator ctx' :: frames)
        { w with input := queue } (.blocked .waitingForRead)) := by
  let r : Reader := ⟨operation, children, accumulator, frames,
    (site.state [] w result).context, harity, site.running⟩
  have hpass := r.pass_eq w.errno w.input result hwaits
  have heof : r.base.eof = site.base.eof := rfl
  rw [heof, hread] at hpass
  exact hpass

end Site

end NetworkProtocolDsl
