/-
Plain reading does not depend on how the input is fragmented.

The frames of a running tree of sequences stand for what is still to be read.
Every pass keeps the reading of the queue and of everything still to come, so
what a settled run has read is the meaning of the tree on the whole stream.
-/
import NetworkProtocolDsl.EvaluationSite
import NetworkProtocolDsl.PlainRead

namespace NetworkProtocolDsl

open Run

namespace PlainReadTree

mutual

def optree : PlainReadTree → OpTreeNode
  | .read operation => .mk (.inputOutput operation.operation) []
  | .sequence children => .mk (.dynamicInput .opSequence) (optrees children)

def optrees : List PlainReadTree → List OpTreeNode
  | [] => []
  | child :: children => child.optree :: optrees children

end

mutual

/-- What the tree reads from these bytes. -/
def run : PlainReadTree → Octets → ReadOutcome
  | .read operation, bytes => operation.read {} bytes
  | .sequence children, bytes => runAll children (.bool false) bytes

/-- The children from here on, after one that yielded `last`. -/
def runAll : List PlainReadTree → Value → Octets → ReadOutcome
  | [], last, bytes => ⟨[], some last, bytes⟩
  | child :: children, last, bytes =>
      if last.stops then ⟨[], some last, bytes⟩
      else (child.run bytes).andThen (runAll children)

end

mutual

/-- How many evaluations the tree takes at most. -/
def work : PlainReadTree → Nat
  | .read _ => 1
  | .sequence children => 1 + workAll children

def workAll : List PlainReadTree → Nat
  | [] => 0
  | child :: children => child.work + workAll children

end

theorem optrees_eq (children : List PlainReadTree) :
    optrees children = children.map optree := by
  induction children with
  | nil => rfl
  | cons child children ih => rw [optrees, ih, List.map_cons]

theorem runAll_of_stops {last : Value} (h : last.stops = true)
    (children : List PlainReadTree) (bytes : Octets) :
    runAll children last bytes = ⟨[], some last, bytes⟩ := by
  cases children with
  | nil => rfl
  | cons child children => simp only [runAll, h, ↓reduceIte]

end PlainReadTree

/-- A sequence some of whose children yielded their values. -/
structure SequenceFrame where
  children : List PlainReadTree
  accumulator : List Value

namespace SequenceFrame

def frame (f : SequenceFrame) : ExecutionStackFrame :=
  ⟨.mk (.dynamicInput .opSequence) (PlainReadTree.optrees f.children),
    f.accumulator, .none⟩

def last (f : SequenceFrame) : Value :=
  f.accumulator.getLast?.getD (.bool false)

def done (f : SequenceFrame) : Bool :=
  f.last.stops || f.children.length ≤ f.accumulator.length

def push (f : SequenceFrame) (value : Value) : SequenceFrame :=
  { f with accumulator := f.accumulator ++ [value] }

/-- What the sequence still reads. -/
def proceed (f : SequenceFrame) (bytes : Octets) : ReadOutcome :=
  PlainReadTree.runAll (f.children.drop f.accumulator.length) f.last bytes

/-- The evaluations that are left once the current child is done. -/
def work (f : SequenceFrame) : Nat :=
  1 + PlainReadTree.workAll (f.children.drop (f.accumulator.length + 1))

theorem frame_hasArgumentsReady (f : SequenceFrame) :
    f.frame.hasArgumentsReady = f.done := by
  simp only [frame, done, last, ExecutionStackFrame.hasArgumentsReady,
    OpTreeNode.operation, Operation.arity, OpTreeNode.children,
    PlainReadTree.optrees_eq, List.length_map]
  cases f.accumulator.getLast? <;> rfl

theorem execute_eq (f : SequenceFrame) (pad : LexicalPad) (errno : Errno) :
    f.frame.execute pad errno = .ok ⟨.value f.last, .none, pad, errno⟩ := by
  simp only [frame, last, ExecutionStackFrame.execute, OpTreeNode.operation,
    DynamicInputOperation.apply]
  cases f.accumulator.getLast? <;> rfl

@[simp] theorem last_push (f : SequenceFrame) (value : Value) :
    (f.push value).last = value := by
  simp [last, push]

theorem lt_of_not_done {f : SequenceFrame} (h : f.done = false) :
    f.accumulator.length < f.children.length := by
  simp only [done, Bool.or_eq_false_iff, decide_eq_false_iff_not] at h
  omega

/-- The child that is next, and the ones after it. -/
theorem drop_of_not_done {f : SequenceFrame} (h : f.done = false) :
    f.children.drop f.accumulator.length =
      f.children.get ⟨f.accumulator.length, lt_of_not_done h⟩ ::
        f.children.drop (f.accumulator.length + 1) :=
  List.drop_eq_getElem_cons (lt_of_not_done h)

theorem proceed_of_done {f : SequenceFrame} (h : f.done = true)
    (bytes : Octets) : f.proceed bytes = ⟨[], some f.last, bytes⟩ := by
  rcases (Bool.or_eq_true _ _).mp h with hstops | hlength
  · exact PlainReadTree.runAll_of_stops hstops _ _
  · rw [proceed, List.drop_of_length_le
      (of_decide_eq_true hlength)]
    rfl

end SequenceFrame

inductive PlainTop where
  | reading (operation : PlainRead) (ctx : InputOutputOperationContext)
  | sequence (frame : SequenceFrame) (done : frame.done = true)

/-- A prepared stack over a tree of sequences. -/
structure PlainStack where
  top : PlainTop
  below : List SequenceFrame

namespace PlainTop

def frame : PlainTop → ExecutionStackFrame
  | reading operation ctx =>
      Site.inputOutputFrame operation.operation [] [] ctx
  | sequence frame _ => frame.frame

def Waits : PlainTop → Prop
  | reading operation ctx => operation.Waits ctx
  | sequence .. => False

def outcome : PlainTop → Octets → ReadOutcome
  | reading operation ctx, bytes => operation.read ctx bytes
  | sequence frame _, bytes => ⟨[], some frame.last, bytes⟩

end PlainTop

namespace PlainStack

/-- What the sequences below make of a value and the bytes after it. -/
def resumed : List SequenceFrame → Value → Octets → ReadOutcome
  | [], value, bytes => ⟨[], some value, bytes⟩
  | f :: below, value, bytes =>
      ((f.push value).proceed bytes).andThen (resumed below)

def frames (stack : PlainStack) : List ExecutionStackFrame :=
  stack.top.frame :: stack.below.map SequenceFrame.frame

def outcome (stack : PlainStack) (bytes : Octets) : ReadOutcome :=
  (stack.top.outcome bytes).andThen (resumed stack.below)

def workBelow (below : List SequenceFrame) : Nat :=
  (below.map SequenceFrame.work).sum

/-- The evaluations that are left. -/
def work (stack : PlainStack) : Nat :=
  1 + workBelow stack.below

end PlainStack

/-- The stack that preparing a fresh frame of the tree leads to. -/
def PlainReadTree.enter : PlainReadTree → List SequenceFrame → PlainStack
  | .read operation, below => ⟨.reading operation {}, below⟩
  | .sequence [], below => ⟨.sequence ⟨[], []⟩ rfl, below⟩
  | .sequence (child :: children), below =>
      child.enter (⟨child :: children, []⟩ :: below)

namespace PlainReadTree

/-- Entering a tree is what `descend` does. -/
theorem descend_eq (tree : PlainReadTree) :
    ∃ pushed, tree.optree.descend = .ok pushed ∧ ∀ below,
      (tree.enter below).frames =
        pushed ++ below.map SequenceFrame.frame := by
  match tree with
  | .read operation =>
      refine ⟨[_], ?_, fun below => rfl⟩
      cases operation <;> rfl
  | .sequence [] => exact ⟨[_], rfl, fun below => rfl⟩
  | .sequence (child :: children) =>
      obtain ⟨pushed, hdescend, hframes⟩ := descend_eq child
      refine ⟨pushed ++ [SequenceFrame.frame ⟨child :: children, []⟩], ?_, ?_⟩
      · rw [optree, optrees, OpTreeNode.descend, hdescend]
        rfl
      · intro below
        rw [enter, hframes, List.append_assoc]
        rfl

theorem enter_outcome (tree : PlainReadTree) (below : List SequenceFrame)
    (bytes : Octets) :
    (tree.enter below).outcome bytes =
      (tree.run bytes).andThen (PlainStack.resumed below) := by
  match tree with
  | .read operation => rfl
  | .sequence [] => rfl
  | .sequence (child :: children) =>
      have hrest : PlainStack.resumed (⟨child :: children, []⟩ :: below) =
          fun value rest => (runAll children value rest).andThen
            (PlainStack.resumed below) := by
        funext value rest
        simp [PlainStack.resumed, SequenceFrame.proceed, SequenceFrame.push,
          SequenceFrame.last]
      rw [enter, enter_outcome child, hrest, ← ReadOutcome.andThen_assoc]
      rfl

theorem enter_work (tree : PlainReadTree) (below : List SequenceFrame) :
    (tree.enter below).work = tree.work + PlainStack.workBelow below := by
  match tree with
  | .read operation => rfl
  | .sequence [] => rfl
  | .sequence (child :: children) =>
      have hbelow : PlainStack.workBelow (⟨child :: children, []⟩ :: below) =
          1 + workAll children + PlainStack.workBelow below := by
        simp [PlainStack.workBelow, SequenceFrame.work]
      rw [enter, enter_work child, hbelow, work, workAll]
      omega

end PlainReadTree

namespace PlainStack

/-- The stack once a sequence may go on to its next child. -/
def resume (f : SequenceFrame) (below : List SequenceFrame) : PlainStack :=
  if h : f.done then ⟨.sequence f h, below⟩
  else
    (f.children.get ⟨f.accumulator.length, SequenceFrame.lt_of_not_done
      (Bool.eq_false_iff.mpr h)⟩).enter (f :: below)

theorem resume_outcome (f : SequenceFrame) (below : List SequenceFrame)
    (bytes : Octets) :
    (resume f below).outcome bytes =
      (f.proceed bytes).andThen (resumed below) := by
  by_cases h : f.done = true
  · rw [resume, dif_pos h, SequenceFrame.proceed_of_done h]
    rfl
  · have hnot : f.done = false := Bool.eq_false_iff.mpr h
    have hstops : ¬ f.last.stops = true := by
      simp only [SequenceFrame.done, Bool.or_eq_false_iff] at hnot
      simp [hnot.1]
    have hrest : resumed (f :: below) = fun value rest =>
        (PlainReadTree.runAll (f.children.drop (f.accumulator.length + 1))
          value rest).andThen (resumed below) := by
      funext value rest
      rw [resumed, SequenceFrame.proceed, SequenceFrame.last_push]
      simp [SequenceFrame.push]
    rw [resume, dif_neg h, PlainReadTree.enter_outcome, hrest,
      ← ReadOutcome.andThen_assoc, SequenceFrame.proceed,
      SequenceFrame.drop_of_not_done hnot, PlainReadTree.runAll,
      if_neg hstops]

theorem resume_work (f : SequenceFrame) (value : Value)
    (below : List SequenceFrame) :
    (resume (f.push value) below).work ≤ workBelow (f :: below) := by
  have hbelow : workBelow (f :: below) = f.work + workBelow below := by
    simp [workBelow]
  have hlength : (f.push value).accumulator.length =
      f.accumulator.length + 1 := by
    simp [SequenceFrame.push]
  rw [hbelow]
  by_cases h : (f.push value).done = true
  · rw [resume, dif_pos h, work, SequenceFrame.work]
    simp only
    omega
  · have hdrop := SequenceFrame.drop_of_not_done (Bool.eq_false_iff.mpr h)
    have hpush : workBelow (f.push value :: below) =
        (f.push value).work + workBelow below := by
      simp [workBelow]
    have hchildren : (f.push value).children = f.children := rfl
    rw [resume, dif_neg h, PlainReadTree.enter_work, hpush]
    simp only [SequenceFrame.work, hlength, hchildren] at hdrop ⊢
    rw [hdrop, PlainReadTree.workAll]
    omega

end PlainStack

namespace RunnerState

/-- The value the active reading operation yields in the next pass. -/
def valueRead (s : RunnerState) : List Value :=
  match s.context.activeRead with
  | none => []
  | some (operation, ctx) =>
      match operation.apply ctx [] s.errno with
      | .ok ⟨.value value, _, _⟩ => [value]
      | _ => []

/-- The values read during a run. -/
def valuesRead : List RunnerEvent → RunnerState → List Value
  | [], _ => []
  | occurring :: events, s =>
      (match occurring with
        | .pass => s.valueRead
        | _ => []) ++
      match event occurring s with
      | .ok t => valuesRead events t
      | .error _ => []

theorem Alike.valueRead_eq {s t : RunnerState} (h : Alike s t) :
    s.valueRead = t.valueRead := by
  rcases h with rfl | ⟨_, top, hs, ht, heq⟩
  · rfl
  · have hactive : s.context.activeRead = t.context.activeRead := by
      simp only [InterpreterContext.activeRead, hs, ht]
    have herrno : t.errno = s.errno := by rw [heq]
    rw [valueRead, valueRead, hactive, herrno]

theorem Alike.inputBuffer_eq {s t : RunnerState} (h : Alike s t) :
    s.context.inputBuffer = t.context.inputBuffer := by
  rcases h with rfl | ⟨_, _, _, _, heq⟩
  · rfl
  · rw [heq]

theorem Alike.push {s t : RunnerState} (h : Alike s t) (data : Octets) :
    Alike (s.push data) (t.push data) := by
  rcases h with rfl | ⟨hrunning, top, hs, ht, heq⟩
  · exact refl _
  · refine Or.inr ⟨hrunning, top, hs, ht, ?_⟩
    rw [heq]
    rfl

end RunnerState

namespace PlainStack

/-- The state runs this stack at this site. -/
structure At (stack : PlainStack) (site : Site) (w : World)
    (result : OperationResult) (s : RunnerState) : Prop where
  last : site.suspended = []
  open_ : site.base.eof = false
  unfinished : site.base.interpreterResult = none
  alike : s.Alike (site.state stack.frames w result)

namespace At

variable {stack : PlainStack} {site : Site} {w : World}
  {result : OperationResult} {s : RunnerState}

theorem frame_hasArgumentsReady (top : PlainTop) :
    top.frame.hasArgumentsReady = true := by
  cases top with
  | reading operation ctx => cases operation <;> rfl
  | sequence f done => exact f.frame_hasArgumentsReady.trans done

theorem valueRead_eq (h : stack.At site w result s) :
    s.valueRead =
      match stack.top with
      | .reading operation ctx =>
          match operation.evaluate ctx with
          | .value value => [value]
          | .blocked _ => []
      | .sequence .. => [] := by
  have hprepare := site.prepare_top (w := w) result
    (frame_hasArgumentsReady stack.top) (stack.below.map SequenceFrame.frame)
  have hactive : (site.state stack.frames w result).context.activeRead =
      (site.top stack.frames w result).inputOutput? := by
    simp only [InterpreterContext.activeRead, Site.state, frames, hprepare]
  rw [h.alike.valueRead_eq, RunnerState.valueRead, hactive]
  obtain ⟨top, below⟩ := stack
  cases top with
  | reading operation ctx =>
      have hio : (site.top (frames ⟨.reading operation ctx, below⟩) w
          result).inputOutput? = some (operation.operation, ctx) := rfl
      simp only [hio, operation.apply_eq]
      cases operation.evaluate ctx <;> rfl
  | sequence f done => rfl

/-- Resuming a sequence is what preparing its frame does. -/
theorem resume_alike (f : SequenceFrame) (below : List SequenceFrame) :
    (site.state (f.frame :: below.map SequenceFrame.frame) w result).Alike
      (site.state (resume f below).frames w result) := by
  by_cases h : f.done = true
  · rw [resume, dif_pos h]
    exact .refl _
  · have hnot : f.done = false := Bool.eq_false_iff.mpr h
    obtain ⟨pushed, hdescend, hframes⟩ := PlainReadTree.descend_eq
      (f.children.get ⟨f.accumulator.length,
        SequenceFrame.lt_of_not_done hnot⟩)
    rw [resume, dif_neg h, hframes]
    refine site.alike_child _ (f.frame_hasArgumentsReady.trans hnot) ?_ hdescend
      (below.map SequenceFrame.frame)
    have hlt := SequenceFrame.lt_of_not_done hnot
    simp only [ExecutionStackFrame.nextOp, SequenceFrame.frame,
      OpTreeNode.children, PlainReadTree.optrees_eq, List.getElem?_map,
      List.getElem?_eq_getElem hlt, Option.map_some, List.get_eq_getElem]

/-- The topmost frame yields its value. -/
theorem step_value (h : stack.At site w result s) {value : Value}
    (hexecute : ∃ ctx, stack.top.frame.execute w.pad w.errno =
      .ok ⟨.value value, ctx, w.pad, w.errno⟩) :
    (stack.below = [] ∧ s.Steps .exited (site.exited w value)) ∨
    ∃ f below t, stack.below = f :: below ∧ s.Steps .ready t ∧
      (resume (f.push value) below).At site w (.value value) t := by
  obtain ⟨top, below⟩ := stack
  obtain ⟨ctx, hexecute⟩ := hexecute
  have hready := frame_hasArgumentsReady top
  cases below with
  | nil =>
      exact Or.inl ⟨rfl, .of_alike h.alike
        (site.pass_exit _ hready hexecute h.last)⟩
  | cons f below =>
      refine Or.inr ⟨f, below, _, rfl, .of_alike h.alike
        (site.pass_value _ hready hexecute f.frame _), h.last, h.open_,
        h.unfinished, ?_⟩
      exact resume_alike (f.push value) below

/-- What one pass does to a running stack. -/
theorem step (h : stack.At site w result s) :
    (∃ value, ¬ stack.top.Waits ∧ (∀ bytes, stack.top.outcome bytes =
        ⟨s.valueRead, some value, bytes⟩) ∧
      ((stack.below = [] ∧ s.Steps .exited (site.exited w value)) ∨
      ∃ f below t, stack.below = f :: below ∧ s.Steps .ready t ∧
        (resume (f.push value) below).At site w (.value value) t)) ∨
    ∃ operation ctx ctx' report queue t,
      stack.top = .reading operation ctx ∧ operation.Waits ctx ∧
      s.valueRead = [] ∧
      operation.operation.readQueue ctx false w.input =
        .ok (report, ctx', queue) ∧
      s.Steps (.blocked report) t ∧
      PlainStack.At ⟨.reading operation ctx', stack.below⟩ site
        { w with input := queue } (.blocked .waitingForRead) t := by
  have hread := h.valueRead_eq
  obtain ⟨top, below⟩ := stack
  cases top with
  | sequence f done =>
      refine Or.inl ⟨f.last, not_false, fun bytes => ?_, ?_⟩
      · rw [hread]
        rfl
      · exact h.step_value ⟨_, f.execute_eq w.pad w.errno⟩
  | reading operation ctx =>
      rcases operation.evaluate_cases ctx with ⟨value, hvalue⟩ | hwait
      · refine Or.inl ⟨value, fun hwait => hwait.not_value value hvalue,
          fun bytes => ?_, ?_⟩
        · rw [hread]
          simp only [hvalue]
          exact PlainRead.read_of_value hvalue bytes
        · refine h.step_value ⟨.inputOutput ctx, ?_⟩
          simp only [PlainTop.frame, Site.inputOutputFrame,
            ExecutionStackFrame.execute, OpTreeNode.operation,
            operation.apply_eq, hvalue, Except.map]
      · right
        have htotal : ∀ ctx input, ∃ answer,
            operation.operation.handleRead ctx input = .ok answer :=
          fun ctx input => ⟨_, operation.handleRead_eq ctx input⟩
        obtain ⟨⟨report, ctx', queue⟩, hqueue⟩ :=
          InputOutputOperation.readQueue_total htotal ctx false w.input
        have harity : operation.operation.arity ≤ ([] : List Value).length := by
          cases operation <;> exact Nat.le_refl 0
        refine ⟨operation, ctx, ctx', report, queue, _, rfl, hwait, ?_, hqueue,
          .of_alike h.alike (site.pass_waiting _ [] harity hwait _ ?_), h.last,
          h.open_, h.unfinished, .refl _⟩
        · rw [hread]
          simp only [(PlainRead.evaluate_waiting_iff operation ctx).mpr hwait]
        · rw [h.open_]
          exact hqueue

end At

end PlainStack

/-- The state stands for the reading of its queue and the bytes to come. -/
inductive Reads : RunnerState → (Octets → ReadOutcome) → Prop where
  | running {stack : PlainStack} {site : Site} {w : World}
      {result : OperationResult} {s : RunnerState} :
      stack.At site w result s →
      Reads s fun future => stack.outcome (w.input.flatten ++ future)
  | exited {s : RunnerState} {value : Value} : s.context.exited = true →
      s.context.interpreterResult = some value →
      s.context.activeRead = none →
      Reads s fun future =>
        ⟨[], some value, s.context.inputBuffer.flatten ++ future⟩

namespace Reads

variable {s t : RunnerState} {reading : Octets → ReadOutcome}

theorem push (h : Reads s reading) (data : Octets) :
    Reads (s.push data) fun future => reading (data ++ future) := by
  cases h with
  | @running stack site w result _ hat =>
      have hat' : stack.At site { w with input := w.input ++ [data] } result
          (s.push data) :=
        ⟨hat.last, hat.open_, hat.unfinished, hat.alike.push data⟩
      have hreading := Reads.running hat'
      simp only [List.flatten_append, List.flatten_singleton,
        List.append_assoc] at hreading
      exact hreading
  | exited hexited hresult hidle =>
      have hreading := Reads.exited (s := s.push data) hexited hresult hidle
      simp only [RunnerState.push, List.flatten_append,
        List.flatten_singleton, List.append_assoc] at hreading
      exact hreading

/-- A pass keeps the reading, less the value it yields. -/
theorem pass (h : Reads s reading) :
    ∃ t reading', s.pass = .ok t ∧ Reads t reading' ∧ ∀ future,
      reading future = { reading' future with
        values := s.valueRead ++ (reading' future).values } := by
  cases h with
  | @running stack site w result _ hat =>
      rcases hat.step with
        ⟨value, _, hvalue, ⟨hbelow, hstep⟩ |
          ⟨f, below, t, hbelow, hstep, hat'⟩⟩ |
        ⟨operation, ctx, ctx', report, queue, t, htop, hwait, hread, hqueue,
          hstep, hat'⟩
      · refine ⟨_, _, hstep.pass, .exited rfl rfl rfl, fun future => ?_⟩
        simp only [PlainStack.outcome, hvalue, hbelow, ReadOutcome.andThen,
          PlainStack.resumed]
        rfl
      · refine ⟨_, _, hstep.pass, .running hat', fun future => ?_⟩
        simp only [PlainStack.resume_outcome]
        simp only [PlainStack.outcome, hvalue, hbelow, ReadOutcome.andThen,
          PlainStack.resumed]
      · refine ⟨_, _, hstep.pass, .running hat', fun future => ?_⟩
        have hsame := (PlainRead.readQueue_spec hwait hqueue).1 future
        simp only [PlainStack.outcome, htop, PlainTop.outcome, hsame, hread,
          List.nil_append]
  | exited hexited hresult hidle =>
      refine ⟨_, _, RunnerState.pass_of_exited hexited,
        .exited hexited hresult hidle, fun future => ?_⟩
      simp only [RunnerState.valueRead, hidle, List.nil_append]

/-- A settled state has nothing more to read from its queue. -/
theorem settled (h : Reads s reading) (hs : s.Settled) :
    reading [] = ⟨[], s.context.interpreterResult,
      s.context.inputBuffer.flatten⟩ := by
  cases h with
  | @running stack site w result _ hat =>
      have hrunning : s.context.exited = false :=
        hat.alike.exited_eq.trans site.running
      have hunfinished : s.context.interpreterResult = none := by
        rcases hat.alike.symm with heq | ⟨_, _, _, _, heq⟩
        · rw [← heq]
          exact hat.unfinished
        · rw [heq]
          exact hat.unfinished
      rcases hat.step with
        ⟨value, _, hvalue, ⟨_, hstep⟩ | ⟨_, _, _, _, hstep, _⟩⟩ |
        ⟨operation, ctx, ctx', report, queue, t, htop, hwait, hread, hqueue,
          hstep, hat'⟩
      · exact absurd hs (hstep.not_settled hrunning (by simp))
      · exact absurd hs (hstep.not_settled hrunning (by simp))
      · have hreport : report = .stillBlocked := by
          by_contra hne
          exact hstep.not_settled hrunning (by simpa using hne) hs
        have hstuck := (PlainRead.readQueue_spec hwait hqueue).2.1 hreport
        have hbuffer : s.context.inputBuffer = w.input :=
          hat.alike.inputBuffer_eq
        simp only [List.append_nil, PlainStack.outcome, htop,
          PlainTop.outcome, hstuck, ReadOutcome.andThen, hunfinished, hbuffer]
  | exited hexited hresult hidle => simp only [hresult, List.append_nil]

/-- The delivery of chunks keeps the reading, less what was read. -/
theorem run (h : Reads s reading) {events : List RunnerEvent}
    {chunks : List Octets} (hdelivers : RunnerState.Delivers events chunks) :
    ∃ t reading', run RunnerState.event events s = .ok t ∧
      Reads t reading' ∧ ∀ future, reading (chunks.flatten ++ future) =
        { reading' future with
          values := RunnerState.valuesRead events s ++
            (reading' future).values } := by
  induction hdelivers generalizing s reading with
  | nil => exact ⟨s, reading, rfl, h, fun future => rfl⟩
  | @chunk data events chunks _ ih =>
      have hstep : RunnerState.event (.chunk data) s = .ok (s.push data) := rfl
      obtain ⟨t, reading', hrun, ht, hreading⟩ := ih (h.push data)
      refine ⟨t, reading', ?_, ht, fun future => ?_⟩
      · rw [run_cons_of_ok hstep, hrun]
      · rw [List.flatten_cons, List.append_assoc, hreading future]
        simp only [RunnerState.valuesRead, hstep, List.nil_append]
  | @pass events chunks _ ih =>
      obtain ⟨middle, reading₁, hpass, hmiddle, hfirst⟩ := h.pass
      have hstep : RunnerState.event .pass s = .ok middle := hpass
      obtain ⟨t, reading', hrun, ht, hreading⟩ := ih hmiddle
      refine ⟨t, reading', ?_, ht, fun future => ?_⟩
      · rw [run_cons_of_ok hstep, hrun]
      · rw [hfirst, hreading future]
        simp only [RunnerState.valuesRead, hstep, List.append_assoc]

end Reads

/-- A running stack whose topmost operation waits gets its value or the run
settles. -/
theorem PlainStack.At.settles_or_ready {below : List SequenceFrame}
    {operation : PlainRead} {ctx : InputOutputOperationContext} {site : Site}
    {w : World} {result : OperationResult} {s : RunnerState}
    (h : PlainStack.At ⟨.reading operation ctx, below⟩ site w result s)
    (hwait : operation.Waits ctx) :
    ∃ t, s.Passes t ∧ (t.Settled ∨ ∃ ctx' w' result',
      ¬ operation.Waits ctx' ∧
      PlainStack.At ⟨.reading operation ctx', below⟩ site w' result' t) := by
  induction hn : w.input.flatten.length + w.input.length using
      Nat.strong_induction_on generalizing ctx w result s with
  | _ n ih =>
      rcases h.step with ⟨value, hready, _⟩ |
        ⟨operation', ctx₁, ctx', report, queue, t, htop, _, _, hqueue, hstep,
          hat⟩
      · exact absurd hwait hready
      · obtain ⟨rfl, rfl⟩ := PlainTop.reading.inj htop
        by_cases hstill : report = .stillBlocked
        · subst hstill
          exact ⟨s, Reaches.refl s, Or.inl (Or.inr ⟨_, _, hstep⟩)⟩
        · by_cases hwait' : operation.Waits ctx'
          · have hless := (PlainRead.readQueue_spec hwait hqueue).2.2 hwait'
              hstill
            obtain ⟨u, hu, hdone⟩ := ih _ (hn ▸ hless) hat hwait' rfl
            exact ⟨u, Reaches.head hstep.pass hu, hdone⟩
          · exact ⟨t, Reaches.single hstep.pass,
              Or.inr ⟨ctx', _, _, hwait', hat⟩⟩

/-- Passes alone settle a running stack. -/
theorem PlainStack.At.settles {stack : PlainStack} {site : Site} {w : World}
    {result : OperationResult} {s : RunnerState}
    (h : stack.At site w result s) : ∃ t, s.Passes t ∧ t.Settled := by
  induction hn : stack.work using Nat.strong_induction_on
      generalizing stack w result s with
  | _ n ih =>
      have hyield : ∀ {top' : PlainTop} {w' : World}
          {result' : OperationResult} {s' : RunnerState},
          PlainStack.At ⟨top', stack.below⟩ site w' result' s' →
          ¬ top'.Waits → ∃ t, s'.Passes t ∧ t.Settled := by
        intro top' w' result' s' hat hready
        rcases hat.step with
          ⟨value, _, _, ⟨_, hstep⟩ | ⟨f, below, t, hbelow, hstep, hat'⟩⟩ |
          ⟨operation, ctx, _, _, _, _, htop, hwait, _⟩
        · exact ⟨_, Reaches.single hstep.pass, Or.inl rfl⟩
        · have hwork := PlainStack.resume_work f value below
          have htotal : stack.work = 1 + PlainStack.workBelow stack.below :=
            rfl
          have hless : (PlainStack.resume (f.push value) below).work < n := by
            rw [hbelow] at htotal
            omega
          obtain ⟨u, hu, hsettled⟩ := ih _ hless hat' rfl
          exact ⟨u, Reaches.head hstep.pass hu, hsettled⟩
        · simp only at htop
          rw [htop] at hready
          exact absurd hwait hready
      by_cases hwait : stack.top.Waits
      · obtain ⟨top, below⟩ := stack
        cases top with
        | sequence f done => exact hwait.elim
        | reading operation ctx =>
            obtain ⟨t, ht, hsettled | ⟨ctx', w', result', hready, hat⟩⟩ :=
              h.settles_or_ready hwait
            · exact ⟨t, ht, hsettled⟩
            · obtain ⟨u, hu, hsettled⟩ := hyield hat hready
              exact ⟨u, ht.trans hu, hsettled⟩
      · exact hyield h hwait

theorem Reads.settles {s : RunnerState} {reading : Octets → ReadOutcome}
    (h : Reads s reading) : ∃ t, s.Passes t ∧ t.Settled := by
  cases h with
  | running hat => exact hat.settles
  | exited hexited _ _ => exact ⟨s, Reaches.refl s, Or.inl hexited⟩

namespace PlainReadTree

/-- A freshly started tree stands for its meaning. -/
theorem start_reads (tree : PlainReadTree) (arglist : Option Value)
    (errno : Errno) :
    Reads (RunnerState.start tree.optree arglist errno) tree.run := by
  let start := RunnerState.start tree.optree arglist errno
  let site : Site := ⟨start.context, true, [], rfl⟩
  let w : World := ⟨start.context.interpreter.top.pad, errno, [], []⟩
  have hstart : start = site.state [ExecutionStackFrame.new tree.optree] w
      (.value (.bool false)) := by
    cases arglist <;> rfl
  obtain ⟨pushed, hdescend, hframes⟩ := tree.descend_eq
  have halike := site.alike_new (w := w) (.value (.bool false))
    hdescend []
  have hframes' := hframes []
  rw [List.map_nil] at hframes'
  rw [← hstart, ← hframes'] at halike
  have hat : (tree.enter []).At site w (.value (.bool false)) start :=
    ⟨rfl, rfl, rfl, halike⟩
  have hreading := Reads.running hat
  have hrun : (fun future => (tree.enter []).outcome
      (w.input.flatten ++ future)) = tree.run := by
    funext future
    rw [tree.enter_outcome, List.flatten_nil, List.nil_append]
    rcases hrun : tree.run future with ⟨values, _ | value, rest⟩
    · rfl
    · simp [ReadOutcome.andThen, PlainStack.resumed]
  rw [hrun] at hreading
  exact hreading

end PlainReadTree

/-- What a run that ended in `s` shows: the values read, the result, and the
bytes still unconsumed. -/
def RunnerState.observed (events : List RunnerEvent) (start s : RunnerState) :
    ReadOutcome :=
  ⟨valuesRead events start, s.context.interpreterResult,
    s.context.inputBuffer.flatten⟩

/-- A settled run has read what the tree means on the whole stream. -/
theorem PlainReadTree.observed_eq (tree : PlainReadTree)
    {arglist : Option Value} {errno : Errno} {events : List RunnerEvent}
    {chunks : List Octets} (hdelivers : RunnerState.Delivers events chunks)
    {s : RunnerState}
    (hrun : Run.run RunnerState.event events
      (RunnerState.start tree.optree arglist errno) = .ok s)
    (hs : s.Settled) :
    RunnerState.observed events
      (RunnerState.start tree.optree arglist errno) s =
        tree.run chunks.flatten := by
  obtain ⟨t, reading, hrun', ht, hreading⟩ :=
    (tree.start_reads arglist errno).run hdelivers
  obtain rfl := Except.ok.inj (hrun.symm.trans hrun')
  have hfinal := hreading []
  rw [List.append_nil] at hfinal
  rw [hfinal, ht.settled hs, RunnerState.observed, List.append_nil]

namespace PlainReadTree

/-- Every run that delivers the chunks goes through and is brought to rest by
passes alone; at rest it shows what a run shows at rest that gets the whole
stream in one chunk. -/
def FragmentationIndependent (tree : PlainReadTree) (arglist : Option Value)
    (errno : Errno) (chunks : List Octets) : Prop :=
  let start := RunnerState.start tree.optree arglist errno
  ∀ events, RunnerState.Delivers events chunks →
    ∃ s, Run.run RunnerState.event events start = .ok s ∧
      (∃ t, s.Passes t ∧ t.Settled) ∧
      (s.Settled → ∀ whole t, RunnerState.Delivers whole [chunks.flatten] →
        Run.run RunnerState.event whole start = .ok t → t.Settled →
        RunnerState.observed events start s =
          RunnerState.observed whole start t)

/-- Plain reading does not depend on how the stream is cut into chunks and how
the passes are interleaved with their arrival. -/
theorem fragmentationIndependent (tree : PlainReadTree)
    (arglist : Option Value) (errno : Errno) (chunks : List Octets) :
    tree.FragmentationIndependent arglist errno chunks := by
  intro events hdelivers
  obtain ⟨s, reading, hrun, hreads, _⟩ :=
    (tree.start_reads arglist errno).run hdelivers
  refine ⟨s, hrun, hreads.settles, ?_⟩
  intro hs whole t hwhole hrun' ht
  rw [tree.observed_eq hdelivers hrun hs,
    tree.observed_eq hwhole hrun' ht, List.flatten_singleton]

end PlainReadTree

end NetworkProtocolDsl
