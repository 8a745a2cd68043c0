/-
The work queue of the loop thread.

A call of `push_work` tests the shutdown flag, pushes its item and signals the
handle, one access at a time; the flag is set by an item of the same queue, on
the loop thread.  An item that is pushed after the loop thread has found the
queue empty for the last time stays in it.
-/
import Mathlib.Logic.Function.Basic
import NetworkProtocolDsl.Library.Run
import NetworkProtocolDsl.Value

namespace NetworkProtocolDsl

open Run

/-- The item of a call, by its thread and the number of the thread's calls
before; that of `shutdown` closes the handle. -/
structure QueueItem (ι : Type) where
  thread : ι
  index : Nat
  closes : Bool
deriving DecidableEq

/-- Where a thread is in `push_work`, or before it in `shutdown`. -/
inductive PushPoint (ι : Type) where
  | idle
  | testingShutdown
  | testing (item : QueueItem ι)
  | pushing (item : QueueItem ι)
  | sending (item : QueueItem ι)

/-- Where the loop thread is; `waiting` is outside of `process`. -/
inductive WorkerPoint (ι : Type) where
  | waiting
  | popping
  | executing (item : QueueItem ι)
  | storing (item : QueueItem ι)

/-- `handleOpen` and `pending` are what libuv knows of the handle.  `settled`
counts the calls of a thread whose item was pushed or refused. -/
structure AsyncWorkQueue (ι : Type) where
  shutdownCalled : Bool := false
  handleOpen : Bool := true
  pending : Bool := false
  workQueue : List (QueueItem ι) := []
  point : ι → PushPoint ι := fun _ => .idle
  loop : WorkerPoint ι := .waiting
  settled : ι → Nat := fun _ => 0
  executed : List (QueueItem ι) := []
  returned : List (QueueItem ι) := []
  threw : List (QueueItem ι) := []

/-- The steps the scheduler may choose. -/
inductive QueueEvent (ι : Type) where
  | pushWork (i : ι)
  | shutdown (i : ι)
  | step (i : ι)
  | loopThread

namespace AsyncWorkQueue

variable {ι : Type} [DecidableEq ι]

def goTo (s : AsyncWorkQueue ι) (i : ι) (point : PushPoint ι) :
    AsyncWorkQueue ι :=
  { s with point := Function.update s.point i point }

/-- A call has pushed its item, or was refused. -/
def settle (s : AsyncWorkQueue ι) (i : ι) (point : PushPoint ι) :
    AsyncWorkQueue ι :=
  { s.goTo i point with
    settled := Function.update s.settled i (s.settled i + 1) }

/-- One access of `push_work` or `shutdown`. -/
def pushStep (s : AsyncWorkQueue ι) (i : ι) : AsyncWorkQueue ι :=
  match s.point i with
  | .idle => s
  | .testingShutdown =>
      if s.shutdownCalled then s.goTo i .idle
      else s.goTo i (.testing ⟨i, s.settled i, true⟩)
  | .testing item =>
      if s.shutdownCalled then
        { s.settle i .idle with threw := s.threw ++ [item] }
      else s.goTo i (.pushing item)
  | .pushing item =>
      { s.settle i (.sending item) with workQueue := s.workQueue ++ [item] }
  | .sending item =>
      { s.goTo i .idle with
        pending := s.pending || s.handleOpen
        returned := s.returned ++ [item] }

/-- One step of the loop thread.  The callback of an open handle runs `process`,
and the item of `shutdown` is a `uv_close` and a store. -/
def loopStep (s : AsyncWorkQueue ι) : AsyncWorkQueue ι :=
  match s.loop with
  | .waiting =>
      if s.pending && s.handleOpen then
        { s with pending := false, loop := .popping }
      else s
  | .popping =>
      match s.workQueue with
      | [] => { s with loop := .waiting }
      | item :: queue => { s with workQueue := queue, loop := .executing item }
  | .executing item =>
      if item.closes then
        { s with handleOpen := false, loop := .storing item }
      else { s with executed := s.executed ++ [item], loop := .popping }
  | .storing item =>
      { s with
        shutdownCalled := true
        executed := s.executed ++ [item]
        loop := .popping }

def event : QueueEvent ι → AsyncWorkQueue ι →
    Except Fault (AsyncWorkQueue ι)
  | .pushWork i, s =>
      match s.point i with
      | .idle => .ok (s.goTo i (.testing ⟨i, s.settled i, false⟩))
      | _ => .ok s
  | .shutdown i, s =>
      match s.point i with
      | .idle => .ok (s.goTo i .testingShutdown)
      | _ => .ok s
  | .step i, s => .ok (s.pushStep i)
  | .loopThread, s => .ok s.loopStep

/-- The event is a step of the loop thread. -/
def isLoopThread : QueueEvent ι → Bool
  | .loopThread => true
  | _ => false

/-- Whatever the other threads do, the item is executed once the loop thread
has taken so many steps. -/
def WillExecute (s : AsyncWorkQueue ι) (item : QueueItem ι) : Prop :=
  ∃ n, ∀ events t, n ≤ events.countP isLoopThread →
    run event events s = .ok t → item ∈ t.executed

/-- Two items of one thread are in the order of the calls, so no item is there
twice. -/
def InOrder (items : List (QueueItem ι)) : Prop :=
  items.Pairwise fun first second =>
    first.thread = second.thread → first.index < second.index

/-- What the queue promises its callers. -/
structure LosesNoWork (s : AsyncWorkQueue ι) : Prop where
  accepted : ∀ item ∈ s.returned, s.WillExecute item
  once : s.executed.Nodup
  inOrder : InOrder s.executed
  refused : ∀ item ∈ s.threw, item ∉ s.executed

/-- No call pushes its item when the handle is closed and the loop thread has
left `process`. -/
def PushesInTime (e : QueueEvent ι) (s : AsyncWorkQueue ι) : Prop :=
  ∀ i item, e = .step i → s.point i = .pushing item →
    s.handleOpen = true ∨ s.loop ≠ .waiting

/-- The item the loop thread has popped. -/
def inHand : WorkerPoint ι → List (QueueItem ι)
  | .executing item | .storing item => [item]
  | _ => []

/-- All items that were pushed, in the order of the pushes. -/
def pushed (s : AsyncWorkQueue ι) : List (QueueItem ι) :=
  s.executed ++ (inHand s.loop ++ s.workQueue)

/-- A call that is not settled has the next number of its thread, and the item
of a call that has not returned is not among the returned ones. -/
def PointInvariant (s : AsyncWorkQueue ι) (i : ι) : PushPoint ι → Prop
  | .testing item | .pushing item =>
      item.thread = i ∧ item.index = s.settled i
  | .sending item => item.thread = i ∧ item ∈ s.pushed ∧ item ∉ s.returned
  | _ => True

/-- Where the items are. -/
structure Accounted (s : AsyncWorkQueue ι) : Prop where
  inOrder : InOrder s.pushed
  settled : ∀ item ∈ s.pushed ++ s.threw, item.index < s.settled item.thread
  points : ∀ i, s.PointInvariant i (s.point i)
  refused : ∀ item ∈ s.threw, item ∉ s.pushed
  returned : ∀ item ∈ s.returned, item ∈ s.pushed

/-- Outside of `process` a signal is pending for every item in the queue, or
its call is about to send it. -/
def Covered (s : AsyncWorkQueue ι) : Prop :=
  s.loop = .waiting → ∀ item ∈ s.workQueue,
    s.handleOpen = true ∧
      (s.pending = true ∨ s.point item.thread = .sending item)

variable {s t : AsyncWorkQueue ι} {i : ι} {e : QueueEvent ι}
  {item : QueueItem ι}

omit [DecidableEq ι] in
theorem InOrder.nodup {items : List (QueueItem ι)} (h : InOrder items) :
    items.Nodup := by
  refine h.imp fun {first second} hlt heq => ?_
  subst heq
  exact Nat.lt_irrefl _ (hlt rfl)

omit [DecidableEq ι] in
/-- What a step of other threads leaves of the place of a thread. -/
theorem PointInvariant.frame {point : PushPoint ι}
    (h : s.PointInvariant i point) (hsettled : t.settled i = s.settled i)
    (hpushed : s.pushed ⊆ t.pushed)
    (hreturned : ∀ item ∈ t.returned, item.thread = i →
      item ∈ s.returned) : t.PointInvariant i point := by
  cases point with
  | idle => trivial
  | testingShutdown => trivial
  | testing item => exact ⟨h.1, by rw [hsettled]; exact h.2⟩
  | pushing item => exact ⟨h.1, by rw [hsettled]; exact h.2⟩
  | sending item =>
      obtain ⟨hthread, hmem, hnot⟩ := h
      exact ⟨hthread, hpushed hmem,
        fun hret => hnot (hreturned item hret hthread)⟩

theorem Accounted.goTo {point : PushPoint ι} (h : s.Accounted)
    (hpoint : s.PointInvariant i point) : (s.goTo i point).Accounted := by
  refine ⟨h.inOrder, h.settled, fun j => ?_, h.refused, h.returned⟩
  have hkeeps : s.PointInvariant j ((s.goTo i point).point j) := by
    change s.PointInvariant j (Function.update s.point i point j)
    by_cases hji : j = i
    · subst hji
      rwa [Function.update_self]
    · rw [Function.update_of_ne hji]
      exact h.points j
  exact hkeeps.frame rfl (List.Subset.refl _) fun _ hmem _ => hmem

omit [DecidableEq ι] in
theorem pushed_append (items : List (QueueItem ι)) :
    pushed { s with workQueue := s.workQueue ++ items } =
      s.pushed ++ items := by
  simp only [pushed, List.append_assoc]

/-- A call that is settled takes the next number of its thread. -/
theorem settled_update {settled : ι → Nat} {before after : List (QueueItem ι)}
    (h : ∀ other ∈ before, other.index < settled other.thread)
    (hindex : item.index = settled item.thread)
    (hafter : ∀ other ∈ after, other ∈ before ∨ other = item) :
    ∀ other ∈ after, other.index < Function.update settled item.thread
      (settled item.thread + 1) other.thread := by
  intro other hmem
  by_cases hthread : other.thread = item.thread
  · rw [hthread, Function.update_self]
    rcases hafter other hmem with hold | rfl
    · have hlt := h other hold
      rw [hthread] at hlt
      exact Nat.lt_succ_of_lt hlt
    · rw [hindex]
      exact Nat.lt_succ_self _
  · rw [Function.update_of_ne hthread]
    rcases hafter other hmem with hold | rfl
    · exact h other hold
    · contradiction

/-- A call pushes its item. -/
theorem Accounted.push (h : s.Accounted) (hpoint : s.point i = .pushing item) :
    Accounted { s.settle i (.sending item) with
      workQueue := s.workQueue ++ [item] } := by
  obtain ⟨hthread, hindex⟩ : item.thread = i ∧ item.index = s.settled i := by
    have hi := h.points i
    rwa [hpoint] at hi
  subst hthread
  have hpushed : pushed { s.settle item.thread (.sending item) with
      workQueue := s.workQueue ++ [item] } = s.pushed ++ [item] :=
    pushed_append [item]
  have hfresh : ∀ other ∈ s.pushed ++ s.threw, other.thread = item.thread →
      other.index < item.index := by
    intro other hmem heq
    have hlt := h.settled other hmem
    rwa [heq, ← hindex] at hlt
  have hnew : item ∉ s.pushed ++ s.threw :=
    fun hmem => Nat.lt_irrefl _ (hfresh item hmem rfl)
  constructor
  · rw [hpushed]
    refine List.pairwise_append.mpr ⟨h.inOrder, List.pairwise_singleton _ _,
      fun first hfirst second hsecond => ?_⟩
    obtain rfl := List.mem_singleton.mp hsecond
    exact hfresh first (List.mem_append_left _ hfirst)
  · refine settled_update h.settled hindex fun other hmem => ?_
    rw [hpushed, List.mem_append, List.mem_append] at hmem
    rcases hmem with (hmem | hmem) | hmem
    · exact Or.inl (List.mem_append_left _ hmem)
    · exact Or.inr (List.mem_singleton.mp hmem)
    · exact Or.inl (List.mem_append_right _ hmem)
  · intro j
    change PointInvariant _ j
      (Function.update s.point item.thread (.sending item) j)
    by_cases hj : j = item.thread
    · subst hj
      rw [Function.update_self]
      refine ⟨rfl, ?_, fun hret => hnew ?_⟩
      · rw [hpushed]
        exact List.mem_append_right _ List.mem_cons_self
      · exact List.mem_append_left _ (h.returned item hret)
    · rw [Function.update_of_ne hj]
      refine (h.points j).frame (Function.update_of_ne hj _ _) ?_
        fun _ hmem _ => hmem
      rw [hpushed]
      exact List.subset_append_left _ _
  · rw [hpushed]
    intro other hthrew hmem
    rcases List.mem_append.mp hmem with hmem | hmem
    · exact h.refused other hthrew hmem
    · obtain rfl := List.mem_singleton.mp hmem
      exact hnew (List.mem_append_right _ hthrew)
  · rw [hpushed]
    exact fun other hret => List.mem_append_left _ (h.returned other hret)

/-- A call throws. -/
theorem Accounted.throw (h : s.Accounted) (hpoint : s.point i = .testing item) :
    Accounted { s.settle i .idle with threw := s.threw ++ [item] } := by
  obtain ⟨hthread, hindex⟩ : item.thread = i ∧ item.index = s.settled i := by
    have hi := h.points i
    rwa [hpoint] at hi
  subst hthread
  have hnew : item ∉ s.pushed := by
    intro hmem
    have hlt := h.settled item (List.mem_append_left _ hmem)
    rw [hindex] at hlt
    exact Nat.lt_irrefl _ hlt
  constructor
  · exact h.inOrder
  · refine settled_update h.settled hindex fun other hmem => ?_
    rcases List.mem_append.mp hmem with hmem | hmem
    · exact Or.inl (List.mem_append_left _ hmem)
    · rcases List.mem_append.mp hmem with hmem | hmem
      · exact Or.inl (List.mem_append_right _ hmem)
      · exact Or.inr (List.mem_singleton.mp hmem)
  · intro j
    change PointInvariant _ j (Function.update s.point item.thread .idle j)
    by_cases hj : j = item.thread
    · subst hj
      rw [Function.update_self]
      trivial
    · rw [Function.update_of_ne hj]
      exact (h.points j).frame (Function.update_of_ne hj _ _)
        (List.Subset.refl _) fun _ hmem _ => hmem
  · intro other hmem
    rcases List.mem_append.mp hmem with hmem | hmem
    · exact h.refused other hmem
    · obtain rfl := List.mem_singleton.mp hmem
      exact hnew
  · exact h.returned

/-- A call returns. -/
theorem Accounted.return (h : s.Accounted)
    (hpoint : s.point i = .sending item) :
    Accounted { s.goTo i .idle with
      pending := s.pending || s.handleOpen
      returned := s.returned ++ [item] } := by
  obtain ⟨hthread, hmem, _⟩ :
      item.thread = i ∧ item ∈ s.pushed ∧ item ∉ s.returned := by
    have hi := h.points i
    rwa [hpoint] at hi
  refine ⟨h.inOrder, h.settled, fun j => ?_, h.refused, fun other hret => ?_⟩
  · change PointInvariant _ j (Function.update s.point i .idle j)
    by_cases hj : j = i
    · subst hj
      rw [Function.update_self]
      trivial
    · rw [Function.update_of_ne hj]
      refine (h.points j).frame rfl (List.Subset.refl _)
        fun other hret hj' => ?_
      rcases List.mem_append.mp hret with hret | hret
      · exact hret
      · obtain rfl := List.mem_singleton.mp hret
        exact absurd (hj'.symm.trans hthread) hj
  · rcases List.mem_append.mp hret with hret | hret
    · exact h.returned other hret
    · obtain rfl := List.mem_singleton.mp hret
      exact hmem

omit [DecidableEq ι] in
/-- A call begins. -/
theorem pointInvariant_testing (i : ι) (closes : Bool) :
    s.PointInvariant i (.testing ⟨i, s.settled i, closes⟩) :=
  ⟨rfl, rfl⟩

theorem Accounted.pushStep (h : s.Accounted) (i : ι) :
    (s.pushStep i).Accounted := by
  unfold AsyncWorkQueue.pushStep
  split
  · exact h
  · split
    · exact h.goTo trivial
    · exact h.goTo (pointInvariant_testing i true)
  · rename_i item hpoint
    split
    · exact h.throw hpoint
    · refine h.goTo ?_
      have hi := h.points i
      rwa [hpoint] at hi
  · rename_i item hpoint
    exact h.push hpoint
  · rename_i item hpoint
    exact h.return hpoint

omit [DecidableEq ι] in
/-- The loop thread moves the items on, in their order. -/
theorem pushed_loopStep (s : AsyncWorkQueue ι) :
    s.loopStep.pushed = s.pushed := by
  unfold loopStep
  split
  · split
    · rename_i hloop _
      simp [pushed, inHand, hloop]
    · rfl
  · rename_i hloop
    split
    · rename_i hqueue
      simp [pushed, inHand, hloop, hqueue]
    · rename_i item queue hqueue
      simp [pushed, inHand, hloop, hqueue]
  · rename_i item hloop
    split
    · simp [pushed, inHand, hloop]
    · simp [pushed, inHand, hloop]
  · rename_i item hloop
    simp [pushed, inHand, hloop]

omit [DecidableEq ι] in
theorem Accounted.loopStep (h : s.Accounted) : s.loopStep.Accounted := by
  have hsame : s.loopStep.settled = s.settled ∧
      s.loopStep.point = s.point ∧ s.loopStep.threw = s.threw ∧
      s.loopStep.returned = s.returned := by
    unfold AsyncWorkQueue.loopStep
    split
    · split <;> exact ⟨rfl, rfl, rfl, rfl⟩
    · split <;> exact ⟨rfl, rfl, rfl, rfl⟩
    · split <;> exact ⟨rfl, rfl, rfl, rfl⟩
    · exact ⟨rfl, rfl, rfl, rfl⟩
  obtain ⟨hsettled, hpoint, hthrew, hreturned⟩ := hsame
  have hpushed := pushed_loopStep s
  constructor
  · rw [hpushed]
    exact h.inOrder
  · rw [hpushed, hthrew, hsettled]
    exact h.settled
  · intro i
    rw [hpoint]
    refine (h.points i).frame (by rw [hsettled]) ?_ fun item hmem _ => ?_
    · rw [hpushed]
      exact List.Subset.refl _
    · rwa [hreturned] at hmem
  · rw [hpushed, hthrew]
    exact h.refused
  · rw [hpushed, hreturned]
    exact h.returned

theorem Accounted.event (h : s.Accounted)
    (hstep : AsyncWorkQueue.event e s = .ok t) : t.Accounted := by
  cases e with
  | pushWork i =>
      simp only [AsyncWorkQueue.event] at hstep
      split at hstep
      · obtain rfl := Except.ok.inj hstep
        exact h.goTo (pointInvariant_testing i false)
      · obtain rfl := Except.ok.inj hstep
        exact h
  | shutdown i =>
      simp only [AsyncWorkQueue.event] at hstep
      split at hstep
      · obtain rfl := Except.ok.inj hstep
        exact h.goTo trivial
      · obtain rfl := Except.ok.inj hstep
        exact h
  | step i =>
      obtain rfl := Except.ok.inj hstep
      exact h.pushStep i
  | loopThread =>
      obtain rfl := Except.ok.inj hstep
      exact h.loopStep

/-- A thread that is not about to send leaves the queue covered. -/
theorem Covered.goTo {point : PushPoint ι} (h : s.Covered)
    (hpoint : ∀ item, s.point i ≠ .sending item) :
    (s.goTo i point).Covered := by
  intro hloop item hmem
  obtain ⟨hopen, hcover⟩ := h hloop item hmem
  refine ⟨hopen, hcover.imp id fun hsending => ?_⟩
  have hne : item.thread ≠ i := by
    rintro rfl
    exact hpoint item hsending
  exact (Function.update_of_ne hne _ _).trans hsending

theorem Covered.pushStep (h : s.Covered) (hs : s.Accounted)
    (hintime : PushesInTime (.step i) s) : (s.pushStep i).Covered := by
  have hi := hs.points i
  unfold AsyncWorkQueue.pushStep
  split
  · exact h
  · rename_i hpoint
    have hnot : ∀ item, s.point i ≠ .sending item := by simp [hpoint]
    split
    · exact h.goTo hnot
    · exact h.goTo hnot
  · rename_i item hpoint
    have hnot : ∀ item, s.point i ≠ .sending item := by simp [hpoint]
    split
    · exact h.goTo hnot
    · exact h.goTo hnot
  · rename_i item hpoint
    have hnot : ∀ item, s.point i ≠ .sending item := by simp [hpoint]
    have hrest : (s.goTo i (.sending item)).Covered := h.goTo hnot
    intro hloop other hmem
    rcases List.mem_append.mp hmem with hmem | hmem
    · exact hrest hloop other hmem
    · obtain rfl := List.mem_singleton.mp hmem
      rw [hpoint] at hi
      obtain ⟨rfl, _⟩ := hi
      refine ⟨?_, Or.inr (Function.update_self _ _ _)⟩
      rcases hintime _ other rfl hpoint with hopen | hbusy
      · exact hopen
      · exact absurd hloop hbusy
  · rename_i item hpoint
    intro hloop other hmem
    obtain ⟨hopen, _⟩ := h hloop other hmem
    have hpending : (s.pending || s.handleOpen) = true := by
      rw [hopen, Bool.or_true]
    exact ⟨hopen, Or.inl hpending⟩

omit [DecidableEq ι] in
theorem Covered.loopStep (h : s.Covered) : s.loopStep.Covered := by
  unfold AsyncWorkQueue.loopStep
  split
  · split
    · exact nofun
    · exact h
  · split
    · rename_i hqueue
      intro _ item hmem
      have hqueued : item ∈ s.workQueue := hmem
      rw [hqueue] at hqueued
      exact absurd hqueued List.not_mem_nil
    · exact nofun
  · split
    · exact nofun
    · exact nofun
  · exact nofun

theorem Covered.event (h : s.Covered) (hs : s.Accounted)
    (hintime : PushesInTime e s)
    (hstep : AsyncWorkQueue.event e s = .ok t) : t.Covered := by
  cases e with
  | pushWork i =>
      simp only [AsyncWorkQueue.event] at hstep
      split at hstep
      · rename_i hpoint
        obtain rfl := Except.ok.inj hstep
        exact h.goTo (by simp [hpoint])
      · obtain rfl := Except.ok.inj hstep
        exact h
  | shutdown i =>
      simp only [AsyncWorkQueue.event] at hstep
      split at hstep
      · rename_i hpoint
        obtain rfl := Except.ok.inj hstep
        exact h.goTo (by simp [hpoint])
      · obtain rfl := Except.ok.inj hstep
        exact h
  | step i =>
      obtain rfl := Except.ok.inj hstep
      exact h.pushStep hs hintime
  | loopThread =>
      obtain rfl := Except.ok.inj hstep
      exact h.loopStep

/-- The steps the loop thread still takes for what it is doing. -/
def loopCost : WorkerPoint ι → Nat
  | .waiting | .storing _ => 1
  | .popping => 0
  | .executing _ => 2

/-- The item is executed after so many steps of the loop thread. -/
def Due (item : QueueItem ι) (n : Nat) (s : AsyncWorkQueue ι) : Prop :=
  item ∈ s.executed ∨
  item ∈ inHand s.loop ∧ loopCost s.loop ≤ n ∨
  ∃ before after, s.workQueue = before ++ item :: after ∧
    (s.loop = .waiting → s.pending = true ∧ s.handleOpen = true) ∧
    3 * before.length + loopCost s.loop + 3 ≤ n

omit [DecidableEq ι] in
theorem Due.executed (h : Due item 0 s) : item ∈ s.executed := by
  rcases h with hmem | ⟨hmem, hcost⟩ | ⟨before, after, _, _, hcost⟩
  · exact hmem
  · cases hloop : s.loop with
    | waiting => simp [inHand, hloop] at hmem
    | popping => simp [inHand, hloop] at hmem
    | executing other => simp [loopCost, hloop] at hcost
    | storing other => simp [loopCost, hloop] at hcost
  · omega

omit [DecidableEq ι] in
/-- A step of the loop thread brings the item closer. -/
theorem Due.loopStep {n : Nat} (h : Due item (n + 1) s) :
    Due item n s.loopStep := by
  rcases h with hmem | ⟨hmem, hcost⟩ | ⟨before, after, hqueue, hready, hcost⟩
  · left
    unfold AsyncWorkQueue.loopStep
    split
    · split <;> exact hmem
    · split <;> exact hmem
    · split
      · exact hmem
      · exact List.mem_append_left _ hmem
    · exact List.mem_append_left _ hmem
  · cases hloop : s.loop with
    | waiting => simp [inHand, hloop] at hmem
    | popping => simp [inHand, hloop] at hmem
    | executing other =>
        rw [hloop] at hmem hcost
        simp only [loopCost] at hcost
        obtain rfl := List.mem_singleton.mp hmem
        simp only [AsyncWorkQueue.loopStep, hloop]
        split
        · exact Or.inr (Or.inl ⟨List.mem_cons_self, by
            simp only [loopCost]; omega⟩)
        · exact Or.inl (List.mem_append_right _ List.mem_cons_self)
    | storing other =>
        rw [hloop] at hmem
        obtain rfl := List.mem_singleton.mp hmem
        simp only [AsyncWorkQueue.loopStep, hloop]
        exact Or.inl (List.mem_append_right _ List.mem_cons_self)
  · cases hloop : s.loop with
    | waiting =>
        obtain ⟨hpending, hopen⟩ := hready hloop
        rw [hloop] at hcost
        simp only [loopCost] at hcost
        simp only [AsyncWorkQueue.loopStep, hloop, hpending, hopen,
          Bool.and_self, if_true]
        refine Or.inr (Or.inr ⟨before, after, hqueue, nofun, ?_⟩)
        simp only [loopCost]
        omega
    | popping =>
        rw [hloop] at hcost
        simp only [loopCost] at hcost
        cases before with
        | nil =>
            simp only [AsyncWorkQueue.loopStep, hloop, hqueue,
              List.nil_append]
            refine Or.inr (Or.inl ⟨List.mem_cons_self, ?_⟩)
            simp only [loopCost]
            omega
        | cons first before =>
            simp only [AsyncWorkQueue.loopStep, hloop, hqueue,
              List.cons_append]
            refine Or.inr (Or.inr ⟨before, after, rfl, nofun, ?_⟩)
            simp only [List.length_cons] at hcost
            simp only [loopCost]
            omega
    | executing other =>
        rw [hloop] at hcost
        simp only [loopCost] at hcost
        simp only [AsyncWorkQueue.loopStep, hloop]
        split
        · refine Or.inr (Or.inr ⟨before, after, hqueue, nofun, ?_⟩)
          simp only [loopCost]
          omega
        · refine Or.inr (Or.inr ⟨before, after, hqueue, nofun, ?_⟩)
          simp only [loopCost]
          omega
    | storing other =>
        rw [hloop] at hcost
        simp only [loopCost] at hcost
        simp only [AsyncWorkQueue.loopStep, hloop]
        refine Or.inr (Or.inr ⟨before, after, hqueue, nofun, ?_⟩)
        simp only [loopCost]
        omega

omit [DecidableEq ι] in
/-- What other threads do does not defer it. -/
theorem Due.frame {n : Nat} (h : Due item n s)
    (hexecuted : t.executed = s.executed) (hloop : t.loop = s.loop)
    (hqueue : ∃ items, t.workQueue = s.workQueue ++ items)
    (hpending : s.pending = true → t.pending = true)
    (hopen : t.handleOpen = s.handleOpen) : Due item n t := by
  obtain ⟨items, hqueue⟩ := hqueue
  unfold Due
  rw [hexecuted, hloop, hopen]
  rcases h with hmem | hhand | ⟨before, after, hsplit, hready, hcost⟩
  · exact Or.inl hmem
  · exact Or.inr (Or.inl hhand)
  · refine Or.inr (Or.inr ⟨before, after ++ items, ?_, fun hwait => ?_, hcost⟩)
    · rw [hqueue, hsplit, List.append_assoc]
      rfl
    · exact (hready hwait).imp hpending id

theorem Due.pushStep {n : Nat} (h : Due item n s) (i : ι) :
    Due item n (s.pushStep i) := by
  have hsame : ∃ items, s.workQueue = s.workQueue ++ items :=
    ⟨[], (List.append_nil _).symm⟩
  unfold AsyncWorkQueue.pushStep
  split
  · exact h
  · split <;> exact h.frame rfl rfl hsame id rfl
  · split <;> exact h.frame rfl rfl hsame id rfl
  · exact h.frame rfl rfl ⟨_, rfl⟩ id rfl
  · exact h.frame rfl rfl hsame (fun hp => by simp [hp]) rfl

theorem Due.event {n : Nat} (h : Due item n s)
    (hstep : AsyncWorkQueue.event e s = .ok t) : Due item n t := by
  have hsame : ∃ items, s.workQueue = s.workQueue ++ items :=
    ⟨[], (List.append_nil _).symm⟩
  cases e with
  | pushWork i =>
      simp only [AsyncWorkQueue.event] at hstep
      split at hstep
      · obtain rfl := Except.ok.inj hstep
        exact h.frame rfl rfl hsame id rfl
      · obtain rfl := Except.ok.inj hstep
        exact h
  | shutdown i =>
      simp only [AsyncWorkQueue.event] at hstep
      split at hstep
      · obtain rfl := Except.ok.inj hstep
        exact h.frame rfl rfl hsame id rfl
      · obtain rfl := Except.ok.inj hstep
        exact h
  | step i =>
      obtain rfl := Except.ok.inj hstep
      exact h.pushStep i
  | loopThread =>
      obtain rfl := Except.ok.inj hstep
      have hlater : Due item (n + 1) s := by
        rcases h with hmem | ⟨hmem, hcost⟩ | ⟨before, after, hq, hready, hcost⟩
        · exact Or.inl hmem
        · exact Or.inr (Or.inl ⟨hmem, Nat.le_succ_of_le hcost⟩)
        · exact Or.inr (Or.inr
            ⟨before, after, hq, hready, Nat.le_succ_of_le hcost⟩)
      exact hlater.loopStep

theorem Due.willExecute {n : Nat} (h : Due item n s) : s.WillExecute item := by
  refine ⟨n, fun events t hn hrun => ?_⟩
  have hserve (e : QueueEvent ι) (n : Nat) (s t : AsyncWorkQueue ι)
      (hserves : isLoopThread e = true) (hs : Due item (n + 1) s)
      (hstep : AsyncWorkQueue.event e s = .ok t) : Due item n t := by
    cases e with
    | loopThread =>
        obtain rfl := Except.ok.inj hstep
        exact hs.loopStep
    | pushWork i => contradiction
    | shutdown i => contradiction
    | step i => contradiction
  have hdue : Due item 0 t :=
    run_ranked (fun _ _ _ _ hs hstep => hs.event hstep) hserve hn h hrun
  exact hdue.executed

/-- In an accounted and covered state the queue keeps its promises. -/
theorem Accounted.losesNoWork (h : s.Accounted) (hcovered : s.Covered) :
    s.LosesNoWork := by
  obtain ⟨horder, _, _⟩ := List.pairwise_append.mp h.inOrder
  have hexecuted : InOrder s.executed := horder
  refine ⟨fun item hret => ?_, hexecuted.nodup, hexecuted,
    fun item hthrew hmem => ?_⟩
  · rcases List.mem_append.mp (h.returned item hret) with hmem | hmem
    · have hdue : Due item 0 s := Or.inl hmem
      exact hdue.willExecute
    · rcases List.mem_append.mp hmem with hmem | hmem
      · have hdue : Due item (loopCost s.loop) s :=
          Or.inr (Or.inl ⟨hmem, Nat.le_refl _⟩)
        exact hdue.willExecute
      · obtain ⟨before, after, hsplit⟩ := List.append_of_mem hmem
        have hdue : Due item (3 * before.length + loopCost s.loop + 3) s := by
          refine Or.inr (Or.inr
            ⟨before, after, hsplit, fun hwait => ?_, Nat.le_refl _⟩)
          obtain ⟨hopen, hpending | hsending⟩ := hcovered hwait item hmem
          · exact ⟨hpending, hopen⟩
          · have hi := h.points item.thread
            rw [hsending] at hi
            exact absurd hret hi.2.2
        exact hdue.willExecute
  · exact h.refused item hthrew (List.mem_append_left _ hmem)

omit [DecidableEq ι] in
theorem accounted_start : Accounted ({} : AsyncWorkQueue ι) := by
  refine ⟨List.Pairwise.nil, ?_, fun _ => trivial, ?_, ?_⟩
  · exact fun _ hmem => absurd hmem List.not_mem_nil
  · exact fun _ hmem => absurd hmem List.not_mem_nil
  · exact fun _ hmem => absurd hmem List.not_mem_nil

/-- The loop thread has left `process` for good. -/
def Stranded (item : QueueItem ι) (s : AsyncWorkQueue ι) : Prop :=
  s.handleOpen = false ∧ s.loop = .waiting ∧ item ∉ s.executed

theorem Stranded.event (h : Stranded item s)
    (hstep : AsyncWorkQueue.event e s = .ok t) : Stranded item t := by
  obtain ⟨hclosed, hwait, hnot⟩ := h
  cases e with
  | pushWork i =>
      simp only [AsyncWorkQueue.event] at hstep
      split at hstep <;> obtain rfl := Except.ok.inj hstep <;>
        exact ⟨hclosed, hwait, hnot⟩
  | shutdown i =>
      simp only [AsyncWorkQueue.event] at hstep
      split at hstep <;> obtain rfl := Except.ok.inj hstep <;>
        exact ⟨hclosed, hwait, hnot⟩
  | step i =>
      obtain rfl := Except.ok.inj hstep
      unfold AsyncWorkQueue.pushStep
      split
      · exact ⟨hclosed, hwait, hnot⟩
      · split <;> exact ⟨hclosed, hwait, hnot⟩
      · split <;> exact ⟨hclosed, hwait, hnot⟩
      · exact ⟨hclosed, hwait, hnot⟩
      · exact ⟨hclosed, hwait, hnot⟩
  | loopThread =>
      obtain rfl := Except.ok.inj hstep
      simp only [AsyncWorkQueue.loopStep, hwait, hclosed, Bool.and_false]
      exact ⟨hclosed, hwait, hnot⟩

/-- An item that is not pushed in time is never executed. -/
theorem late_push_is_lost {before after : List (QueueEvent ι)}
    (hs : run event before ({} : AsyncWorkQueue ι) = .ok s)
    (hpoint : s.point i = .pushing item) (hclosed : s.handleOpen = false)
    (hwait : s.loop = .waiting) (ht : run event after s = .ok t) :
    item ∉ t.executed := by
  have hs : s.Accounted :=
    run_invariant (fun _ _ _ (_ : True) h hstep => h.event hstep)
      (fun _ _ => trivial) accounted_start hs
  have hnot : item ∉ s.executed := by
    intro hmem
    have hlt := hs.settled item
      (List.mem_append_left _ (List.mem_append_left _ hmem))
    have hi := hs.points i
    rw [hpoint] at hi
    rw [hi.1, hi.2] at hlt
    exact Nat.lt_irrefl _ hlt
  have hstart : Stranded item s := ⟨hclosed, hwait, hnot⟩
  have hstranded : Stranded item t :=
    run_invariant (fun _ _ _ (_ : True) h hstep => h.event hstep)
      (fun _ _ => trivial) hstart ht
  exact hstranded.2.2

/-- In every run in which every item is pushed in time, no work is lost. -/
theorem losesNoWork_of_pushesInTime (events : List (QueueEvent ι))
    (hintime : EachStep event PushesInTime events ({} : AsyncWorkQueue ι)) :
    Always event LosesNoWork events ({} : AsyncWorkQueue ι) := by
  have hstart : Accounted ({} : AsyncWorkQueue ι) ∧
      Covered ({} : AsyncWorkQueue ι) :=
    ⟨accounted_start, fun _ _ hmem => absurd hmem List.not_mem_nil⟩
  have hkeep (e : QueueEvent ι) (s t : AsyncWorkQueue ι)
      (hpush : PushesInTime e s) (hs : s.Accounted ∧ s.Covered)
      (hstep : event e s = .ok t) : t.Accounted ∧ t.Covered :=
    ⟨hs.1.event hstep, hs.2.event hs.1 hpush hstep⟩
  exact always_of_eachStep hkeep (fun _ hs => hs.1.losesNoWork hs.2) hstart
    hintime

/-- `PushesInTime`, evaluated. -/
def pushesInTime : QueueEvent ι → AsyncWorkQueue ι → Bool
  | .step i, s =>
      match s.point i, s.loop with
      | .pushing _, .waiting => s.handleOpen
      | _, _ => true
  | _, _ => true

omit [DecidableEq ι] in
theorem pushesInTime_sound (h : pushesInTime e s = true) :
    PushesInTime e s := by
  intro i item he hpoint
  subst he
  by_cases hloop : s.loop = .waiting
  · simp only [pushesInTime, hpoint, hloop] at h
    exact Or.inl h
  · exact Or.inr hloop

/-- Thread 1 shuts the queue down while thread 0 is in a call: the call pushes
when the handle is closed and the loop thread is still in `process`, and the
next one is refused. -/
def shutdownRun : List (QueueEvent Nat) :=
  [.pushWork 0, .step 0, .shutdown 1, .step 1, .step 1, .step 1, .step 1,
    .loopThread, .loopThread, .loopThread, .step 0, .step 0, .loopThread,
    .loopThread, .loopThread, .pushWork 0, .step 0, .loopThread]

/-- Both items are executed, and the refused one is not. -/
theorem losesNoWork_of_pushesInTime_shutdown :
    (∃ s, run event shutdownRun ({} : AsyncWorkQueue Nat) = .ok s ∧
      s.handleOpen = false ∧ s.executed = [⟨1, 0, true⟩, ⟨0, 0, false⟩] ∧
      s.returned = s.executed ∧ s.threw = [⟨0, 1, false⟩]) ∧
      Always event LosesNoWork shutdownRun ({} : AsyncWorkQueue Nat) := by
  have hintime : EachStep event PushesInTime shutdownRun
      ({} : AsyncWorkQueue Nat) :=
    eachStep_of_checkRun pushesInTime (fun _ _ => pushesInTime_sound) rfl
  exact ⟨⟨_, rfl, rfl, rfl, rfl, rfl⟩, losesNoWork_of_pushesInTime _ hintime⟩

/-- A call tests the flag, the shutdown runs, and the call pushes its item and
returns. -/
theorem accepted_work_is_lost :
    ¬ ∀ (ι : Type) [DecidableEq ι] (events : List (QueueEvent ι)),
      Always event LosesNoWork events ({} : AsyncWorkQueue ι) := by
  intro h
  have hlost := h Nat
    [.pushWork 0, .step 0, .shutdown 1, .step 1, .step 1, .step 1, .step 1,
      .loopThread, .loopThread, .loopThread, .loopThread, .loopThread,
      .step 0, .step 0]
    [.pushWork 0, .step 0, .shutdown 1, .step 1, .step 1, .step 1, .step 1,
      .loopThread, .loopThread, .loopThread, .loopThread, .loopThread,
      .step 0, .step 0] [] _ rfl rfl
  obtain ⟨n, hn⟩ := hlost.accepted ⟨0, 0, false⟩ (by decide)
  have hmem := hn (List.replicate n .loopThread) _ ?_
    (run_replicate_of_fixed rfl n)
  · exact absurd hmem (by decide)
  · simp [List.countP_replicate, isLoopThread]

end AsyncWorkQueue

end NetworkProtocolDsl
