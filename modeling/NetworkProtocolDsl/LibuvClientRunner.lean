/-
The interpreter based client: its pusher thread beside the interpreter thread
and the loop thread.

The pusher hands the output to the work queue until the interpreter has exited
or was removed; the close of the connection is then its last entry.  The read
callback and the completion of a write may request the close as well.
-/
import NetworkProtocolDsl.LibuvServerRunner

namespace NetworkProtocolDsl

open Run

/-- Where the pusher is; it is started when the connection is made. -/
inductive ClientPusherPoint where
  | notStarted
  | gettingCollection
  | loadingExited
  | draining
  | pushingWrite (output : Octets)
  | pushingClose
  | returned
deriving DecidableEq

/-- `inserted` says that the interpreter is in the collection, and `writing`
counts the writes that libuv was given and has not completed. -/
structure LibuvClientRunner where
  state : ConcurrentState
  connected : Bool := false
  inserted : Bool := false
  closeRequested : Bool := false
  closed : Bool := false
  writing : Nat := 0
  workQueue : List (LoopWork Unit) := []
  point : ClientPusherPoint := .notStarted

/-- The steps the scheduler may choose. -/
inductive ClientEvent where
  | interpreterThread
  | callbackResponse (value : Value)
  | pusherThread
  | runWork
  | connect (succeeded : Bool)
  | read (data : Option Octets)
  | writeCompleted (failed : Bool)
  | removeInterpreter
  | closeCallback

namespace LibuvClientRunner

/-- An event of the runner at the context of the connection. -/
def atContext (s : LibuvClientRunner) (e : RunnerEvent) :
    Except Fault LibuvClientRunner :=
  (ConcurrentState.event e s.state).map fun state => { s with state := state }

/-- One step of `pusher_thread_loop`; after a pass it may have to wait. -/
def pusherStep (s : LibuvClientRunner) : LibuvClientRunner :=
  match s.point with
  | .notStarted => s
  | .gettingCollection =>
      { s with point := if s.inserted then .loadingExited else .pushingClose }
  | .loadingExited =>
      { s with
        point := if s.state.context.exited then .pushingClose else .draining }
  | .draining =>
      match s.state.context.outputBuffer with
      | [] => { s with point := .gettingCollection }
      | output :: queue =>
          { s with
            state := { s.state with
              context := { s.state.context with outputBuffer := queue } }
            point := .pushingWrite output }
  | .pushingWrite output =>
      { s with
        workQueue := s.workQueue ++ [.write () output]
        point := .draining }
  | .pushingClose =>
      { s with workQueue := s.workQueue ++ [.close ()], point := .returned }
  | .returned => s

/-- The loop thread runs the first entry of the work queue; libuv refuses a
write at a handle that is closing. -/
def runWork (s : LibuvClientRunner) : LibuvClientRunner :=
  match s.workQueue with
  | [] => s
  | .write _ _ :: queue =>
      { s with
        writing := if s.closeRequested then s.writing else s.writing + 1
        workQueue := queue }
  | .close _ :: queue =>
      { s with closeRequested := true, workQueue := queue }

/-- `on_connect_client_cb`. -/
def onConnect (s : LibuvClientRunner) (succeeded : Bool) :
    LibuvClientRunner :=
  if s.connected ∨ s.closeRequested then s
  else if succeeded then
    { s with connected := true, inserted := true, point := .gettingCollection }
  else { s with closeRequested := true }

/-- `on_read_cb`; without data the stream has ended. -/
def onRead (s : LibuvClientRunner) (data : Option Octets) :
    Except Fault LibuvClientRunner :=
  if s.connected = false ∨ s.closeRequested then .ok s
  else if s.inserted then
    match data with
    | some input => s.atContext (.chunk input)
    | none => s.atContext .endOfInput
  else .ok { s with closeRequested := true }

/-- `on_write_completed`.  The writes in flight when the handle is closed
complete with a failure. -/
def onWriteCompleted (s : LibuvClientRunner) (failed : Bool) :
    Except Fault LibuvClientRunner :=
  if s.writing = 0 then .ok s
  else
    let s := { s with writing := s.writing - 1 }
    if failed ∧ s.inserted then
      { s with closeRequested := true }.atContext .endOfInput
    else .ok s

def event : ClientEvent → LibuvClientRunner →
    Except Fault LibuvClientRunner
  | .interpreterThread, s =>
      if s.connected then s.atContext .pass else .ok s
  | .callbackResponse value, s =>
      if s.connected then s.atContext (.callbackResponse value) else .ok s
  | .pusherThread, s => .ok s.pusherStep
  | .runWork, s => .ok s.runWork
  | .connect succeeded, s => .ok (s.onConnect succeeded)
  | .read data, s => s.onRead data
  | .writeCompleted failed, s => s.onWriteCompleted failed
  | .removeInterpreter, s => .ok { s with inserted := false }
  | .closeCallback, s =>
      if s.closeRequested ∧ s.writing = 0 then .ok { s with closed := true }
      else .ok s

/-- The connection is being made. -/
def start (program : OpTreeNode) (errno : Errno) : LibuvClientRunner where
  state := ConcurrentState.start program none errno

/-- The event calls `uv_close`. -/
def CallsClose (e : ClientEvent) (s : LibuvClientRunner) : Prop :=
  match e with
  | .runWork => s.workQueue.head? = some (.close ())
  | .connect succeeded =>
      succeeded = false ∧ s.connected = false ∧ s.closeRequested = false
  | .read _ =>
      s.connected = true ∧ s.closeRequested = false ∧ s.inserted = false
  | .writeCompleted failed => failed = true ∧ 0 < s.writing ∧ s.inserted = true
  | _ => False

/-- No read finds the interpreter removed and no failed write finds it in the
collection. -/
def LeavesClose (e : ClientEvent) (s : LibuvClientRunner) : Prop :=
  match e with
  | .read _ =>
      s.connected = true → s.closeRequested = false → s.inserted = true
  | .writeCompleted failed =>
      failed = true → 0 < s.writing → s.inserted = false
  | _ => True

instance (e : ClientEvent) (s : LibuvClientRunner) :
    Decidable (LeavesClose e s) := by
  cases e <;> dsimp only [LeavesClose] <;> infer_instance

/-- The close is requested once: by the loop thread, after the pusher is done,
or because no connection was made. -/
structure ClosesOnce (s : LibuvClientRunner) : Prop where
  unstarted : s.connected = false → s.point = .notStarted
  started : s.connected = true → s.point ≠ .notStarted
  queued : LoopWork.close () ∈ s.workQueue →
    s.point = .returned ∧ s.closeRequested = false
  single : s.workQueue.count (.close ()) ≤ 1
  requested : s.closeRequested = true →
    s.point = .notStarted ∨ s.point = .returned

variable {s t : LibuvClientRunner} {e : ClientEvent}

theorem atContext_closeRequested {e : RunnerEvent} (h : s.atContext e = .ok t) :
    t.closeRequested = s.closeRequested := by
  obtain ⟨state, _, rfl⟩ := map_eq_ok h
  rfl

/-- The stream is closed when a read finds that the interpreter is gone. -/
theorem onRead_closeRequested {data : Option Octets}
    (h : s.onRead data = .ok t) :
    t.closeRequested = true ↔
      s.closeRequested = true ∨ CallsClose (.read data) s := by
  simp only [onRead] at h
  split at h
  · rename_i hoff
    obtain rfl := Except.ok.inj h
    refine (or_iff_left fun hcalls => ?_).symm
    rcases hoff with hoff | hoff
    · rw [hcalls.1] at hoff
      contradiction
    · rw [hcalls.2.1] at hoff
      contradiction
  · rename_i hon
    simp only [not_or, Bool.not_eq_false, Bool.not_eq_true] at hon
    split at h
    · rename_i hinserted
      have hsame : t.closeRequested = s.closeRequested := by
        split at h
        · exact atContext_closeRequested h
        · exact atContext_closeRequested h
      rw [hsame]
      refine (or_iff_left fun hcalls => ?_).symm
      rw [hcalls.2.2] at hinserted
      contradiction
    · rename_i hinserted
      obtain rfl := Except.ok.inj h
      exact iff_of_true rfl
        (Or.inr ⟨hon.1, hon.2, by simpa using hinserted⟩)

/-- The stream is closed when a write that is in flight fails. -/
theorem onWriteCompleted_closeRequested {failed : Bool}
    (h : s.onWriteCompleted failed = .ok t) :
    t.closeRequested = true ↔
      s.closeRequested = true ∨ CallsClose (.writeCompleted failed) s := by
  simp only [onWriteCompleted] at h
  split at h
  · rename_i hnone
    obtain rfl := Except.ok.inj h
    refine (or_iff_left fun hcalls => ?_).symm
    have hpos : 0 < s.writing := hcalls.2.1
    rw [hnone] at hpos
    contradiction
  · rename_i hsome
    split at h
    · rename_i hfails
      exact iff_of_true (atContext_closeRequested h)
        (Or.inr ⟨hfails.1, Nat.pos_of_ne_zero hsome, hfails.2⟩)
    · rename_i hfine
      obtain rfl := Except.ok.inj h
      exact (or_iff_left fun hcalls => hfine ⟨hcalls.1, hcalls.2.2⟩).symm

/-- The close is requested exactly by the events that call `uv_close`. -/
theorem event_closeRequested (h : event e s = .ok t) :
    t.closeRequested = true ↔ s.closeRequested = true ∨ CallsClose e s := by
  have hsame : t.closeRequested = s.closeRequested → ¬ CallsClose e s →
      (t.closeRequested = true ↔
        s.closeRequested = true ∨ CallsClose e s) := by
    intro heq hnot
    rw [heq, or_iff_left hnot]
  cases e with
  | interpreterThread =>
      simp only [event] at h
      split at h
      · exact hsame (atContext_closeRequested h) id
      · obtain rfl := Except.ok.inj h
        exact hsame rfl id
  | callbackResponse value =>
      simp only [event] at h
      split at h
      · exact hsame (atContext_closeRequested h) id
      · obtain rfl := Except.ok.inj h
        exact hsame rfl id
  | pusherThread =>
      obtain rfl := Except.ok.inj h
      refine hsame ?_ id
      unfold pusherStep
      split <;> try rfl
      split <;> rfl
  | runWork =>
      obtain rfl := Except.ok.inj h
      unfold runWork CallsClose
      split
      · rename_i hqueue
        simp [hqueue]
      · rename_i hqueue
        simp [hqueue]
      · rename_i hqueue
        simp [hqueue]
  | connect succeeded =>
      obtain rfl := Except.ok.inj h
      unfold onConnect CallsClose
      cases succeeded <;> cases s.connected <;>
        cases hclose : s.closeRequested <;> simp [hclose]
  | read data => exact onRead_closeRequested h
  | writeCompleted failed => exact onWriteCompleted_closeRequested h
  | removeInterpreter =>
      obtain rfl := Except.ok.inj h
      exact hsame rfl id
  | closeCallback =>
      simp only [event] at h
      split at h
      · obtain rfl := Except.ok.inj h
        exact hsame rfl id
      · obtain rfl := Except.ok.inj h
        exact hsame rfl id

theorem ClosesOnce.atContext {e : RunnerEvent} (h : s.ClosesOnce)
    (hstep : s.atContext e = .ok t) : t.ClosesOnce := by
  obtain ⟨state, _, rfl⟩ := map_eq_ok hstep
  exact ⟨h.unstarted, h.started, h.queued, h.single, h.requested⟩

/-- Before the pusher is done no close is in the work queue. -/
theorem ClosesOnce.not_queued (h : s.ClosesOnce)
    (hpoint : s.point ≠ .returned) : LoopWork.close () ∉ s.workQueue :=
  fun hmem => hpoint (h.queued hmem).1

/-- A pusher at work goes on to a point at which it is not done. -/
theorem ClosesOnce.move (h : s.ClosesOnce) (hstart : s.point ≠ .notStarted)
    (hdone : s.point ≠ .returned) (hconnected : t.connected = s.connected)
    (hclose : t.closeRequested = s.closeRequested)
    (hpoint : t.point ≠ .notStarted)
    (hqueue : LoopWork.close () ∉ t.workQueue) : t.ClosesOnce := by
  constructor
  · rw [hconnected]
    intro hoff
    exact absurd (h.unstarted hoff) hstart
  · intro _
    exact hpoint
  · intro hmem
    exact absurd hmem hqueue
  · rw [List.count_eq_zero_of_not_mem hqueue]
    exact Nat.zero_le 1
  · rw [hclose]
    intro hrequested
    rcases h.requested hrequested with hpoint' | hpoint'
    · exact absurd hpoint' hstart
    · exact absurd hpoint' hdone

theorem ClosesOnce.pusherStep (h : s.ClosesOnce) : s.pusherStep.ClosesOnce := by
  unfold LibuvClientRunner.pusherStep
  split
  · exact h
  · rename_i hpoint
    have hdone : s.point ≠ .returned := by simp [hpoint]
    refine h.move (by simp [hpoint]) hdone rfl rfl ?_ (h.not_queued hdone)
    cases s.inserted <;> simp
  · rename_i hpoint
    have hdone : s.point ≠ .returned := by simp [hpoint]
    refine h.move (by simp [hpoint]) hdone rfl rfl ?_ (h.not_queued hdone)
    cases s.state.context.exited <;> simp
  · rename_i hpoint
    have hdone : s.point ≠ .returned := by simp [hpoint]
    split
    · exact h.move (by simp [hpoint]) hdone rfl rfl (by simp)
        (h.not_queued hdone)
    · exact h.move (by simp [hpoint]) hdone rfl rfl (by simp)
        (h.not_queued hdone)
  · rename_i output hpoint
    have hdone : s.point ≠ .returned := by simp [hpoint]
    refine h.move (by simp [hpoint]) hdone rfl rfl (by simp) ?_
    have hnone := h.not_queued hdone
    simpa using hnone
  · rename_i hpoint
    have hdone : s.point ≠ .returned := by simp [hpoint]
    have hnone := h.not_queued hdone
    constructor
    · intro hoff
      have hstart := h.unstarted hoff
      rw [hpoint] at hstart
      contradiction
    · intro _
      simp
    · intro _
      refine ⟨rfl, ?_⟩
      cases hclose : s.closeRequested with
      | false => rfl
      | true =>
          have hrequested := h.requested hclose
          simp [hpoint] at hrequested
    · rw [List.count_append, List.count_eq_zero_of_not_mem hnone]
      exact le_rfl
    · intro _
      exact Or.inr rfl
  · exact h

theorem ClosesOnce.runWork (h : s.ClosesOnce) : s.runWork.ClosesOnce := by
  unfold LibuvClientRunner.runWork
  split
  · exact h
  · rename_i output queue hqueue
    have hmem (hmem : LoopWork.close () ∈ queue) :
        LoopWork.close () ∈ s.workQueue := by
      rw [hqueue]
      exact List.mem_cons_of_mem _ hmem
    refine ⟨h.unstarted, h.started, fun hclose => h.queued (hmem hclose), ?_,
      h.requested⟩
    have hsingle := h.single
    rw [hqueue, List.count_cons_of_ne (by simp)] at hsingle
    exact hsingle
  · rename_i queue hqueue
    have hreturned := h.queued (by rw [hqueue]; exact List.mem_cons_self)
    have hsingle := h.single
    rw [hqueue, List.count_cons_self] at hsingle
    have hnone : LoopWork.close () ∉ queue :=
      List.count_eq_zero.mp (by omega)
    refine ⟨h.unstarted, h.started, fun hmem => absurd hmem hnone, ?_,
      fun _ => Or.inr hreturned.1⟩
    rw [List.count_eq_zero_of_not_mem hnone]
    exact Nat.zero_le 1

theorem ClosesOnce.onConnect (h : s.ClosesOnce) (succeeded : Bool) :
    (s.onConnect succeeded).ClosesOnce := by
  unfold LibuvClientRunner.onConnect
  split
  · exact h
  · rename_i hfirst
    simp only [not_or, Bool.not_eq_true] at hfirst
    have hstart := h.unstarted hfirst.1
    have hnone := h.not_queued (by simp [hstart])
    split
    · refine ⟨nofun, fun _ => by simp, fun hmem => absurd hmem hnone, h.single,
        fun hclose => ?_⟩
      have hopen : s.closeRequested = true := hclose
      rw [hfirst.2] at hopen
      contradiction
    · exact ⟨h.unstarted, h.started, fun hmem => absurd hmem hnone, h.single,
        fun _ => Or.inl hstart⟩

/-- A step that leaves the close to the pusher keeps it the only one. -/
theorem ClosesOnce.event (h : s.ClosesOnce) (hleaves : LeavesClose e s)
    (hstep : LibuvClientRunner.event e s = .ok t) : t.ClosesOnce := by
  cases e with
  | interpreterThread =>
      simp only [LibuvClientRunner.event] at hstep
      split at hstep
      · exact h.atContext hstep
      · obtain rfl := Except.ok.inj hstep
        exact h
  | callbackResponse value =>
      simp only [LibuvClientRunner.event] at hstep
      split at hstep
      · exact h.atContext hstep
      · obtain rfl := Except.ok.inj hstep
        exact h
  | pusherThread =>
      obtain rfl := Except.ok.inj hstep
      exact h.pusherStep
  | runWork =>
      obtain rfl := Except.ok.inj hstep
      exact h.runWork
  | connect succeeded =>
      obtain rfl := Except.ok.inj hstep
      exact h.onConnect succeeded
  | read data =>
      simp only [LibuvClientRunner.event, LibuvClientRunner.onRead] at hstep
      split at hstep
      · obtain rfl := Except.ok.inj hstep
        exact h
      · rename_i hon
        simp only [not_or, Bool.not_eq_false, Bool.not_eq_true] at hon
        rw [if_pos (hleaves hon.1 hon.2)] at hstep
        split at hstep
        · exact h.atContext hstep
        · exact h.atContext hstep
  | writeCompleted failed =>
      simp only [LibuvClientRunner.event,
        LibuvClientRunner.onWriteCompleted] at hstep
      split at hstep
      · obtain rfl := Except.ok.inj hstep
        exact h
      · rename_i hsome
        split at hstep
        · rename_i hfails
          have hout := hleaves hfails.1 (Nat.pos_of_ne_zero hsome)
          rw [hout] at hfails
          exact absurd hfails.2 (by simp)
        · obtain rfl := Except.ok.inj hstep
          exact ⟨h.unstarted, h.started, h.queued, h.single, h.requested⟩
  | removeInterpreter =>
      obtain rfl := Except.ok.inj hstep
      exact ⟨h.unstarted, h.started, h.queued, h.single, h.requested⟩
  | closeCallback =>
      simp only [LibuvClientRunner.event] at hstep
      split at hstep
      · obtain rfl := Except.ok.inj hstep
        exact ⟨h.unstarted, h.started, h.queued, h.single, h.requested⟩
      · obtain rfl := Except.ok.inj hstep
        exact h

/-- A handle whose close was requested is left alone. -/
theorem ClosesOnce.not_callsClose (h : s.ClosesOnce) (hleaves : LeavesClose e s)
    (hclose : s.closeRequested = true) : ¬ CallsClose e s := by
  intro hcalls
  cases e with
  | runWork =>
      have hmem := List.mem_of_head? hcalls
      have hopen := (h.queued hmem).2
      rw [hclose] at hopen
      contradiction
  | connect succeeded =>
      have hopen := hcalls.2.2
      rw [hclose] at hopen
      contradiction
  | read data =>
      have hopen := hcalls.2.1
      rw [hclose] at hopen
      contradiction
  | writeCompleted failed =>
      have hout := hleaves hcalls.1 hcalls.2.1
      rw [hcalls.2.2] at hout
      contradiction
  | interpreterThread | callbackResponse value | pusherThread
  | removeInterpreter | closeCallback => exact hcalls

theorem closesOnce_start (program : OpTreeNode) (errno : Errno) :
    (start program errno).ClosesOnce := by
  refine ⟨fun _ => rfl, nofun, fun hmem => absurd hmem List.not_mem_nil, ?_,
    nofun⟩
  exact Nat.zero_le 1

/-- In every run that leaves the close to the pusher, `uv_close` is called at
most once. -/
theorem callsClose_atMostOnce (program : OpTreeNode) (errno : Errno)
    (events : List ClientEvent)
    (hleaves : EachStep event LeavesClose events (start program errno)) :
    AtMostOnce event CallsClose events (start program errno) := by
  have hspend (e : ClientEvent) (s t : LibuvClientRunner) (_ : LeavesClose e s)
      (_ : s.ClosesOnce) (hstep : event e s = .ok t) :
      s.closeRequested = true ∨ CallsClose e s → t.closeRequested = true :=
    (event_closeRequested hstep).mpr
  exact atMostOnce_of_eachStep (fun _ _ _ hfirst hs hstep =>
      hs.event hfirst hstep) hspend
    (fun _ _ hfirst hs hclose => hs.not_callsClose hfirst hclose)
    (closesOnce_start program errno) hleaves

end LibuvClientRunner

end NetworkProtocolDsl
