/-
The interpreter based server: the pusher thread beside the interpreter thread
and the loop thread.

The pusher comes to the connections of the collection it got, in any order.
It closes those whose interpreter has exited and hands the output of the others
to the work queue, whose entries the loop thread runs first in, first out.
A connection stands for its descriptor.  The signals the pusher waits on only
delay it and are left out, as is the close of the listening socket.
-/
import NetworkProtocolDsl.ConcurrentRead
import NetworkProtocolDsl.WaitingForRead

namespace NetworkProtocolDsl

open Run InterpreterContext

/-- One accepted connection with its interpreter.  `pushed` and `sent` record
the chunks pushed to the output buffer and those handed to `uv_write` before
the close was requested. -/
structure ServerConnection where
  state : ConcurrentState
  accepted : Bool := false
  connectionCloseRequestSent : Bool := false
  closeRequested : Bool := false
  pushed : List Octets := []
  sent : List Octets := []

/-- What the pusher gives to the loop thread. -/
inductive LoopWork (κ : Type) where
  | write (k : κ) (output : Octets)
  | close (k : κ)
deriving DecidableEq

/-- Where the pusher is; `rest` are the entries it has not come to. -/
inductive PusherPoint (κ : Type) where
  | gettingCollection
  | scanning (rest : List κ) (activeInterpreters : Nat)
  | draining (k : κ) (rest : List κ) (activeInterpreters : Nat)
  | pushingWrite (k : κ) (output : Octets) (rest : List κ)
      (activeInterpreters : Nat)
  | removing (k : κ) (rest : List κ) (activeInterpreters : Nat)
  | pushingClose (k : κ) (rest : List κ) (activeInterpreters : Nat)
  | returned

structure LibuvServerRunner (κ : Type) where
  connections : κ → ServerConnection
  errno : Errno
  collection : List κ := []
  workQueue : List (LoopWork κ) := []
  exitWhenDone : Bool := false
  point : PusherPoint κ := .gettingCollection

/-- The steps the scheduler may choose.  The pusher's names the entry its
iteration yields next. -/
inductive ServerEvent (κ : Type) where
  | interpreterThread (k : κ)
  | callbackResponse (k : κ) (value : Value)
  | pusherThread (k : κ)
  | runWork
  | newConnection (k : κ)
  | read (k : κ) (data : Option Octets)
  | writeCompleted (k : κ) (failed : Bool)
  | stopAccepting

namespace LibuvServerRunner

variable {κ : Type} [DecidableEq κ]

def setConnection (s : LibuvServerRunner κ) (k : κ)
    (connection : ServerConnection) : LibuvServerRunner κ :=
  { s with connections := Function.update s.connections k connection }

/-- An event of the runner at the context of a connection. -/
def atContext (s : LibuvServerRunner κ) (k : κ) (e : RunnerEvent) :
    Except Fault (LibuvServerRunner κ) :=
  let connection := s.connections k
  (ConcurrentState.event e { connection.state with errno := s.errno }).map
    fun state =>
      let old := connection.state.context.outputBuffer
      { s.setConnection k { connection with
          state := state
          pushed := connection.pushed ++
            state.context.outputBuffer.drop old.length } with
        errno := state.errno }

/-- The pusher comes to an entry of its collection. -/
def visit (s : LibuvServerRunner κ) (k : κ) (rest : List κ) (active : Nat) :
    LibuvServerRunner κ :=
  let connection := s.connections k
  if connection.state.context.exited then
    if connection.connectionCloseRequestSent then
      { s with point := .scanning rest active }
    else
      { s.setConnection k { connection with
          connectionCloseRequestSent := true } with
        point := .removing k rest active }
  else { s with point := .draining k rest (active + 1) }

/-- One pop of the loop that drains the output buffer. -/
def drain (s : LibuvServerRunner κ) (k : κ) (rest : List κ) (active : Nat) :
    LibuvServerRunner κ :=
  let connection := s.connections k
  let state := connection.state
  match state.context.outputBuffer with
  | [] => { s with point := .scanning rest active }
  | output :: queue =>
      { s.setConnection k { connection with
          state := { state with
            context := { state.context with outputBuffer := queue } } } with
        point := .pushingWrite k output rest active }

/-- One step of the pusher; after a pass it may have to wait. -/
def pusherStep (s : LibuvServerRunner κ) (k : κ) : LibuvServerRunner κ :=
  match s.point with
  | .gettingCollection => { s with point := .scanning s.collection 0 }
  | .scanning [] active =>
      if s.exitWhenDone ∧ active = 0 then { s with point := .returned }
      else { s with point := .gettingCollection }
  | .scanning rest active =>
      if k ∈ rest then s.visit k (rest.erase k) active else s
  | .draining k rest active => s.drain k rest active
  | .pushingWrite k output rest active =>
      { s with
        workQueue := s.workQueue ++ [.write k output]
        point := .draining k rest active }
  | .removing k rest active =>
      { s with
        collection := s.collection.filter (· ≠ k)
        point := .pushingClose k rest active }
  | .pushingClose k rest active =>
      { s with
        workQueue := s.workQueue ++ [.close k]
        point := .scanning rest active }
  | .returned => s

/-- The loop thread runs the first entry of the work queue. -/
def runWork (s : LibuvServerRunner κ) : LibuvServerRunner κ :=
  match s.workQueue with
  | [] => s
  | .write k output :: queue =>
      let connection := s.connections k
      { s.setConnection k { connection with
          sent :=
            if connection.closeRequested then connection.sent
            else connection.sent ++ [output] } with
        workQueue := queue }
  | .close k :: queue =>
      { s.setConnection k { s.connections k with closeRequested := true } with
        workQueue := queue }

/-- `server_on_read_cb`; without data the stream has ended. -/
def onRead (s : LibuvServerRunner κ) (k : κ) (data : Option Octets) :
    Except Fault (LibuvServerRunner κ) :=
  let connection := s.connections k
  if connection.accepted = false ∨ connection.closeRequested then .ok s
  else if k ∈ s.collection then
    match data with
    | some input => s.atContext k (.chunk input)
    | none => s.atContext k .endOfInput
  else .ok (s.setConnection k { connection with closeRequested := true })

def event : ServerEvent κ → LibuvServerRunner κ →
    Except Fault (LibuvServerRunner κ)
  | .interpreterThread k, s =>
      if (s.connections k).accepted then s.atContext k .pass else .ok s
  | .callbackResponse k value, s =>
      if (s.connections k).accepted then s.atContext k (.callbackResponse value)
      else .ok s
  | .pusherThread k, s => .ok (s.pusherStep k)
  | .runWork, s => .ok s.runWork
  | .newConnection k, s =>
      if (s.connections k).accepted then .ok s
      else
        .ok { s.setConnection k { s.connections k with accepted := true } with
          collection := k :: s.collection }
  | .read k data, s => s.onRead k data
  | .writeCompleted k failed, s =>
      if failed = true ∧ k ∈ s.collection then s.atContext k .endOfInput
      else .ok s
  | .stopAccepting, s => .ok { s with exitWhenDone := true }

/-- Nobody has connected; every connection runs the server's program. -/
def start (program : OpTreeNode) (errno : Errno) : LibuvServerRunner κ where
  connections := fun _ => { state := ConcurrentState.start program none errno }
  errno := errno

/-- What was pushed before the interpreter exited was handed over before the
close was requested, in the order pushed. -/
def SendsBeforeClose (s : LibuvServerRunner κ) : Prop :=
  ∀ k, (s.connections k).sent <+: (s.connections k).pushed ∧
    ((s.connections k).closeRequested = true →
      (s.connections k).sent = (s.connections k).pushed)

/-- The chunks of one connection in the work queue. -/
def writesOf (k : κ) (queue : List (LoopWork κ)) : List Octets :=
  queue.filterMap fun work =>
    match work with
    | .write k' output => if k' = k then some output else none
    | .close _ => none

/-- When the pusher finds that an interpreter has exited, the output buffer is
empty. -/
def DrainedAtExit (s : LibuvServerRunner κ) (k : κ) : Prop :=
  match s.point with
  | .scanning rest _ =>
      k ∈ rest → (s.connections k).state.context.exited = true →
        (s.connections k).connectionCloseRequestSent = false →
        (s.connections k).state.context.outputBuffer = []
  | _ => True

/-- When the read callback finds that an interpreter was removed, none of the
connection's writes is in the work queue. -/
def WrittenAtRead (s : LibuvServerRunner κ) (k : κ) : Prop :=
  k ∉ s.collection → writesOf k s.workQueue = []

/-- Neither branch that closes does it too early. -/
def ClosesLate (e : ServerEvent κ) (s : LibuvServerRunner κ) : Prop :=
  match e with
  | .pusherThread k => s.DrainedAtExit k
  | .read k _ => s.WrittenAtRead k
  | _ => True

end LibuvServerRunner

namespace InterpreterContext

/-- What the output buffer and `exited` of a context can become: chunks are
pushed until the interpreter has exited. -/
def Outputs (context context' : InterpreterContext) : Prop :=
  ∃ chunks, context'.outputBuffer = context.outputBuffer ++ chunks ∧
    (context.exited = true → chunks = [] ∧ context'.exited = true)

variable {context context' : InterpreterContext}

theorem Outputs.of_same (hbuffer : context'.outputBuffer = context.outputBuffer)
    (hexited : context.exited = true → context'.exited = true) :
    context.Outputs context' :=
  ⟨[], by rw [hbuffer, List.append_nil], fun h => ⟨rfl, hexited h⟩⟩

theorem Outputs.of_running (hrunning : context.exited = false)
    (chunks : List Octets)
    (h : context'.outputBuffer = context.outputBuffer ++ chunks) :
    context.Outputs context' := by
  refine ⟨chunks, h, fun hexited => ?_⟩
  rw [hrunning] at hexited
  contradiction

theorem joinBuffers_outputBuffer {joined : Octets} {didJoin : Bool}
    {queue : List Octets} {result : HandleBlockedResult}
    (h : context.joinBuffers joined didJoin queue = .ok (result, context')) :
    context'.outputBuffer = context.outputBuffer := by
  induction queue generalizing context joined didJoin with
  | nil =>
      unfold joinBuffers at h
      simp only at h
      split at h
      · obtain ⟨_, rfl⟩ := Prod.mk.inj (Except.ok.inj h)
        rfl
      · split at h
        · obtain ⟨_, rfl⟩ := Prod.mk.inj (Except.ok.inj h)
          rfl
        · obtain ⟨_, rfl⟩ := Prod.mk.inj (Except.ok.inj h)
          rfl
  | cons buffer queue ih =>
      unfold joinBuffers at h
      simp only at h
      split at h
      · contradiction
      · split at h
        · have hrest := ih h
          exact hrest
        · obtain ⟨_, rfl⟩ := Prod.mk.inj (Except.ok.inj h)
          rfl

theorem handleRead_outputBuffer {result : HandleBlockedResult}
    (h : context.handleRead = .ok (result, context')) :
    context'.outputBuffer = context.outputBuffer := by
  unfold InterpreterContext.handleRead at h
  split at h
  · split at h
    · contradiction
    · simp only at h
      split at h
      · rw [joinBuffers_outputBuffer h]
      · obtain ⟨_, rfl⟩ := Prod.mk.inj (Except.ok.inj h)
        rfl
  · split at h
    · obtain ⟨_, rfl⟩ := Prod.mk.inj (Except.ok.inj h)
      rfl
    · obtain ⟨_, rfl⟩ := Prod.mk.inj (Except.ok.inj h)
      rfl

theorem handleBlockedInterpreter_outputBuffer {result : HandleBlockedResult}
    (h : context.handleBlockedInterpreter = .ok (result, context')) :
    ∃ chunks, context'.outputBuffer = context.outputBuffer ++ chunks := by
  unfold handleBlockedInterpreter at h
  split at h
  · exact ⟨[], by rw [handleRead_outputBuffer h, List.append_nil]⟩
  · simp only [handleWrite] at h
    split at h
    · obtain ⟨_, rfl⟩ := Prod.mk.inj (Except.ok.inj h)
      exact ⟨[], (List.append_nil _).symm⟩
    · obtain ⟨_, rfl⟩ := Prod.mk.inj (Except.ok.inj h)
      exact ⟨_, rfl⟩
  · obtain ⟨_, rfl⟩ := Prod.mk.inj (Except.ok.inj h)
    exact ⟨[], (List.append_nil _).symm⟩
  · simp only [handleFinishCallback] at h
    split at h
    · obtain ⟨_, rfl⟩ := Prod.mk.inj (Except.ok.inj h)
      exact ⟨[], (List.append_nil _).symm⟩
    · obtain ⟨_, rfl⟩ := Prod.mk.inj (Except.ok.inj h)
      exact ⟨[], (List.append_nil _).symm⟩
  · obtain ⟨_, rfl⟩ := Prod.mk.inj (Except.ok.inj h)
    exact ⟨[], (List.append_nil _).symm⟩

theorem pass_outputs {progress : Progress} {errno errno' : Errno}
    (h : context.pass errno = .ok (progress, context', errno')) :
    context.Outputs context' := by
  unfold InterpreterContext.pass at h
  split at h
  · obtain ⟨_, hpair⟩ := Prod.mk.inj (Except.ok.inj h)
    obtain ⟨rfl, _⟩ := Prod.mk.inj hpair
    exact Outputs.of_same rfl id
  · rename_i hrunning
    rw [Bool.not_eq_true] at hrunning
    split at h
    · contradiction
    · rename_i interpreter errno₁ _
      obtain ⟨⟨result, context₁⟩, hhandle, heq⟩ := map_eq_ok h
      obtain ⟨_, hpair⟩ := Prod.mk.inj heq
      obtain ⟨rfl, _⟩ := Prod.mk.inj hpair
      obtain ⟨chunks, hchunks⟩ := handleBlockedInterpreter_outputBuffer hhandle
      exact Outputs.of_running hrunning chunks hchunks
    · obtain ⟨_, hpair⟩ := Prod.mk.inj (Except.ok.inj h)
      obtain ⟨rfl, _⟩ := Prod.mk.inj hpair
      exact Outputs.of_same rfl fun _ => rfl
    · obtain ⟨_, hpair⟩ := Prod.mk.inj (Except.ok.inj h)
      obtain ⟨rfl, _⟩ := Prod.mk.inj hpair
      exact Outputs.of_same rfl id

end InterpreterContext

namespace ConcurrentState

variable {s t : ConcurrentState}

theorem stepOutside_outputs (h : s.stepOutside = .ok t) :
    s.context.Outputs t.context := by
  have hpass (hmap : ((s.context.pass s.errno).map
        fun r => { s with context := r.2.1, errno := r.2.2
                          phase := .outside r.1 }) = .ok t) :
      s.context.Outputs t.context := by
    obtain ⟨⟨progress, context, errno⟩, hrun, rfl⟩ := map_eq_ok hmap
    exact pass_outputs hrun
  unfold stepOutside at h
  simp only at h
  split at h
  · exact hpass h
  · split at h
    · split at h
      · obtain rfl := Except.ok.inj h
        exact Outputs.of_same rfl id
      · exact hpass h
    · exact hpass h

theorem event_outputs {e : RunnerEvent}
    (h : ConcurrentState.event e s = .ok t) :
    s.context.Outputs t.context := by
  cases e with
  | chunk data =>
      obtain rfl := Except.ok.inj h
      exact Outputs.of_same rfl id
  | endOfInput =>
      obtain rfl := Except.ok.inj h
      exact Outputs.of_same rfl id
  | callbackResponse value =>
      obtain rfl := Except.ok.inj h
      exact Outputs.of_same rfl id
  | pass =>
      simp only [ConcurrentState.event, threadStep] at h
      split at h
      · exact stepOutside_outputs h
      · split at h <;> obtain rfl := Except.ok.inj h <;>
          exact Outputs.of_same rfl id
      · split at h <;> obtain rfl := Except.ok.inj h <;>
          exact Outputs.of_same rfl id
      · unfold offer at h
        split at h
        · contradiction
        · obtain rfl := Except.ok.inj h
          exact Outputs.of_same rfl id
      · split at h <;> obtain rfl := Except.ok.inj h <;>
          exact Outputs.of_same rfl id
      · obtain rfl := Except.ok.inj h
        exact Outputs.of_same rfl id
      · obtain rfl := Except.ok.inj h
        exact Outputs.of_same rfl id

end ConcurrentState

namespace PusherPoint

variable {κ : Type} [DecidableEq κ]

/-- The chunk of a connection that the pusher holds. -/
def inHand (k : κ) : PusherPoint κ → List Octets
  | .pushingWrite k' output _ _ => if k' = k then [output] else []
  | _ => []

/-- The pusher drains the output buffer of the connection. -/
def Serves (k : κ) : PusherPoint κ → Prop
  | .draining k' _ _ | .pushingWrite k' _ _ _ => k' = k
  | _ => False

/-- The pusher closes the connection. -/
def Closes (k : κ) : PusherPoint κ → Prop
  | .removing k' _ _ | .pushingClose k' _ _ => k' = k
  | _ => False

end PusherPoint

namespace LibuvServerRunner

variable {κ : Type} [DecidableEq κ]

/-- No chunk of the connection comes after its close. -/
def ClosesLast (k : κ) : List (LoopWork κ) → Prop
  | [] => True
  | .write _ _ :: queue => ClosesLast k queue
  | .close k' :: queue =>
      (k' = k → writesOf k queue = []) ∧ ClosesLast k queue

/-- Where the chunks of one connection are. -/
structure Accounted (s : LibuvServerRunner κ) (k : κ) : Prop where
  accounted : (s.connections k).closeRequested = false →
    (s.connections k).pushed =
      (s.connections k).sent ++ (writesOf k s.workQueue ++
        (s.point.inHand k ++ (s.connections k).state.context.outputBuffer))
  drained : (s.connections k).connectionCloseRequestSent = true →
    (s.connections k).state.context.exited = true ∧
      (s.connections k).state.context.outputBuffer = [] ∧ ¬ s.point.Serves k
  requested : LoopWork.close k ∈ s.workQueue ∨ s.point.Closes k ∨
      (s.connections k).accepted = true ∧ k ∉ s.collection ∨
      (s.connections k).closeRequested = true →
    (s.connections k).connectionCloseRequestSent = true
  ordered : ClosesLast k s.workQueue
  sent : (s.connections k).closeRequested = true →
    (s.connections k).sent = (s.connections k).pushed

variable {s t : LibuvServerRunner κ} {j k : κ}

theorem writesOf_append (k : κ) (queue queue' : List (LoopWork κ)) :
    writesOf k (queue ++ queue') = writesOf k queue ++ writesOf k queue' :=
  List.filterMap_append

theorem closesLast_append_write {queue : List (LoopWork κ)} (output : Octets)
    (h : ClosesLast k queue) (hclose : j = k → LoopWork.close k ∉ queue) :
    ClosesLast k (queue ++ [.write j output]) := by
  induction queue with
  | nil => trivial
  | cons work queue ih =>
      have htail : j = k → LoopWork.close k ∉ queue :=
        fun hj hmem => hclose hj (List.mem_cons_of_mem work hmem)
      cases work with
      | write k' output' => exact ih h htail
      | close k' =>
          obtain ⟨hlast, hrest⟩ := h
          refine ⟨fun hk' => ?_, ih hrest htail⟩
          have hsplit := writesOf_append k queue [.write j output]
          rw [hlast hk', List.nil_append] at hsplit
          refine hsplit.trans ?_
          have hjk : j ≠ k := fun hj =>
            hclose hj (by rw [hk']; exact List.mem_cons_self)
          simp [writesOf, hjk]

theorem closesLast_append_close {queue : List (LoopWork κ)}
    (h : ClosesLast k queue) : ClosesLast k (queue ++ [.close j]) := by
  induction queue with
  | nil => exact ⟨fun _ => rfl, trivial⟩
  | cons work queue ih =>
      cases work with
      | write k' output' => exact ih h
      | close k' =>
          obtain ⟨hlast, hrest⟩ := h
          refine ⟨fun hk' => ?_, ih hrest⟩
          have hsplit := writesOf_append k queue [.close j]
          rw [hlast hk'] at hsplit
          exact hsplit

/-- Once the close is on its way nothing of the connection is left but what is
in the work queue. -/
theorem Accounted.of_closing (h : s.Accounted k)
    (hsent : (s.connections k).connectionCloseRequestSent = true)
    (hopen : (s.connections k).closeRequested = false) :
    (s.connections k).pushed =
      (s.connections k).sent ++ writesOf k s.workQueue := by
  obtain ⟨_, hbuffer, hserves⟩ := h.drained hsent
  have hhand : s.point.inHand k = [] := by
    unfold PusherPoint.inHand
    split
    · rename_i k' output rest active hpoint
      rw [hpoint] at hserves
      exact if_neg hserves
    · rfl
  rw [h.accounted hopen, hbuffer, hhand, List.append_nil, List.append_nil]

/-- What happens to other connections. -/
theorem Accounted.frame (h : s.Accounted k)
    (hconnection : t.connections k = s.connections k)
    (hwrites : writesOf k t.workQueue = writesOf k s.workQueue)
    (hclose : LoopWork.close k ∈ t.workQueue →
      LoopWork.close k ∈ s.workQueue)
    (hordered : ClosesLast k t.workQueue)
    (hhand : t.point.inHand k = s.point.inHand k)
    (hserves : t.point.Serves k → s.point.Serves k)
    (hcloses : t.point.Closes k → s.point.Closes k)
    (hcollection : k ∈ s.collection → k ∈ t.collection) : t.Accounted k := by
  constructor
  · rw [hconnection, hwrites, hhand]
    exact h.accounted
  · rw [hconnection]
    intro hsent
    obtain ⟨hexited, hbuffer, hnot⟩ := h.drained hsent
    exact ⟨hexited, hbuffer, fun hserve => hnot (hserves hserve)⟩
  · rw [hconnection]
    rintro (hmem | hpoint | ⟨haccepted, hout⟩ | hclosed)
    · exact h.requested (Or.inl (hclose hmem))
    · exact h.requested (Or.inr (Or.inl (hcloses hpoint)))
    · exact h.requested (Or.inr (Or.inr (Or.inl
        ⟨haccepted, fun hmem => hout (hcollection hmem)⟩)))
    · exact h.requested (Or.inr (Or.inr (Or.inr hclosed)))
  · exact hordered
  · rw [hconnection]
    exact h.sent

theorem Accounted.atContext {e : RunnerEvent} (h : s.Accounted j)
    (hstep : s.atContext k e = .ok t) : t.Accounted j := by
  obtain ⟨state, hevent, rfl⟩ := map_eq_ok hstep
  by_cases hkj : k = j
  · subst hkj
    obtain ⟨chunks, hbuffer, hexited⟩ := ConcurrentState.event_outputs hevent
    simp only at hbuffer hexited
    constructor
    · intro hopen
      have haccounted := h.accounted (by simpa [setConnection] using hopen)
      simp [setConnection, hbuffer, haccounted]
    · intro hsent
      obtain ⟨hold, hempty, hserves⟩ :=
        h.drained (by simpa [setConnection] using hsent)
      obtain ⟨rfl, hstill⟩ := hexited hold
      refine ⟨by simpa [setConnection] using hstill, ?_, hserves⟩
      simp [setConnection, hbuffer, hempty]
    · intro hrequest
      have hsent := h.requested (by simpa [setConnection] using hrequest)
      simpa [setConnection] using hsent
    · exact h.ordered
    · intro hclosed
      have hclosed' : (s.connections k).closeRequested = true := by
        simpa [setConnection] using hclosed
      have hsent := h.requested (Or.inr (Or.inr (Or.inr hclosed')))
      obtain ⟨hold, _, _⟩ := h.drained hsent
      obtain ⟨rfl, _⟩ := hexited hold
      have heq := h.sent hclosed'
      simp [setConnection, hbuffer, heq]
  · exact h.frame (Function.update_of_ne (Ne.symm hkj) _ _) rfl id h.ordered
      rfl id id id

/-- The pusher comes to a connection; one that has exited has an empty output
buffer. -/
theorem Accounted.visit {rest' : List κ} {active' : Nat}
    (hpoint : s.point = .scanning rest' active')
    (hbuffer : (s.connections k).state.context.exited = true →
      (s.connections k).connectionCloseRequestSent = false →
      (s.connections k).state.context.outputBuffer = [])
    (h : s.Accounted j) (rest : List κ) (active : Nat) :
    (s.visit k rest active).Accounted j := by
  unfold LibuvServerRunner.visit
  simp only
  split
  · rename_i hexited
    split
    · refine h.frame rfl rfl id h.ordered ?_ False.elim False.elim id
      rw [hpoint]
      rfl
    · rename_i hfirst
      rw [Bool.not_eq_true] at hfirst
      by_cases hkj : k = j
      · subst hkj
        have hempty := hbuffer hexited hfirst
        constructor
        · intro hopen
          have haccounted := h.accounted
            (by simpa [setConnection] using hopen)
          rw [hpoint] at haccounted
          simpa [setConnection, PusherPoint.inHand] using haccounted
        · intro _
          exact ⟨by simpa [setConnection] using hexited,
            by simpa [setConnection] using hempty, id⟩
        · intro _
          simp [setConnection]
        · exact h.ordered
        · simpa [setConnection] using h.sent
      · refine h.frame (Function.update_of_ne (Ne.symm hkj) _ _) rfl id
          h.ordered ?_ False.elim (fun hclose => absurd hclose hkj) id
        rw [hpoint]
        rfl
  · rename_i hrunning
    by_cases hkj : k = j
    · subst hkj
      have hnot : ¬ (s.connections k).connectionCloseRequestSent = true :=
        fun hsent => hrunning (h.drained hsent).1
      constructor
      · intro hopen
        have haccounted := h.accounted hopen
        rw [hpoint] at haccounted
        exact haccounted
      · intro hsent
        exact absurd hsent hnot
      · rintro (hmem | hclose | hout)
        · exact h.requested (Or.inl hmem)
        · exact hclose.elim
        · exact h.requested (Or.inr (Or.inr hout))
      · exact h.ordered
      · exact h.sent
    · refine h.frame rfl rfl id h.ordered ?_
        (fun hserve => absurd hserve hkj) False.elim id
      rw [hpoint]
      rfl

/-- A connection that is drained has not been closed. -/
theorem Accounted.serving (h : s.Accounted k) (hserves : s.point.Serves k) :
    ¬ (s.connections k).connectionCloseRequestSent = true :=
  fun hsent => (h.drained hsent).2.2 hserves

theorem Accounted.drain {rest : List κ} {active : Nat}
    (hpoint : s.point = .draining k rest active) (h : s.Accounted j) :
    (s.drain k rest active).Accounted j := by
  unfold LibuvServerRunner.drain
  simp only
  split
  · refine h.frame rfl rfl id h.ordered ?_ False.elim False.elim id
    rw [hpoint]
    rfl
  · rename_i output queue hbuffer
    by_cases hkj : k = j
    · subst hkj
      have hserves : s.point.Serves k := by
        rw [hpoint]
        rfl
      have hnot := h.serving hserves
      constructor
      · intro hopen
        have haccounted := h.accounted (by simpa [setConnection] using hopen)
        rw [hpoint, hbuffer] at haccounted
        simpa [setConnection, PusherPoint.inHand] using haccounted
      · intro hsent
        exact absurd (by simpa [setConnection] using hsent) hnot
      · rintro (hmem | hclose | hout)
        · exact absurd (h.requested (Or.inl hmem)) hnot
        · exact hclose.elim
        · refine absurd (h.requested (Or.inr (Or.inr ?_))) hnot
          simpa [setConnection] using hout
      · exact h.ordered
      · simpa [setConnection] using h.sent
    · refine h.frame (Function.update_of_ne (Ne.symm hkj) _ _) rfl id
        h.ordered ?_ (fun hserve => absurd hserve hkj) False.elim id
      rw [hpoint]
      exact if_neg hkj

theorem Accounted.pushWrite {output : Octets} {rest : List κ} {active : Nat}
    (hpoint : s.point = .pushingWrite k output rest active)
    (h : s.Accounted j) :
    Accounted { s with
      workQueue := s.workQueue ++ [.write k output]
      point := .draining k rest active } j := by
  by_cases hkj : k = j
  · subst hkj
    have hserves : s.point.Serves k := by
      rw [hpoint]
      rfl
    have hnot := h.serving hserves
    constructor
    · intro hopen
      have haccounted := h.accounted hopen
      rw [hpoint] at haccounted
      simp only [writesOf_append]
      simpa [PusherPoint.inHand, writesOf] using haccounted
    · intro hsent
      exact absurd hsent hnot
    · rintro (hmem | hclose | hout)
      · refine absurd (h.requested (Or.inl ?_)) hnot
        simpa using hmem
      · exact hclose.elim
      · exact absurd (h.requested (Or.inr (Or.inr hout))) hnot
    · exact closesLast_append_write output h.ordered
        fun _ hmem => hnot (h.requested (Or.inl hmem))
    · exact h.sent
  · refine h.frame rfl ?_ ?_ ?_ ?_ (fun hserve => absurd hserve hkj)
      False.elim id
    · simp only [writesOf_append]
      simp [writesOf, hkj]
    · intro hmem
      simpa using hmem
    · exact closesLast_append_write output h.ordered
        fun heq => absurd heq hkj
    · rw [hpoint]
      exact (if_neg hkj).symm

theorem Accounted.remove {rest : List κ} {active : Nat}
    (hpoint : s.point = .removing k rest active) (h : s.Accounted j) :
    Accounted { s with
      collection := s.collection.filter (· ≠ k)
      point := .pushingClose k rest active } j := by
  have hhand : s.point.inHand j = [] := by
    rw [hpoint]
    rfl
  constructor
  · intro hopen
    have haccounted := h.accounted hopen
    rw [hhand] at haccounted
    exact haccounted
  · intro hsent
    obtain ⟨hexited, hempty, _⟩ := h.drained hsent
    exact ⟨hexited, hempty, id⟩
  · rintro (hmem | hclose | ⟨haccepted, hout⟩ | hclosed)
    · exact h.requested (Or.inl hmem)
    · exact h.requested (Or.inr (Or.inl (by rw [hpoint]; exact hclose)))
    · by_cases hkj : k = j
      · exact h.requested (Or.inr (Or.inl (by rw [hpoint]; exact hkj)))
      · refine h.requested (Or.inr (Or.inr (Or.inl ⟨haccepted, ?_⟩)))
        intro hmem
        exact hout (List.mem_filter.mpr
          ⟨hmem, decide_eq_true (Ne.symm hkj)⟩)
    · exact h.requested (Or.inr (Or.inr (Or.inr hclosed)))
  · exact h.ordered
  · exact h.sent

theorem Accounted.pushClose {rest : List κ} {active : Nat}
    (hpoint : s.point = .pushingClose k rest active) (h : s.Accounted j) :
    Accounted { s with
      workQueue := s.workQueue ++ [.close k]
      point := .scanning rest active } j := by
  have hhand : s.point.inHand j = [] := by
    rw [hpoint]
    rfl
  constructor
  · intro hopen
    have haccounted := h.accounted hopen
    rw [hhand] at haccounted
    simp only [writesOf_append]
    simpa [PusherPoint.inHand, writesOf] using haccounted
  · intro hsent
    obtain ⟨hexited, hempty, _⟩ := h.drained hsent
    exact ⟨hexited, hempty, id⟩
  · rintro (hmem | hclose | hout)
    · rcases List.mem_append.mp hmem with hmem | hmem
      · exact h.requested (Or.inl hmem)
      · have hkj : k = j := by simpa using (List.mem_singleton.mp hmem).symm
        exact h.requested (Or.inr (Or.inl (by rw [hpoint]; exact hkj)))
    · exact hclose.elim
    · exact h.requested (Or.inr (Or.inr hout))
  · exact closesLast_append_close h.ordered
  · exact h.sent

/-- The pusher keeps the account. -/
theorem Accounted.pusherStep (h : s.Accounted j)
    (hdrained : s.DrainedAtExit k) : (s.pusherStep k).Accounted j := by
  unfold LibuvServerRunner.pusherStep
  split
  · rename_i hpoint
    refine h.frame rfl rfl id h.ordered ?_ False.elim False.elim id
    rw [hpoint]
    rfl
  · rename_i active hpoint
    split
    · refine h.frame rfl rfl id h.ordered ?_ False.elim False.elim id
      rw [hpoint]
      rfl
    · refine h.frame rfl rfl id h.ordered ?_ False.elim False.elim id
      rw [hpoint]
      rfl
  · rename_i rest active _ hpoint
    split
    · rename_i hmem
      unfold DrainedAtExit at hdrained
      rw [hpoint] at hdrained
      exact h.visit hpoint (hdrained hmem) _ _
    · exact h
  · rename_i k' rest active hpoint
    exact h.drain hpoint
  · rename_i k' output rest active hpoint
    exact h.pushWrite hpoint
  · rename_i k' rest active hpoint
    exact h.remove hpoint
  · rename_i k' rest active hpoint
    exact h.pushClose hpoint
  · exact h

theorem Accounted.runWork (h : s.Accounted j) : s.runWork.Accounted j := by
  unfold LibuvServerRunner.runWork
  split
  · exact h
  · rename_i k output queue hqueue
    have hordered : ClosesLast j queue := by
      have hall := h.ordered
      rw [hqueue] at hall
      exact hall
    have hclose : LoopWork.close j ∈ queue →
        LoopWork.close j ∈ s.workQueue := by
      intro hmem
      rw [hqueue]
      exact List.mem_cons_of_mem _ hmem
    by_cases hkj : k = j
    · subst hkj
      have hwrites : writesOf k s.workQueue = output :: writesOf k queue := by
        simp [hqueue, writesOf]
      constructor
      · intro hopen
        have hopen' : (s.connections k).closeRequested = false := by
          simpa [setConnection] using hopen
        have haccounted := h.accounted hopen'
        rw [hwrites] at haccounted
        simpa [setConnection, hopen'] using haccounted
      · simpa [setConnection] using h.drained
      · rintro (hmem | hcloses | hout)
        · simpa [setConnection] using h.requested (Or.inl (hclose hmem))
        · simpa [setConnection] using h.requested (Or.inr (Or.inl hcloses))
        · simpa [setConnection] using h.requested
            (Or.inr (Or.inr (by simpa [setConnection] using hout)))
      · exact hordered
      · intro hclosed
        have hclosed' : (s.connections k).closeRequested = true := by
          simpa [setConnection] using hclosed
        simpa [setConnection, hclosed'] using h.sent hclosed'
    · refine h.frame (Function.update_of_ne (Ne.symm hkj) _ _) ?_ hclose
        hordered rfl id id id
      simp [hqueue, writesOf, hkj]
  · rename_i k queue hqueue
    obtain ⟨hlast, hordered⟩ :
        (k = j → writesOf j queue = []) ∧ ClosesLast j queue := by
      have hall := h.ordered
      rw [hqueue] at hall
      exact hall
    have hwrites : writesOf j s.workQueue = writesOf j queue := by
      simp [hqueue, writesOf]
    have hclose : LoopWork.close j ∈ queue →
        LoopWork.close j ∈ s.workQueue := by
      intro hmem
      rw [hqueue]
      exact List.mem_cons_of_mem _ hmem
    by_cases hkj : k = j
    · subst hkj
      have hrequested := h.requested
        (Or.inl (by rw [hqueue]; exact List.mem_cons_self))
      constructor
      · intro hopen
        simp [setConnection] at hopen
      · intro _
        simpa [setConnection] using h.drained hrequested
      · intro _
        simpa [setConnection] using hrequested
      · exact hordered
      · intro _
        have hsent : (s.connections k).sent = (s.connections k).pushed := by
          cases hopen : (s.connections k).closeRequested with
          | true => exact h.sent hopen
          | false =>
              rw [h.of_closing hrequested hopen, hwrites, hlast rfl,
                List.append_nil]
        simpa [setConnection] using hsent
    · exact h.frame (Function.update_of_ne (Ne.symm hkj) _ _) hwrites.symm
        hclose hordered rfl id id id

theorem Accounted.onRead {data : Option Octets} (h : s.Accounted j)
    (hwritten : s.WrittenAtRead k) (hstep : s.onRead k data = .ok t) :
    t.Accounted j := by
  unfold LibuvServerRunner.onRead at hstep
  simp only at hstep
  split at hstep
  · obtain rfl := Except.ok.inj hstep
    exact h
  · rename_i hactive
    simp only [not_or, Bool.not_eq_false, Bool.not_eq_true] at hactive
    obtain ⟨haccepted, hopen⟩ := hactive
    split at hstep
    · split at hstep
      · exact h.atContext hstep
      · exact h.atContext hstep
    · rename_i hremoved
      obtain rfl := Except.ok.inj hstep
      by_cases hkj : k = j
      · subst hkj
        have hrequested := h.requested
          (Or.inr (Or.inr (Or.inl ⟨haccepted, hremoved⟩)))
        constructor
        · intro hopen'
          simp [setConnection] at hopen'
        · intro _
          simpa [setConnection] using h.drained hrequested
        · intro _
          simpa [setConnection] using hrequested
        · exact h.ordered
        · intro _
          have hsent : (s.connections k).sent = (s.connections k).pushed := by
            rw [h.of_closing hrequested hopen, hwritten hremoved,
              List.append_nil]
          simpa [setConnection] using hsent
      · exact h.frame (Function.update_of_ne (Ne.symm hkj) _ _) rfl id
          h.ordered rfl id id id

theorem Accounted.newConnection (h : s.Accounted j) :
    Accounted { s.setConnection k { s.connections k with accepted := true } with
      collection := k :: s.collection } j := by
  by_cases hkj : k = j
  · subst hkj
    constructor
    · simpa [setConnection] using h.accounted
    · simpa [setConnection] using h.drained
    · rintro (hmem | hcloses | ⟨_, hout⟩ | hclosed)
      · simpa [setConnection] using h.requested (Or.inl hmem)
      · simpa [setConnection] using h.requested (Or.inr (Or.inl hcloses))
      · exact absurd List.mem_cons_self hout
      · simpa [setConnection] using h.requested
          (Or.inr (Or.inr (Or.inr (by simpa [setConnection] using hclosed))))
    · exact h.ordered
    · simpa [setConnection] using h.sent
  · exact h.frame (Function.update_of_ne (Ne.symm hkj) _ _) rfl id h.ordered
      rfl id id fun hmem => List.mem_cons_of_mem k hmem

/-- A step that closes late keeps the account of every connection. -/
theorem Accounted.event {e : ServerEvent κ} (h : s.Accounted j)
    (hlate : ClosesLate e s) (hstep : LibuvServerRunner.event e s = .ok t) :
    t.Accounted j := by
  cases e with
  | interpreterThread k =>
      simp only [LibuvServerRunner.event] at hstep
      split at hstep
      · exact h.atContext hstep
      · obtain rfl := Except.ok.inj hstep
        exact h
  | callbackResponse k value =>
      simp only [LibuvServerRunner.event] at hstep
      split at hstep
      · exact h.atContext hstep
      · obtain rfl := Except.ok.inj hstep
        exact h
  | pusherThread k =>
      obtain rfl := Except.ok.inj hstep
      exact h.pusherStep hlate
  | runWork =>
      obtain rfl := Except.ok.inj hstep
      exact h.runWork
  | newConnection k =>
      simp only [LibuvServerRunner.event] at hstep
      split at hstep
      · obtain rfl := Except.ok.inj hstep
        exact h
      · obtain rfl := Except.ok.inj hstep
        exact h.newConnection
  | read k data => exact h.onRead hlate hstep
  | writeCompleted k failed =>
      simp only [LibuvServerRunner.event] at hstep
      split at hstep
      · exact h.atContext hstep
      · obtain rfl := Except.ok.inj hstep
        exact h
  | stopAccepting =>
      obtain rfl := Except.ok.inj hstep
      exact h.frame rfl rfl id h.ordered rfl id id id

theorem accounted_start (program : OpTreeNode) (errno : Errno) (k : κ) :
    (start program errno).Accounted k := by
  constructor
  · intro _
    simp [start, ConcurrentState.start, writesOf, PusherPoint.inHand]
  · intro hsent
    contradiction
  · rintro (hmem | hcloses | ⟨haccepted, _⟩ | hclosed)
    · exact absurd hmem List.not_mem_nil
    · exact hcloses.elim
    · contradiction
    · contradiction
  · trivial
  · intro hclosed
    contradiction

theorem Accounted.sendsBeforeClose (h : ∀ k, s.Accounted k) :
    s.SendsBeforeClose := by
  intro k
  refine ⟨?_, (h k).sent⟩
  cases hopen : (s.connections k).closeRequested with
  | true => rw [(h k).sent hopen]
  | false =>
      rw [(h k).accounted hopen]
      exact List.prefix_append _ _

/-- In every run all of whose steps close late, everything is sent before the
close. -/
theorem sendsBeforeClose_of_closesLate (program : OpTreeNode) (errno : Errno)
    (events : List (ServerEvent κ))
    (hlate : EachStep event ClosesLate events (start program errno)) :
    Always event SendsBeforeClose events (start program errno) :=
  always_of_eachStep (fun _ _ _ hfirst hs hstep k => (hs k).event hfirst hstep)
    (fun _ hs => Accounted.sendsBeforeClose hs) (accounted_start program errno)
    hlate

/-- The server of a connection that only says `hi`. -/
def sayingHi : LibuvServerRunner Nat :=
  start (.mk (.inputOutput (.writeStaticOctets [104, 105])) []) 0

/-- The reply is drained before the interpreter exits, and its write is run
before the close that the pusher then hands over. -/
def drainedRun : List (ServerEvent Nat) :=
  [.newConnection 0, .interpreterThread 0, .pusherThread 0, .pusherThread 0,
    .pusherThread 0, .pusherThread 0, .pusherThread 0, .interpreterThread 0,
    .pusherThread 0, .pusherThread 0, .pusherThread 0, .pusherThread 0,
    .pusherThread 0, .runWork, .runWork]

theorem sendsBeforeClose_of_closesLate_reply :
    Always event SendsBeforeClose drainedRun sayingHi ∧
      ∃ s, run event drainedRun sayingHi = .ok s ∧
        (s.connections 0).closeRequested = true ∧
        (s.connections 0).sent = [[104, 105]] := by
  have hlate : EachStep event ClosesLate drainedRun sayingHi := by
    refine (eachStep_cons_of_ok rfl).mpr ⟨trivial, ?_⟩
    refine (eachStep_cons_of_ok rfl).mpr ⟨trivial, ?_⟩
    refine (eachStep_cons_of_ok rfl).mpr ⟨trivial, ?_⟩
    refine (eachStep_cons_of_ok rfl).mpr ⟨fun _ h => absurd h (by decide), ?_⟩
    refine (eachStep_cons_of_ok rfl).mpr ⟨trivial, ?_⟩
    refine (eachStep_cons_of_ok rfl).mpr ⟨trivial, ?_⟩
    refine (eachStep_cons_of_ok rfl).mpr ⟨trivial, ?_⟩
    refine (eachStep_cons_of_ok rfl).mpr ⟨trivial, ?_⟩
    refine (eachStep_cons_of_ok rfl).mpr
      ⟨fun h => absurd h List.not_mem_nil, ?_⟩
    refine (eachStep_cons_of_ok rfl).mpr ⟨trivial, ?_⟩
    -- the pusher finds that the interpreter has exited, and nothing to drain
    refine (eachStep_cons_of_ok rfl).mpr ⟨fun _ _ _ => rfl, ?_⟩
    refine (eachStep_cons_of_ok rfl).mpr ⟨trivial, ?_⟩
    refine (eachStep_cons_of_ok rfl).mpr ⟨trivial, ?_⟩
    refine (eachStep_cons_of_ok rfl).mpr ⟨trivial, ?_⟩
    exact (eachStep_cons_of_ok rfl).mpr ⟨trivial, eachStep_nil⟩
  have hsends := sendsBeforeClose_of_closesLate _ _ _ hlate
  have hclosed : ∃ s, run event drainedRun sayingHi = .ok s ∧
      (s.connections 0).closeRequested = true ∧
      (s.connections 0).pushed = [[104, 105]] :=
    ⟨_, rfl, rfl, rfl⟩
  obtain ⟨s, hrun, hclose, hpushed⟩ := hclosed
  have hlast := hsends drainedRun [] s (List.append_nil _).symm hrun
  exact ⟨hsends, s, hrun, hclose, ((hlast 0).2 hclose).trans hpushed⟩

/-- The interpreter pushes its reply and exits before the pusher looks: the
connection is closed and nothing was sent. -/
theorem last_reply_is_lost :
    ¬ ∀ (program : OpTreeNode) (errno : Errno)
      (events : List (ServerEvent Nat)),
        Always event SendsBeforeClose events (start program errno) := by
  intro h
  have hreply := h (.mk (.inputOutput (.writeStaticOctets [104, 105])) []) 0
    [.newConnection 0, .interpreterThread 0, .interpreterThread 0,
      .pusherThread 0, .pusherThread 0, .pusherThread 0, .pusherThread 0,
      .runWork]
    [.newConnection 0, .interpreterThread 0, .interpreterThread 0,
      .pusherThread 0, .pusherThread 0, .pusherThread 0, .pusherThread 0,
      .runWork] [] _ rfl rfl
  have hsent := (hreply 0).2 rfl
  exact absurd hsent (by decide)

end LibuvServerRunner

end NetworkProtocolDsl
