/-
How often `uv_close` is called at the handle of a connection.

The pusher records the close of the server's connection that it hands to the
work queue; the read callback looks at the collection only, from which the
interpreter was removed before.
-/
import NetworkProtocolDsl.LibuvClientRunner

namespace NetworkProtocolDsl

open Run

/-- Whether the close of a connection was sent and requested. -/
def ServerConnection.closeFlags (connection : ServerConnection) :
    Bool × Bool :=
  (connection.connectionCloseRequestSent, connection.closeRequested)

/-- An update that does not change what is read of the entry is not seen. -/
theorem read_update {κ α β : Type} [DecidableEq κ] (read : α → β)
    {table : κ → α} {k : κ} {entry : α} (h : read entry = read (table k))
    (j : κ) : read (Function.update table k entry j) = read (table j) := by
  by_cases hkj : j = k
  · subst hkj
    rw [Function.update_self, h]
  · rw [Function.update_of_ne hkj]

namespace LibuvServerRunner

variable {κ : Type} [DecidableEq κ]

/-- The event calls `uv_close` at the handle of the connection. -/
def CallsClose (k : κ) (e : ServerEvent κ) (s : LibuvServerRunner κ) : Prop :=
  match e with
  | .runWork => s.workQueue.head? = some (.close k)
  | .read k' _ =>
      k' = k ∧ (s.connections k).accepted = true ∧
        (s.connections k).closeRequested = false ∧ k ∉ s.collection
  | _ => False

/-- No read at an open handle finds the interpreter removed. -/
def LeavesClose (e : ServerEvent κ) (s : LibuvServerRunner κ) : Prop :=
  match e with
  | .read k _ =>
      (s.connections k).accepted = true →
        (s.connections k).closeRequested = false → k ∈ s.collection
  | _ => True

instance (e : ServerEvent κ) (s : LibuvServerRunner κ) :
    Decidable (LeavesClose e s) := by
  cases e <;> dsimp only [LeavesClose] <;> infer_instance

/-- The close goes from the pusher to the work queue and from there to the
handle, once. -/
structure ClosesOnce (k : κ) (s : LibuvServerRunner κ) : Prop where
  requested : LoopWork.close k ∈ s.workQueue ∨ s.point.Closes k ∨
      (s.connections k).closeRequested = true →
    (s.connections k).connectionCloseRequestSent = true
  pushing : s.point.Closes k → LoopWork.close k ∉ s.workQueue ∧
    (s.connections k).closeRequested = false
  queued : LoopWork.close k ∈ s.workQueue →
    (s.connections k).closeRequested = false
  single : s.workQueue.count (.close k) ≤ 1

variable {s t : LibuvServerRunner κ} {j k : κ} {e : ServerEvent κ}

/-- Where neither flag nor the close on its way changes. -/
theorem ClosesOnce.frame (h : s.ClosesOnce j)
    (hflags : (t.connections j).closeFlags = (s.connections j).closeFlags)
    (hpoint : t.point.Closes j ↔ s.point.Closes j)
    (hqueue : t.workQueue.count (.close j) = s.workQueue.count (.close j)) :
    t.ClosesOnce j := by
  obtain ⟨hsent, hclose⟩ := Prod.mk.inj hflags
  have hmem : LoopWork.close j ∈ t.workQueue ↔
      LoopWork.close j ∈ s.workQueue := by
    rw [← List.count_pos_iff, ← List.count_pos_iff, hqueue]
  constructor
  · rw [hmem, hpoint, hclose, hsent]
    exact h.requested
  · rw [hpoint, hmem, hclose]
    exact h.pushing
  · rw [hmem, hclose]
    exact h.queued
  · rw [hqueue]
    exact h.single

theorem ClosesOnce.atContext {e : RunnerEvent} (h : s.ClosesOnce j)
    (hstep : s.atContext k e = .ok t) : t.ClosesOnce j := by
  obtain ⟨state, _, rfl⟩ := map_eq_ok hstep
  exact h.frame (read_update ServerConnection.closeFlags (by rfl) j) Iff.rfl rfl

theorem ClosesOnce.visit {rest' : List κ} {active' : Nat} (h : s.ClosesOnce j)
    (hpoint : s.point = .scanning rest' active') (rest : List κ)
    (active : Nat) : (s.visit k rest active).ClosesOnce j := by
  have hnot : ¬ s.point.Closes j := by
    rw [hpoint]
    exact id
  unfold LibuvServerRunner.visit
  simp only
  split
  · split
    · exact h.frame rfl (iff_of_false id hnot) rfl
    · rename_i hfirst
      by_cases hkj : k = j
      · subst hkj
        -- The close of this connection was not sent before, so it is nowhere.
        have hnone : ¬ (LoopWork.close k ∈ s.workQueue ∨ s.point.Closes k ∨
            (s.connections k).closeRequested = true) :=
          fun hmem => hfirst (h.requested hmem)
        simp only [not_or, Bool.not_eq_true] at hnone
        have hopen : ((s.setConnection k { s.connections k with
            connectionCloseRequestSent := true }).connections
              k).closeRequested = false := by
          simpa [setConnection] using hnone.2.2
        refine ⟨fun _ => by simp [setConnection],
          fun _ => ⟨hnone.1, hopen⟩, fun _ => hopen, h.single⟩
      · refine h.frame ?_ (iff_of_false hkj hnot) rfl
        exact congrArg _ (Function.update_of_ne (Ne.symm hkj) _ _)
  · exact h.frame rfl (iff_of_false id hnot) rfl

theorem ClosesOnce.pusherStep (h : s.ClosesOnce j) :
    (s.pusherStep k).ClosesOnce j := by
  unfold LibuvServerRunner.pusherStep
  split
  · rename_i hpoint
    exact h.frame rfl (by rw [hpoint]; exact Iff.rfl) rfl
  · rename_i active hpoint
    split
    · exact h.frame rfl (by rw [hpoint]; exact Iff.rfl) rfl
    · exact h.frame rfl (by rw [hpoint]; exact Iff.rfl) rfl
  · rename_i rest active _ hpoint
    split
    · exact h.visit hpoint _ _
    · exact h
  · rename_i k' rest active hpoint
    unfold LibuvServerRunner.drain
    simp only
    split
    · exact h.frame rfl (by rw [hpoint]; exact Iff.rfl) rfl
    · refine h.frame (read_update ServerConnection.closeFlags (by rfl) j) ?_ rfl
      rw [hpoint]
      exact Iff.rfl
  · rename_i k' output rest active hpoint
    refine h.frame rfl (by rw [hpoint]; exact Iff.rfl) ?_
    rw [List.count_append]
    rfl
  · rename_i k' rest active hpoint
    exact h.frame rfl (by rw [hpoint]; exact Iff.rfl) rfl
  · rename_i k' rest active hpoint
    by_cases hkj : k' = j
    · subst hkj
      have hcloses : s.point.Closes k' := by
        rw [hpoint]
        rfl
      obtain ⟨hnone, hopen⟩ := h.pushing hcloses
      refine ⟨fun _ => h.requested (Or.inr (Or.inl hcloses)), False.elim,
        fun _ => hopen, ?_⟩
      rw [List.count_append, List.count_eq_zero_of_not_mem hnone,
        List.count_singleton_self]
    · refine h.frame rfl (by rw [hpoint]; exact iff_of_false id hkj) ?_
      rw [List.count_append, List.count_singleton, if_neg (by simpa using hkj)]
      rfl
  · exact h

theorem ClosesOnce.runWork (h : s.ClosesOnce j) : s.runWork.ClosesOnce j := by
  unfold LibuvServerRunner.runWork
  split
  · exact h
  · rename_i k output queue hqueue
    refine h.frame (read_update ServerConnection.closeFlags (by rfl) j)
      Iff.rfl ?_
    rw [hqueue, List.count_cons_of_ne (by simp)]
  · rename_i k queue hqueue
    by_cases hkj : k = j
    · subst hkj
      have hmem : LoopWork.close k ∈ s.workQueue := by
        rw [hqueue]
        exact List.mem_cons_self
      have hsingle := h.single
      rw [hqueue, List.count_cons_self] at hsingle
      have hnone : LoopWork.close k ∉ queue :=
        List.count_eq_zero.mp (by omega)
      have hsent := h.requested (Or.inl hmem)
      refine ⟨fun _ => by simpa [setConnection] using hsent,
        fun hcloses => absurd hmem (h.pushing hcloses).1,
        fun hmem => absurd hmem hnone, ?_⟩
      rw [List.count_eq_zero_of_not_mem hnone]
      exact Nat.zero_le 1
    · refine h.frame ?_ Iff.rfl ?_
      · exact congrArg _ (Function.update_of_ne (Ne.symm hkj) _ _)
      · rw [hqueue, List.count_cons_of_ne (by simpa using hkj)]

/-- A step that leaves the close to the pusher keeps it the only one. -/
theorem ClosesOnce.event (h : s.ClosesOnce j) (hleaves : LeavesClose e s)
    (hstep : LibuvServerRunner.event e s = .ok t) : t.ClosesOnce j := by
  cases e with
  | interpreterThread k =>
      simp only [LibuvServerRunner.event] at hstep
      split at hstep
      · exact h.atContext hstep
      · obtain rfl := Except.ok.inj hstep
        exact h
  | callbackResponse k value =>
      simp only [LibuvServerRunner.event] at hstep
      split at hstep
      · exact h.atContext hstep
      · obtain rfl := Except.ok.inj hstep
        exact h
  | pusherThread k =>
      obtain rfl := Except.ok.inj hstep
      exact h.pusherStep
  | runWork =>
      obtain rfl := Except.ok.inj hstep
      exact h.runWork
  | newConnection k =>
      simp only [LibuvServerRunner.event] at hstep
      split at hstep
      · obtain rfl := Except.ok.inj hstep
        exact h
      · obtain rfl := Except.ok.inj hstep
        exact h.frame (read_update ServerConnection.closeFlags (by rfl) j)
          Iff.rfl rfl
  | read k data =>
      simp only [LibuvServerRunner.event, LibuvServerRunner.onRead] at hstep
      split at hstep
      · obtain rfl := Except.ok.inj hstep
        exact h
      · rename_i hon
        simp only [not_or, Bool.not_eq_false, Bool.not_eq_true] at hon
        rw [if_pos (hleaves hon.1 hon.2)] at hstep
        split at hstep
        · exact h.atContext hstep
        · exact h.atContext hstep
  | writeCompleted k failed =>
      simp only [LibuvServerRunner.event] at hstep
      split at hstep
      · exact h.atContext hstep
      · obtain rfl := Except.ok.inj hstep
        exact h
  | stopAccepting =>
      obtain rfl := Except.ok.inj hstep
      exact h.frame rfl Iff.rfl rfl

theorem atContext_closeRequested {e : RunnerEvent}
    (h : s.atContext k e = .ok t) (j : κ) :
    (t.connections j).closeRequested = (s.connections j).closeRequested := by
  obtain ⟨state, _, rfl⟩ := map_eq_ok h
  exact read_update ServerConnection.closeRequested (by rfl) j

theorem pusherStep_closeRequested (k j : κ) :
    ((s.pusherStep k).connections j).closeRequested =
      (s.connections j).closeRequested := by
  unfold LibuvServerRunner.pusherStep
  split
  · rfl
  · split
    · rfl
    · rfl
  · split
    · unfold LibuvServerRunner.visit
      simp only
      split
      · split
        · rfl
        · exact read_update ServerConnection.closeRequested (by rfl) j
      · rfl
    · rfl
  · rename_i k' rest active _
    unfold LibuvServerRunner.drain
    simp only
    split
    · rfl
    · exact read_update ServerConnection.closeRequested (by rfl) j
  · rfl
  · rfl
  · rfl
  · rfl

/-- The close of a connection is requested exactly by the events that call
`uv_close` at its handle. -/
theorem event_closeRequested (h : event e s = .ok t) :
    (t.connections k).closeRequested = true ↔
      (s.connections k).closeRequested = true ∨ CallsClose k e s := by
  have hsame (heq : (t.connections k).closeRequested =
        (s.connections k).closeRequested) (hnot : ¬ CallsClose k e s) :
      (t.connections k).closeRequested = true ↔
        (s.connections k).closeRequested = true ∨ CallsClose k e s := by
    rw [heq, or_iff_left hnot]
  cases e with
  | interpreterThread k' =>
      simp only [event] at h
      split at h
      · exact hsame (atContext_closeRequested h k) id
      · obtain rfl := Except.ok.inj h
        exact hsame rfl id
  | callbackResponse k' value =>
      simp only [event] at h
      split at h
      · exact hsame (atContext_closeRequested h k) id
      · obtain rfl := Except.ok.inj h
        exact hsame rfl id
  | pusherThread k' =>
      obtain rfl := Except.ok.inj h
      exact hsame (pusherStep_closeRequested k' k) id
  | runWork =>
      obtain rfl := Except.ok.inj h
      unfold runWork CallsClose
      split
      · rename_i hqueue
        simp [hqueue]
      · rename_i k' output queue hqueue
        have hnot : ¬ s.workQueue.head? = some (.close k) := by simp [hqueue]
        rw [or_iff_left hnot]
        exact Eq.congr_left
          (read_update ServerConnection.closeRequested (by rfl) k)
      · rename_i k' queue hqueue
        by_cases hkj : k = k'
        · subst hkj
          simp [hqueue, setConnection]
        · simp [hqueue, setConnection, hkj, Ne.symm hkj]
  | newConnection k' =>
      simp only [event] at h
      split at h
      · obtain rfl := Except.ok.inj h
        exact hsame rfl id
      · obtain rfl := Except.ok.inj h
        exact hsame (read_update ServerConnection.closeRequested (by rfl) k) id
  | read k' data =>
      simp only [event, onRead] at h
      split at h
      · rename_i hoff
        obtain rfl := Except.ok.inj h
        refine hsame rfl ?_
        rintro ⟨rfl, haccepted, hopen, _⟩
        simp [haccepted, hopen] at hoff
      · rename_i hon
        simp only [not_or, Bool.not_eq_false, Bool.not_eq_true] at hon
        split at h
        · rename_i hmem
          have hnot : ¬ CallsClose k (.read k' data) s := by
            rintro ⟨rfl, _, _, hout⟩
            exact hout hmem
          split at h
          · exact hsame (atContext_closeRequested h k) hnot
          · exact hsame (atContext_closeRequested h k) hnot
        · rename_i hout
          obtain rfl := Except.ok.inj h
          by_cases hkj : k = k'
          · subst hkj
            refine iff_of_true ?_ (Or.inr ⟨rfl, hon.1, hon.2, hout⟩)
            simp [setConnection]
          · refine hsame (congrArg _ (Function.update_of_ne hkj _ _)) ?_
            rintro ⟨heq, _⟩
            exact hkj heq.symm
  | writeCompleted k' failed =>
      simp only [event] at h
      split at h
      · exact hsame (atContext_closeRequested h k) id
      · obtain rfl := Except.ok.inj h
        exact hsame rfl id
  | stopAccepting =>
      obtain rfl := Except.ok.inj h
      exact hsame rfl id

theorem ClosesOnce.not_callsClose (h : s.ClosesOnce k)
    (hclose : (s.connections k).closeRequested = true) :
    ¬ CallsClose k e s := by
  intro hcalls
  cases e with
  | runWork =>
      have hopen := h.queued (List.mem_of_head? hcalls)
      rw [hclose] at hopen
      contradiction
  | read k' data =>
      have hopen := hcalls.2.2.1
      rw [hclose] at hopen
      contradiction
  | interpreterThread k' | callbackResponse k' value | pusherThread k'
  | newConnection k' | writeCompleted k' failed | stopAccepting =>
      exact hcalls

theorem closesOnce_start (program : OpTreeNode) (errno : Errno) (k : κ) :
    (start program errno).ClosesOnce k := by
  refine ⟨?_, False.elim, fun hmem => absurd hmem List.not_mem_nil, ?_⟩
  · rintro (hmem | hcloses | hclosed)
    · exact absurd hmem List.not_mem_nil
    · exact hcloses.elim
    · contradiction
  · exact Nat.zero_le 1

/-- In every run that leaves the close to the pusher, `uv_close` is called at
most once at the handle of each connection. -/
theorem callsClose_atMostOnce (program : OpTreeNode) (errno : Errno)
    (events : List (ServerEvent κ))
    (hleaves : EachStep event LeavesClose events (start program errno))
    (k : κ) : AtMostOnce event (CallsClose k) events (start program errno) := by
  have hspend (e : ServerEvent κ) (s t : LibuvServerRunner κ)
      (_ : LeavesClose e s) (_ : s.ClosesOnce k) (hstep : event e s = .ok t) :
      (s.connections k).closeRequested = true ∨ CallsClose k e s →
        (t.connections k).closeRequested = true :=
    (event_closeRequested hstep).mpr
  exact atMostOnce_of_eachStep (fun _ _ _ hfirst hs hstep =>
      hs.event hfirst hstep) hspend
    (fun _ _ _ hs hclose => hs.not_callsClose hclose)
    (closesOnce_start program errno k) hleaves

end LibuvServerRunner

/-- Where both leave the close to their pusher threads, `uv_close` is called at
most once at the handle of each connection. -/
theorem uvClose_atMostOnce {κ : Type} [DecidableEq κ]
    (program : OpTreeNode) (errno : Errno)
    (serverEvents : List (ServerEvent κ)) (clientEvents : List ClientEvent)
    (hserver : EachStep LibuvServerRunner.event LibuvServerRunner.LeavesClose
      serverEvents (LibuvServerRunner.start program errno))
    (hclient : EachStep LibuvClientRunner.event LibuvClientRunner.LeavesClose
      clientEvents (LibuvClientRunner.start program errno)) :
    (∀ k, AtMostOnce LibuvServerRunner.event (LibuvServerRunner.CallsClose k)
        serverEvents (LibuvServerRunner.start program errno)) ∧
      AtMostOnce LibuvClientRunner.event LibuvClientRunner.CallsClose
        clientEvents (LibuvClientRunner.start program errno) :=
  ⟨LibuvServerRunner.callsClose_atMostOnce program errno serverEvents hserver,
    LibuvClientRunner.callsClose_atMostOnce program errno clientEvents hclient⟩

/-- The reply of the server is written while something is read, the write
completes, and the pusher closes the connection. -/
def servedRun : List (ServerEvent Nat) :=
  [.newConnection 0, .read 0 (some [113]), .interpreterThread 0,
    .pusherThread 0, .pusherThread 0, .pusherThread 0, .pusherThread 0,
    .pusherThread 0, .runWork, .writeCompleted 0 false, .interpreterThread 0,
    .pusherThread 0, .pusherThread 0, .pusherThread 0, .pusherThread 0,
    .pusherThread 0, .runWork]

/-- The same at the client. -/
def clientRun : List ClientEvent :=
  [.connect true, .read (some [113]), .interpreterThread, .pusherThread,
    .pusherThread, .pusherThread, .pusherThread, .pusherThread, .runWork,
    .writeCompleted false, .interpreterThread, .pusherThread, .pusherThread,
    .pusherThread, .runWork]

/-- Both interpreters exit and the pusher threads close the connections. -/
theorem uvClose_atMostOnce_exited :
    (∃ s, run LibuvServerRunner.event servedRun LibuvServerRunner.sayingHi =
          .ok s ∧ (s.connections 0).closeRequested = true) ∧
      (∃ s, run LibuvClientRunner.event clientRun (LibuvClientRunner.start
          (.mk (.inputOutput (.writeStaticOctets [104, 105])) []) 0) =
            .ok s ∧ s.closeRequested = true) ∧
      AtMostOnce LibuvServerRunner.event (LibuvServerRunner.CallsClose 0)
        servedRun LibuvServerRunner.sayingHi ∧
      AtMostOnce LibuvClientRunner.event LibuvClientRunner.CallsClose
        clientRun (LibuvClientRunner.start
          (.mk (.inputOutput (.writeStaticOctets [104, 105])) []) 0) := by
  have hserver : EachStep LibuvServerRunner.event LibuvServerRunner.LeavesClose
      servedRun LibuvServerRunner.sayingHi :=
    eachStep_of_checkRun (fun e s => decide (LibuvServerRunner.LeavesClose e s))
      (fun _ _ => of_decide_eq_true) rfl
  have hclient : EachStep LibuvClientRunner.event LibuvClientRunner.LeavesClose
      clientRun (LibuvClientRunner.start
        (.mk (.inputOutput (.writeStaticOctets [104, 105])) []) 0) :=
    eachStep_of_checkRun (fun e s => decide (LibuvClientRunner.LeavesClose e s))
      (fun _ _ => of_decide_eq_true) rfl
  have hboth := uvClose_atMostOnce
    (.mk (.inputOutput (.writeStaticOctets [104, 105])) []) 0 servedRun
    clientRun hserver hclient
  exact ⟨⟨_, rfl, rfl⟩, ⟨_, rfl, rfl⟩, hboth.1 0, hboth.2⟩

/-- The server's pusher hands over the close of an interpreter that has exited,
and the end of the stream is read before the loop thread comes to it; the
client's close cancels a write in flight, whose completion closes again. -/
theorem closed_twice :
    (¬ ∀ (program : OpTreeNode) (errno : Errno)
        (events : List (ServerEvent Nat)) (k : Nat), AtMostOnce LibuvServerRunner.event
          (LibuvServerRunner.CallsClose k) events
          (LibuvServerRunner.start program errno)) ∧
      ¬ ∀ (program : OpTreeNode) (errno : Errno) (events : List ClientEvent),
        AtMostOnce LibuvClientRunner.event LibuvClientRunner.CallsClose events
          (LibuvClientRunner.start program errno) := by
  constructor
  · intro h
    refine h (.mk (.inputOutput (.writeStaticOctets [104, 105])) []) 0
      [.newConnection 0, .interpreterThread 0, .interpreterThread 0,
        .pusherThread 0, .pusherThread 0, .pusherThread 0, .pusherThread 0,
        .read 0 none, .runWork] 0
      [.newConnection 0, .interpreterThread 0, .interpreterThread 0,
        .pusherThread 0, .pusherThread 0, .pusherThread 0, .pusherThread 0]
      (.read 0 none) [] .runWork [] _ _ rfl rfl ?_ rfl rfl
    exact ⟨rfl, rfl, rfl, List.not_mem_nil⟩
  · intro h
    refine h (.mk (.inputOutput (.writeStaticOctets [104, 105])) []) 0
      [.connect true, .interpreterThread, .pusherThread, .pusherThread,
        .pusherThread, .pusherThread, .interpreterThread, .pusherThread,
        .pusherThread, .pusherThread, .pusherThread, .runWork, .runWork,
        .writeCompleted true]
      [.connect true, .interpreterThread, .pusherThread, .pusherThread,
        .pusherThread, .pusherThread, .interpreterThread, .pusherThread,
        .pusherThread, .pusherThread, .pusherThread, .runWork]
      .runWork [] (.writeCompleted true) [] _ _ rfl rfl rfl rfl ?_
    exact ⟨rfl, Nat.one_pos, rfl⟩

end NetworkProtocolDsl
