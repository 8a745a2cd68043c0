/-
The writes a connection of the server wrapper has in flight.

The transport completes the writes it was given in any order, with success or
without.  The wrapper counts them; it closes the connection of a runner that
has come to its end when the first of them completes.
-/
import NetworkProtocolDsl.GeneratedServerWrapper

namespace NetworkProtocolDsl

open Run

/-- A connection, and the writes whose completion has not run. -/
structure OutstandingWrites (R : Type) where
  conn : ConnectionData R
  outstanding : List Octets := []

/-- The callbacks of the transport; a completion names its write. -/
inductive WriteEvent where
  | read (data : Octets)
  | endOfStream
  | processOutput
  | writeComplete (output : Octets) (succeeded : Bool)

namespace OutstandingWrites

variable {R : Type} (interface : IConnectionRunner R)

def onNewConnection (runner : R) : OutstandingWrites R :=
  { conn := ConnectionData.onNewConnection interface runner }

/-- The connection takes its step, and what it queued is in flight. -/
def queueing (s : OutstandingWrites R) (e : TransportEvent) :
    Except Fault (OutstandingWrites R) :=
  (ConnectionData.event interface e s.conn).map fun conn =>
    { conn := conn
      outstanding := s.outstanding ++ conn.writes.drop s.conn.writes.length }

/-- A write in flight completes. -/
def completing (s : OutstandingWrites R) (output : Octets)
    (succeeded : Bool) : Except Fault (OutstandingWrites R) :=
  (ConnectionData.event interface (.writeComplete succeeded) s.conn).map
    fun conn => { conn := conn, outstanding := s.outstanding.erase output }

/-- A completion runs for a write in flight, and between two other callbacks. -/
def event : WriteEvent → OutstandingWrites R →
    Except Fault (OutstandingWrites R)
  | .read data, s => s.queueing interface (.read data)
  | .endOfStream, s => s.queueing interface .endOfStream
  | .processOutput, s => s.queueing interface .processOutput
  | .writeComplete output succeeded, s =>
      if s.conn.point = .idle ∧ output ∈ s.outstanding then
        s.completing interface output succeeded
      else .ok s

/-- A close that is requested because the runner is closed cancels no write. -/
def ClosesAfterReplies (e : WriteEvent) (s : OutstandingWrites R) : Prop :=
  ∀ output t, e = .writeComplete output true →
    event interface e s = .ok t → s.conn.closing = false →
    t.conn.closing = true → interface.isClosed s.conn.runner = true →
    t.outstanding = []

/-- A write that completes for a closed runner is the only one the wrapper
counts. -/
def CompletesLast (e : WriteEvent) (s : OutstandingWrites R) : Prop :=
  ∀ output, e = .writeComplete output true → s.conn.point = .idle →
    output ∈ s.outstanding → s.conn.closing = false →
    interface.isClosed s.conn.runner = true → s.conn.pendingWrites = 1

/-- The count of the wrapper is that of the writes in flight. -/
def Counted (s : OutstandingWrites R) : Prop :=
  s.conn.pendingWrites = s.outstanding.length

variable {interface} {s t : OutstandingWrites R} {e : WriteEvent}

variable (interface) in
/-- A read queues nothing; `process_output` does. -/
theorem onRead_writes (conn : ConnectionData R) (data : Octets) :
    (conn.onRead interface data).writes = conn.writes ∧
      (conn.onRead interface data).pendingWrites = conn.pendingWrites := by
  unfold ConnectionData.onRead
  split
  · exact ⟨rfl, rfl⟩
  · simp only
    split
    · exact ⟨rfl, rfl⟩
    · exact ⟨rfl, rfl⟩

/-- No callback but a completion changes the count without queueing a write. -/
theorem event_counts {conn conn' : ConnectionData R} {e : TransportEvent}
    (he : ∀ succeeded, e ≠ .writeComplete succeeded)
    (h : ConnectionData.event interface e conn = .ok conn') :
    ∃ queued, conn'.writes = conn.writes ++ queued ∧
      conn'.pendingWrites = conn.pendingWrites + queued.length := by
  have hsame : conn'.writes = conn.writes →
      conn'.pendingWrites = conn.pendingWrites →
      ∃ queued, conn'.writes = conn.writes ++ queued ∧
        conn'.pendingWrites = conn.pendingWrites + queued.length := by
    intro hwrites hpending
    exact ⟨[], by rw [hwrites, List.append_nil], by simp [hpending]⟩
  cases e with
  | read data =>
      simp only [ConnectionData.event] at h
      split at h
      · obtain rfl := Except.ok.inj h
        exact hsame rfl rfl
      · split at h
        · obtain rfl := Except.ok.inj h
          exact hsame rfl rfl
        · obtain rfl := Except.ok.inj h
          obtain ⟨hwrites, hpending⟩ := onRead_writes interface conn data
          exact hsame hwrites hpending
  | endOfStream =>
      simp only [ConnectionData.event] at h
      split at h
      · obtain rfl := Except.ok.inj h
        exact hsame rfl rfl
      · obtain rfl := Except.ok.inj h
        exact hsame rfl rfl
  | writeComplete succeeded => exact absurd rfl (he succeeded)
  | processOutput =>
      simp only [ConnectionData.event] at h
      split at h
      · obtain rfl := Except.ok.inj h
        unfold ConnectionData.processOutput
        split
        · exact ⟨[interface.pendingOutput conn.runner], rfl, rfl⟩
        · exact ⟨[], (List.append_nil _).symm, (Int.add_zero _).symm⟩
      · obtain rfl := Except.ok.inj h
        exact hsame rfl rfl

theorem Counted.queueing {e : TransportEvent} (hs : s.Counted)
    (h : s.queueing interface e = .ok t)
    (he : ∀ succeeded, e ≠ .writeComplete succeeded) : t.Counted := by
  obtain ⟨conn, hconn, rfl⟩ := map_eq_ok h
  obtain ⟨queued, hwrites, hpending⟩ := event_counts he hconn
  change conn.pendingWrites =
    (s.outstanding ++ conn.writes.drop s.conn.writes.length).length
  rw [hwrites, List.drop_left, List.length_append, hpending, hs]
  exact (Int.natCast_add _ _).symm

/-- A completion at a connection that waits for a callback is counted, and
closes the connection where the runner is closed. -/
theorem completing_eq {output : Octets} {succeeded : Bool}
    (hidle : s.conn.point = .idle) :
    s.completing interface output succeeded =
      .ok { conn := s.conn.onWriteComplete interface succeeded
            outstanding := s.outstanding.erase output } := by
  rw [completing]
  simp only [ConnectionData.event, hidle]
  rfl

variable (interface) in
theorem onWriteComplete_pendingWrites (conn : ConnectionData R)
    (succeeded : Bool) :
    (conn.onWriteComplete interface succeeded).pendingWrites =
      conn.pendingWrites - 1 := by
  unfold ConnectionData.onWriteComplete
  simp only
  split
  · rfl
  · split
    · rfl
    · split
      · rfl
      · rfl

theorem onWriteComplete_closing {conn : ConnectionData R}
    (hclosed : interface.isClosed conn.runner = true) :
    (conn.onWriteComplete interface true).closing = true := by
  unfold ConnectionData.onWriteComplete
  simp only [hclosed, Bool.true_or, if_true]
  rfl

/-- Every step keeps the count. -/
theorem Counted.event (hs : s.Counted)
    (h : OutstandingWrites.event interface e s = .ok t) : t.Counted := by
  cases e with
  | read data =>
      have hqueue : s.queueing interface (.read data) = .ok t := h
      exact hs.queueing hqueue nofun
  | endOfStream =>
      have hqueue : s.queueing interface .endOfStream = .ok t := h
      exact hs.queueing hqueue nofun
  | processOutput =>
      have hqueue : s.queueing interface .processOutput = .ok t := h
      exact hs.queueing hqueue nofun
  | writeComplete output succeeded =>
      simp only [OutstandingWrites.event] at h
      split at h
      · rename_i hruns
        rw [completing_eq hruns.1] at h
        obtain rfl := Except.ok.inj h
        change (s.conn.onWriteComplete interface succeeded).pendingWrites =
          (s.outstanding.erase output).length
        have hpos := List.length_pos_of_mem hruns.2
        rw [onWriteComplete_pendingWrites, List.length_erase_of_mem hruns.2,
          hs]
        omega
      · obtain rfl := Except.ok.inj h
        exact hs

/-- A step closes after the replies exactly if it completes the last write. -/
theorem closesAfterReplies_iff (hs : s.Counted) :
    ClosesAfterReplies interface e s ↔ CompletesLast interface e s := by
  constructor
  · rintro h output rfl hidle hmem hopen hclosed
    have hstep : event interface (.writeComplete output true) s =
        .ok { conn := s.conn.onWriteComplete interface true
              outstanding := s.outstanding.erase output } := by
      simp only [event]
      rw [if_pos ⟨hidle, hmem⟩, completing_eq hidle]
    have hnone := h output _ rfl hstep hopen (onWriteComplete_closing hclosed)
      hclosed
    have hlength : (s.outstanding.erase output).length = 0 :=
      List.length_eq_zero_iff.mpr hnone
    rw [List.length_erase_of_mem hmem] at hlength
    have hpos := List.length_pos_of_mem hmem
    rw [hs]
    omega
  · rintro h output t rfl hstep hopen hclosing hclosed
    simp only [event] at hstep
    split at hstep
    · rename_i hruns
      have hone := h output rfl hruns.1 hruns.2 hopen hclosed
      rw [completing_eq hruns.1] at hstep
      obtain rfl := Except.ok.inj hstep
      apply List.length_eq_zero_iff.mp
      change (s.outstanding.erase output).length = 0
      rw [List.length_erase_of_mem hruns.2]
      rw [hs] at hone
      omega
    · obtain rfl := Except.ok.inj hstep
      rw [hopen] at hclosing
      contradiction

/-- In every run the count of the wrapper is that of the writes in flight. -/
theorem counted_run {runner : R} {events : List WriteEvent}
    (h : run (event interface) events (onNewConnection interface runner) =
      .ok s) : s.Counted := by
  have hstart : (onNewConnection interface runner).Counted := rfl
  exact run_invariant (fun _ _ _ (_ : True) hs hstep => hs.event hstep)
    (fun _ _ => trivial) hstart h

/-- Every close that a run requests because the runner is closed leaves no
write in flight if and only if the completions that find the runner closed are
those of the last write. -/
theorem closesAfterReplies_iff_completesLast (interface : IConnectionRunner R)
    (runner : R) (events : List WriteEvent) :
    EachStep (event interface) (ClosesAfterReplies interface) events
        (onNewConnection interface runner) ↔
      EachStep (event interface) (CompletesLast interface) events
        (onNewConnection interface runner) := by
  constructor
  · intro h before e after s happend hrun
    exact (closesAfterReplies_iff (counted_run hrun)).mp
      (h before e after s happend hrun)
  · intro h before e after s happend hrun
    exact (closesAfterReplies_iff (counted_run hrun)).mpr
      (h before e after s happend hrun)

/-- A runner that answers every read and is closed after the second one. -/
def twoReplies : IConnectionRunner (Nat × Octets) where
  start := id
  onBytesReceived := fun data runner =>
    (data.length, runner.1 + 1, runner.2 ++ [82])
  hasPendingOutput := fun runner => !runner.2.isEmpty
  pendingOutput := fun runner => runner.2
  bytesWritten := fun count runner => (runner.1, runner.2.drop count)
  isClosed := fun runner => runner.1 == 2
  hasError := fun _ => false

/-- The completion of the first reply closes the connection, with the second
one in flight. -/
theorem second_reply_is_cancelled :
    ¬ ∀ (R : Type) (interface : IConnectionRunner R) (runner : R)
      (events : List WriteEvent),
        EachStep (event interface) (ClosesAfterReplies interface) events
          (onNewConnection interface runner) := by
  intro h
  have hcloses := h _ twoReplies (0, [])
    [.processOutput, .read [97], .processOutput, .processOutput, .read [98],
      .processOutput, .processOutput, .writeComplete [82] true]
    [.processOutput, .read [97], .processOutput, .processOutput, .read [98],
      .processOutput, .processOutput] (.writeComplete [82] true) [] _ rfl rfl
  have hnone := hcloses [82] _ rfl rfl rfl rfl rfl
  contradiction

end OutstandingWrites

end NetworkProtocolDsl
