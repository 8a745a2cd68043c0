/-
A connection of the server wrapper for generated code.

The wrapper gives its runner what the transport delivers and forgets how much
of it the runner consumed, so what the runner left is gone when the next read
arrives.
-/
import NetworkProtocolDsl.Library.Run
import NetworkProtocolDsl.Value

namespace NetworkProtocolDsl

open Run

/-- The interface of a generated runner, over the states `R` it may have. -/
structure IConnectionRunner (R : Type) where
  start : R → R
  onBytesReceived : Octets → R → Nat × R
  hasPendingOutput : R → Bool
  pendingOutput : R → Octets
  bytesWritten : Nat → R → R
  isClosed : R → Bool
  hasError : R → Bool

/-- The loop thread is in `process_output` or waits for a callback. -/
inductive WrapperPoint where
  | idle
  | processingOutput
deriving DecidableEq, Repr

/-- `received` are the bytes the transport delivered, `consumed` the sum of the
counts the runner returned and `lastCall` what it was given last, with the sum
up to then. -/
structure ConnectionData (R : Type) where
  runner : R
  closing : Bool := false
  pendingWrites : Int := 0
  writes : List Octets := []
  point : WrapperPoint := .idle
  received : Octets := []
  consumed : Nat := 0
  lastCall : Option (Octets × Nat) := none

/-- The callbacks of the transport, and the turns of `process_output`. -/
inductive TransportEvent where
  | read (data : Octets)
  | endOfStream
  | writeComplete (succeeded : Bool)
  | processOutput

namespace ConnectionData

variable {R : Type} (interface : IConnectionRunner R)

/-- A new connection starts its runner and looks for a greeting. -/
def onNewConnection (runner : R) : ConnectionData R :=
  { runner := interface.start runner, point := .processingOutput }

/-- `uv_close`, unless the connection is closing already. -/
def close (conn : ConnectionData R) : ConnectionData R :=
  { conn with closing := true }

def onRead (conn : ConnectionData R) (data : Octets) : ConnectionData R :=
  if data = [] then conn
  else
    let (count, runner) := interface.onBytesReceived data conn.runner
    let conn := { conn with
      runner := runner
      received := conn.received ++ data
      consumed := conn.consumed + count
      lastCall := some (data, conn.consumed) }
    if interface.hasError runner then conn.close
    else { conn with point := .processingOutput }

/-- One turn of the loop of `process_output`. -/
def processOutput (conn : ConnectionData R) : ConnectionData R :=
  if interface.hasPendingOutput conn.runner then
    let output := interface.pendingOutput conn.runner
    { conn with
      runner := interface.bytesWritten output.length conn.runner
      pendingWrites := conn.pendingWrites + 1
      writes := conn.writes ++ [output] }
  else { conn with point := .idle }

def onWriteComplete (conn : ConnectionData R) (succeeded : Bool) :
    ConnectionData R :=
  let conn := { conn with pendingWrites := conn.pendingWrites - 1 }
  if succeeded = false then conn.close
  else if interface.isClosed conn.runner || interface.hasError conn.runner then
    conn.close
  else if conn.pendingWrites = 0 then { conn with point := .processingOutput }
  else conn

/-- A handle that is closing reads no more; no callback comes while the thread
is in `process_output`. -/
def event : TransportEvent → ConnectionData R →
    Except Fault (ConnectionData R)
  | .processOutput, conn =>
      match conn.point with
      | .processingOutput => .ok (conn.processOutput interface)
      | .idle => .ok conn
  | .read data, conn =>
      match conn.point with
      | .processingOutput => .ok conn
      | .idle =>
          if conn.closing then .ok conn else .ok (conn.onRead interface data)
  | .endOfStream, conn =>
      match conn.point with
      | .processingOutput => .ok conn
      | .idle => .ok conn.close
  | .writeComplete succeeded, conn =>
      match conn.point with
      | .processingOutput => .ok conn
      | .idle => .ok (conn.onWriteComplete interface succeeded)

/-- What a connection holds of the stream between two callbacks: `on_read`
frees the buffer it was given. -/
def held (_ : ConnectionData R) : Octets := []

/-- The runner was last given all that it had not consumed. -/
def GivesUnconsumed (conn : ConnectionData R) : Prop :=
  ∀ data before, conn.lastCall = some (data, before) →
    data = conn.received.drop before

/-- The connection still holds what the runner has not consumed. -/
def HoldsUnconsumed (conn : ConnectionData R) : Prop :=
  conn.consumed ≤ conn.received.length ∧
    conn.held = conn.received.drop conn.consumed

/-- No byte of the stream is lost. -/
def LosesNothing (conn : ConnectionData R) : Prop :=
  conn.GivesUnconsumed ∧ conn.HoldsUnconsumed

/-- The transport delivers `data` to the runner. -/
def Delivers (e : TransportEvent) (conn : ConnectionData R) (data : Octets) :
    Prop :=
  e = .read data ∧ data ≠ [] ∧ conn.point = .idle ∧ conn.closing = false

/-- The runner consumes a read it is given to the end. -/
def ConsumesRead (e : TransportEvent) (conn : ConnectionData R) : Prop :=
  ∀ data, Delivers e conn data →
    (interface.onBytesReceived data conn.runner).1 = data.length

variable {interface} {conn conn' : ConnectionData R} {e : TransportEvent}

theorem holdsUnconsumed_iff :
    conn.HoldsUnconsumed ↔ conn.consumed = conn.received.length := by
  unfold HoldsUnconsumed held
  rw [eq_comm (a := []), List.drop_eq_nil_iff]
  omega

/-- An event delivers a read, or leaves the stream as it is. -/
theorem event_cases (h : event interface e conn = .ok conn') :
    (∃ data, Delivers e conn data ∧ conn' = conn.onRead interface data) ∨
      (∀ data, ¬ Delivers e conn data) ∧ conn'.received = conn.received ∧
        conn'.consumed = conn.consumed ∧ conn'.lastCall = conn.lastCall := by
  cases e with
  | read data =>
      simp only [event] at h
      split at h <;> rename_i hpoint
      · obtain rfl := Except.ok.inj h
        refine Or.inr ⟨fun other hother => ?_, rfl, rfl, rfl⟩
        simp [Delivers, hpoint] at hother
      · split at h
        · rename_i hclosing
          obtain rfl := Except.ok.inj h
          refine Or.inr ⟨fun other hother => ?_, rfl, rfl, rfl⟩
          simp [Delivers, hclosing] at hother
        · rename_i hclosing
          obtain rfl := Except.ok.inj h
          by_cases hdata : data = []
          · subst hdata
            refine Or.inr ⟨fun other hother => ?_, rfl, rfl, rfl⟩
            obtain ⟨heq, hne, _⟩ := hother
            exact hne (TransportEvent.read.inj heq).symm
          · exact Or.inl ⟨data, ⟨rfl, hdata, hpoint, by simpa using hclosing⟩,
              rfl⟩
  | endOfStream =>
      right
      refine ⟨fun other hother => by simp [Delivers] at hother, ?_⟩
      simp only [event] at h
      split at h
      · obtain rfl := Except.ok.inj h
        exact ⟨rfl, rfl, rfl⟩
      · obtain rfl := Except.ok.inj h
        exact ⟨rfl, rfl, rfl⟩
  | writeComplete succeeded =>
      right
      refine ⟨fun other hother => by simp [Delivers] at hother, ?_⟩
      simp only [event] at h
      split at h
      · obtain rfl := Except.ok.inj h
        exact ⟨rfl, rfl, rfl⟩
      · obtain rfl := Except.ok.inj h
        unfold onWriteComplete
        simp only
        split
        · exact ⟨rfl, rfl, rfl⟩
        · split
          · exact ⟨rfl, rfl, rfl⟩
          · split <;> exact ⟨rfl, rfl, rfl⟩
  | processOutput =>
      right
      refine ⟨fun other hother => by simp [Delivers] at hother, ?_⟩
      simp only [event] at h
      split at h
      · obtain rfl := Except.ok.inj h
        unfold processOutput
        split <;> exact ⟨rfl, rfl, rfl⟩
      · obtain rfl := Except.ok.inj h
        exact ⟨rfl, rfl, rfl⟩

variable (interface conn) in
/-- What a read does to the stream. -/
theorem onRead_stream {data : Octets} (hdata : data ≠ []) :
    (conn.onRead interface data).received = conn.received ++ data ∧
      (conn.onRead interface data).consumed =
        conn.consumed + (interface.onBytesReceived data conn.runner).1 ∧
      (conn.onRead interface data).lastCall = some (data, conn.consumed) := by
  unfold onRead
  rw [if_neg hdata]
  simp only
  split <;> exact ⟨rfl, rfl, rfl⟩

/-- One event keeps the stream whole exactly if the runner consumes a read it
delivers. -/
theorem losesNothing_event (hconn : conn.LosesNothing)
    (h : event interface e conn = .ok conn') :
    conn'.LosesNothing ↔ ConsumesRead interface e conn := by
  obtain ⟨hgives, hholds⟩ := hconn
  rw [holdsUnconsumed_iff] at hholds
  rcases event_cases h with ⟨data, hdelivers, rfl⟩ |
    ⟨hnone, hreceived, hconsumed, hlast⟩
  · obtain ⟨hreceived, hconsumed, hlast⟩ :=
      onRead_stream interface conn hdelivers.2.1
    constructor
    · rintro ⟨_, hholds'⟩ other hother
      obtain rfl := TransportEvent.read.inj (hdelivers.1.symm.trans hother.1)
      rw [holdsUnconsumed_iff, hreceived, hconsumed, List.length_append,
        hholds] at hholds'
      exact Nat.add_left_cancel hholds'
    · intro hall
      have hcount := hall data hdelivers
      constructor
      · intro other before hother
        rw [hlast, Option.some.injEq, Prod.mk.injEq] at hother
        obtain ⟨rfl, rfl⟩ := hother
        rw [hreceived, hholds, List.drop_left]
      · rw [holdsUnconsumed_iff, hreceived, hconsumed, hcount, hholds,
          List.length_append]
  · refine iff_of_true ⟨?_, ?_⟩ fun data hdelivers =>
      absurd hdelivers (hnone data)
    · intro data before hcall
      rw [hreceived]
      exact hgives data before (by rw [← hlast, hcall])
    · rw [holdsUnconsumed_iff, hreceived, hconsumed, hholds]

/-- From any state in which nothing was lost. -/
theorem always_losesNothing_iff {events : List TransportEvent}
    (hconn : conn.LosesNothing) :
    Always (event interface) LosesNothing events conn ↔
      EachStep (event interface) (ConsumesRead interface) events conn := by
  induction events generalizing conn with
  | nil => exact iff_of_true (always_nil.mpr hconn) eachStep_nil
  | cons e events ih =>
      cases hstep : event interface e conn with
      | error fault =>
          rw [always_cons_of_error hstep, eachStep_cons_of_error hstep]
          refine iff_of_true hconn fun data hdelivers => ?_
          simp only [hdelivers.1, event, hdelivers.2.2.1, hdelivers.2.2.2]
            at hstep
          contradiction
      | ok conn' =>
          rw [always_cons_of_ok hstep, eachStep_cons_of_ok hstep,
            ← losesNothing_event hconn hstep]
          constructor
          · rintro ⟨_, hrest⟩
            have hconn' := hrest [] events conn' rfl rfl
            exact ⟨hconn', (ih hconn').mp hrest⟩
          · rintro ⟨hconn', hrest⟩
            exact ⟨hconn, (ih hconn').mpr hrest⟩

/-- No byte of the stream is lost in any state of a run if and only if the
runner consumes every read to its end. -/
theorem losesNothing_iff (interface : IConnectionRunner R) (runner : R)
    (events : List TransportEvent) :
    Always (event interface) LosesNothing events
        (onNewConnection interface runner) ↔
      EachStep (event interface) (ConsumesRead interface) events
        (onNewConnection interface runner) := by
  refine always_losesNothing_iff ⟨?_, ?_⟩
  · intro data before hcall
    contradiction
  · exact holdsUnconsumed_iff.mpr rfl

/-- A runner that takes one line a call, as long as there is one. -/
def lineRunner : IConnectionRunner Unit where
  start := id
  onBytesReceived := fun data _ =>
    if 10 ∈ data then (data.idxOf 10 + 1, ()) else (0, ())
  hasPendingOutput := fun _ => false
  pendingOutput := fun _ => []
  bytesWritten := fun _ => id
  isClosed := fun _ => false
  hasError := fun _ => false

/-- Two lines arrive in one read; the second is never given to the runner. -/
theorem second_line_is_lost :
    ¬ ∀ (R : Type) (interface : IConnectionRunner R) (runner : R)
      (events : List TransportEvent),
        Always (event interface) LosesNothing events
          (onNewConnection interface runner) := by
  intro h
  have hlost := h Unit lineRunner ()
    [.processOutput, .read [97, 10, 98, 10], .processOutput, .read [99, 10]]
    [.processOutput, .read [97, 10, 98, 10], .processOutput, .read [99, 10]]
    [] _ rfl rfl
  have hgiven := hlost.1 [99, 10] 2 rfl
  contradiction

end ConnectionData

end NetworkProtocolDsl
