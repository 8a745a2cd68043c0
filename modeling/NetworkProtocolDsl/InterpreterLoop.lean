/-
The interpreter loop and the threads that give it work.

A pass gets the collection, comes to every interpreter of it and may wait at
its end; meanwhile chunks are pushed, flags are set, callbacks are answered and
collections are replaced, each followed by a `notify` of the signal the loop
waits on.  The signals other threads wait on are left out.
-/
import NetworkProtocolDsl.ConcurrentRead
import NetworkProtocolDsl.NotificationSignal
import NetworkProtocolDsl.WaitingForRead

namespace NetworkProtocolDsl

open Run InterpreterContext

/-- A published collection; the version stands for the identity of the shared
object. -/
structure InterpreterCollection (ι : Type) where
  version : Nat
  interpreters : List ι
deriving DecidableEq, Repr

/-- What a producer changes before it notifies. -/
inductive Change (ι : Type) where
  | inputPushed (i : ι) (data : Octets)
  | eofSet (i : ι)
  | responsePushed (i : ι) (value : Value)
  | collectionReplaced (interpreters : List ι)
  | exitWhenDoneSet

/-- The counters of a pass. -/
structure Tally where
  activeInterpreters : Nat := 0
  readyInterpreters : Nat := 0
  needsRetry : Bool := false
deriving DecidableEq, Repr

def Tally.count (tally : Tally) : Progress → Tally
  | .ready | .blocked .unblocked =>
      { tally with
        activeInterpreters := tally.activeInterpreters + 1
        readyInterpreters := tally.readyInterpreters + 1 }
  | .blocked .needsRetry =>
      { tally with
        activeInterpreters := tally.activeInterpreters + 1
        needsRetry := true }
  | .blocked .stillBlocked =>
      { tally with activeInterpreters := tally.activeInterpreters + 1 }
  | .exited => tally

/-- Where the loop is. -/
inductive LoopPoint (ι : Type) where
  | gettingCollection
  | scanning (collection : InterpreterCollection ι) (rest : List ι)
      (tally : Tally)
  | inside (collection : InterpreterCollection ι) (i : ι) (rest : List ι)
      (tally : Tally)
  | notifying (collection : InterpreterCollection ι) (rest : List ι)
      (tally : Tally)
  | loadingExitWhenDone (collection : InterpreterCollection ι) (tally : Tally)
  | comparing (collection : InterpreterCollection ι) (tally : Tally)
      (loadedExitWhenDone : Bool)
  | waiting (collection : InterpreterCollection ι)
  | returned

/-- The contexts there ever are, the collection published last, the signal
`wake_up_interpreter` and the loop.  `visited` records the interpreters the
last pass came to. -/
structure InterpreterLoop (ι P : Type) where
  contexts : ι → ConcurrentState
  errno : Errno
  collection : InterpreterCollection ι
  exitWhenDone : Bool := false
  signal : NotificationSignal P := {}
  point : LoopPoint ι := .gettingCollection
  visited : List ι := []

/-- The steps the scheduler may choose. -/
inductive LoopEvent (ι P : Type) where
  | change (p : P) (change : Change ι)
  | notify (p : P)
  | spuriousWakeUp
  | loop

namespace InterpreterLoop

variable {ι P : Type} [DecidableEq ι]

def setContext (s : InterpreterLoop ι P) (i : ι) (context : ConcurrentState) :
    InterpreterLoop ι P :=
  { s with contexts := Function.update s.contexts i context }

/-- The change itself. -/
def apply (s : InterpreterLoop ι P) :
    Change ι → Except Fault (InterpreterLoop ι P)
  | .inputPushed i data =>
      (ConcurrentState.event (.chunk data) (s.contexts i)).map (s.setContext i)
  | .eofSet i =>
      (ConcurrentState.event .endOfInput (s.contexts i)).map (s.setContext i)
  | .responsePushed i value =>
      (ConcurrentState.event (.callbackResponse value) (s.contexts i)).map
        (s.setContext i)
  | .collectionReplaced interpreters =>
      .ok { s with collection := ⟨s.collection.version + 1, interpreters⟩ }
  | .exitWhenDoneSet => .ok { s with exitWhenDone := true }

/-- One step of the pass over one interpreter. -/
def stepInside (s : InterpreterLoop ι P)
    (collection : InterpreterCollection ι) (i : ι) (rest : List ι)
    (tally : Tally) : Except Fault (InterpreterLoop ι P) :=
  let entered := { s.contexts i with errno := s.errno }
  entered.threadStep.map fun context =>
    let s := { s.setContext i context with errno := context.errno }
    match context.phase with
    | .outside .exited =>
        { s with
          signal := s.signal.beginNotify
          point := .notifying collection rest tally }
    | .outside progress =>
        { s with point := .scanning collection rest (tally.count progress) }
    | _ => s

/-- What the loop does at the end of a pass over the current collection. -/
def decide (s : InterpreterLoop ι P) (collection : InterpreterCollection ι)
    (tally : Tally) (loadedExitWhenDone : Bool) : InterpreterLoop ι P :=
  let wait := { s with
    signal := s.signal.beginWait
    point := .waiting collection }
  if tally.activeInterpreters = 0 then
    if loadedExitWhenDone then { s with point := .returned } else wait
  else if tally.readyInterpreters = 0 ∧ tally.needsRetry = false then wait
  else { s with point := .gettingCollection }

/-- One step of the loop. -/
def loopStep (s : InterpreterLoop ι P) :
    Except Fault (InterpreterLoop ι P) :=
  match s.point with
  | .gettingCollection =>
      .ok { s with
        signal := s.signal.beginPass
        point := .scanning s.collection s.collection.interpreters {}
        visited := [] }
  | .scanning collection [] tally =>
      .ok { s with point := .loadingExitWhenDone collection tally }
  | .scanning collection (i :: rest) tally =>
      let s := { s with visited := s.visited ++ [i] }
      if (s.contexts i).context.exited then
        .ok { s with point := .scanning collection rest tally }
      else .ok { s with point := .inside collection i rest tally }
  | .inside collection i rest tally => s.stepInside collection i rest tally
  | .notifying collection rest tally =>
      let signal := s.signal.waiterNotify
      if signal.waiter = .passing then
        .ok { s with
          signal := signal
          point := .scanning collection rest tally }
      else .ok { s with signal := signal }
  | .loadingExitWhenDone collection tally =>
      .ok { s with point := .comparing collection tally s.exitWhenDone }
  | .comparing collection tally loadedExitWhenDone =>
      if s.collection.version = collection.version then
        .ok (s.decide collection tally loadedExitWhenDone)
      else .ok { s with point := .gettingCollection }
  | .waiting _ =>
      let signal := s.signal.wait
      if signal.waiter = .outside then
        .ok { s with signal := signal, point := .gettingCollection }
      else .ok { s with signal := signal }
  | .returned => .ok s

variable [DecidableEq P]

/-- A producer that is still in `notify` makes no change. -/
def event : LoopEvent ι P → InterpreterLoop ι P →
    Except Fault (InterpreterLoop ι P)
  | .change p change, s =>
      if (s.signal.producers p).isSome then .ok s
      else
        (s.apply change).map fun t => { t with signal := s.signal.change p }
  | .notify p, s => .ok { s with signal := s.signal.notify p }
  | .spuriousWakeUp, s => .ok { s with signal := s.signal.notifyAll }
  | .loop, s => s.loopStep

/-- The programs the interpreters run; the loop and the producers are about to
start. -/
def start (programs : ι → OpTreeNode × Option Value) (errno : Errno)
    (interpreters : List ι) : InterpreterLoop ι P where
  contexts := fun i =>
    ConcurrentState.start (programs i).1 (programs i).2 errno
  errno := errno
  collection := ⟨0, interpreters⟩

/-- The change was made before the pass before this wait began, and that pass
came to every interpreter of its collection. -/
def Examined (s : InterpreterLoop ι P) (k : Nat) : Prop :=
  k < s.signal.passStart ∧
    ∃ collection, s.point = .waiting collection ∧
      s.visited = collection.interpreters

/-- A `notify` for the change is going on, and whatever happens next, it goes
on for as long as the loop sleeps. -/
def WillBeWoken (s : InterpreterLoop ι P) (k : Nat) : Prop :=
  ∃ p point, s.signal.producers p = some (k, point) ∧
    ∀ e t, event e s = .ok t → t.signal.waiter = .waiting .sleeping →
      ∃ point', t.signal.producers p = some (k, point')

/-- While the loop sleeps, every change made before it fell asleep was examined
or will wake it. -/
def NoWakeUpLost (s : InterpreterLoop ι P) : Prop :=
  s.signal.waiter = .waiting .sleeping → ∀ k < s.signal.waitStart,
    s.Examined k ∨ s.WillBeWoken k

/-- Where the loop is, the signal knows it to be, and it has come to what is
not left of the pass. -/
def Agrees (s : InterpreterLoop ι P) : Prop :=
  match s.point with
  | .gettingCollection =>
      s.signal.waiter = .outside ∨ s.signal.waiter = .passing
  | .scanning collection rest _ =>
      s.signal.waiter = .passing ∧ s.visited ++ rest = collection.interpreters
  | .inside collection _ rest _ =>
      s.signal.waiter = .passing ∧ s.visited ++ rest = collection.interpreters
  | .notifying collection rest _ =>
      (∃ point, s.signal.waiter = .notifying point) ∧
        s.visited ++ rest = collection.interpreters
  | .loadingExitWhenDone collection _ =>
      s.signal.waiter = .passing ∧ s.visited = collection.interpreters
  | .comparing collection _ _ =>
      s.signal.waiter = .passing ∧ s.visited = collection.interpreters
  | .waiting collection =>
      (∃ point, s.signal.waiter = .waiting point) ∧
        s.visited = collection.interpreters
  | .returned => s.signal.waiter = .passing

structure Invariant (s : InterpreterLoop ι P) : Prop where
  signal : s.signal.Invariant
  agrees : s.Agrees

variable {s t : InterpreterLoop ι P}

omit [DecidableEq ι] [DecidableEq P] in
/-- Waking the loop up is all that producers do to it. -/
theorem Agrees.of_signal (h : s.Agrees) (hpoint : t.point = s.point)
    (hvisited : t.visited = s.visited)
    (hwaiter : s.signal.LeavesOrWakes t.signal) : t.Agrees := by
  unfold Agrees at h ⊢
  rw [hpoint, hvisited]
  rcases hwaiter with hsame | ⟨hsleep, hwoken⟩
  · rw [hsame]
    exact h
  · split at h <;> simp_all

omit [DecidableEq P] in
/-- A change is made outside the loop and the signal. -/
theorem apply_frame {change : Change ι} (h : s.apply change = .ok t) :
    t.signal = s.signal ∧ t.point = s.point ∧ t.visited = s.visited := by
  cases change with
  | inputPushed i data =>
      obtain rfl := Except.ok.inj h
      exact ⟨rfl, rfl, rfl⟩
  | eofSet i =>
      obtain rfl := Except.ok.inj h
      exact ⟨rfl, rfl, rfl⟩
  | responsePushed i value =>
      obtain rfl := Except.ok.inj h
      exact ⟨rfl, rfl, rfl⟩
  | collectionReplaced interpreters =>
      obtain rfl := Except.ok.inj h
      exact ⟨rfl, rfl, rfl⟩
  | exitWhenDoneSet =>
      obtain rfl := Except.ok.inj h
      exact ⟨rfl, rfl, rfl⟩

omit [DecidableEq P] in
/-- A step over one interpreter stays with it, comes back to the pass, or
notifies. -/
theorem stepInside_cases {collection : InterpreterCollection ι} {i : ι}
    {rest : List ι} {tally : Tally}
    (h : s.stepInside collection i rest tally = .ok t) :
    t.visited = s.visited ∧
      (t.signal = s.signal ∧
          (t.point = s.point ∨ ∃ tally', t.point =
            .scanning collection rest tally') ∨
        t.signal = s.signal.beginNotify ∧
          t.point = .notifying collection rest tally) := by
  obtain ⟨context, _, rfl⟩ := map_eq_ok h
  simp only
  split
  · exact ⟨rfl, Or.inr ⟨rfl, rfl⟩⟩
  · exact ⟨rfl, Or.inl ⟨rfl, Or.inr ⟨_, rfl⟩⟩⟩
  · exact ⟨rfl, Or.inl ⟨rfl, Or.inl rfl⟩⟩

omit [DecidableEq ι] [DecidableEq P] in
theorem decide_cases (s : InterpreterLoop ι P)
    (collection : InterpreterCollection ι) (tally : Tally) (loaded : Bool) :
    (s.decide collection tally loaded).visited = s.visited ∧
      ((s.decide collection tally loaded).signal = s.signal ∧
          ((s.decide collection tally loaded).point = .returned ∨
            (s.decide collection tally loaded).point = .gettingCollection) ∨
        (s.decide collection tally loaded).signal = s.signal.beginWait ∧
          (s.decide collection tally loaded).point = .waiting collection) := by
  unfold InterpreterLoop.decide
  simp only
  split
  · split
    · exact ⟨rfl, Or.inl ⟨rfl, Or.inl rfl⟩⟩
    · exact ⟨rfl, Or.inr ⟨rfl, rfl⟩⟩
  · split
    · exact ⟨rfl, Or.inr ⟨rfl, rfl⟩⟩
    · exact ⟨rfl, Or.inl ⟨rfl, Or.inr rfl⟩⟩

omit [DecidableEq P] in
/-- The loop keeps the invariant. -/
theorem Invariant.loopStep (h : s.Invariant) (hstep : s.loopStep = .ok t) :
    t.Invariant := by
  have hagrees := h.agrees
  unfold InterpreterLoop.loopStep at hstep
  unfold Agrees at hagrees
  split at hstep <;> rename_i hpoint <;> simp only [hpoint] at hagrees
  · obtain rfl := Except.ok.inj hstep
    refine ⟨h.signal.beginPass, ?_, rfl⟩
    rcases hagrees with hwaiter | hwaiter
    · simp [NotificationSignal.beginPass, hwaiter]
    · simp [NotificationSignal.beginPass, hwaiter]
  · obtain rfl := Except.ok.inj hstep
    obtain ⟨hwaiter, hvisited⟩ := hagrees
    exact ⟨h.signal, hwaiter, by rwa [List.append_nil] at hvisited⟩
  · obtain ⟨hwaiter, hvisited⟩ := hagrees
    simp only at hstep
    split at hstep
    · obtain rfl := Except.ok.inj hstep
      exact ⟨h.signal, hwaiter, by simpa using hvisited⟩
    · obtain rfl := Except.ok.inj hstep
      exact ⟨h.signal, hwaiter, by simpa using hvisited⟩
  · obtain ⟨hwaiter, hvisited⟩ := hagrees
    obtain ⟨hsame, ⟨hsignal, hpoint' | ⟨tally', hpoint'⟩⟩ |
      ⟨hsignal, hpoint'⟩⟩ := stepInside_cases hstep
    · refine ⟨by rw [hsignal]; exact h.signal, ?_⟩
      simp only [Agrees, hpoint', hpoint, hsame, hsignal]
      exact ⟨hwaiter, hvisited⟩
    · refine ⟨by rw [hsignal]; exact h.signal, ?_⟩
      simp only [Agrees, hpoint', hsame, hsignal]
      exact ⟨hwaiter, hvisited⟩
    · refine ⟨by rw [hsignal]; exact h.signal.beginNotify, ?_⟩
      simp only [Agrees, hpoint', hsame, hsignal]
      refine ⟨⟨.locking, ?_⟩, hvisited⟩
      simp [NotificationSignal.beginNotify, hwaiter]
  · obtain ⟨⟨point, hwaiter⟩, hvisited⟩ := hagrees
    simp only at hstep
    split at hstep
    · rename_i hpassing
      obtain rfl := Except.ok.inj hstep
      exact ⟨h.signal.waiterNotify, hpassing, hvisited⟩
    · rename_i hpassing
      obtain rfl := Except.ok.inj hstep
      refine ⟨h.signal.waiterNotify, ?_⟩
      simp only [Agrees, hpoint]
      refine ⟨?_, hvisited⟩
      exact (NotificationSignal.waiterNotify_waiter hwaiter).resolve_left
        hpassing
  · obtain rfl := Except.ok.inj hstep
    exact ⟨h.signal, hagrees⟩
  · obtain ⟨hwaiter, hvisited⟩ := hagrees
    split at hstep
    · obtain rfl := Except.ok.inj hstep
      rename_i collection tally loaded _
      obtain ⟨hsame, ⟨hsignal, hpoint' | hpoint'⟩ | ⟨hsignal, hpoint'⟩⟩ :=
        decide_cases s collection tally loaded
      · refine ⟨by rw [hsignal]; exact h.signal, ?_⟩
        simp only [Agrees, hpoint', hsignal]
        exact hwaiter
      · refine ⟨by rw [hsignal]; exact h.signal, ?_⟩
        simp only [Agrees, hpoint', hsignal]
        exact Or.inr hwaiter
      · refine ⟨by rw [hsignal]; exact h.signal.beginWait, ?_⟩
        simp only [Agrees, hpoint', hsignal, hsame]
        refine ⟨⟨.locking, ?_⟩, hvisited⟩
        simp [NotificationSignal.beginWait, hwaiter]
    · obtain rfl := Except.ok.inj hstep
      exact ⟨h.signal, Or.inr hwaiter⟩
  · obtain ⟨⟨point, hwaiter⟩, hvisited⟩ := hagrees
    simp only at hstep
    split at hstep
    · rename_i houtside
      obtain rfl := Except.ok.inj hstep
      exact ⟨h.signal.wait, Or.inl houtside⟩
    · rename_i houtside
      obtain rfl := Except.ok.inj hstep
      refine ⟨h.signal.wait, ?_⟩
      simp only [Agrees, hpoint]
      refine ⟨?_, hvisited⟩
      exact (NotificationSignal.wait_waiter hwaiter).resolve_left houtside
  · obtain rfl := Except.ok.inj hstep
    exact h

/-- Every step of every thread keeps the invariant. -/
theorem Invariant.event {e : LoopEvent ι P} (h : s.Invariant)
    (hstep : event e s = .ok t) : t.Invariant := by
  cases e with
  | change p change =>
      simp only [InterpreterLoop.event] at hstep
      split at hstep
      · obtain rfl := Except.ok.inj hstep
        exact h
      · obtain ⟨u, hu, rfl⟩ := map_eq_ok hstep
        obtain ⟨_, hpoint, hvisited⟩ := apply_frame hu
        exact ⟨h.signal.change p, h.agrees.of_signal hpoint hvisited
          (Or.inl (NotificationSignal.change_waiter s.signal p))⟩
  | notify p =>
      obtain rfl := Except.ok.inj hstep
      exact ⟨h.signal.notify p, h.agrees.of_signal rfl rfl
        (NotificationSignal.notify_leavesOrWakes s.signal p)⟩
  | spuriousWakeUp =>
      obtain rfl := Except.ok.inj hstep
      exact ⟨h.signal.notifyAll, h.agrees.of_signal rfl rfl
        (NotificationSignal.notifyAll_leavesOrWakes s.signal)⟩
  | loop => exact h.loopStep hstep

omit [DecidableEq ι] [DecidableEq P] in
/-- The loop only sleeps in its wait, after a full pass. -/
theorem Agrees.of_sleeping (h : s.Agrees)
    (hsleep : s.signal.waiter = .waiting .sleeping) :
    ∃ collection, s.point = .waiting collection ∧
      s.visited = collection.interpreters := by
  unfold Agrees at h
  split at h <;> rename_i hpoint
  · simp [hsleep] at h
  · simp [hsleep] at h
  · simp [hsleep] at h
  · simp [hsleep] at h
  · simp [hsleep] at h
  · simp [hsleep] at h
  · exact ⟨_, hpoint, h.2⟩
  · simp [hsleep] at h

/-- While the loop sleeps, a `notify` that is going on is still going on after
the next step, or the loop is awake. -/
theorem Invariant.willBeWoken (h : s.Invariant)
    (hsleep : s.signal.waiter = .waiting .sleeping) {k : Nat}
    (hpending : s.signal.Pending k) : s.WillBeWoken k := by
  obtain ⟨p, point, hp⟩ := hpending
  refine ⟨p, point, hp, fun e t hstep ht => ?_⟩
  cases e with
  | change q change =>
      simp only [InterpreterLoop.event] at hstep
      split at hstep
      · obtain rfl := Except.ok.inj hstep
        exact ⟨point, hp⟩
      · obtain ⟨u, _, rfl⟩ := map_eq_ok hstep
        exact NotificationSignal.producers_event hp (.change q) ht
  | notify q =>
      obtain rfl := Except.ok.inj hstep
      exact NotificationSignal.producers_event hp (.notify q) ht
  | spuriousWakeUp =>
      obtain rfl := Except.ok.inj hstep
      exact NotificationSignal.producers_event hp .spuriousWakeUp ht
  | loop =>
      obtain ⟨collection, hpoint, _⟩ := h.agrees.of_sleeping hsleep
      have hproducers : t.signal.producers = s.signal.producers := by
        simp only [InterpreterLoop.event, InterpreterLoop.loopStep,
          hpoint] at hstep
        split at hstep
        · obtain rfl := Except.ok.inj hstep
          exact NotificationSignal.wait_producers
        · obtain rfl := Except.ok.inj hstep
          exact NotificationSignal.wait_producers
      exact ⟨point, by rw [hproducers, hp]⟩

theorem Invariant.noWakeUpLost (h : s.Invariant) : s.NoWakeUpLost := by
  intro hsleep k hk
  by_cases hstart : k < s.signal.passStart
  · exact Or.inl ⟨hstart, h.agrees.of_sleeping hsleep⟩
  · have hpending := h.signal.pending_of_sleeping hsleep
      (Nat.le_of_not_lt hstart) hk
    exact Or.inr (h.willBeWoken hsleep hpending)

omit [DecidableEq ι] [DecidableEq P] in
theorem invariant_start (programs : ι → OpTreeNode × Option Value)
    (errno : Errno) (interpreters : List ι) :
    Invariant (start programs errno interpreters : InterpreterLoop ι P) :=
  ⟨NotificationSignal.invariant_initial, Or.inl rfl⟩

/-- No wake-up is lost: in every state of every run, whatever the programs, the
producers and their changes. -/
theorem always_noWakeUpLost (programs : ι → OpTreeNode × Option Value)
    (errno : Errno) (interpreters : List ι) (events : List (LoopEvent ι P)) :
    Always event NoWakeUpLost events (start programs errno interpreters) := by
  intro before after s _ hrun
  have hinvariant : s.Invariant :=
    run_invariant (fun e s t _ hs hstep => hs.event hstep)
      (fun _ _ => trivial) (invariant_start programs errno interpreters) hrun
  exact hinvariant.noWakeUpLost

end InterpreterLoop

end NetworkProtocolDsl
