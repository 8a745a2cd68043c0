/-
When the end of the input reaches an operation that reads.

The interpreter thread looks at the queue first and at the flag afterwards.
The input/output thread pushes the last chunk and then sets the flag, so both
can happen between the two looks: the operation is then told about the end of
the input while the last chunk is still in the queue.
-/
import NetworkProtocolDsl.ConcurrentRead

namespace NetworkProtocolDsl

open Run InterpreterContext

/-- The input/output thread sets the flag after the last chunk. -/
def FlagLast : List RunnerEvent → Prop
  | [] => True
  | .endOfInput :: events => ∀ data, RunnerEvent.chunk data ∉ events
  | _ :: events => FlagLast events

namespace FlagLast

theorem tail {event : RunnerEvent} {events : List RunnerEvent}
    (h : FlagLast (event :: events)) : FlagLast events := by
  cases event with
  | endOfInput =>
      induction events with
      | nil => trivial
      | cons event events ih =>
          have hrest : ∀ data, RunnerEvent.chunk data ∉ events :=
            fun data hmem => h data (List.mem_cons_of_mem event hmem)
          cases event with
          | endOfInput => exact hrest
          | chunk data => exact ih hrest
          | callbackResponse value => exact ih hrest
          | pass => exact ih hrest
  | chunk data => exact h
  | callbackResponse value => exact h
  | pass => exact h

end FlagLast

namespace ConcurrentState

/-- The next step of the thread is `handle_eof` of the operation that reads. -/
def DeliversEof (s : ConcurrentState) : Prop :=
  s.phase = .loading ∧ s.context.eof = true

/-- The end of the input is delivered after the data: the chunks were all
popped before. -/
def EofAfterData (s : ConcurrentState) : Prop :=
  s.DeliversEof → s.context.inputBuffer = []

/-- The flag is not set between the look at an empty queue and the look at the
flag, unless the queue is still empty. -/
def FlagSafe (event : RunnerEvent) (s : ConcurrentState) : Prop :=
  event = .endOfInput → s.phase = .loading → s.context.inputBuffer = []

theorem threadStep_deliversEof {s t : ConcurrentState}
    (h : s.threadStep = .ok t) (ht : t.DeliversEof) :
    t.context.inputBuffer = [] := by
  obtain ⟨hphase, _⟩ := ht
  unfold threadStep at h
  split at h
  · rcases stepOutside_cases h with ⟨interpreter, errno, rfl⟩ |
      ⟨progress', context, errno, rfl, _⟩ <;> contradiction
  · split at h <;> rename_i hbuffer <;> obtain rfl := Except.ok.inj h
    · contradiction
    · exact hbuffer
  · split at h <;> obtain rfl := Except.ok.inj h <;> contradiction
  · unfold offer at h
    split at h
    · contradiction
    · obtain rfl := Except.ok.inj h
      simp only at hphase
      split at hphase
      · contradiction
      · split at hphase <;> contradiction
  · split at h <;> obtain rfl := Except.ok.inj h <;> contradiction
  · obtain rfl := Except.ok.inj h
    contradiction
  · obtain rfl := Except.ok.inj h
    contradiction

theorem threadStep_eof {s t : ConcurrentState} (h : s.threadStep = .ok t) :
    t.context.eof = s.context.eof := by
  unfold threadStep at h
  split at h
  · rcases stepOutside_cases h with ⟨_, _, rfl⟩ | ⟨_, _, _, rfl, _, heof⟩
    · rfl
    · exact heof
  · split at h <;> obtain rfl := Except.ok.inj h <;> rfl
  · split at h <;> obtain rfl := Except.ok.inj h <;> rfl
  · unfold offer at h
    split at h
    · contradiction
    · obtain rfl := Except.ok.inj h
      rfl
  · split at h <;> obtain rfl := Except.ok.inj h <;> rfl
  · obtain rfl := Except.ok.inj h
    rfl
  · obtain rfl := Except.ok.inj h
    rfl

/-- From any state that has not yet broken the order. -/
theorem always_eofAfterData_iff {events : List RunnerEvent}
    {s : ConcurrentState} (hs : s.EofAfterData) (hevents : FlagLast events)
    (heof : s.context.eof = true → ∀ data, RunnerEvent.chunk data ∉ events) :
    Always event EofAfterData events s ↔ EachStep event FlagSafe events s := by
  induction events generalizing s with
  | nil => exact iff_of_true (always_nil.mpr hs) eachStep_nil
  | cons e events ih =>
      have htail := hevents.tail
      have hdata : s.context.eof = true →
          ∀ data, RunnerEvent.chunk data ∉ events :=
        fun h data hmem => heof h data (List.mem_cons_of_mem e hmem)
      -- an event that keeps the order and is not the setting of the flag
      have hkeep : ∀ t, event e s = .ok t → e ≠ .endOfInput →
          t.EofAfterData → t.context.eof = s.context.eof →
          (Always event EofAfterData (e :: events) s ↔
            EachStep event FlagSafe (e :: events) s) := by
        intro t hstep hother ht hsame
        rw [always_cons_of_ok hstep, eachStep_cons_of_ok hstep,
          ih ht htail (by rw [hsame]; exact hdata)]
        exact and_congr_left fun _ =>
          iff_of_true hs fun heq => absurd heq hother
      cases e with
      | chunk data =>
          refine hkeep _ rfl (by simp) ?_ rfl
          rintro ⟨_, hset⟩
          exact absurd List.mem_cons_self (heof hset data)
      | endOfInput =>
          have hstep : event .endOfInput s =
              .ok { s with context := { s.context with eof := true } } := rfl
          rw [always_cons_of_ok hstep, eachStep_cons_of_ok hstep]
          by_cases hsafe : FlagSafe .endOfInput s
          · have ht : EofAfterData
                { s with context := { s.context with eof := true } } :=
              fun hdelivers => hsafe rfl hdelivers.1
            rw [ih ht htail fun _ => hevents]
            exact and_congr_left fun _ => iff_of_true hs hsafe
          · refine iff_of_false ?_ fun h => hsafe h.1
            rintro ⟨_, hrest⟩
            have ht := hrest [] events _ rfl rfl
            exact hsafe fun _ hphase => ht ⟨hphase, rfl⟩
      | callbackResponse value => exact hkeep _ rfl (by simp) hs rfl
      | pass =>
          cases hstep : event .pass s with
          | error fault =>
              rw [always_cons_of_error hstep, eachStep_cons_of_error hstep]
              exact iff_of_true hs fun heq => by contradiction
          | ok t =>
              exact hkeep t hstep (by simp)
                (fun ht => threadStep_deliversEof hstep ht)
                (threadStep_eof hstep)

/-- The end of the input is delivered after the data in every state of a run
if and only if the flag is never set between the two looks with a chunk in the
queue. -/
theorem eofAfterData_iff (optree : OpTreeNode) (arglist : Option Value)
    (errno : Errno) (events : List RunnerEvent) (hevents : FlagLast events) :
    Always event EofAfterData events (start optree arglist errno) ↔
      EachStep event FlagSafe events (start optree arglist errno) := by
  refine always_eofAfterData_iff ?_ hevents ?_
  · rintro ⟨hphase, _⟩
    contradiction
  · intro heof
    contradiction

/-- The chunk and the flag both arrive before the reader looks. -/
theorem eofAfterData_iff_line :
    FlagLast [.chunk [97, 10], .endOfInput, .pass, .pass, .pass, .pass] ∧
      (Always event EofAfterData
        [.chunk [97, 10], .endOfInput, .pass, .pass, .pass, .pass]
        (start (.mk (.inputOutput (.readOctetsUntilTerminator [10] none)) [])
          none 0) ↔
      EachStep event FlagSafe
        [.chunk [97, 10], .endOfInput, .pass, .pass, .pass, .pass]
        (start (.mk (.inputOutput (.readOctetsUntilTerminator [10] none)) [])
          none 0)) := by
  have hevents : FlagLast
      [.chunk [97, 10], .endOfInput, .pass, .pass, .pass, .pass] := by
    simp [FlagLast]
  exact ⟨hevents, eofAfterData_iff _ _ _ _ hevents⟩

/-- The reader finds the queue empty; the last line arrives and the flag is
set; the reader finds the flag. -/
theorem eof_overtakes_line :
    ¬ ∀ (optree : OpTreeNode) (arglist : Option Value) (errno : Errno)
      (events : List RunnerEvent), FlagLast events →
        Always event EofAfterData events (start optree arglist errno) := by
  intro h
  have hline := h
    (.mk (.inputOutput (.readOctetsUntilTerminator [10] none)) []) none 0
    [.pass, .pass, .chunk [97, 10], .endOfInput] (by simp [FlagLast])
    [.pass, .pass, .chunk [97, 10], .endOfInput] [] _ rfl rfl ⟨rfl, rfl⟩
  contradiction

end ConcurrentState

end NetworkProtocolDsl
