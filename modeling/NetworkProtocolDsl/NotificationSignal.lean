/-
A notification signal with one waiter and any number of producers.

The flag is guarded by a mutex and the waiter sleeps on a condition variable.
A producer changes something first and notifies afterwards; the waiter makes
passes over what the producers change and may wait when a pass is over.
-/
import Mathlib.Logic.Function.Basic

namespace NetworkProtocolDsl

/-- Where a thread is in `notify`. -/
inductive NotifyPoint where
  | locking
  | storing
  | unlocking
  | notifyingAll
deriving DecidableEq, Repr

/-- Where the waiter is in `wait`; `cv.wait` unlocks, sleeps and locks again.
-/
inductive WaitPoint where
  | locking
  | checking
  | entering
  | sleeping
  | relocking
  | clearing
  | unlocking
deriving DecidableEq, Repr

/-- Where the waiter is. -/
inductive WaiterPoint where
  | outside
  | passing
  | notifying (point : NotifyPoint)
  | waiting (point : WaitPoint)
deriving DecidableEq, Repr

inductive SignalThread (P : Type) where
  | waiter
  | producer (p : P)
deriving DecidableEq

/-- The signal and the threads that use it.  Changes are numbered in the order
they are made; a producer that has made one and has not left `notify` since is
recorded with the number.  `passStart` and `waitStart` are the numbers of
changes made when the last pass and the last sleep began. -/
structure NotificationSignal (P : Type) where
  mtx : Option (SignalThread P) := none
  notified : Bool := false
  waiter : WaiterPoint := .outside
  producers : P → Option (Nat × NotifyPoint) := fun _ => none
  made : Nat := 0
  passStart : Nat := 0
  waitStart : Nat := 0

/-- The steps the scheduler may choose. -/
inductive SignalEvent (P : Type) where
  | change (p : P)
  | notify (p : P)
  | beginPass
  | beginNotify
  | waiterNotify
  | beginWait
  | wait
  | spuriousWakeUp

namespace NotificationSignal

variable {P : Type}

/-- `cv.notify_all()`. -/
def notifyAll (s : NotificationSignal P) : NotificationSignal P :=
  if s.waiter = .waiting .sleeping then
    { s with waiter := .waiting .relocking }
  else s

section Events

variable [DecidableEq P]

def setProducer (s : NotificationSignal P) (p : P)
    (point : Option (Nat × NotifyPoint)) : NotificationSignal P :=
  { s with producers := Function.update s.producers p point }

/-- A producer that is not in `notify` makes a change. -/
def change (s : NotificationSignal P) (p : P) : NotificationSignal P :=
  match s.producers p with
  | some _ => s
  | none =>
      { s.setProducer p (some (s.made, .locking)) with made := s.made + 1 }

/-- The next step of `notify` in a producer; without the mutex it stays where
it is. -/
def notify (s : NotificationSignal P) (p : P) : NotificationSignal P :=
  match s.producers p with
  | none => s
  | some (k, .locking) =>
      if s.mtx = none then
        { s.setProducer p (some (k, .storing)) with mtx := some (.producer p) }
      else s
  | some (k, .storing) =>
      { s.setProducer p (some (k, .unlocking)) with notified := true }
  | some (k, .unlocking) =>
      { s.setProducer p (some (k, .notifyingAll)) with mtx := none }
  | some (_, .notifyingAll) => (s.setProducer p none).notifyAll

end Events

/-- A pass begins; the last one, if there was one, is over. -/
def beginPass (s : NotificationSignal P) : NotificationSignal P :=
  match s.waiter with
  | .outside | .passing => { s with waiter := .passing, passStart := s.made }
  | _ => s

/-- The waiter notifies the signal itself during a pass. -/
def beginNotify (s : NotificationSignal P) : NotificationSignal P :=
  match s.waiter with
  | .passing => { s with waiter := .notifying .locking }
  | _ => s

def waiterNotify (s : NotificationSignal P) : NotificationSignal P :=
  match s.waiter with
  | .notifying .locking =>
      if s.mtx = none then
        { s with mtx := some .waiter, waiter := .notifying .storing }
      else s
  | .notifying .storing =>
      { s with notified := true, waiter := .notifying .unlocking }
  | .notifying .unlocking =>
      { s with mtx := none, waiter := .notifying .notifyingAll }
  | .notifying .notifyingAll => { s with waiter := .passing }
  | _ => s

def beginWait (s : NotificationSignal P) : NotificationSignal P :=
  match s.waiter with
  | .passing => { s with waiter := .waiting .locking }
  | _ => s

/-- The next step of `wait`; a waiter that sleeps stays asleep. -/
def wait (s : NotificationSignal P) : NotificationSignal P :=
  match s.waiter with
  | .waiting .locking =>
      if s.mtx = none then
        { s with mtx := some .waiter, waiter := .waiting .checking }
      else s
  | .waiting .checking =>
      if s.notified then { s with waiter := .waiting .clearing }
      else { s with waiter := .waiting .entering }
  | .waiting .entering =>
      { s with mtx := none, waiter := .waiting .sleeping, waitStart := s.made }
  | .waiting .relocking =>
      if s.mtx = none then
        { s with mtx := some .waiter, waiter := .waiting .clearing }
      else s
  | .waiting .clearing =>
      { s with notified := false, waiter := .waiting .unlocking }
  | .waiting .unlocking => { s with mtx := none, waiter := .outside }
  | _ => s

def event [DecidableEq P] : SignalEvent P → NotificationSignal P → NotificationSignal P
  | .change p, s => s.change p
  | .notify p, s => s.notify p
  | .beginPass, s => s.beginPass
  | .beginNotify, s => s.beginNotify
  | .waiterNotify, s => s.waiterNotify
  | .beginWait, s => s.beginWait
  | .wait, s => s.wait
  | .spuriousWakeUp, s => s.notifyAll

/-- The producer of a change has not stored the flag yet. -/
def Unstored (s : NotificationSignal P) (k : Nat) : Prop :=
  ∃ p, s.producers p = some (k, .locking) ∨ s.producers p = some (k, .storing)

/-- The `notify` for a change is still going on. -/
def Pending (s : NotificationSignal P) (k : Nat) : Prop :=
  ∃ p point, s.producers p = some (k, point)

/-- The waiter holds the mutex there. -/
def Locked : WaiterPoint → Prop
  | .notifying .storing | .notifying .unlocking => True
  | .waiting .checking | .waiting .entering | .waiting .clearing
  | .waiting .unlocking => True
  | _ => False

/-- What the flag and the producers owe the waiter for a change made since the
last pass began. -/
def Owed (s : NotificationSignal P) (k : Nat) : Prop :=
  match s.waiter with
  | .passing | .notifying _ | .waiting .locking | .waiting .checking =>
      s.Unstored k ∨ s.notified = true
  | .waiting .entering => s.Unstored k
  | .waiting .sleeping => s.Pending k
  | _ => True

/-- The invariant of the signal. -/
structure Invariant (s : NotificationSignal P) : Prop where
  waiterLocked : Locked s.waiter → s.mtx = some .waiter
  producerLocked : ∀ p k,
    s.producers p = some (k, .storing) ∨ s.producers p = some (k, .unlocking) →
      s.mtx = some (.producer p)
  owed : ∀ k, s.passStart ≤ k → k < s.made → s.Owed k
  waitStart_le : s.waitStart ≤ s.made

theorem invariant_initial : Invariant ({} : NotificationSignal P) where
  waiterLocked := fun h => h.elim
  producerLocked := by simp
  owed := fun k _ h => absurd h (Nat.not_lt_zero k)
  waitStart_le := Nat.le_refl 0

variable {s t : NotificationSignal P} {k : Nat}

theorem Unstored.pending (h : s.Unstored k) : s.Pending k := by
  obtain ⟨p, hp | hp⟩ := h
  · exact ⟨p, _, hp⟩
  · exact ⟨p, _, hp⟩

theorem Owed.mono (h : s.Owed k) (hwaiter : t.waiter = s.waiter)
    (hnotified : s.notified = true → t.notified = true)
    (hunstored : s.Unstored k → t.Unstored k)
    (hpending : s.waiter = .waiting .sleeping → s.Pending k → t.Pending k) :
    t.Owed k := by
  unfold Owed at h ⊢
  rw [hwaiter]
  split at h
  · exact h.imp hunstored hnotified
  · exact h.imp hunstored hnotified
  · exact h.imp hunstored hnotified
  · exact h.imp hunstored hnotified
  · exact hunstored h
  · exact hpending ‹_› h
  · trivial

/-- Once the flag is stored, only a waiter that has seen it unset is owed
more. -/
theorem Owed.of_notified (h : s.Owed k) (hwaiter : t.waiter = s.waiter)
    (hnotified : t.notified = true)
    (hentering : s.waiter ≠ .waiting .entering)
    (hpending : s.Pending k → t.Pending k) : t.Owed k := by
  unfold Owed at h ⊢
  rw [hwaiter]
  split at h
  · exact Or.inr hnotified
  · exact Or.inr hnotified
  · exact Or.inr hnotified
  · exact Or.inr hnotified
  · contradiction
  · exact hpending h
  · trivial

/-- The waiter wakes up. -/
theorem Invariant.notifyAll (h : s.Invariant) : s.notifyAll.Invariant := by
  unfold NotificationSignal.notifyAll
  split
  · exact ⟨fun hlocked => hlocked.elim, h.producerLocked,
      fun k hstart hmade => trivial, h.waitStart_le⟩
  · exact h

section Producers

variable [DecidableEq P] {p q : P}

theorem producers_setProducer (point : Option (Nat × NotifyPoint)) :
    (s.setProducer p point).producers q =
      if q = p then point else s.producers q :=
  Function.update_apply s.producers p point q

/-- A change is unstored as long as its own producer has not come further. -/
theorem Unstored.setProducer {point : Option (Nat × NotifyPoint)}
    (h : s.Unstored k)
    (hp : s.producers p = some (k, .locking) ∨
        s.producers p = some (k, .storing) →
      point = some (k, .locking) ∨ point = some (k, .storing)) :
    (s.setProducer p point).Unstored k := by
  obtain ⟨q, hq⟩ := h
  refine ⟨q, ?_⟩
  rw [producers_setProducer]
  split
  · rename_i heq
    subst heq
    exact hp hq
  · exact hq

theorem Pending.setProducer {point : Option (Nat × NotifyPoint)}
    (h : s.Pending k)
    (hp : ∀ before, s.producers p = some (k, before) →
      ∃ after, point = some (k, after)) :
    (s.setProducer p point).Pending k := by
  obtain ⟨q, before, hq⟩ := h
  by_cases heq : q = p
  · subst heq
    obtain ⟨after, hafter⟩ := hp before hq
    refine ⟨q, after, ?_⟩
    rw [producers_setProducer, if_pos rfl, hafter]
  · refine ⟨q, before, ?_⟩
    rw [producers_setProducer, if_neg heq, hq]

theorem Invariant.change (h : s.Invariant) (p : P) :
    (s.change p).Invariant := by
  unfold NotificationSignal.change
  split
  · exact h
  · rename_i hnone
    constructor
    · exact h.waiterLocked
    · intro q k hq
      rw [producers_setProducer] at hq
      split at hq
      · simp at hq
      · exact h.producerLocked q k hq
    · intro k hstart hmade
      have hunstored : s.Unstored k →
          (s.setProducer p (some (s.made, .locking))).Unstored k :=
        fun hk => hk.setProducer fun hp => by simp [hnone] at hp
      rcases Nat.lt_succ_iff_lt_or_eq.mp hmade with hold | rfl
      · refine (h.owed k hstart hold).mono rfl id hunstored fun _ hk => ?_
        exact hk.setProducer fun before hp => by simp [hnone] at hp
      · have hnew : (s.setProducer p (some (s.made, .locking))).Unstored
            s.made :=
          ⟨p, Or.inl (by rw [producers_setProducer, if_pos rfl])⟩
        change Owed _ _
        unfold Owed
        split
        · exact Or.inl hnew
        · exact Or.inl hnew
        · exact Or.inl hnew
        · exact Or.inl hnew
        · exact hnew
        · exact hnew.pending
        · trivial
    · exact Nat.le_succ_of_le h.waitStart_le

/-- A pending change stays pending while its producer moves on. -/
theorem Pending.advance {j : Nat} {before after : NotifyPoint}
    (h : s.Pending j) (hp : s.producers p = some (k, before)) :
    (s.setProducer p (some (k, after))).Pending j := by
  refine h.setProducer fun point hold => ⟨after, ?_⟩
  simp only [hp, Option.some.injEq, Prod.mk.injEq] at hold
  rw [hold.1]

theorem Invariant.notify_locking (h : s.Invariant)
    (hp : s.producers p = some (k, .locking)) (hfree : s.mtx = none) :
    Invariant { s.setProducer p (some (k, .storing)) with
      mtx := some (.producer p) } := by
  constructor
  · intro hlocked
    have hheld := h.waiterLocked hlocked
    rw [hfree] at hheld
    contradiction
  · intro q j hq
    rw [producers_setProducer] at hq
    split at hq
    · rename_i heq
      rw [heq]
    · have hheld := h.producerLocked q j hq
      rw [hfree] at hheld
      contradiction
  · intro j hstart hmade
    refine (h.owed j hstart hmade).mono rfl id (fun hj => ?_)
      fun _ hj => hj.advance hp
    refine hj.setProducer fun hold => Or.inr ?_
    simpa [hp] using hold
  · exact h.waitStart_le

theorem Invariant.notify_storing (h : s.Invariant)
    (hp : s.producers p = some (k, .storing)) :
    Invariant { s.setProducer p (some (k, .unlocking)) with
      notified := true } := by
  have hheld := h.producerLocked p k (Or.inl hp)
  constructor
  · exact h.waiterLocked
  · intro q j hq
    rw [producers_setProducer] at hq
    split at hq
    · rename_i heq
      rw [heq]
      exact hheld
    · exact h.producerLocked q j hq
  · intro j hstart hmade
    refine (h.owed j hstart hmade).of_notified rfl rfl (fun hentering => ?_)
      fun hj => hj.advance hp
    have hlocked := h.waiterLocked (by rw [hentering]; trivial)
    simp [hheld] at hlocked
  · exact h.waitStart_le

theorem Invariant.notify_unlocking (h : s.Invariant)
    (hp : s.producers p = some (k, .unlocking)) :
    Invariant { s.setProducer p (some (k, .notifyingAll)) with
      mtx := none } := by
  have hheld := h.producerLocked p k (Or.inr hp)
  constructor
  · intro hlocked
    have hwaiter := h.waiterLocked hlocked
    simp [hheld] at hwaiter
  · intro q j hq
    rw [producers_setProducer] at hq
    split at hq
    · simp at hq
    · rename_i hne
      have hother := h.producerLocked q j hq
      simp only [hheld, Option.some.injEq, SignalThread.producer.injEq]
        at hother
      exact absurd hother.symm hne
  · intro j hstart hmade
    refine (h.owed j hstart hmade).mono rfl id (fun hj => ?_)
      fun _ hj => hj.advance hp
    exact hj.setProducer fun hold => by simp [hp] at hold
  · exact h.waitStart_le

/-- The waiter sleeps no longer, so that the `notify` may end. -/
theorem Invariant.notify_notifyingAll (h : s.Invariant)
    (hp : s.producers p = some (k, .notifyingAll)) :
    (s.setProducer p none).notifyAll.Invariant := by
  have hproducers : ∀ q j,
      (s.setProducer p none).producers q = some (j, .storing) ∨
        (s.setProducer p none).producers q = some (j, .unlocking) →
      s.mtx = some (.producer q) := by
    intro q j hq
    rw [producers_setProducer] at hq
    split at hq
    · simp at hq
    · exact h.producerLocked q j hq
  unfold NotificationSignal.notifyAll
  split
  · exact ⟨fun hlocked => hlocked.elim, hproducers,
      fun j hstart hmade => trivial, h.waitStart_le⟩
  · rename_i hawake
    constructor
    · exact h.waiterLocked
    · exact hproducers
    · intro j hstart hmade
      refine (h.owed j hstart hmade).mono rfl id (fun hj => ?_)
        fun hsleep => absurd hsleep hawake
      exact hj.setProducer fun hold => by simp [hp] at hold
    · exact h.waitStart_le

/-- A producer takes its next step in `notify`. -/
theorem Invariant.notify (h : s.Invariant) (p : P) :
    (s.notify p).Invariant := by
  unfold NotificationSignal.notify
  split
  · exact h
  · rename_i hp
    split
    · rename_i hfree
      exact h.notify_locking hp hfree
    · exact h
  · exact h.notify_storing ‹_›
  · exact h.notify_unlocking ‹_›
  · exact h.notify_notifyingAll ‹_›

end Producers

theorem Invariant.beginPass (h : s.Invariant) : s.beginPass.Invariant := by
  unfold NotificationSignal.beginPass
  split
  · exact ⟨fun hlocked => hlocked.elim, h.producerLocked,
      fun k hstart hmade => absurd hmade (Nat.not_lt.mpr hstart),
      h.waitStart_le⟩
  · exact ⟨fun hlocked => hlocked.elim, h.producerLocked,
      fun k hstart hmade => absurd hmade (Nat.not_lt.mpr hstart),
      h.waitStart_le⟩
  · exact h

/-- The waiter has begun a pass and not looked at the flag since. -/
def Watching : WaiterPoint → Prop
  | .passing | .notifying _ | .waiting .locking | .waiting .checking => True
  | _ => False

theorem Invariant.of_watching (h : s.Invariant) (hs : Watching s.waiter)
    (hstart : s.passStart ≤ k) (hmade : k < s.made) :
    s.Unstored k ∨ s.notified = true := by
  have howed := h.owed k hstart hmade
  unfold Owed at howed
  unfold Watching at hs
  split at hs <;> rename_i hwaiter
  · simpa only [hwaiter] using howed
  · simpa only [hwaiter] using howed
  · simpa only [hwaiter] using howed
  · simpa only [hwaiter] using howed
  · contradiction

theorem Invariant.beginNotify (h : s.Invariant) :
    s.beginNotify.Invariant := by
  unfold NotificationSignal.beginNotify
  split
  · rename_i hs
    exact ⟨fun hlocked => hlocked.elim, h.producerLocked,
      fun k => h.of_watching (by rw [hs]; trivial), h.waitStart_le⟩
  · exact h

theorem Invariant.beginWait (h : s.Invariant) : s.beginWait.Invariant := by
  unfold NotificationSignal.beginWait
  split
  · rename_i hs
    exact ⟨fun hlocked => hlocked.elim, h.producerLocked,
      fun k => h.of_watching (by rw [hs]; trivial), h.waitStart_le⟩
  · exact h

/-- No producer is in its critical section when the mutex is free or held by
the waiter. -/
theorem Invariant.no_producerLocked (h : s.Invariant)
    (hmtx : s.mtx = none ∨ s.mtx = some .waiter) (p : P) (k : Nat) :
    ¬ (s.producers p = some (k, .storing) ∨
      s.producers p = some (k, .unlocking)) := by
  intro hp
  have hheld := h.producerLocked p k hp
  rcases hmtx with hmtx | hmtx
  · simp [hmtx] at hheld
  · simp [hmtx] at hheld

/-- The waiter takes its next step in a `notify` of its own. -/
theorem Invariant.waiterNotify (h : s.Invariant) :
    s.waiterNotify.Invariant := by
  unfold NotificationSignal.waiterNotify
  split
  · rename_i hs
    split
    · rename_i hfree
      refine ⟨fun _ => rfl, fun p k hp => ?_,
        fun k => h.of_watching (by rw [hs]; trivial), h.waitStart_le⟩
      exact absurd hp (h.no_producerLocked (Or.inl hfree) p k)
    · exact h
  · rename_i hs
    have hheld := h.waiterLocked (by rw [hs]; trivial)
    exact ⟨fun _ => hheld, h.producerLocked, fun k hstart hmade => Or.inr rfl,
      h.waitStart_le⟩
  · rename_i hs
    have hheld := h.waiterLocked (by rw [hs]; trivial)
    refine ⟨fun hlocked => hlocked.elim, fun p k hp => ?_,
      fun k => h.of_watching (by rw [hs]; trivial), h.waitStart_le⟩
    exact absurd hp (h.no_producerLocked (Or.inr hheld) p k)
  · rename_i hs
    exact ⟨fun hlocked => hlocked.elim, h.producerLocked,
      fun k => h.of_watching (by rw [hs]; trivial), h.waitStart_le⟩
  · exact h

/-- The waiter takes its next step in `wait`.  It goes to sleep with the mutex
in its hands, so nothing is stored between its look at the flag and its sleep.
-/
theorem Invariant.wait (h : s.Invariant) : s.wait.Invariant := by
  unfold NotificationSignal.wait
  split
  · rename_i hs
    split
    · rename_i hfree
      refine ⟨fun _ => rfl, fun p k hp => ?_,
        fun k => h.of_watching (by rw [hs]; trivial), h.waitStart_le⟩
      exact absurd hp (h.no_producerLocked (Or.inl hfree) p k)
    · exact h
  · rename_i hs
    have hheld := h.waiterLocked (by rw [hs]; trivial)
    split
    · exact ⟨fun _ => hheld, h.producerLocked, fun k hstart hmade => trivial,
        h.waitStart_le⟩
    · rename_i hflag
      refine ⟨fun _ => hheld, h.producerLocked, fun k hstart hmade => ?_,
        h.waitStart_le⟩
      have howed := h.of_watching (by rw [hs]; trivial) hstart hmade
      exact howed.resolve_right hflag
  · rename_i hs
    have hheld := h.waiterLocked (by rw [hs]; trivial)
    refine ⟨fun hlocked => hlocked.elim, fun p k hp => ?_,
      fun k hstart hmade => ?_, Nat.le_refl _⟩
    · exact absurd hp (h.no_producerLocked (Or.inr hheld) p k)
    · have howed := h.owed k hstart hmade
      simp only [Owed, hs] at howed
      exact howed.pending
  · split
    · rename_i hfree
      refine ⟨fun _ => rfl, fun p k hp => ?_, fun k hstart hmade => trivial,
        h.waitStart_le⟩
      exact absurd hp (h.no_producerLocked (Or.inl hfree) p k)
    · exact h
  · rename_i hs
    have hheld := h.waiterLocked (by rw [hs]; trivial)
    exact ⟨fun _ => hheld, h.producerLocked, fun k hstart hmade => trivial,
      h.waitStart_le⟩
  · rename_i hs
    have hheld := h.waiterLocked (by rw [hs]; trivial)
    refine ⟨fun hlocked => hlocked.elim, fun p k hp => ?_,
      fun k hstart hmade => trivial, h.waitStart_le⟩
    exact absurd hp (h.no_producerLocked (Or.inr hheld) p k)
  · exact h

/-- Every step of every thread keeps the invariant. -/
theorem Invariant.event [DecidableEq P] (h : s.Invariant)
    (e : SignalEvent P) : (event e s).Invariant := by
  cases e with
  | change p => exact h.change p
  | notify p => exact h.notify p
  | beginPass => exact h.beginPass
  | beginNotify => exact h.beginNotify
  | waiterNotify => exact h.waiterNotify
  | beginWait => exact h.beginWait
  | wait => exact h.wait
  | spuriousWakeUp => exact h.notifyAll

/-- While the waiter sleeps, the `notify` of every change made since its last
pass began and before it fell asleep is still to come. -/
theorem Invariant.pending_of_sleeping (h : s.Invariant)
    (hs : s.waiter = .waiting .sleeping) (hstart : s.passStart ≤ k)
    (hwait : k < s.waitStart) : s.Pending k := by
  have howed := h.owed k hstart (Nat.lt_of_lt_of_le hwait h.waitStart_le)
  simpa [Owed, hs] using howed

section Frames

/-- Producers do no more to the waiter than wake it. -/
def LeavesOrWakes (s t : NotificationSignal P) : Prop :=
  t.waiter = s.waiter ∨
    s.waiter = .waiting .sleeping ∧ t.waiter = .waiting .relocking

theorem notifyAll_leavesOrWakes (s : NotificationSignal P) :
    s.LeavesOrWakes s.notifyAll := by
  unfold LeavesOrWakes NotificationSignal.notifyAll
  split
  · exact Or.inr ⟨‹_›, rfl⟩
  · exact Or.inl rfl

/-- The steps of the waiter leave the producers where they are. -/
theorem notifyAll_producers : s.notifyAll.producers = s.producers := by
  unfold NotificationSignal.notifyAll
  split <;> rfl

theorem beginPass_producers : s.beginPass.producers = s.producers := by
  unfold NotificationSignal.beginPass
  split <;> rfl

theorem beginNotify_producers : s.beginNotify.producers = s.producers := by
  unfold NotificationSignal.beginNotify
  split <;> rfl

theorem waiterNotify_producers :
    s.waiterNotify.producers = s.producers := by
  unfold NotificationSignal.waiterNotify
  split <;> (try split) <;> rfl

theorem beginWait_producers : s.beginWait.producers = s.producers := by
  unfold NotificationSignal.beginWait
  split <;> rfl

theorem wait_producers : s.wait.producers = s.producers := by
  unfold NotificationSignal.wait
  split <;> (try split) <;> rfl

/-- A `notify` of the waiter ends in the pass it began in. -/
theorem waiterNotify_waiter {point : NotifyPoint}
    (hs : s.waiter = .notifying point) :
    s.waiterNotify.waiter = .passing ∨
      ∃ point', s.waiterNotify.waiter = .notifying point' := by
  unfold NotificationSignal.waiterNotify
  cases point with
  | locking =>
      rw [hs]
      simp only
      split
      · exact Or.inr ⟨.storing, rfl⟩
      · exact Or.inr ⟨.locking, hs⟩
  | storing => exact Or.inr ⟨.unlocking, by simp only [hs]⟩
  | unlocking => exact Or.inr ⟨.notifyingAll, by simp only [hs]⟩
  | notifyingAll => exact Or.inl (by simp only [hs])

theorem wait_waiter {point : WaitPoint} (hs : s.waiter = .waiting point) :
    s.wait.waiter = .outside ∨ ∃ point', s.wait.waiter = .waiting point' := by
  unfold NotificationSignal.wait
  cases point with
  | locking =>
      rw [hs]
      simp only
      split
      · exact Or.inr ⟨.checking, rfl⟩
      · exact Or.inr ⟨.locking, hs⟩
  | checking =>
      rw [hs]
      simp only
      split
      · exact Or.inr ⟨.clearing, rfl⟩
      · exact Or.inr ⟨.entering, rfl⟩
  | entering => exact Or.inr ⟨.sleeping, by simp only [hs]⟩
  | sleeping => exact Or.inr ⟨.sleeping, by simp only [hs]⟩
  | relocking =>
      rw [hs]
      simp only
      split
      · exact Or.inr ⟨.clearing, rfl⟩
      · exact Or.inr ⟨.relocking, hs⟩
  | clearing => exact Or.inr ⟨.unlocking, by simp only [hs]⟩
  | unlocking => exact Or.inl (by simp only [hs])

variable [DecidableEq P]

theorem change_waiter (s : NotificationSignal P) (p : P) :
    (s.change p).waiter = s.waiter := by
  unfold NotificationSignal.change
  split <;> rfl

theorem notify_leavesOrWakes (s : NotificationSignal P) (p : P) :
    s.LeavesOrWakes (s.notify p) := by
  unfold NotificationSignal.notify
  split
  · exact Or.inl rfl
  · split
    · exact Or.inl rfl
    · exact Or.inl rfl
  · exact Or.inl rfl
  · exact Or.inl rfl
  · exact notifyAll_leavesOrWakes (s.setProducer p none)

/-- A `notify` does not end while the waiter sleeps. -/
theorem producers_event {p : P} {point : NotifyPoint}
    (hp : s.producers p = some (k, point)) (e : SignalEvent P)
    (hsleep : (event e s).waiter = .waiting .sleeping) :
    ∃ point', (event e s).producers p = some (k, point') := by
  cases e with
  | change q =>
      refine ⟨point, ?_⟩
      simp only [event, NotificationSignal.change]
      split
      · exact hp
      · rename_i hnone
        rw [producers_setProducer, if_neg, hp]
        rintro rfl
        rw [hp] at hnone
        contradiction
  | notify q =>
      simp only [event] at hsleep ⊢
      by_cases heq : p = q
      · subst heq
        unfold NotificationSignal.notify at hsleep ⊢
        rw [hp] at hsleep ⊢
        cases point with
        | locking =>
            simp only
            split
            · exact ⟨.storing, by rw [producers_setProducer, if_pos rfl]⟩
            · exact ⟨.locking, hp⟩
        | storing =>
            exact ⟨.unlocking, by rw [producers_setProducer, if_pos rfl]⟩
        | unlocking =>
            exact ⟨.notifyingAll, by rw [producers_setProducer, if_pos rfl]⟩
        | notifyingAll =>
            simp only [NotificationSignal.notifyAll] at hsleep
            split at hsleep
            · simp at hsleep
            · contradiction
      · refine ⟨point, ?_⟩
        unfold NotificationSignal.notify
        split
        · exact hp
        · split
          · rw [producers_setProducer, if_neg heq, hp]
          · exact hp
        · rw [producers_setProducer, if_neg heq, hp]
        · rw [producers_setProducer, if_neg heq, hp]
        · rw [notifyAll_producers, producers_setProducer, if_neg heq, hp]
  | beginPass => exact ⟨point, by rw [event, beginPass_producers, hp]⟩
  | beginNotify => exact ⟨point, by rw [event, beginNotify_producers, hp]⟩
  | waiterNotify => exact ⟨point, by rw [event, waiterNotify_producers, hp]⟩
  | beginWait => exact ⟨point, by rw [event, beginWait_producers, hp]⟩
  | wait => exact ⟨point, by rw [event, wait_producers, hp]⟩
  | spuriousWakeUp => exact ⟨point, by rw [event, notifyAll_producers, hp]⟩

end Frames

end NotificationSignal

end NetworkProtocolDsl
