/-
Runs of a fallible step function.

A step consumes an event and may fail; a run consumes a list of events.  The
rules are the usual ones: runs compose, an invariant of the step is an
invariant of the run, and a system that repeats one event is deterministic, so
two states it reaches lie on one line.
-/
import Mathlib.Logic.Relation

namespace Run

universe u v w

variable {σ : Type u} {ε : Type v} {φ : Type w}

/-- Consume the events from left to right; the first failure is the result. -/
def run (step : ε → σ → Except φ σ) : List ε → σ → Except φ σ
  | [], s => .ok s
  | event :: events, s =>
      match step event s with
      | .ok t => run step events t
      | .error fault => .error fault

theorem eq_of_run_nil {step : ε → σ → Except φ σ} {s t : σ}
    (h : run step [] s = .ok t) : s = t :=
  Except.ok.inj h

theorem run_cons_of_ok {step : ε → σ → Except φ σ} {event : ε} {s t : σ}
    (h : step event s = .ok t) (events : List ε) :
    run step (event :: events) s = run step events t := by
  simp only [run, h]

theorem run_cons_ne_ok {step : ε → σ → Except φ σ} {event : ε} {s t : σ}
    {fault : φ} (h : step event s = .error fault) (events : List ε) :
    run step (event :: events) s ≠ .ok t := by
  simp only [run, h, ne_eq, reduceCtorEq, not_false_eq_true]

theorem run_cons_eq_ok {step : ε → σ → Except φ σ} {event : ε}
    {events : List ε} {s t : σ} (h : run step (event :: events) s = .ok t) :
    ∃ middle, step event s = .ok middle ∧ run step events middle = .ok t := by
  cases hstep : step event s with
  | error fault => exact absurd h (run_cons_ne_ok hstep events)
  | ok middle => exact ⟨middle, rfl, (run_cons_of_ok hstep events) ▸ h⟩

theorem run_append {step : ε → σ → Except φ σ} {before : List ε}
    {s t : σ} (h : run step before s = .ok t) (after : List ε) :
    run step (before ++ after) s = run step after t := by
  induction before generalizing s with
  | nil =>
      obtain rfl : s = t := eq_of_run_nil h
      rfl
  | cons event before ih =>
      obtain ⟨middle, hstep, hrest⟩ := run_cons_eq_ok h
      rw [List.cons_append, run_cons_of_ok hstep, ih hrest]

theorem run_concat_eq_ok {step : ε → σ → Except φ σ} {before : List ε}
    {event : ε} {s t : σ} (h : run step (before ++ [event]) s = .ok t) :
    ∃ middle, run step before s = .ok middle ∧ step event middle = .ok t := by
  induction before generalizing s with
  | nil =>
      obtain ⟨middle, hstep, hrest⟩ := run_cons_eq_ok h
      obtain rfl : middle = t := eq_of_run_nil hrest
      exact ⟨s, rfl, hstep⟩
  | cons first before ih =>
      obtain ⟨next, hstep, hrest⟩ := run_cons_eq_ok h
      obtain ⟨middle, hrun, hlast⟩ := ih hrest
      exact ⟨middle, by rw [run_cons_of_ok hstep, hrun], hlast⟩

/-- What every step keeps, every run keeps. -/
theorem run_invariant {step : ε → σ → Except φ σ} {invariant : σ → Prop}
    {allowed : ε → Prop}
    (hstep : ∀ event s t, allowed event → invariant s →
      step event s = .ok t → invariant t)
    {events : List ε} (hevents : ∀ event ∈ events, allowed event) {s t : σ}
    (hs : invariant s) (hrun : run step events s = .ok t) : invariant t := by
  induction events generalizing s with
  | nil =>
      obtain rfl : s = t := eq_of_run_nil hrun
      exact hs
  | cons event events ih =>
      obtain ⟨middle, hmiddle, hrest⟩ := run_cons_eq_ok hrun
      have hinv := hstep event s middle
        (hevents event List.mem_cons_self) hs hmiddle
      exact ih (fun e he => hevents e (List.mem_cons_of_mem event he)) hinv
        hrest

/-- Where certain events lower a rank that the others do not raise, a run with
enough of them brings it down. -/
theorem run_ranked {step : ε → σ → Except φ σ} {ranked : Nat → σ → Prop}
    {serves : ε → Bool}
    (hkeep : ∀ event n s t, ranked n s → step event s = .ok t → ranked n t)
    (hserve : ∀ event n s t, serves event = true → ranked (n + 1) s →
      step event s = .ok t → ranked n t)
    {events : List ε} {n : Nat} (hn : n ≤ events.countP serves) {s t : σ}
    (hs : ranked n s) (hrun : run step events s = .ok t) : ranked 0 t := by
  induction events generalizing n s with
  | nil =>
      obtain rfl : s = t := eq_of_run_nil hrun
      obtain rfl : n = 0 := Nat.le_zero.mp hn
      exact hs
  | cons event events ih =>
      obtain ⟨middle, hmiddle, hrest⟩ := run_cons_eq_ok hrun
      cases hevent : serves event with
      | false =>
          rw [List.countP_cons_of_neg (by simp [hevent])] at hn
          exact ih hn (hkeep event n s middle hs hmiddle) hrest
      | true =>
          rw [List.countP_cons_of_pos hevent] at hn
          cases n with
          | zero =>
              exact ih (Nat.zero_le _) (hkeep event 0 s middle hs hmiddle) hrest
          | succ n =>
              exact ih (Nat.le_of_succ_le_succ hn)
                (hserve event n s middle hevent hs hmiddle) hrest

/-- A run of an event that the state stands still at. -/
theorem run_replicate_of_fixed {step : ε → σ → Except φ σ} {event : ε} {s : σ}
    (h : step event s = .ok s) (n : Nat) :
    run step (List.replicate n event) s = .ok s := by
  induction n with
  | zero => rfl
  | succ n ih => rw [List.replicate_succ, run_cons_of_ok h, ih]

/-- `property` holds of every state of the run, the first one included. -/
def Always (step : ε → σ → Except φ σ) (property : σ → Prop)
    (events : List ε) (s : σ) : Prop :=
  ∀ before after t, events = before ++ after → run step before s = .ok t →
    property t

/-- `condition` holds of every event of the run and the state it meets. -/
def EachStep (step : ε → σ → Except φ σ) (condition : ε → σ → Prop)
    (events : List ε) (s : σ) : Prop :=
  ∀ before event after t, events = before ++ event :: after →
    run step before s = .ok t → condition event t

/-- Follow a run and check each of its events in the state it meets. -/
def checkRun (step : ε → σ → Except φ σ) (check : ε → σ → Bool) :
    List ε → σ → Bool
  | [], _ => true
  | event :: events, s =>
      check event s &&
        match step event s with
        | .ok t => checkRun step check events t
        | .error _ => true

/-- No two events of the run are marked, each in the state it meets. -/
def AtMostOnce (step : ε → σ → Except φ σ) (mark : ε → σ → Prop)
    (events : List ε) (s : σ) : Prop :=
  ∀ before first middle second after t u,
    events = before ++ first :: (middle ++ second :: after) →
    run step before s = .ok t → mark first t →
    run step (before ++ first :: middle) s = .ok u → ¬ mark second u

section EveryState

variable {step : ε → σ → Except φ σ} {property : σ → Prop}
  {condition : ε → σ → Prop} {event : ε} {events : List ε} {s t : σ}

theorem always_nil : Always step property [] s ↔ property s := by
  constructor
  · intro h
    exact h [] [] s rfl rfl
  · intro h before after t happend hrun
    obtain ⟨rfl, _⟩ := List.append_eq_nil_iff.mp happend.symm
    obtain rfl : s = t := eq_of_run_nil hrun
    exact h

theorem always_cons_of_ok (hstep : step event s = .ok t) :
    Always step property (event :: events) s ↔
      property s ∧ Always step property events t := by
  constructor
  · intro h
    refine ⟨h [] _ s rfl rfl, fun before after u happend hrun => ?_⟩
    refine h (event :: before) after u (by rw [happend]; rfl) ?_
    rw [run_cons_of_ok hstep, hrun]
  · rintro ⟨hs, hrest⟩ before after u happend hrun
    cases before with
    | nil =>
        obtain rfl : s = u := eq_of_run_nil hrun
        exact hs
    | cons e before =>
        obtain ⟨rfl, htail⟩ := List.cons.inj happend
        rw [run_cons_of_ok hstep] at hrun
        exact hrest before after u htail hrun

theorem always_cons_of_error {fault : φ}
    (hstep : step event s = .error fault) :
    Always step property (event :: events) s ↔ property s := by
  constructor
  · intro h
    exact h [] _ s rfl rfl
  · intro hs before after u happend hrun
    cases before with
    | nil =>
        obtain rfl : s = u := eq_of_run_nil hrun
        exact hs
    | cons e before =>
        obtain ⟨rfl, _⟩ := List.cons.inj happend
        exact absurd hrun (run_cons_ne_ok hstep _)

theorem eachStep_nil : EachStep step condition [] s := by
  intro before event after t happend _
  simp at happend

theorem eachStep_of_forall (h : ∀ event ∈ events, ∀ s, condition event s) :
    EachStep step condition events s := by
  rintro before event after t rfl _
  exact h event (List.mem_append_right before List.mem_cons_self) t

theorem EachStep.of_append {before after : List ε}
    (h : EachStep step condition (before ++ after) s)
    (hrun : run step before s = .ok t) : EachStep step condition after t := by
  intro before' event after' u happend hu
  refine h (before ++ before') event after' u ?_ ?_
  · rw [happend, List.append_assoc]
  · rw [run_append hrun, hu]

theorem eachStep_cons_of_ok (hstep : step event s = .ok t) :
    EachStep step condition (event :: events) s ↔
      condition event s ∧ EachStep step condition events t := by
  constructor
  · intro h
    refine ⟨h [] event events s rfl rfl,
      fun before e after u happend hrun => ?_⟩
    refine h (event :: before) e after u (by rw [happend]; rfl) ?_
    rw [run_cons_of_ok hstep, hrun]
  · rintro ⟨hs, hrest⟩ before e after u happend hrun
    cases before with
    | nil =>
        obtain ⟨rfl, _⟩ := List.cons.inj happend
        obtain rfl : s = u := eq_of_run_nil hrun
        exact hs
    | cons e' before =>
        obtain ⟨rfl, htail⟩ := List.cons.inj happend
        rw [run_cons_of_ok hstep] at hrun
        exact hrest before e after u htail hrun

/-- The condition of two runs, one after the other. -/
theorem EachStep.append {before after : List ε}
    (hbefore : EachStep step condition before s)
    (hrun : run step before s = .ok t)
    (hafter : EachStep step condition after t) :
    EachStep step condition (before ++ after) s := by
  induction before generalizing s with
  | nil =>
      obtain rfl : s = t := eq_of_run_nil hrun
      exact hafter
  | cons event before ih =>
      obtain ⟨middle, hstep, hrest⟩ := run_cons_eq_ok hrun
      obtain ⟨hfirst, htail⟩ := (eachStep_cons_of_ok hstep).mp hbefore
      exact (eachStep_cons_of_ok hstep).mpr ⟨hfirst, ih htail hrest⟩

theorem eachStep_cons_of_error {fault : φ}
    (hstep : step event s = .error fault) :
    EachStep step condition (event :: events) s ↔ condition event s := by
  constructor
  · intro h
    exact h [] event events s rfl rfl
  · intro hs before e after u happend hrun
    cases before with
    | nil =>
        obtain ⟨rfl, _⟩ := List.cons.inj happend
        obtain rfl : s = u := eq_of_run_nil hrun
        exact hs
    | cons e' before =>
        obtain ⟨rfl, _⟩ := List.cons.inj happend
        exact absurd hrun (run_cons_ne_ok hstep _)

/-- A run whose events pass a check that gives the condition. -/
theorem eachStep_of_checkRun (check : ε → σ → Bool)
    (hcheck : ∀ event s, check event s = true → condition event s)
    (h : checkRun step check events s = true) :
    EachStep step condition events s := by
  induction events generalizing s with
  | nil => exact eachStep_nil
  | cons event events ih =>
      rw [checkRun, Bool.and_eq_true] at h
      obtain ⟨hfirst, hrest⟩ := h
      cases hnext : step event s with
      | error fault =>
          exact (eachStep_cons_of_error hnext).mpr (hcheck event s hfirst)
      | ok t =>
          rw [hnext] at hrest
          exact (eachStep_cons_of_ok hnext).mpr
            ⟨hcheck event s hfirst, ih hrest⟩

/-- An invariant that every step of a run keeps under the condition gives the
property throughout. -/
theorem always_of_eachStep {invariant : σ → Prop}
    (hstep : ∀ event s t, condition event s → invariant s →
      step event s = .ok t → invariant t)
    (hproperty : ∀ s, invariant s → property s) (hs : invariant s)
    (hsteps : EachStep step condition events s) :
    Always step property events s := by
  induction events generalizing s with
  | nil => exact always_nil.mpr (hproperty s hs)
  | cons event events ih =>
      cases hnext : step event s with
      | error fault => exact (always_cons_of_error hnext).mpr (hproperty s hs)
      | ok t =>
          obtain ⟨hfirst, hrest⟩ := (eachStep_cons_of_ok hnext).mp hsteps
          have ht := hstep event s t hfirst hs hnext
          exact (always_cons_of_ok hnext).mpr ⟨hproperty s hs, ih ht hrest⟩

/-- What is spent by a marked step, and stays spent, is marked once. -/
theorem atMostOnce_of_eachStep {invariant spent : σ → Prop}
    {mark : ε → σ → Prop}
    (hstep : ∀ event s t, condition event s → invariant s →
      step event s = .ok t → invariant t)
    (hspend : ∀ event s t, condition event s → invariant s →
      step event s = .ok t → spent s ∨ mark event s → spent t)
    (hmark : ∀ event s, condition event s → invariant s → spent s →
      ¬ mark event s)
    (hs : invariant s) (hsteps : EachStep step condition events s) :
    AtMostOnce step mark events s := by
  rintro before first middle second after t u rfl ht hfirst hu
  rw [run_append ht] at hu
  obtain ⟨t', hfirstStep, hrest⟩ := run_cons_eq_ok hu
  have hinvt : invariant t :=
    always_of_eachStep hstep (fun _ h => h) hs hsteps before
      (first :: (middle ++ second :: after)) t rfl ht
  obtain ⟨hcondition, htail⟩ :=
    (eachStep_cons_of_ok hfirstStep).mp (hsteps.of_append ht)
  have hspent : Always step (fun v => invariant v ∧ spent v)
      (middle ++ second :: after) t' := by
    refine always_of_eachStep (fun event v w hc hv hvw => ?_) (fun _ h => h) ?_
      htail
    · exact ⟨hstep event v w hc hv.1 hvw, hspend event v w hc hv.1 hvw
        (Or.inl hv.2)⟩
    · exact ⟨hstep first t t' hcondition hinvt hfirstStep,
        hspend first t t' hcondition hinvt hfirstStep (Or.inr hfirst)⟩
  obtain ⟨hinvu, hspentu⟩ := hspent middle (second :: after) u rfl hrest
  exact hmark second u (htail middle second after u rfl hrest) hinvu hspentu

/-- Where a step keeps the property exactly under the condition, a run has it
throughout exactly if all steps meet the condition. -/
theorem always_iff_eachStep {invariant : σ → Prop}
    (hstep : ∀ event s t, invariant s → step event s = .ok t →
      (property t ↔ condition event s) ∧ (property t → invariant t))
    (herror : ∀ event s fault, invariant s → step event s = .error fault →
      condition event s)
    (hproperty : ∀ s, invariant s → property s) (hs : invariant s) :
    Always step property events s ↔ EachStep step condition events s := by
  induction events generalizing s with
  | nil => exact iff_of_true (always_nil.mpr (hproperty s hs)) eachStep_nil
  | cons event events ih =>
      cases hnext : step event s with
      | error fault =>
          rw [always_cons_of_error hnext, eachStep_cons_of_error hnext]
          exact iff_of_true (hproperty s hs) (herror event s fault hs hnext)
      | ok t =>
          obtain ⟨hiff, hkeeps⟩ := hstep event s t hs hnext
          rw [always_cons_of_ok hnext, eachStep_cons_of_ok hnext]
          constructor
          · rintro ⟨_, hrest⟩
            have ht := hrest [] events t rfl rfl
            exact ⟨hiff.mp ht, (ih (hkeeps ht)).mp hrest⟩
          · rintro ⟨hfirst, hrest⟩
            have ht := hiff.mpr hfirst
            exact ⟨hproperty s hs, (ih (hkeeps ht)).mpr hrest⟩

end EveryState

/-- `t` is reached from `s` by repeating one step. -/
def Reaches (step : σ → Except φ σ) : σ → σ → Prop :=
  Relation.ReflTransGen fun s t => step s = .ok t

namespace Reaches

variable {step : σ → Except φ σ} {s t u : σ}

theorem refl (s : σ) : Reaches step s s :=
  Relation.ReflTransGen.refl

theorem single (h : step s = .ok t) : Reaches step s t :=
  Relation.ReflTransGen.single h

theorem trans (hst : Reaches step s t) (htu : Reaches step t u) :
    Reaches step s u :=
  Relation.ReflTransGen.trans hst htu

theorem head (h : step s = .ok t) (htu : Reaches step t u) :
    Reaches step s u :=
  Relation.ReflTransGen.head h htu

/-- Of two reached states one reaches the other. -/
theorem linear (hst : Reaches step s t) (hsu : Reaches step s u) :
    Reaches step t u ∨ Reaches step u t := by
  refine Relation.ReflTransGen.total_of_right_unique ?_ hst hsu
  intro a b c hb hc
  exact Except.ok.inj (hb.symm.trans hc)

/-- A state that only steps to itself reaches nothing else. -/
theorem eq_of_fixed (hs : step s = .ok s) (hst : Reaches step s t) :
    t = s := by
  induction hst with
  | refl => rfl
  | tail _ hstep ih =>
      subst ih
      exact Except.ok.inj (hstep.symm.trans hs)

/-- A fixed state is reached by everything its origin reaches. -/
theorem of_fixed (ht : step t = .ok t) (hst : Reaches step s t)
    (hsu : Reaches step s u) : Reaches step u t := by
  rcases linear hst hsu with htu | hut
  · rw [eq_of_fixed ht htu]
    exact refl t
  · exact hut

/-- What a machine reaches, one that takes its steps reaches too; where the
first stands still the second need not move. -/
theorem map {τ : Type*} {step' : τ → Except φ τ} (f : σ → τ)
    (hstep : ∀ s t, step s = .ok t → t = s ∨ step' (f s) = .ok (f t))
    (hst : Reaches step s t) : Reaches step' (f s) (f t) := by
  induction hst with
  | refl => exact refl _
  | @tail t u _ htu ih =>
      rcases hstep t u htu with rfl | hmove
      · exact ih
      · exact ih.trans (single hmove)

theorem invariant {invariant : σ → Prop}
    (hstep : ∀ s t, invariant s → step s = .ok t → invariant t)
    (hst : Reaches step s t) (hs : invariant s) : invariant t := by
  induction hst with
  | refl => exact hs
  | tail _ h ih => exact hstep _ _ ih h

end Reaches

end Run
