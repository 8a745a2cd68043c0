/-
Runs that end, by the number of their steps.

The ended states stand still, so all that is reached on the way to an end lies
before it, and has fewer steps to go.  A run whose steps lower a well-founded
rank comes to an end, one that keeps away from the ends by an invariant does
not.
-/
import Mathlib.Order.WellFounded
import NetworkProtocolDsl.Library.Run

namespace Run

universe u v

variable {σ : Type u} {φ : Type v}

/-- So many steps, none of them from an ended state, lead to an ended one. -/
def EndsIn (step : σ → Except φ σ) (ended : σ → Prop) : Nat → σ → σ → Prop
  | 0, s, last => s = last ∧ ended last
  | n + 1, s, last =>
      ¬ ended s ∧ ∃ t, step s = .ok t ∧ EndsIn step ended n t last

namespace EndsIn

variable {step : σ → Except φ σ} {ended : σ → Prop} {s t last : σ} {n : Nat}

/-- The steps after the first one. -/
theorem tail (h : EndsIn step ended n s last) (hrunning : ¬ ended s)
    (hstep : step s = .ok t) :
    ∃ m, n = m + 1 ∧ EndsIn step ended m t last := by
  cases n with
  | zero =>
      obtain ⟨rfl, hended⟩ := h
      exact absurd hended hrunning
  | succ n =>
      obtain ⟨_, t', hstep', hrest⟩ := h
      obtain rfl := Except.ok.inj (hstep.symm.trans hstep')
      exact ⟨n, rfl, hrest⟩

/-- A state that has not ended takes a step. -/
theorem exists_step (h : EndsIn step ended n s last) (hrunning : ¬ ended s) :
    ∃ t, step s = .ok t := by
  cases n with
  | zero =>
      obtain ⟨rfl, hended⟩ := h
      exact absurd hended hrunning
  | succ n =>
      obtain ⟨_, t, hstep, _⟩ := h
      exact ⟨t, hstep⟩

/-- What the first state is replaced by has to take the same step. -/
theorem of_step_eq (h : EndsIn step ended n s last) (hrunning : ¬ ended s)
    (hrunning' : ¬ ended t) (heq : step s = step t) :
    EndsIn step ended n t last := by
  obtain ⟨next, hnext⟩ := h.exists_step hrunning
  obtain ⟨m, rfl, hrest⟩ := h.tail hrunning hnext
  exact ⟨hrunning', next, heq.symm.trans hnext, hrest⟩

variable (hfixed : ∀ s, ended s → step s = .ok s)

include hfixed

/-- A run that reaches an ended state ends there. -/
theorem of_reaches (h : Reaches step s last) (hlast : ended last) :
    ∃ n, EndsIn step ended n s last := by
  induction h using Relation.ReflTransGen.head_induction_on with
  | refl => exact ⟨0, rfl, hlast⟩
  | @head s t hstep hrest ih =>
      by_cases hended : ended s
      · have heq := Except.ok.inj (hstep.symm.trans (hfixed s hended))
        subst heq
        exact ih
      · obtain ⟨n, hn⟩ := ih
        exact ⟨n + 1, hended, t, hstep, hn⟩

/-- What is reached on the way has no more steps to go. -/
theorem reached (h : EndsIn step ended n s last) (hreach : Reaches step s t) :
    ∃ m ≤ n, EndsIn step ended m t last := by
  induction hreach with
  | refl => exact ⟨n, Nat.le_refl n, h⟩
  | @tail t u _ hstep ih =>
      obtain ⟨m, hle, hm⟩ := ih
      by_cases hended : ended t
      · have heq := Except.ok.inj ((hfixed t hended).symm.trans hstep)
        subst heq
        exact ⟨m, hle, hm⟩
      · obtain ⟨k, rfl, hk⟩ := hm.tail hended hstep
        exact ⟨k, by omega, hk⟩

end EndsIn

/-- The run from the state comes to one where it halts. -/
def Ends (step : σ → Except φ σ) (halted : σ → Prop) (s : σ) : Prop :=
  ∃ t, Reaches step s t ∧ halted t

namespace Ends

variable {step : σ → Except φ σ} {halted invariant : σ → Prop} {s : σ}

/-- Steps that lower a rank come to an end. -/
theorem of_rank {α : Type*} [Preorder α] [WellFoundedLT α] (rank : σ → α)
    (hstep : ∀ s, invariant s → ¬ halted s →
      ∃ t, step s = .ok t ∧ invariant t ∧ rank t < rank s)
    (hs : invariant s) : Ends step halted s := by
  induction h : rank s using WellFoundedLT.induction generalizing s with
  | ind a ih =>
      by_cases hhalted : halted s
      · exact ⟨s, Reaches.refl s, hhalted⟩
      · obtain ⟨t, hnext, ht, hlt⟩ := hstep s hs hhalted
        rw [h] at hlt
        obtain ⟨last, hreaches, hlast⟩ := ih _ hlt ht rfl
        exact ⟨last, Reaches.head hnext hreaches, hlast⟩

/-- Where the run always goes on there is no end. -/
theorem not_of_invariant
    (hstep : ∀ s, invariant s → ∃ t, step s = .ok t ∧ invariant t)
    (hrunning : ∀ s, invariant s → ¬ halted s) (hs : invariant s) :
    ¬ Ends step halted s := by
  rintro ⟨t, hreaches, ht⟩
  refine hrunning t (hreaches.invariant (fun u v hu huv => ?_) hs) ht
  obtain ⟨next, hnext, hinv⟩ := hstep u hu
  obtain rfl := Except.ok.inj (huv.symm.trans hnext)
  exact hinv

/-- What the run reaches has the same ends behind it. -/
theorem reached {t : σ} (hfixed : ∀ s, halted s → ∀ t, step s = .ok t → t = s)
    (h : Ends step halted s) (hreach : Reaches step s t) :
    Ends step halted t := by
  obtain ⟨last, hlast, hhalted⟩ := h
  rcases Reaches.linear hlast hreach with h | h
  · have heq : t = last := by
      clear hreach hlast
      induction h with
      | refl => rfl
      | tail _ hnext ih =>
          subst ih
          exact hfixed _ hhalted _ hnext
    rw [heq]
    exact ⟨last, Reaches.refl last, hhalted⟩
  · exact ⟨last, h, hhalted⟩

end Ends

end Run
