/-
First occurrences of a pattern in a list.

The search is the one a byte string library offers: the least position at
which the pattern is a prefix of what remains.  Everything a reader of a
stream needs from it is stability under extension: an occurrence found in a
prefix of the stream is the occurrence of the whole stream.
-/
import Mathlib.Data.List.Infix

namespace Occurrence

universe u

variable {α : Type u} [DecidableEq α]

/-- The least position at which `pattern` occurs, if any.  The empty pattern
occurs at position zero of every list. -/
def first (pattern : List α) : List α → Option Nat
  | [] => if pattern = [] then some 0 else none
  | a :: rest =>
      if pattern <+: a :: rest then some 0
      else (first pattern rest).map (· + 1)

theorem first_nil (pattern : List α) :
    first pattern [] = if pattern = [] then some 0 else none :=
  rfl

theorem first_nil_of_ne {pattern : List α} (h : pattern ≠ []) :
    first pattern [] = none :=
  if_neg h

theorem first_of_prefix {pattern s : List α} (h : pattern <+: s) :
    first pattern s = some 0 := by
  cases s with
  | nil => exact if_pos (List.prefix_nil.mp h)
  | cons a rest => exact if_pos h

theorem first_cons_of_mismatch {pattern rest : List α} {a : α}
    (h : ¬ pattern <+: a :: rest) :
    first pattern (a :: rest) = (first pattern rest).map (· + 1) :=
  if_neg h

/-- A found position splits the list around the pattern. -/
theorem prefix_drop_of_first {pattern s : List α} {i : Nat}
    (h : first pattern s = some i) : pattern <+: s.drop i := by
  induction s generalizing i with
  | nil =>
      by_cases hp : pattern = []
      · simp [hp]
      · rw [first_nil_of_ne hp] at h
        contradiction
  | cons a rest ih =>
      by_cases hp : pattern <+: a :: rest
      · have hi : i = 0 := by simpa [ first_of_prefix hp] using h.symm
        simpa [hi] using hp
      · rw [first_cons_of_mismatch hp, Option.map_eq_some_iff] at h
        obtain ⟨j, hj, rfl⟩ := h
        simpa using ih hj

theorem not_prefix_drop_of_lt {pattern s : List α} {i j : Nat}
    (h : first pattern s = some i) (hj : j < i) : ¬ pattern <+: s.drop j := by
  induction s generalizing i j with
  | nil =>
      by_cases hp : pattern = [] <;> simp [first_nil, hp] at h
      omega
  | cons a rest ih =>
      by_cases hp : pattern <+: a :: rest
      · have hi : i = 0 := by simpa [ first_of_prefix hp] using h.symm
        omega
      · rw [first_cons_of_mismatch hp, Option.map_eq_some_iff] at h
        obtain ⟨k, hk, rfl⟩ := h
        cases j with
        | zero => simpa using hp
        | succ j => simpa using ih hk (by omega : j < k)

theorem length_le_of_first {pattern s : List α} {i : Nat}
    (h : first pattern s = some i) : i + pattern.length ≤ s.length := by
  induction s generalizing i with
  | nil =>
      by_cases hp : pattern = [] <;> simp [first_nil, hp] at h
      simp [hp, ← h]
  | cons a rest ih =>
      by_cases hp : pattern <+: a :: rest
      · have hi : i = 0 := by simpa [ first_of_prefix hp] using h.symm
        have := hp.length_le
        omega
      · rw [first_cons_of_mismatch hp, Option.map_eq_some_iff] at h
        obtain ⟨k, hk, rfl⟩ := h
        have := ih hk
        simp only [List.length_cons]
        omega

theorem first_isSome_of_prefix_drop {pattern s : List α} {i : Nat}
    (h : pattern <+: s.drop i) (hi : i ≤ s.length) :
    ∃ j ≤ i, first pattern s = some j := by
  induction s generalizing i with
  | nil =>
      have hp : pattern = [] := by simpa using h
      exact ⟨0, Nat.zero_le i, by rw [first_nil, if_pos hp]⟩
  | cons a rest ih =>
      by_cases hp : pattern <+: a :: rest
      · exact ⟨0, Nat.zero_le i, first_of_prefix hp⟩
      · cases i with
        | zero => exact absurd (by simpa using h) hp
        | succ i =>
            obtain ⟨j, hj, hfirst⟩ := ih (by simpa using h)
              (by simpa using hi)
            refine ⟨j + 1, by omega, ?_⟩
            rw [first_cons_of_mismatch hp, hfirst]
            rfl

/-- The search is characterised by the occurrence and its minimality. -/
theorem first_eq_some_iff {pattern s : List α} {i : Nat} :
    first pattern s = some i ↔
      i ≤ s.length ∧ pattern <+: s.drop i ∧
        ∀ j < i, ¬ pattern <+: s.drop j := by
  constructor
  · intro h
    have hlen := length_le_of_first h
    exact ⟨by omega, prefix_drop_of_first h,
      fun j hj => not_prefix_drop_of_lt h hj⟩
  · rintro ⟨hi, hat, hmin⟩
    obtain ⟨j, hj, hfirst⟩ := first_isSome_of_prefix_drop hat hi
    rcases Nat.lt_or_eq_of_le hj with hlt | heq
    · exact absurd (prefix_drop_of_first hfirst) (hmin j hlt)
    · rw [hfirst, heq]

theorem first_eq_none_iff {pattern s : List α} :
    first pattern s = none ↔ ∀ i ≤ s.length, ¬ pattern <+: s.drop i := by
  constructor
  · intro h i hi hat
    obtain ⟨j, _, hfirst⟩ := first_isSome_of_prefix_drop hat hi
    rw [h] at hfirst
    contradiction
  · intro h
    cases hfirst : first pattern s with
    | none => rfl
    | some i =>
        have hlen := length_le_of_first hfirst
        exact absurd (prefix_drop_of_first hfirst) (h i (by omega))

theorem first_isSome_iff_infix {pattern s : List α} :
    (first pattern s).isSome ↔ pattern <:+: s := by
  constructor
  · intro h
    obtain ⟨i, hi⟩ := Option.isSome_iff_exists.mp h
    exact (prefix_drop_of_first hi).isInfix.trans (List.drop_suffix i s).isInfix
  · rintro ⟨before, after, rfl⟩
    have hat : pattern <+: (before ++ pattern ++ after).drop before.length := by
      simp
    obtain ⟨j, _, hj⟩ := first_isSome_of_prefix_drop hat (by simp)
    exact Option.isSome_iff_exists.mpr ⟨j, hj⟩

/-- An occurrence found in a prefix of a stream is found at the same place in
the whole stream. -/
theorem first_append {pattern s : List α} {i : Nat}
    (h : first pattern s = some i) (rest : List α) :
    first pattern (s ++ rest) = some i := by
  have hlen := length_le_of_first h
  rw [first_eq_some_iff]
  refine ⟨by simp only [List.length_append]; omega, ?_, ?_⟩
  · rw [List.drop_append_of_le_length (by omega)]
    exact (prefix_drop_of_first h).trans (List.prefix_append _ _)
  · intro j hj hat
    rw [List.drop_append_of_le_length (by omega)] at hat
    apply not_prefix_drop_of_lt h hj
    exact List.prefix_of_prefix_length_le hat (List.prefix_append _ _)
      (by simp only [List.length_drop]; omega)

/-- An occurrence of the whole stream that ends in its first part is that of
the first part. -/
theorem first_of_append {pattern s rest : List α} {i : Nat}
    (h : first pattern (s ++ rest) = some i)
    (hlength : i + pattern.length ≤ s.length) : first pattern s = some i := by
  have hat := prefix_drop_of_first h
  rw [List.drop_append_of_le_length (by omega)] at hat
  have hwithin : pattern <+: s.drop i :=
    List.prefix_of_prefix_length_le hat (List.prefix_append _ _)
      (by rw [List.length_drop]; omega)
  obtain ⟨j, _, hj⟩ := first_isSome_of_prefix_drop hwithin (by omega)
  rw [hj, ← first_append hj rest, h]

theorem take_append_of_first {pattern s : List α} {i : Nat}
    (h : first pattern s = some i) :
    s.take i ++ pattern ++ s.drop (i + pattern.length) = s := by
  obtain ⟨after, hafter⟩ := prefix_drop_of_first h
  have hdrop : s.drop (i + pattern.length) = after := by
    rw [← List.drop_drop, ← hafter, List.drop_left]
  rw [hdrop, List.append_assoc, hafter, List.take_append_drop]

end Occurrence
