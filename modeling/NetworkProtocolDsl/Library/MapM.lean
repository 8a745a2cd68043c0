/-
Maps over a list that may fail.

A map that succeeds pairs each element with what it is sent to; an element that
is sent to nothing makes it fail.
-/
import Mathlib.Data.List.Forall2

namespace MapM

universe u v

variable {α : Type u} {β : Type v} {f : α → Option β}

theorem forall₂_of_eq_some {xs : List α} {ys : List β}
    (h : xs.mapM f = some ys) :
    List.Forall₂ (fun x y => f x = some y) xs ys := by
  induction xs generalizing ys with
  | nil =>
      obtain rfl : ys = [] := by simpa using h.symm
      exact .nil
  | cons x xs ih =>
      rw [List.mapM_cons] at h
      obtain ⟨y, hy, h⟩ := Option.bind_eq_some_iff.mp h
      obtain ⟨ys', hys, h⟩ := Option.bind_eq_some_iff.mp h
      obtain rfl := Option.some.inj h
      exact .cons hy (ih hys)

theorem eq_some_of_forall₂ {xs : List α} {ys : List β}
    (h : List.Forall₂ (fun x y => f x = some y) xs ys) :
    xs.mapM f = some ys := by
  induction h with
  | nil => rfl
  | cons hx _ ih =>
      rw [List.mapM_cons, hx, ih]
      rfl

theorem eq_none_of_mem {xs : List α} {x : α} (hmem : x ∈ xs)
    (hx : f x = none) : xs.mapM f = none := by
  induction xs with
  | nil => contradiction
  | cons y xs ih =>
      rw [List.mapM_cons]
      rcases List.mem_cons.mp hmem with rfl | hmem
      · rw [hx]
        rfl
      · rw [ih hmem]
        cases f y <;> rfl

/-- What is in the result comes from an element. -/
theorem exists_of_mem {xs : List α} {ys : List β} (h : xs.mapM f = some ys)
    {y : β} (hy : y ∈ ys) : ∃ x ∈ xs, f x = some y := by
  induction forall₂_of_eq_some h with
  | nil => exact absurd hy List.not_mem_nil
  | @cons x first xs ys hx hrest ih =>
      rcases List.mem_cons.mp hy with rfl | hy
      · exact ⟨x, List.mem_cons_self, hx⟩
      · obtain ⟨other, hother, heq⟩ := ih (eq_some_of_forall₂ hrest) hy
        exact ⟨other, List.mem_cons_of_mem x hother, heq⟩

/-- The result splits where the list does. -/
theorem append_cons {before after : List α} {x : α} {ys : List β}
    (h : (before ++ x :: after).mapM f = some ys) :
    ∃ ysBefore y ysAfter, before.mapM f = some ysBefore ∧ f x = some y ∧
      after.mapM f = some ysAfter ∧ ys = ysBefore ++ y :: ysAfter := by
  induction before generalizing ys with
  | nil =>
      rw [List.nil_append, List.mapM_cons] at h
      obtain ⟨y, hy, h⟩ := Option.bind_eq_some_iff.mp h
      obtain ⟨ysAfter, hafter, h⟩ := Option.bind_eq_some_iff.mp h
      exact ⟨[], y, ysAfter, rfl, hy, hafter, (Option.some.inj h).symm⟩
  | cons first before ih =>
      rw [List.cons_append, List.mapM_cons] at h
      obtain ⟨z, hz, h⟩ := Option.bind_eq_some_iff.mp h
      obtain ⟨zs, hzs, h⟩ := Option.bind_eq_some_iff.mp h
      obtain ⟨ysBefore, y, ysAfter, hbefore, hy, hafter, rfl⟩ := ih hzs
      refine ⟨z :: ysBefore, y, ysAfter, ?_, hy, hafter,
        (Option.some.inj h).symm⟩
      rw [List.mapM_cons, hz, hbefore]
      rfl

end MapM
