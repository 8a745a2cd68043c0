/-
Values grouped by a key.

The groups are a map of lists: a value goes to the end of the group of its key,
which is made when the first value comes.  A group is what a filter leaves.
-/
import Mathlib.Data.List.Induction
import NetworkProtocolDsl.Library.Assoc

namespace Grouping

universe u v

variable {κ : Type u} {β : Type v} [LT κ] [DecidableLT κ]

/-- `map[key].push_back(value)`. -/
def pushBack (key : κ) (value : β) : List (κ × List β) → List (κ × List β)
  | [] => [(key, [value])]
  | (k, group) :: groups =>
      if key < k then (key, [value]) :: (k, group) :: groups
      else if k < key then (k, group) :: pushBack key value groups
      else (k, group ++ [value]) :: groups

def groupBy (key : β → κ) (values : List β) : List (κ × List β) :=
  values.foldl (fun groups value => pushBack (key value) value groups) []

variable {key k : κ} {value : β} {groups : List (κ × List β)}

theorem fst_pushBack (h : k ∈ (pushBack key value groups).map Prod.fst) :
    k = key ∨ k ∈ groups.map Prod.fst := by
  induction groups with
  | nil => exact Or.inl (List.mem_singleton.mp h)
  | cons first groups ih =>
      obtain ⟨other, group⟩ := first
      rw [pushBack] at h
      split_ifs at h
      · exact List.mem_cons.mp h
      · rcases List.mem_cons.mp h with rfl | h
        · exact Or.inr List.mem_cons_self
        · exact (ih h).imp_right (List.mem_cons_of_mem other)
      · exact Or.inr h

theorem groupBy_concat (key : β → κ) (values : List β) (value : β) :
    groupBy key (values ++ [value]) =
      pushBack (key value) value (groupBy key values) := by
  rw [groupBy, List.foldl_append]
  rfl

section Transitive

variable [Trans (α := κ) (β := κ) (γ := κ) (· < ·) (· < ·) (· < ·)]

theorem sorted_pushBack (h : Assoc.Sorted groups) :
    Assoc.Sorted (pushBack key value groups) := by
  induction groups with
  | nil => exact List.pairwise_singleton _ _
  | cons first groups ih =>
      obtain ⟨other, group⟩ := first
      obtain ⟨hfirst, hrest⟩ := List.pairwise_cons.mp h
      rw [pushBack]
      split_ifs with hlt hgt
      · refine List.pairwise_cons.mpr ⟨fun k hk => ?_, h⟩
        rcases List.mem_cons.mp hk with rfl | hk
        · exact hlt
        · exact Trans.trans hlt (hfirst k hk)
      · refine List.pairwise_cons.mpr ⟨fun k hk => ?_, ih hrest⟩
        rcases fst_pushBack hk with rfl | hk
        · exact hgt
        · exact hfirst k hk
      · exact h

theorem sorted_groupBy (key : β → κ) (values : List β) :
    Assoc.Sorted (groupBy key values) := by
  induction values using List.reverseRecOn with
  | nil => exact List.Pairwise.nil
  | append_singleton values value ih =>
      rw [groupBy_concat]
      exact sorted_pushBack ih

end Transitive

variable [DecidableEq κ] [Std.Trichotomous (α := κ) (· < ·)]

theorem lookup_pushBack_ne (hne : k ≠ key) :
    (pushBack key value groups).lookup k = groups.lookup k := by
  induction groups with
  | nil => exact Assoc.lookup_cons_ne hne _ _
  | cons first groups ih =>
      obtain ⟨other, group⟩ := first
      rw [pushBack]
      split_ifs with hlt hgt
      · exact Assoc.lookup_cons_ne hne _ _
      · by_cases hk : k = other
        · subst hk
          rw [List.lookup_cons_self, List.lookup_cons_self]
        · rw [Assoc.lookup_cons_ne hk, Assoc.lookup_cons_ne hk, ih]
      · obtain rfl := Std.Trichotomous.trichotomous _ _ hlt hgt
        rw [Assoc.lookup_cons_ne hne, Assoc.lookup_cons_ne hne]

variable [Std.Asymm (α := κ) (· < ·)]

theorem lookup_pushBack_self (h : Assoc.Sorted groups) :
    (pushBack key value groups).lookup key =
      some ((groups.lookup key).getD [] ++ [value]) := by
  induction groups with
  | nil => exact List.lookup_cons_self
  | cons first groups ih =>
      obtain ⟨other, group⟩ := first
      obtain ⟨hfirst, hrest⟩ := List.pairwise_cons.mp h
      rw [pushBack]
      split_ifs with hlt hgt
      · have hnew : key ∉ ((other, group) :: groups).map Prod.fst := by
          intro hmem
          rcases List.mem_cons.mp hmem with rfl | hmem
          · exact Std.Asymm.asymm _ _ hlt hlt
          · exact Std.Asymm.asymm _ _ hlt (hfirst key hmem)
        rw [Assoc.lookup_eq_none_of_not_mem hnew]
        exact List.lookup_cons_self
      · have hne : key ≠ other := by
          rintro rfl
          exact Std.Asymm.asymm _ _ hgt hgt
        rw [Assoc.lookup_cons_ne hne, Assoc.lookup_cons_ne hne, ih hrest]
      · obtain rfl := Std.Trichotomous.trichotomous _ _ hlt hgt
        rw [List.lookup_cons_self, List.lookup_cons_self]
        rfl

section Lookup

variable [Trans (α := κ) (β := κ) (γ := κ) (· < ·) (· < ·) (· < ·)]

/-- A key has the group of its values, in their order, unless it has none. -/
theorem lookup_groupBy (key : β → κ) (values : List β) (k : κ) :
    (groupBy key values).lookup k =
      if values.filter (key · = k) = [] then none
      else some (values.filter (key · = k)) := by
  induction values using List.reverseRecOn with
  | nil => rfl
  | append_singleton values value ih =>
      rw [groupBy_concat, List.filter_append]
      by_cases hk : k = key value
      · subst hk
        have hvalue : [value].filter (key · = key value) = [value] := by simp
        have hne : values.filter (key · = key value) ++ [value] ≠ [] := by simp
        rw [lookup_pushBack_self (sorted_groupBy key values), ih, hvalue,
          if_neg hne]
        split_ifs with hempty
        · rw [hempty]
          rfl
        · rfl
      · have hvalue : [value].filter (key · = k) = [] := by
          simpa using Ne.symm hk
        rw [lookup_pushBack_ne hk, ih, hvalue, List.append_nil]

theorem mem_groupBy_iff {key : β → κ} {values group : List β} {k : κ} :
    (k, group) ∈ groupBy key values ↔
      group = values.filter (key · = k) ∧ group ≠ [] := by
  have hnodup := (sorted_groupBy key values).nodup
  have hlookup := lookup_groupBy key values k
  constructor
  · intro hmem
    have hfound := Assoc.lookup_of_mem hnodup hmem
    rw [hlookup] at hfound
    split_ifs at hfound with hempty
    obtain rfl := Option.some.inj hfound
    exact ⟨rfl, hempty⟩
  · rintro ⟨rfl, hne⟩
    rw [if_neg hne] at hlookup
    exact Assoc.mem_of_lookup hlookup

end Lookup

end Grouping
