/-
The first of every key.

A list is collected from the left; what has the key of something that was
collected before is left out.  Where a key stands for one thing nothing is
lost.
-/
import Mathlib.Data.List.Nodup

namespace FirstByKey

universe u v

variable {α : Type u} {κ : Type v} (key : α → κ)

/-- A key stands for one element. -/
def Unique (l : List α) : Prop :=
  ∀ a ∈ l, ∀ b ∈ l, key a = key b → a = b

theorem Unique.filterMap {β : Type*} {key : α → κ} {key' : β → κ}
    {f : α → Option β} {l : List α} (h : Unique key l)
    (hf : ∀ a b, f a = some b → key' b = key a) :
    Unique key' (l.filterMap f) := by
  intro b hb b' hb' hkey
  obtain ⟨a, ha, hfa⟩ := List.mem_filterMap.mp hb
  obtain ⟨a', ha', hfa'⟩ := List.mem_filterMap.mp hb'
  rw [hf a b hfa, hf a' b' hfa'] at hkey
  obtain rfl := h a ha a' ha' hkey
  exact Option.some.inj (hfa.symm.trans hfa')

variable [DecidableEq κ]

def collect (kept : List α) (a : α) : List α :=
  if kept.any fun b => key b = key a then kept else kept ++ [a]

/-- What is kept of a list. -/
def firsts (kept l : List α) : List α :=
  l.foldl (collect key) kept

variable {key} {kept l l' : List α} {a b : α}

theorem collect_of_mem (h : key a ∈ kept.map key) :
    collect key kept a = kept := by
  obtain ⟨b, hb, hkey⟩ := List.mem_map.mp h
  exact if_pos (List.any_eq_true.mpr ⟨b, hb, decide_eq_true hkey⟩)

theorem collect_of_not_mem (h : key a ∉ kept.map key) :
    collect key kept a = kept ++ [a] := by
  refine if_neg fun hany => h ?_
  obtain ⟨b, hb, hkey⟩ := List.any_eq_true.mp hany
  exact List.mem_map.mpr ⟨b, hb, of_decide_eq_true hkey⟩

/-- The keys that are kept are all of them. -/
theorem mem_keys_firsts {k : κ} :
    k ∈ (firsts key kept l).map key ↔ k ∈ kept.map key ∨ k ∈ l.map key := by
  induction l generalizing kept with
  | nil => simp [firsts]
  | cons a l ih =>
      have hstep : firsts key kept (a :: l) =
          firsts key (collect key kept a) l := rfl
      rw [hstep, ih, List.map_cons, List.mem_cons]
      by_cases ha : key a ∈ kept.map key
      · rw [collect_of_mem ha]
        constructor
        · rintro (hk | hk)
          · exact Or.inl hk
          · exact Or.inr (Or.inr hk)
        · rintro (hk | rfl | hk)
          · exact Or.inl hk
          · exact Or.inl ha
          · exact Or.inr hk
      · rw [collect_of_not_mem ha, List.map_append, List.mem_append,
          List.map_singleton, List.mem_singleton, or_assoc]

/-- No key is kept twice. -/
theorem nodup_firsts (h : (kept.map key).Nodup) :
    ((firsts key kept l).map key).Nodup := by
  induction l generalizing kept with
  | nil => exact h
  | cons a l ih =>
      refine ih ?_
      by_cases ha : key a ∈ kept.map key
      · rw [collect_of_mem ha]
        exact h
      · rw [collect_of_not_mem ha, List.map_append, List.map_singleton]
        refine List.nodup_append.mpr ⟨h, List.nodup_singleton _, ?_⟩
        rintro k hk other hother rfl
        obtain rfl := List.mem_singleton.mp hother
        exact ha hk

/-- Of the elements with a new key the first is kept. -/
theorem mem_firsts_of_unique (h : Unique key l) :
    a ∈ firsts key kept l ↔ a ∈ kept ∨ a ∈ l ∧ key a ∉ kept.map key := by
  induction l generalizing kept with
  | nil => simp [firsts]
  | cons b l ih =>
      have hrest : Unique key l := fun c hc d hd =>
        h c (List.mem_cons_of_mem b hc) d (List.mem_cons_of_mem b hd)
      have hstep : firsts key kept (b :: l) =
          firsts key (collect key kept b) l := rfl
      rw [hstep, ih hrest]
      by_cases hb : key b ∈ kept.map key
      · rw [collect_of_mem hb]
        constructor
        · rintro (hkept | ⟨hmem, hnew⟩)
          · exact Or.inl hkept
          · exact Or.inr ⟨List.mem_cons_of_mem b hmem, hnew⟩
        · rintro (hkept | ⟨hmem, hnew⟩)
          · exact Or.inl hkept
          · rcases List.mem_cons.mp hmem with rfl | hmem
            · exact absurd hb hnew
            · exact Or.inr ⟨hmem, hnew⟩
      · rw [collect_of_not_mem hb, List.mem_append, List.mem_singleton,
          List.map_append, List.map_singleton]
        constructor
        · rintro ((hkept | rfl) | ⟨hmem, hnew⟩)
          · exact Or.inl hkept
          · exact Or.inr ⟨List.mem_cons_self, hb⟩
          · exact Or.inr ⟨List.mem_cons_of_mem b hmem,
              fun hold => hnew (List.mem_append_left _ hold)⟩
        · rintro (hkept | ⟨hmem, hnew⟩)
          · exact Or.inl (Or.inl hkept)
          · by_cases hsame : key a = key b
            · exact Or.inl (Or.inr
                (h a hmem b List.mem_cons_self hsame))
            · refine Or.inr ⟨?_, fun hold => ?_⟩
              · rcases List.mem_cons.mp hmem with rfl | hmem
                · exact absurd rfl hsame
                · exact hmem
              · rcases List.mem_append.mp hold with hold | hold
                · exact hnew hold
                · exact hsame (List.mem_singleton.mp hold)

/-- Where each of two lists has one element for a key, the second adds those
with a key of their own. -/
theorem mem_firsts_append (h : Unique key l) (h' : Unique key l') :
    a ∈ firsts key [] (l ++ l') ↔ a ∈ l ∨ a ∈ l' ∧ key a ∉ l.map key := by
  have hsplit : firsts key [] (l ++ l') =
      firsts key (firsts key [] l) l' := List.foldl_append
  have hkeys : key a ∈ (firsts key [] l).map key ↔ key a ∈ l.map key := by
    simp [mem_keys_firsts]
  rw [hsplit, mem_firsts_of_unique h', hkeys, mem_firsts_of_unique h]
  simp

end FirstByKey
