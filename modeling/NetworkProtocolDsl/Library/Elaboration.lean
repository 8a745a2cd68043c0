/-
Definitions elaborated one after another.

A definition gets its meaning from the meanings of the names before it.  It is
an error to define a name twice.
-/
import NetworkProtocolDsl.Library.Assoc

namespace Elaboration

universe u v w

variable {κ : Type u} {δ : Type v} {σ : Type w} [DecidableEq κ]

/-- The meanings of the names, in the order of their definitions. -/
def elaborate (name : δ → κ) (meaning : List (κ × σ) → δ → Option σ) :
    List (κ × σ) → List δ → Option (List (κ × σ))
  | env, [] => some env
  | env, d :: ds =>
      if env.any fun entry => entry.1 = name d then none
      else
        (meaning env d).bind fun value =>
          elaborate name meaning (env ++ [(name d, value)]) ds

variable {name : δ → κ} {meaning : List (κ × σ) → δ → Option σ}
  {env env' new : List (κ × σ)} {d : δ} {ds es : List δ}

theorem any_eq_true_iff {k : κ} :
    (env.any fun entry => entry.1 = k) = true ↔ k ∈ env.map Prod.fst := by
  simp [List.any_eq_true]

theorem elaborate_cons_of_mem (h : name d ∈ env.map Prod.fst) :
    elaborate name meaning env (d :: ds) = none := by
  rw [elaborate, if_pos (any_eq_true_iff.mpr h)]

theorem elaborate_cons_of_not_mem (h : name d ∉ env.map Prod.fst) :
    elaborate name meaning env (d :: ds) =
      (meaning env d).bind fun value =>
        elaborate name meaning (env ++ [(name d, value)]) ds := by
  rw [elaborate, if_neg fun hany => h (any_eq_true_iff.mp hany)]

theorem elaborate_append :
    elaborate name meaning env (ds ++ es) =
      (elaborate name meaning env ds).bind fun env =>
        elaborate name meaning env es := by
  induction ds generalizing env with
  | nil => rfl
  | cons d ds ih =>
      rw [List.cons_append]
      by_cases hmem : name d ∈ env.map Prod.fst
      · rw [elaborate_cons_of_mem hmem, elaborate_cons_of_mem hmem]
        rfl
      · rw [elaborate_cons_of_not_mem hmem, elaborate_cons_of_not_mem hmem,
          Option.bind_assoc]
        simp only [ih]

/-- What was defined stays, and each definition adds its name. -/
theorem exists_of_elaborate (h : elaborate name meaning env ds = some env') :
    ∃ new, env' = env ++ new ∧ new.map Prod.fst = ds.map name := by
  induction ds generalizing env with
  | nil =>
      obtain rfl := Option.some.inj h
      exact ⟨[], (List.append_nil env).symm, rfl⟩
  | cons d ds ih =>
      by_cases hmem : name d ∈ env.map Prod.fst
      · rw [elaborate_cons_of_mem hmem] at h
        contradiction
      · rw [elaborate_cons_of_not_mem hmem] at h
        obtain ⟨value, _, h⟩ := Option.bind_eq_some_iff.mp h
        obtain ⟨new, rfl, hnames⟩ := ih h
        refine ⟨(name d, value) :: new, by simp, ?_⟩
        rw [List.map_cons, List.map_cons, hnames]

/-- No name is defined twice. -/
theorem nodup_of_elaborate (h : elaborate name meaning env ds = some env')
    (hnodup : (env.map Prod.fst).Nodup) : (env'.map Prod.fst).Nodup := by
  induction ds generalizing env with
  | nil =>
      obtain rfl := Option.some.inj h
      exact hnodup
  | cons d ds ih =>
      by_cases hmem : name d ∈ env.map Prod.fst
      · rw [elaborate_cons_of_mem hmem] at h
        contradiction
      · rw [elaborate_cons_of_not_mem hmem] at h
        obtain ⟨value, _, h⟩ := Option.bind_eq_some_iff.mp h
        refine ih h ?_
        rw [List.map_append, List.map_singleton, List.nodup_append]
        refine ⟨hnodup, List.nodup_singleton _, ?_⟩
        rintro k hk other hother rfl
        obtain rfl := List.mem_singleton.mp hother
        exact hmem hk

/-- Where the meanings do not depend on each other, different names are
enough. -/
theorem elaborate_of_forall₂ {f : δ → Option σ} {values : List (κ × σ)}
    (h : List.Forall₂ (fun d value => name d = value.1 ∧ f d = some value.2)
      ds values)
    (hnodup : (env.map Prod.fst ++ ds.map name).Nodup) :
    elaborate name (fun _ => f) env ds = some (env ++ values) := by
  induction h generalizing env with
  | nil => rw [elaborate, List.append_nil]
  | @cons d value ds values hvalue _ ih =>
      obtain ⟨hname, hvalue⟩ := hvalue
      have hmem : name d ∉ env.map Prod.fst := by
        intro hmem
        exact (List.nodup_append.mp hnodup).2.2 _ hmem _
          List.mem_cons_self rfl
      have hrest : ((env ++ [value]).map Prod.fst ++ ds.map name).Nodup := by
        rw [List.map_append, List.map_singleton, List.append_assoc,
          ← hname]
        exact hnodup
      rw [elaborate_cons_of_not_mem hmem, hvalue, Option.bind_some, hname,
        ih hrest, List.append_assoc]
      rfl

end Elaboration
