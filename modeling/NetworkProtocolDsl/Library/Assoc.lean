/-
Finite maps as association lists.

Insertion never replaces a binding, assignment never creates one; the two
together are the operations a scope needs.  The order of the entries carries
no meaning for them, only `List.lookup` does.  Where the order counts a map is
listed by its keys, and `emplace` finds the place of a new one.
-/
import Mathlib.Data.List.Basic
import Mathlib.Data.List.Nodup
import Mathlib.Data.List.Perm.Subperm

namespace Assoc

universe u v

variable {κ : Type u} {β : Type v}

section Lookup

variable [BEq κ] [LawfulBEq κ]

theorem lookup_cons_ne {key k : κ} (h : key ≠ k) (value : β)
    (rest : List (κ × β)) :
    ((k, value) :: rest).lookup key = rest.lookup key := by
  have hbeq : (key == k) = false := beq_eq_false_iff_ne.mpr h
  rw [List.lookup_cons, hbeq]

theorem lookup_append (key : κ) (left right : List (κ × β)) :
    (left ++ right).lookup key = (left.lookup key).or (right.lookup key) := by
  induction left with
  | nil => simp
  | cons entry left ih =>
      obtain ⟨k, v⟩ := entry
      by_cases hk : key = k
      · subst hk
        simp
      · rw [List.cons_append, lookup_cons_ne hk, lookup_cons_ne hk, ih]

theorem lookup_eq_none_of_not_mem {key : κ} {entries : List (κ × β)}
    (h : key ∉ entries.map Prod.fst) : entries.lookup key = none := by
  induction entries with
  | nil => rfl
  | cons entry entries ih =>
      obtain ⟨k, v⟩ := entry
      rw [List.map_cons, List.mem_cons, not_or] at h
      rw [lookup_cons_ne h.1, ih h.2]

/-- Without duplicate keys an entry is what its key is bound to. -/
theorem lookup_of_mem {entry : κ × β} {entries : List (κ × β)}
    (hnodup : (entries.map Prod.fst).Nodup) (h : entry ∈ entries) :
    entries.lookup entry.1 = some entry.2 := by
  induction entries with
  | nil => contradiction
  | cons first entries ih =>
      rw [List.map_cons, List.nodup_cons] at hnodup
      rcases List.mem_cons.mp h with rfl | hmem
      · exact List.lookup_cons_self
      · have hne : entry.1 ≠ first.1 := by
          intro heq
          exact hnodup.1 (heq ▸ List.mem_map_of_mem hmem)
        rw [lookup_cons_ne hne, ih hnodup.2 hmem]

theorem mem_of_lookup {key : κ} {value : β} {entries : List (κ × β)}
    (h : entries.lookup key = some value) : (key, value) ∈ entries := by
  obtain ⟨before, after, rfl, _⟩ := List.lookup_eq_some_iff.mp h
  exact List.mem_append_right before List.mem_cons_self

/-- Without duplicate keys a list that binds one key only has one entry. -/
theorem eq_singleton {key : κ} {value : β} {entries : List (κ × β)}
    (hnodup : (entries.map Prod.fst).Nodup)
    (hvalue : entries.lookup key = some value)
    (hother : ∀ k, k ≠ key → entries.lookup k = none) :
    entries = [(key, value)] := by
  have hkeys : ∀ entry ∈ entries, entry = (key, value) := by
    intro entry hentry
    have hentry := lookup_of_mem hnodup hentry
    by_cases hkey : entry.1 = key
    · rw [hkey, hvalue] at hentry
      exact Prod.ext hkey (Option.some.inj hentry).symm
    · rw [hother entry.1 hkey] at hentry
      contradiction
  have hmem := mem_of_lookup hvalue
  match entries, hnodup, hkeys, hmem with
  | [entry], _, hkeys, _ => rw [hkeys entry List.mem_cons_self]
  | first :: second :: rest, hnodup, hkeys, _ =>
      have hfirst := hkeys first List.mem_cons_self
      have hsecond := hkeys second
        (List.mem_cons_of_mem first List.mem_cons_self)
      rw [hfirst, hsecond] at hnodup
      simp at hnodup

end Lookup

variable [DecidableEq κ]

/-- Bind `key` unless it is bound already. -/
def insert (key : κ) (value : β) (entries : List (κ × β)) : List (κ × β) :=
  match entries.lookup key with
  | some _ => entries
  | none => entries ++ [(key, value)]

/-- Replace the value bound to `key`; nothing happens when it is unbound. -/
def assign (key : κ) (value : β) : List (κ × β) → List (κ × β)
  | [] => []
  | (k, v) :: rest =>
      if key = k then (k, value) :: rest else (k, v) :: assign key value rest

/-- Drop every entry of `key`, then bind it. -/
def overwrite (key : κ) (value : β) (entries : List (κ × β)) :
    List (κ × β) :=
  entries.filter (fun entry => entry.1 ≠ key) ++ [(key, value)]

section Overwrite

variable [BEq κ] [LawfulBEq κ]

theorem lookup_filter_ne (key : κ) (entries : List (κ × β)) :
    (entries.filter (fun entry => entry.1 ≠ key)).lookup key = none := by
  induction entries with
  | nil => rfl
  | cons entry entries ih =>
      obtain ⟨k, v⟩ := entry
      by_cases hk : k = key
      · simpa [List.filter, hk] using ih
      · have hne : key ≠ k := fun h => hk h.symm
        simp only [ne_eq, decide_not] at ih
        simp [List.filter, hk, lookup_cons_ne hne, ih]

theorem lookup_filter_of_ne {key other : κ} (h : other ≠ key)
    (entries : List (κ × β)) :
    (entries.filter (fun entry => entry.1 ≠ key)).lookup other =
      entries.lookup other := by
  induction entries with
  | nil => rfl
  | cons entry entries ih =>
      obtain ⟨k, v⟩ := entry
      simp only [ne_eq, decide_not] at ih
      by_cases hk : k = key
      · subst hk
        simpa [List.filter, lookup_cons_ne h] using ih
      · by_cases ho : other = k
        · subst ho
          simp [List.filter, hk]
        · simp [List.filter, hk, lookup_cons_ne ho, ih]

@[simp] theorem lookup_overwrite_self (key : κ) (value : β)
    (entries : List (κ × β)) :
    (overwrite key value entries).lookup key = some value := by
  rw [overwrite, lookup_append, lookup_filter_ne, List.lookup_cons_self]
  rfl

@[simp] theorem lookup_overwrite_ne {key other : κ} (h : other ≠ key)
    (value : β) (entries : List (κ × β)) :
    (overwrite key value entries).lookup other = entries.lookup other := by
  rw [overwrite, lookup_append, lookup_filter_of_ne h, lookup_cons_ne h,
    List.lookup_nil, Option.or_none]

end Overwrite

theorem nodup_overwrite (key : κ) (value : β) {entries : List (κ × β)}
    (h : (entries.map Prod.fst).Nodup) :
    ((overwrite key value entries).map Prod.fst).Nodup := by
  rw [overwrite, List.map_append, List.map_singleton]
  rw [List.nodup_append]
  refine ⟨h.sublist (List.filter_sublist.map Prod.fst), by simp, ?_⟩
  intro k hk other hother
  obtain rfl := List.mem_singleton.mp hother
  obtain ⟨entry, hentry, rfl⟩ := List.mem_map.mp hk
  exact of_decide_eq_true (List.mem_filter.mp hentry).2

@[simp] theorem lookup_insert_self (key : κ) (value : β)
    (entries : List (κ × β)) :
    (insert key value entries).lookup key =
      some ((entries.lookup key).getD value) := by
  unfold insert
  cases h : entries.lookup key with
  | some old => simp [h]
  | none => simp [lookup_append, h]

@[simp] theorem lookup_insert_ne {key other : κ} (h : other ≠ key)
    (value : β) (entries : List (κ × β)) :
    (insert key value entries).lookup other = entries.lookup other := by
  unfold insert
  cases hk : entries.lookup key with
  | some old => rfl
  | none =>
      rw [lookup_append, lookup_cons_ne h, List.lookup_nil, Option.or_none]

theorem nodup_insert (key : κ) (value : β) {entries : List (κ × β)}
    (h : (entries.map Prod.fst).Nodup) :
    ((insert key value entries).map Prod.fst).Nodup := by
  unfold insert
  cases hk : entries.lookup key with
  | some old => exact h
  | none =>
      rw [List.map_append, List.map_singleton, List.nodup_append]
      refine ⟨h, by simp, ?_⟩
      rintro k hmem other hother rfl
      obtain rfl := List.mem_singleton.mp hother
      obtain ⟨entry, hentry, hkey⟩ := List.mem_map.mp hmem
      have hne := List.lookup_eq_none_iff.mp hk entry hentry
      simp [hkey] at hne

@[simp] theorem lookup_assign_ne {key other : κ} (h : other ≠ key)
    (value : β) (entries : List (κ × β)) :
    (assign key value entries).lookup other = entries.lookup other := by
  induction entries with
  | nil => rfl
  | cons entry entries ih =>
      obtain ⟨k, v⟩ := entry
      by_cases hk : key = k
      · subst hk
        simp [assign, lookup_cons_ne h]
      · by_cases ho : other = k
        · subst ho
          simp [assign, hk]
        · simp only [assign, hk, ↓reduceIte]
          rw [lookup_cons_ne ho, lookup_cons_ne ho, ih]

@[simp] theorem lookup_assign_self (key : κ) (value : β)
    (entries : List (κ × β)) :
    (assign key value entries).lookup key =
      (entries.lookup key).map fun _ => value := by
  induction entries with
  | nil => rfl
  | cons entry entries ih =>
      obtain ⟨k, v⟩ := entry
      by_cases hk : key = k
      · subst hk
        simp [assign]
      · simp only [assign, hk, ↓reduceIte]
        rw [lookup_cons_ne hk, lookup_cons_ne hk, ih]

theorem map_fst_assign (key : κ) (value : β) (entries : List (κ × β)) :
    (assign key value entries).map Prod.fst = entries.map Prod.fst := by
  induction entries with
  | nil => rfl
  | cons entry entries ih =>
      obtain ⟨k, v⟩ := entry
      by_cases hk : key = k <;> simp [assign, hk, ih]

section Ordered

variable {κ : Type u} [LT κ]

/-- Listed in the order of the keys, each key once. -/
def Sorted (entries : List (κ × β)) : Prop :=
  (entries.map Prod.fst).Pairwise (· < ·)

theorem Sorted.nodup [Std.Asymm (α := κ) (· < ·)]
    {entries : List (κ × β)} (h : Sorted entries) :
    (entries.map Prod.fst).Nodup :=
  List.Pairwise.imp (fun hlt heq => by
    subst heq
    exact Std.Asymm.asymm _ _ hlt hlt) h

variable [DecidableLT κ]

/-- Bind `key` in its place unless it is bound already. -/
def emplace (key : κ) (value : β) : List (κ × β) → List (κ × β)
  | [] => [(key, value)]
  | (k, v) :: rest =>
      if key < k then (key, value) :: (k, v) :: rest
      else if k < key then (k, v) :: emplace key value rest
      else (k, v) :: rest

/-- The map the pairs give; of two with one key the first counts. -/
def ofPairs (pairs : List (κ × β)) : List (κ × β) :=
  pairs.foldl (fun entries pair => emplace pair.1 pair.2 entries) []

theorem mem_emplace {key : κ} {value : β} {entry : κ × β}
    {entries : List (κ × β)} (h : entry ∈ emplace key value entries) :
    entry = (key, value) ∨ entry ∈ entries := by
  induction entries with
  | nil => exact Or.inl (List.mem_singleton.mp h)
  | cons first entries ih =>
      unfold emplace at h
      split at h
      · exact List.mem_cons.mp h
      · split at h
        · rcases List.mem_cons.mp h with rfl | hmem
          · exact Or.inr List.mem_cons_self
          · exact (ih hmem).imp_right (List.mem_cons_of_mem first)
        · exact Or.inr h

theorem foldl_emplace_induction {P : κ × β → Prop} {pairs : List (κ × β)}
    (h : ∀ pair ∈ pairs, P pair) {entries : List (κ × β)}
    (hentries : ∀ entry ∈ entries, P entry) :
    ∀ entry ∈ pairs.foldl (fun entries pair => emplace pair.1 pair.2 entries)
      entries, P entry := by
  induction pairs generalizing entries with
  | nil => exact hentries
  | cons pair pairs ih =>
      apply ih (fun other hother => h other (List.mem_cons_of_mem pair hother))
      intro entry hentry
      rcases mem_emplace hentry with rfl | hmem
      · exact h pair List.mem_cons_self
      · exact hentries entry hmem

/-- Every entry of the map is one of the pairs. -/
theorem mem_ofPairs {entry : κ × β} {pairs : List (κ × β)}
    (h : entry ∈ ofPairs pairs) : entry ∈ pairs :=
  foldl_emplace_induction (fun _ hpair => hpair)
    (fun _ hnil => absurd hnil List.not_mem_nil) entry h

section Transitive

variable [Trans (α := κ) (β := κ) (γ := κ) (· < ·) (· < ·) (· < ·)]

theorem sorted_emplace (key : κ) (value : β) {entries : List (κ × β)}
    (h : Sorted entries) : Sorted (emplace key value entries) := by
  induction entries with
  | nil => exact List.pairwise_singleton _ _
  | cons first entries ih =>
      obtain ⟨hfirst, hrest⟩ := List.pairwise_cons.mp h
      unfold emplace
      split
      · rename_i hlt
        refine List.pairwise_cons.mpr ⟨?_, h⟩
        intro k hk
        rcases List.mem_cons.mp hk with rfl | hk
        · exact hlt
        · exact Trans.trans hlt (hfirst k hk)
      · split
        · rename_i hlt
          refine List.pairwise_cons.mpr ⟨?_, ih hrest⟩
          intro k hk
          obtain ⟨entry, hentry, rfl⟩ := List.mem_map.mp hk
          rcases mem_emplace hentry with rfl | hmem
          · exact hlt
          · exact hfirst entry.1 (List.mem_map_of_mem hmem)
        · exact h

theorem sorted_ofPairs (pairs : List (κ × β)) : Sorted (ofPairs pairs) := by
  have hfold : ∀ entries : List (κ × β), Sorted entries →
      Sorted (pairs.foldl
        (fun entries pair => emplace pair.1 pair.2 entries) entries) := by
    induction pairs with
    | nil => exact fun _ h => h
    | cons pair pairs ih =>
        exact fun entries h => ih _ (sorted_emplace pair.1 pair.2 h)
  exact hfold [] List.Pairwise.nil

/-- Where no pair is dropped no two have one key. -/
theorem nodup_of_length_ofPairs [Std.Asymm (α := κ) (· < ·)]
    {pairs : List (κ × β)} (h : (ofPairs pairs).length = pairs.length) :
    (pairs.map Prod.fst).Nodup := by
  have hnodup := (sorted_ofPairs pairs).nodup
  have hsubset : (ofPairs pairs).map Prod.fst ⊆ pairs.map Prod.fst :=
    List.map_subset _ fun _ hentry => mem_ofPairs hentry
  have hperm := (hnodup.subperm hsubset).perm_of_length_le (by simp [h])
  exact hperm.nodup_iff.mp hnodup

end Transitive

section Trichotomous

variable [Std.Trichotomous (α := κ) (· < ·)]

theorem perm_emplace {key : κ} (value : β) {entries : List (κ × β)}
    (h : ∀ entry ∈ entries, entry.1 ≠ key) :
    (emplace key value entries).Perm ((key, value) :: entries) := by
  induction entries with
  | nil => exact List.Perm.refl _
  | cons first entries ih =>
      have hne := h first List.mem_cons_self
      unfold emplace
      split_ifs with hlt hgt
      · exact List.Perm.refl _
      · exact ((ih fun entry hentry =>
          h entry (List.mem_cons_of_mem first hentry)).cons first).trans
            (List.Perm.swap _ _ _)
      · exact absurd (Std.Trichotomous.trichotomous _ _ hgt hlt) hne

/-- Pairs with different keys are all in the map. -/
theorem perm_ofPairs {pairs : List (κ × β)}
    (h : (pairs.map Prod.fst).Nodup) : (ofPairs pairs).Perm pairs := by
  have hfold : ∀ entries : List (κ × β),
      ((pairs ++ entries).map Prod.fst).Nodup →
      (pairs.foldl (fun entries pair => emplace pair.1 pair.2 entries)
        entries).Perm (pairs ++ entries) := by
    clear h
    induction pairs with
    | nil => exact fun entries _ => List.Perm.refl _
    | cons pair pairs ih =>
        intro entries hnodup
        have hmiddle : (pairs ++ pair :: entries).Perm
            (pair :: pairs ++ entries) := List.perm_middle
        have hnew : ∀ entry ∈ entries, entry.1 ≠ pair.1 := by
          rw [List.cons_append, List.map_cons, List.nodup_cons] at hnodup
          intro entry hentry heq
          exact hnodup.1 (heq ▸ List.mem_map_of_mem
            (List.mem_append_right pairs hentry))
        have hperm := perm_emplace pair.2 hnew
        have hnodup' : ((pairs ++ emplace pair.1 pair.2 entries).map
            Prod.fst).Nodup :=
          (((hperm.append_left pairs).trans hmiddle).map
            Prod.fst).nodup_iff.mpr hnodup
        exact (ih _ hnodup').trans ((hperm.append_left pairs).trans hmiddle)
  have hall := hfold [] (by simpa using h)
  rw [List.append_nil] at hall
  exact hall

theorem mem_ofPairs_iff {pairs : List (κ × β)}
    (h : (pairs.map Prod.fst).Nodup) {pair : κ × β} :
    pair ∈ ofPairs pairs ↔ pair ∈ pairs :=
  (perm_ofPairs h).mem_iff

/-- The map binds the key of a pair to its value and to nothing else. -/
theorem mem_ofPairs_iff_eq {pairs : List (κ × β)}
    (h : (pairs.map Prod.fst).Nodup) {key : κ} {value : β}
    (hmem : (key, value) ∈ pairs) (other : β) :
    (key, other) ∈ ofPairs pairs ↔ other = value := by
  rw [mem_ofPairs_iff h]
  constructor
  · intro hother
    have heq := List.inj_on_of_nodup_map h hother hmem rfl
    exact congrArg Prod.snd heq
  · intro heq
    rw [heq]
    exact hmem

theorem length_ofPairs {pairs : List (κ × β)}
    (h : (pairs.map Prod.fst).Nodup) :
    (ofPairs pairs).length = pairs.length :=
  (perm_ofPairs h).length_eq

end Trichotomous

variable [Std.Asymm (α := κ) (· < ·)]

theorem emplace_last {key : κ} (value : β) {entries : List (κ × β)}
    (h : ∀ entry ∈ entries, entry.1 < key) :
    emplace key value entries = entries ++ [(key, value)] := by
  induction entries with
  | nil => rfl
  | cons first entries ih =>
      have hlt : first.1 < key := h first List.mem_cons_self
      have hnot : ¬ key < first.1 := Std.Asymm.asymm _ _ hlt
      rw [emplace, if_neg hnot, if_pos hlt,
        ih fun entry hentry => h entry (List.mem_cons_of_mem first hentry)]
      rfl

/-- Pairs that are listed in the order of their keys are the map. -/
theorem ofPairs_of_sorted {entries : List (κ × β)} (h : Sorted entries) :
    ofPairs entries = entries := by
  have hfold : ∀ rest before : List (κ × β), Sorted (before ++ rest) →
      rest.foldl (fun entries pair => emplace pair.1 pair.2 entries) before =
        before ++ rest := by
    intro rest
    induction rest with
    | nil => exact fun before _ => (List.append_nil before).symm
    | cons pair rest ih =>
        intro before hsorted
        have hbefore : ∀ entry ∈ before, entry.1 < pair.1 := by
          intro entry hentry
          rw [Sorted, List.map_append, List.pairwise_append] at hsorted
          exact hsorted.2.2 entry.1 (List.mem_map_of_mem hentry) pair.1
            (by simp)
        rw [List.foldl_cons, emplace_last pair.2 hbefore]
        rw [ih (before ++ [pair]) (by simpa using hsorted)]
        simp
  exact hfold entries [] h

end Ordered

end Assoc
