/-
Recursive descent that is driven by a table.

For what a class has matched so far the table says how the class goes on: it
takes a token, recurses into another class once, perhaps, for the first of
several or over and over, or it is done.  The descent ends on every input where
a class consumes something before it is done, and recurses before it has
consumed anything into classes of lower rank only.
-/
import Mathlib.Data.List.Basic
import Mathlib.Data.Prod.Lex
import Mathlib.Logic.Relation

namespace Descent

universe u v w

variable {N : Type u} {T : Type v} {V : Type w}

/-- One step of what a class has matched. -/
inductive Matched (T : Type v) (V : Type w) where
  | token (token : T)
  | node (node : V)
  | nodes (nodes : List V)
  | nothing
  | endOfInput

/-- How a class goes on. -/
inductive Rule (N : Type u) (T : Type v) (V : Type w) where
  | partialMatch
  | conditionalPartialMatch (holds : Bool)
  | recurseOne (item : N)
  | recurseMaybe (item : N)
  | recurseAny (items : List N)
  | recurseMany (item : N) (separator : Option (T → Bool))
  | done (node : Option V)
  | unknown

abbrev Table (N : Type u) (T : Type v) (V : Type w) :=
  N → List (Matched T V) → Rule N T V

/-- The node, if there is one, and where the descent has come to. -/
abbrev Outcome (T : Type v) (V : Type w) := Option V × List T

/-- The first class that gives a node; without fuel there is no outcome. -/
def tryAny (self : N → List T → Option (Outcome T V)) :
    List N → List T → Option (Outcome T V)
  | [], input => some (none, input)
  | [item], input => self item input
  | item :: items, input =>
      match self item input with
      | none => none
      | some (some node, rest) => some (some node, rest)
      | some (none, _) => tryAny self items input

/-- What follows an item: another one at the rest, after a separator if there
has to be one. -/
def afterItem (separator : Option (T → Bool)) (rest : List T) :
    Option (List T) :=
  match rest with
  | [] => none
  | token :: next =>
      match separator with
      | none => some (token :: next)
      | some isSeparator => if isSeparator token then some next else none

/-- As many items as there are. -/
def repeatMany (self : List T → Option (Outcome T V))
    (separator : Option (T → Bool)) : Nat → List T → Option (List V × List T)
  | 0, _ => none
  | fuel + 1, input =>
      if input.isEmpty then some ([], input)
      else
        match self input with
        | none => none
        | some (none, _) => some ([], input)
        | some (some node, rest) =>
            match afterItem separator rest with
            | none => some ([node], rest)
            | some next =>
                (repeatMany self separator fuel next).map fun result =>
                  (node :: result.1, result.2)

/-- Take a token if there is one. -/
def takeToken (go : Matched T V → List T → Option (Outcome T V)) :
    List T → Option (Outcome T V)
  | [] => go .endOfInput []
  | token :: rest => go (.token token) rest

/-- Go on with the node of another class, or where there is none. -/
def withNode (go : Matched T V → List T → Option (Outcome T V))
    (without : List T → Option (Outcome T V)) :
    Option (Outcome T V) → Option (Outcome T V)
  | none => none
  | some (none, rest) => without rest
  | some (some node, rest) => go (.node node) rest

/-- What the rule for what was matched does. -/
def step (table : Table N T V)
    (self : N → List (Matched T V) → List T → Option (Outcome T V))
    (fuel : Nat) (n : N) (matched : List (Matched T V)) (input : List T) :
    Option (Outcome T V) :=
  let go := fun last rest => self n (matched ++ [last]) rest
  match table n matched with
  | .partialMatch => takeToken go input
  | .conditionalPartialMatch holds =>
      if holds ∨ input = [] then takeToken go input else some (none, input)
  | .recurseOne item =>
      withNode go (fun rest => some (none, rest)) (self item [] input)
  | .recurseMaybe item =>
      withNode go (fun _ => go .nothing input) (self item [] input)
  | .recurseAny items =>
      withNode go (fun rest => some (none, rest))
        (tryAny (fun item => self item []) items input)
  | .recurseMany item separator =>
      (repeatMany (self item []) separator fuel input).bind fun result =>
        go (.nodes result.1) result.2
  | .done node => some (node, input)
  | .unknown => some (none, input)

/-- The descent of a class that has matched so much, with this much fuel. -/
def descend (table : Table N T V) :
    Nat → N → List (Matched T V) → List T → Option (Outcome T V)
  | 0 => fun _ _ _ => none
  | fuel + 1 => step table (descend table fuel) fuel

/-- Whether a token was consumed for the step. -/
def Matched.consumes : Matched T V → Bool
  | .token _ | .node _ => true
  | .nodes values => !values.isEmpty
  | .nothing | .endOfInput => false

def consumed (matched : List (Matched T V)) : Bool :=
  matched.any Matched.consumes

/-- The classes a rule recurses into. -/
def Rule.recurses : Rule N T V → List N
  | .recurseOne item | .recurseMaybe item | .recurseMany item _ => [item]
  | .recurseAny items => items
  | _ => []

def Rule.goesOn : Rule N T V → Bool
  | .done _ | .unknown => false
  | _ => true

/-- A class consumes something before it is done; before that it recurses into
classes of lower rank; it does not go on for ever. -/
structure Ranked (table : Table N T V) (rank : N → Nat) (width : Nat) :
    Prop where
  lower : ∀ n matched item, consumed matched = false →
    item ∈ (table n matched).recurses → rank item < rank n
  consumes : ∀ n matched node, table n matched = .done (some node) →
    consumed matched = true
  bounded : ∀ n matched, (table n matched).goesOn = true →
    matched.length < width

/-- The tokens that are left, and one more once something was consumed. -/
def remaining (matched : List (Matched T V)) (input : List T) : Nat :=
  input.length + (consumed matched).toNat

section Remaining

variable {matched : List (Matched T V)} {input rest : List T}

@[simp] theorem remaining_nil (input : List T) :
    remaining ([] : List (Matched T V)) input = input.length := rfl

theorem remaining_append (matched : List (Matched T V)) (last : Matched T V)
    (input : List T) :
    remaining (matched ++ [last]) input =
      input.length + (consumed matched || last.consumes).toNat := by
  simp [remaining, consumed]

theorem length_le_remaining : input.length ≤ remaining matched input :=
  Nat.le_add_right _ _

theorem remaining_le_succ : remaining matched input ≤ input.length + 1 := by
  have hle := Bool.toNat_le (consumed matched)
  simp only [remaining]
  omega

/-- A step that consumes takes a token from what remains. -/
theorem remaining_append_le (last : Matched T V)
    (h : rest.length < input.length) :
    remaining (matched ++ [last]) rest ≤ remaining matched input := by
  have hle : remaining (matched ++ [last]) rest ≤ rest.length + 1 :=
    remaining_le_succ
  have hge : input.length ≤ remaining matched input := length_le_remaining
  omega

theorem remaining_append_eq {last : Matched T V} (h : last.consumes = false) :
    remaining (matched ++ [last]) input = remaining matched input := by
  rw [remaining_append, h, Bool.or_false, remaining]

end Remaining

section Fuel

variable {table : Table N T V}

/-- What one parser gives the other gives as well. -/
def Below (self self' : List T → Option (Outcome T V)) : Prop :=
  ∀ input result, self input = some result → self' input = some result

theorem tryAny_below {self self' : N → List T → Option (Outcome T V)}
    (hself : ∀ item, Below (self item) (self' item)) (items : List N) :
    Below (tryAny self items) (tryAny self' items) := by
  intro input result h
  induction items, input using tryAny.induct self with
  | case1 input => exact h
  | case2 item input => exact hself item input result h
  | case3 item items input hne hnone =>
      rw [tryAny.eq_3 _ _ _ _ hne, hnone] at h
      contradiction
  | case4 item items input hne node rest hsome =>
      rw [tryAny.eq_3 _ _ _ _ hne] at h ⊢
      rw [hself item input _ hsome]
      rw [hsome] at h
      exact h
  | case5 item items input hne rest hfail ih =>
      rw [tryAny.eq_3 _ _ _ _ hne] at h ⊢
      rw [hself item input _ hfail]
      rw [hfail] at h
      exact ih h

theorem repeatMany_below {self self' : List T → Option (Outcome T V)}
    (hself : Below self self') (separator : Option (T → Bool))
    {fuel fuel' : Nat} (hfuel : fuel ≤ fuel') {input : List T}
    {result : List V × List T}
    (h : repeatMany self separator fuel input = some result) :
    repeatMany self' separator fuel' input = some result := by
  induction fuel generalizing fuel' input result with
  | zero => contradiction
  | succ fuel ih =>
      cases fuel' with
      | zero => contradiction
      | succ fuel' =>
          rw [repeatMany] at h ⊢
          split at h
          · rename_i hempty
            rw [if_pos hempty]
            exact h
          · rename_i hempty
            rw [if_neg hempty]
            cases hitem : self input with
            | none =>
                rw [hitem] at h
                contradiction
            | some item =>
                obtain ⟨node, rest⟩ := item
                rw [hself input _ hitem]
                rw [hitem] at h
                cases node with
                | none => exact h
                | some node =>
                    cases hafter : afterItem separator rest with
                    | none =>
                        simp only [hafter] at h ⊢
                        exact h
                    | some next =>
                        simp only [hafter] at h ⊢
                        obtain ⟨others, hothers, rfl⟩ :=
                          Option.map_eq_some_iff.mp h
                        rw [ih (Nat.le_of_succ_le_succ hfuel) hothers]
                        rfl

theorem takeToken_below
    {go go' : Matched T V → List T → Option (Outcome T V)}
    (hgo : ∀ last, Below (go last) (go' last)) :
    Below (takeToken go) (takeToken go') := by
  intro input result h
  cases input with
  | nil => exact hgo .endOfInput [] result h
  | cons token rest => exact hgo (.token token) rest result h

theorem withNode_below
    {go go' : Matched T V → List T → Option (Outcome T V)}
    {without without' : List T → Option (Outcome T V)}
    {outcome outcome' : Option (Outcome T V)} {result : Outcome T V}
    (hgo : ∀ last, Below (go last) (go' last))
    (hwithout : Below without without')
    (houtcome : ∀ first, outcome = some first → outcome' = some first)
    (h : withNode go without outcome = some result) :
    withNode go' without' outcome' = some result := by
  cases outcome with
  | none => contradiction
  | some first =>
      rw [houtcome first rfl]
      obtain ⟨node, rest⟩ := first
      cases node with
      | none => exact hwithout rest result h
      | some node => exact hgo (.node node) rest result h

theorem step_below {self self' : N → List (Matched T V) → List T →
      Option (Outcome T V)}
    (hself : ∀ n matched, Below (self n matched) (self' n matched))
    {fuel fuel' : Nat} (hfuel : fuel ≤ fuel') (n : N)
    (matched : List (Matched T V)) :
    Below (step table self fuel n matched)
      (step table self' fuel' n matched) := by
  have hgo : ∀ last, Below (fun rest => self n (matched ++ [last]) rest)
      (fun rest => self' n (matched ++ [last]) rest) :=
    fun last => hself n (matched ++ [last])
  have hfail : Below (fun rest => some ((none : Option V), rest))
      (fun rest : List T => some (none, rest)) := fun _ _ h => h
  intro input result h
  unfold step at h ⊢
  cases hrule : table n matched with
  | partialMatch =>
      simp only [hrule] at h ⊢
      exact takeToken_below hgo input result h
  | conditionalPartialMatch holds =>
      simp only [hrule] at h ⊢
      split at h
      · rename_i htake
        rw [if_pos htake]
        exact takeToken_below hgo input result h
      · rename_i htake
        rw [if_neg htake]
        exact h
  | recurseOne item =>
      simp only [hrule] at h ⊢
      exact withNode_below hgo hfail (hself item [] input) h
  | recurseMaybe item =>
      simp only [hrule] at h ⊢
      exact withNode_below hgo (fun _ => hgo .nothing input)
        (hself item [] input) h
  | recurseAny items =>
      simp only [hrule] at h ⊢
      exact withNode_below hgo hfail
        (tryAny_below (fun item => hself item []) items input) h
  | recurseMany item separator =>
      simp only [hrule] at h ⊢
      obtain ⟨⟨nodes, rest⟩, hmany, hrest⟩ := Option.bind_eq_some_iff.mp h
      rw [repeatMany_below (hself item []) separator hfuel hmany]
      exact hgo (.nodes nodes) rest result hrest
  | done node | unknown =>
      simp only [hrule] at h ⊢
      exact h

/-- More fuel changes no outcome. -/
theorem descend_mono {fuel fuel' : Nat} (h : fuel ≤ fuel') (n : N)
    (matched : List (Matched T V)) :
    Below (descend table fuel n matched) (descend table fuel' n matched) := by
  induction fuel generalizing fuel' n matched with
  | zero =>
      intro input result h
      contradiction
  | succ fuel ih =>
      cases fuel' with
      | zero => contradiction
      | succ fuel' =>
          have hle := Nat.le_of_succ_le_succ h
          exact step_below (fun n matched => ih hle n matched) hle n matched

/-- With enough fuel the descent comes to this outcome. -/
def Descends (table : Table N T V) (n : N) (matched : List (Matched T V))
    (input : List T) (outcome : Outcome T V) : Prop :=
  ∃ fuel, descend table fuel n matched input = some outcome

/-- With enough fuel these items are found, and this is left. -/
def Repeats (table : Table N T V) (item : N) (separator : Option (T → Bool))
    (input : List T) (nodes : List V) (rest : List T) : Prop :=
  ∃ fuel, repeatMany (descend table fuel item []) separator fuel input =
    some (nodes, rest)

/-- The first of the classes that gives a node comes to this outcome. -/
def Tries (table : Table N T V) (items : List N) (input : List T)
    (outcome : Outcome T V) : Prop :=
  ∃ fuel, tryAny (fun item => descend table fuel item []) items input =
    some outcome

theorem Descends.unique {n : N} {matched : List (Matched T V)}
    {input : List T} {outcome outcome' : Outcome T V}
    (h : Descends table n matched input outcome)
    (h' : Descends table n matched input outcome') : outcome = outcome' := by
  obtain ⟨fuel, h⟩ := h
  obtain ⟨fuel', h'⟩ := h'
  have hmax := descend_mono (Nat.le_max_left fuel fuel') n matched _ _ h
  have hmax' := descend_mono (Nat.le_max_right fuel fuel') n matched _ _ h'
  exact Option.some.inj (hmax.symm.trans hmax')

end Fuel

section Rules

variable {table : Table N T V} {n item : N} {items : List N}
  {matched : List (Matched T V)} {input rest next : List T} {token : T}
  {node : V} {nodes : List V} {separator : Option (T → Bool)}
  {outcome : Outcome T V}

theorem Descends.takes (hrule : table n matched = .partialMatch ∨
      table n matched = .conditionalPartialMatch true)
    (h : Descends table n (matched ++ [.token token]) rest outcome) :
    Descends table n matched (token :: rest) outcome := by
  obtain ⟨fuel, h⟩ := h
  refine ⟨fuel + 1, ?_⟩
  rcases hrule with hrule | hrule
  · simpa only [descend, step, hrule, takeToken] using h
  · simpa only [descend, step, hrule, takeToken, true_or, ↓reduceIte] using h

theorem Descends.ends_of_empty (hrule : table n matched = .partialMatch ∨
      ∃ holds, table n matched = .conditionalPartialMatch holds)
    (h : Descends table n (matched ++ [.endOfInput]) [] outcome) :
    Descends table n matched [] outcome := by
  obtain ⟨fuel, h⟩ := h
  refine ⟨fuel + 1, ?_⟩
  rcases hrule with hrule | ⟨holds, hrule⟩
  · simpa only [descend, step, hrule, takeToken] using h
  · simpa only [descend, step, hrule, takeToken, or_true, ↓reduceIte] using h

theorem Descends.condition_fails
    (hrule : table n matched = .conditionalPartialMatch false)
    (token : T) (rest : List T) :
    Descends table n matched (token :: rest) (none, token :: rest) := by
  refine ⟨1, ?_⟩
  simp only [descend, step, hrule]
  exact if_neg (by simp)

theorem Descends.one (hrule : table n matched = .recurseOne item)
    (hitem : Descends table item [] input (some node, rest))
    (h : Descends table n (matched ++ [.node node]) rest outcome) :
    Descends table n matched input outcome := by
  obtain ⟨fuel, hitem⟩ := hitem
  obtain ⟨fuel', h⟩ := h
  refine ⟨max fuel fuel' + 1, ?_⟩
  simp only [descend, step, hrule,
    descend_mono (Nat.le_max_left fuel fuel') item [] _ _ hitem]
  exact descend_mono (Nat.le_max_right fuel fuel') n _ _ _ h

theorem Descends.one_fails (hrule : table n matched = .recurseOne item)
    (hitem : Descends table item [] input (none, rest)) :
    Descends table n matched input (none, rest) := by
  obtain ⟨fuel, hitem⟩ := hitem
  refine ⟨fuel + 1, ?_⟩
  simp only [descend, step, hrule, hitem]
  rfl

theorem Descends.maybe (hrule : table n matched = .recurseMaybe item)
    (hitem : Descends table item [] input (some node, rest))
    (h : Descends table n (matched ++ [.node node]) rest outcome) :
    Descends table n matched input outcome := by
  obtain ⟨fuel, hitem⟩ := hitem
  obtain ⟨fuel', h⟩ := h
  refine ⟨max fuel fuel' + 1, ?_⟩
  simp only [descend, step, hrule,
    descend_mono (Nat.le_max_left fuel fuel') item [] _ _ hitem]
  exact descend_mono (Nat.le_max_right fuel fuel') n _ _ _ h

theorem Descends.maybe_fails (hrule : table n matched = .recurseMaybe item)
    (hitem : Descends table item [] input (none, rest))
    (h : Descends table n (matched ++ [.nothing]) input outcome) :
    Descends table n matched input outcome := by
  obtain ⟨fuel, hitem⟩ := hitem
  obtain ⟨fuel', h⟩ := h
  refine ⟨max fuel fuel' + 1, ?_⟩
  simp only [descend, step, hrule,
    descend_mono (Nat.le_max_left fuel fuel') item [] _ _ hitem]
  exact descend_mono (Nat.le_max_right fuel fuel') n _ _ _ h

theorem tries_mono {fuel fuel' : Nat} (hle : fuel ≤ fuel')
    (h : tryAny (fun item => descend table fuel item []) items input =
      some outcome) :
    tryAny (fun item => descend table fuel' item []) items input =
      some outcome :=
  tryAny_below (fun item => descend_mono hle item []) items input outcome h

theorem Descends.any (hrule : table n matched = .recurseAny items)
    (hitem : Tries table items input (some node, rest))
    (h : Descends table n (matched ++ [.node node]) rest outcome) :
    Descends table n matched input outcome := by
  obtain ⟨fuel, hitem⟩ := hitem
  obtain ⟨fuel', h⟩ := h
  refine ⟨max fuel fuel' + 1, ?_⟩
  simp only [descend, step, hrule,
    tries_mono (Nat.le_max_left fuel fuel') hitem]
  exact descend_mono (Nat.le_max_right fuel fuel') n _ _ _ h

theorem Descends.any_fails (hrule : table n matched = .recurseAny items)
    (hitem : Tries table items input (none, rest)) :
    Descends table n matched input (none, rest) := by
  obtain ⟨fuel, hitem⟩ := hitem
  refine ⟨fuel + 1, ?_⟩
  simp only [descend, step, hrule, hitem]
  rfl

theorem Descends.many (hrule : table n matched = .recurseMany item separator)
    (hitems : Repeats table item separator input nodes rest)
    (h : Descends table n (matched ++ [.nodes nodes]) rest outcome) :
    Descends table n matched input outcome := by
  obtain ⟨fuel, hitems⟩ := hitems
  obtain ⟨fuel', h⟩ := h
  refine ⟨max fuel fuel' + 1, ?_⟩
  have hle := Nat.le_max_left fuel fuel'
  simp only [descend, step, hrule,
    repeatMany_below (descend_mono hle item []) separator hle hitems]
  exact descend_mono (Nat.le_max_right fuel fuel') n _ _ _ h

theorem Descends.done {node : Option V} (hrule : table n matched = .done node)
    (input : List T) : Descends table n matched input (node, input) :=
  ⟨1, by simp only [descend, step, hrule]⟩

theorem Descends.unknown (hrule : table n matched = .unknown)
    (input : List T) : Descends table n matched input (none, input) :=
  ⟨1, by simp only [descend, step, hrule]⟩

theorem Tries.last (h : Descends table item [] input outcome) :
    Tries table [item] input outcome := h

theorem Tries.first (h : Descends table item [] input (some node, rest))
    (items : List N) : Tries table (item :: items) input (some node, rest) := by
  obtain ⟨fuel, h⟩ := h
  refine ⟨fuel, ?_⟩
  cases items with
  | nil => exact h
  | cons other items =>
      rw [tryAny.eq_3 _ _ _ _ (List.cons_ne_nil _ _), h]

theorem Tries.later (hfirst : Descends table item [] input (none, rest))
    (hne : items ≠ []) (h : Tries table items input outcome) :
    Tries table (item :: items) input outcome := by
  obtain ⟨fuel, hfirst⟩ := hfirst
  obtain ⟨fuel', h⟩ := h
  refine ⟨max fuel fuel', ?_⟩
  rw [tryAny.eq_3 _ _ _ _ hne,
    descend_mono (Nat.le_max_left fuel fuel') item [] _ _ hfirst]
  exact tries_mono (Nat.le_max_right fuel fuel') h

theorem Repeats.empty : Repeats table item separator [] [] [] := ⟨1, rfl⟩

theorem Repeats.stop (h : Descends table item [] input (none, rest)) :
    Repeats table item separator input [] input := by
  obtain ⟨fuel, h⟩ := h
  refine ⟨fuel + 1, ?_⟩
  rw [repeatMany]
  split
  · rfl
  · rw [descend_mono (Nat.le_succ fuel) item [] _ _ h]

theorem Repeats.last (hne : input ≠ [])
    (h : Descends table item [] input (some node, rest))
    (hafter : afterItem separator rest = none) :
    Repeats table item separator input [node] rest := by
  obtain ⟨fuel, h⟩ := h
  refine ⟨fuel + 1, ?_⟩
  rw [repeatMany, if_neg (by simpa using hne),
    descend_mono (Nat.le_succ fuel) item [] _ _ h]
  simp only [hafter]

theorem Repeats.cons (hne : input ≠ [])
    (h : Descends table item [] input (some node, rest))
    (hafter : afterItem separator rest = some next) {last : List T}
    (hnext : Repeats table item separator next nodes last) :
    Repeats table item separator input (node :: nodes) last := by
  obtain ⟨fuel, h⟩ := h
  obtain ⟨fuel', hnext⟩ := hnext
  have hle : fuel' ≤ max fuel fuel' := Nat.le_max_right fuel fuel'
  refine ⟨max fuel fuel' + 1, ?_⟩
  rw [repeatMany, if_neg (by simpa using hne),
    descend_mono (Nat.le_succ_of_le (Nat.le_max_left fuel fuel')) item [] _ _
      h]
  simp only [hafter, repeatMany_below
    (descend_mono (Nat.le_succ_of_le hle) item []) separator hle hnext]
  rfl

end Rules

section Consumption

variable {table : Table N T V} {n item : N} {items : List N}
  {matched : List (Matched T V)} {input rest next : List T} {node : V}
  {nodes : List V} {separator : Option (T → Bool)} {rank : N → Nat}
  {width : Nat}

/-- A node costs at least one token. -/
def Consumes (self : List T → Option (Outcome T V)) : Prop :=
  ∀ input node rest, self input = some (some node, rest) →
    rest.length < input.length

theorem length_of_afterItem (h : afterItem separator rest = some next) :
    next.length ≤ rest.length := by
  cases rest with
  | nil => contradiction
  | cons token rest =>
      cases separator with
      | none =>
          obtain rfl := Option.some.inj h
          exact Nat.le_refl _
      | some isSeparator =>
          simp only [afterItem] at h
          split at h
          · obtain rfl := Option.some.inj h
            exact Nat.le_succ _
          · contradiction

theorem tryAny_consumes {self : N → List T → Option (Outcome T V)}
    (hself : ∀ item, Consumes (self item)) (items : List N) :
    Consumes (tryAny self items) := by
  intro input node rest h
  induction items, input using tryAny.induct self with
  | case1 input =>
      rw [tryAny] at h
      cases h
  | case2 item input => exact hself item input node rest h
  | case3 item items input hne hnone =>
      rw [tryAny.eq_3 _ _ _ _ hne, hnone] at h
      contradiction
  | case4 item items input hne first last hsome =>
      rw [tryAny.eq_3 _ _ _ _ hne, hsome] at h
      cases h
      exact hself item input node rest hsome
  | case5 item items input hne last hfail ih =>
      rw [tryAny.eq_3 _ _ _ _ hne, hfail] at h
      exact ih h

/-- Items cost tokens, and no token is given back. -/
theorem repeatMany_consumes {self : List T → Option (Outcome T V)}
    (hself : Consumes self) {fuel : Nat}
    (h : repeatMany self separator fuel input = some (nodes, rest)) :
    nodes = [] ∧ rest = input ∨ rest.length < input.length := by
  induction fuel generalizing input nodes with
  | zero => contradiction
  | succ fuel ih =>
      rw [repeatMany] at h
      split at h
      · cases h
        exact Or.inl ⟨rfl, rfl⟩
      · cases hitem : self input with
        | none =>
            rw [hitem] at h
            contradiction
        | some outcome =>
            obtain ⟨node, last⟩ := outcome
            rw [hitem] at h
            cases node with
            | none =>
                cases h
                exact Or.inl ⟨rfl, rfl⟩
            | some node =>
                have hlt := hself input node last hitem
                right
                cases hafter : afterItem separator last with
                | none =>
                    simp only [hafter] at h
                    cases h
                    exact hlt
                | some next =>
                    simp only [hafter] at h
                    obtain ⟨others, hothers, hresult⟩ :=
                      Option.map_eq_some_iff.mp h
                    cases hresult
                    have hle := length_of_afterItem hafter
                    rcases ih hothers with ⟨_, hrest⟩ | hrest
                    · rw [hrest]
                      omega
                    · omega

/-- In a ranked table a node costs what remains to be consumed. -/
theorem Ranked.length_lt_remaining (h : Ranked table rank width)
    {fuel : Nat}
    (hsome : descend table fuel n matched input = some (some node, rest)) :
    rest.length < remaining matched input := by
  induction fuel generalizing n matched input node rest with
  | zero => contradiction
  | succ fuel ih =>
      have hself : ∀ item, Consumes (descend table fuel item []) :=
        fun item input node rest hitem => ih hitem
      have hwith : ∀ (without : List T → Option (Outcome T V)) outcome,
          (∀ node rest, outcome = some (some node, rest) →
            rest.length < input.length) →
          (∀ last, without last = some (some node, rest) →
            rest.length < remaining matched input) →
          withNode (fun last rest => descend table fuel n (matched ++ [last])
            rest) without outcome = some (some node, rest) →
          rest.length < remaining matched input := by
        intro without outcome hconsumes hwithout hresult
        cases outcome with
        | none => contradiction
        | some first =>
            obtain ⟨value, last⟩ := first
            cases value with
            | none => exact hwithout last hresult
            | some value =>
                exact Nat.lt_of_lt_of_le (ih hresult)
                  (remaining_append_le _ (hconsumes value last rfl))
      have htake : takeToken (fun last rest => descend table fuel n
          (matched ++ [last]) rest) input = some (some node, rest) →
          rest.length < remaining matched input := by
        intro hresult
        cases input with
        | nil =>
            have hlt := ih hresult
            rwa [remaining_append_eq rfl] at hlt
        | cons token tail =>
            exact Nat.lt_of_lt_of_le (ih hresult)
              (remaining_append_le _ (Nat.lt_succ_self _))
      have hfail : ∀ last : List T,
          some ((none : Option V), last) = some (some node, rest) →
            rest.length < remaining matched input := by
        intro last hlast
        cases hlast
      simp only [descend, step] at hsome
      cases hrule : table n matched with
      | partialMatch =>
          simp only [hrule] at hsome
          exact htake hsome
      | conditionalPartialMatch holds =>
          simp only [hrule] at hsome
          split at hsome
          · exact htake hsome
          · cases hsome
      | recurseOne item =>
          simp only [hrule] at hsome
          exact hwith _ _ (hself item input) hfail hsome
      | recurseMaybe item =>
          simp only [hrule] at hsome
          refine hwith _ _ (hself item input) (fun _ hlast => ?_) hsome
          have hlt := ih hlast
          rwa [remaining_append_eq rfl] at hlt
      | recurseAny items =>
          simp only [hrule] at hsome
          exact hwith _ _ (tryAny_consumes hself items input) hfail hsome
      | recurseMany item separator =>
          simp only [hrule] at hsome
          obtain ⟨⟨nodes, last⟩, hmany, hrest⟩ :=
            Option.bind_eq_some_iff.mp hsome
          have hlt := ih hrest
          rcases repeatMany_consumes (hself item) hmany with
            ⟨hnodes, hlast⟩ | hlast
          · rw [hnodes, hlast] at hlt
            rwa [remaining_append_eq rfl] at hlt
          · exact Nat.lt_of_lt_of_le hlt (remaining_append_le _ hlast)
      | done result =>
          simp only [hrule] at hsome
          cases hsome
          have hconsumed := h.consumes n matched node hrule
          rw [remaining, hconsumed]
          exact Nat.lt_succ_self _
      | unknown =>
          simp only [hrule] at hsome
          cases hsome

/-- In a ranked table a node costs at least one token. -/
theorem Ranked.consumes_of_descends (h : Ranked table rank width)
    (hnode : Descends table n [] input (some node, rest)) :
    rest.length < input.length := by
  obtain ⟨fuel, hfuel⟩ := hnode
  exact h.length_lt_remaining hfuel

end Consumption

section Termination

variable {table : Table N T V} {n item : N} {items : List N}
  {matched : List (Matched T V)} {input : List T}
  {separator : Option (T → Bool)} {rank : N → Nat} {width : Nat}

/-- The descent comes to an outcome. -/
def Ends (table : Table N T V) (n : N) (matched : List (Matched T V))
    (input : List T) : Prop :=
  ∃ outcome, Descends table n matched input outcome

/-- What remains, then the rank, then the room for further steps. -/
def key (rank : N → Nat) (width : Nat) (n : N)
    (matched : List (Matched T V)) (input : List T) : Nat ×ₗ Nat ×ₗ Nat :=
  toLex (remaining matched input, toLex (rank n, width - matched.length))

theorem key_lt_of_remaining {m : N} {matched' : List (Matched T V)}
    {input' : List T}
    (h : remaining matched' input' < remaining matched input) :
    key rank width m matched' input' < key rank width n matched input :=
  Prod.Lex.left _ _ h

/-- A class of lower rank, or any class once something was consumed. -/
theorem Ranked.key_lt_of_recurses (h : Ranked table rank width)
    (hitem : item ∈ (table n matched).recurses) :
    key rank width item ([] : List (Matched T V)) input <
      key rank width n matched input := by
  cases hconsumed : consumed matched with
  | true =>
      refine key_lt_of_remaining ?_
      rw [remaining_nil, remaining, hconsumed]
      exact Nat.lt_succ_self _
  | false =>
      have hrank := h.lower n matched item hconsumed hitem
      have heq : remaining matched input = input.length := by
        rw [remaining, hconsumed]
        rfl
      rw [key, key, remaining_nil, heq]
      exact Prod.Lex.right _ (Prod.Lex.left _ _ hrank)

/-- A further step of the same class. -/
theorem Ranked.key_lt_of_step (h : Ranked table rank width)
    (hgoes : (table n matched).goesOn = true) (last : Matched T V)
    {rest : List T}
    (hremaining : remaining (matched ++ [last]) rest ≤
      remaining matched input) :
    key rank width n (matched ++ [last]) rest <
      key rank width n matched input := by
  rcases Nat.lt_or_eq_of_le hremaining with hlt | heq
  · exact key_lt_of_remaining hlt
  · have hwidth := h.bounded n matched hgoes
    rw [key, key, heq]
    refine Prod.Lex.right _ (Prod.Lex.right _ ?_)
    rw [List.length_append, List.length_singleton]
    omega

theorem Repeats.exists (hconsumes : ∀ {input node rest},
      Descends table item [] input (some node, rest) →
        rest.length < input.length)
    (separator : Option (T → Bool)) (input : List T)
    (hends : ∀ input' : List T, input'.length ≤ input.length →
      Ends table item [] input') :
    ∃ nodes rest, Repeats table item separator input nodes rest := by
  induction hlength : input.length using Nat.strong_induction_on
    generalizing input with
  | _ length ih =>
      subst hlength
      by_cases hempty : input = []
      · subst hempty
        exact ⟨[], [], .empty⟩
      · obtain ⟨⟨node, rest⟩, hitem⟩ := hends input (Nat.le_refl _)
        cases node with
        | none => exact ⟨[], input, .stop hitem⟩
        | some node =>
            have hlt := hconsumes hitem
            cases hafter : afterItem separator rest with
            | none => exact ⟨[node], rest, .last hempty hitem hafter⟩
            | some next =>
                have hle := length_of_afterItem hafter
                obtain ⟨nodes, last, hnext⟩ := ih next.length (by omega) next
                  (fun input' hinput => hends input' (by omega)) rfl
                exact ⟨node :: nodes, last, .cons hempty hitem hafter hnext⟩

theorem Tries.exists (hends : ∀ item ∈ items, Ends table item [] input) :
    ∃ node rest, Tries table items input (node, rest) ∧
      (node ≠ none → ∃ item ∈ items,
        Descends table item [] input (node, rest)) := by
  induction items with
  | nil => exact ⟨none, input, ⟨0, by rw [tryAny]⟩, fun h => absurd rfl h⟩
  | cons item items ih =>
      rw [List.forall_mem_cons] at hends
      obtain ⟨⟨node, rest⟩, hitem⟩ := hends.1
      by_cases hlast : items = []
      · subst hlast
        exact ⟨node, rest, .last hitem, fun _ =>
          ⟨item, List.mem_cons_self, hitem⟩⟩
      · cases node with
        | some node =>
            exact ⟨some node, rest, .first hitem items, fun _ =>
              ⟨item, List.mem_cons_self, hitem⟩⟩
        | none =>
            obtain ⟨node, last, hlater, hnode⟩ := ih hends.2
            refine ⟨node, last, .later hitem hlast hlater, fun hne => ?_⟩
            obtain ⟨other, hmem, hother⟩ := hnode hne
            exact ⟨other, List.mem_cons_of_mem item hmem, hother⟩

/-- The descent ends wherever less is left to do. -/
def EndsBelow (table : Table N T V) (rank : N → Nat) (width : Nat) (n : N)
    (matched : List (Matched T V)) (input : List T) : Prop :=
  ∀ m matched' input',
    key rank width m matched' input' < key rank width n matched input →
      Ends table m matched' input'

theorem EndsBelow.recurse (hbelow : EndsBelow table rank width n matched input)
    (h : Ranked table rank width)
    (hitem : item ∈ (table n matched).recurses) : Ends table item [] input :=
  hbelow item [] input (h.key_lt_of_recurses hitem)

theorem EndsBelow.step (hbelow : EndsBelow table rank width n matched input)
    (h : Ranked table rank width) (hgoes : (table n matched).goesOn = true)
    (last : Matched T V) {rest : List T}
    (hremaining : remaining (matched ++ [last]) rest ≤
      remaining matched input) : Ends table n (matched ++ [last]) rest :=
  hbelow n (matched ++ [last]) rest (h.key_lt_of_step hgoes last hremaining)

/-- A node that was read has cost a token. -/
theorem EndsBelow.node (hbelow : EndsBelow table rank width n matched input)
    (h : Ranked table rank width) (hgoes : (table n matched).goesOn = true)
    {node : V} {rest : List T}
    (hitem : Descends table item [] input (some node, rest)) :
    Ends table n (matched ++ [.node node]) rest :=
  hbelow.step h hgoes _
    (remaining_append_le _ (h.consumes_of_descends hitem))

theorem EndsBelow.endOfInput (hbelow : EndsBelow table rank width n matched [])
    (h : Ranked table rank width)
    (hrule : table n matched = .partialMatch ∨
      ∃ holds, table n matched = .conditionalPartialMatch holds) :
    Ends table n matched [] := by
  have hgoes : (table n matched).goesOn = true := by
    rcases hrule with hrule | ⟨holds, hrule⟩ <;> rw [hrule] <;> rfl
  obtain ⟨outcome, hrest⟩ :=
    hbelow.step h hgoes .endOfInput (remaining_append_eq rfl).le
  exact ⟨outcome, .ends_of_empty hrule hrest⟩

theorem EndsBelow.token {token : T} {rest : List T}
    (hbelow : EndsBelow table rank width n matched (token :: rest))
    (h : Ranked table rank width)
    (hrule : table n matched = .partialMatch ∨
      table n matched = .conditionalPartialMatch true) :
    Ends table n matched (token :: rest) := by
  have hgoes : (table n matched).goesOn = true := by
    rcases hrule with hrule | hrule <;> rw [hrule] <;> rfl
  obtain ⟨outcome, hrest⟩ := hbelow.step h hgoes (.token token)
    (remaining_append_le _ (Nat.lt_succ_self _))
  exact ⟨outcome, .takes hrule hrest⟩

theorem EndsBelow.recurseOne
    (hbelow : EndsBelow table rank width n matched input)
    (h : Ranked table rank width)
    (hrule : table n matched = .recurseOne item) :
    Ends table n matched input := by
  have hmem : item ∈ (table n matched).recurses := by
    rw [hrule]
    exact List.mem_cons_self
  obtain ⟨⟨node, rest⟩, hitem⟩ := hbelow.recurse h hmem
  cases node with
  | none => exact ⟨_, .one_fails hrule hitem⟩
  | some node =>
      obtain ⟨outcome, hrest⟩ := hbelow.node h (by rw [hrule]; rfl) hitem
      exact ⟨outcome, .one hrule hitem hrest⟩

theorem EndsBelow.recurseMaybe
    (hbelow : EndsBelow table rank width n matched input)
    (h : Ranked table rank width)
    (hrule : table n matched = .recurseMaybe item) :
    Ends table n matched input := by
  have hgoes : (table n matched).goesOn = true := by
    rw [hrule]
    rfl
  have hmem : item ∈ (table n matched).recurses := by
    rw [hrule]
    exact List.mem_cons_self
  obtain ⟨⟨node, rest⟩, hitem⟩ := hbelow.recurse h hmem
  cases node with
  | none =>
      obtain ⟨outcome, hrest⟩ :=
        hbelow.step h hgoes .nothing (remaining_append_eq rfl).le
      exact ⟨outcome, .maybe_fails hrule hitem hrest⟩
  | some node =>
      obtain ⟨outcome, hrest⟩ := hbelow.node h hgoes hitem
      exact ⟨outcome, .maybe hrule hitem hrest⟩

theorem EndsBelow.recurseAny
    (hbelow : EndsBelow table rank width n matched input)
    (h : Ranked table rank width)
    (hrule : table n matched = .recurseAny items) :
    Ends table n matched input := by
  have hends : ∀ item ∈ items, Ends table item [] input := by
    intro item hmem
    refine hbelow.recurse h ?_
    rw [hrule]
    exact hmem
  obtain ⟨node, rest, htries, hfound⟩ := Tries.exists hends
  cases node with
  | none => exact ⟨_, .any_fails hrule htries⟩
  | some node =>
      obtain ⟨item, _, hitem⟩ := hfound (Option.some_ne_none node)
      obtain ⟨outcome, hrest⟩ := hbelow.node h (by rw [hrule]; rfl) hitem
      exact ⟨outcome, .any hrule htries hrest⟩

/-- The loop enters the item at the input and behind each item it has read. -/
theorem EndsBelow.nextItem
    (hbelow : EndsBelow table rank width n matched input)
    (h : Ranked table rank width) (hitem : item ∈ (table n matched).recurses)
    {input' : List T} (hle : input'.length ≤ input.length) :
    Ends table item [] input' := by
  rcases Nat.lt_or_eq_of_le hle with hlt | heq
  · refine hbelow item [] input' (key_lt_of_remaining ?_)
    exact Nat.lt_of_lt_of_le hlt length_le_remaining
  · have hlt : key rank width item ([] : List (Matched T V)) input <
        key rank width n matched input := h.key_lt_of_recurses hitem
    rw [key, remaining_nil, ← heq] at hlt
    exact hbelow item [] input' hlt

theorem EndsBelow.recurseMany
    (hbelow : EndsBelow table rank width n matched input)
    (h : Ranked table rank width)
    (hrule : table n matched = .recurseMany item separator) :
    Ends table n matched input := by
  have hmem : item ∈ (table n matched).recurses := by
    rw [hrule]
    exact List.mem_cons_self
  obtain ⟨nodes, rest, hitems⟩ := Repeats.exists h.consumes_of_descends
    separator input fun input' hle => hbelow.nextItem h hmem hle
  have hle : remaining (matched ++ [.nodes nodes]) rest ≤
      remaining matched input := by
    obtain ⟨fuel, hfuel⟩ := hitems
    have hconsumes : Consumes (descend table fuel item []) :=
      fun _ _ _ hsome => h.consumes_of_descends ⟨fuel, hsome⟩
    rcases repeatMany_consumes hconsumes hfuel with ⟨rfl, rfl⟩ | hlt
    · exact (remaining_append_eq rfl).le
    · exact remaining_append_le _ hlt
  obtain ⟨outcome, hrest⟩ :=
    hbelow.step h (by rw [hrule]; rfl) (.nodes nodes) hle
  exact ⟨outcome, .many hrule hitems hrest⟩

/-- In a ranked table the descent ends on every input. -/
theorem Ranked.ends (h : Ranked table rank width) (n : N)
    (matched : List (Matched T V)) (input : List T) :
    Ends table n matched input := by
  induction hkey : key rank width n matched input using WellFoundedLT.induction
    generalizing n matched input with
  | _ k ih =>
      subst hkey
      have hbelow : EndsBelow table rank width n matched input :=
        fun m matched' input' hlt => ih _ hlt m matched' input' rfl
      cases hrule : table n matched with
      | partialMatch =>
          cases input with
          | nil => exact hbelow.endOfInput h (Or.inl hrule)
          | cons token rest => exact hbelow.token h (Or.inl hrule)
      | conditionalPartialMatch holds =>
          cases input with
          | nil => exact hbelow.endOfInput h (Or.inr ⟨holds, hrule⟩)
          | cons token rest =>
              cases holds with
              | false => exact ⟨_, .condition_fails hrule token rest⟩
              | true => exact hbelow.token h (Or.inr hrule)
      | recurseOne item => exact hbelow.recurseOne h hrule
      | recurseMaybe item => exact hbelow.recurseMaybe h hrule
      | recurseAny items => exact hbelow.recurseAny h hrule
      | recurseMany item separator => exact hbelow.recurseMany h hrule
      | done node => exact ⟨_, .done hrule input⟩
      | unknown => exact ⟨_, .unknown hrule input⟩

end Termination

section Entries

variable {table : Table N T V} {n item : N} {matched : List (Matched T V)}
  {start input : List T} {separator : Option (T → Bool)} {rank : N → Nat}
  {width : Nat}

/-- Where the loop over an item looks for the next one. -/
inductive Iterates (table : Table N T V) (item : N)
    (separator : Option (T → Bool)) (input : List T) :
    List V → List T → Prop where
  | first : Iterates table item separator input [] input
  | next {nodes : List V} {node : V} {current rest next : List T} :
      Iterates table item separator input nodes current →
      Descends table item [] current (some node, rest) →
      afterItem separator rest = some next →
      Iterates table item separator input (nodes ++ [node]) next

/-- What a class that was entered here has matched, and where it is. -/
inductive Visits (table : Table N T V) (n : N) (start : List T) :
    List (Matched T V) → List T → Prop where
  | enter : Visits table n start [] start
  | token {matched : List (Matched T V)} {token : T} {rest : List T} :
      Visits table n start matched (token :: rest) →
      table n matched = .partialMatch ∨
        table n matched = .conditionalPartialMatch true →
      Visits table n start (matched ++ [.token token]) rest
  | endOfInput {matched : List (Matched T V)} :
      Visits table n start matched [] →
      table n matched = .partialMatch ∨
        (∃ holds, table n matched = .conditionalPartialMatch holds) →
      Visits table n start (matched ++ [.endOfInput]) []
  | node {matched : List (Matched T V)} {item : N} {input rest : List T}
      {node : V} :
      Visits table n start matched input →
      item ∈ (table n matched).recurses →
      (∀ separator, table n matched ≠ .recurseMany item separator) →
      Descends table item [] input (some node, rest) →
      Visits table n start (matched ++ [.node node]) rest
  | nothing {matched : List (Matched T V)} {item : N} {input rest : List T} :
      Visits table n start matched input →
      table n matched = .recurseMaybe item →
      Descends table item [] input (none, rest) →
      Visits table n start (matched ++ [.nothing]) input
  | nodes {matched : List (Matched T V)} {item : N}
      {separator : Option (T → Bool)} {input rest : List T} {nodes : List V} :
      Visits table n start matched input →
      table n matched = .recurseMany item separator →
      Repeats table item separator input nodes rest →
      Visits table n start (matched ++ [.nodes nodes]) rest

/-- The descent of the class that was entered here enters that class there. -/
inductive Enters (table : Table N T V) : N × List T → N × List T → Prop where
  | recurse {n item : N} {matched : List (Matched T V)}
      {start input : List T} :
      Visits table n start matched input →
      item ∈ (table n matched).recurses →
      Enters table (n, start) (item, input)
  | again {n item : N} {matched : List (Matched T V)}
      {separator : Option (T → Bool)} {start input current : List T}
      {nodes : List V} :
      Visits table n start matched input →
      table n matched = .recurseMany item separator →
      Iterates table item separator input nodes current →
      Enters table (n, start) (item, current)

/-- What is left, and one more once something was consumed, does not grow. -/
theorem Ranked.remaining_le_of_visits (h : Ranked table rank width)
    (hvisits : Visits table n start matched input) :
    remaining matched input ≤ start.length := by
  induction hvisits with
  | enter => exact Nat.le_refl _
  | token _ _ ih =>
      exact (remaining_append_le _ (Nat.lt_succ_self _)).trans ih
  | endOfInput _ _ ih => exact (remaining_append_eq rfl).trans_le ih
  | node _ _ _ hnode ih =>
      exact (remaining_append_le _ (h.consumes_of_descends hnode)).trans ih
  | nothing _ _ _ ih => exact (remaining_append_eq rfl).trans_le ih
  | nodes _ _ hrepeats ih =>
      obtain ⟨fuel, hfuel⟩ := hrepeats
      rcases repeatMany_consumes (fun _ _ _ hsome =>
        h.consumes_of_descends ⟨fuel, hsome⟩) hfuel with ⟨rfl, rfl⟩ | hlt
      · exact (remaining_append_eq rfl).trans_le ih
      · exact (remaining_append_le _ hlt).trans ih

/-- After an iteration the loop is further on. -/
theorem Ranked.iterates_cases (h : Ranked table rank width) {nodes : List V}
    {current : List T}
    (hiterates : Iterates table item separator input nodes current) :
    current = input ∨ current.length < input.length := by
  induction hiterates with
  | first => exact Or.inl rfl
  | next _ hnode hafter ih =>
      have hlt := h.consumes_of_descends hnode
      have hle := length_of_afterItem hafter
      right
      rcases ih with rfl | ih <;> omega

/-- A class is entered further on, or has lower rank. -/
theorem Ranked.lt_or_rank_lt (h : Ranked table rank width)
    {entry entry' : N × List T} (henters : Enters table entry entry') :
    entry'.2.length < entry.2.length ∨
      entry'.2.length = entry.2.length ∧ rank entry'.1 < rank entry.1 := by
  have hentered : ∀ {n item matched start input},
      Visits table n start matched input →
      item ∈ (table n matched).recurses →
      input.length < start.length ∨
        input.length = start.length ∧ rank item < rank n := by
    intro n item matched start input hvisits hitem
    have hle := h.remaining_le_of_visits hvisits
    cases hconsumed : consumed matched with
    | true =>
        rw [remaining, hconsumed] at hle
        exact Or.inl hle
    | false =>
        rw [remaining, hconsumed] at hle
        rcases Nat.lt_or_eq_of_le hle with hlt | heq
        · exact Or.inl hlt
        · exact Or.inr ⟨heq, h.lower n matched item hconsumed hitem⟩
  cases henters with
  | recurse hvisits hitem => exact hentered hvisits hitem
  | again hvisits hrule hiterates =>
      have hitem := hentered hvisits (by rw [hrule]; exact List.mem_cons_self)
      rcases h.iterates_cases hiterates with rfl | hlt
      · exact hitem
      · rcases hitem with hitem | ⟨hitem, _⟩
        · exact Or.inl (hlt.trans hitem)
        · exact Or.inl (hlt.trans_eq hitem)

/-- In a ranked table a class is not entered again before something was
consumed. -/
theorem Ranked.length_lt_of_reenters (h : Ranked table rank width)
    (henters : Relation.TransGen (Enters table) (n, start) (n, input)) :
    input.length < start.length := by
  have hchain : ∀ {entry entry' : N × List T},
      Relation.TransGen (Enters table) entry entry' →
      entry'.2.length < entry.2.length ∨
        entry'.2.length = entry.2.length ∧ rank entry'.1 < rank entry.1 := by
    intro entry entry' hentered
    induction hentered with
    | single hstep => exact h.lt_or_rank_lt hstep
    | tail _ hstep ih =>
        have hlast := h.lt_or_rank_lt hstep
        omega
  rcases hchain henters with hlt | ⟨_, hrank⟩
  · exact hlt
  · exact absurd hrank (Nat.lt_irrefl _)

end Entries

end Descent
