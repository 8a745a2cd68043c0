/-
Recursive descent over a list of tokens.

A parser takes a node off the front of its input or fails.  Repetition goes on
while the item succeeds on a shorter input.  A recursive parser is given as a
layer over itself; where the layer only looks at shorter inputs, `fix` solves
it.
-/
import Mathlib.Data.List.Basic

namespace RecursiveParser

universe u v w

variable {τ : Type u} {α : Type v} {β : Type w}

/-- The node at the front of the input and what follows it. -/
abbrev Parser (τ : Type u) (α : Type v) := List τ → Option (α × List τ)

/-- Consume exactly this token. -/
def expect [DecidableEq τ] (token : τ) : List τ → Option (List τ)
  | [] => none
  | head :: rest => if head = token then some rest else none

/-- Turn the node into another one. -/
def mapNode (f : α → β) (item : Parser τ α) : Parser τ β := fun input =>
  (item input).map fun result => (f result.1, result.2)

/-- The first alternative that succeeds. -/
def anyOf (alternatives : List (Parser τ α)) : Parser τ α := fun input =>
  alternatives.findSome? fun alternative => alternative input

/-- The node if there is one; a failure consumes nothing. -/
def maybe (item : Parser τ α) (input : List τ) : Option α × List τ :=
  match item input with
  | some (node, rest) => (some node, rest)
  | none => (none, input)

/-- As many items as there are; `separator` gives what follows a separator, and
a separator is consumed even where no item follows it. -/
def many (separator : List τ → Option (List τ)) (item : Parser τ α)
    (input : List τ) : List α × List τ :=
  match item input with
  | none => ([], input)
  | some (node, rest) =>
      match separator rest with
      | none => ([node], rest)
      | some next =>
          if next.length < input.length then
            (node :: (many separator item next).1,
              (many separator item next).2)
          else ([node], next)
termination_by input.length

/-- `many`, but at least one. -/
def atLeastOne (separator : List τ → Option (List τ)) (item : Parser τ α) :
    Parser τ (List α) := fun input =>
  if (many separator item input).1.isEmpty then none
  else some (many separator item input)

@[simp] theorem expect_cons [DecidableEq τ] (token : τ) (rest : List τ) :
    expect token (token :: rest) = some rest := by
  simp [expect]

theorem length_of_expect [DecidableEq τ] {token : τ} {input rest : List τ}
    (h : expect token input = some rest) : rest.length < input.length := by
  cases input with
  | nil => contradiction
  | cons head tail =>
      rw [expect] at h
      split at h
      · rw [← Option.some.inj h]
        exact Nat.lt_succ_self _
      · contradiction

theorem length_lt_append {front : List τ} (h : front ≠ []) (rest : List τ) :
    rest.length < (front ++ rest).length := by
  have hpos := List.length_pos_iff.mpr h
  rw [List.length_append]
  omega

theorem maybe_of_some {item : Parser τ α} {input rest : List τ} {node : α}
    (h : item input = some (node, rest)) :
    maybe item input = (some node, rest) := by
  rw [maybe, h]

theorem maybe_of_none {item : Parser τ α} {input : List τ}
    (h : item input = none) : maybe item input = (none, input) := by
  rw [maybe, h]

theorem mapNode_of_some {item : Parser τ α} {input rest : List τ} {node : α}
    (f : α → β) (h : item input = some (node, rest)) :
    mapNode f item input = some (f node, rest) := by
  rw [mapNode, h]
  rfl

theorem mapNode_of_none {item : Parser τ α} {input : List τ} (f : α → β)
    (h : item input = none) : mapNode f item input = none := by
  rw [mapNode, h]
  rfl

theorem anyOf_of_some {alternative : Parser τ α} {input : List τ}
    {result : α × List τ} (alternatives : List (Parser τ α))
    (h : alternative input = some result) :
    anyOf (alternative :: alternatives) input = some result := by
  rw [anyOf, List.findSome?_cons, h]

theorem anyOf_of_none {alternative : Parser τ α} {input : List τ}
    (alternatives : List (Parser τ α)) (h : alternative input = none) :
    anyOf (alternative :: alternatives) input = anyOf alternatives input := by
  rw [anyOf, List.findSome?_cons, h]
  rfl

section Many

variable {separator : List τ → Option (List τ)} {item : Parser τ α}

theorem many_of_none {input : List τ} (h : item input = none) :
    many separator item input = ([], input) := by
  rw [many, h]

theorem many_last {input rest : List τ} {node : α}
    (h : item input = some (node, rest)) (hseparator : separator rest = none) :
    many separator item input = ([node], rest) := by
  rw [many, h]
  simp only [hseparator]

theorem many_step {input rest next : List τ} {node : α}
    (h : item input = some (node, rest))
    (hseparator : separator rest = some next)
    (hlength : next.length < input.length) :
    many separator item input =
      (node :: (many separator item next).1,
        (many separator item next).2) := by
  rw [many, h]
  simp only [hseparator, hlength, ↓reduceIte]

theorem atLeastOne_eq_some {input rest : List τ} {nodes : List α}
    (hmany : many separator item input = (nodes, rest)) (hne : nodes ≠ []) :
    atLeastOne separator item input = some (nodes, rest) := by
  rw [atLeastOne, hmany]
  simp [hne]

theorem of_atLeastOne {input : List τ} {result : List α × List τ}
    (h : atLeastOne separator item input = some result) :
    many separator item input = result ∧ result.1 ≠ [] := by
  unfold atLeastOne at h
  split at h
  · contradiction
  · rename_i hne
    have heq := Option.some.inj h
    refine ⟨heq, ?_⟩
    rw [← heq]
    simpa using hne

end Many

section MapNode

variable {γ : Type*} {separator : List τ → Option (List τ)}
  {item : Parser τ α} (f : α → β)

theorem mapNode_mapNode (g : β → γ) :
    mapNode g (mapNode f item) = mapNode (g ∘ f) item := by
  funext input
  simp [mapNode, Function.comp_def]

theorem mapNode_anyOf (alternatives : List (Parser τ α)) :
    mapNode f (anyOf alternatives) = anyOf (alternatives.map (mapNode f)) := by
  funext input
  induction alternatives with
  | nil => rfl
  | cons alternative alternatives ih =>
      cases h : alternative input with
      | some result =>
          rw [mapNode_of_some f (anyOf_of_some alternatives h), List.map_cons,
            anyOf_of_some _ (mapNode_of_some f h)]
      | none =>
          rw [mapNode, anyOf_of_none alternatives h, List.map_cons,
            anyOf_of_none _ (mapNode_of_none f h), ← ih]
          rfl

/-- Repeating an item and turning every node into another one. -/
theorem many_mapNode (input : List τ) :
    many separator (mapNode f item) input =
      ((many separator item input).1.map f,
        (many separator item input).2) := by
  induction input using many.induct separator item with
  | case1 input hnone =>
      rw [many_of_none hnone, many_of_none (mapNode_of_none f hnone)]
      rfl
  | case2 input node rest hsome hseparator =>
      rw [many_last hsome hseparator,
        many_last (mapNode_of_some f hsome) hseparator]
      rfl
  | case3 input node rest hsome next hseparator hlength ih =>
      rw [many_step hsome hseparator hlength,
        many_step (mapNode_of_some f hsome) hseparator hlength, ih]
      rfl
  | case4 input node rest hsome next hseparator hlength =>
      rw [many, many, mapNode_of_some f hsome, hsome]
      simp only [hseparator, hlength, ↓reduceIte, List.map_cons, List.map_nil]

theorem atLeastOne_mapNode :
    atLeastOne separator (mapNode f item) =
      mapNode (List.map f) (atLeastOne separator item) := by
  funext input
  rw [atLeastOne, many_mapNode, mapNode, atLeastOne]
  simp only [List.isEmpty_map]
  split <;> rfl

theorem maybe_mapNode (input : List τ) :
    maybe (mapNode f item) input =
      ((maybe item input).1.map f, (maybe item input).2) := by
  cases h : item input with
  | some result =>
      rw [maybe_of_some (mapNode_of_some f h), maybe_of_some h]
      rfl
  | none =>
      rw [maybe_of_none (mapNode_of_none f h), maybe_of_none h]
      rfl

end MapNode

section Gives

/-- Every node the parser gives has the property. -/
def Gives (item : Parser τ α) (P : α → Prop) : Prop :=
  ∀ input node rest, item input = some (node, rest) → P node

theorem Gives.mapNode {item : Parser τ α} {P : α → Prop} (h : Gives item P)
    {Q : β → Prop} {f : α → β} (hf : ∀ node, P node → Q (f node)) :
    Gives (mapNode f item) Q := by
  intro input node rest hsome
  obtain ⟨result, hresult, heq⟩ := Option.map_eq_some_iff.mp hsome
  cases heq
  exact hf result.1 (h input result.1 result.2 hresult)

theorem gives_anyOf {alternatives : List (Parser τ α)} {P : α → Prop}
    (h : ∀ alternative ∈ alternatives, Gives alternative P) :
    Gives (anyOf alternatives) P := by
  intro input node rest hsome
  obtain ⟨alternative, hmem, halternative⟩ :=
    List.exists_of_findSome?_eq_some hsome
  exact h alternative hmem input node rest halternative

theorem Gives.many {item : Parser τ α} {P : α → Prop} (h : Gives item P)
    (separator : List τ → Option (List τ)) (input : List τ) :
    ∀ node ∈ (many separator item input).1, P node := by
  induction input using many.induct separator item with
  | case1 input hnone =>
      rw [many_of_none hnone]
      simp
  | case2 input node rest hsome hseparator =>
      rw [many_last hsome hseparator]
      simpa using h input node rest hsome
  | case3 input node rest hsome next hseparator hlength ih =>
      rw [many_step hsome hseparator hlength]
      intro other hmem
      rcases List.mem_cons.mp hmem with rfl | hmem
      · exact h input other rest hsome
      · exact ih other hmem
  | case4 input node rest hsome next hseparator hlength =>
      rw [RecursiveParser.many, hsome]
      simp only [hseparator, hlength, ↓reduceIte]
      simpa using h input node rest hsome

theorem Gives.atLeastOne {item : Parser τ α} {P : α → Prop} (h : Gives item P)
    (separator : List τ → Option (List τ)) :
    Gives (atLeastOne separator item) fun nodes => ∀ node ∈ nodes, P node := by
  intro input nodes rest hsome
  have hall := h.many separator input
  rwa [(of_atLeastOne hsome).1] at hall

end Gives

section Printing

variable {item : Parser τ α} {print : β → List τ} {build : β → α}
  (Follow : List τ → Prop)

/-- Items printed one after the other are read back, where each is read back
before anything that may follow it. -/
theorem many_flatMap {items : List β} {rest : List τ}
    (hitem : ∀ x ∈ items, ∀ rest, Follow rest →
      item (print x ++ rest) = some (build x, rest))
    (hprint : ∀ x ∈ items, print x ≠ [])
    (hfollow : ∀ x ∈ items, ∀ rest, Follow (print x ++ rest))
    (hend : Follow rest) (hstop : item rest = none) :
    many some item (items.flatMap print ++ rest) = (items.map build, rest) := by
  induction items with
  | nil => exact many_of_none hstop
  | cons x items ih =>
      have htail : Follow (items.flatMap print ++ rest) := by
        cases items with
        | nil => exact hend
        | cons y items =>
            rw [List.flatMap_cons, List.append_assoc]
            exact hfollow y (by simp) _
      have hhead := hitem x (by simp) _ htail
      have hlength := length_lt_append (hprint x (by simp))
        (items.flatMap print ++ rest)
      rw [List.flatMap_cons, List.append_assoc,
        many_step hhead rfl hlength,
        ih (fun y hy => hitem y (List.mem_cons_of_mem x hy))
          (fun y hy => hprint y (List.mem_cons_of_mem x hy))
          (fun y hy => hfollow y (List.mem_cons_of_mem x hy))]
      rfl

/-- Items with a separator between them. -/
def separated (token : τ) (print : β → List τ) : List β → List τ
  | [] => []
  | [x] => print x
  | x :: y :: items => print x ++ token :: separated token print (y :: items)

/-- Items printed with separators are read back. -/
theorem many_separated [DecidableEq τ] {token : τ} {items : List β}
    {rest : List τ} (hne : items ≠ [])
    (hitem : ∀ x ∈ items, ∀ rest, Follow rest →
      item (print x ++ rest) = some (build x, rest))
    (hfollow : ∀ rest, Follow (token :: rest))
    (hend : Follow rest) (hstop : expect token rest = none) :
    many (expect token) item (separated token print items ++ rest) =
      (items.map build, rest) := by
  induction items with
  | nil => contradiction
  | cons x items ih =>
      cases items with
      | nil => exact many_last (hitem x (by simp) rest hend) hstop
      | cons y items =>
          have hhead := hitem x (by simp) _
            (hfollow (separated token print (y :: items) ++ rest))
          have htail := ih (List.cons_ne_nil y items)
            fun z hz => hitem z (List.mem_cons_of_mem x hz)
          have hstep := many_step hhead (expect_cons token _)
            (by simp only [List.length_append, List.length_cons]; omega)
          rw [separated, List.append_assoc, List.cons_append, hstep, htail]
          rfl

end Printing

section Fix

/-- The parser that may nest `depth` times. -/
def nested (layer : Parser τ α → Parser τ α) : Nat → Parser τ α
  | 0 => fun _ => none
  | depth + 1 => layer (nested layer depth)

/-- A nesting as deep as the input is long. -/
def fix (layer : Parser τ α → Parser τ α) : Parser τ α := fun input =>
  nested layer (input.length + 1) input

/-- Two parsers agree on all inputs shorter than this. -/
def AgreeBelow (length : Nat) (left right : Parser τ α) : Prop :=
  ∀ input : List τ, input.length < length → left input = right input

/-- The layer looks at its recursive part on shorter inputs only. -/
def Guarded (layer : Parser τ α → Parser τ β) : Prop :=
  ∀ length left right, AgreeBelow length left right →
    AgreeBelow (length + 1) (layer left) (layer right)

theorem AgreeBelow.mapNode {length : Nat} {left right : Parser τ α}
    (h : AgreeBelow length left right) (f : α → β) :
    AgreeBelow length (mapNode f left) (mapNode f right) := by
  intro input hlength
  rw [RecursiveParser.mapNode, RecursiveParser.mapNode, h input hlength]

theorem AgreeBelow.anyOf {length : Nat} {left right : Parser τ α}
    {lefts rights : List (Parser τ α)} (h : AgreeBelow length left right)
    (hrest : AgreeBelow length (anyOf lefts) (anyOf rights)) :
    AgreeBelow length (anyOf (left :: lefts)) (anyOf (right :: rights)) := by
  intro input hlength
  have hhead := h input hlength
  have htail := hrest input hlength
  simp only [RecursiveParser.anyOf] at htail
  simp only [RecursiveParser.anyOf, List.findSome?_cons, hhead, htail]

theorem AgreeBelow.many {length : Nat} {left right : Parser τ α}
    (h : AgreeBelow length left right)
    (separator : List τ → Option (List τ)) (input : List τ)
    (hlength : input.length < length) :
    many separator left input = many separator right input := by
  induction input using many.induct separator left with
  | case1 input hnone =>
      rw [many_of_none hnone, many_of_none (h input hlength ▸ hnone)]
  | case2 input node rest hsome hseparator =>
      rw [many_last hsome hseparator,
        many_last (h input hlength ▸ hsome) hseparator]
  | case3 input node rest hsome next hseparator hnext ih =>
      rw [many_step hsome hseparator hnext,
        many_step (h input hlength ▸ hsome) hseparator hnext,
        ih (Nat.lt_trans hnext hlength)]
  | case4 input node rest hsome next hseparator hnext =>
      have hsome' := hsome
      rw [h input hlength] at hsome'
      rw [RecursiveParser.many, RecursiveParser.many, hsome, hsome']
      simp only [hseparator, hnext, ↓reduceIte]

theorem AgreeBelow.atLeastOne {length : Nat} {left right : Parser τ α}
    (h : AgreeBelow length left right)
    (separator : List τ → Option (List τ)) :
    AgreeBelow length (atLeastOne separator left)
      (atLeastOne separator right) := by
  intro input hlength
  rw [RecursiveParser.atLeastOne, RecursiveParser.atLeastOne,
    h.many separator input hlength]

/-- Two nestings that are deep enough agree. -/
theorem Guarded.nested_agree {layer : Parser τ α → Parser τ α}
    (h : Guarded layer) {length depth depth' : Nat}
    (hdepth : length ≤ depth) (hdepth' : length ≤ depth') :
    AgreeBelow length (nested layer depth) (nested layer depth') := by
  induction length generalizing depth depth' with
  | zero =>
      intro input hlength
      omega
  | succ length ih =>
      obtain ⟨depth, rfl⟩ := Nat.exists_eq_add_of_le' hdepth
      obtain ⟨depth', rfl⟩ := Nat.exists_eq_add_of_le' hdepth'
      exact h length _ _ (ih (Nat.le_add_left ..) (Nat.le_add_left ..))

/-- A guarded layer is solved by its nesting. -/
theorem Guarded.fix_eq {layer : Parser τ α → Parser τ α} (h : Guarded layer)
    (input : List τ) : fix layer input = layer (fix layer) input := by
  have hagree : AgreeBelow input.length (nested layer input.length)
      (fix layer) := by
    intro shorter hlength
    exact h.nested_agree hlength (Nat.le_refl _) shorter (Nat.lt_succ_self _)
  exact h input.length _ _ hagree input (Nat.lt_succ_self _)

/-- Nothing else solves a guarded layer. -/
theorem Guarded.fix_unique {layer : Parser τ α → Parser τ α}
    (h : Guarded layer) {item : Parser τ α} (hitem : item = layer item) :
    item = fix layer := by
  have hagree : ∀ length, AgreeBelow length item (fix layer) := by
    intro length
    induction length with
    | zero =>
        intro input hlength
        omega
    | succ length ih =>
        intro input hlength
        rw [h.fix_eq, hitem]
        exact h length _ _ (hitem ▸ ih) input hlength
  funext input
  exact hagree _ input (Nat.lt_succ_self _)

/-- What a layer hands on holds of every node the nesting gives. -/
theorem gives_fix {layer : Parser τ α → Parser τ α} {P : α → Prop}
    (h : ∀ item, Gives item P → Gives (layer item) P) :
    Gives (fix layer) P := by
  have hnested : ∀ depth, Gives (nested layer depth) P := by
    intro depth
    induction depth with
    | zero =>
        intro input node rest hnone
        contradiction
    | succ depth ih => exact h _ ih
  exact fun input => hnested (input.length + 1) input

end Fix

end RecursiveParser
