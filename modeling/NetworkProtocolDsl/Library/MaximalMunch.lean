/-
Scanning by the longest match.

A scanner cuts from its input the longest word that a rule matches, and of the
rules that match it the first one counts; what it cuts off is unique.  Where the
rules have no gaps, so that a word that goes on to a longer one goes on to one
that is a letter longer, one letter of lookahead decides where a word ends.
-/
import Mathlib.Computability.RegularExpressions
import Mathlib.Data.List.Infix

namespace MaximalMunch

universe u

variable {α : Type u} {rules : List (Language α)}

section Patterns

open RegularExpression

/-- The word itself. -/
def text : List α → RegularExpression α
  | [] => 1
  | letter :: word => char letter * text word

/-- One of the letters. -/
def oneOf : List α → RegularExpression α
  | [] => 0
  | letter :: letters => char letter + oneOf letters

def oneOrMore (pattern : RegularExpression α) : RegularExpression α :=
  pattern * pattern.star

variable {letters word : List α}

@[simp] theorem mem_text {other : List α} :
    other ∈ (text word).matches' ↔ other = word := by
  induction word generalizing other with
  | nil => exact Language.mem_one other
  | cons letter word ih =>
      rw [text, matches'_mul, matches'_char, Language.mem_mul]
      constructor
      · rintro ⟨_, rfl, rest, hrest, rfl⟩
        rw [ih.mp hrest]
        rfl
      · rintro rfl
        exact ⟨[letter], rfl, word, ih.mpr rfl, rfl⟩

@[simp] theorem mem_oneOf :
    word ∈ (oneOf letters).matches' ↔ ∃ letter ∈ letters, word = [letter] := by
  induction letters with
  | nil => simp [oneOf, Language.notMem_zero]
  | cons letter letters ih =>
      rw [oneOf, matches'_add, Language.mem_add, ih, matches'_char,
        List.exists_mem_cons_iff]
      rfl

theorem mem_star_oneOf :
    word ∈ (oneOf letters).star.matches' ↔ ∀ letter ∈ word, letter ∈ letters :=
  by
  rw [matches'_star, Language.mem_kstar]
  constructor
  · rintro ⟨words, rfl, hwords⟩ letter hletter
    obtain ⟨other, hother, hletter⟩ := List.mem_flatten.mp hletter
    obtain ⟨found, hfound, rfl⟩ := mem_oneOf.mp (hwords other hother)
    rw [List.mem_singleton.mp hletter]
    exact hfound
  · intro hall
    refine ⟨word.map fun letter => [letter], ?_, fun other hother => ?_⟩
    · rw [← List.flatMap_def, List.flatMap_singleton']
    obtain ⟨letter, hletter, rfl⟩ := List.mem_map.mp hother
    exact mem_oneOf.mpr ⟨letter, hall letter hletter, rfl⟩

theorem mem_oneOrMore_oneOf :
    word ∈ (oneOrMore (oneOf letters)).matches' ↔
      word ≠ [] ∧ ∀ letter ∈ word, letter ∈ letters := by
  rw [oneOrMore, matches'_mul, Language.mem_mul]
  constructor
  · rintro ⟨first, hfirst, rest, hrest, rfl⟩
    obtain ⟨letter, hletter, rfl⟩ := mem_oneOf.mp hfirst
    refine ⟨List.cons_ne_nil _ _, ?_⟩
    exact List.forall_mem_cons.mpr ⟨hletter, mem_star_oneOf.mp hrest⟩
  · rintro ⟨hne, hall⟩
    obtain ⟨letter, rest, rfl⟩ := List.exists_cons_of_ne_nil hne
    obtain ⟨hletter, hrest⟩ := List.forall_mem_cons.mp hall
    exact ⟨[letter], mem_oneOf.mpr ⟨letter, hletter, rfl⟩, rest,
      mem_star_oneOf.mpr hrest, rfl⟩

end Patterns

/-- The first rule that matches a word, of all words the input starts with the
longest. -/
structure Munch (rules : List (Language α)) (input : List α) (rule : Nat)
    (word rest : List α) : Prop where
  split : input = word ++ rest
  nonempty : word ≠ []
  matched : ∃ language, rules[rule]? = some language ∧ word ∈ language
  first : ∀ language ∈ rules.take rule, word ∉ language
  longest : ∀ language ∈ rules, ∀ longer, longer <+: input →
    longer ∈ language → longer.length ≤ word.length

/-- No rule matches a word that goes on with the letter. -/
def EndsBefore (rules : List (Language α)) (word : List α) (letter : α) :
    Prop :=
  ∀ language ∈ rules, ∀ rest, word ++ letter :: rest ∉ language

/-- The word ends where the rest begins. -/
def Ends (rules : List (Language α)) (word rest : List α) : Prop :=
  ∀ letter rest', rest = letter :: rest' → EndsBefore rules word letter

/-- A word that goes on to a longer one goes on to one that is a letter longer.
-/
def Gapless (rules : List (Language α)) : Prop :=
  ∀ language ∈ rules, ∀ word ∈ language, word ≠ [] →
    ∀ other ∈ rules, ∀ letter rest, word ++ letter :: rest ∈ other →
      ∃ next ∈ rules, word ++ [letter] ∈ next

namespace Munch

variable {input word rest word' rest' : List α} {rule rule' : Nat}

theorem length_lt (h : Munch rules input rule word rest) :
    rest.length < input.length := by
  have hword := List.length_pos_iff.mpr h.nonempty
  rw [h.split, List.length_append]
  omega

theorem mem (h : Munch rules input rule word rest) :
    ∃ language ∈ rules, word ∈ language := by
  obtain ⟨language, hrule, hword⟩ := h.matched
  exact ⟨language, List.mem_of_getElem? hrule, hword⟩

theorem length_le (h : Munch rules input rule word rest)
    (h' : Munch rules input rule' word' rest') :
    word'.length ≤ word.length := by
  obtain ⟨language, hlanguage, hword⟩ := h'.mem
  exact h.longest language hlanguage word' ⟨rest', h'.split.symm⟩ hword

theorem not_lt (h : Munch rules input rule word rest)
    (h' : Munch rules input rule' word rest) : ¬ rule < rule' := by
  intro hlt
  obtain ⟨language, hrule, hword⟩ := h.matched
  rw [← List.getElem?_take_of_lt hlt] at hrule
  exact h'.first language (List.mem_of_getElem? hrule) hword

/-- What the input is cut into is determined. -/
theorem unique (h : Munch rules input rule word rest)
    (h' : Munch rules input rule' word' rest') :
    rule = rule' ∧ word = word' ∧ rest = rest' := by
  have hlength := Nat.le_antisymm (h'.length_le h) (h.length_le h')
  obtain ⟨rfl, rfl⟩ :=
    List.append_inj (h.split.symm.trans h'.split) hlength
  have hrule := Nat.le_antisymm (Nat.le_of_not_lt (h'.not_lt h))
    (Nat.le_of_not_lt (h.not_lt h'))
  exact ⟨hrule, rfl, rfl⟩

/-- A word that ends where the rest begins is cut off. -/
theorem of_ends {language : Language α} (hne : word ≠ [])
    (hrule : rules[rule]? = some language) (hword : word ∈ language)
    (hfirst : ∀ language ∈ rules.take rule, word ∉ language)
    (hends : Ends rules word rest) :
    Munch rules (word ++ rest) rule word rest where
  split := rfl
  nonempty := hne
  matched := ⟨language, hrule, hword⟩
  first := hfirst
  longest := by
    intro other hother longer hlonger hmem
    by_contra hlt
    obtain ⟨more, rfl⟩ : word <+: longer :=
      List.prefix_of_prefix_length_le ⟨rest, rfl⟩ hlonger (by omega)
    cases more with
    | nil =>
        rw [List.append_nil] at hlt
        exact hlt (Nat.le_refl _)
    | cons letter more =>
        obtain ⟨last, hlast⟩ := hlonger
        rw [List.append_assoc] at hlast
        exact hends letter _ (List.append_cancel_left hlast).symm other hother
          more hmem

/-- Without gaps a word that was cut off does not go on with the next letter.
-/
theorem ends (hgapless : Gapless rules)
    (h : Munch rules input rule word rest) : Ends rules word rest := by
  rintro letter rest' rfl other hother more hmem
  obtain ⟨language, hlanguage, hword⟩ := h.mem
  obtain ⟨next, hnext, hlonger⟩ := hgapless language hlanguage word hword
    h.nonempty other hother letter more hmem
  have hle := h.longest next hnext (word ++ [letter])
    ⟨rest', by rw [h.split, List.append_assoc]; rfl⟩ hlonger
  rw [List.length_append] at hle
  exact absurd hle (by simp)

end Munch

/-- A function that cuts off the longest match. -/
structure Scanner (rules : List (Language α)) where
  lookup : List α → Option (Nat × List α × List α)
  lookup_iff : ∀ input rule word rest,
    lookup input = some (rule, word, rest) ↔ Munch rules input rule word rest

namespace Scanner

variable (scanner : Scanner rules) {input : List α}

theorem lookup_eq_none_iff : scanner.lookup input = none ↔
    ∀ rule word rest, ¬ Munch rules input rule word rest := by
  constructor
  · intro h rule word rest hmunch
    rw [(scanner.lookup_iff input rule word rest).mpr hmunch] at h
    contradiction
  · intro h
    cases hlookup : scanner.lookup input with
    | none => rfl
    | some found =>
        obtain ⟨rule, word, rest⟩ := found
        exact absurd ((scanner.lookup_iff input rule word rest).mp hlookup)
          (h rule word rest)

end Scanner

section Derivative

variable [DecidableEq α] (patterns : List (RegularExpression α))
  (input : List α)

/-- The first pattern that matches the longest start of the input of at most
this length. -/
def munchUpTo : Nat → Option (Nat × List α × List α)
  | 0 => none
  | n + 1 =>
      match patterns.findIdx? fun pattern =>
          pattern.rmatch (input.take (n + 1)) with
      | some rule => some (rule, input.take (n + 1), input.drop (n + 1))
      | none => munchUpTo n

variable {patterns input}

theorem munchUpTo_iff {n rule : Nat} {word rest : List α}
    (hn : n ≤ input.length)
    (hshort : ∀ language ∈ patterns.map RegularExpression.matches',
      ∀ longer, longer <+: input → longer ∈ language → longer.length ≤ n) :
    munchUpTo patterns input n = some (rule, word, rest) ↔
      Munch (patterns.map RegularExpression.matches') input rule word rest := by
  induction n with
  | zero =>
      constructor
      · intro h
        contradiction
      · intro h
        obtain ⟨language, hlanguage, hword⟩ := h.mem
        have hle := hshort language hlanguage word ⟨rest, h.split.symm⟩ hword
        exact absurd (List.eq_nil_of_length_eq_zero (Nat.le_zero.mp hle))
          h.nonempty
  | succ n ih =>
      rw [munchUpTo]
      cases hfound : patterns.findIdx? fun pattern =>
          pattern.rmatch (input.take (n + 1)) with
      | some first =>
          obtain ⟨hlt, hmatch, hbefore⟩ :=
            List.findIdx?_eq_some_iff_getElem.mp hfound
          have hmunch : Munch (patterns.map RegularExpression.matches') input
              first (input.take (n + 1)) (input.drop (n + 1)) := by
            refine ⟨(List.take_append_drop _ _).symm, ?_, ?_, ?_, ?_⟩
            · intro hnil
              have hlength := congrArg List.length hnil
              rw [List.length_take_of_le hn] at hlength
              contradiction
            · refine ⟨patterns[first].matches', ?_, ?_⟩
              · rw [List.getElem?_map, List.getElem?_eq_getElem hlt]
                rfl
              · exact (RegularExpression.rmatch_iff_matches' _ _).mp hmatch
            · intro language hlanguage hmem
              rw [← List.map_take] at hlanguage
              obtain ⟨pattern, hpattern, rfl⟩ := List.mem_map.mp hlanguage
              obtain ⟨earlier, hearlier, rfl⟩ := List.mem_take_iff_getElem.mp
                hpattern
              exact hbefore earlier (Nat.lt_of_lt_of_le hearlier
                (Nat.min_le_left _ _))
                ((RegularExpression.rmatch_iff_matches' _ _).mpr hmem)
            · rw [List.length_take_of_le hn]
              exact hshort
          constructor
          · intro h
            obtain ⟨rfl, hwords⟩ := Prod.mk.inj (Option.some.inj h)
            obtain ⟨rfl, rfl⟩ := Prod.mk.inj hwords
            exact hmunch
          · intro h
            obtain ⟨rfl, rfl, rfl⟩ := hmunch.unique h
            rfl
      | none =>
          have hnone := List.findIdx?_eq_none_iff.mp hfound
          refine ih (by omega) fun language hlanguage longer hlonger hmem => ?_
          have hle := hshort language hlanguage longer hlonger hmem
          by_contra hlt
          have hlength : longer.length = n + 1 := by omega
          obtain ⟨pattern, hpattern, rfl⟩ := List.mem_map.mp hlanguage
          have htake := List.prefix_iff_eq_take.mp hlonger
          rw [hlength] at htake
          rw [htake] at hmem
          have hmatch := (RegularExpression.rmatch_iff_matches' _ _).mpr hmem
          rw [hnone pattern hpattern] at hmatch
          contradiction

/-- The scanner that matches by derivatives. -/
def Scanner.ofPatterns (patterns : List (RegularExpression α)) :
    Scanner (patterns.map RegularExpression.matches') where
  lookup input := munchUpTo patterns input input.length
  lookup_iff _ _ _ _ := munchUpTo_iff (Nat.le_refl _)
    fun _ _ _ hlonger _ => hlonger.length_le

end Derivative

end MaximalMunch
