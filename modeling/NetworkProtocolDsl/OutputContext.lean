/-
Octets as C++ string literals.

The generators print octets as string literals, with a hexadecimal escape for
every byte that has no other form.  In C++ such an escape takes all the
hexadecimal digits that follow, so a literal is read back as it was meant
exactly if no byte behind an escape is a digit.
-/
import Mathlib.Data.List.Basic
import NetworkProtocolDsl.Value

namespace NetworkProtocolDsl

namespace OutputContext

/-- `std::isprint` in the C locale. -/
def isPrint (b : UInt8) : Bool :=
  32 ≤ b && b ≤ 126

/-- A digit as `std::hex` prints it. -/
def hexDigit (n : Nat) : UInt8 :=
  if n < 10 then UInt8.ofNat (48 + n) else UInt8.ofNat (87 + n)

def escapeByte (b : UInt8) : Octets :=
  if b = 13 then [92, 114]
  else if b = 10 then [92, 110]
  else if b = 9 then [92, 116]
  else if b = 92 then [92, 92]
  else if b = 34 then [92, 34]
  else if isPrint b then [b]
  else [92, 120, hexDigit (b.toNat / 16), hexDigit (b.toNat % 16)]

def escapeStringLiteral (s : Octets) : Octets :=
  34 :: (s.flatMap escapeByte ++ [34])

end OutputContext

namespace CppLiteral

/-- The value of a hexadecimal digit. -/
def hexValue? (b : UInt8) : Option Nat :=
  if 48 ≤ b && b ≤ 57 then some (b.toNat - 48)
  else if 97 ≤ b && b ≤ 102 then some (b.toNat - 87)
  else if 65 ≤ b && b ≤ 70 then some (b.toNat - 55)
  else none

def isHexDigit (b : UInt8) : Bool :=
  (hexValue? b).isSome

def hexNumber (digits : Octets) : Nat :=
  digits.foldl (fun n b => 16 * n + (hexValue? b).getD 0) 0

/-- The character a simple escape stands for; the generators print no other
ones. -/
def simpleEscape (b : UInt8) : Option UInt8 :=
  if b = 114 then some 13
  else if b = 110 then some 10
  else if b = 116 then some 9
  else if b = 92 then some 92
  else if b = 34 then some 34
  else none

/-- What C++ reads up to the closing quote.  A hexadecimal escape takes as many
digits as there are, and its number has to fit into a character. -/
def readCharacters : Nat → Octets → Option Octets
  | 0, _ => none
  | _ + 1, [] => none
  | fuel + 1, b :: rest =>
      if b = 34 then
        if rest = [] then some [] else none
      else if b = 10 then none
      else if b = 92 then
        match rest with
        | [] => none
        | c :: rest =>
            if c = 120 then
              let digits := rest.takeWhile isHexDigit
              if digits = [] ∨ 255 < hexNumber digits then none
              else
                (readCharacters fuel (rest.dropWhile isHexDigit)).map
                  (UInt8.ofNat (hexNumber digits) :: ·)
            else
              (simpleEscape c).bind fun value =>
                (readCharacters fuel rest).map (value :: ·)
      else (readCharacters fuel rest).map (b :: ·)

def readStringLiteral : Octets → Option Octets
  | [] => none
  | b :: rest => if b = 34 then readCharacters rest.length rest else none

/-- The array that a literal initializes, its closing NUL included. -/
def charArray (literal : Octets) : Option Octets :=
  (readStringLiteral literal).map (· ++ [0])

end CppLiteral

namespace OutputContext

open CppLiteral

/-- The byte has no form but the hexadecimal one. -/
def hexEscaped (b : UInt8) : Bool :=
  !isPrint b && b != 13 && b != 10 && b != 9

/-- No byte that is printed as a hexadecimal escape is followed by a
hexadecimal digit. -/
def Survives (s : Octets) : Prop :=
  s.IsChain fun b c => hexEscaped b = true → isHexDigit c = false

instance (s : Octets) : Decidable (Survives s) :=
  inferInstanceAs (Decidable (List.IsChain _ s))

theorem hexValue?_hexDigit {n : Nat} (h : n < 16) :
    hexValue? (hexDigit n) = some n := by
  have hall : ∀ m : Fin 16, hexValue? (hexDigit m) = some m.val := by decide
  exact hall ⟨n, h⟩

theorem isHexDigit_hexDigit {n : Nat} (h : n < 16) :
    isHexDigit (hexDigit n) = true := by
  rw [isHexDigit, hexValue?_hexDigit h]
  rfl

/-- A byte is printed as it is, as a simple escape, or in hexadecimal. -/
theorem escapeByte_cases (b : UInt8) :
    hexEscaped b = false ∧ escapeByte b = [b] ∧ b ≠ 34 ∧ b ≠ 10 ∧ b ≠ 92 ∨
    hexEscaped b = false ∧ (∃ c, escapeByte b = [92, c] ∧ c ≠ 120 ∧
      simpleEscape c = some b) ∨
    hexEscaped b = true ∧ escapeByte b =
      [92, 120, hexDigit (b.toNat / 16), hexDigit (b.toNat % 16)] := by
  unfold escapeByte
  split
  · rename_i hb
    subst hb
    exact Or.inr (Or.inl ⟨by decide, 114, rfl, by decide, by decide⟩)
  · split
    · rename_i hb
      subst hb
      exact Or.inr (Or.inl ⟨by decide, 110, rfl, by decide, by decide⟩)
    · split
      · rename_i hb
        subst hb
        exact Or.inr (Or.inl ⟨by decide, 116, rfl, by decide, by decide⟩)
      · split
        · rename_i hb
          subst hb
          exact Or.inr (Or.inl ⟨by decide, 92, rfl, by decide, by decide⟩)
        · split
          · rename_i hb
            subst hb
            exact Or.inr (Or.inl ⟨by decide, 34, rfl, by decide, by decide⟩)
          · rename_i hcr hlf htab hbackslash hquote
            split
            · rename_i hprint
              refine Or.inl ⟨?_, rfl, hquote, hlf, hbackslash⟩
              simp [hexEscaped, hprint]
            · rename_i hprint
              refine Or.inr (Or.inr ⟨?_, rfl⟩)
              simp [hexEscaped, hprint, hcr, hlf, htab]

/-- A hexadecimal digit is printed as it is, and nothing else starts with
one. -/
theorem escapeByte_head (b : UInt8) :
    isHexDigit b = true ∧ escapeByte b = [b] ∨
    isHexDigit b = false ∧ ∃ c rest, escapeByte b = c :: rest ∧
      isHexDigit c = false := by
  rcases escapeByte_cases b with ⟨_, hprint, _⟩ | ⟨_, c, hprint, _, hsimple⟩ |
    ⟨hescaped, hprint⟩
  · cases hdigit : isHexDigit b with
    | true => exact Or.inl ⟨rfl, hprint⟩
    | false => exact Or.inr ⟨rfl, b, [], hprint, hdigit⟩
  · refine Or.inr ⟨?_, 92, [c], hprint, by decide⟩
    unfold simpleEscape at hsimple
    split at hsimple
    · obtain rfl := Option.some.inj hsimple
      decide
    · split at hsimple
      · obtain rfl := Option.some.inj hsimple
        decide
      · split at hsimple
        · obtain rfl := Option.some.inj hsimple
          decide
        · split at hsimple
          · obtain rfl := Option.some.inj hsimple
            decide
          · split at hsimple
            · obtain rfl := Option.some.inj hsimple
              decide
            · contradiction
  · refine Or.inr ⟨?_, 92, _, hprint, by decide⟩
    have hprintable : isPrint b = false := by
      simp only [hexEscaped, Bool.and_eq_true, Bool.not_eq_true'] at hescaped
      exact hescaped.1.1.1
    simp only [isPrint, Bool.and_eq_false_iff, decide_eq_false_iff_not,
      UInt8.not_le] at hprintable
    simp only [isHexDigit, hexValue?, Bool.and_eq_true, decide_eq_true_eq]
    have hout : ¬ (48 ≤ b ∧ b ≤ 57) ∧ ¬ (97 ≤ b ∧ b ≤ 102) ∧
        ¬ (65 ≤ b ∧ b ≤ 70) := by
      simp only [UInt8.le_iff_toNat_le, UInt8.lt_iff_toNat_lt,
        UInt8.reduceToNat] at hprintable ⊢
      omega
    rw [if_neg hout.1, if_neg hout.2.1, if_neg hout.2.2]
    rfl

/-- What stands between the quotes, and the closing one. -/
def characters (s : Octets) : Octets :=
  s.flatMap escapeByte ++ [34]

theorem characters_cons (b : UInt8) (s : Octets) :
    characters (b :: s) = escapeByte b ++ characters s := by
  rw [characters, List.flatMap_cons, List.append_assoc, characters]

/-- The digits that follow in print are those that follow. -/
theorem characters_digits (s : Octets) :
    (characters s).takeWhile isHexDigit = s.takeWhile isHexDigit ∧
      (characters s).dropWhile isHexDigit =
        characters (s.dropWhile isHexDigit) := by
  induction s with
  | nil => decide
  | cons b s ih =>
      rw [characters_cons]
      rcases escapeByte_head b with ⟨hdigit, hprint⟩ |
        ⟨hdigit, c, rest, hprint, hc⟩
      · rw [hprint, List.singleton_append]
        constructor
        · rw [List.takeWhile_cons_of_pos hdigit,
            List.takeWhile_cons_of_pos hdigit, ih.1]
        · rw [List.dropWhile_cons_of_pos hdigit,
            List.dropWhile_cons_of_pos hdigit, ih.2]
      · have hnot : ¬ isHexDigit b = true := by simp [hdigit]
        have hnot' : ¬ isHexDigit c = true := by simp [hc]
        constructor
        · rw [hprint, List.cons_append, List.takeWhile_cons_of_neg hnot,
            List.takeWhile_cons_of_neg hnot']
        · rw [List.dropWhile_cons_of_neg hnot, characters_cons, hprint,
            List.cons_append, List.dropWhile_cons_of_neg hnot']

theorem survives_cons (b : UInt8) (s : Octets) :
    Survives (b :: s) ↔
      (hexEscaped b = true → s.takeWhile isHexDigit = []) ∧ Survives s := by
  cases s with
  | nil => simp [Survives]
  | cons c s =>
      rw [Survives, List.isChain_cons_cons]
      cases hdigit : isHexDigit c <;> simp [Survives, hdigit]

/-- The number of an escape without further digits is the byte. -/
theorem hexNumber_byte (b : UInt8) (digits : Octets) :
    hexNumber (hexDigit (b.toNat / 16) :: hexDigit (b.toNat % 16) :: digits) =
      digits.foldl (fun n c => 16 * n + (hexValue? c).getD 0) b.toNat := by
  have hlt := b.toNat_lt
  have hnumber : 16 * (b.toNat / 16) + b.toNat % 16 = b.toNat := by omega
  simp only [hexNumber, List.foldl_cons,
    hexValue?_hexDigit (show b.toNat / 16 < 16 by omega),
    hexValue?_hexDigit (show b.toNat % 16 < 16 by omega), Option.getD_some,
    Nat.mul_zero, Nat.zero_add, hnumber]

/-- Reading a byte that is not printed in hexadecimal. -/
theorem readCharacters_plain {b : UInt8} (h : hexEscaped b = false)
    (fuel : Nat) (rest : Octets) :
    readCharacters (fuel + 1) (escapeByte b ++ rest) =
      (readCharacters fuel rest).map (b :: ·) := by
  rcases escapeByte_cases b with ⟨_, hprint, hquote, hnewline, hbackslash⟩ |
    ⟨_, c, hprint, hc, hsimple⟩ | ⟨hescaped, _⟩
  · rw [hprint, List.singleton_append, readCharacters.eq_def]
    simp only [if_neg hquote, if_neg hnewline, if_neg hbackslash]
  · rw [hprint, List.cons_append, List.singleton_append, readCharacters,
      if_neg (by decide), if_neg (by decide), if_pos rfl]
    simp only [if_neg hc, hsimple, Option.bind_some]
  · rw [h] at hescaped
    contradiction

/-- Reading a hexadecimal escape takes the digits that follow. -/
theorem readCharacters_hex {b : UInt8} (h : hexEscaped b = true) (fuel : Nat)
    (s : Octets) :
    readCharacters (fuel + 1) (escapeByte b ++ characters s) =
      let number := (s.takeWhile isHexDigit).foldl
        (fun n c => 16 * n + (hexValue? c).getD 0) b.toNat
      if 255 < number then none
      else (readCharacters fuel (characters (s.dropWhile isHexDigit))).map
        (UInt8.ofNat number :: ·) := by
  rcases escapeByte_cases b with ⟨hnot, _⟩ | ⟨hnot, _⟩ | ⟨_, hprint⟩
  · rw [h] at hnot
    contradiction
  · rw [h] at hnot
    contradiction
  · have hlt := b.toNat_lt
    have hhigh : isHexDigit (hexDigit (b.toNat / 16)) = true :=
      isHexDigit_hexDigit (by omega)
    have hlow : isHexDigit (hexDigit (b.toNat % 16)) = true :=
      isHexDigit_hexDigit (by omega)
    rw [hprint]
    simp only [List.cons_append, List.nil_append]
    rw [readCharacters, if_neg (by decide), if_neg (by decide), if_pos rfl]
    simp only [↓reduceIte, List.takeWhile_cons_of_pos hhigh,
      List.takeWhile_cons_of_pos hlow, List.dropWhile_cons_of_pos hhigh,
      List.dropWhile_cons_of_pos hlow, (characters_digits s).1,
      (characters_digits s).2, hexNumber_byte, reduceCtorEq, false_or]

/-- What survives is read back. -/
theorem readCharacters_survives {s : Octets} (h : Survives s) {fuel : Nat}
    (hfuel : s.length < fuel) :
    readCharacters fuel (characters s) = some s := by
  induction s generalizing fuel with
  | nil =>
      obtain ⟨fuel, rfl⟩ := Nat.exists_eq_add_of_lt hfuel
      rfl
  | cons b s ih =>
      obtain ⟨hdigits, hrest⟩ := (survives_cons b s).mp h
      cases fuel with
      | zero => contradiction
      | succ fuel =>
          have hread := ih hrest (Nat.lt_of_succ_lt_succ hfuel)
          rw [characters_cons]
          cases hescaped : hexEscaped b with
          | false => rw [readCharacters_plain hescaped, hread, Option.map_some]
          | true =>
              have hnone := hdigits hescaped
              have hdrop : s.dropWhile isHexDigit = s := by
                have happend := List.takeWhile_append_dropWhile
                  (p := isHexDigit) (l := s)
                rwa [hnone, List.nil_append] at happend
              have hlt := b.toNat_lt
              have hsmall : ¬ 255 < b.toNat := by omega
              rw [readCharacters_hex hescaped, hnone, hdrop]
              simp [hsmall, hread]

/-- One digit is taken for a part of the escape before it. -/
def OneDigitLost (s read : Octets) : Prop :=
  ∃ before b value digit after, s = before ++ b :: digit :: after ∧
    read = before ++ value :: after ∧ isHexDigit digit = true

/-- What is read survives, or is shorter than what was printed. -/
theorem readCharacters_cases {s read : Octets} {fuel : Nat}
    (h : readCharacters fuel (characters s) = some read) :
    Survives s ∧ read = s ∨ read.length < s.length ∧
      (read.length + 1 = s.length → OneDigitLost s read) := by
  induction fuel generalizing s read with
  | zero => contradiction
  | succ fuel ih =>
      cases s with
      | nil =>
          obtain rfl : read = [] := by
            simpa [characters, readCharacters] using h.symm
          exact Or.inl ⟨List.IsChain.nil, rfl⟩
      | cons b s =>
          rw [characters_cons] at h
          cases hescaped : hexEscaped b with
          | false =>
              rw [readCharacters_plain hescaped] at h
              obtain ⟨rest, hrest, rfl⟩ := Option.map_eq_some_iff.mp h
              rcases ih hrest with ⟨hsurvives, rfl⟩ | ⟨hlt, hlost⟩
              · refine Or.inl ⟨(survives_cons b rest).mpr ⟨?_, hsurvives⟩, rfl⟩
                simp [hescaped]
              · refine Or.inr ⟨by simpa using hlt, fun hlength => ?_⟩
                obtain ⟨before, c, value, digit, after, rfl, rfl, hdigit⟩ :=
                  hlost (by simpa using hlength)
                exact ⟨b :: before, c, value, digit, after, rfl, rfl, hdigit⟩
          | true =>
              have happend := List.takeWhile_append_dropWhile
                (p := isHexDigit) (l := s)
              have hdigits : ∀ c ∈ s.takeWhile isHexDigit,
                  isHexDigit c = true :=
                List.all_eq_true.mp List.all_takeWhile
              rw [readCharacters_hex hescaped] at h
              generalize htaken : s.takeWhile isHexDigit = digits at *
              generalize s.dropWhile isHexDigit = rest at *
              subst happend
              simp only at h
              split at h
              · contradiction
              · obtain ⟨read, hread, rfl⟩ := Option.map_eq_some_iff.mp h
                cases digits with
                | nil =>
                    rw [List.foldl_nil, UInt8.ofNat_toNat]
                    rcases ih hread with ⟨hsurvives, rfl⟩ | ⟨hlt, hlost⟩
                    · have hrest : Survives (b :: ([] ++ read)) :=
                        (survives_cons b _).mpr ⟨fun _ => htaken, hsurvives⟩
                      exact Or.inl ⟨hrest, rfl⟩
                    · refine Or.inr ⟨by simpa using hlt, fun hlength => ?_⟩
                      obtain ⟨before, c, value, digit, after, rfl, rfl,
                        hdigit⟩ := hlost (by simpa using hlength)
                      exact ⟨b :: before, c, value, digit, after, rfl, rfl,
                        hdigit⟩
                | cons digit digits =>
                    have hdigit := hdigits digit List.mem_cons_self
                    right
                    simp only [List.length_cons, List.length_append]
                    rcases ih hread with ⟨_, rfl⟩ | ⟨hlt, _⟩
                    · refine ⟨by omega, fun hlength => ?_⟩
                      obtain rfl : digits = [] :=
                        List.length_eq_zero_iff.mp (by omega)
                      exact ⟨[], b, _, digit, read, rfl, rfl, hdigit⟩
                    · exact ⟨by omega, fun hlength => by omega⟩

theorem readStringLiteral_escapeStringLiteral (s : Octets) :
    readStringLiteral (escapeStringLiteral s) =
      readCharacters (characters s).length (characters s) := by
  rw [escapeStringLiteral, readStringLiteral, if_pos rfl, characters]

theorem length_lt_characters (s : Octets) : s.length < (characters s).length := by
  induction s with
  | nil => decide
  | cons b s ih =>
      have hpositive : 0 < (escapeByte b).length := by
        rcases escapeByte_cases b with ⟨_, hprint, _⟩ | ⟨_, _, hprint, _⟩ |
          ⟨_, hprint⟩ <;> simp [hprint]
      rw [characters_cons, List.length_cons, List.length_append]
      omega

/-- The array of a literal that survives holds the octets. -/
theorem charArray_of_survives {s : Octets} (h : Survives s) :
    charArray (escapeStringLiteral s) = some (s ++ [0]) := by
  rw [charArray, readStringLiteral_escapeStringLiteral,
    readCharacters_survives h (length_lt_characters s), Option.map_some]

/-- An array that starts with the octets is that of a literal that survives.
The closing NUL cannot stand for a lost digit. -/
theorem survives_of_charArray {s array : Octets}
    (h : charArray (escapeStringLiteral s) = some array)
    (hlength : s.length ≤ array.length) (htake : array.take s.length = s) :
    Survives s := by
  rw [charArray, readStringLiteral_escapeStringLiteral] at h
  obtain ⟨read, hread, rfl⟩ := Option.map_eq_some_iff.mp h
  rcases readCharacters_cases hread with ⟨hsurvives, _⟩ | ⟨hlt, hlost⟩
  · exact hsurvives
  · rw [List.length_append, List.length_singleton] at hlength
    have hexact : read.length + 1 = s.length := by omega
    have hwhole : read ++ [0] = s := by
      rwa [List.take_of_length_le (by simp [hexact])] at htake
    obtain ⟨before, b, value, digit, after, hs, rfl, hdigit⟩ := hlost hexact
    rw [hs, List.append_assoc, List.append_cancel_left_eq, List.cons_append,
      List.cons.injEq] at hwhole
    have hperm : (digit :: after).Perm (0 :: after) := by
      rw [← hwhole.2]
      exact List.perm_append_singleton 0 after
    have hzero : digit = 0 := by
      have hcount := hperm.count_eq digit
      by_contra hne
      rw [List.count_cons_self, List.count_cons_of_ne (Ne.symm hne)] at hcount
      omega
    rw [hzero] at hdigit
    exact absurd hdigit (by decide)

/-- A literal is read back as the octets exactly if they survive. -/
theorem readStringLiteral_iff (s : Octets) :
    readStringLiteral (escapeStringLiteral s) = some s ↔ Survives s := by
  rw [readStringLiteral_escapeStringLiteral]
  constructor
  · intro h
    rcases readCharacters_cases h with ⟨hsurvives, _⟩ | ⟨hlt, _⟩
    · exact hsurvives
    · exact absurd hlt (Nat.lt_irrefl _)
  · intro h
    exact readCharacters_survives h (length_lt_characters s)

/-- The escape of the first byte takes the digit behind it. -/
theorem digit_behind_escape_swallowed :
    readStringLiteral (escapeStringLiteral [1, 51]) ≠ some [1, 51] := by
  decide

example : readStringLiteral (escapeStringLiteral [1, 51, 53, 61]) = none :=
  by decide

example : readStringLiteral (escapeStringLiteral [13, 10, 1, 103]) =
    some [13, 10, 1, 103] := by decide

end OutputContext

end NetworkProtocolDsl
