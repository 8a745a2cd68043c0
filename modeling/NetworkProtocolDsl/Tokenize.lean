/-
The tokens of a protocol text.

The state machine that is built from the rules finds the longest text that one
of them matches, and of the rules that match it the first; what it finds is
pushed as the rule says, until the input ends or no rule matches.
-/
import NetworkProtocolDsl.InputOutputOperation
import NetworkProtocolDsl.Library.MaximalMunch
import NetworkProtocolDsl.Parse

namespace NetworkProtocolDsl

open MaximalMunch RegularExpression

namespace Tokenize

def ascii (characters : List Char) : Octets :=
  characters.map fun character => UInt8.ofNat character.toNat

/-- A character class. -/
def bytesWhere (p : UInt8 → Bool) : List UInt8 :=
  ((List.range 256).map UInt8.ofNat).filter p

@[simp] theorem mem_bytesWhere {p : UInt8 → Bool} {b : UInt8} :
    b ∈ bytesWhere p ↔ p b = true := by
  have hall : b ∈ (List.range 256).map UInt8.ofNat :=
    List.mem_map.mpr ⟨b.toNat, List.mem_range.mpr b.toNat_lt, by simp⟩
  simp only [bytesWhere, List.mem_filter, hall, true_and]

def isLetter (b : UInt8) : Bool :=
  (65 ≤ b && b ≤ 90) || (97 ≤ b && b ≤ 122)

def isWordByte (b : UInt8) : Bool :=
  isLetter b || isDigit b || b == 95

def isBlank (b : UInt8) : Bool :=
  b == 32 || b == 9 || b == 10

def unescapeCharacter : UInt8 → UInt8
  | 110 => 10
  | 116 => 9
  | 114 => 13
  | 92 => 92
  | 34 => 34
  | b => b

/-- `unescape_string`. -/
def unescapeString : Octets → Octets
  | 92 :: b :: rest => unescapeCharacter b :: unescapeString rest
  | b :: rest => b :: unescapeString rest
  | [] => []

/-- `std::atoi`, which casts what `strtol` returns. -/
def atoi (digits : Octets) : Int :=
  Int.bmod (strtol digits 0).1 (2 ^ 32)

def identifierName (str : Octets) : String :=
  String.ofList (str.map fun b => Char.ofNat b.toNat)

structure TokenRule where
  pattern : RegularExpression UInt8
  pusher : List Token → Octets → List Token

def push (token : Token) (tokens : List Token) (_ : Octets) : List Token :=
  tokens ++ [token]

/-- `\"(\\["\\ntr]|[^"\\])*\"`. -/
def stringPattern : RegularExpression UInt8 :=
  char 34 * ((char 92 * oneOf [34, 92, 110, 116, 114] +
    oneOf (bytesWhere fun b => b != 34 && b != 92)).star * char 34)

/-- `\/\/[^\n]*`. -/
def commentPattern : RegularExpression UInt8 :=
  text [47, 47] * (oneOf (bytesWhere (· != 10))).star

/-- `[a-zA-Z][a-zA-Z0-9_]*`. -/
def identifierPattern : RegularExpression UInt8 :=
  oneOf (bytesWhere isLetter) * (oneOf (bytesWhere isWordByte)).star

def tokenRules : List TokenRule :=
  [⟨text (ascii ['T', 'r', 'u', 'e']), push (.boolean true)⟩,
    ⟨text (ascii ['F', 'a', 'l', 's', 'e']), push (.boolean false)⟩,
    ⟨text (ascii ['f', 'o', 'r']), push .keywordFor⟩,
    ⟨text (ascii ['i', 'n']), push .keywordIn⟩,
    ⟨text (ascii ['m', 'e', 's', 's', 'a', 'g', 'e']), push .keywordMessage⟩,
    ⟨text (ascii ['p', 'a', 'r', 't', 's']), push .keywordParts⟩,
    ⟨text (ascii ['t', 'e', 'r', 'm', 'i', 'n', 'a', 't', 'o', 'r']),
      push .keywordTerminator⟩,
    ⟨text (ascii ['t', 'o', 'k', 'e', 'n', 's']), push .keywordTokens⟩,
    ⟨oneOrMore (oneOf (bytesWhere isDigit)),
      fun tokens str => tokens ++ [.integer (atoi str)]⟩,
    ⟨stringPattern, fun tokens str => tokens ++
      [.string (unescapeString ((str.drop 1).take (str.length - 2)))]⟩,
    ⟨text (ascii ['>']), push .angleBracketClose⟩,
    ⟨text (ascii ['<']), push .angleBracketOpen⟩,
    ⟨text (ascii [',']), push .comma⟩,
    ⟨text (ascii ['}']), push .curlyBraceClose⟩,
    ⟨text (ascii ['{']), push .curlyBraceOpen⟩,
    ⟨text (ascii ['=']), push .equal⟩,
    ⟨text (ascii [':']), push .keyValueSeparator⟩,
    ⟨text (ascii [';']), push .statementEnd⟩,
    ⟨text (ascii ['.']), push .dot⟩,
    ⟨commentPattern, fun tokens _ => tokens⟩,
    ⟨oneOrMore (oneOf (bytesWhere isBlank)), fun tokens _ => tokens⟩,
    ⟨identifierPattern,
      fun tokens str => tokens ++ [.identifier (identifierName str)]⟩]

def patterns : List (RegularExpression UInt8) :=
  tokenRules.map TokenRule.pattern

def languages : List (Language UInt8) :=
  patterns.map RegularExpression.matches'

/-- What `lexertl` builds from the rules: it looks up the longest match. -/
abbrev StateMachine := Scanner languages

/-- The state machine that takes derivatives. -/
def derivatives : StateMachine :=
  Scanner.ofPatterns patterns

variable (sm : StateMachine)

def tokenizeLoop (ret : List Token) (input : Octets) : Option (List Token) :=
  match input with
  | [] => some ret
  | first :: rest =>
      match hlookup : sm.lookup (first :: rest) with
      | none => none
      | some (ruleId, str, after) =>
          have : after.length < (first :: rest).length :=
            ((sm.lookup_iff _ _ _ _).mp hlookup).length_lt
          match tokenRules[ruleId]? with
          | some rule => tokenizeLoop (rule.pusher ret str) after
          | none => tokenizeLoop ret after
termination_by input.length
decreasing_by all_goals exact this

end Tokenize

open Tokenize

def tokenize (sm : StateMachine) (input : Octets) : Option (List Token) :=
  tokenizeLoop sm [] input

namespace Tokenize

/-- What the rule pushes. -/
def pushed (ruleId : Nat) (str : Octets) : List Token :=
  match tokenRules[ruleId]? with
  | some rule => rule.pusher [] str
  | none => []

theorem pusher_eq {rule : TokenRule} (h : rule ∈ tokenRules)
    (tokens : List Token) (str : Octets) :
    rule.pusher tokens str = tokens ++ rule.pusher [] str := by
  simp only [tokenRules, List.mem_cons, List.not_mem_nil, or_false] at h
  rcases h with rfl | rfl | rfl | rfl | rfl | rfl | rfl | rfl | rfl | rfl | rfl |
    rfl | rfl | rfl | rfl | rfl | rfl | rfl | rfl | rfl | rfl | rfl
  all_goals first | rfl | exact (List.append_nil tokens).symm

variable {sm : StateMachine} {input str rest : Octets} {ruleId : Nat}

theorem tokenizeLoop_munch (h : Munch languages input ruleId str rest)
    (ret : List Token) :
    tokenizeLoop sm ret input =
      tokenizeLoop sm (ret ++ pushed ruleId str) rest := by
  have hlookup := (sm.lookup_iff input ruleId str rest).mpr h
  cases input with
  | nil => exact absurd h.length_lt (Nat.not_lt_zero _)
  | cons first others =>
      rw [tokenizeLoop]
      split
      · rename_i hnone
        rw [hlookup] at hnone
        contradiction
      · rename_i found hfound
        rw [hlookup] at hfound
        obtain ⟨rfl, hrest⟩ := Prod.mk.inj (Option.some.inj hfound)
        obtain ⟨rfl, rfl⟩ := Prod.mk.inj hrest
        rw [pushed]
        split
        · rename_i rule hrule
          rw [pusher_eq (List.mem_of_getElem? hrule)]
        · rw [List.append_nil]

theorem tokenizeLoop_none (hne : input ≠ [])
    (h : ∀ ruleId str rest, ¬ Munch languages input ruleId str rest)
    (ret : List Token) : tokenizeLoop sm ret input = none := by
  have hlookup := sm.lookup_eq_none_iff.mpr h
  obtain ⟨first, others, rfl⟩ := List.exists_cons_of_ne_nil hne
  rw [tokenizeLoop]
  split
  · rfl
  · rename_i hfound
    rw [hlookup] at hfound
    contradiction

/-- The tokens that were pushed before stay in front. -/
theorem tokenizeLoop_eq (sm : StateMachine) (ret : List Token)
    (input : Octets) :
    tokenizeLoop sm ret input = (tokenize sm input).map (ret ++ ·) := by
  rw [tokenize]
  by_cases hne : input = []
  · subst hne
    simp [tokenizeLoop]
  · by_cases hmunch : ∃ ruleId str rest,
        Munch languages input ruleId str rest
    · obtain ⟨ruleId, str, rest, hmunch⟩ := hmunch
      have hlt := hmunch.length_lt
      rw [tokenizeLoop_munch hmunch, tokenizeLoop_munch hmunch,
        tokenizeLoop_eq sm (ret ++ pushed ruleId str) rest,
        tokenizeLoop_eq sm ([] ++ pushed ruleId str) rest, Option.map_map]
      simp [Function.comp_def]
    · have hnone : ∀ ruleId str rest,
          ¬ Munch languages input ruleId str rest :=
        fun ruleId str rest h => hmunch ⟨ruleId, str, rest, h⟩
      rw [tokenizeLoop_none hne hnone, tokenizeLoop_none hne hnone]
      rfl
termination_by input.length

end Tokenize

@[simp] theorem tokenize_nil (sm : StateMachine) : tokenize sm [] = some [] := by
  rw [tokenize, tokenizeLoop]

/-- What was found is pushed in front of the tokens of the rest. -/
theorem tokenize_munch (sm : StateMachine) {input str rest : Octets}
    {ruleId : Nat} (h : Munch languages input ruleId str rest) :
    tokenize sm input = (tokenize sm rest).map (pushed ruleId str ++ ·) := by
  rw [tokenize, tokenizeLoop_munch h, tokenizeLoop_eq]
  rfl

/-- Where nothing is found there are no tokens. -/
theorem tokenize_none (sm : StateMachine) {input : Octets} (hne : input ≠ [])
    (h : ∀ ruleId str rest, ¬ Munch languages input ruleId str rest) :
    tokenize sm input = none :=
  tokenizeLoop_none hne h []

end NetworkProtocolDsl
