/-
What the texts of a list of tokens are.

A text is the spellings of its tokens with blanks and comments anywhere between
them; only a word or a number has to end before it would go on.  These are the
texts that the longest match cuts into the tokens, and no others.
-/
import NetworkProtocolDsl.Tokenize

namespace NetworkProtocolDsl

open MaximalMunch RegularExpression Tokenize

namespace Lexical

/-- What is found in a text, by its first byte. -/
inductive Kind where
  | word
  | integer
  | string
  | punctuation
  | comment
  | blanks
deriving DecidableEq, Repr

def reserved : List (Octets × Token) :=
  [(ascii ['T', 'r', 'u', 'e'], .boolean true),
    (ascii ['F', 'a', 'l', 's', 'e'], .boolean false),
    (ascii ['f', 'o', 'r'], .keywordFor),
    (ascii ['i', 'n'], .keywordIn),
    (ascii ['m', 'e', 's', 's', 'a', 'g', 'e'], .keywordMessage),
    (ascii ['p', 'a', 'r', 't', 's'], .keywordParts),
    (ascii ['t', 'e', 'r', 'm', 'i', 'n', 'a', 't', 'o', 'r'],
      .keywordTerminator),
    (ascii ['t', 'o', 'k', 'e', 'n', 's'], .keywordTokens)]

def marks : List (Octets × Token) :=
  [(ascii ['>'], .angleBracketClose), (ascii ['<'], .angleBracketOpen),
    (ascii [','], .comma), (ascii ['}'], .curlyBraceClose),
    (ascii ['{'], .curlyBraceOpen), (ascii ['='], .equal),
    (ascii [':'], .keyValueSeparator), (ascii [';'], .statementEnd),
    (ascii ['.'], .dot)]

/-- What may stand between the quotes. -/
def stringBody : Octets → Bool
  | 92 :: b :: rest => [34, 92, 110, 116, 114].contains b && stringBody rest
  | b :: rest => b != 34 && b != 92 && stringBody rest
  | [] => true

inductive Lexeme : Kind → Octets → Prop where
  | word {b : UInt8} {rest : Octets} : isLetter b = true →
      (∀ c ∈ rest, isWordByte c = true) → Lexeme .word (b :: rest)
  | integer {str : Octets} : str ≠ [] → (∀ b ∈ str, isDigit b = true) →
      Lexeme .integer str
  | string {body : Octets} : stringBody body = true →
      Lexeme .string (34 :: (body ++ [34]))
  | punctuation {entry : Octets × Token} : entry ∈ marks →
      Lexeme .punctuation entry.1
  | comment {line : Octets} : (∀ b ∈ line, b ≠ 10) →
      Lexeme .comment (47 :: 47 :: line)
  | blanks {str : Octets} : str ≠ [] → (∀ b ∈ str, isBlank b = true) →
      Lexeme .blanks str

def Kind.ofByte (b : UInt8) : Option Kind :=
  if isLetter b then some .word
  else if isDigit b then some .integer
  else if b == 34 then some .string
  else if b == 47 then some .comment
  else if isBlank b then some .blanks
  else if marks.any fun entry => entry.1.contains b then some .punctuation
  else none

/-- The bytes that a text of the kind goes on with. -/
def Kind.continues : Kind → UInt8 → Bool
  | .word, b => isWordByte b
  | .integer, b => isDigit b
  | .comment, b => b != 10
  | .blanks, b => isBlank b
  | _, _ => false

def Kind.EndsAt (kind : Kind) (rest : Octets) : Prop :=
  ∀ b rest', rest = b :: rest' → kind.continues b = false

section Bytes

variable {b : UInt8}

theorem isDigit_iff : isDigit b = true ↔ 48 ≤ b.toNat ∧ b.toNat ≤ 57 := by
  simp [isDigit, UInt8.le_iff_toNat_le]

theorem isLetter_iff : isLetter b = true ↔
    65 ≤ b.toNat ∧ b.toNat ≤ 90 ∨ 97 ≤ b.toNat ∧ b.toNat ≤ 122 := by
  simp [isLetter, UInt8.le_iff_toNat_le]

theorem not_isLetter_of_isDigit (h : isDigit b = true) :
    isLetter b = false := by
  rw [isDigit_iff] at h
  rw [Bool.eq_false_iff, ne_eq, isLetter_iff]
  omega

theorem isBlank_cases (h : isBlank b = true) : b = 32 ∨ b = 9 ∨ b = 10 := by
  simpa [isBlank, or_assoc] using h

end Bytes

theorem length_mark {entry : Octets × Token} (h : entry ∈ marks) :
    entry.1.length = 1 := by
  have hall : ∀ entry ∈ marks, entry.1.length = 1 := by decide
  exact hall entry h

theorem reserved_word {entry : Octets × Token} (h : entry ∈ reserved) :
    Lexeme .word entry.1 := by
  simp only [reserved, List.mem_cons, List.not_mem_nil, or_false] at h
  rcases h with rfl | rfl | rfl | rfl | rfl | rfl | rfl | rfl
  all_goals exact .word rfl (List.all_eq_true.mp rfl)

namespace Lexeme

variable {kind kind' : Kind} {str rest : Octets} {b : UInt8}

/-- The first byte tells the kind. -/
theorem ofByte (h : Lexeme kind str) :
    ∃ first others, str = first :: others ∧ Kind.ofByte first = some kind := by
  cases h with
  | word hletter _ => exact ⟨_, _, rfl, if_pos hletter⟩
  | integer hne hdigits =>
      obtain ⟨first, others, rfl⟩ := List.exists_cons_of_ne_nil hne
      have hdigit := hdigits first List.mem_cons_self
      refine ⟨first, others, rfl, ?_⟩
      rw [Kind.ofByte, not_isLetter_of_isDigit hdigit, hdigit]
      rfl
  | string _ => exact ⟨34, _, rfl, by decide⟩
  | punctuation hmem =>
      simp only [marks, List.mem_cons, List.not_mem_nil, or_false] at hmem
      rcases hmem with rfl | rfl | rfl | rfl | rfl | rfl | rfl | rfl | rfl
      all_goals exact ⟨_, [], rfl, by decide⟩
  | comment _ => exact ⟨47, _, rfl, by decide⟩
  | blanks hne hblanks =>
      obtain ⟨first, others, rfl⟩ := List.exists_cons_of_ne_nil hne
      refine ⟨first, others, rfl, ?_⟩
      rcases isBlank_cases (hblanks first List.mem_cons_self) with
        rfl | rfl | rfl
      all_goals decide

theorem ne_nil (h : Lexeme kind str) : str ≠ [] := by
  obtain ⟨first, others, rfl, _⟩ := h.ofByte
  exact List.cons_ne_nil first others

theorem kind_eq_append (h : Lexeme kind str)
    (h' : Lexeme kind' (str ++ rest)) : kind = kind' := by
  obtain ⟨first, others, rfl, hkind⟩ := h.ofByte
  obtain ⟨first', others', heq, hkind'⟩ := h'.ofByte
  obtain ⟨rfl, _⟩ := List.cons.inj heq
  exact Option.some.inj (hkind.symm.trans hkind')

theorem kind_eq (h : Lexeme kind str) (h' : Lexeme kind' str) :
    kind = kind' := by
  rw [← List.append_nil str] at h'
  exact h.kind_eq_append h'

end Lexeme

/-- Nothing stands between the quotes after a quote. -/
theorem stringBody_append_quote {body : Octets} (h : stringBody body = true)
    (rest : Octets) : stringBody (body ++ 34 :: rest) = false := by
  fun_induction stringBody body with
  | case1 b body ih =>
      rw [Bool.and_eq_true] at h
      rw [List.cons_append, List.cons_append, stringBody, ih h.2,
        Bool.and_false]
  | case2 b body hnot ih =>
      rw [Bool.and_eq_true, Bool.and_eq_true, bne_iff_ne, bne_iff_ne] at h
      rw [List.cons_append, stringBody, ih h.2, Bool.and_false]
      exact fun _ _ heq => absurd heq h.1.2
  | case3 => rfl

namespace Lexeme

variable {kind kind' : Kind} {str rest : Octets} {b : UInt8}

/-- A text that goes on goes on with a byte of its kind. -/
theorem continues_of_append (h : Lexeme kind str)
    (h' : Lexeme kind (str ++ b :: rest)) : kind.continues b = true := by
  generalize hlonger : str ++ b :: rest = longer at h'
  cases h with
  | word _ _ =>
      cases h' with
      | word _ hrest =>
          obtain ⟨_, rfl⟩ := List.cons.inj hlonger
          exact hrest b (by simp)
  | integer _ _ =>
      cases h' with
      | integer _ hdigits =>
          rw [← hlonger] at hdigits
          exact hdigits b (by simp)
  | @string body hbody =>
      cases h' with
      | @string body' hbody' =>
          obtain ⟨_, hrest⟩ := List.cons.inj hlonger
          obtain ⟨init, last, hlast⟩ :=
            (List.eq_nil_or_concat (b :: rest)).resolve_left
              (List.cons_ne_nil b rest)
          have hsplit : (body ++ 34 :: init) ++ [last] = body' ++ [34] := by
            rw [← hrest, hlast]
            simp
          have hinit := (List.append_inj' hsplit rfl).1
          rw [← hinit, stringBody_append_quote hbody] at hbody'
          contradiction
  | punctuation hmem =>
      have hlength := congrArg List.length hlonger
      cases h' with
      | punctuation hmem' =>
          rw [List.length_append, length_mark hmem, length_mark hmem']
            at hlength
          exact absurd hlength (by simp)
  | comment _ =>
      cases h' with
      | comment hline =>
          obtain ⟨_, hlonger⟩ := List.cons.inj hlonger
          obtain ⟨_, rfl⟩ := List.cons.inj hlonger
          exact bne_iff_ne.mpr (hline b (by simp))
  | blanks _ _ =>
      cases h' with
      | blanks _ hblanks =>
          rw [← hlonger] at hblanks
          exact hblanks b (by simp)

/-- A text goes on with any byte of its kind. -/
theorem snoc (h : Lexeme kind str) (hb : kind.continues b = true) :
    Lexeme kind (str ++ [b]) := by
  cases h with
  | word hletter hrest =>
      refine .word hletter fun c hc => ?_
      rcases List.mem_append.mp hc with hc | hc
      · exact hrest c hc
      · rw [List.mem_singleton.mp hc]
        exact hb
  | integer _ hdigits =>
      refine .integer (by simp) fun c hc => ?_
      rcases List.mem_append.mp hc with hc | hc
      · exact hdigits c hc
      · rw [List.mem_singleton.mp hc]
        exact hb
  | string _ => contradiction
  | punctuation _ => contradiction
  | comment hline =>
      refine .comment fun c hc => ?_
      rcases List.mem_append.mp hc with hc | hc
      · exact hline c hc
      · rw [List.mem_singleton.mp hc]
        exact bne_iff_ne.mp hb
  | blanks _ hblanks =>
      refine .blanks (by simp) fun c hc => ?_
      rcases List.mem_append.mp hc with hc | hc
      · exact hblanks c hc
      · rw [List.mem_singleton.mp hc]
        exact hb

end Lexeme

section Rules

/-- A rule for one text. -/
def constantRule (entry : Octets × Token) : TokenRule :=
  ⟨text entry.1, push entry.2⟩

def integerRule : TokenRule :=
  ⟨oneOrMore (oneOf (bytesWhere isDigit)),
    fun tokens str => tokens ++ [.integer (atoi str)]⟩

def stringRule : TokenRule :=
  ⟨stringPattern, fun tokens str => tokens ++
    [.string (unescapeString ((str.drop 1).take (str.length - 2)))]⟩

def commentRule : TokenRule :=
  ⟨commentPattern, fun tokens _ => tokens⟩

def blanksRule : TokenRule :=
  ⟨oneOrMore (oneOf (bytesWhere isBlank)), fun tokens _ => tokens⟩

def identifierRule : TokenRule :=
  ⟨identifierPattern,
    fun tokens str => tokens ++ [.identifier (identifierName str)]⟩

theorem tokenRules_eq : tokenRules = reserved.map constantRule ++
    integerRule :: stringRule :: (marks.map constantRule ++
      [commentRule, blanksRule, identifierRule]) :=
  rfl

theorem rules_before_string : tokenRules =
    (reserved.map constantRule ++ [integerRule]) ++ stringRule ::
      (marks.map constantRule ++ [commentRule, blanksRule, identifierRule]) :=
  rfl

theorem rules_before_comment : tokenRules =
    (reserved.map constantRule ++ integerRule :: stringRule ::
      marks.map constantRule) ++ commentRule ::
        [blanksRule, identifierRule] :=
  rfl

theorem rules_before_blanks : tokenRules =
    ((reserved.map constantRule ++ integerRule :: stringRule ::
      marks.map constantRule) ++ [commentRule]) ++ blanksRule ::
        [identifierRule] :=
  rfl

theorem rules_before_identifier : tokenRules =
    (reserved.map constantRule ++ integerRule :: stringRule ::
      (marks.map constantRule ++ [commentRule, blanksRule])) ++
        identifierRule :: [] :=
  rfl

variable {str : Octets}

theorem mem_integerRule :
    str ∈ integerRule.pattern.matches' ↔ Lexeme .integer str := by
  simp only [integerRule, mem_oneOrMore_oneOf, mem_bytesWhere]
  constructor
  · rintro ⟨hne, hall⟩
    exact .integer hne hall
  · intro h
    cases h with
    | integer hne hall => exact ⟨hne, hall⟩

theorem mem_blanksRule :
    str ∈ blanksRule.pattern.matches' ↔ Lexeme .blanks str := by
  simp only [blanksRule, mem_oneOrMore_oneOf, mem_bytesWhere]
  constructor
  · rintro ⟨hne, hall⟩
    exact .blanks hne hall
  · intro h
    cases h with
    | blanks hne hall => exact ⟨hne, hall⟩

theorem mem_identifierRule :
    str ∈ identifierRule.pattern.matches' ↔ Lexeme .word str := by
  simp only [identifierRule, identifierPattern, matches'_mul, Language.mem_mul,
    mem_oneOf, mem_star_oneOf, mem_bytesWhere]
  constructor
  · rintro ⟨_, ⟨b, hletter, rfl⟩, rest, hrest, rfl⟩
    exact .word hletter hrest
  · rintro ⟨hletter, hrest⟩
    exact ⟨_, ⟨_, hletter, rfl⟩, _, hrest, rfl⟩

theorem mem_commentRule :
    str ∈ commentRule.pattern.matches' ↔ Lexeme .comment str := by
  simp only [commentRule, commentPattern, matches'_mul, Language.mem_mul,
    mem_text, mem_star_oneOf, mem_bytesWhere, bne_iff_ne]
  constructor
  · rintro ⟨_, rfl, line, hline, rfl⟩
    exact .comment hline
  · intro h
    cases h with
    | comment hline => exact ⟨_, rfl, _, hline, rfl⟩

/-- What is repeated between the quotes. -/
theorem mem_star_stringBody :
    str ∈ (char 92 * oneOf [34, 92, 110, 116, 114] +
      oneOf (bytesWhere fun b => b != 34 && b != 92)).star.matches' ↔
        stringBody str = true := by
  rw [matches'_star, Language.mem_kstar]
  simp only [matches'_add, matches'_mul, matches'_char, Language.mem_add,
    Language.mem_mul, mem_oneOf, mem_bytesWhere]
  constructor
  · rintro ⟨pieces, rfl, hpieces⟩
    induction pieces with
    | nil => rfl
    | cons piece pieces ih =>
        obtain ⟨hpiece, hrest⟩ := List.forall_mem_cons.mp hpieces
        rw [List.flatten_cons]
        rcases hpiece with ⟨_, rfl, _, ⟨b, hb, rfl⟩, rfl⟩ | ⟨b, hb, rfl⟩
        · have hescape : [34, 92, 110, 116, 114].contains b = true :=
            List.contains_iff_mem.mpr hb
          simp only [List.cons_append, List.nil_append, stringBody, hescape,
            ih hrest, Bool.and_self]
        · rw [Bool.and_eq_true, bne_iff_ne, bne_iff_ne] at hb
          rw [List.singleton_append, stringBody, ih hrest,
            bne_iff_ne.mpr hb.1, bne_iff_ne.mpr hb.2]
          · rfl
          · exact fun _ _ heq => absurd heq hb.2
  · intro h
    fun_induction stringBody str with
    | case1 b rest ih =>
        rw [Bool.and_eq_true] at h
        obtain ⟨pieces, rfl, hpieces⟩ := ih h.2
        refine ⟨[92, b] :: pieces, rfl, List.forall_mem_cons.mpr ⟨Or.inl ?_,
          hpieces⟩⟩
        exact ⟨[92], rfl, [b], ⟨b, List.contains_iff_mem.mp h.1, rfl⟩, rfl⟩
    | case2 b rest _ ih =>
        rw [Bool.and_eq_true] at h
        obtain ⟨pieces, rfl, hpieces⟩ := ih h.2
        exact ⟨[b] :: pieces, rfl, List.forall_mem_cons.mpr
          ⟨Or.inr ⟨b, h.1, rfl⟩, hpieces⟩⟩
    | case3 => exact ⟨[], rfl, fun _ h => by contradiction⟩

theorem mem_stringRule :
    str ∈ stringRule.pattern.matches' ↔ Lexeme .string str := by
  rw [stringRule, stringPattern, matches'_mul, Language.mem_mul]
  simp only [matches'_mul, matches'_char, Language.mem_mul]
  constructor
  · rintro ⟨_, rfl, _, ⟨body, hbody, _, rfl, rfl⟩, rfl⟩
    exact .string (mem_star_stringBody.mp hbody)
  · intro h
    cases h with
    | string hbody =>
        exact ⟨_, rfl, _, ⟨_, mem_star_stringBody.mpr hbody, _, rfl, rfl⟩, rfl⟩

end Rules

/-- The texts that the rules match. -/
theorem exists_mem_languages {str : Octets} :
    (∃ language ∈ languages, str ∈ language) ↔ ∃ kind, Lexeme kind str := by
  have hconstant (entry : Octets × Token) :
      str ∈ (constantRule entry).pattern.matches' ↔ str = entry.1 := mem_text
  have hrules : (∃ language ∈ languages, str ∈ language) ↔
      ∃ rule ∈ tokenRules, str ∈ rule.pattern.matches' := by
    simp only [languages, patterns, List.mem_map, exists_exists_and_eq_and]
  rw [hrules, tokenRules_eq]
  simp only [List.mem_append, List.mem_cons, List.mem_map, List.not_mem_nil,
    or_false]
  constructor
  · rintro ⟨rule, (⟨entry, hentry, rfl⟩ | rfl | rfl | ⟨entry, hentry, rfl⟩ |
      rfl | rfl | rfl), hmem⟩
    · rw [(hconstant entry).mp hmem]
      exact ⟨_, reserved_word hentry⟩
    · exact ⟨_, mem_integerRule.mp hmem⟩
    · exact ⟨_, mem_stringRule.mp hmem⟩
    · rw [(hconstant entry).mp hmem]
      exact ⟨_, .punctuation hentry⟩
    · exact ⟨_, mem_commentRule.mp hmem⟩
    · exact ⟨_, mem_blanksRule.mp hmem⟩
    · exact ⟨_, mem_identifierRule.mp hmem⟩
  · rintro ⟨kind, h⟩
    cases kind with
    | word => exact ⟨identifierRule, by simp, mem_identifierRule.mpr h⟩
    | integer => exact ⟨integerRule, by simp, mem_integerRule.mpr h⟩
    | string => exact ⟨stringRule, by simp, mem_stringRule.mpr h⟩
    | punctuation =>
        cases h with
        | @punctuation entry hmem =>
            exact ⟨constantRule entry, Or.inr (Or.inr (Or.inr (Or.inl
              ⟨entry, hmem, rfl⟩))), (hconstant entry).mpr rfl⟩
    | comment => exact ⟨commentRule, by simp, mem_commentRule.mpr h⟩
    | blanks => exact ⟨blanksRule, by simp, mem_blanksRule.mpr h⟩

section Ends

variable {kind : Kind} {str rest : Octets} {b : UInt8}

theorem Lexeme.endsBefore_iff (h : Lexeme kind str) :
    EndsBefore languages str b ↔ kind.continues b = false := by
  constructor
  · intro hends
    by_contra hcontinues
    rw [Bool.not_eq_false] at hcontinues
    obtain ⟨language, hlanguage, hmem⟩ :=
      exists_mem_languages.mpr ⟨kind, h.snoc hcontinues⟩
    exact hends language hlanguage [] hmem
  · intro hends language hlanguage rest hmem
    obtain ⟨kind', hlonger⟩ :=
      exists_mem_languages.mp ⟨language, hlanguage, hmem⟩
    obtain rfl := h.kind_eq_append hlonger
    rw [h.continues_of_append hlonger] at hends
    contradiction

theorem Lexeme.ends_iff (h : Lexeme kind str) :
    Ends languages str rest ↔ kind.EndsAt rest :=
  forall₃_congr fun _ _ _ => h.endsBefore_iff

/-- One byte of lookahead tells where a text ends. -/
theorem gapless_languages : Gapless languages := by
  intro language hlanguage word hword _ other hother b rest hlonger
  obtain ⟨kind, h⟩ := exists_mem_languages.mp ⟨language, hlanguage, hword⟩
  obtain ⟨kind', hlonger⟩ := exists_mem_languages.mp ⟨other, hother, hlonger⟩
  obtain rfl := h.kind_eq_append hlonger
  exact exists_mem_languages.mpr
    ⟨kind, h.snoc (h.continues_of_append hlonger)⟩

end Ends

/-- The texts of a token. -/
inductive Reads : Kind → Token → Octets → Prop where
  | keyword {entry : Octets × Token} : entry ∈ reserved →
      Reads .word entry.2 entry.1
  | identifier {str : Octets} : Lexeme .word str →
      (∀ entry ∈ reserved, entry.1 ≠ str) →
      Reads .word (.identifier (identifierName str)) str
  | integer {str : Octets} : Lexeme .integer str →
      Reads .integer (.integer (atoi str)) str
  | string {body : Octets} : stringBody body = true →
      Reads .string (.string (unescapeString body)) (34 :: (body ++ [34]))
  | punctuation {entry : Octets × Token} : entry ∈ marks →
      Reads .punctuation entry.2 entry.1

/-- The texts of a list of tokens. -/
inductive Text : List Token → Octets → Prop where
  | nil : Text [] []
  | blank {b : UInt8} {tokens : List Token} {rest : Octets} :
      isBlank b = true → Text tokens rest → Text tokens (b :: rest)
  | comment {line : Octets} {tokens : List Token} {rest : Octets} :
      (∀ b ∈ line, b ≠ 10) → Kind.comment.EndsAt rest → Text tokens rest →
      Text tokens (47 :: 47 :: (line ++ rest))
  | token {kind : Kind} {token : Token} {str : Octets} {tokens : List Token}
      {rest : Octets} :
      Reads kind token str → kind.EndsAt rest → Text tokens rest →
      Text (token :: tokens) (str ++ rest)

theorem Reads.lexeme {kind : Kind} {token : Token} {str : Octets}
    (h : Reads kind token str) : Lexeme kind str := by
  cases h with
  | keyword hmem => exact reserved_word hmem
  | identifier hword _ => exact hword
  | integer hdigits => exact hdigits
  | string hbody => exact .string hbody
  | punctuation hmem => exact .punctuation hmem

section Scan

variable (sm : StateMachine) {kind : Kind} {token : Token} {str rest : Octets}

/-- The rule pushes what it matches where no rule before it does. -/
theorem tokenize_rule (before : List TokenRule) (rule : TokenRule)
    (after : List TokenRule) (hrules : tokenRules = before ++ rule :: after)
    (hmem : str ∈ rule.pattern.matches')
    (hfirst : ∀ other ∈ before, str ∉ other.pattern.matches')
    (hlexeme : Lexeme kind str) (hends : kind.EndsAt rest) :
    tokenize sm (str ++ rest) =
      (tokenize sm rest).map (rule.pusher [] str ++ ·) := by
  have hlanguages : languages =
      before.map (·.pattern.matches') ++ rule.pattern.matches' ::
        after.map (·.pattern.matches') := by
    rw [languages, patterns, hrules, List.map_map, List.map_append,
      List.map_cons]
    rfl
  have hlanguage : languages[before.length]? = some rule.pattern.matches' := by
    rw [hlanguages, List.getElem?_append_right (by simp)]
    simp
  have hbefore : ∀ language ∈ languages.take before.length,
      str ∉ language := by
    rw [hlanguages, List.take_append_of_le_length (by simp),
      List.take_of_length_le (by simp)]
    intro language hlanguage
    obtain ⟨other, hother, rfl⟩ := List.mem_map.mp hlanguage
    exact hfirst other hother
  have hrule : tokenRules[before.length]? = some rule := by
    rw [hrules, List.getElem?_append_right (Nat.le_refl _), Nat.sub_self]
    rfl
  rw [tokenize_munch sm (.of_ends hlexeme.ne_nil hlanguage hmem hbefore
    (hlexeme.ends_iff.mpr hends)), pushed, hrule]

/-- Some other kind of text is what the rule matches. -/
def MatchesOther (kind : Kind) (rule : TokenRule) : Prop :=
  ∃ kind', kind' ≠ kind ∧
    ∀ str, str ∈ rule.pattern.matches' → Lexeme kind' str

theorem not_mem_of_matchesOther {before : List TokenRule}
    (h : Lexeme kind str) (hbefore : ∀ rule ∈ before, MatchesOther kind rule) :
    ∀ rule ∈ before, str ∉ rule.pattern.matches' := by
  intro rule hrule hmem
  obtain ⟨kind', hne, hmatches⟩ := hbefore rule hrule
  exact hne ((hmatches str hmem).kind_eq h)

theorem reserved_matchesOther (hne : Kind.word ≠ kind) :
    ∀ rule ∈ reserved.map constantRule, MatchesOther kind rule := by
  intro rule hrule
  obtain ⟨entry, hentry, rfl⟩ := List.mem_map.mp hrule
  refine ⟨.word, hne, fun str hmem => ?_⟩
  obtain rfl : str = entry.1 := mem_text.mp hmem
  exact reserved_word hentry

theorem marks_matchesOther (hne : Kind.punctuation ≠ kind) :
    ∀ rule ∈ marks.map constantRule, MatchesOther kind rule := by
  intro rule hrule
  obtain ⟨entry, hentry, rfl⟩ := List.mem_map.mp hrule
  refine ⟨.punctuation, hne, fun str hmem => ?_⟩
  obtain rfl : str = entry.1 := mem_text.mp hmem
  exact .punctuation hentry

theorem integerRule_matchesOther (hne : Kind.integer ≠ kind) :
    MatchesOther kind integerRule :=
  ⟨.integer, hne, fun _ => mem_integerRule.mp⟩

theorem stringRule_matchesOther (hne : Kind.string ≠ kind) :
    MatchesOther kind stringRule :=
  ⟨.string, hne, fun _ => mem_stringRule.mp⟩

/-- The rules before the comment. -/
theorem matchesOther_of_layout (hword : Kind.word ≠ kind)
    (hinteger : Kind.integer ≠ kind) (hstring : Kind.string ≠ kind)
    (hpunctuation : Kind.punctuation ≠ kind) :
    ∀ rule ∈ reserved.map constantRule ++
      integerRule :: stringRule :: marks.map constantRule,
        MatchesOther kind rule :=
  List.forall_mem_append.mpr ⟨reserved_matchesOther hword,
    List.forall_mem_cons.mpr ⟨integerRule_matchesOther hinteger,
      List.forall_mem_cons.mpr ⟨stringRule_matchesOther hstring,
        marks_matchesOther hpunctuation⟩⟩⟩

theorem not_mem_of_nodup {entries before after : List (Octets × Token)}
    {entry : Octets × Token} (hnodup : (entries.map Prod.fst).Nodup)
    (hsplit : entries = before ++ entry :: after) :
    ∀ rule ∈ before.map constantRule, entry.1 ∉ rule.pattern.matches' := by
  rw [hsplit, List.map_append, List.map_cons, List.nodup_append] at hnodup
  intro rule hrule hmatches
  obtain ⟨entry', hentry', rfl⟩ := List.mem_map.mp hrule
  exact hnodup.2.2 _ (List.mem_map_of_mem hentry') _ List.mem_cons_self
    (mem_text.mp hmatches).symm

/-- A comment is skipped. -/
theorem tokenize_comment {line : Octets} (hline : ∀ b ∈ line, b ≠ 10)
    (hends : Kind.comment.EndsAt rest) :
    tokenize sm (47 :: 47 :: (line ++ rest)) = tokenize sm rest := by
  have hlexeme := Lexeme.comment hline
  have hscan := tokenize_rule sm _ commentRule _ rules_before_comment
    (mem_commentRule.mpr hlexeme) (not_mem_of_matchesOther hlexeme
      (matchesOther_of_layout (by decide) (by decide) (by decide) (by decide)))
    hlexeme hends
  simpa [commentRule] using hscan

theorem tokenize_blanks (hne : str ≠ [])
    (hblanks : ∀ b ∈ str, isBlank b = true) (hends : Kind.blanks.EndsAt rest) :
    tokenize sm (str ++ rest) = tokenize sm rest := by
  have hlexeme := Lexeme.blanks hne hblanks
  have hcomment : MatchesOther .blanks commentRule :=
    ⟨.comment, by decide, fun _ => mem_commentRule.mp⟩
  have hscan := tokenize_rule sm _ blanksRule _ rules_before_blanks
    (mem_blanksRule.mpr hlexeme) (not_mem_of_matchesOther hlexeme
      (List.forall_mem_append.mpr ⟨matchesOther_of_layout (by decide)
        (by decide) (by decide) (by decide),
        List.forall_mem_singleton.mpr hcomment⟩)) hlexeme hends
  simpa [blanksRule] using hscan

/-- A blank is skipped. -/
theorem tokenize_blank {b : UInt8} (hb : isBlank b = true) (rest : Octets) :
    tokenize sm (b :: rest) = tokenize sm rest := by
  have hends : Kind.blanks.EndsAt (rest.dropWhile isBlank) := by
    intro c rest' hrest
    have hhead := List.head?_dropWhile_not isBlank rest
    rw [hrest] at hhead
    exact hhead
  have hblanks : ∀ c ∈ rest.takeWhile isBlank, isBlank c = true :=
    List.all_eq_true.mp (List.all_takeWhile ..)
  have hall := tokenize_blanks sm (List.cons_ne_nil b _)
    (List.forall_mem_cons.mpr ⟨hb, hblanks⟩) hends
  rw [List.cons_append, List.takeWhile_append_dropWhile] at hall
  rw [hall]
  by_cases hnone : rest.takeWhile isBlank = []
  · have hrest := List.takeWhile_append_dropWhile (p := isBlank) (l := rest)
    rw [hnone, List.nil_append] at hrest
    rw [hrest]
  · rw [← tokenize_blanks sm hnone hblanks hends,
      List.takeWhile_append_dropWhile]

/-- A token is found where its text ends. -/
theorem tokenize_reads (h : Reads kind token str) (hends : kind.EndsAt rest) :
    tokenize sm (str ++ rest) = (tokenize sm rest).map (token :: ·) := by
  have hlexeme := h.lexeme
  cases h with
  | @keyword entry hmem =>
      obtain ⟨before, after, hsplit⟩ := List.append_of_mem hmem
      refine tokenize_rule sm (before.map constantRule) (constantRule entry)
        (after.map constantRule ++ integerRule :: stringRule ::
          (marks.map constantRule ++ [commentRule, blanksRule, identifierRule]))
        ?_ (mem_text.mpr rfl) (not_mem_of_nodup (by decide) hsplit) hlexeme
        hends
      rw [tokenRules_eq, hsplit, List.map_append]
      simp
  | integer _ =>
      exact tokenize_rule sm _ integerRule _ tokenRules_eq
        (mem_integerRule.mpr hlexeme) (not_mem_of_matchesOther hlexeme
          (reserved_matchesOther (by decide))) hlexeme hends
  | @string body hbody =>
      have hscan := tokenize_rule sm _ stringRule _ rules_before_string
        (mem_stringRule.mpr hlexeme)
        (not_mem_of_matchesOther hlexeme (List.forall_mem_append.mpr
          ⟨reserved_matchesOther (by decide), List.forall_mem_singleton.mpr
            (integerRule_matchesOther (by decide))⟩)) hlexeme hends
      simpa [stringRule] using hscan
  | @punctuation entry hmem =>
      obtain ⟨before, after, hsplit⟩ := List.append_of_mem hmem
      have hbefore : ∀ rule ∈ (reserved.map constantRule ++
          [integerRule, stringRule]), MatchesOther .punctuation rule :=
        List.forall_mem_append.mpr ⟨reserved_matchesOther (by decide),
          List.forall_mem_cons.mpr ⟨integerRule_matchesOther (by decide),
            List.forall_mem_singleton.mpr
              (stringRule_matchesOther (by decide))⟩⟩
      refine tokenize_rule sm ((reserved.map constantRule ++
        [integerRule, stringRule]) ++ before.map constantRule)
        (constantRule entry) (after.map constantRule ++
          [commentRule, blanksRule, identifierRule]) ?_ (mem_text.mpr rfl)
        (List.forall_mem_append.mpr
          ⟨not_mem_of_matchesOther hlexeme hbefore,
            not_mem_of_nodup (by decide) hsplit⟩) hlexeme hends
      rw [tokenRules_eq, hsplit, List.map_append]
      simp
  | identifier hword hnone =>
      refine tokenize_rule sm _ identifierRule _ rules_before_identifier
        (mem_identifierRule.mpr hlexeme) ?_ hlexeme hends
      refine List.forall_mem_append.mpr ⟨?_, not_mem_of_matchesOther hlexeme ?_⟩
      · intro rule hrule hmatches
        obtain ⟨entry, hentry, rfl⟩ := List.mem_map.mp hrule
        exact hnone entry hentry (mem_text.mp hmatches).symm
      · refine List.forall_mem_cons.mpr ⟨integerRule_matchesOther (by decide),
          List.forall_mem_cons.mpr ⟨stringRule_matchesOther (by decide),
            List.forall_mem_append.mpr ⟨marks_matchesOther (by decide),
              List.forall_mem_cons.mpr ⟨?_, List.forall_mem_singleton.mpr ?_⟩⟩⟩⟩
        · exact ⟨.comment, by decide, fun _ => mem_commentRule.mp⟩
        · exact ⟨.blanks, by decide, fun _ => mem_blanksRule.mp⟩

end Scan

/-- What is found is a token, a comment or blanks. -/
theorem Lexeme.reads_or_layout {kind : Kind} {str : Octets}
    (h : Lexeme kind str) :
    (∃ token, Reads kind token str) ∨ kind = .comment ∨ kind = .blanks := by
  cases h with
  | @word b rest hletter hrest =>
      left
      by_cases hreserved : ∃ entry ∈ reserved, entry.1 = b :: rest
      · obtain ⟨entry, hentry, heq⟩ := hreserved
        rw [← heq]
        exact ⟨_, .keyword hentry⟩
      · exact ⟨_, .identifier (.word hletter hrest) fun entry hentry heq =>
          hreserved ⟨entry, hentry, heq⟩⟩
  | integer hne hdigits => exact Or.inl ⟨_, .integer (.integer hne hdigits)⟩
  | string hbody => exact Or.inl ⟨_, .string hbody⟩
  | punctuation hmem => exact Or.inl ⟨_, .punctuation hmem⟩
  | comment _ => exact Or.inr (Or.inl rfl)
  | blanks _ _ => exact Or.inr (Or.inr rfl)

theorem Text.blanks {str rest : Octets} {tokens : List Token}
    (hblanks : ∀ b ∈ str, isBlank b = true) (h : Text tokens rest) :
    Text tokens (str ++ rest) := by
  induction str with
  | nil => exact h
  | cons b str ih =>
      obtain ⟨hb, hrest⟩ := List.forall_mem_cons.mp hblanks
      exact .blank hb (ih hrest)

/-- What begins the input, up to the byte that ends it. -/
theorem lexeme_of_munch {input str rest : Octets} {ruleId : Nat}
    (h : Munch languages input ruleId str rest) :
    ∃ kind, Lexeme kind str ∧ kind.EndsAt rest := by
  obtain ⟨language, hlanguage, hmem⟩ := h.mem
  obtain ⟨kind, hlexeme⟩ := exists_mem_languages.mp ⟨language, hlanguage, hmem⟩
  exact ⟨kind, hlexeme, hlexeme.ends_iff.mp (h.ends gapless_languages)⟩

theorem text_of_tokenize (sm : StateMachine) {input : Octets}
    {tokens : List Token} (h : tokenize sm input = some tokens) :
    Text tokens input := by
  by_cases hmunch : ∃ ruleId str rest, Munch languages input ruleId str rest
  · obtain ⟨ruleId, str, rest, hmunch⟩ := hmunch
    have hlt := hmunch.length_lt
    obtain ⟨kind, hlexeme, hends⟩ := lexeme_of_munch hmunch
    obtain rfl := hmunch.split
    rcases hlexeme.reads_or_layout with ⟨token, hreads⟩ | rfl | rfl
    · rw [tokenize_reads sm hreads hends] at h
      obtain ⟨tokens, hrest, rfl⟩ := Option.map_eq_some_iff.mp h
      exact .token hreads hends (text_of_tokenize sm hrest)
    · cases hlexeme with
      | comment hline =>
          have hrest := (tokenize_comment sm hline hends).symm.trans h
          exact .comment hline hends (text_of_tokenize sm hrest)
    · cases hlexeme with
      | blanks hne hblanks =>
          rw [tokenize_blanks sm hne hblanks hends] at h
          exact .blanks hblanks (text_of_tokenize sm h)
  · by_cases hne : input = []
    · subst hne
      rw [tokenize_nil] at h
      obtain rfl := Option.some.inj h
      exact .nil
    · rw [tokenize_none sm hne fun ruleId str rest h =>
        hmunch ⟨ruleId, str, rest, h⟩] at h
      contradiction
termination_by input.length

theorem tokenize_of_text (sm : StateMachine) {input : Octets}
    {tokens : List Token} (h : Text tokens input) :
    tokenize sm input = some tokens := by
  induction h with
  | nil => exact tokenize_nil sm
  | blank hb _ ih => rw [tokenize_blank sm hb, ih]
  | comment hline hends _ ih => rw [tokenize_comment sm hline hends, ih]
  | token hreads hends _ ih => rw [tokenize_reads sm hreads hends, ih]; rfl

/-- The tokenizer accepts the texts of lists of tokens, and gives back the
tokens. -/
theorem tokenize_eq_some_iff (sm : StateMachine) (input : Octets)
    (tokens : List Token) :
    tokenize sm input = some tokens ↔ Text tokens input :=
  ⟨text_of_tokenize sm, tokenize_of_text sm⟩

/-- `"a\"b" 042 // n`. -/
def quotedLine : Octets :=
  [34, 97, 92, 34, 98, 34, 32, 48, 52, 50, 32, 47, 47, 32, 110]

theorem text_quotedLine :
    Text [.string [97, 34, 98], .integer 42] quotedLine := by
  have hquoted : Reads .string (.string [97, 34, 98])
      [34, 97, 92, 34, 98, 34] :=
    .string (rfl : stringBody [97, 92, 34, 98] = true)
  have hnumber : Reads .integer (.integer (atoi [48, 52, 50]))
      [48, 52, 50] :=
    .integer (.integer (List.cons_ne_nil _ _)
      (List.all_eq_true.mp (rfl : [48, 52, 50].all isDigit = true)))
  have hvalue : atoi [48, 52, 50] = 42 := by decide
  rw [hvalue] at hnumber
  have hspace : isBlank 32 = true := by decide
  have hends : ∀ kind : Kind, kind.EndsAt [] :=
    fun _ _ _ h => by contradiction
  refine .token hquoted ?_ (.blank hspace (.token hnumber ?_ (.blank hspace
    (.comment (by simp : ∀ b ∈ ([32, 110] : Octets), b ≠ 10)
      (hends .comment) .nil))))
  · intro b rest _
    rfl
  · intro b rest heq
    obtain ⟨rfl, _⟩ := List.cons.inj heq
    decide

/-- The quote is unescaped, the number has no leading zero and the comment is
left out. -/
theorem tokenize_eq_some_iff_quotedLine :
    tokenize derivatives quotedLine =
      some [.string [97, 34, 98], .integer 42] :=
  (tokenize_eq_some_iff derivatives _ _).mpr text_quotedLine

end Lexical

end NetworkProtocolDsl
