/-
Writing tokens down and reading them back.

Texts put one after the other with a line end between them have the tokens of
both.  Tokens that were read can be printed and are read again as they were,
whereas what their `stringify` gives is read back only where it has nothing to
escape.
-/
import NetworkProtocolDsl.IntegerField
import NetworkProtocolDsl.IntegerRoundTrip
import NetworkProtocolDsl.LexicalGrammar

namespace NetworkProtocolDsl

open Tokenize Lexical

namespace Lexical

theorem endsAt_cons {kind : Kind} {b : UInt8} {rest : Octets}
    (h : kind.continues b = false) : kind.EndsAt (b :: rest) := by
  intro b' rest' heq
  obtain ⟨rfl, _⟩ := List.cons.inj heq
  exact h

theorem Kind.EndsAt.append {kind : Kind} {b : UInt8} {rest : Octets}
    (h : kind.EndsAt rest) (hb : kind.continues b = false) (more : Octets) :
    kind.EndsAt (rest ++ b :: more) := by
  cases rest with
  | nil => exact endsAt_cons hb
  | cons c rest => exact endsAt_cons (h c rest rfl)

/-- A blank ends the text of every token. -/
theorem Reads.continues_blank {kind : Kind} {token : Token} {str : Octets}
    (h : Reads kind token str) {b : UInt8} (hb : isBlank b = true) :
    kind.continues b = false := by
  rcases isBlank_cases hb with rfl | rfl | rfl
  all_goals cases h <;> decide

end Lexical

/-- Where a text has tokens, what follows it on the next line has its own. -/
theorem tokenize_append_line (sm : StateMachine) {input : Octets}
    {tokens : List Token} (h : tokenize sm input = some tokens)
    (more : Octets) :
    tokenize sm (input ++ 10 :: more) =
      (tokenize sm more).map (tokens ++ ·) := by
  have htext := text_of_tokenize sm h
  clear h
  induction htext with
  | nil =>
      rw [List.nil_append, tokenize_blank sm (by decide)]
      simp
  | blank hb _ ih => rw [List.cons_append, tokenize_blank sm hb, ih]
  | comment hline hends _ ih =>
      rw [List.cons_append, List.cons_append, List.append_assoc,
        tokenize_comment sm hline (hends.append (by decide) more), ih]
  | token hreads hends _ ih =>
      rw [List.append_assoc, tokenize_reads sm hreads
        (hends.append (hreads.continues_blank (by decide)) more), ih,
        Option.map_map]
      rfl

theorem tokenize_word (sm : StateMachine) :
    tokenize sm [97] = some [.identifier (identifierName [97])] := by
  have hreads : Reads .word (.identifier (identifierName [97])) [97] :=
    .identifier (.word (by decide) (fun _ h => by contradiction)) (by decide)
  exact tokenize_of_text sm
    (.token hreads (fun _ _ h => by contradiction) .nil)

theorem tokenize_append_line_word :
    tokenize derivatives ([97] ++ 10 :: [97]) =
      some [.identifier (identifierName [97]),
        .identifier (identifierName [97])] := by
  rw [tokenize_append_line derivatives (tokenize_word derivatives),
    tokenize_word derivatives]
  rfl

namespace Lexical

/-- What is escaped between the quotes. -/
def escapeString : Octets → Octets
  | [] => []
  | b :: rest =>
      if b = 34 ∨ b = 92 then 92 :: b :: escapeString rest
      else b :: escapeString rest

theorem stringBody_escapeString (value : Octets) :
    stringBody (escapeString value) = true := by
  induction value with
  | nil => rfl
  | cons b rest ih =>
      rw [escapeString]
      split
      · rename_i hb
        rcases hb with rfl | rfl
        all_goals rw [stringBody, ih]; rfl
      · rename_i hb
        rw [not_or] at hb
        rw [stringBody, ih, bne_iff_ne.mpr hb.1, bne_iff_ne.mpr hb.2]
        · rfl
        · exact fun _ _ heq => absurd heq hb.2

theorem unescapeString_escapeString (value : Octets) :
    unescapeString (escapeString value) = value := by
  induction value with
  | nil => rfl
  | cons b rest ih =>
      rw [escapeString]
      split
      · rename_i hb
        rcases hb with rfl | rfl
        all_goals rw [unescapeString, ih]; rfl
      · rename_i hb
        rw [not_or] at hb
        rw [unescapeString, ih]
        exact fun _ _ heq => absurd heq hb.2

def nameOctets (name : String) : Octets :=
  ascii name.toList

end Lexical

/-- `stringify` of the tokens. -/
def Token.stringify : Token → Octets
  | .identifier name => nameOctets name
  | .keywordFor => ascii ['f', 'o', 'r']
  | .keywordIn => ascii ['i', 'n']
  | .keywordMessage => ascii ['m', 'e', 's', 's', 'a', 'g', 'e']
  | .keywordParts => ascii ['p', 'a', 'r', 't', 's']
  | .keywordTerminator =>
      ascii ['t', 'e', 'r', 'm', 'i', 'n', 'a', 't', 'o', 'r']
  | .keywordTokens => ascii ['t', 'o', 'k', 'e', 'n', 's']
  | .integer value =>
      if value < 0 then 45 :: decimal value.natAbs else decimal value.natAbs
  | .string value => 34 :: (value ++ [34])
  | .boolean value => if value then [49] else [48]
  | .angleBracketClose => ascii ['>']
  | .angleBracketOpen => ascii ['<']
  | .comma => ascii [',']
  | .dot => ascii ['.']
  | .curlyBraceClose => ascii ['}']
  | .curlyBraceOpen => ascii ['{']
  | .equal => ascii ['=']
  | .keyValueSeparator => ascii [':']
  | .statementEnd => ascii [';']

namespace Lexical

/-- A text of the token. -/
def spelling : Token → Octets
  | .integer value => decimal value.toNat
  | .string value => 34 :: (escapeString value ++ [34])
  | .boolean true => ascii ['T', 'r', 'u', 'e']
  | .boolean false => ascii ['F', 'a', 'l', 's', 'e']
  | token => token.stringify

theorem nameOctets_identifierName (str : Octets) :
    nameOctets (identifierName str) = str := by
  rw [nameOctets, identifierName, String.toList_ofList, ascii, List.map_map]
  refine (List.map_congr_left fun b _ => ?_).trans (List.map_id str)
  have hvalid : (Char.ofNat b.toNat).toNat = b.toNat := by
    have hlt := b.toNat_lt
    have hchar : b.toNat.isValidChar := Or.inl (by omega)
    rw [Char.ofNat, dif_pos hchar]
    rfl
  rw [Function.comp_apply, hvalid]
  simp

theorem atoi_decimal {n : Nat} (h : n < 2 ^ 31) : atoi (decimal n) = n := by
  rw [atoi, strtol, strtolValue_decimal]
  have hmax : ¬ LONG_MAX < (n : Int) := by
    rw [LONG_MAX]
    omega
  have hmin : ¬ (n : Int) < LONG_MIN := by
    rw [LONG_MIN]
    omega
  simp only [if_neg hmax, if_neg hmin]
  exact Int.bmod_eq_of_le (by omega) (by omega)

theorem atoi_lt (str : Octets) : atoi str < 2 ^ 31 := by
  have hlt := Int.bmod_lt (x := (strtol str 0).1) (m := 2 ^ 32) (by decide)
  rw [atoi]
  omega

theorem decimal_ne_nil (n : Nat) : decimal n ≠ [] := by
  rcases Nat.eq_zero_or_pos n with rfl | hpos
  · exact List.cons_ne_nil 48 []
  · rw [decimal_of_pos hpos]
    simp [Nat.digits_ne_nil_iff_ne_zero.mpr (Nat.ne_of_gt hpos)]

theorem lexeme_decimal (n : Nat) : Lexeme .integer (decimal n) :=
  .integer (decimal_ne_nil n) (isDigit_of_decimal n)

/-- A token that has texts has the one it is printed as, unless its number has
wrapped around. -/
theorem Reads.spelling {kind : Kind} {token : Token} {str : Octets}
    (h : Reads kind token str) (hwraps : ∀ n, token = .integer n → 0 ≤ n) :
    Reads kind token (spelling token) := by
  cases h with
  | keyword hmem =>
      have hspelling : ∀ entry ∈ reserved, Lexical.spelling entry.2 = entry.1 :=
        by decide
      rw [hspelling _ hmem]
      exact .keyword hmem
  | identifier hword hnone =>
      rw [Lexical.spelling, Token.stringify, nameOctets_identifierName]
      · exact .identifier hword hnone
      all_goals simp
  | @integer str hdigits =>
      have hlt := atoi_lt str
      have hle := hwraps _ rfl
      have hvalue : atoi (decimal (atoi str).toNat) = atoi str := by
        rw [atoi_decimal (by omega), Int.toNat_of_nonneg hle]
      have hreads := Reads.integer (lexeme_decimal (atoi str).toNat)
      rw [hvalue] at hreads
      exact hreads
  | @string body hbody =>
      have hreads := Reads.string
        (stringBody_escapeString (unescapeString body))
      rw [unescapeString_escapeString] at hreads
      exact hreads
  | punctuation hmem =>
      have hspelling : ∀ entry ∈ marks, Lexical.spelling entry.2 = entry.1 := by
        decide
      rw [hspelling _ hmem]
      exact .punctuation hmem

def kindOf : Token → Kind
  | .identifier _ | .boolean _ => .word
  | .keywordFor | .keywordIn | .keywordMessage => .word
  | .keywordParts | .keywordTerminator | .keywordTokens => .word
  | .integer _ => .integer
  | .string _ => .string
  | _ => .punctuation

theorem Reads.kind_eq {kind : Kind} {token : Token} {str : Octets}
    (h : Reads kind token str) : kind = kindOf token := by
  cases h with
  | keyword hmem =>
      have hkind : ∀ entry ∈ reserved, Kind.word = kindOf entry.2 := by decide
      exact hkind _ hmem
  | identifier _ _ => rfl
  | integer _ => rfl
  | string _ => rfl
  | punctuation hmem =>
      have hkind : ∀ entry ∈ marks, Kind.punctuation = kindOf entry.2 := by
        decide
      exact hkind _ hmem

/-- The tokens that have a text. -/
def Spellable (token : Token) : Prop :=
  (∃ kind str, Reads kind token str) ∧ ∀ n, token = .integer n → 0 ≤ n

/-- The same, computed. -/
def isSpellable : Token → Bool
  | .identifier name =>
      (match nameOctets name with
        | [] => false
        | b :: rest => isLetter b && rest.all isWordByte) &&
      reserved.all (fun entry => entry.1 != nameOctets name) &&
      identifierName (nameOctets name) == name
  | .integer n => 0 ≤ n && n < 2 ^ 31
  | _ => true

theorem lexeme_word_iff {str : Octets} : Lexeme .word str ↔
    (match str with
      | [] => false
      | b :: rest => isLetter b && rest.all isWordByte) = true := by
  cases str with
  | nil =>
      refine ⟨fun h => absurd rfl h.ne_nil, fun h => by contradiction⟩
  | cons b rest =>
      simp only [Bool.and_eq_true, List.all_eq_true]
      constructor
      · intro h
        cases h with
        | word hletter hrest => exact ⟨hletter, hrest⟩
      · rintro ⟨hletter, hrest⟩
        exact .word hletter hrest

theorem spellable_of_isSpellable {token : Token}
    (h : isSpellable token = true) : Spellable token := by
  have hreserved : ∀ entry ∈ reserved, Spellable entry.2 := by
    intro entry hentry
    refine ⟨⟨_, _, .keyword hentry⟩, ?_⟩
    rintro n heq
    have hall : ∀ entry ∈ reserved, kindOf entry.2 = .word := by decide
    have hkind := hall entry hentry
    rw [heq] at hkind
    contradiction
  have hmarks : ∀ entry ∈ marks, Spellable entry.2 := by
    intro entry hentry
    refine ⟨⟨_, _, .punctuation hentry⟩, ?_⟩
    rintro n heq
    have hall : ∀ entry ∈ marks, kindOf entry.2 = .punctuation := by decide
    have hkind := hall entry hentry
    rw [heq] at hkind
    contradiction
  cases token with
  | identifier name =>
      rw [isSpellable, Bool.and_eq_true, Bool.and_eq_true, ← lexeme_word_iff,
        List.all_eq_true, beq_iff_eq] at h
      obtain ⟨⟨hword, hnone⟩, hname⟩ := h
      have hreads := Reads.identifier hword
        fun entry hentry => bne_iff_ne.mp (hnone entry hentry)
      rw [hname] at hreads
      exact ⟨⟨_, _, hreads⟩, fun _ heq => by contradiction⟩
  | integer n =>
      rw [isSpellable, Bool.and_eq_true, decide_eq_true_eq, decide_eq_true_eq]
        at h
      have hreads := Reads.integer (lexeme_decimal n.toNat)
      rw [atoi_decimal (by omega), Int.toNat_of_nonneg h.1] at hreads
      refine ⟨⟨_, _, hreads⟩, ?_⟩
      rintro _ ⟨⟩
      exact h.1
  | string value =>
      have hreads := Reads.string (stringBody_escapeString value)
      rw [unescapeString_escapeString] at hreads
      exact ⟨⟨_, _, hreads⟩, fun _ heq => by contradiction⟩
  | boolean value =>
      cases value with
      | true => exact hreserved (ascii ['T', 'r', 'u', 'e'], _) (by decide)
      | false =>
          exact hreserved (ascii ['F', 'a', 'l', 's', 'e'], _) (by decide)
  | keywordFor => exact hreserved (ascii ['f', 'o', 'r'], _) (by decide)
  | keywordIn => exact hreserved (ascii ['i', 'n'], _) (by decide)
  | keywordMessage =>
      exact hreserved (ascii ['m', 'e', 's', 's', 'a', 'g', 'e'], _) (by decide)
  | keywordParts =>
      exact hreserved (ascii ['p', 'a', 'r', 't', 's'], _) (by decide)
  | keywordTerminator =>
      exact hreserved (ascii ['t', 'e', 'r', 'm', 'i', 'n', 'a', 't', 'o', 'r'],
        _) (by decide)
  | keywordTokens =>
      exact hreserved (ascii ['t', 'o', 'k', 'e', 'n', 's'], _) (by decide)
  | angleBracketClose => exact hmarks (ascii ['>'], _) (by decide)
  | angleBracketOpen => exact hmarks (ascii ['<'], _) (by decide)
  | comma => exact hmarks (ascii [','], _) (by decide)
  | dot => exact hmarks (ascii ['.'], _) (by decide)
  | curlyBraceClose => exact hmarks (ascii ['}'], _) (by decide)
  | curlyBraceOpen => exact hmarks (ascii ['{'], _) (by decide)
  | equal => exact hmarks (ascii ['='], _) (by decide)
  | keyValueSeparator => exact hmarks (ascii [':'], _) (by decide)
  | statementEnd => exact hmarks (ascii [';'], _) (by decide)

/-- The tokens with a blank after each. -/
def printTokens : List Token → Octets
  | [] => []
  | token :: tokens => spelling token ++ 32 :: printTokens tokens

theorem text_printTokens {tokens : List Token}
    (h : ∀ token ∈ tokens, Spellable token) :
    Text tokens (printTokens tokens) := by
  induction tokens with
  | nil => exact .nil
  | cons token tokens ih =>
      obtain ⟨⟨⟨kind, str, hreads⟩, hwraps⟩, hrest⟩ :=
        List.forall_mem_cons.mp h
      have hspelling := hreads.spelling hwraps
      exact .token hspelling
        (endsAt_cons (hspelling.continues_blank (by decide)))
        (.blank (by decide) (ih hrest))

theorem Text.exists_reads {tokens : List Token} {input : Octets}
    (h : Text tokens input) :
    ∀ token ∈ tokens, ∃ kind str, Reads kind token str := by
  induction h with
  | nil => exact fun _ h => by contradiction
  | blank _ _ ih => exact ih
  | comment _ _ _ ih => exact ih
  | token hreads _ _ ih =>
      exact List.forall_mem_cons.mpr ⟨⟨_, _, hreads⟩, ih⟩

end Lexical

/-- Tokens that were read are read again from where they are printed, unless a
number has wrapped around. -/
theorem tokenize_printTokens (sm : StateMachine) {input : Octets}
    {tokens : List Token} (h : tokenize sm input = some tokens)
    (hwraps : ∀ n, .integer n ∈ tokens → 0 ≤ n) :
    tokenize sm (printTokens tokens) = some tokens :=
  tokenize_of_text sm (text_printTokens fun token hmem =>
    ⟨(text_of_tokenize sm h).exists_reads token hmem,
      fun n heq => hwraps n (heq ▸ hmem)⟩)

/-- A string with a quote and a number are printed as `"a\"b" 42`. -/
theorem tokenize_printTokens_quotedLine :
    tokenize derivatives
        (printTokens [.string [97, 34, 98], .integer 42]) =
      some [.string [97, 34, 98], .integer 42] := by
  refine tokenize_printTokens derivatives
    (tokenize_of_text derivatives text_quotedLine) fun n hmem => ?_
  simp only [List.mem_cons, List.not_mem_nil, or_false] at hmem
  rcases hmem with heq | heq
  · contradiction
  · rw [Token.integer.inj heq]
    decide

namespace Lexical

/-- In the text of one token there is one of its spellings. -/
theorem Text.singleton_inv {token : Token} {input : Octets}
    (h : Text [token] input) :
    ∃ kind str before after, Reads kind token str ∧
      input = before ++ str ++ after := by
  generalize htokens : [token] = tokens at h
  induction h with
  | nil => contradiction
  | @blank b _ _ _ _ ih =>
      obtain ⟨kind, str, before, after, hreads, rfl⟩ := ih htokens
      exact ⟨kind, str, b :: before, after, hreads, rfl⟩
  | @comment line _ _ _ _ _ ih =>
      obtain ⟨kind, str, before, after, hreads, rfl⟩ := ih htokens
      exact ⟨kind, str, 47 :: 47 :: (line ++ before), after, hreads, by simp⟩
  | @token kind _ str _ rest hreads _ _ _ =>
      obtain ⟨rfl, _⟩ := List.cons.inj htokens
      exact ⟨kind, str, [], rest, hreads, rfl⟩

/-- A token is read back from a text of its own and of its length. -/
theorem reads_of_length_le {token : Token} {input : Octets}
    (h : Text [token] input)
    (hlength : ∀ kind str, Reads kind token str →
      input.length ≤ str.length) : ∃ kind, Reads kind token input := by
  obtain ⟨kind, str, before, after, hreads, rfl⟩ := h.singleton_inv
  have hle := hlength kind str hreads
  rw [List.length_append, List.length_append] at hle
  obtain rfl := List.eq_nil_of_length_eq_zero (show before.length = 0 by omega)
  obtain rfl := List.eq_nil_of_length_eq_zero (show after.length = 0 by omega)
  rw [List.nil_append, List.append_nil]
  exact ⟨kind, hreads⟩

theorem length_unescapeString_le (body : Octets) :
    (unescapeString body).length ≤ body.length := by
  fun_induction unescapeString body with
  | case1 b rest ih =>
      simp only [List.length_cons]
      omega
  | case2 b rest _ ih =>
      simp only [List.length_cons]
      omega
  | case3 => exact Nat.le_refl 0

/-- Only what has nothing to unescape keeps its length. -/
theorem plain_of_length_unescapeString {body : Octets}
    (hbody : stringBody body = true)
    (h : (unescapeString body).length = body.length) :
    ∀ b ∈ body, b ≠ 34 ∧ b ≠ 92 := by
  induction body with
  | nil => exact fun _ h => by contradiction
  | cons b rest ih =>
      by_cases hb : b = 92
      · subst hb
        cases rest with
        | nil => simp [stringBody] at hbody
        | cons c rest =>
            have hle := length_unescapeString_le rest
            rw [unescapeString] at h
            simp only [List.length_cons] at h
            omega
      · have hother : ∀ c rest', b = 92 → rest = c :: rest' → False :=
          fun _ _ heq => absurd heq hb
        rw [unescapeString, List.length_cons, List.length_cons] at h
        · rw [stringBody, Bool.and_eq_true, Bool.and_eq_true, bne_iff_ne,
            bne_iff_ne] at hbody
          · exact List.forall_mem_cons.mpr
              ⟨hbody.1, ih hbody.2 (Nat.succ.inj h)⟩
          · exact hother
        · exact hother

theorem stringBody_of_plain {value : Octets}
    (h : ∀ b ∈ value, b ≠ 34 ∧ b ≠ 92) :
    stringBody value = true ∧ unescapeString value = value := by
  induction value with
  | nil => exact ⟨rfl, rfl⟩
  | cons b rest ih =>
      obtain ⟨⟨hquote, hescape⟩, hrest⟩ := List.forall_mem_cons.mp h
      obtain ⟨hbody, hvalue⟩ := ih hrest
      have hother : ∀ c rest', b = 92 → rest = c :: rest' → False :=
        fun _ _ heq => absurd heq hescape
      constructor
      · rw [stringBody, hbody, bne_iff_ne.mpr hquote, bne_iff_ne.mpr hescape]
        · rfl
        · exact hother
      · rw [unescapeString, hvalue]
        exact hother

/-- A token that `stringify` gives as it is read. -/
def Plain : Token → Prop
  | .string value => ∀ b ∈ value, b ≠ 34 ∧ b ≠ 92
  | .boolean _ => False
  | .integer value => 0 ≤ value
  | _ => True

theorem Reads.string_inv {kind : Kind} {value str : Octets}
    (h : Reads kind (.string value) str) :
    ∃ body, stringBody body = true ∧ value = unescapeString body ∧
      str = 34 :: (body ++ [34]) := by
  obtain rfl := h.kind_eq
  cases h with
  | string hbody => exact ⟨_, hbody, rfl, rfl⟩

theorem reads_stringify {kind : Kind} {token : Token} {str : Octets}
    (h : Reads kind token str) (hplain : Plain token) :
    Reads kind token token.stringify := by
  have hspelling := h.spelling (by rintro n rfl; exact hplain)
  cases token with
  | string value =>
      obtain rfl := h.kind_eq
      obtain ⟨hbody, hvalue⟩ := stringBody_of_plain hplain
      have hreads := Reads.string hbody
      rw [hvalue] at hreads
      exact hreads
  | boolean value => exact hplain.elim
  | integer value =>
      have hle : ¬ value < 0 := Int.not_lt.mpr hplain
      have habs : value.toNat = value.natAbs := by omega
      rw [Lexical.spelling, habs] at hspelling
      rw [Token.stringify, if_neg hle]
      exact hspelling
  | _ => exact hspelling

/-- No token begins with a sign. -/
theorem not_text_minus {tokens : List Token} {rest : Octets} :
    ¬ Text tokens (45 :: rest) := by
  intro h
  generalize hinput : 45 :: rest = input at h
  cases h with
  | nil => contradiction
  | blank hb _ =>
      obtain ⟨rfl, _⟩ := List.cons.inj hinput
      contradiction
  | comment _ _ _ =>
      obtain ⟨hbyte, _⟩ := List.cons.inj hinput
      contradiction
  | token hreads _ _ =>
      obtain ⟨first, others, rfl, hkind⟩ := hreads.lexeme.ofByte
      obtain ⟨rfl, _⟩ := List.cons.inj hinput
      have hnone : Kind.ofByte 45 = none := by decide
      rw [hnone] at hkind
      contradiction

theorem plain_of_text {token : Token} (h : Text [token] token.stringify) :
    Plain token := by
  cases token with
  | string value =>
      obtain ⟨kind, hreads⟩ := reads_of_length_le h fun kind str hreads => by
        obtain ⟨body, _, rfl, rfl⟩ := hreads.string_inv
        have hle := length_unescapeString_le body
        simp only [Token.stringify, List.length_cons, List.length_append]
        omega
      obtain ⟨body, hbody, hvalue, hstr⟩ := hreads.string_inv
      obtain ⟨_, hstr⟩ := List.cons.inj hstr
      obtain rfl := (List.append_inj' hstr rfl).1
      exact plain_of_length_unescapeString hbody
        (congrArg List.length hvalue.symm)
  | boolean value =>
      obtain ⟨kind, hreads⟩ := reads_of_length_le h fun kind str hreads => by
        have hpos := List.length_pos_iff.mpr hreads.lexeme.ne_nil
        rw [Token.stringify]
        split <;> exact hpos
      have hkind := hreads.kind_eq
      obtain ⟨first, others, hstr, hbyte⟩ := hreads.lexeme.ofByte
      rw [hkind, Token.stringify] at *
      cases value with
      | true =>
          obtain ⟨rfl, _⟩ := List.cons.inj hstr
          have hdigit : Kind.ofByte 49 = some .integer := rfl
          exact Kind.noConfusion
            (Option.some.inj (hdigit.symm.trans hbyte))
      | false =>
          obtain ⟨rfl, _⟩ := List.cons.inj hstr
          have hdigit : Kind.ofByte 48 = some .integer := rfl
          exact Kind.noConfusion
            (Option.some.inj (hdigit.symm.trans hbyte))
  | integer value =>
      by_contra hneg
      have hlt : value < 0 := Int.not_le.mp hneg
      rw [Token.stringify, if_pos hlt] at h
      exact not_text_minus h
  | _ => trivial

end Lexical

/-- What `stringify` gives is read back as the token exactly where the token
has texts, is no truth value, has nothing to escape and no sign. -/
theorem tokenize_stringify_iff (sm : StateMachine) (token : Token) :
    tokenize sm token.stringify = some [token] ↔
      (∃ kind str, Reads kind token str) ∧ Plain token := by
  rw [tokenize_eq_some_iff]
  constructor
  · intro h
    exact ⟨h.exists_reads token List.mem_cons_self, plain_of_text h⟩
  · rintro ⟨⟨kind, str, hreads⟩, hplain⟩
    have htext := Text.token (reads_stringify hreads hplain)
      (fun _ _ h => by contradiction) .nil
    rw [List.append_nil] at htext
    exact htext

/-- `stringify` escapes nothing: the string `a` comes back, and a quote does
not. -/
theorem tokenize_stringify_iff_quote :
    tokenize derivatives (Token.string [97]).stringify =
        some [.string [97]] ∧
      tokenize derivatives (Token.string [34]).stringify ≠
        some [.string [34]] := by
  have hreads : Reads .string (.string [97]) [34, 97, 34] :=
    .string (rfl : stringBody [97] = true)
  constructor
  · exact (tokenize_stringify_iff derivatives _).mpr
      ⟨⟨_, _, hreads⟩, by simp [Plain]⟩
  · intro h
    obtain ⟨_, hplain⟩ := (tokenize_stringify_iff derivatives _).mp h
    exact (hplain 34 List.mem_cons_self).1 rfl

end NetworkProtocolDsl
