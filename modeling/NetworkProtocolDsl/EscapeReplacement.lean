/-
The escape loops of `WriteOctetsWithEscape` and `ReadOctetsUntilTerminator`.

Both loops are shown to follow the position-by-position rules of escaped
fields.  The round trip of the escape options the shipped protocols use is
then an instance of the general one.
-/
import NetworkProtocolDsl.InputOutputOperation
import NetworkProtocolDsl.Library.Escape

namespace NetworkProtocolDsl

open Escape

namespace WriteOctetsWithEscape

theorem replaceFrom_replaced (escape : EscapeInfo)
    (hne : escape.character ≠ []) {fuel : Nat} {rest : Octets}
    (hfuel : rest.length < fuel) (result : Octets) :
    ∃ escaped, replaceFrom escape fuel rest result = .ok (result ++ escaped) ∧
      Replaced escape.character escape.sequence rest escaped := by
  induction fuel generalizing rest result with
  | zero => omega
  | succ fuel ih =>
      by_cases hrest : rest = []
      · subst hrest
        exact ⟨[], by simp [replaceFrom], .nil⟩
      · cases hfirst : Occurrence.first escape.character rest with
        | none =>
            exact ⟨rest, by simp [replaceFrom, hrest, hfirst],
              replaced_of_first_none hfirst⟩
        | some i =>
            have hpos := List.length_pos_of_ne_nil hne
            have hlen : (rest.drop (i + escape.character.length)).length
                < fuel := by
              have := Occurrence.length_le_of_first hfirst
              simp only [List.length_drop]
              omega
            obtain ⟨escaped, heq, hrep⟩ :=
              ih hlen (result ++ rest.take i ++ escape.sequence)
            refine ⟨rest.take i ++ (escape.sequence ++ escaped), ?_,
              replaced_of_first hfirst hrep⟩
            simp only [replaceFrom, hrest, hfirst, ↓reduceIte, heq]
            simp only [List.append_assoc]

/-- The escaped form of every value exists and follows the rules. -/
theorem applyEscapeReplacement_replaced {escape : EscapeInfo}
    (hne : escape.character ≠ []) (value : Octets) :
    ∃ escaped, applyEscapeReplacement value escape = .ok escaped ∧
      Replaced escape.character escape.sequence value escaped := by
  simpa [applyEscapeReplacement] using
    replaceFrom_replaced escape hne (Nat.lt_succ_self value.length) []

end WriteOctetsWithEscape

namespace ReadOctetsUntilTerminator

variable {terminator : Octets} {escape : EscapeInfo}

/-- Taking a sequence is one turn of the scanning loop. -/
theorem scan_sequence {fuel : Nat} {rest : Octets} {i : Nat}
    (hrest : rest ≠ [])
    (hseq : Occurrence.first escape.sequence rest = some i)
    (hterm : ∀ j, Occurrence.first terminator rest = some j → i ≤ j)
    (pos : Nat) (ctx : InputOutputOperationContext) :
    scan terminator escape (fuel + 1) rest pos ctx =
      scan terminator escape fuel (rest.drop (i + escape.sequence.length))
        (pos + i + escape.sequence.length)
        { ctx with
          buffer := ctx.buffer ++ rest.take i ++ escape.character } := by
  cases hfirst : Occurrence.first terminator rest with
  | none => simp [scan, hrest, hseq, hfirst]
  | some j => simp [scan, hrest, hseq, hfirst, hterm j hfirst]

/-- Stopping at a terminator is the last turn of the scanning loop. -/
theorem scan_terminator {fuel : Nat} {rest : Octets} {i : Nat}
    (hrest : rest ≠ []) (hterm : Occurrence.first terminator rest = some i)
    (hseq : ∀ j, Occurrence.first escape.sequence rest = some j → i < j)
    (pos : Nat) (ctx : InputOutputOperationContext) :
    scan terminator escape (fuel + 1) rest pos ctx =
      .ok (pos + i + terminator.length,
        { ctx with buffer := ctx.buffer ++ rest.take i, ready := true }) := by
  cases hfirst : Occurrence.first escape.sequence rest with
  | none => simp [scan, hrest, hterm, hfirst]
  | some j =>
      have hlt := hseq j hfirst
      simp [scan, hrest, hterm, hfirst, Nat.not_le.mpr hlt]

/-- What the search finds next: nothing, a sequence, or a terminator with no
sequence up to it. -/
theorem search_cases (terminator sequence rest : Octets) :
    (Occurrence.first terminator rest = none ∧
      Occurrence.first sequence rest = none) ∨
    (∃ i, Occurrence.first sequence rest = some i ∧
      ∀ j, Occurrence.first terminator rest = some j → i ≤ j) ∨
    ∃ i, Occurrence.first terminator rest = some i ∧
      ∀ j, Occurrence.first sequence rest = some j → i < j := by
  cases hseq : Occurrence.first sequence rest with
  | none =>
      cases hterm : Occurrence.first terminator rest with
      | none => exact Or.inl ⟨rfl, rfl⟩
      | some i => exact Or.inr (Or.inr ⟨i, rfl, by simp⟩)
  | some i =>
      cases hterm : Occurrence.first terminator rest with
      | none => exact Or.inr (Or.inl ⟨i, rfl, by simp⟩)
      | some j =>
          rcases Nat.lt_or_ge j i with hlt | hge
          · exact Or.inr (Or.inr ⟨j, rfl, by simpa using hlt⟩)
          · exact Or.inr (Or.inl ⟨i, rfl, by simpa using hge⟩)

theorem not_prefix_before {pattern rest : Octets} {i : Nat}
    (h : ∀ j, Occurrence.first pattern rest = some j → i ≤ j)
    (hi : i ≤ rest.length) : ∀ j < i, ¬ pattern <+: rest.drop j := by
  intro j hj hat
  obtain ⟨k, hk, hfirst⟩ :=
    Occurrence.first_isSome_of_prefix_drop hat (by omega)
  have := h k hfirst
  omega

/-- The loop reads the field the stream starts with. -/
theorem scan_field {fuel : Nat} {rest : Octets}
    (hfuel : rest.length < fuel) {value : Octets} {size : Nat}
    (h : Field terminator escape.character escape.sequence rest value size)
    (pos : Nat) (ctx : InputOutputOperationContext) :
    scan terminator escape fuel rest pos ctx =
      .ok (pos + size,
        { ctx with buffer := ctx.buffer ++ value, ready := true }) := by
  have hne := h.sequence_ne_nil
  induction fuel generalizing rest value size pos ctx with
  | zero => omega
  | succ fuel ih =>
      have hrest : rest ≠ [] := by
        rintro rfl
        exact Field.not_nil h
      rcases search_cases terminator escape.sequence rest with
        ⟨hterm, _⟩ | ⟨i, hseq, hterm⟩ | ⟨i, hterm, hseq⟩
      · have := Occurrence.first_isSome_iff_infix.mpr h.terminator_infix
        rw [hterm] at this
        contradiction
      · have hlen := Occurrence.length_le_of_first hseq
        have hpos := List.length_pos_of_ne_nil hne
        have hterm' := not_prefix_before hterm (by omega)
        obtain ⟨v, n, hfield, rfl, rfl⟩ :=
          (field_iff_of_first_sequence hseq hterm').mp h
        rw [scan_sequence hrest hseq hterm, ih _ hfield]
        · simp [Nat.add_assoc]
        · rw [List.length_drop]
          omega
      · have hlen := Occurrence.length_le_of_first hterm
        have hseq' : ∀ j ≤ i, ¬ escape.sequence <+: rest.drop j := by
          intro j hj hat
          obtain ⟨k, hk, hfirst⟩ :=
            Occurrence.first_isSome_of_prefix_drop hat (by omega)
          have := hseq k hfirst
          omega
        obtain ⟨rfl, rfl⟩ :=
          h.unique (field_of_first_terminator hrest hterm hseq')
        rw [scan_terminator hrest hterm hseq, Nat.add_assoc]

/-- Where no field is complete the loop consumes nothing; it leaves something
behind in the buffer exactly if it met a sequence. -/
theorem scan_no_field (hne : escape.sequence ≠ []) {fuel : Nat}
    {rest : Octets} (hfuel : rest.length < fuel)
    (h : ∀ value size,
      ¬ Field terminator escape.character escape.sequence rest value size)
    (pos : Nat) (ctx : InputOutputOperationContext) :
    ∃ read, scan terminator escape fuel rest pos ctx =
        .ok (0, { ctx with buffer := ctx.buffer ++ read }) ∧
      (¬ escape.sequence <:+: rest → read = []) ∧
      (escape.sequence <:+: rest → escape.character ≠ [] → read ≠ []) := by
  induction fuel generalizing rest pos ctx with
  | zero => omega
  | succ fuel ih =>
      by_cases hrest : rest = []
      · refine ⟨[], by simp [scan, hrest], fun _ => rfl, ?_⟩
        intro hin
        rw [hrest, List.infix_nil] at hin
        exact absurd hin hne
      rcases search_cases terminator escape.sequence rest with
        ⟨hterm, hseq⟩ | ⟨i, hseq, hterm⟩ | ⟨i, hterm, hseq⟩
      · refine ⟨[], by simp [scan, hrest, hterm, hseq], fun _ => rfl, ?_⟩
        intro hin
        have := Occurrence.first_isSome_iff_infix.mpr hin
        rw [hseq] at this
        contradiction
      · have hlen := Occurrence.length_le_of_first hseq
        have hpos := List.length_pos_of_ne_nil hne
        have hterm' := not_prefix_before hterm (by omega)
        have hnone : ∀ value size, ¬ Field terminator escape.character
            escape.sequence (rest.drop (i + escape.sequence.length))
            value size := by
          intro value size hfield
          exact h _ _ ((field_iff_of_first_sequence hseq hterm').mpr
            ⟨value, size, hfield, rfl, rfl⟩)
        have hfuel' : (rest.drop (i + escape.sequence.length)).length
            < fuel := by
          rw [List.length_drop]
          omega
        obtain ⟨read, heq, _, _⟩ := ih hfuel' hnone
          (pos + i + escape.sequence.length)
          { ctx with
            buffer := ctx.buffer ++ rest.take i ++ escape.character }
        refine ⟨rest.take i ++ escape.character ++ read, ?_, ?_, ?_⟩
        · rw [scan_sequence hrest hseq hterm, heq]
          simp only [List.append_assoc]
        · intro hnot
          exact absurd
            (Occurrence.first_isSome_iff_infix.mp (by rw [hseq]; rfl)) hnot
        · intro _ hchar hnil
          simp only [List.append_eq_nil_iff] at hnil
          exact hchar hnil.1.2
      · have hlen := Occurrence.length_le_of_first hterm
        have hseq' : ∀ j ≤ i, ¬ escape.sequence <+: rest.drop j := by
          intro j hj hat
          obtain ⟨k, hk, hfirst⟩ :=
            Occurrence.first_isSome_of_prefix_drop hat (by omega)
          have := hseq k hfirst
          omega
        exact absurd (field_of_first_terminator hrest hterm hseq') (h _ _)

/-- One call on the field the input starts with reads that field. -/
theorem handleRead_field {input value : Octets} {size : Nat}
    (h : Field terminator escape.character escape.sequence input value size)
    (ctx : InputOutputOperationContext) :
    handleRead terminator (some escape) ctx input =
      .ok (size,
        { ctx with buffer := ctx.buffer ++ value, ready := true }) := by
  simpa [handleRead] using
    scan_field (Nat.lt_succ_self input.length) h 0 ctx

theorem handleRead_no_field (hne : escape.sequence ≠ []) {input : Octets}
    (h : ∀ value size,
      ¬ Field terminator escape.character escape.sequence input value size)
    (ctx : InputOutputOperationContext) :
    ∃ read, handleRead terminator (some escape) ctx input =
        .ok (0, { ctx with buffer := ctx.buffer ++ read }) ∧
      (¬ escape.sequence <:+: input → read = []) ∧
      (escape.sequence <:+: input → escape.character ≠ [] → read ≠ []) :=
  scan_no_field hne (Nat.lt_succ_self input.length) h 0 ctx

/-- With an empty sequence the loop makes no progress. -/
theorem scan_empty_sequence (hnil : escape.sequence = []) {rest : Octets}
    (hrest : rest ≠ []) (fuel pos : Nat) (ctx : InputOutputOperationContext) :
    scan terminator escape fuel rest pos ctx = .error .nonTermination := by
  have hseq : Occurrence.first escape.sequence rest = some 0 := by
    rw [hnil]
    exact Occurrence.first_of_prefix List.nil_prefix
  induction fuel generalizing pos ctx with
  | zero => rfl
  | succ fuel ih =>
      rw [scan_sequence hrest hseq (fun j _ => Nat.zero_le j), hnil]
      exact ih _ _

/-- What one call leaves behind, with or without an escape option: it is ready
exactly if a field is complete, and otherwise consumes nothing. -/
theorem handleRead_escape_cases {ctx ctx' : InputOutputOperationContext}
    {input : Octets} {consumed : Nat}
    (h : handleRead terminator (some escape) ctx input =
      .ok (consumed, ctx')) :
    (∃ value, Field terminator escape.character escape.sequence input value
        consumed ∧
      ctx' = { ctx with buffer := ctx.buffer ++ value, ready := true }) ∨
    (∀ value size, ¬ Field terminator escape.character escape.sequence input
        value size) ∧ consumed = 0 ∧
      ∃ read, ctx' = { ctx with buffer := ctx.buffer ++ read } := by
  by_cases hfield : ∃ value size, Field terminator escape.character
      escape.sequence input value size
  · obtain ⟨value, size, hfield⟩ := hfield
    rw [handleRead_field hfield] at h
    simp only [Except.ok.injEq, Prod.mk.injEq] at h
    obtain ⟨rfl, rfl⟩ := h
    exact Or.inl ⟨value, hfield, rfl⟩
  · have hno : ∀ value size, ¬ Field terminator escape.character
        escape.sequence input value size := fun value size hf =>
      hfield ⟨value, size, hf⟩
    refine Or.inr ⟨hno, ?_⟩
    by_cases hne : escape.sequence = []
    · by_cases hinput : input = []
      · simp only [handleRead, scan, hinput, ↓reduceIte, Except.ok.injEq,
          Prod.mk.injEq] at h
        exact ⟨h.1.symm, [], by simp [h.2]⟩
      · rw [handleRead, scan_empty_sequence hne hinput] at h
        contradiction
    · obtain ⟨read, heq, _, _⟩ := handleRead_no_field hne hno ctx
      rw [heq] at h
      simp only [Except.ok.injEq, Prod.mk.injEq] at h
      exact ⟨h.1.symm, read, h.2.symm⟩

end ReadOctetsUntilTerminator

/-- Writing `value` with the escape option, closing it with the terminator and
reading it in one call on a fresh context gives the value back and consumes
its escaped form and the terminator. -/
def EscapeInfo.RoundTrips (escape : EscapeInfo)
    (terminator value rest : Octets) : Prop :=
  ∃ escaped ctx,
    WriteOctetsWithEscape.applyEscapeReplacement value escape = .ok escaped ∧
    ReadOctetsUntilTerminator.handleRead terminator (some escape) {}
        (escaped ++ (terminator ++ rest)) =
      .ok (escaped.length + terminator.length, ctx) ∧
    ReadOctetsUntilTerminator.apply ctx = .value (.octets value)

theorem EscapeInfo.roundTrips_of_scheme {escape : EscapeInfo}
    {terminator lead : Octets}
    (scheme : Scheme terminator escape.character escape.sequence lead)
    (value : Octets) {rest : Octets}
    (hrest : ¬ escape.sequence <+: terminator ++ rest) :
    escape.RoundTrips terminator value rest := by
  obtain ⟨escaped, heq, hrep⟩ :=
    WriteOctetsWithEscape.applyEscapeReplacement_replaced scheme.mark_ne_nil
      value
  exact ⟨escaped, _, heq,
    ReadOctetsUntilTerminator.handleRead_field
      (scheme.field_of_replaced hrep hrest) {}, rfl⟩

/-- Dot stuffing: CR LF `.` is written CR LF `..`. -/
def smtpDataEscape : EscapeInfo := ⟨[13, 10, 46], [13, 10, 46, 46]⟩

/-- CR LF `.` CR LF. -/
def smtpDataTerminator : Octets := [13, 10, 46, 13, 10]

/-- Header continuation: LF is written CR LF and a space. -/
def httpHeaderEscape : EscapeInfo := ⟨[10], [13, 10, 32]⟩

/-- CR LF. -/
def httpHeaderTerminator : Octets := [13, 10]

theorem smtpData_scheme :
    Scheme smtpDataTerminator smtpDataEscape.character
      smtpDataEscape.sequence [] := by
  constructor <;> decide

theorem httpHeader_scheme :
    Scheme httpHeaderTerminator httpHeaderEscape.character
      httpHeaderEscape.sequence [13] := by
  constructor <;> decide

/-- Every value survives the wire under the escape options of the shipped
protocols; after a header value the next line must not start with a space. -/
theorem shipped_escape_roundTrips :
    (∀ value rest : Octets,
      smtpDataEscape.RoundTrips smtpDataTerminator value rest) ∧
    ∀ value rest : Octets, rest.head? ≠ some 32 →
      httpHeaderEscape.RoundTrips httpHeaderTerminator value rest := by
  constructor
  · intro value rest
    refine EscapeInfo.roundTrips_of_scheme smtpData_scheme value ?_
    simp [smtpDataEscape, smtpDataTerminator]
  · intro value rest hrest
    refine EscapeInfo.roundTrips_of_scheme httpHeader_scheme value ?_
    rintro ⟨tail, htail⟩
    apply hrest
    simp only [httpHeaderEscape, httpHeaderTerminator, List.cons_append,
      List.nil_append, List.cons.injEq, true_and] at htail
    rw [← htail]
    rfl

theorem shipped_escape_roundTrips_continued :
    httpHeaderEscape.RoundTrips httpHeaderTerminator [97, 10, 98] [72] :=
  shipped_escape_roundTrips.2 [97, 10, 98] [72] (by decide)

end NetworkProtocolDsl
