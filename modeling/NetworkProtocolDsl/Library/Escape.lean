/-
Escaped fields.

A value is written with every occurrence of a mark replaced by a sequence, and
closed by a terminator.  Reading takes the sequence where it stands, even where
the terminator also stands, and stops at the first terminator.  Both sides are
described here by rules that look at one position at a time; how a scanning
loop finds those positions is not their concern.
-/
import NetworkProtocolDsl.Library.Occurrence

namespace Escape

universe u

variable {α : Type u}

/-- `escaped` is `value` with each mark, taken from the left without overlap,
replaced by `sequence`. -/
inductive Replaced (mark sequence : List α) : List α → List α → Prop where
  | nil : Replaced mark sequence [] []
  | mark {value escaped : List α} :
      Replaced mark sequence value escaped →
      Replaced mark sequence (mark ++ value) (sequence ++ escaped)
  | element {a : α} {value escaped : List α} :
      ¬ mark <+: a :: value → Replaced mark sequence value escaped →
      Replaced mark sequence (a :: value) (a :: escaped)

/-- The stream starts with a field that stands for `value` and takes `size`
elements, its terminator included. -/
inductive Field (terminator mark sequence : List α) :
    List α → List α → Nat → Prop where
  | terminator {stream : List α} :
      stream ≠ [] → ¬ sequence <+: stream → terminator <+: stream →
      Field terminator mark sequence stream [] terminator.length
  | sequence {stream value : List α} {size : Nat} :
      Field terminator mark sequence stream value size →
      Field terminator mark sequence (sequence ++ stream) (mark ++ value)
        (sequence.length + size)
  | element {a : α} {stream value : List α} {size : Nat} :
      ¬ sequence <+: a :: stream → ¬ terminator <+: a :: stream →
      Field terminator mark sequence stream value size →
      Field terminator mark sequence (a :: stream) (a :: value) (size + 1)

section Field

variable {terminator mark sequence : List α}

theorem Field.size_le {stream value : List α} {size : Nat}
    (h : Field terminator mark sequence stream value size) :
    size ≤ stream.length := by
  induction h with
  | terminator _ _ hterm => exact hterm.length_le
  | sequence _ ih => simpa using ih
  | element _ _ _ ih => simpa using ih

theorem Field.terminator_infix {stream value : List α} {size : Nat}
    (h : Field terminator mark sequence stream value size) :
    terminator <:+: stream := by
  induction h with
  | terminator _ _ hterm => exact hterm.isInfix
  | sequence _ ih => exact ih.trans (List.suffix_append _ _).isInfix
  | element _ _ _ ih => exact ih.trans (List.suffix_cons _ _).isInfix

/-- At a sequence a field has to take it. -/
theorem Field.of_sequence {stream value : List α} {size : Nat}
    (h : Field terminator mark sequence (sequence ++ stream) value size) :
    ∃ value' size', Field terminator mark sequence stream value' size' ∧
      value = mark ++ value' ∧ size = sequence.length + size' := by
  generalize hwhole : sequence ++ stream = whole at h
  cases h with
  | terminator _ hseq _ => exact absurd ⟨stream, hwhole⟩ hseq
  | sequence hfield =>
      obtain rfl := List.append_cancel_left hwhole
      exact ⟨_, _, hfield, rfl, rfl⟩
  | element hseq _ _ => exact absurd ⟨stream, hwhole⟩ hseq

/-- Where neither the sequence nor the terminator stands a field takes one
element. -/
theorem Field.of_element {a : α} {stream value : List α} {size : Nat}
    (hseq : ¬ sequence <+: a :: stream)
    (hterm : ¬ terminator <+: a :: stream)
    (h : Field terminator mark sequence (a :: stream) value size) :
    ∃ value' size', Field terminator mark sequence stream value' size' ∧
      value = a :: value' ∧ size = size' + 1 := by
  generalize hwhole : a :: stream = whole at h
  cases h with
  | terminator _ _ hat => exact absurd (hwhole ▸ hat) hterm
  | sequence _ => exact absurd ⟨_, hwhole.symm⟩ hseq
  | element _ _ hfield =>
      obtain ⟨rfl, rfl⟩ := List.cons.inj hwhole
      exact ⟨_, _, hfield, rfl, rfl⟩

/-- An empty sequence stands everywhere and is taken for ever. -/
theorem Field.sequence_ne_nil {stream value : List α} {size : Nat}
    (h : Field terminator mark sequence stream value size) :
    sequence ≠ [] := by
  rintro rfl
  induction h with
  | terminator _ hseq _ => exact hseq List.nil_prefix
  | sequence _ ih => exact ih
  | element hseq _ _ _ => exact hseq List.nil_prefix

theorem Field.not_nil {value : List α} {size : Nat} :
    ¬ Field terminator mark sequence [] value size := by
  intro h
  have hne := h.sequence_ne_nil
  generalize hwhole : ([] : List α) = whole at h
  cases h with
  | terminator h _ _ => exact h hwhole.symm
  | sequence _ => exact hne (List.append_eq_nil_iff.mp hwhole.symm).1
  | element _ _ _ => contradiction

/-- A stream starts with at most one field. -/
theorem Field.unique {stream value value' : List α} {size size' : Nat}
    (h : Field terminator mark sequence stream value size)
    (h' : Field terminator mark sequence stream value' size') :
    value = value' ∧ size = size' := by
  induction h generalizing value' size' with
  | terminator hstream hseq hterm =>
      cases h' with
      | terminator => exact ⟨rfl, rfl⟩
      | sequence => exact absurd (List.prefix_append _ _) hseq
      | element _ hno _ => exact absurd hterm hno
  | sequence _ ih =>
      obtain ⟨v, n, hfield, rfl, rfl⟩ := h'.of_sequence
      obtain ⟨rfl, rfl⟩ := ih hfield
      exact ⟨rfl, rfl⟩
  | element hseq hterm _ ih =>
      obtain ⟨v, n, hfield, rfl, rfl⟩ := h'.of_element hseq hterm
      obtain ⟨rfl, rfl⟩ := ih hfield
      exact ⟨rfl, rfl⟩

/-- Elements before which neither the sequence nor the terminator stands are
taken one by one. -/
theorem Field.append_left {before stream value : List α} {size : Nat}
    (hseq : ∀ j < before.length, ¬ sequence <+: (before ++ stream).drop j)
    (hterm : ∀ j < before.length, ¬ terminator <+: (before ++ stream).drop j)
    (h : Field terminator mark sequence stream value size) :
    Field terminator mark sequence (before ++ stream) (before ++ value)
      (before.length + size) := by
  induction before with
  | nil => simpa using h
  | cons a before ih =>
      have hrest := ih
        (fun j hj => by simpa using hseq (j + 1) (by simpa using hj))
        (fun j hj => by simpa using hterm (j + 1) (by simpa using hj))
      have hfield := Field.element (by simpa using hseq 0 (by simp))
        (by simpa using hterm 0 (by simp)) hrest
      have hsize : (a :: before).length + size = before.length + size + 1 := by
        simp only [List.length_cons]
        omega
      rw [hsize]
      exact hfield

theorem Field.of_append_left {before stream value : List α} {size : Nat}
    (hseq : ∀ j < before.length, ¬ sequence <+: (before ++ stream).drop j)
    (hterm : ∀ j < before.length, ¬ terminator <+: (before ++ stream).drop j)
    (h : Field terminator mark sequence (before ++ stream) value size) :
    ∃ value' size', Field terminator mark sequence stream value' size' ∧
      value = before ++ value' ∧ size = before.length + size' := by
  induction before generalizing value size with
  | nil => exact ⟨value, size, h, rfl, by simp⟩
  | cons a before ih =>
      obtain ⟨v, n, hfield, rfl, rfl⟩ := h.of_element
        (by simpa using hseq 0 (by simp)) (by simpa using hterm 0 (by simp))
      obtain ⟨v', n', hfield', rfl, rfl⟩ := ih
        (fun j hj => by simpa using hseq (j + 1) (by simpa using hj))
        (fun j hj => by simpa using hterm (j + 1) (by simpa using hj)) hfield
      refine ⟨v', n', hfield', rfl, ?_⟩
      simp only [List.length_cons]
      omega

/-- The terminator of a field starts inside the stream, even an empty one. -/
theorem Field.size_lt {stream value : List α} {size : Nat}
    (h : Field terminator mark sequence stream value size) :
    size < stream.length + terminator.length := by
  induction h with
  | terminator hstream _ _ =>
      have := List.length_pos_of_ne_nil hstream
      omega
  | sequence _ ih =>
      simp only [List.length_append]
      omega
  | element _ _ _ ih =>
      simp only [List.length_cons]
      omega

theorem Field.terminator_length_le {stream value : List α} {size : Nat}
    (h : Field terminator mark sequence stream value size) :
    terminator.length ≤ size := by
  induction h with
  | terminator _ _ _ => exact Nat.le_refl _
  | sequence _ ih => omega
  | element _ _ _ ih => omega

theorem Field.value_of_size_zero {stream value : List α}
    (h : Field terminator mark sequence stream value 0) : value = [] := by
  have hne := h.sequence_ne_nil
  generalize hsize : 0 = size at h
  cases h with
  | terminator _ _ _ => rfl
  | sequence _ =>
      have := List.length_pos_of_ne_nil hne
      omega
  | element _ _ _ => omega

/-- A field of a stream is a field of each prefix long enough to hold it. -/
theorem Field.of_append {stream rest value : List α} {size : Nat}
    (h : Field terminator mark sequence (stream ++ rest) value size)
    (hsize : size ≤ stream.length)
    (hlt : size < stream.length + terminator.length) :
    Field terminator mark sequence stream value size := by
  generalize hwhole : stream ++ rest = whole at h
  induction h generalizing stream with
  | terminator _ hseq hterm =>
      subst hwhole
      refine .terminator (List.ne_nil_of_length_pos (by omega))
        (fun hat => hseq (hat.trans (List.prefix_append _ _))) ?_
      exact List.prefix_of_prefix_length_le hterm (List.prefix_append _ _)
        hsize
  | @sequence tail value size hfield ih =>
      have hstarts : sequence <+: stream :=
        List.prefix_of_prefix_length_le
          (hwhole ▸ List.prefix_append sequence tail)
          (List.prefix_append stream rest) (by omega)
      obtain ⟨middle, rfl⟩ := hstarts
      rw [List.append_assoc] at hwhole
      simp only [List.length_append] at hsize hlt
      exact .sequence
        (ih (by omega) (by omega) (List.append_cancel_left hwhole))
  | @element a tail value size hseq hterm hfield ih =>
      have hle := hfield.terminator_length_le
      cases stream with
      | nil =>
          simp only [List.length_nil] at hsize
          omega
      | cons b stream =>
          obtain ⟨rfl, rfl⟩ := List.cons.inj hwhole
          simp only [List.length_cons] at hsize hlt
          refine .element ?_ ?_ (ih (by omega) (by omega) rfl)
          · exact fun hat => hseq (hat.trans (List.prefix_append _ _))
          · exact fun hat => hterm (hat.trans (List.prefix_append _ _))

end Field

section Search

variable [DecidableEq α] {terminator mark sequence : List α}

/-- A terminator found before any sequence ends the field. -/
theorem field_of_first_terminator {stream : List α} {i : Nat}
    (hstream : stream ≠ [])
    (hterm : Occurrence.first terminator stream = some i)
    (hseq : ∀ j ≤ i, ¬ sequence <+: stream.drop j) :
    Field terminator mark sequence stream (stream.take i)
      (i + terminator.length) := by
  have hlen := Occurrence.length_le_of_first hterm
  have htake : (stream.take i).length = i := by
    rw [List.length_take]
    omega
  have hne : stream.drop i ≠ [] := by
    by_cases hnil : terminator = []
    · subst hnil
      have hzero := Occurrence.first_of_prefix (List.nil_prefix (l := stream))
      rw [hterm] at hzero
      obtain rfl := Option.some.inj hzero
      simpa using hstream
    · have hpos := List.length_pos_of_ne_nil hnil
      apply List.ne_nil_of_length_pos
      rw [List.length_drop]
      omega
  have hfield : Field terminator mark sequence (stream.drop i) []
      terminator.length :=
    .terminator hne (hseq i (Nat.le_refl i))
      (Occurrence.prefix_drop_of_first hterm)
  have hwhole := hfield.append_left
    (by
      intro j hj
      rw [List.take_append_drop]
      exact hseq j (by omega))
    (by
      intro j hj
      rw [List.take_append_drop]
      exact Occurrence.not_prefix_drop_of_lt hterm (by omega))
  rwa [List.take_append_drop, List.append_nil, htake] at hwhole

/-- A sequence found no later than any terminator has to be taken. -/
theorem field_iff_of_first_sequence {stream value : List α} {size i : Nat}
    (hseq : Occurrence.first sequence stream = some i)
    (hterm : ∀ j < i, ¬ terminator <+: stream.drop j) :
    Field terminator mark sequence stream value size ↔
      ∃ value' size',
        Field terminator mark sequence (stream.drop (i + sequence.length))
          value' size' ∧
        value = stream.take i ++ (mark ++ value') ∧
        size = i + (sequence.length + size') := by
  have hlen := Occurrence.length_le_of_first hseq
  have htake : (stream.take i).length = i := by
    rw [List.length_take]
    omega
  have hsplit : stream.take i ++
      (sequence ++ stream.drop (i + sequence.length)) = stream := by
    rw [← List.append_assoc]
    exact Occurrence.take_append_of_first hseq
  have hseq' : ∀ j < (stream.take i).length, ¬ sequence <+: (stream.take i ++
      (sequence ++ stream.drop (i + sequence.length))).drop j := by
    intro j hj
    rw [hsplit]
    exact Occurrence.not_prefix_drop_of_lt hseq (by omega)
  have hterm' : ∀ j < (stream.take i).length, ¬ terminator <+:
      (stream.take i ++
        (sequence ++ stream.drop (i + sequence.length))).drop j := by
    intro j hj
    rw [hsplit]
    exact hterm j (by omega)
  constructor
  · intro h
    rw [← hsplit] at h
    obtain ⟨v, n, hfield, rfl, rfl⟩ := h.of_append_left hseq' hterm'
    obtain ⟨v', n', hfield', rfl, rfl⟩ := hfield.of_sequence
    exact ⟨v', n', hfield', rfl, by rw [htake]⟩
  · rintro ⟨v, n, hfield, rfl, rfl⟩
    have hwhole := Field.append_left hseq' hterm' (.sequence hfield)
    rwa [hsplit, htake] at hwhole

/-- Where no mark is found the value is its own escaped form. -/
theorem replaced_of_first_none {value : List α}
    (h : Occurrence.first mark value = none) :
    Replaced mark sequence value value := by
  induction value with
  | nil => exact .nil
  | cons a value ih =>
      have hnot : ¬ mark <+: a :: value := by
        simpa using Occurrence.first_eq_none_iff.mp h 0 (Nat.zero_le _)
      rw [Occurrence.first_cons_of_mismatch hnot,
        Option.map_eq_none_iff] at h
      exact .element hnot (ih h)

/-- Up to the first mark the value is copied, and the mark is replaced. -/
theorem replaced_of_first {value escaped : List α} {i : Nat}
    (h : Occurrence.first mark value = some i)
    (hrest : Replaced mark sequence (value.drop (i + mark.length)) escaped) :
    Replaced mark sequence value
      (value.take i ++ (sequence ++ escaped)) := by
  induction value generalizing i with
  | nil =>
      have hlen := Occurrence.length_le_of_first h
      simp only [List.length_nil, Nat.le_zero, Nat.add_eq_zero_iff,
        List.length_eq_zero_iff] at hlen
      obtain ⟨rfl, rfl⟩ := hlen
      simpa using Replaced.mark hrest
  | cons a value ih =>
      by_cases hat : mark <+: a :: value
      · rw [Occurrence.first_of_prefix hat] at h
        obtain rfl := Option.some.inj h
        obtain ⟨tail, htail⟩ := hat
        rw [← htail] at hrest ⊢
        rw [Nat.zero_add, List.drop_left] at hrest
        exact .mark hrest
      · rw [Occurrence.first_cons_of_mismatch hat,
          Option.map_eq_some_iff] at h
        obtain ⟨j, hj, rfl⟩ := h
        rw [Nat.add_right_comm, List.drop_succ_cons] at hrest
        exact .element hat (ih hj hrest)

end Search

/-- What makes the escaped form unambiguous: the sequence and the terminator
both start with `lead` and the mark, and a mark cannot begin before that lead
and end inside it. -/
structure Scheme (terminator mark sequence lead : List α) : Prop where
  mark_ne_nil : mark ≠ []
  sequence_lead : lead ++ mark <+: sequence
  terminator_lead : lead ++ mark <+: terminator
  no_earlier_mark : ∀ j < lead.length, ¬ mark <+: (lead ++ mark).drop j
  no_overlap : ∀ k < mark.length, 0 < k → ¬ mark.drop k <+: lead ++ mark

section Scheme

variable {terminator mark sequence lead : List α}

/-- After elements that hold no mark, the mark of a lead is the first one. -/
theorem Scheme.mark_at (scheme : Scheme terminator mark sequence lead)
    {before rest : List α} (hbefore : ¬ mark <:+: before) {j : Nat}
    (hj : j < before.length + lead.length) :
    ¬ mark <+: (before ++ (lead ++ mark ++ rest)).drop j := by
  intro hat
  rcases Nat.lt_or_ge j before.length with hlt | hge
  · rw [List.drop_append_of_le_length (by omega)] at hat
    rcases Nat.le_total mark.length (before.drop j).length with hle | hle
    · have hinside : mark <+: before.drop j :=
        List.prefix_of_prefix_length_le hat (List.prefix_append _ _) hle
      exact hbefore (hinside.isInfix.trans (List.drop_suffix j before).isInfix)
    · have hstart : before.drop j <+: mark :=
        List.prefix_of_prefix_length_le (List.prefix_append _ _) hat hle
      obtain ⟨tail, htail⟩ := hstart
      have hlen : (before.drop j).length + tail.length = mark.length := by
        rw [← htail, List.length_append]
      have hdrop : mark.drop (before.drop j).length = tail := by
        rw [← htail, List.drop_left]
      have htailat : before.drop j ++ tail <+:
          before.drop j ++ (lead ++ mark ++ rest) := by
        rw [htail]
        exact hat
      rw [List.prefix_append_right_inj] at htailat
      have hin : tail <+: lead ++ mark := by
        refine List.prefix_of_prefix_length_le htailat
          (List.prefix_append _ _) ?_
        simp only [List.length_append]
        omega
      by_cases htnil : tail = []
      · subst htnil
        rw [List.append_nil] at htail
        exact hbefore (htail ▸ (List.drop_suffix j before).isInfix)
      · have hpos := List.length_pos_of_ne_nil htnil
        have hstart : 0 < (before.drop j).length := by
          simp only [List.length_drop]
          omega
        apply scheme.no_overlap (before.drop j).length (by omega) hstart
        rw [hdrop]
        exact hin
  · obtain ⟨k, rfl⟩ := Nat.exists_eq_add_of_le hge
    rw [List.drop_append, List.drop_of_length_le (by omega),
      List.nil_append, Nat.add_sub_cancel_left,
      List.drop_append_of_le_length (by simp only [List.length_append]; omega)]
      at hat
    apply scheme.no_earlier_mark k (by omega)
    refine List.prefix_of_prefix_length_le hat (List.prefix_append _ _) ?_
    simp only [List.length_drop, List.length_append]
    omega

/-- What follows in the escaped form: elements of the value that hold no mark,
then a lead. -/
theorem Scheme.next_lead (scheme : Scheme terminator mark sequence lead)
    {value escaped : List α} (h : Replaced mark sequence value escaped)
    (rest : List α) :
    ∃ before after, before <+: value ∧ ¬ mark <:+: before ∧
      escaped ++ (terminator ++ rest) = before ++ (lead ++ mark ++ after) := by
  have hnil : ¬ mark <:+: [] := by
    simpa using scheme.mark_ne_nil
  induction h with
  | nil =>
      obtain ⟨tail, htail⟩ := scheme.terminator_lead
      refine ⟨[], tail ++ rest, List.nil_prefix, hnil, ?_⟩
      simp [← htail]
  | @mark value escaped _ _ =>
      obtain ⟨tail, htail⟩ := scheme.sequence_lead
      refine ⟨[], tail ++ (escaped ++ (terminator ++ rest)), List.nil_prefix,
        hnil, ?_⟩
      simp [← htail]
  | @element a value escaped hmark _ ih =>
      obtain ⟨before, after, hstarts, hfree, heq⟩ := ih
      have hcons : a :: before <+: a :: value :=
        (List.prefix_cons_inj a).mpr hstarts
      refine ⟨a :: before, after, hcons, ?_, by simp [heq]⟩
      rw [List.infix_cons_iff]
      rintro (hat | hin)
      · exact hmark (hat.trans hcons)
      · exact hfree hin

/-- Reading a value in its escaped form gives the value back and takes the
escaped form and the terminator, whatever follows, as long as the terminator
and what follows do not start with the sequence. -/
theorem Scheme.field_of_replaced
    (scheme : Scheme terminator mark sequence lead)
    {value escaped rest : List α} (h : Replaced mark sequence value escaped)
    (hrest : ¬ sequence <+: terminator ++ rest) :
    Field terminator mark sequence (escaped ++ (terminator ++ rest)) value
      (escaped.length + terminator.length) := by
  induction h with
  | nil =>
      have hne : terminator ++ rest ≠ [] := by
        intro hnil
        have hterm := (List.append_eq_nil_iff.mp hnil).1
        have hlead := scheme.terminator_lead
        rw [hterm, List.prefix_nil] at hlead
        exact scheme.mark_ne_nil (List.append_eq_nil_iff.mp hlead).2
      simpa using Field.terminator hne hrest (List.prefix_append _ _)
  | @mark value escaped _ ih =>
      rw [List.length_append, Nat.add_assoc, List.append_assoc]
      exact .sequence ih
  | @element a value escaped hmark hrep ih =>
      obtain ⟨before, after, hstarts, hfree, heq⟩ :=
        scheme.next_lead hrep rest
      have hfree' : ¬ mark <:+: a :: before := by
        rw [List.infix_cons_iff]
        rintro (hat | hin)
        · exact hmark (hat.trans ((List.prefix_cons_inj a).mpr hstarts))
        · exact hfree hin
      have hlead : ¬ lead ++ mark <+:
          a :: (escaped ++ (terminator ++ rest)) := by
        rintro ⟨tail, htail⟩
        apply scheme.mark_at hfree' (j := lead.length)
          (by simp only [List.length_cons]; omega)
        rw [List.cons_append, ← heq, ← htail, List.append_assoc,
          List.drop_left]
        exact List.prefix_append _ _
      have hsize : (a :: escaped).length + terminator.length =
          escaped.length + terminator.length + 1 := by
        simp only [List.length_cons]
        omega
      rw [hsize]
      exact .element (fun hat => hlead (scheme.sequence_lead.trans hat))
        (fun hat => hlead (scheme.terminator_lead.trans hat)) ih

end Scheme

end Escape
