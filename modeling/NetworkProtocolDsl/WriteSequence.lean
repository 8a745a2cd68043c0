/-
Evaluations of a write operation, and what is taken in between.

A runner that finds a write waiting hands out its buffer and reports how much
of it was taken, in any portions.  What was taken and what is left is the
encoding of the argument after every evaluation, and the operation waits until
all of it was taken.
-/
import NetworkProtocolDsl.InputOutputOperation

namespace NetworkProtocolDsl

namespace InputOutputOperation

/-- The arguments are of the operation's type, and this is what it writes for
them.  The replacement of an empty character does not end. -/
inductive Encodes :
    InputOutputOperation → List Value → Except Fault Octets → Prop where
  | writeOctets (data : Octets) : Encodes .writeOctets [.octets data] (.ok data)
  | writeOctetsWithEscape (escape : EscapeInfo) (data : Octets)
      {encoded : Except Fault Octets}
      (hencoded : WriteOctetsWithEscape.applyEscapeReplacement data escape =
        encoded) :
      Encodes (.writeOctetsWithEscape escape) [.octets data] encoded
  | writeStaticOctets (contents : Octets) :
      Encodes (.writeStaticOctets contents) [] (.ok contents)
  | writeInt32Native (v : Int32) :
      Encodes .writeInt32Native [.int32 v] (.ok (int32Bytes v))

/-- A context, the bytes taken so far and the result of the last evaluation,
after evaluations with the same arguments.  Bytes are taken only while the last
evaluation waits for it, in any number of portions of any size. -/
inductive WriteRun (operation : InputOutputOperation) (args : List Value) :
    InputOutputOperationContext → Octets → Option OperationResult → Prop where
  | start : WriteRun operation args {} [] none
  | evaluate {ctx : InputOutputOperationContext} {taken : Octets}
      {last : Option OperationResult} {errno : Errno} {evaluation : Evaluation}
      (hrun : WriteRun operation args ctx taken last)
      (happly : operation.apply ctx args errno = .ok evaluation) :
      WriteRun operation args evaluation.ctx taken (some evaluation.result)
  | handleWrite {ctx : InputOutputOperationContext} {taken : Octets} (s : Nat)
      (hrun : WriteRun operation args ctx taken
        (some (.blocked .waitingForWrite))) :
      WriteRun operation args (operation.handleWrite ctx s).2
        (taken ++ (operation.getWriteBuffer ctx).take
          (operation.handleWrite ctx s).1)
        (some (.blocked .waitingForWrite))

/-- The buffer holds the data, or nothing yet, and its first part was taken. -/
structure Holds (data : Octets) (ctx : InputOutputOperationContext)
    (taken : Octets) : Prop where
  noEof : ctx.eof = false
  inside : ctx.it ≤ ctx.buffer.length
  taken_eq : taken = ctx.buffer.take ctx.it
  buffer_eq : ctx.buffer = data ∨ ctx.buffer = []

/-- What an evaluation yields once so much of the data was taken. -/
def outcome (data taken : Octets) : OperationResult :=
  if taken = data then .value (.int32 0) else .blocked .waitingForWrite

variable {operation : InputOutputOperation} {args : List Value}
  {data taken : Octets} {ctx : InputOutputOperationContext}

namespace Holds

theorem start (data : Octets) : Holds data {} [] where
  noEof := rfl
  inside := Nat.le_refl 0
  taken_eq := rfl
  buffer_eq := Or.inr rfl

theorem it_of_empty (h : Holds data ctx taken) (hempty : ctx.buffer = []) :
    ctx.it = 0 := by
  have hinside := h.inside
  rw [hempty] at hinside
  exact Nat.le_zero.mp hinside

/-- The context with the data in its buffer. -/
theorem filled (h : Holds data ctx taken) :
    Holds data { ctx with buffer := data } taken := by
  rcases h.buffer_eq with hdata | hempty
  · have hctx : { ctx with buffer := data } = ctx := by rw [← hdata]
    rw [hctx]
    exact h
  · have hit := h.it_of_empty hempty
    have htaken := h.taken_eq
    rw [hempty, List.take_nil] at htaken
    exact ⟨h.noEof, by simp [hit], by simp [hit, htaken], Or.inl rfl⟩

/-- Everything was taken exactly if the position is at the end. -/
theorem taken_iff (h : Holds data ctx taken) (hdata : ctx.buffer = data) :
    taken = data ↔ ctx.it = data.length := by
  have hinside := h.inside
  have htaken := h.taken_eq
  rw [hdata] at hinside htaken
  constructor
  · intro hall
    have hlength := congrArg List.length htaken
    rw [hall, List.length_take] at hlength
    omega
  · intro hend
    rw [htaken, hend, List.take_length]

theorem writeContents_eq (h : Holds data ctx taken) :
    writeContents data ctx =
      (outcome data taken, { ctx with buffer := data }) := by
  have hfilled : (if ctx.buffer.length = 0 then
      { ctx with buffer := data, it := 0 } else ctx) =
        { ctx with buffer := data } := by
    rcases h.buffer_eq with hdata | hempty
    · by_cases hnil : ctx.buffer.length = 0
      · have hit := h.it_of_empty (List.length_eq_zero_iff.mp hnil)
        rw [if_pos hnil, ← hit]
      · rw [if_neg hnil, ← hdata]
    · have hit := h.it_of_empty hempty
      rw [if_pos (by simp [hempty]), ← hit]
  have hiff := h.filled.taken_iff rfl
  have heof := h.noEof
  simp only [writeContents, hfilled]
  by_cases hall : taken = data
  · have hit : ctx.it = data.length := hiff.mp hall
    simp [outcome, hall, hit]
  · have hit : ctx.it ≠ data.length := fun hit => hall (hiff.mpr hit)
    simp [outcome, hall, hit, heof]

end Holds

/-- With nothing to write the operation is done at once. -/
theorem Holds.outcome_nil (h : Holds [] ctx taken) :
    outcome [] taken = .value (.int32 0) ∧ { ctx with buffer := [] } = ctx := by
  have hbuffer : ctx.buffer = [] := by
    rcases h.buffer_eq with hbuffer | hbuffer
    · exact hbuffer
    · exact hbuffer
  have htaken := h.taken_eq
  rw [hbuffer, List.take_nil] at htaken
  exact ⟨by simp [outcome, htaken], by rw [← hbuffer]⟩

/-- A buffer that is not empty is written again. -/
theorem Holds.writeContents_buffer (h : Holds data ctx taken)
    (hne : ctx.buffer ≠ []) :
    writeContents ctx.buffer ctx =
      (outcome data taken, { ctx with buffer := data }) := by
  have hdata : ctx.buffer = data := by
    rcases h.buffer_eq with hdata | hempty
    · exact hdata
    · exact absurd hempty hne
  rw [hdata]
  exact h.writeContents_eq

/-- An evaluation hands over the data and waits until all of it was taken. -/
theorem Encodes.apply_eq (hencodes : Encodes operation args (.ok data))
    (h : Holds data ctx taken) (errno : Errno) :
    operation.apply ctx args errno =
      .ok ⟨outcome data taken, { ctx with buffer := data }, errno⟩ := by
  have hwrite := h.writeContents_eq
  cases hencodes with
  | writeOctets =>
      by_cases hempty : data = []
      · subst hempty
        obtain ⟨houtcome, hctx⟩ := h.outcome_nil
        simp [apply, WriteOctets.apply, houtcome, hctx]
      · have hlength : data.length ≠ 0 := by simpa using hempty
        simp only [apply, WriteOctets.apply, if_neg hlength, hwrite]
  | writeStaticOctets => simp only [apply, hwrite]
  | writeInt32Native v =>
      by_cases hempty : ctx.buffer = []
      · simp [apply, WriteInt32Native.apply, hempty, hwrite, Except.map]
      · have hlength : ctx.buffer.length ≠ 0 := by simpa using hempty
        simp only [apply, WriteInt32Native.apply, if_neg hlength,
          h.writeContents_buffer hempty, Except.map]
  | writeOctetsWithEscape escape value hencoded =>
      by_cases hvalue : value = []
      · subst hvalue
        obtain rfl : [] = data := Except.ok.inj hencoded
        obtain ⟨houtcome, hctx⟩ := h.outcome_nil
        simp [apply, WriteOctetsWithEscape.apply, houtcome, hctx, Except.map]
      · have hlength : value.length ≠ 0 := by simpa using hvalue
        by_cases hempty : ctx.buffer = []
        · simp [apply, WriteOctetsWithEscape.apply, hvalue, hempty, hencoded,
            hwrite, Except.map]
        · have hbuffer : ctx.buffer.length ≠ 0 := by simpa using hempty
          simp only [apply, WriteOctetsWithEscape.apply, if_neg hlength,
            if_neg hbuffer, h.writeContents_buffer hempty, Except.map]

/-- An encoding that does not end keeps the first evaluation from returning. -/
theorem Encodes.apply_error {fault : Fault}
    (hencodes : Encodes operation args (.error fault)) (errno : Errno) :
    operation.apply {} args errno = .error fault := by
  cases hencodes with
  | writeOctetsWithEscape escape value hencoded =>
      have hvalue : value ≠ [] := by
        intro hnil
        rw [hnil] at hencoded
        have hdone : WriteOctetsWithEscape.applyEscapeReplacement [] escape =
            .ok [] := rfl
        rw [hdone] at hencoded
        cases hencoded
      simp [apply, WriteOctetsWithEscape.apply, hvalue, hencoded, Except.map]

/-- The write operations show what is left of their buffer. -/
theorem Encodes.getWriteBuffer_eq {encoded : Except Fault Octets}
    (hencodes : Encodes operation args encoded)
    (ctx : InputOutputOperationContext) :
    operation.getWriteBuffer ctx = ctx.buffer.drop ctx.it := by
  cases hencodes <;> rfl

/-- No more is taken than there is left. -/
theorem Encodes.handleWrite_eq {encoded : Except Fault Octets}
    (hencodes : Encodes operation args encoded)
    (ctx : InputOutputOperationContext) (s : Nat) :
    operation.handleWrite ctx s =
      (min s (ctx.buffer.length - ctx.it),
        { ctx with it := ctx.it + min s (ctx.buffer.length - ctx.it) }) := by
  cases hencodes <;> rfl

theorem Holds.handleWrite {encoded : Except Fault Octets}
    (hencodes : Encodes operation args encoded) (h : Holds data ctx taken)
    (s : Nat) :
    Holds data (operation.handleWrite ctx s).2
      (taken ++ (operation.getWriteBuffer ctx).take
        (operation.handleWrite ctx s).1) := by
  rw [hencodes.getWriteBuffer_eq, hencodes.handleWrite_eq]
  have hinside := h.inside
  refine ⟨h.noEof, ?_, ?_, h.buffer_eq⟩
  · show ctx.it + min s (ctx.buffer.length - ctx.it) ≤ ctx.buffer.length
    omega
  · rw [h.taken_eq]
    exact (List.take_add).symm

/-- What was taken and what is left make up the data. -/
theorem Holds.taken_append {encoded : Except Fault Octets}
    (hencodes : Encodes operation args encoded) (h : Holds data ctx taken)
    (hdata : ctx.buffer = data) :
    taken ++ operation.getWriteBuffer ctx = data := by
  rw [hencodes.getWriteBuffer_eq, h.taken_eq, List.take_append_drop, hdata]

/-- Every context of such a run holds the data, all of it from the first
evaluation on. -/
theorem WriteRun.holds {last : Option OperationResult}
    (hencodes : Encodes operation args (.ok data))
    (hrun : WriteRun operation args ctx taken last) :
    Holds data ctx taken ∧ (last ≠ none → ctx.buffer = data) := by
  induction hrun with
  | start => exact ⟨.start data, fun h => absurd rfl h⟩
  | @evaluate ctx taken last errno evaluation hrun happly ih =>
      rw [hencodes.apply_eq ih.1 errno] at happly
      have hevaluation := Except.ok.inj happly
      rw [← hevaluation]
      exact ⟨ih.1.filled, fun _ => rfl⟩
  | @handleWrite ctx taken s hrun ih =>
      have hdata := ih.2 (Option.some_ne_none _)
      refine ⟨ih.1.handleWrite hencodes s, fun _ => ?_⟩
      rw [hencodes.handleWrite_eq]
      exact hdata

/-- Without an encoding no evaluation ever returns. -/
theorem WriteRun.start_of_error {fault : Fault} {last : Option OperationResult}
    (hencodes : Encodes operation args (.error fault))
    (hrun : WriteRun operation args ctx taken last) :
    ctx = {} ∧ last = none := by
  induction hrun with
  | start => exact ⟨rfl, rfl⟩
  | evaluate hrun happly ih =>
      rw [ih.1, hencodes.apply_error] at happly
      contradiction
  | handleWrite s hrun ih => exact absurd ih.2 (Option.some_ne_none _)

/-- Write operations emit their data exactly once.  From the first evaluation
on, what was taken and what is left make up the encoding of the argument; the
next evaluation leaves that so, and yields a value exactly if everything was
taken, else it waits to write.  Only where the encoding itself does not end, no
evaluation returns. -/
theorem WriteRun.emits_once {encoded : Except Fault Octets}
    {last : Option OperationResult}
    (hencodes : Encodes operation args encoded)
    (hrun : WriteRun operation args ctx taken last) :
    (last ≠ none → encoded = .ok (taken ++ operation.getWriteBuffer ctx)) ∧
    (∀ data, encoded = .ok data → ∀ errno, ∃ result ctx',
      operation.apply ctx args errno = .ok ⟨result, ctx', errno⟩ ∧
      taken ++ operation.getWriteBuffer ctx' = data ∧
      (taken = data → result = .value (.int32 0)) ∧
      (taken ≠ data → result = .blocked .waitingForWrite)) ∧
    (∀ fault, encoded = .error fault → ∀ errno,
      operation.apply ctx args errno = .error fault) := by
  cases encoded with
  | ok data =>
      obtain ⟨hholds, hbuffer⟩ := WriteRun.holds hencodes hrun
      refine ⟨fun hlast => ?_, fun data' hdata errno => ?_, ?_⟩
      · rw [hholds.taken_append hencodes (hbuffer hlast)]
      · obtain rfl : data = data' := Except.ok.inj hdata
        refine ⟨outcome data taken, { ctx with buffer := data },
          hencodes.apply_eq hholds errno,
          hholds.filled.taken_append hencodes rfl, fun hall => ?_,
          fun hleft => ?_⟩
        · exact if_pos hall
        · exact if_neg hleft
      · intro fault hfault
        cases hfault
  | error fault =>
      obtain ⟨hctx, hlast⟩ := WriteRun.start_of_error hencodes hrun
      refine ⟨fun h => absurd hlast h, ?_, ?_⟩
      · intro data hdata
        cases hdata
      · intro fault' hfault errno
        rw [hctx, ← Except.error.inj hfault]
        exact hencodes.apply_error errno

theorem WriteRun.emits_once_static :
    ∃ result ctx', (writeStaticOctets [104, 105]).apply
        { buffer := [104, 105], it := 2 } [] 0 = .ok ⟨result, ctx', 0⟩ ∧
      result = .value (.int32 0) := by
  have happly : (writeStaticOctets [104, 105]).apply {} [] 0 =
      .ok ⟨.blocked .waitingForWrite, { buffer := [104, 105] }, 0⟩ := rfl
  have hwaits : WriteRun (writeStaticOctets [104, 105]) []
      { buffer := [104, 105] } [] (some (.blocked .waitingForWrite)) :=
    .evaluate .start happly
  have htaken : WriteRun (writeStaticOctets [104, 105]) []
      { buffer := [104, 105], it := 2 } [104, 105]
      (some (.blocked .waitingForWrite)) := .handleWrite 5 hwaits
  obtain ⟨result, ctx', happly, _, hvalue, _⟩ :=
    (WriteRun.emits_once (.writeStaticOctets [104, 105]) htaken).2.1 _ rfl 0
  exact ⟨result, ctx', happly, hvalue rfl⟩

end InputOutputOperation

end NetworkProtocolDsl
