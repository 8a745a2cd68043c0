/-
Sequences of plain reads and what they read from a stream.

A tree of nested sequences over reading operations without escape options has a
meaning that does not mention chunks: from the bytes that are there it reads
values until it ends, stops early, or needs more.
-/
import NetworkProtocolDsl.Reader

namespace NetworkProtocolDsl

/-- A reading operation without escape, with something to look for. -/
inductive PlainRead where
  | octetsUntilTerminator (terminator : Octets) (nonempty : terminator ≠ [])
  | staticOctets (contents : Octets) (nonempty : contents ≠ [])
  | int32Native
  | terminateListIfReadAhead (terminator : Octets) (nonempty : terminator ≠ [])

inductive PlainReadTree where
  | read (operation : PlainRead)
  | sequence (children : List PlainReadTree)

/-- The values read, the result if there is one, and the bytes left. -/
structure ReadOutcome where
  values : List Value
  result : Option Value
  rest : Octets

namespace ReadOutcome

/-- Go on with the result, if there is one. -/
def andThen (outcome : ReadOutcome) (next : Value → Octets → ReadOutcome) :
    ReadOutcome :=
  match outcome.result with
  | none => outcome
  | some value =>
      let after := next value outcome.rest
      { after with values := outcome.values ++ after.values }

theorem andThen_assoc (outcome : ReadOutcome)
    (next next' : Value → Octets → ReadOutcome) :
    (outcome.andThen next).andThen next' =
      outcome.andThen fun value rest => (next value rest).andThen next' := by
  obtain ⟨values, result, rest⟩ := outcome
  cases result with
  | none => rfl
  | some value =>
      cases hresult : (next value rest).result <;>
        simp [andThen, hresult]

@[simp] theorem andThen_value (value : Value) (rest : Octets)
    (next : Value → Octets → ReadOutcome) :
    (ReadOutcome.mk [] (some value) rest).andThen next = next value rest := by
  simp [andThen]

end ReadOutcome

namespace PlainRead

def operation : PlainRead → InputOutputOperation
  | octetsUntilTerminator terminator _ =>
      .readOctetsUntilTerminator terminator none
  | staticOctets contents _ => .readStaticOctets contents
  | int32Native => .readInt32Native
  | terminateListIfReadAhead terminator _ =>
      .terminateListIfReadAhead terminator

def evaluate : PlainRead → InputOutputOperationContext → OperationResult
  | octetsUntilTerminator _ _, ctx => ReadOctetsUntilTerminator.apply ctx
  | staticOctets contents _, ctx => ReadStaticOctets.apply contents ctx
  | int32Native, ctx => ReadInt32Native.apply ctx
  | terminateListIfReadAhead terminator _, ctx =>
      TerminateListIfReadAhead.apply terminator ctx

def offer : PlainRead → InputOutputOperationContext → Octets →
    Nat × InputOutputOperationContext
  | octetsUntilTerminator terminator _, ctx, input =>
      match Occurrence.first terminator input with
      | none => (0, ctx)
      | some pos =>
          (pos + terminator.length,
            { ctx with buffer := input.take pos, ready := true })
  | staticOctets contents _, ctx, input =>
      ReadStaticOctets.handleRead contents ctx input
  | int32Native, ctx, input => ReadInt32Native.handleRead ctx input
  | terminateListIfReadAhead terminator _, ctx, input =>
      TerminateListIfReadAhead.handleRead terminator ctx input

theorem apply_eq (op : PlainRead) (ctx : InputOutputOperationContext)
    (args : List Value) (errno : Errno) :
    op.operation.apply ctx args errno = .ok ⟨op.evaluate ctx, ctx, errno⟩ := by
  cases op <;> rfl

theorem handleRead_eq (op : PlainRead) (ctx : InputOutputOperationContext)
    (input : Octets) :
    op.operation.handleRead ctx input = .ok (op.offer ctx input) := by
  cases op with
  | octetsUntilTerminator terminator _ =>
      simp only [operation, InputOutputOperation.handleRead,
        ReadOctetsUntilTerminator.handleRead, offer]
      cases Occurrence.first terminator input <;> rfl
  | staticOctets _ _ | int32Native | terminateListIfReadAhead _ _ => rfl

/-- The operation waits. -/
def Waits (op : PlainRead) (ctx : InputOutputOperationContext) : Prop :=
  op.operation.readyToEvaluate ctx = false

theorem evaluate_waiting_iff (op : PlainRead)
    (ctx : InputOutputOperationContext) :
    op.evaluate ctx = .blocked .waitingForRead ↔ op.Waits ctx := by
  have happly := @InputOutputOperation.apply_waitingForRead_iff op.operation
    ctx ctx [] 0 0
  rw [op.apply_eq] at happly
  simpa [Waits] using happly

theorem evaluate_cases (op : PlainRead) (ctx : InputOutputOperationContext) :
    (∃ value, op.evaluate ctx = .value value) ∨ op.Waits ctx := by
  rw [← evaluate_waiting_iff]
  cases op with
  | octetsUntilTerminator terminator _ =>
      simp only [evaluate, ReadOctetsUntilTerminator.apply]
      cases ctx.ready <;> cases ctx.eof <;> simp
  | staticOctets contents _ =>
      simp only [evaluate, ReadStaticOctets.apply]
      split
      · cases ctx.eof <;> simp
      · split <;> simp
  | int32Native =>
      simp only [evaluate, ReadInt32Native.apply]
      split
      · cases ctx.eof <;> simp
      · simp
  | terminateListIfReadAhead terminator _ =>
      simp only [evaluate, TerminateListIfReadAhead.apply]
      split
      · cases ctx.eof <;> simp
      · split
        · split
          · cases ctx.eof <;> simp
          · simp
        · split <;> simp

theorem Waits.not_value {op : PlainRead} {ctx : InputOutputOperationContext}
    (h : op.Waits ctx) (value : Value) : op.evaluate ctx ≠ .value value := by
  rw [(evaluate_waiting_iff op ctx).mpr h]
  simp

theorem Waits.eof {op : PlainRead} {ctx : InputOutputOperationContext}
    (h : op.Waits ctx) : ctx.eof = false := by
  cases op <;>
    simp only [Waits, operation, InputOutputOperation.readyToEvaluate,
      ReadOctetsUntilTerminator.readyToEvaluate,
      ReadStaticOctets.readyToEvaluate, ReadInt32Native.readyToEvaluate,
      TerminateListIfReadAhead.readyToEvaluate] at h <;>
    grind

/-- What the operation reads from the bytes that are there. -/
def read (op : PlainRead) (ctx : InputOutputOperationContext)
    (bytes : Octets) : ReadOutcome :=
  match op.evaluate ctx with
  | .value value => ⟨[value], some value, bytes⟩
  | .blocked _ =>
      let (consumed, ctx) := op.offer ctx bytes
      match op.evaluate ctx with
      | .value value => ⟨[value], some value, bytes.drop consumed⟩
      | .blocked _ => ⟨[], none, bytes.drop consumed⟩

theorem read_of_value {op : PlainRead} {ctx : InputOutputOperationContext}
    {value : Value} (h : op.evaluate ctx = .value value) (bytes : Octets) :
    op.read ctx bytes = ⟨[value], some value, bytes⟩ := by
  simp only [read, h]

theorem read_of_waits {op : PlainRead} {ctx : InputOutputOperationContext}
    (h : op.Waits ctx) (bytes : Octets) :
    op.read ctx bytes =
      match op.evaluate (op.offer ctx bytes).2 with
      | .value value =>
          ⟨[value], some value, bytes.drop (op.offer ctx bytes).1⟩
      | .blocked _ => ⟨[], none, bytes.drop (op.offer ctx bytes).1⟩ := by
  simp only [read, (evaluate_waiting_iff op ctx).mpr h]

/-- An offer of which nothing was consumed does not change what the operation
makes of the next one. -/
theorem offer_again {op : PlainRead} {ctx ctx' : InputOutputOperationContext}
    {input : Octets} (hwait : op.Waits ctx)
    (h : op.offer ctx input = (0, ctx')) (more : Octets) :
    op.offer ctx' more = op.offer ctx more := by
  cases op with
  | octetsUntilTerminator terminator hne =>
      have hpos := List.length_pos_of_ne_nil hne
      simp only [offer] at h
      split at h
      · rw [← (Prod.mk.inj h).2]
      · have := (Prod.mk.inj h).1
        omega
  | staticOctets contents hne =>
      have hpos := List.length_pos_of_ne_nil hne
      simp only [offer, ReadStaticOctets.handleRead] at h
      split at h
      · rw [← (Prod.mk.inj h).2]
      · have := (Prod.mk.inj h).1
        omega
  | int32Native =>
      have hlt : ctx.buffer.length < 4 := by
        have hready := hwait
        simp only [Waits, operation, InputOutputOperation.readyToEvaluate,
          ReadInt32Native.readyToEvaluate, Bool.or_eq_false_iff,
          decide_eq_false_iff_not] at hready
        omega
      simp only [offer, ReadInt32Native.handleRead] at h
      rw [if_pos (by omega)] at h
      split at h
      · have := (Prod.mk.inj h).1
        omega
      · obtain ⟨hzero, rfl⟩ := Prod.mk.inj h
        rw [List.eq_nil_of_length_eq_zero hzero, List.append_nil]
  | terminateListIfReadAhead terminator hne =>
      simp only [offer, TerminateListIfReadAhead.handleRead] at h ⊢
      split at h <;> obtain ⟨_, rfl⟩ := Prod.mk.inj h <;> rfl

theorem read_append_untilTerminator {terminator : Octets}
    (hne : terminator ≠ []) {ctx : InputOutputOperationContext}
    (hwait : (octetsUntilTerminator terminator hne).Waits ctx)
    (input more : Octets) :
    (octetsUntilTerminator terminator hne).read ctx (input ++ more) =
      (octetsUntilTerminator terminator hne).read
        ((octetsUntilTerminator terminator hne).offer ctx input).2
        (input.drop ((octetsUntilTerminator terminator hne).offer ctx
          input).1 ++ more) := by
  cases hfirst : Occurrence.first terminator input with
  | none => simp only [offer, hfirst, List.drop_zero]
  | some pos =>
      have hlen := Occurrence.length_le_of_first hfirst
      rw [read_of_waits hwait]
      simp only [offer, hfirst, Occurrence.first_append hfirst more]
      simp only [evaluate, ReadOctetsUntilTerminator.apply, ↓reduceIte, read]
      rw [List.take_append_of_le_length (by omega),
        List.drop_append_of_le_length hlen]

theorem read_append_static {contents : Octets} (hne : contents ≠ [])
    {ctx : InputOutputOperationContext}
    (hwait : (staticOctets contents hne).Waits ctx) (input more : Octets) :
    (staticOctets contents hne).read ctx (input ++ more) =
      (staticOctets contents hne).read
        ((staticOctets contents hne).offer ctx input).2
        (input.drop ((staticOctets contents hne).offer ctx input).1 ++
          more) := by
  by_cases hlt : input.length < contents.length
  · have hoffer : (staticOctets contents hne).offer ctx input = (0, ctx) := by
      simp only [offer, ReadStaticOctets.handleRead, hlt, ↓reduceIte]
    rw [hoffer, List.drop_zero]
  · have hoffer : ∀ tail : Octets,
        (staticOctets contents hne).offer ctx (input ++ tail) =
          (contents.length,
            { ctx with buffer := input.take contents.length }) := by
      intro tail
      have hnot : ¬ (input ++ tail).length < contents.length := by
        rw [List.length_append]
        omega
      simp only [offer, ReadStaticOctets.handleRead, hnot, ↓reduceIte]
      rw [List.take_append_of_le_length (by omega)]
    have hinput := hoffer []
    rw [List.append_nil] at hinput
    rw [read_of_waits hwait, hoffer more, hinput]
    have hdrop : (input ++ more).drop contents.length =
        input.drop contents.length ++ more :=
      List.drop_append_of_le_length (by omega)
    have hfull : ¬ (input.take contents.length).length < contents.length := by
      simp only [List.length_take]
      omega
    have hvalue : ∃ value, (staticOctets contents hne).evaluate
        { ctx with buffer := input.take contents.length } = .value value := by
      simp only [evaluate, ReadStaticOctets.apply, hfull, ↓reduceIte]
      split <;> exact ⟨_, rfl⟩
    obtain ⟨value, hvalue⟩ := hvalue
    rw [read_of_value hvalue]
    simp only [hvalue, hdrop]

theorem offer_int32 {ctx : InputOutputOperationContext}
    (hwait : int32Native.Waits ctx) (input : Octets) :
    int32Native.offer ctx input =
      (min (4 - ctx.buffer.length) input.length,
        { ctx with
          buffer := ctx.buffer ++ input.take (4 - ctx.buffer.length) }) := by
  have hlt : ctx.buffer.length < 4 := by
    simp only [Waits, operation, InputOutputOperation.readyToEvaluate,
      ReadInt32Native.readyToEvaluate, Bool.or_eq_false_iff,
      decide_eq_false_iff_not] at hwait
    omega
  simp only [offer, ReadInt32Native.handleRead]
  rw [if_pos (by omega)]
  split
  · rw [Nat.min_eq_left (by omega)]
  · rw [Nat.min_eq_right (by omega), List.take_of_length_le (by omega)]

theorem read_append_int32 {ctx : InputOutputOperationContext}
    (hwait : int32Native.Waits ctx) (input more : Octets) :
    int32Native.read ctx (input ++ more) =
      int32Native.read (int32Native.offer ctx input).2
        (input.drop (int32Native.offer ctx input).1 ++ more) := by
  have heof := hwait.eof
  have hlt : ctx.buffer.length < 4 := by
    simp only [Waits, operation, InputOutputOperation.readyToEvaluate,
      ReadInt32Native.readyToEvaluate, Bool.or_eq_false_iff,
      decide_eq_false_iff_not] at hwait
    omega
  rw [read_of_waits hwait, offer_int32 hwait, offer_int32 hwait]
  rcases Nat.lt_or_ge input.length (4 - ctx.buffer.length) with hshort | hfull
  · -- The integer takes all of the first part and waits for the rest.
    have hwait' : int32Native.Waits
        { ctx with
          buffer := ctx.buffer ++ input.take (4 - ctx.buffer.length) } := by
      rw [List.take_of_length_le (by omega)]
      simp only [Waits, operation, InputOutputOperation.readyToEvaluate,
        ReadInt32Native.readyToEvaluate, heof, Bool.or_false,
        decide_eq_false_iff_not, List.length_append]
      omega
    have hbuffer : ctx.buffer ++ input.take (4 - ctx.buffer.length) ++
        more.take (4 - (ctx.buffer ++ input.take
          (4 - ctx.buffer.length)).length) =
        ctx.buffer ++ (input ++ more).take (4 - ctx.buffer.length) := by
      rw [List.take_of_length_le (l := input) (by omega), List.append_assoc,
        List.take_append, List.take_of_length_le (l := input) (by omega),
        List.length_append, Nat.sub_add_eq]
    have hdrop : (input ++ more).drop
        (min (4 - ctx.buffer.length) (input ++ more).length) =
        more.drop (min (4 - (ctx.buffer ++ input.take
          (4 - ctx.buffer.length)).length) more.length) := by
      rw [List.drop_append, List.drop_of_length_le (by
          simp only [List.length_append]
          omega), List.nil_append]
      congr 1
      simp only [List.length_append, List.length_take]
      omega
    have hnil : input.drop (min (4 - ctx.buffer.length) input.length) = [] :=
      List.drop_of_length_le (by omega)
    rw [hnil, List.nil_append, read_of_waits hwait', offer_int32 hwait']
    simp only [hbuffer, hdrop]
  · have htake : (input ++ more).take (4 - ctx.buffer.length) =
        input.take (4 - ctx.buffer.length) :=
      List.take_append_of_le_length hfull
    have hmin : min (4 - ctx.buffer.length) (input ++ more).length =
        min (4 - ctx.buffer.length) input.length := by
      rw [List.length_append]
      omega
    have hdrop : (input ++ more).drop
        (min (4 - ctx.buffer.length) input.length) =
        input.drop (min (4 - ctx.buffer.length) input.length) ++ more :=
      List.drop_append_of_le_length (by omega)
    have hvalue : ∃ value, int32Native.evaluate
        { ctx with
          buffer := ctx.buffer ++ input.take (4 - ctx.buffer.length) } =
          .value value := by
      refine ⟨_, if_neg ?_⟩
      simp only [List.length_append, List.length_take]
      omega
    obtain ⟨value, hvalue⟩ := hvalue
    rw [read_of_value hvalue]
    simp only [htake, hmin, hvalue, hdrop]

theorem read_append_terminate {terminator : Octets} (hne : terminator ≠ [])
    {ctx : InputOutputOperationContext}
    (hwait : (terminateListIfReadAhead terminator hne).Waits ctx)
    (input more : Octets) :
    (terminateListIfReadAhead terminator hne).read ctx (input ++ more) =
      (terminateListIfReadAhead terminator hne).read
        ((terminateListIfReadAhead terminator hne).offer ctx input).2
        (input.drop ((terminateListIfReadAhead terminator hne).offer ctx
          input).1 ++ more) := by
  have hpos := List.length_pos_of_ne_nil hne
  have heof := hwait.eof
  have hoffer : ∀ bytes : Octets,
      (terminateListIfReadAhead terminator hne).offer ctx bytes =
        (if terminator <+: bytes then terminator.length else 0,
          { ctx with buffer := bytes }) := by
    intro bytes
    simp only [offer, TerminateListIfReadAhead.handleRead]
    by_cases hat : terminator <+: bytes
    · rw [if_pos hat, if_pos ⟨hat.length_le,
        (List.prefix_iff_eq_take.mp hat).symm⟩]
    · rw [if_neg hat, if_neg fun h =>
        hat (List.prefix_iff_eq_take.mpr h.2.symm)]
  have hmatch : ∀ bytes : Octets, terminator <+: bytes →
      (terminateListIfReadAhead terminator hne).evaluate
        { ctx with buffer := bytes } =
          .value (.controlFlowInstruction .interruptGenerator) := by
    intro bytes hat
    have hle := hat.length_le
    simp only [evaluate, TerminateListIfReadAhead.apply]
    rw [if_neg (by omega), if_neg (by omega),
      if_pos (List.prefix_iff_eq_take.mp hat).symm]
  have hother : ∀ bytes : Octets, ¬ terminator <+: bytes →
      ¬ bytes <+: terminator →
      (terminateListIfReadAhead terminator hne).evaluate
        { ctx with buffer := bytes } = .value (.bool false) := by
    intro bytes hnot hnot'
    have hlen : bytes.length ≠ 0 := by
      intro hzero
      rw [List.eq_nil_of_length_eq_zero hzero] at hnot'
      exact hnot' List.nil_prefix
    simp only [evaluate, TerminateListIfReadAhead.apply]
    rw [if_neg hlen]
    split
    · rw [if_neg fun h => hnot' (List.prefix_iff_eq_take.mpr h)]
    · rw [if_neg fun h => hnot (List.prefix_iff_eq_take.mpr h.symm)]
  rw [hoffer input]
  by_cases hat : terminator <+: input
  · -- The terminator is there and taken, whatever follows.
    have hat' : terminator <+: input ++ more :=
      hat.trans (List.prefix_append _ _)
    rw [read_of_value (hmatch input hat), read_of_waits hwait, hoffer]
    simp only [hmatch _ hat', if_pos hat, if_pos hat']
    rw [List.drop_append_of_le_length hat.length_le]
  · rw [if_neg hat, List.drop_zero]
    by_cases hstarts : input <+: terminator
    · -- Nothing is decided, and the next offer replaces this one.
      have hwait' : (terminateListIfReadAhead terminator hne).Waits
          { ctx with buffer := input } := by
        have hle := hstarts.length_le
        have hlt : input.length < terminator.length := by
          rcases Nat.lt_or_eq_of_le hle with hlt | heq
          · exact hlt
          · exact absurd (hstarts.eq_of_length heq ▸ List.prefix_rfl) hat
        simp only [Waits, operation, InputOutputOperation.readyToEvaluate,
          TerminateListIfReadAhead.readyToEvaluate, heof, hlt, ↓reduceIte,
          if_pos (List.prefix_iff_eq_take.mp hstarts), ite_self]
      have hagain : (terminateListIfReadAhead terminator hne).offer
          { ctx with buffer := input } (input ++ more) =
          (terminateListIfReadAhead terminator hne).offer ctx
            (input ++ more) := rfl
      rw [read_of_waits hwait, read_of_waits hwait', hagain]
    · -- Something else is there, and more of it changes nothing.
      have hnot : ¬ terminator <+: input ++ more := by
        intro h
        rcases Nat.le_total terminator.length input.length with hle | hle
        · exact hat (List.prefix_of_prefix_length_le h
            (List.prefix_append _ _) hle)
        · exact hstarts (List.prefix_of_prefix_length_le
            (List.prefix_append _ _) h hle)
      have hnot' : ¬ input ++ more <+: terminator := fun h =>
        hstarts ((List.prefix_append _ _).trans h)
      rw [read_of_value (hother input hat hstarts), read_of_waits hwait,
        hoffer]
      simp only [hother _ hnot hnot', if_neg hnot, List.drop_zero]

/-- Offering a part of the bytes first makes no difference. -/
theorem read_append {op : PlainRead} {ctx : InputOutputOperationContext}
    (hwait : op.Waits ctx) (input more : Octets) :
    op.read ctx (input ++ more) =
      op.read (op.offer ctx input).2
        (input.drop (op.offer ctx input).1 ++ more) := by
  cases op with
  | octetsUntilTerminator terminator hne =>
      exact read_append_untilTerminator hne hwait input more
  | staticOctets contents hne => exact read_append_static hne hwait input more
  | int32Native => exact read_append_int32 hwait input more
  | terminateListIfReadAhead terminator hne =>
      exact read_append_terminate hne hwait input more

theorem offer_le (op : PlainRead) (ctx : InputOutputOperationContext)
    (input : Octets) : (op.offer ctx input).1 ≤ input.length := by
  cases op with
  | octetsUntilTerminator terminator _ =>
      simp only [offer]
      split
      · exact Nat.zero_le _
      · rename_i pos hpos
        exact Occurrence.length_le_of_first hpos
  | staticOctets contents _ =>
      simp only [offer, ReadStaticOctets.handleRead]
      split
      · exact Nat.zero_le _
      · omega
  | int32Native =>
      simp only [offer, ReadInt32Native.handleRead]
      split
      · split
        · omega
        · exact Nat.le_refl _
      · exact Nat.zero_le _
  | terminateListIfReadAhead terminator _ =>
      simp only [offer, TerminateListIfReadAhead.handleRead]
      split
      · rename_i h
        exact h.1
      · exact Nat.zero_le _

/-- Without bytes the operation goes on waiting. -/
theorem offer_nil {op : PlainRead} {ctx : InputOutputOperationContext}
    (h : op.Waits ctx) :
    (op.offer ctx []).1 = 0 ∧ op.Waits (op.offer ctx []).2 := by
  cases op with
  | octetsUntilTerminator terminator hne =>
      have hfirst : Occurrence.first terminator [] = none := by
        cases hpos : Occurrence.first terminator [] with
        | none => rfl
        | some pos =>
            have hle := Occurrence.length_le_of_first hpos
            have hlt := List.length_pos_of_ne_nil hne
            rw [List.length_nil] at hle
            omega
      simp only [offer, hfirst]
      exact ⟨trivial, h⟩
  | staticOctets contents hne =>
      have hlt := List.length_pos_of_ne_nil hne
      simp only [offer, ReadStaticOctets.handleRead, List.length_nil, hlt,
        ↓reduceIte]
      exact ⟨trivial, h⟩
  | int32Native =>
      rw [offer_int32 h]
      simp only [List.length_nil, Nat.min_zero, List.take_nil,
        List.append_nil]
      exact ⟨trivial, h⟩
  | terminateListIfReadAhead terminator hne =>
      have hlt := List.length_pos_of_ne_nil hne
      have heof := h.eof
      simp only [offer, TerminateListIfReadAhead.handleRead, List.length_nil]
      rw [if_neg (by omega)]
      simp [Waits, operation, InputOutputOperation.readyToEvaluate,
        TerminateListIfReadAhead.readyToEvaluate, heof]

/-- What offering the queue does to a waiting operation. -/
theorem readQueue_spec {op : PlainRead}
    {ctx ctx' : InputOutputOperationContext} (hwait : op.Waits ctx)
    {queue queue' : List Octets} {report : HandleBlockedResult}
    (h : op.operation.readQueue ctx false queue =
      .ok (report, ctx', queue')) :
    (∀ future, op.read ctx (queue.flatten ++ future) =
      op.read ctx' (queue'.flatten ++ future)) ∧
    (report = .stillBlocked →
      op.read ctx queue.flatten = ⟨[], none, queue.flatten⟩) ∧
    (op.Waits ctx' → report ≠ .stillBlocked →
      queue'.flatten.length + queue'.length <
        queue.flatten.length + queue.length) := by
  have hstuck : ∀ {bytes : Octets} {after : InputOutputOperationContext},
      op.offer ctx bytes = (0, after) → op.Waits after →
      op.read ctx bytes = ⟨[], none, bytes⟩ := by
    intro bytes after hoffer hafter
    rw [read_of_waits hwait, hoffer]
    simp only [(evaluate_waiting_iff op after).mpr hafter, List.drop_zero]
  by_cases hempty : queue = []
  · subst hempty
    simp only [InputOutputOperation.readQueue, Bool.false_eq_true, ↓reduceIte,
      Except.ok.injEq, Prod.mk.injEq] at h
    obtain ⟨rfl, rfl, rfl⟩ := h
    obtain ⟨hzero, hafter⟩ := offer_nil hwait
    exact ⟨fun _ => rfl, fun _ => hstuck (Prod.ext hzero rfl) hafter,
      fun _ hne => absurd rfl hne⟩
  · -- The chunks offered so far were not touched.
    let invariant (before : List Octets)
        (middle : InputOutputOperationContext) : Prop :=
      before = [] ∧ middle = ctx ∨
        op.offer ctx before.flatten = (0, middle)
    have hagain : ∀ {before middle}, invariant before middle →
        ∀ bytes, op.offer middle bytes = op.offer ctx bytes := by
      rintro before middle (⟨_, rfl⟩ | hoffer) bytes
      · rfl
      · exact offer_again hwait hoffer bytes
    have hkeep : ∀ before next after middle middle',
        queue = before ++ next :: after → invariant before middle →
        op.operation.handleRead middle (before.flatten ++ next) =
          .ok (0, middle') → invariant (before ++ [next]) middle' := by
      intro before next after middle middle' _ hinv hread
      rw [handleRead_eq, hagain hinv] at hread
      right
      rw [List.flatten_append, List.flatten_singleton]
      exact Except.ok.inj hread
    rcases InputOutputOperation.readQueue_cases _ hkeep (Or.inl ⟨rfl, rfl⟩)
        hempty h with ⟨hqueue, hinv, hready, hstill⟩ |
        ⟨hreport, before, next, after, middle, consumed, hqueue, hinv, hread,
          hpos, hrest⟩
    · have hoffer : op.offer ctx queue.flatten = (0, ctx') := by
        rcases hinv with ⟨hnil, _⟩ | hoffer
        · exact absurd hnil hempty
        · exact hoffer
      subst hqueue
      refine ⟨fun future => ?_, fun hreport => ?_, fun hafter hne => ?_⟩
      · rw [read_append hwait, hoffer, List.drop_zero, List.flatten_singleton]
      · exact hstuck hoffer (hstill.mp hreport).1
      · have hlen : queue.length ≠ 1 := fun hone =>
          hne (hstill.mpr ⟨hafter, hone⟩)
        have hlen' := List.length_pos_of_ne_nil hempty
        simp only [List.flatten_singleton, List.length_singleton]
        omega
    · subst hreport
      rw [handleRead_eq, hagain hinv] at hread
      have hoffer := Except.ok.inj hread
      have hle := offer_le op ctx (before.flatten ++ next)
      rw [hoffer] at hle
      have hflatten : queue.flatten =
          (before.flatten ++ next) ++ after.flatten := by
        rw [hqueue]
        simp
      have hflatten' : queue'.flatten =
          (before.flatten ++ next).drop consumed ++ after.flatten := by
        rw [hrest, InterpreterContext.pushFrontUnconsumed]
        split
        · simp
        · rw [List.drop_of_length_le (by omega), List.nil_append]
      have hlength : queue'.length ≤ queue.length := by
        rw [hrest, hqueue, InterpreterContext.pushFrontUnconsumed]
        split
        · simp only [List.length_append, List.length_cons]
          omega
        · simp only [List.length_append, List.length_cons]
          omega
      refine ⟨fun future => ?_, fun hreport => ?_, fun _ _ => ?_⟩
      · rw [hflatten, hflatten', List.append_assoc, read_append hwait, hoffer,
          List.append_assoc]
      · contradiction
      · have hshort : queue'.flatten.length < queue.flatten.length := by
          rw [hflatten, hflatten', List.length_append, List.length_append,
            List.length_drop]
          omega
        omega

end PlainRead

end NetworkProtocolDsl
