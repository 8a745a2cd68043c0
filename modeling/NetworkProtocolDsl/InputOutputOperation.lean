/-
Operations that read the input or write the output.

Each has an evaluation (`apply`), a handler that is offered the input and
answers how many bytes it consumed (`handleRead`), and the other members of
the input/output concept.  `errno` belongs to the thread and is threaded
through the evaluation.
-/
import NetworkProtocolDsl.InterpretedOperation
import NetworkProtocolDsl.Library.Occurrence

namespace NetworkProtocolDsl

/-- `it` is the position of the next byte to write. -/
structure InputOutputOperationContext where
  buffer : Octets := []
  it : Nat := 0
  ready : Bool := false
  eof : Bool := false
deriving DecidableEq, Repr

/-- The thread's `errno`. -/
abbrev Errno := Nat

def ERANGE : Errno := 34
def LONG_MAX : Int := 9223372036854775807
def LONG_MIN : Int := -9223372036854775808
def INT_MAX : Int := 2147483647
def INT_MIN : Int := -2147483648

def isDigit (b : UInt8) : Bool := 48 ≤ b && b ≤ 57

/-- The number a run of digits spells. -/
def digitsValue (s : Octets) : Nat :=
  s.foldl (fun acc b => 10 * acc + (b.toNat - 48)) 0

/-- What base-10 text stands for: blanks, one sign, digits. -/
def strtolValue (s : Octets) : Int :=
  let s := s.dropWhile fun b => b = 32 ∨ (9 ≤ b ∧ b ≤ 13)
  let (negative, s) :=
    match s with
    | 43 :: rest => (false, rest)
    | 45 :: rest => (true, rest)
    | _ => (false, s)
  let magnitude : Int := digitsValue (s.takeWhile isDigit)
  if negative then -magnitude else magnitude

/-- `strtol` in base 10 with 64-bit `long`: an out-of-range value is clamped
and reported in `errno`, which is otherwise left as it was. -/
def strtol (s : Octets) (errno : Errno) : Int × Errno :=
  let v := strtolValue s
  if LONG_MAX < v then (LONG_MAX, ERANGE)
  else if v < LONG_MIN then (LONG_MIN, ERANGE)
  else (v, errno)

/-- What an evaluation leaves: its result, the context and `errno`. -/
structure Evaluation where
  result : OperationResult
  ctx : InputOutputOperationContext
  errno : Errno

namespace ReadOctetsUntilTerminator

def apply (ctx : InputOutputOperationContext) : OperationResult :=
  if ctx.ready then .value (.octets ctx.buffer)
  else if ctx.eof then .value (.runtimeError .protocolMismatchError)
  else .blocked .waitingForRead

/-- The scanning loop with an escape option.  `rest` is the input from `pos`
on; an escape sequence that starts no later than the terminator is preferred.
-/
def scan (terminator : Octets) (escape : EscapeInfo) :
    Nat → Octets → Nat → InputOutputOperationContext →
      Except Fault (Nat × InputOutputOperationContext)
  | 0, _, _, _ => .error .nonTermination
  | fuel + 1, rest, pos, ctx =>
      if rest = [] then .ok (0, ctx)
      else
        match Occurrence.first terminator rest,
            Occurrence.first escape.sequence rest with
        | none, none => .ok (0, ctx)
        | some term, none =>
            .ok (pos + term + terminator.length,
              { ctx with buffer := ctx.buffer ++ rest.take term,
                         ready := true })
        | none, some esc =>
            scan terminator escape fuel
              (rest.drop (esc + escape.sequence.length))
              (pos + esc + escape.sequence.length)
              { ctx with
                buffer := ctx.buffer ++ rest.take esc ++ escape.character }
        | some term, some esc =>
            if esc ≤ term then
              scan terminator escape fuel
                (rest.drop (esc + escape.sequence.length))
                (pos + esc + escape.sequence.length)
                { ctx with
                  buffer := ctx.buffer ++ rest.take esc ++ escape.character }
            else
              .ok (pos + term + terminator.length,
                { ctx with buffer := ctx.buffer ++ rest.take term,
                           ready := true })

/-- Every turn of the loop that advances consumes a byte, so the loop ends
within `input.length + 1` turns or never does. -/
def handleRead (terminator : Octets) (escape : Option EscapeInfo)
    (ctx : InputOutputOperationContext) (input : Octets) :
    Except Fault (Nat × InputOutputOperationContext) :=
  match escape with
  | some escape => scan terminator escape (input.length + 1) input 0 ctx
  | none =>
      match Occurrence.first terminator input with
      | none => .ok (0, ctx)
      | some pos =>
          .ok (pos + terminator.length,
            { ctx with buffer := input.take pos, ready := true })

def readyToEvaluate (ctx : InputOutputOperationContext) : Bool :=
  ctx.ready || ctx.eof

end ReadOctetsUntilTerminator

/-- `strncmp` over `n` bytes: the comparison stops at a common NUL. -/
def strncmpEqual : Nat → Octets → Octets → Bool
  | 0, _, _ => true
  | _ + 1, [], [] => true
  | _ + 1, [], b :: _ => b == 0
  | _ + 1, a :: _, [] => a == 0
  | n + 1, a :: s, b :: t =>
      if a = b then a == 0 || strncmpEqual n s t else false

namespace ReadStaticOctets

def apply (contents : Octets) (ctx : InputOutputOperationContext) :
    OperationResult :=
  if ctx.buffer.length < contents.length then
    if ctx.eof then .value (.runtimeError .protocolMismatchError)
    else .blocked .waitingForRead
  else if strncmpEqual contents.length ctx.buffer contents then
    .value (.bool true)
  else .value (.runtimeError .protocolMismatchError)

def handleRead (contents : Octets) (ctx : InputOutputOperationContext)
    (input : Octets) : Nat × InputOutputOperationContext :=
  if input.length < contents.length then (0, ctx)
  else (contents.length, { ctx with buffer := input.take contents.length })

def readyToEvaluate (contents : Octets) (ctx : InputOutputOperationContext) :
    Bool :=
  contents.length ≤ ctx.buffer.length || ctx.eof

end ReadStaticOctets

/-- The four bytes of an `int32_t` in memory, least significant first. -/
def int32Bytes (v : Int32) : Octets :=
  let n := v.toUInt32.toNat
  [UInt8.ofNat n, UInt8.ofNat (n / 256), UInt8.ofNat (n / 65536),
    UInt8.ofNat (n / 16777216)]

def int32OfBytes (bytes : Octets) : Int32 :=
  Int32.ofNat (bytes.foldr (fun b n => b.toNat + 256 * n) 0)

namespace ReadInt32Native

def apply (ctx : InputOutputOperationContext) : OperationResult :=
  if ctx.buffer.length < 4 then
    if ctx.eof then .value (.runtimeError .protocolMismatchError)
    else .blocked .waitingForRead
  else .value (.int32 (int32OfBytes (ctx.buffer.take 4)))

def handleRead (ctx : InputOutputOperationContext) (input : Octets) :
    Nat × InputOutputOperationContext :=
  let expecting := 4 - ctx.buffer.length
  if 0 < expecting then
    if expecting < input.length then
      (expecting, { ctx with buffer := ctx.buffer ++ input.take expecting })
    else (input.length, { ctx with buffer := ctx.buffer ++ input })
  else (0, ctx)

def readyToEvaluate (ctx : InputOutputOperationContext) : Bool :=
  4 ≤ ctx.buffer.length || ctx.eof

end ReadInt32Native

namespace ReadIntFromAscii

def apply (ctx : InputOutputOperationContext) (errno : Errno) :
    OperationResult × Errno :=
  if ctx.ready then
    if ctx.buffer = [48] then (.value (.int32 0), errno)
    else
      let (converted, errno) := strtol ctx.buffer errno
      if converted = 0 then
        (.value (.runtimeError .protocolMismatchError), errno)
      else if errno = ERANGE ∨ INT_MAX < converted ∨ converted < INT_MIN then
        (.value (.runtimeError .protocolMismatchError), errno)
      else (.value (.int32 (Int32.ofInt converted)), errno)
  else if ctx.eof then
    (.value (.runtimeError .protocolMismatchError), errno)
  else (.blocked .waitingForRead, errno)

/-- The test of the scanning loop: `*it >= '0' && *it < '9'`. -/
def scans (b : UInt8) : Bool := 48 ≤ b && b < 57

def handleRead (ctx : InputOutputOperationContext) (input : Octets) :
    Nat × InputOutputOperationContext :=
  let consumed := (input.takeWhile scans).length
  if consumed < input.length then
    (consumed, { ctx with buffer := input.take consumed, ready := true })
  else (0, ctx)

def readyToEvaluate (ctx : InputOutputOperationContext) : Bool :=
  ctx.ready || ctx.eof

end ReadIntFromAscii

namespace TerminateListIfReadAhead

def apply (terminator : Octets) (ctx : InputOutputOperationContext) :
    OperationResult :=
  if ctx.buffer.length = 0 then
    if ctx.eof then .value (.runtimeError .protocolMismatchError)
    else .blocked .waitingForRead
  else if ctx.buffer.length < terminator.length then
    if ctx.buffer = terminator.take ctx.buffer.length then
      if ctx.eof then .value (.runtimeError .protocolMismatchError)
      else .blocked .waitingForRead
    else .value (.bool false)
  else if ctx.buffer.take terminator.length = terminator then
    .value (.controlFlowInstruction .interruptGenerator)
  else .value (.bool false)

def handleRead (terminator : Octets) (ctx : InputOutputOperationContext)
    (input : Octets) : Nat × InputOutputOperationContext :=
  let ctx := { ctx with buffer := input }
  if terminator.length ≤ input.length ∧
      input.take terminator.length = terminator then
    (terminator.length, ctx)
  else (0, ctx)

def readyToEvaluate (terminator : Octets)
    (ctx : InputOutputOperationContext) : Bool :=
  if ctx.buffer.length = 0 then ctx.eof
  else if ctx.buffer.length < terminator.length then
    if ctx.buffer = terminator.take ctx.buffer.length then ctx.eof else true
  else true

end TerminateListIfReadAhead

namespace TransitionLookahead

/-- Whether the condition holds, and whether it can never hold any more. -/
def matchCondition (ctx : InputOutputOperationContext) :
    TransitionCondition → Bool × Bool
  | .eofCondition =>
      if ctx.buffer = [] then
        if ctx.eof then (true, true) else (false, false)
      else (false, true)
  | .matchUntilTerminator terminator =>
      match Occurrence.first terminator ctx.buffer with
      | some _ => (true, false)
      | none => (false, ctx.eof)
  | .static octets =>
      if ctx.buffer.length ≤ octets.length then
        if ctx.buffer ≠ octets.take ctx.buffer.length then (false, true)
        else (false, ctx.eof)
      else if ctx.buffer.take octets.length = octets then (true, false)
      else (false, true)

/-- The loop over the conditions; the flag is `all_permanently_invalid`. -/
def select (ctx : InputOutputOperationContext) :
    List (TransitionCondition × Octets) → Bool → OperationResult
  | [], allPermanentlyInvalid =>
      if allPermanentlyInvalid then
        .value (.runtimeError .protocolMismatchError)
      else .blocked .waitingForRead
  | (condition, target) :: rest, allPermanentlyInvalid =>
      let (valid, permanentlyInvalid) := matchCondition ctx condition
      if valid then .value (.octets target)
      else select ctx rest (allPermanentlyInvalid && permanentlyInvalid)

def apply (conditions : List (TransitionCondition × Octets))
    (ctx : InputOutputOperationContext) : OperationResult :=
  select ctx conditions true

def handleRead (ctx : InputOutputOperationContext) (input : Octets) :
    Nat × InputOutputOperationContext :=
  (0, { ctx with buffer := input })

def readyToEvaluate (conditions : List (TransitionCondition × Octets))
    (ctx : InputOutputOperationContext) : Bool :=
  conditions.any (fun condition => (matchCondition ctx condition.1).1) ||
    conditions.all (fun condition => (matchCondition ctx condition.1).2)

end TransitionLookahead

/-- The part the write operations share: `contents` becomes the buffer on the
first evaluation, and the operation waits until all of it was taken. -/
def writeContents (contents : Octets) (ctx : InputOutputOperationContext) :
    OperationResult × InputOutputOperationContext :=
  let ctx :=
    if ctx.buffer.length = 0 then { ctx with buffer := contents, it := 0 }
    else ctx
  if ctx.it ≠ ctx.buffer.length then
    if ctx.eof then (.value (.runtimeError .protocolMismatchError), ctx)
    else (.blocked .waitingForWrite, ctx)
  else (.value (.int32 0), ctx)

namespace WriteOctets

def apply (ctx : InputOutputOperationContext) :
    Value → OperationResult × InputOutputOperationContext
  | .octets data =>
      if data.length = 0 then (.value (.int32 0), ctx)
      else writeContents data ctx
  | .runtimeError e => (.value (.runtimeError e), ctx)
  | .controlFlowInstruction i => (.value (.controlFlowInstruction i), ctx)
  | _ => (.value (.runtimeError .typeError), ctx)

end WriteOctets

namespace WriteOctetsWithEscape

/-- The loop of `apply_escape_replacement`; `rest` is the input from `pos` on.
-/
def replaceFrom (escape : EscapeInfo) :
    Nat → Octets → Octets → Except Fault Octets
  | 0, _, _ => .error .nonTermination
  | fuel + 1, rest, result =>
      if rest = [] then .ok result
      else
        match Occurrence.first escape.character rest with
        | none => .ok (result ++ rest)
        | some esc =>
            replaceFrom escape fuel
              (rest.drop (esc + escape.character.length))
              (result ++ rest.take esc ++ escape.sequence)

def applyEscapeReplacement (input : Octets) (escape : EscapeInfo) :
    Except Fault Octets :=
  replaceFrom escape (input.length + 1) input []

def apply (escape : EscapeInfo) (ctx : InputOutputOperationContext) :
    Value → Except Fault (OperationResult × InputOutputOperationContext)
  | .octets data =>
      if data.length = 0 then .ok (.value (.int32 0), ctx)
      else if ctx.buffer.length = 0 then
        match applyEscapeReplacement data escape with
        | .ok escaped => .ok (writeContents escaped ctx)
        | .error fault => .error fault
      else .ok (writeContents ctx.buffer ctx)
  | .runtimeError e => .ok (.value (.runtimeError e), ctx)
  | .controlFlowInstruction i => .ok (.value (.controlFlowInstruction i), ctx)
  | _ => .ok (.value (.runtimeError .typeError), ctx)

end WriteOctetsWithEscape

namespace WriteInt32Native

def apply (ctx : InputOutputOperationContext) (value : Value) :
    Except Fault (OperationResult × InputOutputOperationContext) :=
  if ctx.buffer.length = 0 then
    match value with
    | .int32 v => .ok (writeContents (int32Bytes v) ctx)
    | _ => .error .badVariantAccess
  else .ok (writeContents ctx.buffer ctx)

end WriteInt32Native

namespace InputOutputOperation

def arity : InputOutputOperation → Nat
  | .writeInt32Native | .writeOctets | .writeOctetsWithEscape _ => 1
  | _ => 0

def apply (operation : InputOutputOperation)
    (ctx : InputOutputOperationContext) (args : List Value) (errno : Errno) :
    Except Fault Evaluation :=
  match operation, args with
  | .readInt32Native, _ => .ok ⟨ReadInt32Native.apply ctx, ctx, errno⟩
  | .readIntFromAscii, _ =>
      let (result, errno) := ReadIntFromAscii.apply ctx errno
      .ok ⟨result, ctx, errno⟩
  | .readOctetsUntilTerminator .., _ =>
      .ok ⟨ReadOctetsUntilTerminator.apply ctx, ctx, errno⟩
  | .readStaticOctets contents, _ =>
      .ok ⟨ReadStaticOctets.apply contents ctx, ctx, errno⟩
  | .terminateListIfReadAhead terminator, _ =>
      .ok ⟨TerminateListIfReadAhead.apply terminator ctx, ctx, errno⟩
  | .transitionLookahead conditions, _ =>
      .ok ⟨TransitionLookahead.apply conditions ctx, ctx, errno⟩
  | .writeInt32Native, value :: _ =>
      (WriteInt32Native.apply ctx value).map fun (result, ctx) =>
        ⟨result, ctx, errno⟩
  | .writeOctets, value :: _ =>
      let (result, ctx) := WriteOctets.apply ctx value
      .ok ⟨result, ctx, errno⟩
  | .writeOctetsWithEscape escape, value :: _ =>
      (WriteOctetsWithEscape.apply escape ctx value).map fun (result, ctx) =>
        ⟨result, ctx, errno⟩
  | .writeStaticOctets contents, _ =>
      let (result, ctx) := writeContents contents ctx
      .ok ⟨result, ctx, errno⟩
  | _, _ => .error .assertion

/-- The answer is the number of bytes consumed. -/
def handleRead (operation : InputOutputOperation)
    (ctx : InputOutputOperationContext) (input : Octets) :
    Except Fault (Nat × InputOutputOperationContext) :=
  match operation with
  | .readInt32Native => .ok (ReadInt32Native.handleRead ctx input)
  | .readIntFromAscii => .ok (ReadIntFromAscii.handleRead ctx input)
  | .readOctetsUntilTerminator terminator escape =>
      ReadOctetsUntilTerminator.handleRead terminator escape ctx input
  | .readStaticOctets contents =>
      .ok (ReadStaticOctets.handleRead contents ctx input)
  | .terminateListIfReadAhead terminator =>
      .ok (TerminateListIfReadAhead.handleRead terminator ctx input)
  | .transitionLookahead _ => .ok (TransitionLookahead.handleRead ctx input)
  | _ => .ok (0, ctx)

def readyToEvaluate (operation : InputOutputOperation)
    (ctx : InputOutputOperationContext) : Bool :=
  match operation with
  | .readInt32Native => ReadInt32Native.readyToEvaluate ctx
  | .readIntFromAscii => ReadIntFromAscii.readyToEvaluate ctx
  | .readOctetsUntilTerminator .. =>
      ReadOctetsUntilTerminator.readyToEvaluate ctx
  | .readStaticOctets contents => ReadStaticOctets.readyToEvaluate contents ctx
  | .terminateListIfReadAhead terminator =>
      TerminateListIfReadAhead.readyToEvaluate terminator ctx
  | .transitionLookahead conditions =>
      TransitionLookahead.readyToEvaluate conditions ctx
  | _ => true

/-- Every input/output operation records the end of the input. -/
def handleEof (_ : InputOutputOperation) (ctx : InputOutputOperationContext) :
    InputOutputOperationContext :=
  { ctx with eof := true }

/-- The reading operations show their buffer, the lookahead an empty view, the
writing ones what is left to write. -/
def getWriteBuffer (operation : InputOutputOperation)
    (ctx : InputOutputOperationContext) : Octets :=
  match operation with
  | .writeInt32Native | .writeOctets | .writeOctetsWithEscape _
  | .writeStaticOctets _ => ctx.buffer.drop ctx.it
  | .transitionLookahead _ => []
  | _ => ctx.buffer

def handleWrite (operation : InputOutputOperation)
    (ctx : InputOutputOperationContext) (s : Nat) :
    Nat × InputOutputOperationContext :=
  match operation with
  | .writeInt32Native | .writeOctets | .writeOctetsWithEscape _
  | .writeStaticOctets _ =>
      let consumed := min s (ctx.buffer.length - ctx.it)
      (consumed, { ctx with it := ctx.it + consumed })
  | _ => (0, ctx)

end InputOutputOperation

end NetworkProtocolDsl
