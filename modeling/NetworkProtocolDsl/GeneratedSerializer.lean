/-
The serializer and the send method that the code generator emits.

Every action of a write transition becomes a case of `next_chunk`, which
assigns one chunk; the send method appends chunks until the serializer is
complete or a chunk is empty, and then moves to the target state.  A loop
becomes a case with an inner switch.  The members of the data are accessed by
the name of the identifier alone, and where that is not C++ there is no code.
-/
import NetworkProtocolDsl.FieldAccess
import NetworkProtocolDsl.GeneratedParser

namespace NetworkProtocolDsl

open CppLiteral OutputContext

/-- What `type_to_cpp` makes of the type of a member. -/
inductive MemberKind where
  | number
  | string
  | vector
  | struct
deriving DecidableEq, Repr

/-- The expression an escape loop works on. -/
inductive TextSource where
  | string (name : String)
  | number (name : String)
deriving DecidableEq, Repr

/-- The code that assigns one chunk. -/
inductive ChunkStage where
  | assignLiteral (literal : Octets)
  | assignText (source : TextSource)
  | assignCharacter (name : String)
  | assignEscaped (source : TextSource) (escape : EscapeConstants)
  | noCode
deriving DecidableEq, Repr

/-- One case of `next_chunk`. -/
inductive SerializeStage where
  | chunk (stage : ChunkStage)
  | loop (collection : String) (kind : MemberKind)
      (elementStages : List ChunkStage)
deriving DecidableEq, Repr

namespace GenerateSerializer

open GenerateParser

def memberKind (type : DataType) : Option MemberKind :=
  if type.name.name = "int" then some .number
  else if type.name.name = "str" then some .string
  else if type.name.name = "array" then some .vector
  else if type.name.name = "tuple" then some .struct
  else none

/-- The kind of `data_.name`. -/
def dataMember (data : MessageData) (name : String) : Option MemberKind :=
  (data.lookup name).bind memberKind

def literalStage (octets : Octets) : Option ChunkStage :=
  (constant octets).map .assignLiteral

def textStage (source : TextSource) :
    Option EscapeInfo → Option ChunkStage
  | none => some (.assignText source)
  | some escape => (escapeConstants escape).map (.assignEscaped source)

/-- A member that is no string or number cannot be assigned to the chunk. -/
def fieldStage (data : MessageData) (name : String)
    (escape : Option EscapeInfo) : Option ChunkStage :=
  match dataMember data name with
  | some .string => textStage (.string name) escape
  | some .number => textStage (.number name) escape
  | _ => none

/-- The cases of the inner switch.  They do not convert numbers: one is
assigned as a character, and cannot be escaped. -/
def elementStage (data : MessageData) : Action → Option ChunkStage
  | .writeStaticOctets octets => literalStage octets
  | .writeFromIdentifier identifier escape =>
      match dataMember data identifier.name, escape with
      | some .string, escape => textStage (.string identifier.name) escape
      | some .number, none => some (.assignCharacter identifier.name)
      | _, _ => none
  | _ => some .noCode

/-- A loop asks its collection for its size. -/
def stage (data : MessageData) : Action → Option SerializeStage
  | .writeStaticOctets octets => (literalStage octets).map .chunk
  | .writeFromIdentifier identifier escape =>
      (fieldStage data identifier.name escape).map .chunk
  | .loop _ collection _ actions =>
      match dataMember data collection.name with
      | some .vector =>
          (actions.mapM (elementStage data)).map
            (.loop collection.name .vector)
      | some .string =>
          (actions.mapM (elementStage data)).map
            (.loop collection.name .string)
      | _ => none
  | _ => some (.chunk .noCode)

/-- The cases of the emitted `next_chunk`. -/
def messageSerializer (data : MessageData) (actions : List Action) :
    Option (List SerializeStage) :=
  actions.mapM (stage data)

end GenerateSerializer

/-- The members of the emitted data, by their kind; a member of a tuple is
named by its path, and of the lists only the sizes are read. -/
structure MessageFields where
  strings : IdentifierReference → Octets
  numbers : IdentifierReference → Int
  sizes : String → Nat

namespace MessageFields

/-- `std::to_string`. -/
def toDecimal (n : Int) : Octets :=
  if n < 0 then 45 :: decimal n.natAbs else decimal n.natAbs

def text (fields : MessageFields) : TextSource → Octets
  | .string name => fields.strings (.mk name none)
  | .number name => toDecimal (fields.numbers (.mk name none))

/-- `data_.name.size()`. -/
def size (fields : MessageFields) (name : String) : MemberKind → Nat
  | .string => (fields.strings (.mk name none)).length
  | _ => fields.sizes name

end MessageFields

/-- The members of the emitted serializer once its data is set. -/
structure MessageSerializer where
  fields : MessageFields
  complete : Bool := false
  stage : Nat := 0
  loopIndex : Nat := 0
  loopStage : Nat := 0

/-- Where a call of the send method stands: at the head of its loop, at the
start of `next_chunk`, at the head of the escape loop, with a chunk in hand, or
behind the loop. -/
inductive SendPoint where
  | head
  | nextChunk
  | escaping (escape : EscapeConstants) (temp : Octets) (pos : Nat)
      (result : Octets)
  | gotChunk (chunk : Octets)
  | returned

/-- A call of the send method of a state machine. -/
structure SendCall where
  serializer : MessageSerializer
  outputBuffer : Octets
  currentState : String
  point : SendPoint := .head

namespace SendCall

def goto (call : SendCall) (point : SendPoint) : SendCall :=
  { call with point := point }

/-- What follows the loop of the send method. -/
def finish (call : SendCall) (thenState : String) : SendCall :=
  { call with currentState := thenState, point := .returned }

/-- A character pointer is read up to the first NUL. -/
def cString (literal : Octets) : Octets :=
  literal.takeWhile (· ≠ 0)

/-- The code that runs at a case: an empty case falls through to the next. -/
def atElement : List ChunkStage → Option ChunkStage
  | [] => none
  | .noCode :: stages => atElement stages
  | stage :: _ => some stage

def atCase : List SerializeStage → Option SerializeStage
  | [] => none
  | .chunk .noCode :: stages => atCase stages
  | stage :: _ => some stage

def assign (call : SendCall) : ChunkStage → SendCall
  | .assignLiteral literal => call.goto (.gotChunk (cString literal))
  | .assignText source =>
      call.goto (.gotChunk (call.serializer.fields.text source))
  | .assignCharacter name =>
      call.goto (.gotChunk
        [UInt8.ofInt (call.serializer.fields.numbers (.mk name none))])
  | .assignEscaped source escape =>
      call.goto (.escaping escape (call.serializer.fields.text source) 0 [])
  | .noCode => call.goto (.gotChunk [])

/-- The case of a loop; at the end of the list and at the end of an element
`next_chunk` calls itself. -/
def dispatchLoop (call : SendCall) (collection : String) (kind : MemberKind)
    (elementStages : List ChunkStage) : SendCall :=
  let serializer := call.serializer
  if serializer.fields.size collection kind ≤ serializer.loopIndex then
    { call with
      serializer := { serializer with
        stage := serializer.stage + 1
        loopIndex := 0
        loopStage := 0 }
      point := .nextChunk }
  else
    match atElement (elementStages.drop serializer.loopStage) with
    | some stage => call.assign stage
    | none =>
        { call with
          serializer := { serializer with
            loopIndex := serializer.loopIndex + 1
            loopStage := 0 }
          point := .nextChunk }

/-- The switch of `next_chunk`. -/
def dispatch (stages : List SerializeStage) (call : SendCall) : SendCall :=
  if call.serializer.complete then call.goto (.gotChunk [])
  else
    match atCase (stages.drop call.serializer.stage) with
    | some (.chunk stage) => call.assign stage
    | some (.loop collection kind elementStages) =>
        call.dispatchLoop collection kind elementStages
    | none =>
        { call with
          serializer := { call.serializer with complete := true }
          point := .gotChunk [] }

/-- One turn of the escape loop. -/
def escapeTurn (call : SendCall) (escape : EscapeConstants) (temp : Octets)
    (pos : Nat) (result : Octets) : Except Fault SendCall :=
  if pos < temp.length then
    let other := call.goto
      (.escaping escape temp (pos + 1) (result ++ (temp.drop pos).take 1))
    if pos + escape.escapeCharLen ≤ temp.length then
      match memcmpEqual (temp.drop pos) escape.escapeChar
          escape.escapeCharLen with
      | .error fault => .error fault
      | .ok true =>
          if escape.escapeSeq.length < escape.escapeSeqLen then
            .error .outOfRange
          else
            .ok (call.goto (.escaping escape temp
              (pos + escape.escapeCharLen)
              (result ++ escape.escapeSeq.take escape.escapeSeqLen)))
      | .ok false => .ok other
    else .ok other
  else .ok (call.goto (.gotChunk result))

/-- `advance`, which looks at the action of the stage itself. -/
def advance (stages : List SerializeStage) (serializer : MessageSerializer) :
    MessageSerializer :=
  if serializer.complete then serializer
  else
    match stages[serializer.stage]? with
    | some (.loop _ _ elementStages) =>
        if elementStages.length ≤ serializer.loopStage + 1 then
          { serializer with
            loopIndex := serializer.loopIndex + 1
            loopStage := 0 }
        else { serializer with loopStage := serializer.loopStage + 1 }
    | _ =>
        { serializer with
          stage := serializer.stage + 1
          complete := decide (stages.length ≤ serializer.stage + 1) }

/-- One turn of the innermost loop. -/
def step (stages : List SerializeStage) (thenState : String)
    (call : SendCall) : Except Fault SendCall :=
  match call.point with
  | .head =>
      if call.serializer.complete then .ok (call.finish thenState)
      else .ok (call.goto .nextChunk)
  | .nextChunk => .ok (call.dispatch stages)
  | .escaping escape temp pos result => call.escapeTurn escape temp pos result
  | .gotChunk chunk =>
      if chunk = [] then .ok (call.finish thenState)
      else
        .ok { call with
          serializer := advance stages call.serializer
          outputBuffer := call.outputBuffer ++ chunk
          point := .head }
  | .returned => .ok call

/-- `set_data` and the start of the loop. -/
def start (fields : MessageFields) (outputBuffer : Octets)
    (currentState : String) : SendCall :=
  { serializer := { fields := fields }
    outputBuffer := outputBuffer
    currentState := currentState }

end SendCall

end NetworkProtocolDsl
