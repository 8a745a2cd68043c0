/-
The parser that is emitted for a message.

The generator prints one case for each action of a read transition; its octets
become the arrays of string literals.  The emitted `parse` is run here one turn
of its innermost loop at a time, on the members of the parser, the input that
is left and the count of what was consumed.
-/
import NetworkProtocolDsl.InputOutputOperation
import NetworkProtocolDsl.OutputContext
import NetworkProtocolDsl.PartsToActions

namespace NetworkProtocolDsl

open CppLiteral OutputContext

/-- The constants of the code for an escape option. -/
structure EscapeConstants where
  escapeSeqLen : Nat
  escapeSeq : Octets
  escapeCharLen : Nat
  escapeChar : Octets
deriving DecidableEq, Repr

/-- The code of one case; the constants are the arrays the literals initialize.
An action the generator has no code for gets an empty case. -/
inductive ParseStage where
  | matchStaticOctets (len : Nat) (expected : Octets)
  | readUntilTerminator (name : String) (termLen : Nat) (terminator : Octets)
      (escape : Option EscapeConstants)
  | parseLoop (collection : String) (termLen : Nat) (loopTerminator : Octets)
      (elementStages : List ParseStage)
  | noCode

namespace GenerateParser

/-- The array of a printed literal; there is none where the literal is not
C++. -/
def constant (s : Octets) : Option Octets :=
  charArray (escapeStringLiteral s)

def escapeConstants (escape : EscapeInfo) : Option EscapeConstants := do
  let escapeSeq ← constant escape.sequence
  let escapeChar ← constant escape.character
  return ⟨escape.sequence.length, escapeSeq, escape.character.length,
    escapeChar⟩

def readStage (name : String) (terminator : Octets)
    (escape : Option EscapeInfo) : Option ParseStage := do
  let array ← constant terminator
  match escape with
  | none => return .readUntilTerminator name terminator.length array none
  | some escape =>
      let constants ← escapeConstants escape
      return .readUntilTerminator name terminator.length array (some constants)

def staticStage (octets : Octets) : Option ParseStage := do
  let array ← constant octets
  return .matchStaticOctets octets.length array

/-- The cases of the switch inside a loop; they know no escape option and no
further loop. -/
def elementStage : Action → Option ParseStage
  | .readStaticOctets octets => staticStage octets
  | .readOctetsUntilTerminator terminator identifier _ =>
      readStage identifier.name terminator none
  | _ => some .noCode

def stage : Action → Option ParseStage
  | .readStaticOctets octets => staticStage octets
  | .readOctetsUntilTerminator terminator identifier escape =>
      readStage identifier.name terminator escape
  | .loop _ collection terminator actions => do
      let array ← constant terminator
      let elements ← actions.mapM elementStage
      return .parseLoop collection.name terminator.length array elements
  | _ => some .noCode

/-- The cases of the emitted `parse`. -/
def messageParser (actions : List Action) : Option (List ParseStage) :=
  actions.mapM stage

end GenerateParser

inductive ParseStatus where
  | needMoreData
  | complete
  | error
deriving DecidableEq, Repr

/-- What the emitted parser keeps of a loop: the elements, the case of the
inner switch and the buffers of the fields of one element. -/
structure LoopState where
  elements : List (List (String × Octets)) := []
  stage : Nat := 0
  buffers : String → Octets := fun _ => []

/-- The members of the emitted parser; a buffer or a loop belongs to the name
it is declared with. -/
structure MessageParser where
  complete : Bool := false
  stage : Nat := 0
  buffers : String → Octets := fun _ => []
  loops : String → LoopState := fun _ => {}

namespace MessageParser

/-- `reset`. -/
def reset : MessageParser := {}

def appendTo (parser : MessageParser) (name : String) (data : Octets) :
    MessageParser :=
  { parser with buffers := fun other =>
      if other = name then parser.buffers other ++ data
      else parser.buffers other }

def nextStage (parser : MessageParser) : MessageParser :=
  { parser with stage := parser.stage + 1 }

def updateLoop (parser : MessageParser) (collection : String)
    (update : LoopState → LoopState) : MessageParser :=
  { parser with loops := fun other =>
      if other = collection then update (parser.loops other)
      else parser.loops other }

end MessageParser

namespace LoopState

def appendTo (loop : LoopState) (name : String) (data : Octets) : LoopState :=
  { loop with buffers := fun other =>
      if other = name then loop.buffers other ++ data
      else loop.buffers other }

def nextStage (loop : LoopState) : LoopState :=
  { loop with stage := loop.stage + 1 }

/-- The names of the buffers of an element. -/
def fieldNames : List ParseStage → List String
  | [] => []
  | .readUntilTerminator name _ _ _ :: stages => name :: fieldNames stages
  | _ :: stages => fieldNames stages

/-- Move the buffers into a new element. -/
def pushElement (loop : LoopState) (elementStages : List ParseStage) :
    LoopState :=
  let names := fieldNames elementStages
  { elements := loop.elements ++
      [names.map fun name => (name, loop.buffers name)]
    stage := 0
    buffers := fun other =>
      if other ∈ names then [] else loop.buffers other }

end LoopState

/-- What the type of a member says of its conversion. -/
inductive CppType where
  | unsigned (bits : Nat)
  | signed (bits : Nat)
  | other
deriving DecidableEq, Repr

namespace GenerateParser

def getBoolParam (type : DataType) (name : String) : Option Bool :=
  match type.parameters.lookup name with
  | some (.boolean value) => some value
  | _ => none

def getIntParam (type : DataType) (name : String) : Option Int :=
  match type.parameters.lookup name with
  | some (.integer value) => some value
  | _ => none

def mapIntType (type : DataType) : CppType :=
  let bits := (getIntParam type "bits").getD 32
  let width :=
    if bits = 8 then 8 else if bits = 16 then 16 else if bits = 64 then 64
    else 32
  if (getBoolParam type "unsigned").getD false then .unsigned width
  else .signed width

/-- `get_field_cpp_type`: all that has no integer type is moved as it is. -/
def getFieldCppType (data : MessageData) (name : String) : CppType :=
  match data.lookup name with
  | some type => if type.name.name = "int" then mapIntType type else .other
  | none => .other

end GenerateParser

/-- The exceptions of `std::stoul` and `std::stol`. -/
inductive ConversionError where
  | invalidArgument
  | outOfRange
deriving DecidableEq, Repr

/-- Behind blanks and one sign there is a digit. -/
def startsWithNumber (s : Octets) : Bool :=
  let s := s.dropWhile fun b => b = 32 ∨ (9 ≤ b ∧ b ≤ 13)
  match s with
  | [] => false
  | b :: rest =>
      if b = 43 ∨ b = 45 then rest.head?.any isDigit else isDigit b

/-- A negative number wraps around, one that is too large is an error. -/
def stoul (s : Octets) : Except ConversionError Nat :=
  if startsWithNumber s = false then .error .invalidArgument
  else
    let v := strtolValue s
    if 2 ^ 64 ≤ v.natAbs then .error .outOfRange
    else .ok (v % 2 ^ 64).toNat

def stol (s : Octets) : Except ConversionError Int :=
  if startsWithNumber s = false then .error .invalidArgument
  else
    let v := strtolValue s
    if LONG_MAX < v ∨ v < LONG_MIN then .error .outOfRange
    else .ok v

/-- A member of the data of a message. -/
inductive FieldData where
  | string (octets : Octets)
  | number (value : Int)
  | list (elements : List (List (String × Octets)))
deriving DecidableEq, Repr

namespace MessageParser

def takeField (type : CppType) (buffer : Octets) :
    Except ConversionError FieldData :=
  match type with
  | .unsigned bits =>
      if buffer = [] then .ok (.number 0)
      else (stoul buffer).map fun v => .number (v % 2 ^ bits : Nat)
  | .signed bits =>
      if buffer = [] then .ok (.number 0)
      else (stol buffer).map fun v => .number (v.bmod (2 ^ bits))
  | .other => .ok (.string buffer)

/-- The data of the message, action by action; the parser is reset. -/
def takeData (parser : MessageParser) (data : MessageData) :
    List Action → Except ConversionError (List (String × FieldData))
  | [] => .ok []
  | .readOctetsUntilTerminator _ identifier _ :: actions =>
      match takeField (GenerateParser.getFieldCppType data identifier.name)
          (parser.buffers identifier.name) with
      | .ok field =>
          (parser.takeData data actions).map ((identifier.name, field) :: ·)
      | .error e => .error e
  | .loop _ collection _ _ :: actions =>
      (parser.takeData data actions).map
        ((collection.name, .list (parser.loops collection.name).elements) :: ·)
  | _ :: actions => parser.takeData data actions

end MessageParser

/-- Where a call of `parse` stands: at the head of its loop, at the head of a
scanning loop, or behind a `return`. -/
inductive ParsePoint where
  | dispatch
  | scanning (pos : Nat)
  | scanningElement (pos : Nat)
  | returned (status : ParseStatus)
deriving DecidableEq, Repr

/-- A call of `parse`. -/
structure ParseCall where
  parser : MessageParser
  input : Octets
  totalConsumed : Nat := 0
  point : ParsePoint := .dispatch

/-- `std::memcmp(data, array, len) == 0`; the array must have as many bytes. -/
def memcmpEqual (data array : Octets) (len : Nat) : Except Fault Bool :=
  if array.length < len then .error .outOfRange
  else .ok (data.take len == array.take len)

namespace ParseCall

def consume (call : ParseCall) (count : Nat) : ParseCall :=
  { call with input := call.input.drop count
              totalConsumed := call.totalConsumed + count }

def modify (call : ParseCall) (update : MessageParser → MessageParser) :
    ParseCall :=
  { call with parser := update call.parser }

def goto (call : ParseCall) (point : ParsePoint) : ParseCall :=
  { call with point := point }

/-- `return {status, total_consumed};` -/
def finish (call : ParseCall) (status : ParseStatus) : ParseCall :=
  call.goto (.returned status)

/-- The code for a static piece; `next` counts the stage up. -/
def matchStatic (call : ParseCall) (len : Nat) (expected : Octets)
    (next : MessageParser → MessageParser) : Except Fault ParseCall :=
  if call.input.length < len then .ok (call.finish .needMoreData)
  else
    (memcmpEqual call.input expected len).map fun equal =>
      if equal then (call.consume len).modify next
      else call.finish .error

/-- One turn of the loop that searches the terminator. -/
def scanTerminator (call : ParseCall) (pos termLen : Nat) (terminator : Octets)
    (append : Octets → MessageParser → MessageParser)
    (next : MessageParser → MessageParser) (again : Nat → ParsePoint) :
    Except Fault ParseCall :=
  if pos + termLen ≤ call.input.length then
    (memcmpEqual (call.input.drop pos) terminator termLen).map fun equal =>
      if equal then
        (((call.modify (append (call.input.take pos))).consume
          (pos + termLen)).modify next).goto .dispatch
      else call.goto (again (pos + 1))
  else
    .ok { (call.modify (append call.input)).finish .needMoreData with
      totalConsumed := call.totalConsumed + call.input.length }

/-- One turn of the loop that searches the escape sequence and the
terminator. -/
def scanEscape (call : ParseCall) (pos termLen : Nat) (terminator : Octets)
    (escape : EscapeConstants) (name : String) : Except Fault ParseCall :=
  let append := fun data parser => MessageParser.appendTo parser name data
  if pos + termLen ≤ call.input.length then
    if pos + escape.escapeSeqLen ≤ call.input.length then
      match memcmpEqual (call.input.drop pos) escape.escapeSeq
          escape.escapeSeqLen with
      | .error fault => .error fault
      | .ok true =>
          if escape.escapeChar.length < escape.escapeCharLen then
            .error .outOfRange
          else
            .ok ((((call.modify (append (call.input.take pos))).modify
              (append (escape.escapeChar.take escape.escapeCharLen))).consume
                (pos + escape.escapeSeqLen)).goto (.scanning 0))
      | .ok false =>
          call.scanTerminator pos termLen terminator append
            MessageParser.nextStage .scanning
    else
      call.scanTerminator pos termLen terminator append
        MessageParser.nextStage .scanning
  else
    call.scanTerminator pos termLen terminator append MessageParser.nextStage
      .scanning

/-- The code that runs at a case: an empty case falls through to the next. -/
def atCase : List ParseStage → Option ParseStage
  | [] => none
  | .noCode :: stages => atCase stages
  | stage :: _ => some stage

/-- The inner switch of a loop. -/
def dispatchElement (call : ParseCall) (collection : String)
    (elementStages : List ParseStage) : Except Fault ParseCall :=
  let loop := call.parser.loops collection
  let next := fun parser : MessageParser =>
    parser.updateLoop collection LoopState.nextStage
  match atCase (elementStages.drop loop.stage) with
  | some (.matchStaticOctets len expected) =>
      call.matchStatic len expected next
  | some (.readUntilTerminator ..) => .ok (call.goto (.scanningElement 0))
  | _ =>
      .ok (call.modify fun parser =>
        parser.updateLoop collection (·.pushElement elementStages))

def dispatchLoop (call : ParseCall) (collection : String) (termLen : Nat)
    (loopTerminator : Octets) (elementStages : List ParseStage) :
    Except Fault ParseCall :=
  let parseElement : Except Fault ParseCall :=
    if call.input = [] then .ok (call.finish .needMoreData)
    else call.dispatchElement collection elementStages
  if termLen ≤ call.input.length then
    match memcmpEqual call.input loopTerminator termLen with
    | .error fault => .error fault
    | .ok true => .ok ((call.consume termLen).modify MessageParser.nextStage)
    | .ok false => parseElement
  else parseElement

/-- The head of the loop and the switch over the stage. -/
def dispatch (stages : List ParseStage) (call : ParseCall) :
    Except Fault ParseCall :=
  if call.parser.complete then .ok (call.finish .complete)
  else
    match atCase (stages.drop call.parser.stage) with
    | some (.matchStaticOctets len expected) =>
        call.matchStatic len expected MessageParser.nextStage
    | some (.readUntilTerminator ..) => .ok (call.goto (.scanning 0))
    | some (.parseLoop collection termLen loopTerminator elementStages) =>
        call.dispatchLoop collection termLen loopTerminator elementStages
    | _ =>
        .ok (call.modify fun parser => { parser with complete := true })

def scan (stages : List ParseStage) (call : ParseCall) (pos : Nat) :
    Except Fault ParseCall :=
  match atCase (stages.drop call.parser.stage) with
  | some (.readUntilTerminator name termLen terminator none) =>
      call.scanTerminator pos termLen terminator
        (fun data parser => parser.appendTo name data)
        MessageParser.nextStage .scanning
  | some (.readUntilTerminator name termLen terminator (some escape)) =>
      call.scanEscape pos termLen terminator escape name
  | _ => .error .assertion

def scanElement (stages : List ParseStage) (call : ParseCall) (pos : Nat) :
    Except Fault ParseCall :=
  match atCase (stages.drop call.parser.stage) with
  | some (.parseLoop collection _ _ elementStages) =>
      match atCase (elementStages.drop
          (call.parser.loops collection).stage) with
      | some (.readUntilTerminator name termLen terminator _) =>
          call.scanTerminator pos termLen terminator
            (fun data parser => parser.updateLoop collection
              (·.appendTo name data))
            (fun parser => parser.updateLoop collection LoopState.nextStage)
            .scanningElement
      | _ => .error .assertion
  | _ => .error .assertion

/-- One turn of the innermost loop. -/
def step (stages : List ParseStage) (call : ParseCall) :
    Except Fault ParseCall :=
  match call.point with
  | .dispatch => call.dispatch stages
  | .scanning pos => call.scan stages pos
  | .scanningElement pos => call.scanElement stages pos
  | .returned _ => .ok call

/-- `parse(input)`. -/
def start (parser : MessageParser) (input : Octets) : ParseCall :=
  { parser := parser, input := input }

end ParseCall

end NetworkProtocolDsl
