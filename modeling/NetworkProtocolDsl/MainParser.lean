/-
The `Parser` class that is emitted over the parsers of the messages.

A call of `parse` chooses one of the parsers of the current state.  Where the
messages of a state start with different static pieces it looks at the first
bytes of the call; otherwise it tries the parsers.
-/
import NetworkProtocolDsl.GeneratedStateMachine

namespace NetworkProtocolDsl

/-- The parser of a message with its place among the read transitions. -/
abbrev IndexedReader := MessageReader × Nat

/-- A branch of the lookahead: the array its literal initializes, the number of
bytes that are compared, and the parser. -/
structure LookaheadCase where
  array : Octets
  len : Nat
  reader : IndexedReader

/-- The code for one state. -/
inductive StateParser where
  | direct (reader : IndexedReader)
  | lookahead (minLen : Nat) (cases : List LookaheadCase)
  | sequential (readers : List IndexedReader)

/-- The code of the class: a case for every state something is read in. -/
structure MainParserCode where
  readers : List MessageReader
  states : List (String × StateParser)

namespace GenerateParser

/-- `get_lookahead_prefix`. -/
def getLookaheadPrefix (info : ReadTransitionInfo) : Octets :=
  match info.actions with
  | .readStaticOctets octets :: _ => octets
  | _ => []

/-- `parsers_for_state`. -/
def parsersForState (readers : List MessageReader) (state : String) :
    List IndexedReader :=
  readers.zipIdx.filter fun reader => reader.1.info.whenState = state

/-- No piece is empty or there before. -/
def canUseLookahead : List Octets → List Octets → Bool
  | _, [] => true
  | seen, piece :: pieces =>
      if piece = [] ∨ piece ∈ seen then false
      else canUseLookahead (piece :: seen) pieces

/-- The length of the longest piece. -/
def minLen (pieces : List Octets) : Nat :=
  pieces.foldl (fun len piece => max len piece.length) 1

def lookaheadCase (reader : IndexedReader) : Option LookaheadCase := do
  let piece := getLookaheadPrefix reader.1.info
  let array ← constant piece
  return ⟨array, piece.length, reader⟩

def stateParser (readers : List IndexedReader) : Option StateParser :=
  let pieces := readers.map fun reader => getLookaheadPrefix reader.1.info
  match readers with
  | [reader] => some (.direct reader)
  | _ =>
      if canUseLookahead [] pieces then do
        let cases ← readers.mapM lookaheadCase
        return .lookahead (minLen pieces) cases
      else some (.sequential readers)

/-- `generate_parser`, as far as the class `Parser` goes. -/
def generate (info : ProtocolInfo) : Option MainParserCode := do
  let readers ← info.readTransitions.mapM GenerateStateMachine.reader
  let whenStates := (readers.map (·.info.whenState)).dedup
  let states ← whenStates.mapM fun state => do
    let parser ← stateParser (parsersForState readers state)
    return (state, parser)
  return ⟨readers, states⟩

end GenerateParser

/-- The members of the class. -/
structure MainParser where
  currentState : String
  hasMessage : Bool := false
  activeParser : Nat := 0
  parsers : Nat → MessageParser := fun _ => .reset

namespace MainParser

def setParser (main : MainParser) (index : Nat) (parser : MessageParser) :
    MainParser :=
  { main with parsers := fun other =>
      if other = index then parser else main.parsers other }

end MainParser

/-- Where a call of `parse` stands: at its head, in the call of the parser of a
message with those that are tried next, or behind a `return`. -/
inductive MainPoint where
  | head
  | parsing (reader : IndexedReader) (later : List IndexedReader)
      (parse : ParseCall)
  | returned (status : ParseStatus) (consumed : Nat)

/-- A call of `parse`. -/
structure MainCall where
  main : MainParser
  input : Octets
  point : MainPoint := .head

namespace MainCall

def goto (call : MainCall) (point : MainPoint) : MainCall :=
  { call with point := point }

def parseWith (call : MainCall) (reader : IndexedReader)
    (later : List IndexedReader) : MainCall :=
  call.goto (.parsing reader later
    (.start (call.main.parsers reader.2) call.input))

/-- The chain of comparisons with the first bytes. -/
def compare (call : MainCall) : List LookaheadCase → Except Fault MainCall
  | [] => .ok (call.goto (.returned .error 0))
  | branch :: branches =>
      match memcmpEqual call.input branch.array branch.len with
      | .error fault => .error fault
      | .ok true => .ok (call.parseWith branch.reader [])
      | .ok false => call.compare branches

/-- The switch over the current state.  The tests of a chain that tries the
parsers are all on the first result, so the third is never tried. -/
def dispatch (code : MainParserCode) (call : MainCall) :
    Except Fault MainCall :=
  match code.states.lookup call.main.currentState with
  | some (.direct reader) => .ok (call.parseWith reader [])
  | some (.lookahead minLen branches) =>
      if call.input.length < minLen then
        .ok (call.goto (.returned .needMoreData 0))
      else call.compare branches
  | some (.sequential (reader :: later)) =>
      .ok (call.parseWith reader (later.take 1))
  | _ => .ok (call.goto (.returned .error 0))

/-- What is done with the result of a message's parser. -/
def settle (call : MainCall) (reader : IndexedReader)
    (later : List IndexedReader) (parse : ParseCall) (status : ParseStatus) :
    MainCall :=
  let main := call.main.setParser reader.2 parse.parser
  let call := { call with main := main }
  match status, later with
  | .complete, _ =>
      { call with
        main := { main with hasMessage := true, activeParser := reader.2 }
        point := .returned .complete parse.totalConsumed }
  | .error, next :: later =>
      { call with main := main.setParser reader.2 .reset }.parseWith next later
  | status, _ => call.goto (.returned status parse.totalConsumed)

/-- One turn of the innermost loop. -/
def step (code : MainParserCode) (call : MainCall) : Except Fault MainCall :=
  match call.point with
  | .head => call.dispatch code
  | .parsing reader later parse =>
      match parse.point with
      | .returned status => .ok (call.settle reader later parse status)
      | _ =>
          (parse.step reader.1.stages).map fun parse =>
            call.goto (.parsing reader later parse)
  | .returned _ _ => .ok call

/-- `parse(input)`. -/
def start (main : MainParser) (input : Octets) : MainCall :=
  { main := main, input := input }

end MainCall

end NetworkProtocolDsl
