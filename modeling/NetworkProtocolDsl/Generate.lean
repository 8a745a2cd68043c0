/-
The operation trees of an analyzed protocol.

Reading a field stores what was read in the pad, reading a member of a variable
replaces the variable; a loop reads a generated list and writes element by
element.  A state that reads chooses its transition by a lookahead.
-/
import NetworkProtocolDsl.Analyze

namespace NetworkProtocolDsl

/-- Why no tree is generated: the generator gives up, or a type parameter is
accessed as what it is not. -/
inductive Rejection where
  | nullopt
  | badVariantAccess
deriving DecidableEq, Repr

inductive TransitionType where
  | read
  | write
deriving DecidableEq, Repr

/-- `ExtractTypeClosure`: the type of a name, where it has one. -/
abbrev ExtractTypeClosure := String → Option DataType

/-- `GenerateOpTreeValueFromType`. -/
abbrev GenerateOpTreeValueFromType := DataType → Except Rejection OpTreeNode

namespace Generate

def orNullopt {α : Type} : Option α → Except Rejection α
  | some value => .ok value
  | none => .error .nullopt

def createGetTypeWrapper (getType : ExtractTypeClosure)
    (loopVariable collection : String) :
    Except Rejection ExtractTypeClosure := do
  let type ← orNullopt (getType collection)
  let elementType ← orNullopt (type.parameters.lookup "element_type")
  return fun name =>
    if name = loopVariable then
      match elementType with
      | .type type => some type
      | _ => none
    else getType name

def extractArgumentNames (data : MessageData) : List String :=
  data.map Prod.fst

def extractType (data : MessageData) : ExtractTypeClosure :=
  fun name => data.lookup name

/-- Follow the members of an identifier from `currentAccess` on, and at the
last one set the value to write or get the value that is there. -/
def recursiveVariableAccess (type : DataType) :
    IdentifierReference → OpTreeNode → Option GenerateOpTreeValueFromType →
      Except Rejection (OpTreeNode × DataType)
  | .mk name member, currentAccess, valueToWrite => do
      let parameter ← orNullopt (type.parameters.lookup name)
      match parameter with
      | .type memberType =>
          match member with
          | none =>
              match valueToWrite with
              | some valueToWrite => do
                  let valueAccess ← valueToWrite memberType
                  return (.mk (.interpreted (.dictionarySet name))
                    [currentAccess, valueAccess], memberType)
              | none =>
                  return (.mk (.interpreted (.dictionaryGet name))
                    [currentAccess], memberType)
          | some member =>
              if memberType.name.name = "tuple" then
                recursiveVariableAccess memberType member
                  (.mk (.interpreted (.dictionaryGet name)) [currentAccess])
                  valueToWrite
              else .error .nullopt
      | _ => .error .badVariantAccess

def writeOctetsOperation (escape : Option EscapeInfo) : Operation :=
  match escape with
  | some escape => .inputOutput (.writeOctetsWithEscape escape)
  | none => .inputOutput .writeOctets

def writeOctetsFromValue (type : DataType) (value : OpTreeNode)
    (escape : Option EscapeInfo) : Except Rejection OpTreeNode :=
  if type.name.name = "int" then
    .ok (.mk (writeOctetsOperation escape)
      [.mk (.interpreted .intToAscii) [value]])
  else if type.name.name = "str" then
    .ok (.mk (writeOctetsOperation escape) [value])
  else .error .nullopt

def readOctetsUntilTerminator (terminator : Octets)
    (escape : Option EscapeInfo) : OpTreeNode :=
  .mk (.inputOutput (.readOctetsUntilTerminator terminator escape)) []

def readValueFromOctets (type : DataType) (terminator : Octets)
    (escape : Option EscapeInfo) : Except Rejection OpTreeNode :=
  if type.name.name = "int" then
    .ok (.mk (.inputOutput .readIntFromAscii)
      [readOctetsUntilTerminator terminator escape])
  else if type.name.name = "str" then
    .ok (readOctetsUntilTerminator terminator escape)
  else .error .nullopt

def lexicalPadGet (name : String) : OpTreeNode :=
  .mk (.lexicalPad (.lexicalPadGet name)) []

def lexicalPadSet (name : String) (value : OpTreeNode) : OpTreeNode :=
  .mk (.lexicalPad (.lexicalPadSet name)) [value]

def opSequence (children : List OpTreeNode) : OpTreeNode :=
  .mk (.dynamicInput .opSequence) children

def staticCallable (optree : OpTreeNode) (argumentNames : List String) :
    OpTreeNode :=
  .mk (.interpreted (.staticCallable optree argumentNames true)) []

def visitReadOctetsUntilTerminator (getType : ExtractTypeClosure)
    (terminator : Octets) (identifier : IdentifierReference)
    (escape : Option EscapeInfo) : Except Rejection OpTreeNode := do
  let type ← orNullopt (getType identifier.name)
  match identifier.member with
  | none =>
      let value ← readValueFromOctets type terminator escape
      return lexicalPadSet identifier.name value
  | some member =>
      let (lastAccess, _) ← recursiveVariableAccess type member
        (lexicalPadGet identifier.name)
        (some fun type => readValueFromOctets type terminator escape)
      return lexicalPadSet identifier.name lastAccess

def visitWriteFromIdentifier (getType : ExtractTypeClosure)
    (identifier : IdentifierReference) (escape : Option EscapeInfo) :
    Except Rejection OpTreeNode := do
  let type ← orNullopt (getType identifier.name)
  match identifier.member with
  | none =>
      writeOctetsFromValue type (lexicalPadGet identifier.name) escape
  | some member =>
      let (lastAccess, lastType) ← recursiveVariableAccess type member
        (lexicalPadGet identifier.name) none
      writeOctetsFromValue lastType lastAccess escape

def initializeLoopVariable (getType : ExtractTypeClosure)
    (collection loopVariable : String) : Except Rejection OpTreeNode := do
  let type ← orNullopt (getType collection)
  if type.name.name = "array" then
    let elementType ← orNullopt (type.parameters.lookup "element_type")
    match elementType with
    | .type elementType =>
        if elementType.name.name = "tuple" then
          return .mk (.lexicalPad (.lexicalPadInitialize loopVariable))
            [.mk (.interpreted .dictionaryInitialize) []]
        else .error .nullopt
    | _ => .error .nullopt
  else .error .nullopt

/-- The body that writes one element, for every element, and the terminator. -/
def writeLoop (loopVariable collection : String) (terminator : Octets)
    (operations : List OpTreeNode) : OpTreeNode :=
  opSequence
    [.mk (.controlFlow (.functionCallForEach true))
      [staticCallable (opSequence operations) [loopVariable],
        lexicalPadGet collection],
      .mk (.inputOutput (.writeStaticOctets terminator)) []]

/-- The body that reads one element and then looks for the terminator. -/
def readLoopBody (loopVariable : String) (terminator : Octets)
    (initialOperation : OpTreeNode) (operations : List OpTreeNode) : OpTreeNode :=
  opSequence
    [initialOperation, opSequence operations,
      .mk (.inputOutput (.terminateListIfReadAhead terminator)) [],
      lexicalPadGet loopVariable]

def readLoop (loopVariable collection : String) (terminator : Octets)
    (initialOperation : OpTreeNode) (operations : List OpTreeNode) : OpTreeNode :=
  lexicalPadSet collection
    (.mk (.controlFlow .generateList)
      [staticCallable
        (readLoopBody loopVariable terminator initialOperation operations) []])

mutual

/-- The overloads of `visit_action`; an action of the other kind of transition
falls back to none. -/
def visitAction (transition : TransitionType) (getType : ExtractTypeClosure) :
    Action → Except Rejection OpTreeNode
  | .readOctetsUntilTerminator terminator identifier escape =>
      match transition with
      | .read =>
          visitReadOctetsUntilTerminator getType terminator identifier escape
      | .write => .error .nullopt
  | .readStaticOctets octets =>
      match transition with
      | .read => .ok (.mk (.inputOutput (.readStaticOctets octets)) [])
      | .write => .error .nullopt
  | .writeFromIdentifier identifier escape =>
      match transition with
      | .read => .error .nullopt
      | .write => visitWriteFromIdentifier getType identifier escape
  | .writeStaticOctets octets =>
      match transition with
      | .read => .error .nullopt
      | .write => .ok (.mk (.inputOutput (.writeStaticOctets octets)) [])
  | .loop loopVariable collection terminator actions => do
      let getTypeWrapper ← createGetTypeWrapper getType loopVariable.name
        collection.name
      let operations ← actionsToOptreenodes transition getTypeWrapper actions
      match transition with
      | .read =>
          let initialOperation ← initializeLoopVariable getTypeWrapper
            collection.name loopVariable.name
          return readLoop loopVariable.name collection.name terminator
            initialOperation operations
      | .write =>
          return writeLoop loopVariable.name collection.name terminator
            operations

def actionsToOptreenodes (transition : TransitionType)
    (getType : ExtractTypeClosure) :
    List Action → Except Rejection (List OpTreeNode)
  | [] => .ok []
  | action :: actions => do
      let operation ← visitAction transition getType action
      let operations ← actionsToOptreenodes transition getType actions
      return operation :: operations

end

def transitionType : Transition → TransitionType
  | .readTransition .. => .read
  | .writeTransition .. => .write

/-- The actions, and the pad they leave as the only element of a list. -/
def transitionOptree (operations : List OpTreeNode) : OpTreeNode :=
  opSequence
    [opSequence operations,
      .mk (.dynamicInput .dynamicList)
        [.mk (.lexicalPad .lexicalPadAsDict) []]]

def generateTransitionOptree (transition : Transition) :
    Except Rejection OpTreeNode := do
  let operations ← actionsToOptreenodes (transitionType transition)
    (extractType transition.data) transition.actions
  return transitionOptree operations

def generateTransitionInfo (transition : Transition) (targetState : String) :
    Except Rejection TransitionInfo := do
  let optree ← generateTransitionOptree transition
  return .mk optree (extractArgumentNames transition.data) targetState

/-- The condition under which a transition that starts with this action is
chosen. -/
def getActionCondition : Action → Option TransitionCondition
  | .readOctetsUntilTerminator terminator _ _ =>
      some (.matchUntilTerminator terminator)
  | .readStaticOctets octets => some (.static octets)
  | .loop _ _ _ (action :: _) => getActionCondition action
  | _ => none

def getTransitionCondition : Transition → Option TransitionCondition
  | .readTransition _ (action :: _) => getActionCondition action
  | _ => none

def readStateCondition (transition : Transition) (targetState : String) :
    Except Rejection TransitionCondition :=
  if targetState = "Closed" then .ok .eofCondition
  else orNullopt (getTransitionCondition transition)

def generateReadStateCallback (state : State) :
    Except Rejection OpTreeNode := do
  let conditions ← state.transitions.mapM
    fun (name, transition, targetState) => do
      let condition ← readStateCondition transition targetState
      return (condition, name)
  if conditions.isEmpty then .error .nullopt
  else
    return .mk (.dynamicInput .dynamicList)
      [.mk (.inputOutput (.transitionLookahead conditions)) [],
        lexicalPadGet "dictionary"]

/-- The state calls back with the dictionary. -/
def stateCallback (name : String) : OpTreeNode :=
  .mk (.unaryCallback name) [lexicalPadGet "dictionary"]

/-- The transitions of one state, which have to be of one type. -/
def constructTransitions :
    List (Octets × (Transition × String)) → Option TransitionType →
      Except Rejection
        (List (Octets × TransitionInfo) × Option TransitionType)
  | [], stateTransitionsType => .ok ([], stateTransitionsType)
  | (name, transition, targetState) :: rest, stateTransitionsType => do
      let info ← generateTransitionInfo transition targetState
      if stateTransitionsType.any (· ≠ transitionType transition) then
        .error .nullopt
      else
        let (transitions, stateTransitionsType) ←
          constructTransitions rest (some (transitionType transition))
        return ((name, info) :: transitions, stateTransitionsType)

def constructState (name : String) (state : State) :
    Except Rejection StateInfo := do
  let (transitions, stateTransitionsType) ←
    constructTransitions state.transitions none
  if name ≠ "Closed" then
    match stateTransitionsType.getD .read with
    | .read => do
        let optree ← generateReadStateCallback state
        return .mk optree transitions
    | .write => return .mk (stateCallback name) transitions
  else return .mk (stateCallback name) transitions

def constructStateMap (states : List (String × State)) :
    Except Rejection StateMap := do
  let stateMap ← states.mapM fun (name, state) => do
    let info ← constructState name state
    return (name, info)
  if stateMap.isEmpty then .error .nullopt
  else return stateMap

/-- Both `client` and `server`. -/
def generateAgent (agent : Agent) : Except Rejection OpTreeNode := do
  let stateMap ← constructStateMap agent.states
  return .mk (.controlFlow (.stateMachineOperation stateMap)) []

def client (protocol : Protocol) : Except Rejection OpTreeNode :=
  generateAgent protocol.client

def server (protocol : Protocol) : Except Rejection OpTreeNode :=
  generateAgent protocol.server

end Generate

end NetworkProtocolDsl
