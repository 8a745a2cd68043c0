/-
The trees the generator makes are well scoped.

A tree stands in a scope, the names that are bound when it runs; a child that
initialises a name puts it into the scope of the children after it, and the
body of a callable has its argument names besides.
-/
import NetworkProtocolDsl.FieldAccess
import NetworkProtocolDsl.TransitionChoice

namespace NetworkProtocolDsl

open Generate TransitionChoice

/-- What a tree of a program is there for. -/
inductive Place where
  | machine
  | stateCallback
  | lookahead
  | action
deriving DecidableEq, Repr

namespace Operation

/-- The name the operation expects to be bound. -/
def accesses : Operation → List String
  | .lexicalPad (.lexicalPadGet name) => [name]
  | .lexicalPad (.lexicalPadSet name) => [name]
  | _ => []

/-- The name that is bound after the operation. -/
def initializes : Operation → List String
  | .lexicalPad (.lexicalPadInitialize name) => [name]
  | _ => []

/-- The operations an action consists of that invoke nothing. -/
def Plain : Operation → Prop
  | .interpreted (.staticCallable ..) => False
  | .inputOutput (.transitionLookahead _) => False
  | .controlFlow _ => False
  | .unaryCallback _ => False
  | _ => True

end Operation

/-- The scope of the child at position `k`. -/
def scopeAt (scope : List String) (children : List OpTreeNode) (k : Nat) :
    List String :=
  (children.take k).flatMap (fun child => child.operation.initializes) ++ scope

theorem mem_scopeAt {scope : List String} {name : String}
    (h : name ∈ scope) (children : List OpTreeNode) (k : Nat) :
    name ∈ scopeAt scope children k :=
  List.mem_append_right _ h

/-- A name of the next scope is initialised by the child or was there. -/
theorem mem_scopeAt_succ {scope : List String} {children : List OpTreeNode}
    {k : Nat} {child : OpTreeNode} (hchild : children[k]? = some child)
    {name : String} (h : name ∈ scopeAt scope children (k + 1)) :
    name ∈ child.operation.initializes ∨ name ∈ scopeAt scope children k := by
  rw [scopeAt, List.take_add_one, hchild, Option.toList_some,
    List.flatMap_append, List.append_assoc, List.mem_append] at h
  rcases h with hbefore | h
  · exact Or.inr (List.mem_append_left _ hbefore)
  · rcases List.mem_append.mp h with hnew | hscope
    · exact Or.inl (by simpa using hnew)
    · exact Or.inr (List.mem_append_right _ hscope)

/-- Every name an operation accesses is in scope and every node has the
children its operation takes. -/
inductive WellScoped : Place → List String → OpTreeNode → Prop where
  | machine {scope : List String} {states : StateMap}
      (hcallback : ∀ state ∈ states,
        WellScoped .stateCallback ["dictionary"] state.2.callbackOptree)
      (htransition : ∀ state ∈ states, ∀ transition ∈ state.2.transitions,
        WellScoped .action transition.2.argumentNames
          transition.2.callbackOptree) :
      WellScoped .machine scope
        (.mk (.controlFlow (.stateMachineOperation states)) [])
  | lookahead {scope : List String}
      (conditions : List (TransitionCondition × Octets)) :
      WellScoped .lookahead scope
        (.mk (.inputOutput (.transitionLookahead conditions)) [])
  | readState {scope : List String}
      (conditions : List (TransitionCondition × Octets))
      (hdictionary : "dictionary" ∈ scope) :
      WellScoped .stateCallback scope (lookaheadCallback conditions)
  | writeState {scope : List String} (name : String)
      (hdictionary : "dictionary" ∈ scope) :
      WellScoped .stateCallback scope (stateCallback name)
  | plain {scope : List String} {operation : Operation}
      {children : List OpTreeNode} (hplain : operation.Plain)
      (harity : ∀ n, operation.arity = some n → n ≤ children.length)
      (haccesses : ∀ name ∈ operation.accesses, name ∈ scope)
      (hchildren : ∀ k child, children[k]? = some child →
        WellScoped .action (scopeAt scope children k) child) :
      WellScoped .action scope (.mk operation children)
  | callable {scope : List String} {names : List String} {tree : OpTreeNode}
      (htree : WellScoped .action (names ++ scope) tree) :
      WellScoped .action scope (staticCallable tree names)
  | forEach {scope : List String} {name : String}
      {tree collection : OpTreeNode}
      (htree : WellScoped .action (name :: scope) tree)
      (hcollection : WellScoped .action scope collection) :
      WellScoped .action scope
        (.mk (.controlFlow (.functionCallForEach true))
          [staticCallable tree [name], collection])
  | generateList {scope : List String} {tree : OpTreeNode}
      (htree : WellScoped .action scope tree) :
      WellScoped .action scope
        (.mk (.controlFlow .generateList) [staticCallable tree []])

namespace WellScoped

variable {place : Place} {scope : List String} {node tree : OpTreeNode}
  {operation : Operation}

/-- A leaf of an action. -/
theorem leaf (hplain : operation.Plain)
    (harity : ∀ n, operation.arity = some n → n = 0)
    (haccesses : ∀ name ∈ operation.accesses, name ∈ scope) :
    WellScoped .action scope (.mk operation []) :=
  .plain hplain (fun n h => (harity n h).le) haccesses fun k child h => by
    simp at h

/-- An operation of an action on the value of one tree. -/
theorem unary (hplain : operation.Plain)
    (harity : ∀ n, operation.arity = some n → n ≤ 1)
    (haccesses : ∀ name ∈ operation.accesses, name ∈ scope)
    (htree : WellScoped .action scope tree) :
    WellScoped .action scope (.mk operation [tree]) := by
  refine .plain hplain harity haccesses fun k child hchild => ?_
  cases k with
  | zero =>
      obtain rfl := Option.some.inj hchild
      exact htree
  | succ k => simp at hchild

theorem get {name : String} (h : name ∈ scope) :
    WellScoped .action scope (lexicalPadGet name) :=
  .leaf trivial (fun _ h => (Option.some.inj h).symm) fun other hother => by
    obtain rfl := List.mem_singleton.mp hother
    exact h

theorem set {name : String} (h : name ∈ scope)
    (htree : WellScoped .action scope tree) :
    WellScoped .action scope (lexicalPadSet name tree) :=
  .unary trivial (fun _ h => (Option.some.inj h).ge) (fun other hother => by
    obtain rfl := List.mem_singleton.mp hother
    exact h) htree

theorem opSequence {children : List OpTreeNode}
    (h : ∀ k child, children[k]? = some child →
      WellScoped .action (scopeAt scope children k) child) :
    WellScoped .action scope (opSequence children) :=
  .plain trivial (fun _ h => by cases h) (fun _ h => by cases h) h

theorem arity_le (h : WellScoped place scope node) {n : Nat}
    (hn : node.operation.arity = some n) : n ≤ node.children.length := by
  cases h with
  | machine _ _ =>
      obtain rfl := Option.some.inj hn
      exact Nat.zero_le _
  | lookahead conditions =>
      obtain rfl := Option.some.inj hn
      exact Nat.zero_le _
  | readState conditions _ => contradiction
  | writeState name _ =>
      obtain rfl := Option.some.inj hn
      exact Nat.le_refl 1
  | plain _ harity _ _ => exact harity n hn
  | callable _ =>
      obtain rfl := Option.some.inj hn
      exact Nat.zero_le _
  | forEach _ _ =>
      obtain rfl := Option.some.inj hn
      exact Nat.le_refl 2
  | generateList _ =>
      obtain rfl := Option.some.inj hn
      exact Nat.le_refl 1

theorem accesses_mem (h : WellScoped place scope node) {name : String}
    (hname : name ∈ node.operation.accesses) : name ∈ scope := by
  cases h with
  | plain _ _ haccesses _ => exact haccesses name hname
  | machine _ _ | lookahead _ | readState _ _ | writeState _ _ | callable _
  | forEach _ _ | generateList _ => cases hname

/-- Every child is well scoped in the scope of its position: it is part of an
action, or the lookahead of a state that reads. -/
theorem child (h : WellScoped place scope node) {k : Nat}
    {child : OpTreeNode} (hchild : node.children[k]? = some child) :
    WellScoped .action (scopeAt scope node.children k) child ∨
      ∃ conditions, node = lookaheadCallback conditions ∧ k = 0 ∧
        child = .mk (.inputOutput (.transitionLookahead conditions)) [] := by
  cases h with
  | machine _ _ => simp [OpTreeNode.children] at hchild
  | lookahead conditions => simp [OpTreeNode.children] at hchild
  | readState conditions hdictionary =>
      rcases k with _ | _ | k
      · obtain rfl := Option.some.inj hchild
        exact Or.inr ⟨conditions, rfl, rfl, rfl⟩
      · obtain rfl := Option.some.inj hchild
        exact Or.inl (.get (mem_scopeAt hdictionary _ _))
      · simp [lookaheadCallback, OpTreeNode.children] at hchild
  | writeState name hdictionary =>
      rcases k with _ | k
      · obtain rfl := Option.some.inj hchild
        exact Or.inl (.get (mem_scopeAt hdictionary _ _))
      · simp [stateCallback, OpTreeNode.children] at hchild
  | plain _ _ _ hchildren => exact Or.inl (hchildren k child hchild)
  | callable _ => simp [staticCallable, OpTreeNode.children] at hchild
  | forEach htree hcollection =>
      rcases k with _ | _ | k
      · obtain rfl := Option.some.inj hchild
        exact Or.inl (.callable htree)
      · obtain rfl := Option.some.inj hchild
        exact Or.inl hcollection
      · simp [OpTreeNode.children] at hchild
  | generateList htree =>
      rcases k with _ | k
      · obtain rfl := Option.some.inj hchild
        exact Or.inl (.callable htree)
      · simp [OpTreeNode.children] at hchild

theorem place_of_lookahead
    {conditions : List (TransitionCondition × Octets)}
    {children : List OpTreeNode} (h : WellScoped place scope
      (.mk (.inputOutput (.transitionLookahead conditions)) children)) :
    place = .lookahead ∧ children = [] := by
  cases h with
  | lookahead _ => exact ⟨rfl, rfl⟩
  | plain hplain _ _ _ => cases hplain

theorem place_of_machine {states : StateMap} {children : List OpTreeNode}
    (h : WellScoped place scope
      (.mk (.controlFlow (.stateMachineOperation states)) children)) :
    place = .machine ∧ children = [] := by
  cases h with
  | machine _ _ => exact ⟨rfl, rfl⟩
  | plain hplain _ _ _ => cases hplain

theorem place_of_lookaheadCallback
    {conditions : List (TransitionCondition × Octets)}
    (h : WellScoped place scope (lookaheadCallback conditions)) :
    place = .stateCallback := by
  cases h with
  | readState _ _ => rfl
  | plain _ _ _ hchildren =>
      have hplace := (hchildren 0 _ rfl).place_of_lookahead
      cases hplace.1

end WellScoped

section Generator

variable {scope : List String} {getType : ExtractTypeClosure}

/-- The generator knows the types of names that are in scope only. -/
def KnowsTypesOf (getType : ExtractTypeClosure) (scope : List String) : Prop :=
  ∀ name type, getType name = some type → name ∈ scope

theorem KnowsTypesOf.scopeAt (h : KnowsTypesOf getType scope)
    (children : List OpTreeNode) (k : Nat) :
    KnowsTypesOf getType (scopeAt scope children k) :=
  fun name type htype => mem_scopeAt (h name type htype) children k

/-- The types of the names of a loop's body. -/
theorem knowsTypesOf_wrapper {wrapper : ExtractTypeClosure}
    {loopVariable collection : String}
    (h : createGetTypeWrapper getType loopVariable collection = .ok wrapper)
    (hknows : KnowsTypesOf getType scope) :
    collection ∈ scope ∧ KnowsTypesOf wrapper (loopVariable :: scope) := by
  obtain ⟨type, htype, h⟩ := bind_eq_ok h
  obtain ⟨elementType, _, h⟩ := bind_eq_ok h
  obtain rfl := Except.ok.inj h
  refine ⟨hknows _ _ (orNullopt_eq_ok htype), fun name type' hname => ?_⟩
  by_cases hvariable : name = loopVariable
  · rw [hvariable]
    exact List.mem_cons_self
  · simp only [hvariable, ↓reduceIte] at hname
    exact List.mem_cons_of_mem _ (hknows name type' hname)

theorem wellScoped_dictionaryGet {current : OpTreeNode} (name : String)
    (h : WellScoped .action scope current) : WellScoped .action scope
      (.mk (.interpreted (.dictionaryGet name)) [current]) :=
  .unary trivial (fun _ h => (Option.some.inj h).ge) (fun _ h => by cases h) h

/-- What an access to the members of a variable needs is what the access to
the variable and the value to write need. -/
theorem wellScoped_recursiveVariableAccess
    {valueToWrite : Option GenerateOpTreeValueFromType}
    (hvalue : ∀ write, valueToWrite = some write → ∀ scope type tree,
      write type = .ok tree → WellScoped .action scope tree)
    (identifier : IdentifierReference) {type lastType : DataType}
    {current lastAccess : OpTreeNode}
    (hcurrent : WellScoped .action scope current)
    (h : recursiveVariableAccess type identifier current valueToWrite =
      .ok (lastAccess, lastType)) : WellScoped .action scope lastAccess := by
  match identifier with
  | .mk name member =>
      rw [recursiveVariableAccess.eq_def] at h
      obtain ⟨parameter, _, h⟩ := bind_eq_ok h
      cases parameter with
      | boolean _ | integer _ | string _ => contradiction
      | type memberType =>
          cases member with
          | none =>
              cases valueToWrite with
              | none =>
                  obtain ⟨rfl, _⟩ := Prod.mk.inj (Except.ok.inj h)
                  exact wellScoped_dictionaryGet name hcurrent
              | some write =>
                  obtain ⟨access, haccess, h⟩ := bind_eq_ok h
                  obtain ⟨rfl, _⟩ := Prod.mk.inj (Except.ok.inj h)
                  refine .plain trivial
                    (fun _ h => (Option.some.inj h).ge)
                    (fun _ h => by cases h) fun k child hchild => ?_
                  rcases k with _ | _ | k
                  · obtain rfl := Option.some.inj hchild
                    exact hcurrent
                  · obtain rfl := Option.some.inj hchild
                    exact hvalue write rfl _ _ _ haccess
                  · simp at hchild
          | some member =>
              simp only at h
              split at h
              · exact wellScoped_recursiveVariableAccess hvalue member
                  (wellScoped_dictionaryGet name hcurrent) h
              · contradiction

theorem wellScoped_readOctetsUntilTerminator (scope : List String)
    (terminator : Octets) (escape : Option EscapeInfo) :
    WellScoped .action scope (readOctetsUntilTerminator terminator escape) :=
  .leaf trivial (fun _ h => (Option.some.inj h).symm) fun _ h => by cases h

theorem wellScoped_readValueFromOctets {type : DataType} {terminator : Octets}
    {escape : Option EscapeInfo} {tree : OpTreeNode} (scope : List String)
    (h : readValueFromOctets type terminator escape = .ok tree) :
    WellScoped .action scope tree := by
  have hread := wellScoped_readOctetsUntilTerminator scope terminator escape
  rw [readValueFromOctets] at h
  split at h
  · obtain rfl := Except.ok.inj h
    exact .unary trivial (fun _ h => (Option.some.inj h) ▸ Nat.zero_le _)
      (fun _ h => by cases h) hread
  · split at h
    · obtain rfl := Except.ok.inj h
      exact hread
    · contradiction

theorem wellScoped_writeOctetsFromValue {type : DataType}
    {value tree : OpTreeNode} {escape : Option EscapeInfo}
    (hvalue : WellScoped .action scope value)
    (h : writeOctetsFromValue type value escape = .ok tree) :
    WellScoped .action scope tree := by
  have hwrite : ∀ value, WellScoped .action scope value →
      WellScoped .action scope (.mk (writeOctetsOperation escape) [value]) := by
    intro value hvalue
    cases escape with
    | none =>
        exact .unary trivial (fun _ h => (Option.some.inj h).ge)
          (fun _ h => by cases h) hvalue
    | some escape =>
        exact .unary trivial (fun _ h => (Option.some.inj h).ge)
          (fun _ h => by cases h) hvalue
  rw [writeOctetsFromValue] at h
  split at h
  · obtain rfl := Except.ok.inj h
    exact hwrite _ (.unary trivial (fun _ h => (Option.some.inj h).ge)
      (fun _ h => by cases h) hvalue)
  · split at h
    · obtain rfl := Except.ok.inj h
      exact hwrite value hvalue
    · contradiction

theorem wellScoped_visitRead (hknows : KnowsTypesOf getType scope)
    {terminator : Octets} {identifier : IdentifierReference}
    {escape : Option EscapeInfo} {tree : OpTreeNode}
    (h : visitReadOctetsUntilTerminator getType terminator identifier escape =
      .ok tree) : WellScoped .action scope tree := by
  obtain ⟨type, htype, h⟩ := bind_eq_ok h
  have hname := hknows _ _ (orNullopt_eq_ok htype)
  split at h
  · obtain ⟨value, hvalue, h⟩ := bind_eq_ok h
    obtain rfl := Except.ok.inj h
    exact .set hname (wellScoped_readValueFromOctets scope hvalue)
  · rename_i member _
    obtain ⟨⟨access, accessType⟩, haccess, h⟩ := bind_eq_ok h
    obtain rfl := Except.ok.inj h
    refine .set hname (wellScoped_recursiveVariableAccess ?_ member
      (.get hname) haccess)
    intro write hwrite scope type tree htree
    obtain rfl := Option.some.inj hwrite
    exact wellScoped_readValueFromOctets scope htree

theorem wellScoped_visitWrite (hknows : KnowsTypesOf getType scope)
    {identifier : IdentifierReference} {escape : Option EscapeInfo}
    {tree : OpTreeNode}
    (h : visitWriteFromIdentifier getType identifier escape = .ok tree) :
    WellScoped .action scope tree := by
  obtain ⟨type, htype, h⟩ := bind_eq_ok h
  have hname := hknows _ _ (orNullopt_eq_ok htype)
  split at h
  · exact wellScoped_writeOctetsFromValue (.get hname) h
  · rename_i member _
    obtain ⟨⟨access, accessType⟩, haccess, h⟩ := bind_eq_ok h
    have hget := wellScoped_recursiveVariableAccess
      (by intro write hwrite; contradiction) member (.get hname) haccess
    exact wellScoped_writeOctetsFromValue hget h

theorem wellScoped_readLoop {loopVariable collection : String}
    {terminator : Octets} {operations : List OpTreeNode}
    (hcollection : collection ∈ scope)
    (h : ∀ scope', (∀ name ∈ loopVariable :: scope, name ∈ scope') →
      WellScoped .action scope' (opSequence operations)) :
    WellScoped .action scope (readLoop loopVariable collection terminator
      (.mk (.lexicalPad (.lexicalPadInitialize loopVariable))
        [.mk (.interpreted .dictionaryInitialize) []]) operations) := by
  refine .set hcollection (.generateList (.opSequence fun k child hchild => ?_))
  rcases k with _ | _ | _ | _ | k
  · obtain rfl := Option.some.inj hchild
    exact .unary trivial (fun _ h => (Option.some.inj h).ge)
      (fun _ h => by cases h)
      (.leaf trivial (fun _ h => (Option.some.inj h).symm)
        fun _ h => by cases h)
  · obtain rfl := Option.some.inj hchild
    exact h _ fun _ h => h
  · obtain rfl := Option.some.inj hchild
    exact .leaf trivial (fun _ h => (Option.some.inj h).symm)
      fun _ h => by cases h
  · obtain rfl := Option.some.inj hchild
    exact .get List.mem_cons_self
  · simp at hchild

theorem wellScoped_writeLoop {loopVariable collection : String}
    (terminator : Octets) {operations : List OpTreeNode}
    (hcollection : collection ∈ scope)
    (h : WellScoped .action (loopVariable :: scope) (opSequence operations)) :
    WellScoped .action scope
      (writeLoop loopVariable collection terminator operations) := by
  refine .opSequence fun k child hchild => ?_
  rcases k with _ | _ | k
  · obtain rfl := Option.some.inj hchild
    exact .forEach h (.get hcollection)
  · obtain rfl := Option.some.inj hchild
    exact .leaf trivial (fun _ h => (Option.some.inj h).symm)
      fun _ h => by cases h
  · simp at hchild

mutual

/-- The tree of an action is well scoped wherever the names whose types the
generator knows are. -/
theorem wellScoped_visitAction {transition : TransitionType}
    {getType : ExtractTypeClosure} {action : Action} {tree : OpTreeNode}
    (h : visitAction transition getType action = .ok tree)
    {scope : List String} (hknows : KnowsTypesOf getType scope) :
    WellScoped .action scope tree := by
  match action with
  | .readOctetsUntilTerminator terminator identifier escape =>
      cases transition with
      | read => exact wellScoped_visitRead hknows h
      | write => contradiction
  | .readStaticOctets octets =>
      cases transition with
      | read =>
          obtain rfl := Except.ok.inj h
          exact .leaf trivial (fun _ h => (Option.some.inj h).symm)
            fun _ h => by cases h
      | write => contradiction
  | .writeFromIdentifier identifier escape =>
      cases transition with
      | read => contradiction
      | write => exact wellScoped_visitWrite hknows h
  | .writeStaticOctets octets =>
      cases transition with
      | read => contradiction
      | write =>
          obtain rfl := Except.ok.inj h
          exact .leaf trivial (fun _ h => (Option.some.inj h).symm)
            fun _ h => by cases h
  | .loop loopVariable collection terminator actions =>
      rw [visitAction] at h
      obtain ⟨wrapper, hwrapper, h⟩ := bind_eq_ok h
      obtain ⟨operations, hoperations, h⟩ := bind_eq_ok h
      obtain ⟨hcollection, hbody⟩ := knowsTypesOf_wrapper hwrapper hknows
      cases transition with
      | read =>
          obtain ⟨initial, hinitial, h⟩ := bind_eq_ok h
          obtain rfl := initializeLoopVariable_eq_ok hinitial
          obtain rfl := Except.ok.inj h
          refine wellScoped_readLoop hcollection fun scope' hscope => ?_
          have hknows' : KnowsTypesOf wrapper scope' :=
            fun name type htype => hscope name (hbody name type htype)
          exact .opSequence fun k child hchild =>
            wellScoped_actionsToOptreenodes hoperations (hknows'.scopeAt _ _)
              child (List.mem_of_getElem? hchild)
      | write =>
          obtain rfl := Except.ok.inj h
          refine wellScoped_writeLoop terminator hcollection ?_
          exact .opSequence fun k child hchild =>
            wellScoped_actionsToOptreenodes hoperations (hbody.scopeAt _ _)
              child (List.mem_of_getElem? hchild)

theorem wellScoped_actionsToOptreenodes {transition : TransitionType}
    {getType : ExtractTypeClosure} {actions : List Action}
    {trees : List OpTreeNode}
    (h : actionsToOptreenodes transition getType actions = .ok trees)
    {scope : List String} (hknows : KnowsTypesOf getType scope) :
    ∀ tree ∈ trees, WellScoped .action scope tree := by
  match actions with
  | [] =>
      obtain rfl := Except.ok.inj h
      exact fun tree htree => by cases htree
  | action :: actions =>
      rw [actionsToOptreenodes] at h
      obtain ⟨first, hfirst, h⟩ := bind_eq_ok h
      obtain ⟨rest, hrest, h⟩ := bind_eq_ok h
      obtain rfl := Except.ok.inj h
      intro tree htree
      rcases List.mem_cons.mp htree with rfl | htree
      · exact wellScoped_visitAction hfirst hknows
      · exact wellScoped_actionsToOptreenodes hrest hknows tree htree

end

theorem knowsTypesOf_extractType (data : MessageData) :
    KnowsTypesOf (extractType data) (extractArgumentNames data) := by
  intro name type h
  have hmem := Assoc.mem_of_lookup h
  exact List.mem_map_of_mem hmem

theorem wellScoped_generateTransitionOptree {transition : Transition}
    {tree : OpTreeNode} (h : generateTransitionOptree transition = .ok tree) :
    WellScoped .action (extractArgumentNames transition.data) tree := by
  obtain ⟨operations, hoperations, h⟩ := bind_eq_ok h
  obtain rfl := Except.ok.inj h
  have hknows := knowsTypesOf_extractType transition.data
  refine .opSequence fun k child hchild => ?_
  rcases k with _ | _ | k
  · obtain rfl := Option.some.inj hchild
    exact .opSequence fun k child hchild =>
      wellScoped_actionsToOptreenodes hoperations (hknows.scopeAt _ _) child
        (List.mem_of_getElem? hchild)
  · obtain rfl := Option.some.inj hchild
    exact .unary trivial (fun _ h => by cases h) (fun _ h => by cases h)
      (.leaf trivial (fun _ h => (Option.some.inj h).symm)
        fun _ h => by cases h)
  · simp at hchild

theorem wellScoped_generateTransitionInfo {transition : Transition}
    {targetState : String} {info : TransitionInfo}
    (h : generateTransitionInfo transition targetState = .ok info) :
    WellScoped .action info.argumentNames info.callbackOptree := by
  obtain ⟨tree, htree, h⟩ := bind_eq_ok h
  obtain rfl := Except.ok.inj h
  exact wellScoped_generateTransitionOptree htree

theorem wellScoped_constructTransitions
    {transitions : List (Octets × (Transition × String))}
    {type type' : Option TransitionType}
    {infos : List (Octets × TransitionInfo)}
    (h : constructTransitions transitions type = .ok (infos, type')) :
    ∀ entry ∈ infos,
      WellScoped .action entry.2.argumentNames entry.2.callbackOptree := by
  induction transitions generalizing type type' infos with
  | nil =>
      obtain ⟨rfl, _⟩ := Prod.mk.inj (Except.ok.inj h)
      exact fun entry hentry => by cases hentry
  | cons first transitions ih =>
      obtain ⟨name, transition, targetState⟩ := first
      rw [constructTransitions] at h
      obtain ⟨info, hinfo, h⟩ := bind_eq_ok h
      split at h
      · contradiction
      · obtain ⟨⟨rest, restType⟩, hrest, h⟩ := bind_eq_ok h
        obtain ⟨rfl, _⟩ := Prod.mk.inj (Except.ok.inj h)
        intro entry hentry
        rcases List.mem_cons.mp hentry with rfl | hentry
        · exact wellScoped_generateTransitionInfo hinfo
        · exact ih hrest entry hentry

theorem generateReadStateCallback_eq_ok {state : State} {tree : OpTreeNode}
    (h : generateReadStateCallback state = .ok tree) :
    ∃ conditions, tree = lookaheadCallback conditions := by
  obtain ⟨conditions, _, h⟩ := bind_eq_ok h
  split at h
  · contradiction
  · exact ⟨conditions, (Except.ok.inj h).symm⟩

theorem wellScoped_constructState {name : String} {state : State}
    {info : StateInfo} (h : constructState name state = .ok info) :
    WellScoped .stateCallback ["dictionary"] info.callbackOptree ∧
      ∀ entry ∈ info.transitions,
        WellScoped .action entry.2.argumentNames entry.2.callbackOptree := by
  obtain ⟨⟨transitions, type⟩, htransitions, h⟩ := bind_eq_ok h
  have hinfos := wellScoped_constructTransitions htransitions
  have hwrite : WellScoped .stateCallback ["dictionary"]
      (stateCallback name) := .writeState name List.mem_cons_self
  simp only at h
  split at h
  · split at h
    · obtain ⟨tree, htree, h⟩ := bind_eq_ok h
      obtain ⟨conditions, rfl⟩ := generateReadStateCallback_eq_ok htree
      obtain rfl := Except.ok.inj h
      exact ⟨.readState conditions List.mem_cons_self, hinfos⟩
    · obtain rfl := Except.ok.inj h
      exact ⟨hwrite, hinfos⟩
  · obtain rfl := Except.ok.inj h
    exact ⟨hwrite, hinfos⟩

theorem mem_of_mapM_eq_ok {α β ε : Type} {f : α → Except ε β} {xs : List α}
    {ys : List β} (h : xs.mapM f = .ok ys) {y : β} (hy : y ∈ ys) :
    ∃ x ∈ xs, f x = .ok y := by
  induction xs generalizing ys with
  | nil =>
      obtain rfl := Except.ok.inj h
      cases hy
  | cons x xs ih =>
      rw [List.mapM_cons] at h
      obtain ⟨first, hfirst, h⟩ := bind_eq_ok h
      obtain ⟨rest, hrest, h⟩ := bind_eq_ok h
      obtain rfl := Except.ok.inj h
      rcases List.mem_cons.mp hy with rfl | hy
      · exact ⟨x, List.mem_cons_self, hfirst⟩
      · obtain ⟨x', hx', hy⟩ := ih hrest hy
        exact ⟨x', List.mem_cons_of_mem _ hx', hy⟩

/-- The program of an agent is a well-scoped state machine. -/
theorem wellScoped_generateAgent {agent : Agent} {tree : OpTreeNode}
    (h : generateAgent agent = .ok tree) : WellScoped .machine [] tree := by
  obtain ⟨states, hstates, h⟩ := bind_eq_ok h
  obtain rfl := Except.ok.inj h
  obtain ⟨mapped, hmapped, hstates⟩ := bind_eq_ok hstates
  have hsame : mapped = states := by
    split at hstates
    · contradiction
    · exact Except.ok.inj hstates
  have hstate : ∀ entry ∈ states,
      ∃ state, constructState entry.1 state = .ok entry.2 := by
    intro entry hentry
    rw [← hsame] at hentry
    obtain ⟨⟨name, state⟩, _, hconstruct⟩ := mem_of_mapM_eq_ok hmapped hentry
    obtain ⟨info, hinfo, hentry⟩ := bind_eq_ok hconstruct
    obtain rfl := Except.ok.inj hentry
    exact ⟨state, hinfo⟩
  refine .machine (fun entry hentry => ?_) fun entry hentry => ?_
  · obtain ⟨state, hconstruct⟩ := hstate entry hentry
    exact (wellScoped_constructState hconstruct).1
  · obtain ⟨state, hconstruct⟩ := hstate entry hentry
    exact (wellScoped_constructState hconstruct).2

end Generator

end NetworkProtocolDsl
