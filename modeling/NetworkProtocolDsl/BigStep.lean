/-
The meaning of an operation tree.

A tree is evaluated recursively: arguments from left to right, a callable's
body in a pad of its own, of a conditional only the chosen branch.  The fuel
bounds the depth of the recursion; a tree that runs forever has no meaning,
nor has one that would have to wait for the outside.
-/
import NetworkProtocolDsl.Interpreter

namespace NetworkProtocolDsl

/-- What an evaluation can change: the pad it runs over, and `errno`. -/
structure Memory where
  pad : LexicalPad
  errno : Errno

namespace BigStep

/-- The value of a tree and what evaluating it leaves. -/
abbrev Evaluator := OpTreeNode → Memory → Option (Value × Memory)

/-- As many arguments as an operation takes, whatever they yield. -/
def arguments (evaluator : Evaluator) :
    Nat → List OpTreeNode → Memory → Option (List Value × Memory)
  | 0, _, m => some ([], m)
  | _ + 1, [], _ => none
  | n + 1, node :: nodes, m =>
      match evaluator node m with
      | none => none
      | some (value, m) =>
          (arguments evaluator n nodes m).map fun (values, m) =>
            (value :: values, m)

/-- The children up to the first error or control flow instruction. -/
def inOrder (evaluator : Evaluator) :
    List OpTreeNode → Memory → Option (List Value × Memory)
  | [], m => some ([], m)
  | node :: nodes, m =>
      match evaluator node m with
      | none => none
      | some (value, m) =>
          if value.stops then some ([value], m)
          else (inOrder evaluator nodes m).map fun (values, m) =>
            (value :: values, m)

/-- The body is evaluated in a new pad that holds the arguments; its parent is
the invoker's pad, or the root pad if the callable does not inherit. -/
def call (evaluator : Evaluator) (callable : Callable)
    (arglist : Option (List Value)) (m : Memory) : Option (Value × Memory) :=
  if arglist.isNone ∧ callable.argumentNames ≠ [] then none
  else
    (evaluator callable.tree { m with
      pad := Interpreter.calleePad callable m.pad (arglist.getD []) }).map
        fun (value, m') => (value, { m' with
          pad := LexicalPad.afterCall callable.inheritsLexicalPad m.pad
            m'.pad })

def functionCall (evaluator : Evaluator) (callable arglist : Value)
    (m : Memory) : Option (Value × Memory) :=
  match callable, arglist with
  | .callable c, .dynamicList values => call evaluator c (some values) m
  | .callable _, .runtimeError e => some (.runtimeError e, m)
  | _, _ => some (.runtimeError .typeError, m)

/-- What a value that is not of the type asked for turns into. -/
def mismatch (value : Value) : Value :=
  if value.stops then value else .runtimeError .typeError

def ifOperation (evaluator : Evaluator)
    (condition thenBranch elseBranch : Value) (m : Memory) :
    Option (Value × Memory) :=
  match condition, thenBranch, elseBranch with
  | .bool b, .callable t, .callable e =>
      call evaluator (if b then t else e) none m
  | .bool _, .callable _, other => some (mismatch other, m)
  | .bool _, other, _ => some (mismatch other, m)
  | other, _, _ => some (mismatch other, m)

/-- An operation that invokes callables, resumed with what each evaluates
to. -/
def resume (evaluator : Evaluator) (operation : ControlFlowOperation)
    (args : List Value) :
    Nat → ControlFlowOperationContext → Memory → Option (Value × Memory)
  | 0, _, _ => none
  | n + 1, ctx, m =>
      match operation.apply ctx args with
      | .ok (.value value, _) => some (value, m)
      | .ok (.blocked .waitingForCallableInvocation, ctx) =>
          match ctx.callable,
            operation.getArgumentList (operation.setCallableInvoked ctx) with
          | some (.callable callable), .ok arglist =>
              match call evaluator callable arglist m with
              | none => none
              | some (value, m) =>
                  resume evaluator operation args n
                    { ctx with callableInvoked := true, value := some value } m
          | _, _ => none
      | _ => none

def controlFlow (evaluator : Evaluator) (n : Nat)
    (operation : ControlFlowOperation) (args : List Value) (m : Memory) :
    Option (Value × Memory) :=
  match operation, args with
  | .functionCall, [callable, arglist] =>
      functionCall evaluator callable arglist m
  | .ifOperation, [condition, thenBranch, elseBranch] =>
      ifOperation evaluator condition thenBranch elseBranch m
  | operation, args => resume evaluator operation args n {} m

/-- One operation on its arguments; an operation that has to wait for the
outside has no value. -/
def operate (evaluator : Evaluator) (n : Nat) (operation : Operation)
    (args : List Value) (m : Memory) : Option (Value × Memory) :=
  match operation with
  | .interpreted operation =>
      match operation.apply args with
      | .ok value => some (value, m)
      | .error _ => none
  | .lexicalPad operation =>
      match operation.apply args m.pad with
      | .ok (value, pad) => some (value, { m with pad := pad })
      | .error _ => none
  | .inputOutput operation =>
      match operation.apply {} args m.errno with
      | .ok ⟨.value value, _, errno⟩ => some (value, { m with errno := errno })
      | _ => none
  | .controlFlow operation => controlFlow evaluator n operation args m
  | .unaryCallback _ => none
  | .dynamicInput operation => some (operation.apply args, m)

/-- The values an operation is applied to. -/
def operands (evaluator : Evaluator) (operation : Operation)
    (children : List OpTreeNode) (m : Memory) :
    Option (List Value × Memory) :=
  match operation.arity with
  | some n => arguments evaluator n children m
  | none => inOrder evaluator children m

def evaluate : Nat → Evaluator
  | 0, _, _ => none
  | n + 1, .mk operation children, m =>
      match operands (evaluate n) operation children m with
      | none => none
      | some (args, m) => operate (evaluate n) n operation args m

end BigStep

/-- The recursive evaluation of the tree gives the value. -/
def OpTreeNode.BigStep (node : OpTreeNode) (m : Memory) (value : Value)
    (m' : Memory) : Prop :=
  ∃ n, BigStep.evaluate n node m = some (value, m')

namespace BigStep

/-- What the first evaluator gives, the second gives. -/
def Below (evaluator evaluator' : Evaluator) : Prop :=
  ∀ node m result, evaluator node m = some result →
    evaluator' node m = some result

section Below

variable {evaluator evaluator' : Evaluator} (h : Below evaluator evaluator')

include h

theorem arguments_below {n : Nat} {nodes : List OpTreeNode} {m : Memory}
    {result : List Value × Memory}
    (hargs : arguments evaluator n nodes m = some result) :
    arguments evaluator' n nodes m = some result := by
  induction n generalizing nodes m result with
  | zero => exact hargs
  | succ n ih =>
      cases nodes with
      | nil => exact hargs
      | cons node nodes =>
          simp only [arguments] at hargs ⊢
          cases hnode : evaluator node m with
          | none =>
              rw [hnode] at hargs
              contradiction
          | some first =>
              rw [hnode] at hargs
              rw [h _ _ _ hnode]
              obtain ⟨others, hothers, rfl⟩ := Option.map_eq_some_iff.mp hargs
              exact Option.map_eq_some_iff.mpr ⟨others, ih hothers, rfl⟩

theorem inOrder_below {nodes : List OpTreeNode} {m : Memory}
    {result : List Value × Memory}
    (horder : inOrder evaluator nodes m = some result) :
    inOrder evaluator' nodes m = some result := by
  induction nodes generalizing m result with
  | nil => exact horder
  | cons node nodes ih =>
      simp only [inOrder] at horder ⊢
      cases hnode : evaluator node m with
      | none =>
          rw [hnode] at horder
          contradiction
      | some first =>
          rw [hnode] at horder
          rw [h _ _ _ hnode]
          simp only at horder ⊢
          by_cases hstops : first.1.stops = true
          · rwa [if_pos hstops] at horder ⊢
          · rw [if_neg hstops] at horder ⊢
            obtain ⟨others, hothers, rfl⟩ := Option.map_eq_some_iff.mp horder
            exact Option.map_eq_some_iff.mpr ⟨others, ih hothers, rfl⟩

theorem operands_below {operation : Operation} {children : List OpTreeNode}
    {m : Memory} {result : List Value × Memory}
    (hoperands : operands evaluator operation children m = some result) :
    operands evaluator' operation children m = some result := by
  unfold operands at hoperands ⊢
  cases harity : operation.arity with
  | some n =>
      simp only [harity] at hoperands ⊢
      exact arguments_below h hoperands
  | none =>
      simp only [harity] at hoperands ⊢
      exact inOrder_below h hoperands

theorem call_below {callable : Callable} {arglist : Option (List Value)}
    {m : Memory} {result : Value × Memory}
    (hcall : call evaluator callable arglist m = some result) :
    call evaluator' callable arglist m = some result := by
  unfold call at hcall ⊢
  split at hcall
  · contradiction
  · rename_i hargs
    rw [if_neg hargs]
    obtain ⟨inner, hinner, rfl⟩ := Option.map_eq_some_iff.mp hcall
    exact Option.map_eq_some_iff.mpr ⟨inner, h _ _ _ hinner, rfl⟩

/-- More fuel for the loop does no harm either. -/
theorem resume_below {operation : ControlFlowOperation} {args : List Value}
    {n n' : Nat} (hle : n ≤ n') {ctx : ControlFlowOperationContext}
    {m : Memory} {result : Value × Memory}
    (hresume : resume evaluator operation args n ctx m = some result) :
    resume evaluator' operation args n' ctx m = some result := by
  induction n generalizing n' ctx m with
  | zero => contradiction
  | succ n ih =>
      obtain ⟨n', rfl⟩ := Nat.exists_eq_add_of_lt (Nat.lt_of_succ_le hle)
      rw [resume] at hresume ⊢
      split at hresume
      · exact hresume
      · split at hresume
        · cases hcall : call evaluator _ _ m with
          | none =>
              rw [hcall] at hresume
              contradiction
          | some inner =>
              rw [hcall] at hresume
              rw [call_below h hcall]
              exact ih (by omega) hresume
        · contradiction
      · contradiction

theorem functionCall_below {callable arglist : Value} {m : Memory}
    {result : Value × Memory}
    (hcall : functionCall evaluator callable arglist m = some result) :
    functionCall evaluator' callable arglist m = some result := by
  unfold functionCall at hcall ⊢
  split at hcall
  · exact call_below h hcall
  · exact hcall
  · exact hcall

theorem ifOperation_below {condition thenBranch elseBranch : Value}
    {m : Memory} {result : Value × Memory}
    (hif : ifOperation evaluator condition thenBranch elseBranch m =
      some result) :
    ifOperation evaluator' condition thenBranch elseBranch m =
      some result := by
  unfold ifOperation at hif ⊢
  split at hif
  · exact call_below h hif
  · exact hif
  · exact hif
  · exact hif

theorem operate_below {n n' : Nat} (hle : n ≤ n') {operation : Operation}
    {args : List Value} {m : Memory} {result : Value × Memory}
    (hoperate : operate evaluator n operation args m = some result) :
    operate evaluator' n' operation args m = some result := by
  cases operation with
  | controlFlow operation =>
      simp only [operate, controlFlow] at hoperate ⊢
      split at hoperate
      · exact functionCall_below h hoperate
      · exact ifOperation_below h hoperate
      · exact resume_below h hle hoperate
  | interpreted _ | lexicalPad _ | inputOutput _ | unaryCallback _
  | dynamicInput _ => exact hoperate

end Below

theorem evaluate_below (n : Nat) : Below (evaluate n) (evaluate (n + 1)) := by
  induction n with
  | zero =>
      intro node m result h
      contradiction
  | succ n ih =>
      intro node m result h
      obtain ⟨operation, children⟩ := node
      rw [evaluate] at h ⊢
      cases hoperands : operands (evaluate n) operation children m with
      | none =>
          rw [hoperands] at h
          contradiction
      | some operands =>
          rw [hoperands] at h
          rw [operands_below ih hoperands]
          exact operate_below ih (Nat.le_succ n) h

theorem evaluate_mono {n n' : Nat} (h : n ≤ n') :
    Below (evaluate n) (evaluate n') := by
  induction h with
  | refl => exact fun _ _ _ h => h
  | step _ ih => exact fun node m result h => evaluate_below _ _ _ _ (ih _ _ _ h)

/-- A frame with these values has its arguments ready. -/
def Filled (operation : Operation) (count : Nat) (values : List Value) :
    Bool :=
  match operation.arity with
  | some n => n ≤ values.length
  | none => values.getLast?.any Value.stops || count ≤ values.length

/-- The children are evaluated until the frame is filled. -/
def collect (evaluator : Evaluator) (operation : Operation) (count : Nat) :
    List Value → List OpTreeNode → Memory → Option (List Value × Memory)
  | values, nodes, m =>
      if Filled operation count values then some (values, m)
      else
        match nodes with
        | [] => none
        | node :: nodes =>
            match evaluator node m with
            | none => none
            | some (value, m) =>
                collect evaluator operation count (values ++ [value]) nodes m

theorem collect_below {evaluator evaluator' : Evaluator}
    (h : Below evaluator evaluator') {operation : Operation} {count : Nat}
    {values : List Value} {nodes : List OpTreeNode} {m : Memory}
    {result : List Value × Memory}
    (hcollect : collect evaluator operation count values nodes m =
      some result) :
    collect evaluator' operation count values nodes m = some result := by
  induction nodes generalizing values m with
  | nil => exact hcollect
  | cons node nodes ih =>
      rw [collect] at hcollect ⊢
      by_cases hfilled : Filled operation count values = true
      · rwa [if_pos hfilled] at hcollect ⊢
      · rw [if_neg hfilled] at hcollect ⊢
        cases hnode : evaluator node m with
        | none =>
            simp only [hnode] at hcollect
            contradiction
        | some first =>
            simp only [hnode] at hcollect
            simp only [h _ _ _ hnode]
            exact ih hcollect

theorem collect_arguments (evaluator : Evaluator) {operation : Operation}
    {n : Nat} (harity : operation.arity = some n) (count : Nat)
    (values : List Value) (nodes : List OpTreeNode) (m : Memory) :
    collect evaluator operation count values nodes m =
      (arguments evaluator (n - values.length) nodes m).map
        fun (others, m) => (values ++ others, m) := by
  induction nodes generalizing values m with
  | nil =>
      unfold collect
      by_cases hle : n ≤ values.length
      · have hzero : n - values.length = 0 := by omega
        simp [Filled, harity, hle, hzero, arguments]
      · obtain ⟨k, hk⟩ : ∃ k, n - values.length = k + 1 :=
          ⟨n - values.length - 1, by omega⟩
        simp [Filled, harity, hle, hk, arguments]
  | cons node nodes ih =>
      unfold collect
      by_cases hle : n ≤ values.length
      · have hzero : n - values.length = 0 := by omega
        simp [Filled, harity, hle, hzero, arguments]
      · obtain ⟨k, hk⟩ : ∃ k, n - values.length = k + 1 :=
          ⟨n - values.length - 1, by omega⟩
        simp only [Filled, harity, hle, hk, arguments, decide_false,
          Bool.false_eq_true, ↓reduceIte]
        cases hnode : evaluator node m with
        | none => rfl
        | some first =>
            have hrest : n - (values ++ [first.1]).length = k := by
              simp
              omega
            simp only [ih, hrest, Option.map_map]
            congr 1
            funext rest
            simp

theorem collect_inOrder (evaluator : Evaluator) {operation : Operation}
    (harity : operation.arity = none) (values : List Value)
    (hgoes : values.getLast?.any Value.stops = false)
    (nodes : List OpTreeNode) (m : Memory) :
    collect evaluator operation (values.length + nodes.length) values nodes
        m = (inOrder evaluator nodes m).map
      fun (others, m) => (values ++ others, m) := by
  induction nodes generalizing values m with
  | nil =>
      unfold collect
      simp [Filled, harity, inOrder]
  | cons node nodes ih =>
      unfold collect
      have hfilled : Filled operation
          (values.length + (node :: nodes).length) values = false := by
        simp [Filled, harity, hgoes]
      rw [hfilled, if_neg Bool.false_ne_true]
      simp only [inOrder]
      cases hnode : evaluator node m with
      | none => rfl
      | some first =>
          have hcount : values.length + (node :: nodes).length =
              (values ++ [first.1]).length + nodes.length := by
            simp
            omega
          rw [hcount]
          by_cases hstops : first.1.stops = true
          · simp only [hstops, ↓reduceIte]
            unfold collect
            simp [Filled, harity, hstops]
          · simp only [hstops, Bool.false_eq_true, ↓reduceIte]
            rw [ih (values ++ [first.1]) (by simpa using hstops),
              Option.map_map]
            congr 1
            funext rest
            simp

theorem operands_eq_collect (evaluator : Evaluator) (operation : Operation)
    (children : List OpTreeNode) (m : Memory) :
    operands evaluator operation children m =
      collect evaluator operation children.length [] children m := by
  unfold operands
  cases harity : operation.arity with
  | some n =>
      rw [collect_arguments evaluator harity]
      simp
  | none =>
      have h := collect_inOrder evaluator harity [] rfl children m
      rw [List.length_nil, Nat.zero_add] at h
      rw [h]
      simp

section Resume

variable {evaluator : Evaluator} {m : Memory} {result : Value × Memory}

/-- An operation that invokes one callable is resumed with its value. -/
theorem resume_once {operation : ControlFlowOperation} {args : List Value}
    {ctx ctx' : ControlFlowOperationContext} (callable : Callable)
    {arglist : Option (List Value)}
    (happly : operation.apply ctx args =
      .ok (.blocked .waitingForCallableInvocation, ctx'))
    (hcallable : ctx'.callable = some (.callable callable))
    (hargs : operation.getArgumentList (operation.setCallableInvoked ctx') =
      .ok arglist)
    (hagain : ∀ value, operation.apply
      { ctx' with callableInvoked := true, value := some value } args =
        .ok (.value value,
          { ctx' with callableInvoked := true, value := some value }))
    (n : Nat) :
    resume evaluator operation args (n + 2) ctx m =
      call evaluator callable arglist m := by
  rw [resume, happly]
  simp only [hcallable, hargs]
  cases call evaluator callable arglist m with
  | none => rfl
  | some inner =>
      have hvalue := hagain inner.1
      rw [hcallable] at hvalue
      simp only [resume, hvalue]

theorem functionCall_eq_resume (callable arglist : Value) (n : Nat) :
    functionCall evaluator callable arglist m =
      resume evaluator .functionCall [callable, arglist] (n + 2) {} m := by
  cases callable with
  | callable c =>
      cases arglist with
      | dynamicList values =>
          rw [resume_once c rfl rfl rfl fun _ => rfl]
          rfl
      | bool _ | int32 _ | dictionary _ | callable _ | runtimeError _
      | controlFlowInstruction _ | octets _ => rfl
  | bool _ | int32 _ | dictionary _ | runtimeError _
  | controlFlowInstruction _ | dynamicList _ | octets _ => rfl

theorem ifOperation_eq_resume (condition thenBranch elseBranch : Value)
    (n : Nat) :
    ifOperation evaluator condition thenBranch elseBranch m =
      resume evaluator .ifOperation [condition, thenBranch, elseBranch]
        (n + 2) {} m := by
  cases condition with
  | bool b =>
      cases thenBranch with
      | callable t =>
          cases elseBranch with
          | callable e =>
              rw [resume_once (if b then t else e) rfl rfl rfl
                fun _ => rfl]
              rfl
          | bool _ | int32 _ | dictionary _ | runtimeError _
          | controlFlowInstruction _ | dynamicList _ | octets _ => rfl
      | bool _ | int32 _ | dictionary _ | runtimeError _
      | controlFlowInstruction _ | dynamicList _ | octets _ => rfl
  | int32 _ | dictionary _ | callable _ | runtimeError _
  | controlFlowInstruction _ | dynamicList _ | octets _ => rfl

theorem resume_of_controlFlow {n : Nat} {operation : ControlFlowOperation}
    {args : List Value}
    (h : controlFlow evaluator n operation args m = some result) :
    ∃ k, resume evaluator operation args k {} m = some result := by
  unfold controlFlow at h
  split at h
  · exact ⟨2, functionCall_eq_resume _ _ 0 ▸ h⟩
  · exact ⟨2, ifOperation_eq_resume _ _ _ 0 ▸ h⟩
  · exact ⟨n, h⟩

theorem controlFlow_of_resume {operation : ControlFlowOperation}
    {args : List Value} {k : Nat}
    (h : resume evaluator operation args k {} m = some result) :
    controlFlow evaluator k operation args m = some result := by
  have hmore := resume_below (fun _ _ _ h => h) (Nat.le_add_right k 2) h
  unfold controlFlow
  split
  · rw [functionCall_eq_resume _ _ k]
    exact hmore
  · rw [ifOperation_eq_resume _ _ _ k]
    exact hmore
  · exact h

end Resume

end BigStep

/-- A tree has one meaning at most. -/
theorem OpTreeNode.BigStep.unique {node : OpTreeNode} {m m₁ m₂ : Memory}
    {value value' : Value} (h : node.BigStep m value m₁)
    (h' : node.BigStep m value' m₂) : value = value' ∧ m₁ = m₂ := by
  obtain ⟨n, hn⟩ := h
  obtain ⟨n', hn'⟩ := h'
  have hleft := NetworkProtocolDsl.BigStep.evaluate_mono
    (Nat.le_max_left n n') _ _ _ hn
  have hright := NetworkProtocolDsl.BigStep.evaluate_mono
    (Nat.le_max_right n n') _ _ _ hn'
  exact Prod.mk.inj (Option.some.inj (hleft.symm.trans hright))

end NetworkProtocolDsl
