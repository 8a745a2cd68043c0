/-
Operations that cannot block: arithmetic, literals, callables, dictionaries.

Every operation takes its operands by the dynamic type of the value.  An error
or a control flow instruction travels through the arithmetic operations; the
dictionary operations each have their own rule.
-/
import Mathlib.Data.Nat.Digits.Defs
import NetworkProtocolDsl.Library.Assoc
import NetworkProtocolDsl.Value

namespace NetworkProtocolDsl

/-- `_add`, `_subtract`, `_multiply`, `_eq` and `_lesserequal` differ only in
the function of the two integers. -/
def binaryInt32 (compute : Int32 → Int32 → Value) (lhs rhs : Value) : Value :=
  match lhs, rhs with
  | .int32 l, .int32 r => compute l r
  | .int32 _, .runtimeError e => .runtimeError e
  | .int32 _, .controlFlowInstruction i => .controlFlowInstruction i
  | .runtimeError e, _ => .runtimeError e
  | .controlFlowInstruction i, _ => .controlFlowInstruction i
  | _, _ => .runtimeError .typeError

def Add.apply : Value → Value → Value :=
  binaryInt32 fun lhs rhs => .int32 (rhs + lhs)

def Subtract.apply : Value → Value → Value :=
  binaryInt32 fun lhs rhs => .int32 (lhs - rhs)

def Multiply.apply : Value → Value → Value :=
  binaryInt32 fun lhs rhs => .int32 (rhs * lhs)

def Eq.apply : Value → Value → Value :=
  binaryInt32 fun lhs rhs => .bool (rhs == lhs)

def LesserEqual.apply : Value → Value → Value :=
  binaryInt32 fun lhs rhs => .bool (lhs ≤ rhs)

/-- The decimal notation of a natural number, without leading zeros. -/
def decimal (n : Nat) : Octets :=
  if n = 0 then [48]
  else (Nat.digits 10 n).reverse.map fun digit => UInt8.ofNat (48 + digit)

def IntToAscii.apply : Value → Value
  | .int32 v =>
      if v.toInt < 0 then .octets (45 :: decimal v.toInt.natAbs)
      else .octets (decimal v.toInt.natAbs)
  | .runtimeError e => .runtimeError e
  | .controlFlowInstruction i => .controlFlowInstruction i
  | _ => .runtimeError .typeError

/-- The overload for errors takes its argument by non-const reference, so a
constant argument that is an error selects the fallback. -/
def DictionaryGet.apply (key : String) : Value → Value
  | .dictionary members =>
      match members.lookup key with
      | some value => value
      | none => .runtimeError .nameError
  | _ => .runtimeError .typeError

def DictionarySet.apply (key : String) (dict value : Value) : Value :=
  match dict, value with
  | .dictionary _, .runtimeError e => .runtimeError e
  | .dictionary members, value =>
      .dictionary (Assoc.overwrite key value members)
  | .runtimeError e, _ => .runtimeError e
  | _, _ => .runtimeError .typeError

namespace InterpretedOperation

/-- The size of the `Arguments` tuple. -/
def arity : InterpretedOperation → Nat
  | .add | .eq | .lesserEqual | .multiply | .subtract => 2
  | .int32Literal _ | .staticCallable .. | .dictionaryInitialize => 0
  | .intToAscii | .dictionaryGet _ => 1
  | .dictionarySet _ => 2

def apply : InterpretedOperation → List Value → Except Fault Value
  | .add, lhs :: rhs :: _ => .ok (Add.apply lhs rhs)
  | .eq, lhs :: rhs :: _ => .ok (Eq.apply lhs rhs)
  | .int32Literal value, _ => .ok (.int32 value)
  | .intToAscii, value :: _ => .ok (IntToAscii.apply value)
  | .lesserEqual, lhs :: rhs :: _ => .ok (LesserEqual.apply lhs rhs)
  | .multiply, lhs :: rhs :: _ => .ok (Multiply.apply lhs rhs)
  | .subtract, lhs :: rhs :: _ => .ok (Subtract.apply lhs rhs)
  | .staticCallable optree argumentNames inherits, _ =>
      .ok (.callable ⟨optree, argumentNames, inherits⟩)
  | .dictionaryInitialize, _ => .ok (.dictionary [])
  | .dictionarySet key, dict :: value :: _ =>
      .ok (DictionarySet.apply key dict value)
  | .dictionaryGet key, dict :: _ => .ok (DictionaryGet.apply key dict)
  | _, _ => .error .assertion

end InterpretedOperation

namespace DynamicInputOperation

def apply : DynamicInputOperation → List Value → Value
  | .dynamicList, values => .dynamicList values
  | .opSequence, values =>
      match values.getLast? with
      | none => .bool false
      | some last => last

end DynamicInputOperation

end NetworkProtocolDsl
