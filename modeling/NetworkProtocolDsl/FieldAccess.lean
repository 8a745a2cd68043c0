/-
What the generated access to a field evaluates to.

An identifier names a variable and a path of members through nested
dictionaries.  Getting a field touches nothing but the pad; setting one
evaluates the value that is set in between.
-/
import NetworkProtocolDsl.EvaluationRules
import NetworkProtocolDsl.Generate

namespace NetworkProtocolDsl

open Generate

theorem bind_eq_ok {ε α β : Type} {e : Except ε α} {f : α → Except ε β} {b : β}
    (h : e >>= f = .ok b) : ∃ a, e = .ok a ∧ f a = .ok b := by
  cases e with
  | error fault => contradiction
  | ok a => exact ⟨a, rfl, h⟩

theorem Generate.orNullopt_eq_ok {α : Type} {o : Option α} {a : α}
    (h : orNullopt o = .ok a) : o = some a := by
  cases o with
  | none => contradiction
  | some b => rw [Except.ok.inj h]

theorem initializeLoopVariable_eq_ok {getType : ExtractTypeClosure}
    {collection loopVariable : String} {operation : OpTreeNode}
    (h : initializeLoopVariable getType collection loopVariable =
      .ok operation) :
    operation = .mk (.lexicalPad (.lexicalPadInitialize loopVariable))
      [.mk (.interpreted .dictionaryInitialize) []] := by
  obtain ⟨type, _, h⟩ := bind_eq_ok h
  split at h
  · obtain ⟨parameter, _, h⟩ := bind_eq_ok h
    split at h
    · split at h
      · exact (Except.ok.inj h).symm
      · contradiction
    · contradiction
  · contradiction

namespace IdentifierReference

/-- The type at the end of a path of members. -/
def memberType (type : DataType) : IdentifierReference → Option DataType
  | .mk name member =>
      match type.parameters.lookup name with
      | some (.type type) =>
          match member with
          | none => some type
          | some member => memberType type member
      | _ => none

def fieldType (getType : ExtractTypeClosure) :
    IdentifierReference → Option DataType
  | .mk name none => getType name
  | .mk name (some member) =>
      (getType name).bind fun type => memberType type member

/-- The value at the end of a path of members. -/
def memberValue (value : Value) : IdentifierReference → Value
  | .mk name none => DictionaryGet.apply name value
  | .mk name (some member) =>
      memberValue (DictionaryGet.apply name value) member

def fieldValue (pad : LexicalPad) : IdentifierReference → Value
  | .mk name none => pad.get name
  | .mk name (some member) => memberValue (pad.get name) member

def lastMember : IdentifierReference → String
  | .mk name none => name
  | .mk _ (some member) => lastMember member

/-- The value that has the last member of a path. -/
def memberHolder (value : Value) : IdentifierReference → Value
  | .mk _ none => value
  | .mk name (some member) =>
      memberHolder (DictionaryGet.apply name value) member

/-- What is stored in the variable when the value of a field was read. -/
def storedValue (pad : LexicalPad) (written : Value) :
    IdentifierReference → Value
  | .mk _ none => written
  | .mk name (some member) =>
      DictionarySet.apply member.lastMember
        (memberHolder (pad.get name) member) written

end IdentifierReference

open IdentifierReference

theorem evaluates_dictionaryGet {eof : Bool} {child : OpTreeNode}
    {w w' : World} {value : Value} (key : String)
    (hchild : child.Evaluates eof w value w') :
    (OpTreeNode.mk (.interpreted (.dictionaryGet key)) [child]).Evaluates eof w
      (DictionaryGet.apply key value) w' :=
  OpTreeNode.evaluates_interpreted_unary rfl hchild rfl

/-- Getting a field evaluates to the field and changes nothing. -/
theorem recursiveVariableAccess_get (eof : Bool) (w : World)
    (identifier : IdentifierReference) {type lastType : DataType}
    {currentAccess lastAccess : OpTreeNode} {value : Value}
    (hcurrent : currentAccess.Evaluates eof w value w)
    (h : recursiveVariableAccess type identifier currentAccess none =
      .ok (lastAccess, lastType)) :
    memberType type identifier = some lastType ∧
      lastAccess.Evaluates eof w (memberValue value identifier) w := by
  match identifier with
  | .mk name member =>
      rw [recursiveVariableAccess.eq_def] at h
      obtain ⟨parameter, hparameter, h⟩ := bind_eq_ok h
      have hlookup := orNullopt_eq_ok hparameter
      cases parameter with
      | boolean _ | integer _ | string _ => contradiction
      | type memberType =>
          simp only [IdentifierReference.memberType, hlookup]
          cases member with
          | none =>
              obtain ⟨rfl, rfl⟩ := Prod.mk.inj (Except.ok.inj h)
              exact ⟨rfl, evaluates_dictionaryGet name hcurrent⟩
          | some member =>
              simp only [memberValue] at h ⊢
              split at h
              · exact recursiveVariableAccess_get eof w member
                  (evaluates_dictionaryGet name hcurrent) h
              · contradiction

/-- Setting a field evaluates the value that is set and puts it into what has
the last member. -/
theorem recursiveVariableAccess_set (eof : Bool) (w : World)
    (identifier : IdentifierReference) {type lastType : DataType}
    {currentAccess lastAccess : OpTreeNode} {value : Value}
    {valueToWrite : GenerateOpTreeValueFromType}
    (hcurrent : currentAccess.Evaluates eof w value w)
    (h : recursiveVariableAccess type identifier currentAccess
      (some valueToWrite) = .ok (lastAccess, lastType)) :
    memberType type identifier = some lastType ∧
      ∃ valueAccess, valueToWrite lastType = .ok valueAccess ∧
        ∀ written w', valueAccess.Evaluates eof w written w' →
          lastAccess.Evaluates eof w (DictionarySet.apply identifier.lastMember
            (memberHolder value identifier) written) w' := by
  match identifier with
  | .mk name member =>
      rw [recursiveVariableAccess.eq_def] at h
      obtain ⟨parameter, hparameter, h⟩ := bind_eq_ok h
      have hlookup := orNullopt_eq_ok hparameter
      cases parameter with
      | boolean _ | integer _ | string _ => contradiction
      | type memberType =>
          simp only [IdentifierReference.memberType, hlookup]
          cases member with
          | none =>
              obtain ⟨valueAccess, haccess, h⟩ := bind_eq_ok h
              obtain ⟨rfl, rfl⟩ := Prod.mk.inj (Except.ok.inj h)
              refine ⟨rfl, valueAccess, haccess, fun written w' hwritten => ?_⟩
              exact OpTreeNode.evaluates_interpreted_binary _ rfl hcurrent
                hwritten rfl
          | some member =>
              simp only at h
              split at h
              · exact recursiveVariableAccess_set eof w member
                  (evaluates_dictionaryGet name hcurrent) h
              · contradiction

/-- The generated read of a field stores its value, yields the old one and
leaves the world as the read of the value does, but for the pad. -/
theorem visitReadOctetsUntilTerminator_stores {getType : ExtractTypeClosure}
    {terminator : Octets} {identifier : IdentifierReference}
    {escape : Option EscapeInfo} {tree : OpTreeNode}
    (h : visitReadOctetsUntilTerminator getType terminator identifier escape =
      .ok tree) :
    ∃ type reader, fieldType getType identifier = some type ∧
      readValueFromOctets type terminator escape = .ok reader ∧
      ∀ {eof : Bool} {w w' : World} {written : Value},
        reader.Evaluates eof w written w' →
          tree.Evaluates eof w (w'.pad.set identifier.name
            (identifier.storedValue w.pad written)).1 { w' with
              pad := (w'.pad.set identifier.name
                (identifier.storedValue w.pad written)).2 } := by
  obtain ⟨type, htype, h⟩ := bind_eq_ok h
  have hlookup := orNullopt_eq_ok htype
  match identifier with
  | .mk name none =>
      obtain ⟨reader, hreader, h⟩ := bind_eq_ok h
      obtain rfl := Except.ok.inj h
      exact ⟨type, reader, hlookup, hreader, fun hwritten =>
        OpTreeNode.evaluates_lexicalPadSet name hwritten⟩
  | .mk name (some member) =>
      obtain ⟨⟨lastAccess, lastType⟩, haccess, h⟩ := bind_eq_ok h
      obtain rfl := Except.ok.inj h
      have hset := fun (eof : Bool) (w : World) =>
        recursiveVariableAccess_set eof w member
          (OpTreeNode.evaluates_lexicalPadGet name) haccess
      obtain ⟨hmember, reader, hreader, _⟩ := hset true ⟨.root [], 0, [], []⟩
      refine ⟨lastType, reader, ?_, hreader, fun {eof w w' written} hwritten =>
        ?_⟩
      · simp only [fieldType]
        rw [show getType name = some type from hlookup, Option.bind_some,
          hmember]
      · obtain ⟨_, reader', hreader', hevaluates⟩ := hset eof w
        obtain rfl := Except.ok.inj (hreader.symm.trans hreader')
        exact OpTreeNode.evaluates_lexicalPadSet name
          (hevaluates written w' hwritten)

/-- The generated read of a field leaves the world as the read of its value
does, but for the pad. -/
theorem visitReadOctetsUntilTerminator_evaluates {getType : ExtractTypeClosure}
    {terminator : Octets} {identifier : IdentifierReference}
    {escape : Option EscapeInfo} {tree : OpTreeNode}
    (h : visitReadOctetsUntilTerminator getType terminator identifier escape =
      .ok tree) :
    ∃ type reader, fieldType getType identifier = some type ∧
      readValueFromOctets type terminator escape = .ok reader ∧
      ∀ {eof : Bool} {w w' : World} {written : Value},
        reader.Evaluates eof w written w' → ∃ result pad,
          tree.Evaluates eof w result { w' with pad := pad } := by
  obtain ⟨type, reader, htype, hreader, hevaluates⟩ :=
    visitReadOctetsUntilTerminator_stores h
  exact ⟨type, reader, htype, hreader, fun hwritten =>
    ⟨_, _, hevaluates hwritten⟩⟩

/-- The generated write of a field writes the value the field has. -/
theorem visitWriteFromIdentifier_evaluates {getType : ExtractTypeClosure}
    {identifier : IdentifierReference} {escape : Option EscapeInfo}
    {tree : OpTreeNode}
    (h : visitWriteFromIdentifier getType identifier escape = .ok tree) :
    ∃ type access, fieldType getType identifier = some type ∧
      writeOctetsFromValue type access escape = .ok tree ∧
      ∀ (eof : Bool) (w : World),
        access.Evaluates eof w (fieldValue w.pad identifier) w := by
  obtain ⟨type, htype, h⟩ := bind_eq_ok h
  have hlookup := orNullopt_eq_ok htype
  match identifier with
  | .mk name none =>
      exact ⟨type, _, hlookup, h, fun eof w =>
        OpTreeNode.evaluates_lexicalPadGet name⟩
  | .mk name (some member) =>
      obtain ⟨⟨lastAccess, lastType⟩, haccess, h⟩ := bind_eq_ok h
      have hget := fun (eof : Bool) (w : World) =>
        recursiveVariableAccess_get eof w member
          (OpTreeNode.evaluates_lexicalPadGet name) haccess
      refine ⟨lastType, lastAccess, ?_, h, fun eof w => (hget eof w).2⟩
      simp only [fieldType]
      rw [show getType name = some type from hlookup, Option.bind_some,
        (hget true ⟨.root [], 0, [], []⟩).1]

end NetworkProtocolDsl
