/-
Reading into a member of a variable.

The generated read puts the value into the dictionary that has the last member
and stores that dictionary in the variable.  The dictionaries around it are not
rebuilt, so the variable keeps its other members just when the path has a single
one.
-/
import NetworkProtocolDsl.GenerateRejection
import NetworkProtocolDsl.IntegerRoundTrip

namespace NetworkProtocolDsl

open Generate IdentifierReference

namespace Value

/-- The value at the end of a path of members, if every value on the way is a
dictionary that has the next one. -/
def at? : List String → Value → Option Value
  | [], value => some value
  | name :: names, .dictionary members => (members.lookup name).bind (at? names)
  | _ :: _, _ => none

theorem at?_cons_eq_some {name : String} {names : List String}
    {value inner : Value} :
    value.at? (name :: names) = some inner ↔ ∃ members child,
      value = .dictionary members ∧ members.lookup name = some child ∧
        child.at? names = some inner := by
  cases value <;> simp [at?, Option.bind_eq_some_iff]

theorem at?_append (names names' : List String) (value : Value) :
    value.at? (names ++ names') = (value.at? names).bind (at? names') := by
  induction names generalizing value with
  | nil => rfl
  | cons name names ih =>
      cases value with
      | dictionary members =>
          cases hlookup : members.lookup name <;> simp [at?, hlookup, ih]
      | bool _ | int32 _ | callable _ | runtimeError _
      | controlFlowInstruction _ | dynamicList _ | octets _ => rfl

theorem sizeOf_lt_of_lookup {name : String} {members : List (String × Value)}
    {child : Value} (h : members.lookup name = some child) :
    sizeOf child < sizeOf (Value.dictionary members) := by
  have hmem := List.sizeOf_lt_of_mem (Assoc.mem_of_lookup h)
  simp only [Prod.mk.sizeOf_spec] at hmem
  simp only [dictionary.sizeOf_spec]
  omega

theorem sizeOf_le_of_at? {names : List String} {value inner : Value}
    (h : value.at? names = some inner) : sizeOf inner ≤ sizeOf value := by
  induction names generalizing value with
  | nil => rw [Option.some.inj h]
  | cons name names ih =>
      obtain ⟨members, child, rfl, hlookup, hchild⟩ := at?_cons_eq_some.mp h
      have hlt := sizeOf_lt_of_lookup hlookup
      have hle := ih hchild
      omega

/-- No value contains itself. -/
theorem at?_ne_self {names : List String} (hne : names ≠ []) (value : Value) :
    value.at? names ≠ some value := by
  intro h
  obtain ⟨name, names, rfl⟩ := List.exists_cons_of_ne_nil hne
  obtain ⟨members, child, rfl, hlookup, hchild⟩ := at?_cons_eq_some.mp h
  have hlt := sizeOf_lt_of_lookup hlookup
  have hle := sizeOf_le_of_at? hchild
  omega

end Value

namespace IdentifierReference

/-- The names of an identifier from the first on. -/
def path : IdentifierReference → List String
  | .mk name none => [name]
  | .mk name (some member) => name :: path member

/-- The names before the last one. -/
def holderPath : IdentifierReference → List String
  | .mk _ none => []
  | .mk name (some member) => name :: holderPath member

theorem path_eq (identifier : IdentifierReference) :
    identifier.path = identifier.holderPath ++ [identifier.lastMember] := by
  match identifier with
  | .mk name none => rfl
  | .mk name (some member) =>
      rw [path, holderPath, lastMember, List.cons_append, ← path_eq member]

theorem memberHolder_eq {identifier : IdentifierReference}
    {value holder : Value}
    (h : value.at? identifier.holderPath = some holder) :
    memberHolder value identifier = holder := by
  match identifier with
  | .mk name none => exact Option.some.inj h
  | .mk name (some member) =>
      obtain ⟨members, child, rfl, hlookup, hchild⟩ :=
        Value.at?_cons_eq_some.mp h
      rw [memberHolder, DictionaryGet.apply, hlookup]
      exact memberHolder_eq hchild

theorem memberValue_eq {identifier : IdentifierReference}
    {value inner : Value} (h : value.at? identifier.path = some inner) :
    memberValue value identifier = inner := by
  match identifier with
  | .mk name none =>
      obtain ⟨members, child, rfl, hlookup, hchild⟩ :=
        Value.at?_cons_eq_some.mp h
      rw [memberValue, DictionaryGet.apply, hlookup]
      exact Option.some.inj hchild
  | .mk name (some member) =>
      obtain ⟨members, child, rfl, hlookup, hchild⟩ :=
        Value.at?_cons_eq_some.mp h
      rw [memberValue, DictionaryGet.apply, hlookup]
      exact memberValue_eq hchild

theorem holderPath_prefix (identifier : IdentifierReference) :
    identifier.holderPath <+: identifier.path ∧
      identifier.holderPath ≠ identifier.path := by
  rw [path_eq]
  exact ⟨List.prefix_append _ _, by simp⟩

end IdentifierReference

/-- The value is at the end of the path, and what is at the end of the other
paths is what was there. -/
structure UpdatesPath (before after : Value) (path : List String)
    (value : Value) : Prop where
  found : after.at? path = some value
  kept : ∀ other, ¬ other <+: path → ¬ path <+: other →
    after.at? other = before.at? other

/-- A dictionary without an entry for the name that gets one. -/
theorem updatesPath_overwrite (name : String) (value : Value)
    (members : List (String × Value)) :
    UpdatesPath (.dictionary members)
      (.dictionary (Assoc.overwrite name value members)) [name] value := by
  refine ⟨?_, fun other hother hpath => ?_⟩
  · simp [Value.at?]
  · cases other with
    | nil => exact absurd List.nil_prefix hother
    | cons first rest =>
        have hne : first ≠ name := by
          rintro rfl
          exact hpath ⟨rest, rfl⟩
        simp [Value.at?, Assoc.lookup_overwrite_ne hne]

/-- The dictionary that has the last member does not stand for the one around
it, which would be one of its own members. -/
theorem not_updatesPath_holder {before value : Value} {first last : String}
    {names : List String} {members : List (String × Value)}
    (hholder : before.at? (first :: names) = some (.dictionary members)) :
    ¬ UpdatesPath before (.dictionary (Assoc.overwrite last value members))
      (first :: (names ++ [last])) value := by
  rintro ⟨hfound, hkept⟩
  obtain ⟨_, child, hdictionary, hlookup, hchild⟩ :=
    Value.at?_cons_eq_some.mp hfound
  obtain rfl := Value.dictionary.inj hdictionary
  by_cases hname : first = last
  · subst hname
    rw [Assoc.lookup_overwrite_self] at hlookup
    obtain rfl := Option.some.inj hlookup
    exact Value.at?_ne_self (by simp) value hchild
  · rw [Assoc.lookup_overwrite_ne hname] at hlookup
    have hother : first :: (names ++ [first]) ≠
        first :: (names ++ [last]) := by
      simpa using hname
    have hlength : (first :: (names ++ [first])).length =
        (first :: (names ++ [last])).length := by
      simp
    have hsame := hkept (first :: (names ++ [first]))
      (fun h => hother (h.eq_of_length hlength))
      (fun h => hother (h.eq_of_length hlength.symm).symm)
    have hbefore : before.at? (first :: (names ++ [first])) = some child := by
      rw [← List.cons_append, Value.at?_append, hholder]
      simp [Value.at?, hlookup]
    have hafter : (Value.dictionary (Assoc.overwrite last value members)).at?
        (first :: (names ++ [first])) = child.at? (names ++ [first]) := by
      simp [Value.at?, Assoc.lookup_overwrite_ne hname, hlookup]
    rw [hbefore, hafter] at hsame
    exact Value.at?_ne_self (by simp) child hsame

/-- The path of an identifier behind its first name. -/
theorem updatesPath_storedValue_iff {before value : Value}
    {member : IdentifierReference} {members : List (String × Value)}
    (hholder : before.at? member.holderPath = some (.dictionary members)) :
    UpdatesPath before (DictionarySet.apply member.lastMember
        (memberHolder before member) value) member.path value ↔
      member.member = none ∧ ∀ e, value ≠ .runtimeError e := by
  rw [memberHolder_eq hholder, path_eq]
  by_cases herror : ∃ e, value = .runtimeError e
  · obtain ⟨e, rfl⟩ := herror
    refine iff_of_false ?_ fun h => h.2 e rfl
    intro h
    have hfound := h.found
    cases hpath : member.holderPath <;>
      simp [hpath, DictionarySet.apply, Value.at?] at hfound
  · have hvalue : ∀ e, value ≠ .runtimeError e := fun e he => herror ⟨e, he⟩
    have hset : DictionarySet.apply member.lastMember (.dictionary members)
        value = .dictionary
          (Assoc.overwrite member.lastMember value members) := by
      cases value with
      | runtimeError e => exact absurd rfl (hvalue e)
      | bool _ | int32 _ | callable _ | dictionary _
      | controlFlowInstruction _ | dynamicList _ | octets _ => rfl
    rw [hset]
    match member with
    | .mk name none =>
        obtain rfl := Option.some.inj hholder
        exact iff_of_true (updatesPath_overwrite name value members)
          ⟨rfl, hvalue⟩
    | .mk name (some member) =>
        refine iff_of_false (not_updatesPath_holder hholder) fun h => ?_
        cases h.1

/-- The operation that takes the octets of a field. -/
def fieldReader (type : DataType) (terminator : Octets)
    (escape : Option EscapeInfo) : InputOutputOperation :=
  if type.name.name = "int" then .readIntFromAscii
  else .readOctetsUntilTerminator terminator escape

theorem readValueFromOctets_eq_ok {type : DataType} {terminator : Octets}
    {escape : Option EscapeInfo} {reader : OpTreeNode}
    (h : readValueFromOctets type terminator escape = .ok reader) :
    ∃ children, reader =
      .mk (.inputOutput (fieldReader type terminator escape)) children := by
  unfold readValueFromOctets at h
  unfold fieldReader
  split_ifs at h ⊢
  · exact ⟨_, (Except.ok.inj h).symm⟩
  · exact ⟨_, (Except.ok.inj h).symm⟩

/-- The read of a field takes these octets from the input queue and makes a
value of them. -/
inductive TakesField (type : DataType) (terminator : Octets)
    (escape : Option EscapeInfo) (eof : Bool) (w : World) (octets : Octets)
    (value : Value) : World → Prop where
  | intro {report : HandleBlockedResult} {input : List Octets}
      {ctx ctx' : InputOutputOperationContext} {errno : Errno} :
      (fieldReader type terminator escape).readQueue {} eof w.input =
        .ok (report, ctx, input) →
      ctx.ready = true → ctx.buffer = octets →
      (fieldReader type terminator escape).apply ctx [] w.errno =
        .ok ⟨.value value, ctx', errno⟩ →
      TakesField type terminator escape eof w octets value
        { w with input := input, errno := errno }

section Takes

variable {type : DataType} {terminator octets : Octets}
  {escape : Option EscapeInfo} {eof : Bool} {w w' : World} {value : Value}

theorem TakesField.evaluates
    (h : TakesField type terminator escape eof w octets value w')
    (children : List OpTreeNode) :
    (OpTreeNode.mk (.inputOutput (fieldReader type terminator escape))
      children).Evaluates eof w value w' := by
  obtain ⟨hqueue, _, _, happly⟩ := h
  have harity : (fieldReader type terminator escape).arity = 0 := by
    unfold fieldReader
    split_ifs <;> rfl
  have hwaits : (fieldReader type terminator escape).readyToEvaluate {} =
      false := by
    unfold fieldReader
    split_ifs <;> rfl
  exact OpTreeNode.evaluates_readQueue harity hwaits hqueue happly

theorem TakesField.pad_eq
    (h : TakesField type terminator escape eof w octets value w') :
    w'.pad = w.pad := by
  cases h
  rfl

/-- The octets are what the value is, but for an integer. -/
theorem TakesField.octets_of_not_int
    (h : TakesField type terminator escape eof w octets value w')
    (hint : type.name.name ≠ "int") : value = .octets octets := by
  obtain ⟨_, hready, hbuffer, happly⟩ := h
  rw [fieldReader, if_neg hint] at happly
  simp only [InputOutputOperation.apply, ReadOctetsUntilTerminator.apply,
    hready, ↓reduceIte, hbuffer] at happly
  have hresult := congrArg Evaluation.result (Except.ok.inj happly)
  exact (OperationResult.value.inj hresult).symm

/-- An integer is what `strtol` makes of the octets. -/
theorem TakesField.apply_of_int
    (h : TakesField type terminator escape eof w octets value w')
    (hint : type.name.name = "int") :
    (ReadIntFromAscii.apply { buffer := octets, ready := true }
      w.errno).1 = .value value := by
  obtain @⟨_, _, ctx, _, _, _, hready, hbuffer, happly⟩ := h
  rw [fieldReader, if_pos hint] at happly
  have hresult : (ReadIntFromAscii.apply ctx w.errno).1 = .value value :=
    congrArg Evaluation.result (Except.ok.inj happly)
  rw [← hresult]
  simp only [ReadIntFromAscii.apply, hready, ↓reduceIte, hbuffer]

end Takes

/-- The octets are the notation of an integer that is read as that integer. -/
def IsNotation (octets : Octets) (errno : Errno) : Prop :=
  ∃ n : Int32, IntToAscii.apply (.int32 n) = .octets octets ∧
    (n = 0 ∨ errno ≠ ERANGE)

/-- The number that is read depends on `errno`, unless it is zero. -/
theorem ReadIntFromAscii.eq_zero_or_errno {octets : Octets} {errno : Errno}
    {n : Int32} (h : (apply { buffer := octets, ready := true } errno).1 =
      .value (.int32 n)) : n = 0 ∨ errno ≠ ERANGE := by
  by_contra hnot
  obtain ⟨hne, rfl⟩ := not_or.mp hnot |>.imp_right not_not.mp
  have hstrtol : (strtol octets ERANGE).2 = ERANGE := by
    unfold strtol
    simp only
    split_ifs <;> rfl
  simp only [apply, ↓reduceIte, hstrtol, true_or] at h
  split_ifs at h
  · exact hne (Value.int32.inj (OperationResult.value.inj h)).symm
  · cases h
  · cases h

/-- The write of the field hands these octets to the operation that writes. -/
def WritesBack (getType : ExtractTypeClosure)
    (identifier : IdentifierReference) (escape : Option EscapeInfo)
    (pad : LexicalPad) (octets : Octets) : Prop :=
  ∃ contents, visitWriteFromIdentifier getType identifier escape =
      .ok (.mk (writeOctetsOperation escape) [contents]) ∧
    ∀ (eof : Bool) (w : World), w.pad = pad →
      contents.Evaluates eof w (.octets octets) w

/-- The variable has the value at the path, what was there at all other paths,
and the write of the path writes the octets. -/
structure ReadsInto (getType : ExtractTypeClosure) (name : String)
    (member : IdentifierReference) (escape : Option EscapeInfo)
    (before : Value) (pad : LexicalPad) (octets : Octets) (value : Value) :
    Prop where
  updates : UpdatesPath before (pad.get name) member.path value
  writesBack : WritesBack getType (.mk name (some member)) escape pad octets

/-- The octets that stand for the value of a field. -/
def fieldContents (type : DataType) (value : Value) : Value :=
  if type.name.name = "int" then IntToAscii.apply value else value

theorem ne_runtimeError_of_fieldContents {type : DataType} {value : Value}
    {octets : Octets} (h : fieldContents type value = .octets octets)
    (e : RuntimeError) : value ≠ .runtimeError e := by
  rintro rfl
  unfold fieldContents at h
  split_ifs at h
  cases h

/-- What is read stands for the octets it is made of, but for integers in
another notation than their own. -/
theorem TakesField.fieldContents_iff {type : DataType}
    {terminator octets : Octets} {escape : Option EscapeInfo} {eof : Bool}
    {w w' : World} {value : Value}
    (h : TakesField type terminator escape eof w octets value w') :
    fieldContents type value = .octets octets ↔
      (type.name.name = "int" → IsNotation octets w.errno) := by
  unfold fieldContents
  split_ifs with hint
  · have happly := h.apply_of_int hint
    simp only [hint, forall_const]
    constructor
    · intro hcontents
      cases value with
      | int32 n =>
          exact ⟨n, hcontents, ReadIntFromAscii.eq_zero_or_errno happly⟩
      | bool _ | callable _ | dictionary _ | runtimeError _
      | controlFlowInstruction _ | dynamicList _ | octets _ => cases hcontents
    · rintro ⟨n, htext, herrno⟩
      rw [ReadIntFromAscii.apply_intToAscii htext herrno] at happly
      obtain rfl := OperationResult.value.inj happly
      exact htext
  · exact iff_of_true (h.octets_of_not_int hint) fun h => absurd h hint

section WritesBack

variable {getType : ExtractTypeClosure} {identifier : IdentifierReference}
  {terminator octets : Octets} {escape : Option EscapeInfo} {type : DataType}
  {pad : LexicalPad}

/-- A field that can be read can be written, as what its value stands for. -/
theorem visitWriteFromIdentifier_of_read
    (hread : Succeeds (visitReadOctetsUntilTerminator getType terminator
      identifier escape))
    (htype : fieldType getType identifier = some type) :
    ∃ contents, visitWriteFromIdentifier getType identifier escape =
        .ok (.mk (writeOctetsOperation escape) [contents]) ∧
      ∀ (eof : Bool) (w : World), contents.Evaluates eof w
        (fieldContents type (fieldValue w.pad identifier)) w := by
  obtain ⟨tree, htree⟩ := succeeds_visitWriteFromIdentifier.mpr
    (succeeds_visitReadOctetsUntilTerminator.mp hread)
  obtain ⟨type', access, htype', hwrite, haccess⟩ :=
    visitWriteFromIdentifier_evaluates htree
  obtain rfl := Option.some.inj (htype.symm.trans htype')
  rw [htree]
  unfold writeOctetsFromValue at hwrite
  unfold fieldContents
  split_ifs at hwrite ⊢
  · obtain rfl := Except.ok.inj hwrite
    exact ⟨_, rfl, fun eof w =>
      OpTreeNode.evaluates_interpreted_unary rfl (haccess eof w) rfl⟩
  · obtain rfl := Except.ok.inj hwrite
    exact ⟨_, rfl, haccess⟩

theorem writesBack_iff
    (hread : Succeeds (visitReadOctetsUntilTerminator getType terminator
      identifier escape))
    (htype : fieldType getType identifier = some type) :
    WritesBack getType identifier escape pad octets ↔
      fieldContents type (fieldValue pad identifier) = .octets octets := by
  obtain ⟨contents, hwrite, hevaluates⟩ :=
    visitWriteFromIdentifier_of_read hread htype
  constructor
  · rintro ⟨contents', hwrite', hevaluates'⟩
    have hnode := Except.ok.inj (hwrite.symm.trans hwrite')
    obtain rfl := (List.cons.inj (OpTreeNode.mk.inj hnode).2).1
    exact ((hevaluates true ⟨pad, 0, [], []⟩).unique
      (hevaluates' true ⟨pad, 0, [], []⟩ rfl)).1
  · intro hcontents
    refine ⟨contents, hwrite, fun eof w hpad => ?_⟩
    rw [← hcontents, ← hpad]
    exact hevaluates eof w

end WritesBack

section ReadsInto

variable {getType : ExtractTypeClosure} {name : String}
  {member : IdentifierReference} {terminator : Octets}
  {escape : Option EscapeInfo} {tree : OpTreeNode} {type : DataType}
  {eof : Bool} {w w' : World} {octets : Octets} {value : Value}

/-- The pad that the read of a member leaves. -/
def padAfterRead (pad : LexicalPad) (name : String)
    (member : IdentifierReference) (value : Value) : LexicalPad :=
  (pad.set name (storedValue pad value (.mk name (some member)))).2

/-- The generated read of a field stores what was taken. -/
theorem TakesField.evaluates_visitRead
    (htree : visitReadOctetsUntilTerminator getType terminator
      (.mk name (some member)) escape = .ok tree)
    (htype : fieldType getType (.mk name (some member)) = some type)
    (htakes : TakesField type terminator escape eof w octets value w') :
    ∃ result, tree.Evaluates eof w result
      { w' with pad := padAfterRead w.pad name member value } := by
  obtain ⟨type', reader, htype', hreader, hevaluates⟩ :=
    visitReadOctetsUntilTerminator_stores htree
  obtain rfl := Option.some.inj (htype.symm.trans htype')
  obtain ⟨children, rfl⟩ := readValueFromOctets_eq_ok hreader
  have hresult := hevaluates (htakes.evaluates children)
  rw [htakes.pad_eq] at hresult
  exact ⟨_, hresult⟩

theorem readsInto_padAfterRead_iff
    (htree : visitReadOctetsUntilTerminator getType terminator
      (.mk name (some member)) escape = .ok tree)
    (htype : fieldType getType (.mk name (some member)) = some type)
    (hdictionaries : ∀ names, names <+: member.path → names ≠ member.path →
      ∃ members, (w.pad.get name).at? names = some (.dictionary members))
    (htakes : TakesField type terminator escape eof w octets value w') :
    ReadsInto getType name member escape (w.pad.get name)
        (padAfterRead w.pad name member value) octets value ↔
      member.member = none ∧
        (type.name.name = "int" → IsNotation octets w.errno) := by
  obtain ⟨hpre, hproper⟩ := holderPath_prefix member
  obtain ⟨members, hholder⟩ := hdictionaries _ hpre hproper
  have hbound : w.pad.get name ≠ .runtimeError .nameError := by
    intro h
    rw [h] at hholder
    cases hnames : member.holderPath <;> rw [hnames] at hholder <;>
      cases hholder
  have hget : (padAfterRead w.pad name member value).get name =
      DictionarySet.apply member.lastMember
        (memberHolder (w.pad.get name) member) value :=
    LexicalPad.get_set_of_bound hbound _
  have hupdates := @updatesPath_storedValue_iff _ value _ _ hholder
  rw [← hget] at hupdates
  have hwrites := fun pad => @writesBack_iff _ _ _ octets _ _ pad
    ⟨tree, htree⟩ htype
  rw [← htakes.fieldContents_iff]
  constructor
  · rintro ⟨hup, hback⟩
    have hvalue := memberValue_eq hup.found
    have hcontents := (hwrites _).mp hback
    rw [fieldValue, hvalue] at hcontents
    exact ⟨(hupdates.mp hup).1, hcontents⟩
  · rintro ⟨hsingle, hcontents⟩
    have hup := hupdates.mpr
      ⟨hsingle, ne_runtimeError_of_fieldContents hcontents⟩
    refine ⟨hup, (hwrites _).mpr ?_⟩
    exact (congrArg (fieldContents type) (memberValue_eq hup.found)).trans
      hcontents

/-- The read of a field updates the path it is for, and the path can be written
back, just when it has a single member; of an integer field the octets have to
be a notation that is read as what it stands for. -/
theorem visitReadOctetsUntilTerminator_readsInto_iff
    (htree : visitReadOctetsUntilTerminator getType terminator
      (.mk name (some member)) escape = .ok tree)
    (htype : fieldType getType (.mk name (some member)) = some type)
    (hdictionaries : ∀ names, names <+: member.path → names ≠ member.path →
      ∃ members, (w.pad.get name).at? names = some (.dictionary members))
    (htakes : TakesField type terminator escape eof w octets value w') :
    ∃ result pad, tree.Evaluates eof w result { w' with pad := pad } ∧
      (ReadsInto getType name member escape (w.pad.get name) pad octets value ↔
        member.member = none ∧
          (type.name.name = "int" → IsNotation octets w.errno)) := by
  obtain ⟨result, hresult⟩ := htakes.evaluates_visitRead htree htype
  exact ⟨result, _, hresult,
    readsInto_padAfterRead_iff htree htype hdictionaries htakes⟩

end ReadsInto

def strType : DataType := .mk (.mk "str" none) []

/-- `tuple<b=str>`. -/
def innerType : DataType := .mk (.mk "tuple" none) [("b", .type strType)]

/-- `tuple<a=tuple<b=str>>`. -/
def outerType : DataType := .mk (.mk "tuple" none) [("a", .type innerType)]

theorem takesField_line (pad : LexicalPad) : TakesField strType [10] none
    false ⟨pad, 0, [[49, 10]], []⟩ [49] (.octets [49]) ⟨pad, 0, [], []⟩ :=
  .intro rfl rfl rfl rfl

theorem visitReadOctetsUntilTerminator_readsInto_iff_single :
    ∃ tree, visitReadOctetsUntilTerminator (extractType [("x", innerType)])
        [10] (.mk "x" (some (.mk "b" none))) none = .ok tree ∧
      ∃ result pad, tree.Evaluates false
          ⟨.root [("x", .dictionary [])], 0, [[49, 10]], []⟩ result
          ⟨pad, 0, [], []⟩ ∧
        (ReadsInto (extractType [("x", innerType)]) "x" (.mk "b" none) none
            (.dictionary []) pad [49] (.octets [49]) ↔
          (IdentifierReference.mk "b" none).member = none ∧
            (strType.name.name = "int" → IsNotation [49] 0)) := by
  obtain ⟨tree, htree⟩ := (@succeeds_visitReadOctetsUntilTerminator
    (extractType [("x", innerType)]) [10] (.mk "x" (some (.mk "b" none)))
    none).mpr ⟨innerType, strType, rfl, rfl, Or.inr rfl⟩
  refine ⟨tree, htree, ?_⟩
  refine visitReadOctetsUntilTerminator_readsInto_iff htree rfl ?_
    (takesField_line _)
  intro names hnames hne
  rcases List.prefix_cons_iff.mp hnames with rfl | ⟨rest, rfl, hrest⟩
  · exact ⟨[], rfl⟩
  · rw [List.prefix_nil.mp hrest] at hne
    exact absurd rfl hne

/-- Reading `x.a.b` leaves no `x.a`. -/
theorem nested_member_not_readsInto :
    ¬ ∀ (getType : ExtractTypeClosure) (name : String)
      (member : IdentifierReference) (terminator : Octets)
      (escape : Option EscapeInfo) (tree : OpTreeNode) (type : DataType)
      (eof : Bool) (w w' : World) (octets : Octets) (value : Value),
      visitReadOctetsUntilTerminator getType terminator
          (.mk name (some member)) escape = .ok tree →
        fieldType getType (.mk name (some member)) = some type →
        (∀ names, names <+: member.path → names ≠ member.path →
          ∃ members,
            (w.pad.get name).at? names = some (.dictionary members)) →
        TakesField type terminator escape eof w octets value w' →
        ∃ result pad, tree.Evaluates eof w result { w' with pad := pad } ∧
          ReadsInto getType name member escape (w.pad.get name) pad octets
            value := by
  intro h
  obtain ⟨tree, htree⟩ := (@succeeds_visitReadOctetsUntilTerminator
    (extractType [("x", outerType)]) [10]
    (.mk "x" (some (.mk "a" (some (.mk "b" none))))) none).mpr
      ⟨outerType, strType, rfl, rfl, Or.inr rfl⟩
  have hdictionaries : ∀ names, names <+: ["a", "b"] → names ≠ ["a", "b"] →
      ∃ members, (Value.dictionary [("a", .dictionary [])]).at? names =
        some (.dictionary members) := by
    intro names hnames hne
    rcases List.prefix_cons_iff.mp hnames with rfl | ⟨rest, rfl, hrest⟩
    · exact ⟨_, rfl⟩
    · rcases List.prefix_cons_iff.mp hrest with rfl | ⟨last, rfl, hlast⟩
      · exact ⟨[], rfl⟩
      · rw [List.prefix_nil.mp hlast] at hne
        exact absurd rfl hne
  have htakes := takesField_line (.root [("x", .dictionary [("a",
    .dictionary [])])])
  obtain ⟨result, pad, hevaluates, hreads⟩ := h _ _ _ _ _ _ _ _ _ _ _ _ htree
    rfl (by exact hdictionaries) htakes
  obtain ⟨result', hevaluates'⟩ := htakes.evaluates_visitRead htree rfl
  have hpad := congrArg World.pad (hevaluates.unique hevaluates').2
  simp only at hpad
  rw [hpad] at hreads
  have hsingle := (readsInto_padAfterRead_iff htree rfl
    (by exact hdictionaries) htakes).mp hreads
  cases hsingle.1

end NetworkProtocolDsl
