/-
The descent through the grammar comes to what the parsers of the classes give.

A class and a parser are followed side by side; what the parser rejects the
descent fails on, wherever that leaves it.
-/
import NetworkProtocolDsl.GrammarTable

namespace NetworkProtocolDsl

open Descent RecursiveParser GrammarClass

/-- From what the class has matched the descent comes to this result. -/
def AgreesFrom {α : Type} (n : GrammarClass) (matched : Arguments)
    (build : α → ParseNode) (input : List Token) :
    Option (α × List Token) → Prop
  | some (value, rest) =>
      Descends rule n matched input (some (build value), rest)
  | none => ∃ rest, Descends rule n matched input (none, rest)

/-- On inputs below this length the descent agrees with the parser. -/
def Agrees {α : Type} (length : Nat) (n : GrammarClass)
    (parser : Parser Token α) (build : α → ParseNode) : Prop :=
  ∀ input : List Token, input.length < length →
    AgreesFrom n [] build input (parser input)

section Combinators

variable {α β : Type} {n item : GrammarClass} {items : List GrammarClass}
  {matched : Arguments} {build : α → ParseNode} {buildItem : β → ParseNode}
  {input rest : List Token} {token : Token} {result : Option (α × List Token)}
  {f : β × List Token → Option (α × List Token)}

/-- Whatever the later step comes to the earlier one does. -/
theorem AgreesFrom.of_descends {matched' : Arguments} {input' : List Token}
    (h : AgreesFrom n matched' build input' result)
    (hstep : ∀ outcome, Descends rule n matched' input' outcome →
      Descends rule n matched input outcome) :
    AgreesFrom n matched build input result := by
  cases result with
  | none =>
      obtain ⟨rest, hrest⟩ := h
      exact ⟨rest, hstep _ hrest⟩
  | some result => exact hstep _ h

theorem AgreesFrom.unknown (hrule : rule n matched = .unknown) :
    AgreesFrom n matched build input none :=
  ⟨input, .unknown hrule input⟩

theorem AgreesFrom.fails (hrule : rule n matched = .done none) :
    AgreesFrom n matched build input none :=
  ⟨input, .done hrule input⟩

theorem AgreesFrom.done {value : α}
    (hrule : rule n matched = .done (some (build value))) :
    AgreesFrom n matched build input (some (value, input)) :=
  Descends.done hrule input

/-- The overload may fail as well. -/
theorem AgreesFrom.done_of {value : Option α}
    (hrule : rule n matched = .done (value.map build)) :
    AgreesFrom n matched build input
      (value >>= fun value => some (value, input)) := by
  cases value with
  | none => exact .fails hrule
  | some value => exact .done hrule

theorem AgreesFrom.takes (hrule : rule n matched = .partialMatch)
    (h : AgreesFrom n (matched ++ [.token token]) build rest result) :
    AgreesFrom n matched build (token :: rest) result :=
  h.of_descends fun _ => .takes (Or.inl hrule)

theorem AgreesFrom.takes_other (hrule : rule n matched = .partialMatch)
    (hother : rule n (matched ++ [.token token]) = .unknown) :
    AgreesFrom n matched build (token :: rest) none :=
  .takes hrule (.unknown hother)

theorem AgreesFrom.ends (hrule : rule n matched = .partialMatch)
    (hend : rule n (matched ++ [.endOfInput]) = .unknown) :
    AgreesFrom n matched build [] none :=
  ⟨[], .ends_of_empty (Or.inl hrule) (.unknown hend [])⟩

theorem AgreesFrom.condition {holds : Bool}
    (hrule : rule n matched = .conditionalPartialMatch holds)
    (h : holds = true →
      AgreesFrom n (matched ++ [.token token]) build rest result)
    (hnot : holds = false → result = none) :
    AgreesFrom n matched build (token :: rest) result := by
  cases holds with
  | true => exact (h rfl).of_descends fun _ => .takes (Or.inr hrule)
  | false =>
      rw [hnot rfl]
      exact ⟨_, .condition_fails hrule token rest⟩

theorem AgreesFrom.condition_ends {holds : Bool}
    (hrule : rule n matched = .conditionalPartialMatch holds)
    (hend : rule n (matched ++ [.endOfInput]) = .unknown) :
    AgreesFrom n matched build [] none :=
  ⟨[], .ends_of_empty (Or.inr ⟨holds, hrule⟩) (.unknown hend [])⟩

/-- One token is looked for. -/
theorem AgreesFrom.expects (token : Token)
    {f : List Token → Option (α × List Token)}
    (hrule : rule n matched = .partialMatch)
    (hend : rule n (matched ++ [.endOfInput]) = .unknown)
    (hother : ∀ other, other = token ∨
      rule n (matched ++ [.token other]) = .unknown)
    (h : ∀ rest, rest.length < input.length →
      AgreesFrom n (matched ++ [.token token]) build rest (f rest)) :
    AgreesFrom n matched build input (expect token input >>= f) := by
  cases input with
  | nil => exact .ends hrule hend
  | cons head rest =>
      by_cases hhead : head = token
      · subst hhead
        rw [expect_cons]
        exact .takes hrule (h rest (Nat.lt_succ_self _))
      · rw [expect, if_neg hhead]
        exact .takes_other hrule ((hother head).resolve_left hhead)

theorem AgreesFrom.length_lt {value : β}
    (h : AgreesFrom item [] buildItem input (some (value, rest))) :
    rest.length < input.length :=
  rule_ranked.consumes_of_descends h

/-- Another class is looked for. -/
theorem AgreesFrom.one {parser : Parser Token β}
    (hrule : rule n matched = .recurseOne item)
    (hitem : AgreesFrom item [] buildItem input (parser input))
    (h : ∀ value rest, rest.length < input.length →
      AgreesFrom n (matched ++ [.node (buildItem value)]) build rest
        (f (value, rest))) :
    AgreesFrom n matched build input (parser input >>= f) := by
  cases hparser : parser input with
  | none =>
      rw [hparser] at hitem
      obtain ⟨rest, hrest⟩ := hitem
      exact ⟨rest, .one_fails hrule hrest⟩
  | some found =>
      obtain ⟨value, rest⟩ := found
      rw [hparser] at hitem
      exact (h value rest hitem.length_lt).of_descends
        fun _ => .one hrule hitem

theorem AgreesFrom.maybe_some {value : β}
    (hrule : rule n matched = .recurseMaybe item)
    (hitem : AgreesFrom item [] buildItem input (some (value, rest)))
    (h : AgreesFrom n (matched ++ [.node (buildItem value)]) build rest
      result) : AgreesFrom n matched build input result :=
  h.of_descends fun _ => .maybe hrule hitem

theorem AgreesFrom.maybe_none
    (hrule : rule n matched = .recurseMaybe item)
    (hitem : AgreesFrom item [] buildItem input none)
    (h : AgreesFrom n (matched ++ [.nothing]) build input result) :
    AgreesFrom n matched build input result := by
  obtain ⟨rest, hrest⟩ := hitem
  exact h.of_descends fun _ => .maybe_fails hrule hrest

theorem AgreesFrom.mapNode {parser : Parser Token β} {g : β → α}
    (h : AgreesFrom n [] buildItem input (parser input))
    (hbuild : ∀ value, build (g value) = buildItem value) :
    AgreesFrom n [] build input (mapNode g parser input) := by
  cases hparser : parser input with
  | none =>
      rw [hparser] at h
      rw [mapNode_of_none g hparser]
      exact h
  | some found =>
      rw [hparser] at h
      rw [mapNode_of_some g hparser, AgreesFrom, hbuild]
      exact h

/-- The first of the classes comes to this result, or none of them does. -/
def TriesAgree (items : List GrammarClass) (build : α → ParseNode)
    (input : List Token) : Option (α × List Token) → Prop
  | some (value, rest) => Tries rule items input (some (build value), rest)
  | none => ∃ rest, Tries rule items input (none, rest)

theorem TriesAgree.last {parser : Parser Token α}
    (h : AgreesFrom item [] build input (parser input)) :
    TriesAgree [item] build input (anyOf [parser] input) := by
  cases hparser : parser input with
  | none =>
      rw [hparser] at h
      rw [anyOf_of_none [] hparser]
      obtain ⟨rest, hrest⟩ := h
      exact ⟨rest, Tries.last hrest⟩
  | some found =>
      rw [hparser] at h
      rw [anyOf_of_some [] hparser]
      exact Tries.last h

theorem TriesAgree.cons (hne : items ≠ []) {parser : Parser Token α}
    {parsers : List (Parser Token α)}
    (h : AgreesFrom item [] build input (parser input))
    (hrest : TriesAgree items build input (anyOf parsers input)) :
    TriesAgree (item :: items) build input
      (anyOf (parser :: parsers) input) := by
  cases hparser : parser input with
  | none =>
      rw [anyOf_of_none parsers hparser]
      rw [hparser] at h
      obtain ⟨first, hfirst⟩ := h
      cases hanyOf : anyOf parsers input with
      | none =>
          rw [hanyOf] at hrest
          obtain ⟨rest, hrest⟩ := hrest
          exact ⟨rest, Tries.later hfirst hne hrest⟩
      | some found =>
          rw [hanyOf] at hrest
          exact Tries.later hfirst hne hrest
  | some found =>
      rw [anyOf_of_some parsers hparser]
      rw [hparser] at h
      exact Tries.first h items

/-- What the first of the classes gives is turned into a node of this class. -/
theorem AgreesFrom.any {convert : α → ParseNode}
    (hrule : rule n matched = .recurseAny items)
    (hitems : TriesAgree items convert input result)
    (hdone : ∀ value, rule n (matched ++ [.node (convert value)]) =
      .done (some (build value))) :
    AgreesFrom n matched build input result := by
  cases result with
  | none =>
      obtain ⟨rest, hrest⟩ := hitems
      exact ⟨rest, .any_fails hrule hrest⟩
  | some found =>
      exact Descends.any hrule hitems (.done (hdone found.1) found.2)

/-- The repetition of the descent and that of the parser look for the same
separator. -/
inductive Separators :
    Option (Token → Bool) → (List Token → Option (List Token)) → Prop where
  | none : Separators none some
  | token (token : Token) :
      Separators (some fun other => other = token) (expect token)

theorem Separators.afterItem_eq {isSeparator : Option (Token → Bool)}
    {separator : List Token → Option (List Token)}
    (h : Separators isSeparator separator) {rest : List Token}
    (hne : rest ≠ []) : afterItem isSeparator rest = separator rest := by
  cases rest with
  | nil => contradiction
  | cons head rest =>
      cases h with
      | none => rfl
      | token token => simp [afterItem, expect]

/-- The repetition finds what the parser finds. -/
theorem repeats_many {isSeparator : Option (Token → Bool)}
    {separator : List Token → Option (List Token)}
    (hseparators : Separators isSeparator separator)
    {parser : Parser Token β} {length : Nat}
    (hitem : Agrees length item parser buildItem)
    (input : List Token) (hlength : input.length < length) :
    Repeats rule item isSeparator input
        ((many separator parser input).1.map buildItem)
        (many separator parser input).2 ∧
      ((many separator parser input).1 = [] ∧
          (many separator parser input).2 = input ∨
        (many separator parser input).1 ≠ [] ∧
          (many separator parser input).2.length < input.length) := by
  induction input using many.induct separator parser with
  | case1 input hnone =>
      rw [many_of_none hnone]
      have hfails := hitem input hlength
      rw [hnone] at hfails
      obtain ⟨rest, hrest⟩ := hfails
      exact ⟨.stop hrest, Or.inl ⟨rfl, rfl⟩⟩
  | case2 input node rest hsome hseparator =>
      rw [many_last hsome hseparator]
      have hfound := hitem input hlength
      rw [hsome] at hfound
      have hlt := hfound.length_lt
      have hne : input ≠ [] := by
        rintro rfl
        contradiction
      refine ⟨.last hne hfound ?_, Or.inr ⟨List.cons_ne_nil _ _, hlt⟩⟩
      by_cases hempty : rest = []
      · subst hempty
        rfl
      · rw [hseparators.afterItem_eq hempty, hseparator]
  | case3 input node rest hsome next hseparator hnext ih =>
      rw [many_step hsome hseparator hnext]
      have hfound := hitem input hlength
      rw [hsome] at hfound
      have hlt := hfound.length_lt
      have hne : input ≠ [] := by
        rintro rfl
        contradiction
      obtain ⟨hrepeats, hcases⟩ := ih (hnext.trans hlength)
      have hshorter : (many separator parser next).2.length <
          input.length := by
        rcases hcases with ⟨_, hrest⟩ | ⟨_, hrest⟩
        · rw [hrest]
          exact hnext
        · exact hrest.trans hnext
      refine ⟨?_, Or.inr ⟨List.cons_ne_nil _ _, hshorter⟩⟩
      by_cases hempty : rest = []
      · subst hempty
        -- only the empty separator finds something behind the last token
        cases hseparators with
        | token token => contradiction
        | none =>
            obtain rfl := Option.some.inj hseparator
            have hnone : parser [] = none := by
              cases hparser : parser [] with
              | none => rfl
              | some found =>
                  have hfound := hitem [] (by omega)
                  rw [hparser] at hfound
                  exact absurd hfound.length_lt (Nat.not_lt_zero _)
            rw [many_of_none hnone]
            exact .last hne hfound rfl
      · exact .cons hne hfound
          ((hseparators.afterItem_eq hempty).trans hseparator) hrepeats
  | case4 input node rest hsome next hseparator hnext =>
      have hfound := hitem input hlength
      rw [hsome] at hfound
      have hlt := hfound.length_lt
      have hle : next.length ≤ rest.length := by
        cases hseparators with
        | none =>
            obtain rfl := Option.some.inj hseparator
            exact Nat.le_refl _
        | token token => exact (length_of_expect hseparator).le
      omega

/-- As many as there are of another class are looked for, at least one. -/
theorem AgreesFrom.many {isSeparator : Option (Token → Bool)}
    {separator : List Token → Option (List Token)}
    (hseparators : Separators isSeparator separator)
    {parser : Parser Token β}
    {f : List β × List Token → Option (α × List Token)}
    (hrule : rule n matched = .recurseMany item isSeparator)
    (hitem : Agrees (input.length + 1) item parser buildItem)
    (hempty : AgreesFrom n (matched ++ [.nodes []]) build input none)
    (h : ∀ values rest, values ≠ [] → rest.length < input.length →
      AgreesFrom n (matched ++ [.nodes (values.map buildItem)]) build rest
        (f (values, rest))) :
    AgreesFrom n matched build input
      (atLeastOne separator parser input >>= f) := by
  obtain ⟨hrepeats, hcases⟩ :=
    repeats_many hseparators hitem input (Nat.lt_succ_self _)
  rw [atLeastOne]
  cases hmany : RecursiveParser.many separator parser input with
  | mk values rest =>
      rw [hmany] at hrepeats hcases
      cases values with
      | nil =>
          obtain ⟨_, rfl⟩ := hcases.resolve_right fun h => h.1 rfl
          exact hempty.of_descends fun _ => .many hrule hrepeats
      | cons value values =>
          obtain ⟨_, hlt⟩ := hcases.resolve_left fun h =>
            List.cons_ne_nil value values h.1
          exact (h (value :: values) rest (List.cons_ne_nil _ _)
            hlt).of_descends fun _ => .many hrule hrepeats

end Combinators

theorem commonNodes_map {α : Type} (view : ParseNode → Option α)
    (build : α → ParseNode) (hview : ∀ value, view (build value) = some value)
    {values : List α} (hne : values ≠ []) :
    commonNodes view (values.map build) = some values := by
  have hmap : ∀ values : List α, (values.map build).mapM view =
      some values := by
    intro values
    induction values with
    | nil => rfl
    | cons value values ih =>
        rw [List.map_cons, List.mapM_cons, hview, ih]
        rfl
  rw [commonNodes, if_neg (by simpa using hne), hmap]

/-- The node of a type parameter's value. -/
def TypeParameterValue.node : TypeParameterValue → ParseNode
  | .boolean value => .booleanLiteral value
  | .integer value => .integerLiteral value
  | .string value => .stringLiteral value
  | .type value => .type value

def TokenPart.node : TokenPart → ParseNode
  | .stringLiteral value => .stringLiteral value
  | .identifierReference reference => .identifierReference reference

def MessagePart.node : MessagePart → ParseNode
  | .tokenSequence sequence => .tokenSequence sequence
  | .terminator value => .terminator value
  | .messageForLoop loopVariable collection block value =>
      .messageForLoop (.messageForLoop loopVariable collection block value)

def TokenSequenceOptionValue.node : TokenSequenceOptionValue → ParseNode
  | .string value => .stringLiteral value
  | .escapeReplacement value => .escapeReplacement value

namespace Parse

section Literals

variable (length : Nat)

theorem booleanLiteral_agrees :
    Agrees length .booleanLiteral booleanLiteral .booleanLiteral := by
  intro input _
  cases input with
  | nil => exact .ends rfl rfl
  | cons token rest =>
      cases token with
      | boolean value => exact .takes rfl (.done rfl)
      | _ => exact .takes_other rfl rfl

theorem integerLiteral_agrees :
    Agrees length .integerLiteral integerLiteral .integerLiteral := by
  intro input _
  cases input with
  | nil => exact .ends rfl rfl
  | cons token rest =>
      cases token with
      | integer value => exact .takes rfl (.done rfl)
      | _ => exact .takes_other rfl rfl

theorem stringLiteral_agrees :
    Agrees length .stringLiteral stringLiteral .stringLiteral := by
  intro input _
  cases input with
  | nil => exact .ends rfl rfl
  | cons token rest =>
      cases token with
      | string value => exact .takes rfl (.done rfl)
      | _ => exact .takes_other rfl rfl

end Literals

/-- A dot and a reference. -/
def identifierMemberAccess : Parser Token IdentifierReference
  | .dot :: rest => identifierReference rest
  | _ => none

theorem identifierReference_cons (name : String) (rest : List Token) :
    identifierReference (.identifier name :: rest) =
      match identifierMemberAccess rest with
      | some (member, last) => some (.mk name (some member), last)
      | none => some (.mk name none, rest) := by
  cases rest with
  | nil => rfl
  | cons token rest =>
      cases token with
      | dot =>
          cases hmember : identifierReference rest <;>
            simp only [identifierReference, identifierMemberAccess, hmember]
      | _ => rfl

theorem identifierMemberAccess_agrees {length : Nat}
    (h : Agrees length .identifierReference identifierReference
      .identifierReference) :
    Agrees (length + 1) .identifierMemberAccess identifierMemberAccess
      .identifierReference := by
  intro input hlength
  cases input with
  | nil => exact .ends rfl rfl
  | cons token rest =>
      cases token with
      | dot =>
          have hrest : AgreesFrom .identifierMemberAccess [.token .dot]
              .identifierReference rest (identifierReference rest >>= some) :=
            .one rfl (h rest (Nat.lt_of_succ_lt_succ hlength))
              fun value last _ => .done rfl
          rw [Option.bind_eq_bind, Option.bind_fun_some] at hrest
          exact .takes rfl hrest
      | _ => exact .takes_other rfl rfl

theorem identifierReference_agrees (length : Nat) :
    Agrees length .identifierReference identifierReference
      .identifierReference := by
  induction length with
  | zero => exact fun input h => absurd h (Nat.not_lt_zero _)
  | succ length ih =>
      intro input hlength
      cases input with
      | nil => exact .ends rfl rfl
      | cons token rest =>
          cases token with
          | identifier name =>
              refine .takes rfl ?_
              have hmember := identifierMemberAccess_agrees ih rest
                (Nat.lt_of_succ_lt hlength)
              rw [identifierReference_cons]
              cases haccess : identifierMemberAccess rest with
              | none =>
                  rw [haccess] at hmember
                  exact .maybe_none rfl hmember (.done rfl)
              | some found =>
                  rw [haccess] at hmember
                  exact .maybe_some rfl hmember (.done rfl)
          | _ => exact .takes_other rfl rfl

section DataType

variable {length : Nat} (h : Agrees length .type dataType .type)

include h

theorem typeParameterValue_agrees :
    Agrees length .typeParameterValue (typeParameterValue dataType)
      TypeParameterValue.node := by
  intro input hlength
  have hitems : TriesAgree
      [.type, .booleanLiteral, .stringLiteral, .integerLiteral]
      TypeParameterValue.node input (typeParameterValue dataType input) :=
    .cons (List.cons_ne_nil _ _) ((h input hlength).mapNode fun _ => rfl)
      (.cons (List.cons_ne_nil _ _)
        ((booleanLiteral_agrees length input hlength).mapNode fun _ => rfl)
        (.cons (List.cons_ne_nil _ _)
          ((stringLiteral_agrees length input hlength).mapNode fun _ => rfl)
          (.last
            ((integerLiteral_agrees length input hlength).mapNode
              fun _ => rfl))))
  refine .any rfl hitems fun value => ?_
  cases value <;> rfl

theorem typeParameter_agrees :
    Agrees length .typeParameter (typeParameter dataType)
      .typeParameterPair := by
  intro input hlength
  rcases input with _ | ⟨token, rest⟩
  · exact .ends rfl rfl
  cases token <;> try exact .takes_other rfl rfl
  rename_i name
  refine .takes rfl ?_
  rcases rest with _ | ⟨token, rest⟩
  · exact .ends rfl rfl
  cases token <;> try exact .takes_other rfl rfl
  simp only [List.length_cons] at hlength
  refine .takes rfl (.one rfl (typeParameterValue_agrees h rest (by omega))
    fun value last _ => .done ?_)
  cases value <;> rfl

theorem typeParameters_agrees :
    Agrees length .typeParameters (typeParameters dataType)
      .typeParameterMap := by
  intro input hlength
  rcases input with _ | ⟨token, rest⟩
  · exact .ends rfl rfl
  cases token <;> try exact .takes_other rfl rfl
  simp only [List.length_cons] at hlength
  have hitem : Agrees (rest.length + 1) .typeParameter
      (typeParameter dataType) .typeParameterPair :=
    fun input hinput => typeParameter_agrees h input (by omega)
  refine .takes rfl (.many (.token .comma) rfl hitem ?_ fun values last hne _ =>
    .expects .angleBracketClose rfl rfl ?_ fun _ _ => .done ?_)
  · rcases rest with _ | ⟨token, rest⟩
    · exact .ends rfl rfl
    · cases token <;> exact .takes_other rfl rfl
  · intro other
    cases other <;> first | exact Or.inl rfl | exact Or.inr rfl
  · change matchNode _ = _
    rw [commonNodes_map ParseNode.typeParameterPair? .typeParameterPair
      (fun _ => rfl) hne]
    rfl

end DataType

theorem type_agrees (length : Nat) : Agrees length .type dataType .type := by
  induction length with
  | zero => exact fun input h => absurd h (Nat.not_lt_zero _)
  | succ length ih =>
      intro input hlength
      rw [dataType_eq]
      rcases input with _ | ⟨token, rest⟩
      · exact .ends rfl rfl
      cases token <;> try exact .takes_other rfl rfl
      refine .takes rfl ?_
      have hparameters := typeParameters_agrees ih rest
        (Nat.lt_of_succ_lt_succ hlength)
      rw [dataTypeLayer]
      cases hsome : typeParameters dataType rest with
      | none =>
          rw [hsome] at hparameters
          rw [maybe_of_none hsome]
          exact .maybe_none rfl hparameters (.done rfl)
      | some found =>
          rw [hsome] at hparameters
          rw [maybe_of_some hsome]
          exact .maybe_some rfl hparameters (.done rfl)

theorem messageDataPair_agrees (length : Nat) :
    Agrees length .messageDataPair messageDataPair .messageDataPair := by
  intro input hlength
  rcases input with _ | ⟨token, rest⟩
  · exact .ends rfl rfl
  cases token <;> try exact .takes_other rfl rfl
  refine .takes rfl ?_
  rcases rest with _ | ⟨token, rest⟩
  · exact .ends rfl rfl
  cases token <;> try exact .takes_other rfl rfl
  refine .takes rfl (.one rfl (type_agrees _ rest (Nat.lt_succ_self _))
    fun value last _ =>
      .expects .statementEnd rfl rfl ?_ fun _ _ => .done rfl)
  intro other
  cases other <;> first | exact Or.inl rfl | exact Or.inr rfl

theorem messageData_of_ne {name : String} (hname : name ≠ "data")
    (rest : List Token) : messageData (.identifier name :: rest) = none := by
  unfold messageData
  split
  · rename_i hinput
    cases hinput
    rw [guard, if_neg hname]
    rfl
  · rfl

theorem messageData_data (rest : List Token) :
    messageData (.identifier "data" :: .keyValueSeparator ::
        .curlyBraceOpen :: rest) =
      atLeastOne some messageDataPair rest >>= fun found =>
        expect .curlyBraceClose found.2 >>= fun last =>
          some (Assoc.ofPairs found.1, last) := by
  rw [messageData, guard, if_pos rfl]
  rfl

theorem messageData_agrees (length : Nat) :
    Agrees length .messageData messageData .messageData := by
  intro input _
  rcases input with _ | ⟨token, rest⟩
  · exact .ends rfl rfl
  cases token <;> try exact .takes_other rfl rfl
  rename_i name
  refine .takes rfl ?_
  rcases rest with _ | ⟨token, rest⟩
  · exact .condition_ends rfl rfl
  refine .condition rfl (fun hholds => ?_) fun hholds =>
    messageData_of_ne (of_decide_eq_false hholds) _
  obtain rfl := of_decide_eq_true hholds
  cases token <;> try exact .unknown rfl
  rcases rest with _ | ⟨token, rest⟩
  · exact .ends rfl rfl
  cases token <;> try exact .takes_other rfl rfl
  rw [messageData_data]
  refine .takes rfl (.many .none rfl (messageDataPair_agrees _) (.unknown rfl)
    fun values last hne _ => ?_)
  have hnodes := commonNodes_map ParseNode.messageDataPair? .messageDataPair
    (fun _ => rfl) hne
  refine .expects .curlyBraceClose ?_ rfl ?_ fun _ _ => .done ?_
  · change partialMatchIf _ = _
    rw [hnodes]
    rfl
  · intro other
    cases other <;> first | exact Or.inl rfl | exact Or.inr rfl
  · change matchNode _ = _
    rw [hnodes]
    rfl

theorem tokenPart_agrees (length : Nat) :
    Agrees length .tokenPart tokenPart .tokenPart := by
  intro input hlength
  have hitems : TriesAgree [.stringLiteral, .identifierReference]
      TokenPart.node input (tokenPart input) :=
    .cons (List.cons_ne_nil _ _)
      ((stringLiteral_agrees length input hlength).mapNode fun _ => rfl)
      (.last ((identifierReference_agrees length input hlength).mapNode
        fun _ => rfl))
  refine .any rfl hitems fun value => ?_
  cases value <;> rfl

theorem escapeReplacement_of_ne {name : String} (hname : name ≠ "replace")
    (rest : List Token) :
    escapeReplacement (.identifier name :: rest) = none := by
  unfold escapeReplacement
  split
  · rename_i hinput
    cases hinput
    rw [guard, if_neg hname]
    rfl
  · rfl

theorem escapeReplacement_replace (character sequence : Octets)
    (rest : List Token) :
    escapeReplacement (.identifier "replace" :: .angleBracketOpen ::
        .string character :: .comma :: .string sequence ::
        .angleBracketClose :: rest) =
      some (⟨character, sequence⟩, rest) := by
  rw [escapeReplacement, guard, if_pos rfl]
  rfl

theorem escapeReplacement_agrees (length : Nat) :
    Agrees length .escapeReplacement escapeReplacement .escapeReplacement := by
  intro input _
  rcases input with _ | ⟨token, rest⟩
  · exact .ends rfl rfl
  cases token <;> try exact .takes_other rfl rfl
  rename_i name
  refine .takes rfl ?_
  rcases rest with _ | ⟨token, rest⟩
  · exact .condition_ends rfl rfl
  refine .condition rfl (fun hholds => ?_) fun hholds =>
    escapeReplacement_of_ne (of_decide_eq_false hholds) _
  obtain rfl := of_decide_eq_true hholds
  cases token <;> try exact .unknown rfl
  rcases rest with _ | ⟨token, rest⟩
  · exact .ends rfl rfl
  cases token <;> try exact .takes_other rfl rfl
  refine .takes rfl ?_
  rcases rest with _ | ⟨token, rest⟩
  · exact .ends rfl rfl
  cases token <;> try exact .takes_other rfl rfl
  refine .takes rfl ?_
  rcases rest with _ | ⟨token, rest⟩
  · exact .ends rfl rfl
  cases token <;> try exact .takes_other rfl rfl
  refine .takes rfl ?_
  rcases rest with _ | ⟨token, rest⟩
  · exact .ends rfl rfl
  cases token <;> try exact .takes_other rfl rfl
  rw [escapeReplacement_replace]
  exact .takes rfl (.done rfl)

theorem tokenSequenceOptionValue_agrees (length : Nat) :
    Agrees length .tokenSequenceOptionValue tokenSequenceOptionValue
      .tokenSequenceOptionValue := by
  intro input hlength
  have hitems : TriesAgree [.stringLiteral, .escapeReplacement]
      TokenSequenceOptionValue.node input (tokenSequenceOptionValue input) :=
    .cons (List.cons_ne_nil _ _)
      ((stringLiteral_agrees length input hlength).mapNode fun _ => rfl)
      (.last ((escapeReplacement_agrees length input hlength).mapNode
        fun _ => rfl))
  refine .any rfl hitems fun value => ?_
  cases value <;> rfl

theorem tokenSequenceOption_agrees (length : Nat) :
    Agrees length .tokenSequenceOption tokenSequenceOption
      .tokenSequenceOptionPair := by
  intro input _
  have hvalue := fun rest : List Token =>
    tokenSequenceOptionValue_agrees _ rest (Nat.lt_succ_self _)
  rcases input with _ | ⟨token, rest⟩
  · exact .ends rfl rfl
  cases token <;> try exact .takes_other rfl rfl
  case identifier name =>
    refine .takes rfl ?_
    rcases rest with _ | ⟨token, rest⟩
    · exact .ends rfl rfl
    cases token <;> try exact .takes_other rfl rfl
    exact .takes rfl (.one rfl (hvalue rest) fun _ _ _ => .done rfl)
  case keywordTerminator =>
    refine .takes rfl ?_
    rcases rest with _ | ⟨token, rest⟩
    · exact .ends rfl rfl
    cases token <;> try exact .takes_other rfl rfl
    exact .takes rfl (.one rfl (hvalue rest) fun _ _ _ => .done rfl)

theorem tokenSequenceOptions_agrees (length : Nat) :
    Agrees length .tokenSequenceOptions tokenSequenceOptions
      .tokenSequenceOptionsMap := by
  intro input _
  rcases input with _ | ⟨token, rest⟩
  · exact .ends rfl rfl
  cases token <;> try exact .takes_other rfl rfl
  refine .takes rfl (.many (.token .comma) rfl (tokenSequenceOption_agrees _)
    ?_ fun values last hne _ =>
    .expects .angleBracketClose rfl rfl ?_ fun _ _ => .done ?_)
  · rcases rest with _ | ⟨token, rest⟩
    · exact .ends rfl rfl
    · cases token <;> exact .takes_other rfl rfl
  · intro other
    cases other <;> first | exact Or.inl rfl | exact Or.inr rfl
  · change matchNode _ = _
    rw [commonNodes_map ParseNode.tokenSequenceOptionPair?
      .tokenSequenceOptionPair (fun _ => rfl) hne]
    rfl

/-- What a sequence has matched of its options. -/
def matchedOptions : Option TokenSequenceOptionsMap → Matched Token ParseNode
  | none => .nothing
  | some options => .node (.tokenSequenceOptionsMap options)

/-- With or without options the parts are the same. -/
theorem tokenSequence_agreesFrom (options : Option TokenSequenceOptionsMap)
    (input : List Token) :
    AgreesFrom .tokenSequence [.token .keywordTokens, matchedOptions options]
      .tokenSequence input
      (expect .curlyBraceOpen input >>= fun rest =>
        atLeastOne some tokenPart rest >>= fun found =>
          expect .curlyBraceClose found.2 >>= fun last =>
            some (⟨found.1, options.bind TokenSequenceOptionsMap.terminator,
              options.bind TokenSequenceOptionsMap.escape⟩, last)) := by
  refine .expects .curlyBraceOpen (by cases options <;> rfl)
    (by cases options <;> rfl) ?_ fun rest _ =>
    .many .none (by cases options <;> rfl) (tokenPart_agrees _)
      (.unknown (by cases options <;> rfl)) fun values last hne _ => ?_
  · intro other
    cases options <;> cases other <;>
      first | exact Or.inl rfl | exact Or.inr rfl
  have hnodes := commonNodes_map ParseNode.tokenPart? .tokenPart
    (fun _ => rfl) hne
  refine .expects .curlyBraceClose ?_ (by cases options <;> rfl) ?_
    fun _ _ => .done ?_
  · cases options
    all_goals
      change partialMatchIf _ = _
      rw [hnodes]
      rfl
  · intro other
    cases options <;> cases other <;>
      first | exact Or.inl rfl | exact Or.inr rfl
  · cases options
    all_goals
      change matchNode _ = _
      rw [hnodes]
      rfl

theorem tokenSequence_agrees (length : Nat) :
    Agrees length .tokenSequence tokenSequence .tokenSequence := by
  intro input _
  rcases input with _ | ⟨token, rest⟩
  · exact .ends rfl rfl
  cases token <;> try exact .takes_other rfl rfl
  refine .takes rfl ?_
  have hoptions := tokenSequenceOptions_agrees _ rest (Nat.lt_succ_self _)
  rw [tokenSequence]
  cases hsome : tokenSequenceOptions rest with
  | none =>
      rw [hsome] at hoptions
      rw [maybe_of_none hsome]
      exact .maybe_none rfl hoptions (tokenSequence_agreesFrom none rest)
  | some found =>
      rw [hsome] at hoptions
      rw [maybe_of_some hsome]
      exact .maybe_some rfl hoptions
        (tokenSequence_agreesFrom (some found.1) found.2)

theorem terminator_agrees (length : Nat) :
    Agrees length .terminator terminator .terminator := by
  intro input _
  rcases input with _ | ⟨token, rest⟩
  · exact .ends rfl rfl
  cases token <;> try exact .takes_other rfl rfl
  refine .takes rfl ?_
  rcases rest with _ | ⟨token, rest⟩
  · exact .ends rfl rfl
  cases token <;> try exact .takes_other rfl rfl
  refine .takes rfl (.one rfl (stringLiteral_agrees _ rest
    (Nat.lt_succ_self _)) fun _ _ _ =>
      .expects .curlyBraceClose rfl rfl ?_ fun _ _ => .done rfl)
  intro other
  cases other <;> first | exact Or.inl rfl | exact Or.inr rfl

section MessageSequence

variable {length : Nat}
  (h : Agrees length .messageSequence messageSequence .messageSequence)

include h

theorem messageForLoop_agrees :
    Agrees (length + 1) .messageForLoop (messageForLoop messageSequence)
      MessagePart.node := by
  intro input hlength
  rcases input with _ | ⟨token, rest⟩
  · exact .ends rfl rfl
  cases token <;> try exact .takes_other rfl rfl
  simp only [List.length_cons] at hlength
  refine .takes rfl ?_
  have hoptions := tokenSequenceOptions_agrees _ rest (Nat.lt_succ_self _)
  rw [messageForLoop]
  cases hsome : tokenSequenceOptions rest with
  | some found =>
      rw [hsome] at hoptions
      rw [maybe_of_some hsome]
      exact .maybe_some rfl hoptions (.unknown rfl)
  | none =>
      rw [hsome] at hoptions
      rw [maybe_of_none hsome]
      have hreference := fun rest : List Token =>
        identifierReference_agrees _ rest (Nat.lt_succ_self _)
      refine .maybe_none rfl hoptions (.one rfl (hreference rest)
        fun loopVariable rest₁ h₁ => .expects .keywordIn rfl rfl ?_
        fun rest₂ h₂ => .one rfl (hreference rest₂)
        fun collection rest₃ h₃ => .expects .curlyBraceOpen rfl rfl ?_
        fun rest₄ h₄ => .one rfl (h rest₄ (by omega))
        fun block rest₅ h₅ => .expects .curlyBraceClose rfl rfl ?_
        fun _ _ => .done rfl)
      all_goals
        intro other
        cases other <;> first | exact Or.inl rfl | exact Or.inr rfl

theorem messagePart_agrees :
    Agrees (length + 1) .messagePart (messagePart messageSequence)
      .messagePart := by
  intro input hlength
  have hitems : TriesAgree [.tokenSequence, .terminator, .messageForLoop]
      MessagePart.node input (messagePart messageSequence input) :=
    .cons (List.cons_ne_nil _ _)
      ((tokenSequence_agrees _ input hlength).mapNode fun _ => rfl)
      (.cons (List.cons_ne_nil _ _)
        ((terminator_agrees _ input hlength).mapNode fun _ => rfl)
        (.last (messageForLoop_agrees h input hlength)))
  refine .any rfl hitems fun value => ?_
  cases value <;> rfl

end MessageSequence

theorem messageSequence_agrees (length : Nat) :
    Agrees length .messageSequence messageSequence .messageSequence := by
  induction length with
  | zero => exact fun input h => absurd h (Nat.not_lt_zero _)
  | succ length ih =>
      intro input hlength
      have hitem : Agrees (input.length + 1) .messagePart
          (messagePart messageSequence) .messagePart :=
        fun input' hinput => messagePart_agrees ih input' (by omega)
      have hsequence : AgreesFrom .messageSequence [] .messageSequence input
          (atLeastOne some (messagePart messageSequence) input >>= some) := by
        refine .many .none rfl hitem (.unknown rfl)
          fun values rest hne _ => .done ?_
        change matchNode _ = _
        rw [commonNodes_map ParseNode.messagePart? .messagePart
          (fun _ => rfl) hne]
        rfl
      rw [Option.bind_eq_bind, Option.bind_fun_some] at hsequence
      rw [messageSequence_eq]
      exact hsequence

theorem messageParts_agrees (length : Nat) :
    Agrees length .messageParts messageParts .messageSequence := by
  intro input _
  rcases input with _ | ⟨token, rest⟩
  · exact .ends rfl rfl
  cases token <;> try exact .takes_other rfl rfl
  refine .takes rfl ?_
  rcases rest with _ | ⟨token, rest⟩
  · exact .ends rfl rfl
  cases token <;> try exact .takes_other rfl rfl
  refine .takes rfl (.one rfl (messageSequence_agrees _ rest
    (Nat.lt_succ_self _)) fun _ _ _ =>
      .expects .curlyBraceClose rfl rfl ?_ fun _ _ => .done rfl)
  intro other
  cases other <;> first | exact Or.inl rfl | exact Or.inr rfl

theorem message_agrees (length : Nat) :
    Agrees length .message message .message := by
  intro input _
  rcases input with _ | ⟨token, rest⟩
  · exact .ends rfl rfl
  cases token <;> try exact .takes_other rfl rfl
  refine .takes rfl (.one rfl (stringLiteral_agrees _ rest
    (Nat.lt_succ_self _)) fun name rest _ =>
      .expects .curlyBraceOpen rfl rfl ?_ fun rest _ =>
      .many .none rfl (messageDataPair_agrees _) (.unknown rfl)
      fun attributes rest hne _ => ?_)
  · intro other
    cases other <;> first | exact Or.inl rfl | exact Or.inr rfl
  have hnodes := commonNodes_map ParseNode.messageDataPair? .messageDataPair
    (fun _ => rfl) hne
  have hdata := messageData_agrees _ rest (Nat.lt_succ_self _)
  cases hsome : messageData rest with
  | none =>
      rw [hsome] at hdata
      dsimp only
      rw [maybe_of_none hsome]
      refine .maybe_none ?_ hdata
        (.expects .curlyBraceClose ?_ rfl ?_ fun rest _ => .done_of ?_)
      · change ite _ _ _ = _
        rw [hnodes]
        rfl
      · change partialMatchIf _ = _
        rw [hnodes]
        rfl
      · intro other
        cases other <;> first | exact Or.inl rfl | exact Or.inr rfl
      · simp [rule, messageRule, hnodes]
  | some found =>
      rw [hsome] at hdata
      dsimp only
      rw [maybe_of_some hsome]
      refine .maybe_some ?_ hdata
        (.one ?_ (messageParts_agrees _ found.2 (Nat.lt_succ_self _))
        fun parts rest _ =>
        .expects .curlyBraceClose ?_ rfl ?_ fun rest _ => .done_of ?_)
      · change ite _ _ _ = _
        rw [hnodes]
        rfl
      · change ite _ _ _ = _
        rw [hnodes]
        rfl
      · change partialMatchIf _ = _
        rw [hnodes]
        rfl
      · intro other
        cases other <;> first | exact Or.inl rfl | exact Or.inr rfl
      · simp [rule, messageRule, hnodes]

theorem protocolDescription_agrees (length : Nat) :
    Agrees length .protocolDescription protocolDescription
      .protocolDescription := by
  intro input _
  refine .many .none rfl (message_agrees _) (.unknown rfl)
    fun values rest hne _ => .done ?_
  change matchNode _ = _
  rw [commonNodes_map ParseNode.message? .message
    (fun _ => rfl) hne]
  rfl

end Parse

/-- What `parse` returns for where the descent has come to. -/
def descriptionOf : Outcome Token ParseNode → Option ProtocolDescription
  | (some (.protocolDescription description), []) => some description
  | _ => none

/-- The descent of a whole protocol gives what `parse` does. -/
theorem parse_eq_descriptionOf {tokens : List Token}
    {outcome : Outcome Token ParseNode}
    (h : Descends rule .protocolDescription [] tokens outcome) :
    parse tokens = descriptionOf outcome := by
  have hagrees := Parse.protocolDescription_agrees _ tokens
    (Nat.lt_succ_self _)
  rw [parse]
  cases hparser : Parse.protocolDescription tokens with
  | none =>
      rw [hparser] at hagrees
      obtain ⟨rest, hrest⟩ := hagrees
      rw [h.unique hrest]
      rfl
  | some found =>
      obtain ⟨description, rest⟩ := found
      rw [hparser] at hagrees
      rw [h.unique hagrees]
      cases rest <;> rfl

/-- The descent ends on all tokens, and what `parse` returns is what it comes
to; no class is entered again and no loop goes on before a token was consumed.
-/
theorem parse_terminates (tokens : List Token) :
    (∃ fuel outcome,
      descend rule fuel .protocolDescription [] tokens = some outcome ∧
        parse tokens = descriptionOf outcome) ∧
      (∀ n start input,
        Relation.TransGen (Enters rule) (n, start) (n, input) →
          input.length < start.length) ∧
      ∀ n matched item separator,
        rule n matched = .recurseMany item separator →
          ∀ input node rest, Descends rule item [] input (some node, rest) →
            rest.length < input.length := by
  obtain ⟨outcome, houtcome⟩ :=
    rule_ranked.ends .protocolDescription [] tokens
  refine ⟨?_, fun n start input => rule_ranked.length_lt_of_reenters,
    fun n matched item separator _ input node rest =>
      rule_ranked.consumes_of_descends⟩
  obtain ⟨fuel, hfuel⟩ := houtcome
  exact ⟨fuel, outcome, hfuel, parse_eq_descriptionOf ⟨fuel, hfuel⟩⟩

end NetworkProtocolDsl
