/-
When the names in the emitted code are names, and tell apart what they name.
-/
import NetworkProtocolDsl.GeneratedStateMachine
import NetworkProtocolDsl.SingleMessage

namespace NetworkProtocolDsl

namespace TypeMapping

/-- The letters and digits of a name, word by word. -/
def words (name : Octets) : List Octets :=
  (name.splitOnP isSeparator).map fun word => word.filter isAlnum

/-- A word with its first letter in upper case. -/
def capitalized : Octets → Octets
  | [] => []
  | c :: rest => toUpper c :: rest

theorem not_isAlnum_of_isSeparator {c : UInt8} (h : isSeparator c = true) :
    isAlnum c = false := by
  simp only [isSeparator, Bool.or_eq_true, decide_eq_true_eq] at h
  rcases h with (rfl | rfl) | rfl <;> decide

theorem words_cons {c : UInt8} (h : ¬ isSeparator c = true) (name : Octets) :
    words (c :: name) = (words name).modifyHead fun word =>
      if isAlnum c then c :: word else word := by
  obtain ⟨word, others, hsplit⟩ := List.exists_cons_of_ne_nil
    (List.splitOnP_ne_nil isSeparator name)
  rw [words, words, List.splitOnP_cons_eq_if_modifyHead, if_neg h, hsplit,
    List.modifyHead_cons, List.map_cons, List.map_cons, List.modifyHead_cons,
    List.filter_cons]

/-- The loop capitalizes the words, except for the rest of one it is in. -/
theorem appendCharacters_eq (name : Octets) :
    ∃ word others, words name = word :: others ∧
      appendCharacters true name = capitalized word ++
        others.flatMap capitalized ∧
      appendCharacters false name = word ++ others.flatMap capitalized := by
  induction name with
  | nil => exact ⟨[], [], rfl, rfl, rfl⟩
  | cons c name ih =>
      obtain ⟨word, others, hwords, htrue, hfalse⟩ := ih
      by_cases hseparator : isSeparator c = true
      · refine ⟨[], word :: others, ?_, ?_, ?_⟩
        · rw [words, List.splitOnP_cons_eq_if_modifyHead, if_pos hseparator,
            List.map_cons, ← words, hwords]
          rfl
        · rw [appendCharacters, if_pos hseparator, htrue]
          rfl
        · rw [appendCharacters, if_pos hseparator, htrue]
          rfl
      · have hsplit := words_cons hseparator name
        rw [hwords, List.modifyHead_cons] at hsplit
        by_cases halnum : isAlnum c = true
        · rw [if_pos halnum] at hsplit
          refine ⟨_, _, hsplit, ?_, ?_⟩
          · rw [appendCharacters, if_neg hseparator, if_pos halnum, hfalse]
            rfl
          · rw [appendCharacters, if_neg hseparator, if_pos halnum, hfalse]
            rfl
        · rw [if_neg halnum] at hsplit
          refine ⟨_, _, hsplit, ?_, ?_⟩
          · rw [appendCharacters, if_neg hseparator, if_neg halnum, htrue]
          · rw [appendCharacters, if_neg hseparator, if_neg halnum, hfalse]

/-- A message is named by its words, each with its first letter in upper
case. -/
theorem messageNameToIdentifier_eq (name : Octets) :
    messageNameToIdentifier name = (words name).flatMap capitalized := by
  obtain ⟨word, others, hwords, htrue, _⟩ := appendCharacters_eq name
  rw [messageNameToIdentifier, htrue, hwords, List.flatMap_cons]

theorem head?_messageNameToIdentifier (name : Octets) :
    (messageNameToIdentifier name).head? =
      (name.find? isAlnum).map toUpper := by
  rw [messageNameToIdentifier]
  induction name with
  | nil => rfl
  | cons c name ih =>
      rw [appendCharacters]
      by_cases hseparator : isSeparator c = true
      · rw [if_pos hseparator, ih, List.find?_cons,
          not_isAlnum_of_isSeparator hseparator]
      · rw [if_neg hseparator, List.find?_cons]
        cases halnum : isAlnum c with
        | true => simp
        | false => simpa using ih

theorem isDigit_toUpper {b : UInt8} (h : isAlnum b = true) :
    isDigit (toUpper b) = false ↔ isLetterByte b = true := by
  rw [isAlnum, Bool.or_eq_true] at h
  cases hletter : isLetterByte b with
  | true =>
      have hdigit : isDigit (toUpper b) = false := by
        simp only [isLetterByte, isDigit, toUpper, Bool.or_eq_true,
          Bool.and_eq_true, Bool.and_eq_false_iff, decide_eq_true_eq,
          decide_eq_false_iff_not, UInt8.le_iff_toNat_le] at *
        split_ifs with hlower
        · rw [UInt8.toNat_sub_of_le _ _ (by
            rw [UInt8.le_iff_toNat_le]
            exact le_trans (by decide) hlower.1)]
          simp at *
          omega
        · simp at *
          omega
      simp [hdigit]
  | false =>
      have hdigit := h.resolve_left (by simp [hletter])
      have hupper : toUpper b = b := by
        rw [toUpper, if_neg]
        intro hlower
        simp [isLetterByte, hlower] at hletter
      simp [hupper, hdigit]

/-- The identifier of a message is a name if the first letter or digit of its
name is a letter. -/
theorem valid_messageNameToIdentifier_iff (name : Octets) :
    (∃ b rest, messageNameToIdentifier name = b :: rest ∧
        isDigit b = false) ↔
      ∃ b, name.find? isAlnum = some b ∧ isLetterByte b = true := by
  have hhead := head?_messageNameToIdentifier name
  constructor
  · rintro ⟨b, rest, hname, hdigit⟩
    rw [hname, List.head?_cons] at hhead
    obtain ⟨c, hc, rfl⟩ := Option.map_eq_some_iff.mp hhead.symm
    exact ⟨c, hc, (isDigit_toUpper (List.find?_some hc)).mp hdigit⟩
  · rintro ⟨c, hc, hletter⟩
    rw [hc, Option.map_some] at hhead
    obtain ⟨rest, hrest⟩ := List.head?_eq_some_iff.mp hhead
    exact ⟨toUpper c, rest, hrest,
      (isDigit_toUpper (List.find?_some hc)).mpr hletter⟩

/-- The identifier of a state is a name if any character is kept. -/
theorem valid_stateNameToIdentifier_iff (name : String) :
    (∃ c rest, (stateNameToIdentifier name).toList = c :: rest ∧
        c.isDigit = false) ↔ identifierCharacters name ≠ [] := by
  rw [stateNameToIdentifier]
  cases hkept : identifierCharacters name with
  | nil => simp [startsWithDigit]
  | cons c rest =>
      cases hdigit : c.isDigit with
      | true =>
          simp [startsWithDigit, hdigit]
      | false =>
          simp [startsWithDigit, hdigit]

/-- The names of two states are kept apart: what is kept of them differs, also
by more than an underscore before a digit. -/
def KeptApart (name other : String) : Prop :=
  identifierCharacters name ≠ identifierCharacters other ∧
    (startsWithDigit (identifierCharacters name) = true →
      identifierCharacters other ≠ '_' :: identifierCharacters name) ∧
    (startsWithDigit (identifierCharacters other) = true →
      identifierCharacters name ≠ '_' :: identifierCharacters other)

theorem startsWithDigit_ne {characters others : List Char}
    (h : startsWithDigit characters = true)
    (hother : startsWithDigit others = false) : characters ≠ others := by
  rintro rfl
  rw [h] at hother
  exact Bool.noConfusion hother

theorem stateNameToIdentifier_ne_iff (name other : String) :
    stateNameToIdentifier name ≠ stateNameToIdentifier other ↔
      KeptApart name other := by
  have hunderscore : ∀ characters,
      startsWithDigit ('_' :: characters) = false := fun _ => rfl
  rw [KeptApart, ne_eq, ← String.toList_inj, stateNameToIdentifier,
    stateNameToIdentifier]
  generalize identifierCharacters name = kept
  generalize identifierCharacters other = keptOther
  cases hkept : startsWithDigit kept with
  | true =>
      cases hother : startsWithDigit keptOther with
      | true =>
          have happart := startsWithDigit_ne hkept (hunderscore keptOther)
          have happartOther := startsWithDigit_ne hother (hunderscore kept)
          simp [happart, happartOther]
      | false =>
          have happart := startsWithDigit_ne hkept hother
          simp [happart, eq_comm]
  | false =>
      cases hother : startsWithDigit keptOther with
      | true =>
          have happart := (startsWithDigit_ne hother hkept).symm
          simp [happart]
      | false => simp

/-- The lexer reads a letter and then letters, digits and underscores. -/
def IsIdentifier (name : String) : Prop :=
  ∃ c rest, name.toList = c :: rest ∧ c.isAlpha = true ∧
    ∀ d ∈ rest, d.isAlphanum = true ∨ d = '_'

/-- A name of the lexer is kept as it is. -/
theorem stateNameToIdentifier_of_isIdentifier {name : String}
    (h : IsIdentifier name) : stateNameToIdentifier name = name := by
  obtain ⟨c, rest, hname, hletter, hrest⟩ := h
  have hkept : identifierCharacters name = name.toList := by
    rw [identifierCharacters, List.filter_eq_self, hname]
    intro d hd
    rcases List.mem_cons.mp hd with rfl | hd
    · simp [Char.isAlphanum, hletter]
    · simpa using hrest d hd
  have hdigit : c.isDigit = false := by
    change (decide ('A'.val ≤ c.val ∧ c.val ≤ 'Z'.val) ||
      (decide ('a'.val ≤ c.val) && decide (c.val ≤ 'z'.val))) = true at hletter
    change (decide ('0'.val ≤ c.val) && decide (c.val ≤ '9'.val)) = false
    simp only [Bool.or_eq_true, Bool.and_eq_true, Bool.and_eq_false_iff,
      decide_eq_true_eq, decide_eq_false_iff_not] at hletter ⊢
    grind
  have hstart : startsWithDigit name.toList = false := by
    rw [hname]
    exact hdigit
  simp [stateNameToIdentifier, hkept, hstart]

/-- The names of the lexer are told apart. -/
theorem keptApart_of_isIdentifier {name other : String}
    (h : IsIdentifier name) (hother : IsIdentifier other)
    (hne : name ≠ other) : KeptApart name other := by
  rw [← stateNameToIdentifier_ne_iff, stateNameToIdentifier_of_isIdentifier h,
    stateNameToIdentifier_of_isIdentifier hother]
  exact hne

end TypeMapping

namespace GenerateParser

/-- The first names of the fields and of the collections of a message. -/
def topNames : List Action → List String
  | [] => []
  | .readOctetsUntilTerminator _ identifier _ :: actions =>
      identifier.name :: topNames actions
  | .loop _ collection _ _ :: actions => collection.name :: topNames actions
  | _ :: actions => topNames actions

def collectionNames : List Action → List String
  | [] => []
  | .loop _ collection _ _ :: actions =>
      collection.name :: collectionNames actions
  | _ :: actions => collectionNames actions

/-- A collection with the first name of a field of its elements. -/
def joined (collection name : String) : String :=
  collection ++ "_" ++ name

def joinedElementNames (collection : String) : List Action → List String
  | [] => []
  | .readOctetsUntilTerminator _ identifier _ :: actions =>
      joined collection identifier.name ::
        joinedElementNames collection actions
  | _ :: actions => joinedElementNames collection actions

def joinedNames : List Action → List String
  | [] => []
  | .loop _ collection _ elements :: actions =>
      joinedElementNames collection.name elements ++ joinedNames actions
  | _ :: actions => joinedNames actions

/-- The names of a message are kept apart: no field and no collection has the
first name of another, no two fields of loops have the same collection and the
same first name, and no name is that of a field of a loop. -/
structure MembersApart (actions : List Action) : Prop where
  top : (topNames actions).Nodup
  joined : (joinedNames actions).Nodup
  apart : ∀ name ∈ joinedNames actions, "loop_" ++ name ∉ topNames actions

def bufferName (name : String) : String :=
  name ++ "_buffer_"

def loopName (name : String) : String :=
  "loop_" ++ name

def stageName (collection : String) : String :=
  "loop_" ++ collection ++ "_stage_"

theorem bufferName_injective : Function.Injective bufferName :=
  fun _ _ h => (String.append_left_inj _).mp h

theorem loopName_injective : Function.Injective loopName :=
  fun _ _ h => (String.append_right_inj _).mp h

theorem stageName_injective : Function.Injective stageName :=
  fun _ _ h => loopName_injective ((String.append_left_inj _).mp h)

theorem bufferName_ne_stageName (name collection : String) :
    bufferName name ≠ stageName collection := by
  intro h
  have hlast := congrArg (fun s => s.toList.reverse.take 2) h
  simp [bufferName, stageName] at hlast

theorem elementMemberNames_eq (collection : String) (actions : List Action) :
    elementMemberNames collection actions =
      ((joinedElementNames collection actions).map loopName).map
        bufferName := by
  induction actions with
  | nil => rfl
  | cons action actions ih =>
      cases action with
      | readOctetsUntilTerminator terminator identifier escape =>
          rw [elementMemberNames, joinedElementNames, List.map_cons,
            List.map_cons, ih, bufferName, loopName, joined]
          simp only [String.append_assoc]
      | _ => exact ih

theorem memberNames_perm (actions : List Action) :
    (memberNames actions).Perm ((topNames actions ++
      (joinedNames actions).map loopName).map bufferName ++
        (collectionNames actions).map stageName) := by
  induction actions with
  | nil => exact .refl _
  | cons action actions ih =>
      have hcount := List.perm_iff_count.mp ih
      cases action with
      | readOctetsUntilTerminator terminator identifier escape =>
          exact ih.cons _
      | loop element collection terminator elements =>
          have hmembers : memberNames
              (.loop element collection terminator elements :: actions) =
                bufferName collection.name :: stageName collection.name ::
                  (elementMemberNames collection.name elements ++
                    memberNames actions) := rfl
          refine List.perm_iff_count.mpr fun name => ?_
          have hname := hcount name
          simp only [hmembers, topNames, joinedNames, collectionNames,
            elementMemberNames_eq, List.map_append, List.map_cons,
            List.count_append, List.count_cons, List.cons_append] at hname ⊢
          omega
      | _ => exact ih

theorem collectionNames_sublist (actions : List Action) :
    (collectionNames actions).Sublist (topNames actions) := by
  induction actions with
  | nil => exact .refl _
  | cons action actions ih =>
      cases action with
      | readOctetsUntilTerminator terminator identifier escape =>
          exact ih.cons _
      | loop element collection terminator elements => exact ih.cons_cons _
      | _ => exact ih

/-- The members of the parser of a message are distinct just when its names
are kept apart. -/
theorem memberNames_nodup_iff (actions : List Action) :
    (memberNames actions).Nodup ↔ MembersApart actions := by
  rw [(memberNames_perm actions).nodup_iff, List.nodup_append,
    List.nodup_map_iff bufferName_injective,
    List.nodup_map_iff stageName_injective, List.nodup_append,
    List.nodup_map_iff loopName_injective]
  constructor
  · rintro ⟨⟨htop, hjoined, hdisjoint⟩, _, _⟩
    refine ⟨htop, hjoined, fun name hname hmem => ?_⟩
    exact hdisjoint _ hmem _ (List.mem_map_of_mem hname) rfl
  · intro h
    refine ⟨⟨h.top, h.joined, ?_⟩, ?_, ?_⟩
    · rintro name hname _ hloop rfl
      obtain ⟨other, hother, rfl⟩ := List.mem_map.mp hloop
      exact h.apart other hother hname
    · exact h.top.sublist (collectionNames_sublist actions)
    · rintro _ hbuffer _ hstage rfl
      obtain ⟨name, _, hname⟩ := List.mem_map.mp hbuffer
      obtain ⟨collection, _, hcollection⟩ := List.mem_map.mp hstage
      exact bufferName_ne_stageName name collection
        (hname.trans hcollection.symm)

end GenerateParser

namespace Protocol

open TypeMapping GenerateParser

/-- The emitted identifiers are names that tell messages and states apart, and
no parser declares a member twice. -/
structure NamesValid (protocol : Protocol) : Prop where
  message : ∀ name ∈ protocol.messageNames, ∃ b rest,
    messageNameToIdentifier name = b :: rest ∧ isDigit b = false
  messages : ∀ name ∈ protocol.messageNames,
    ∀ other ∈ protocol.messageNames, name ≠ other →
      messageNameToIdentifier name ≠ messageNameToIdentifier other
  state : ∀ name ∈ protocol.stateNames, ∃ c rest,
    (stateNameToIdentifier name).toList = c :: rest ∧ c.isDigit = false
  states : ∀ name ∈ protocol.stateNames, ∀ other ∈ protocol.stateNames,
    name ≠ other → stateNameToIdentifier name ≠ stateNameToIdentifier other
  members : ∀ info ∈ (ProtocolInfo.collectTransitions protocol).readTransitions,
    (memberNames info.actions).Nodup

/-- The names of the protocol can be told apart: every message has a letter
before any digit and the names of two messages are not the same words, every
state keeps a character and two states are kept apart, and so are the names of
a message. -/
structure NamesApart (protocol : Protocol) : Prop where
  message : ∀ name ∈ protocol.messageNames,
    ∃ b, name.find? isAlnum = some b ∧ isLetterByte b = true
  messages : ∀ name ∈ protocol.messageNames,
    ∀ other ∈ protocol.messageNames, name ≠ other →
      (words name).flatMap capitalized ≠ (words other).flatMap capitalized
  state : ∀ name ∈ protocol.stateNames, identifierCharacters name ≠ []
  states : ∀ name ∈ protocol.stateNames, ∀ other ∈ protocol.stateNames,
    name ≠ other → KeptApart name other
  members : ∀ info ∈ (ProtocolInfo.collectTransitions protocol).readTransitions,
    MembersApart info.actions

/-- The emitted names are valid and do not clash just when the names of the
protocol can be told apart. -/
theorem namesValid_iff (protocol : Protocol) :
    protocol.NamesValid ↔ protocol.NamesApart := by
  constructor
  · intro h
    refine ⟨?_, ?_, ?_, ?_, ?_⟩
    · exact fun name hname =>
        (valid_messageNameToIdentifier_iff name).mp (h.message name hname)
    · intro name hname other hother hne
      rw [← messageNameToIdentifier_eq, ← messageNameToIdentifier_eq]
      exact h.messages name hname other hother hne
    · exact fun name hname =>
        (valid_stateNameToIdentifier_iff name).mp (h.state name hname)
    · exact fun name hname other hother hne =>
        (stateNameToIdentifier_ne_iff name other).mp
          (h.states name hname other hother hne)
    · exact fun info hinfo =>
        (memberNames_nodup_iff info.actions).mp (h.members info hinfo)
  · intro h
    refine ⟨?_, ?_, ?_, ?_, ?_⟩
    · exact fun name hname =>
        (valid_messageNameToIdentifier_iff name).mpr (h.message name hname)
    · intro name hname other hother hne
      rw [messageNameToIdentifier_eq, messageNameToIdentifier_eq]
      exact h.messages name hname other hother hne
    · exact fun name hname =>
        (valid_stateNameToIdentifier_iff name).mpr (h.state name hname)
    · exact fun name hname other hother hne =>
        (stateNameToIdentifier_ne_iff name other).mpr
          (h.states name hname other hother hne)
    · exact fun info hinfo =>
        (memberNames_nodup_iff info.actions).mpr (h.members info hinfo)

end Protocol

/-- `for header in headers { tokens { header.key ":" header.value }
terminator { "\n" } } terminator { "\n" }`. -/
def headersParts : List Grammar.MessagePart :=
  [.messageForLoop [] (.mk "header" none) (.mk "headers" none)
    [.tokenSequence [] [.identifierReference
        (.mk "header" (some (.mk "key" none))),
      .stringLiteral [58],
      .identifierReference (.mk "header" (some (.mk "value" none)))],
    .terminator [10]],
  .terminator [10]]

theorem headersParts_accepted : ∀ part ∈ headersParts, part.Accepted := by
  intro part hpart
  rcases List.mem_pair.mp hpart with rfl | rfl
  · refine .messageForLoop _ _ (List.cons_ne_nil _ _) fun inner hinner => ?_
    rcases List.mem_pair.mp hinner with rfl | rfl
    · exact .tokenSequence _ (List.cons_ne_nil _ _)
    · exact .terminator _
  · exact .terminator _

def headersActions : List Action :=
  [.loop (.mk "header" none) (.mk "headers" none) [10]
    [.readOctetsUntilTerminator [58]
      (.mk "header" (some (.mk "key" none))) none,
    .readOctetsUntilTerminator [10]
      (.mk "header" (some (.mk "value" none))) none]]

theorem headersParts_tree : Grammar.messageSequenceTree headersParts =
    [.messageForLoop (.mk "header" none) (.mk "headers" none)
      [.tokenSequence ⟨[.identifierReference
          (.mk "header" (some (.mk "key" none))), .stringLiteral [58],
        .identifierReference (.mk "header" (some (.mk "value" none)))],
        none, none⟩, .terminator [10]] none, .terminator [10]] :=
  rfl

theorem headersParts_readActions :
    PartsToReadActions.partsToReadActions
      (Grammar.messageSequenceTree headersParts) = some headersActions := by
  simp [headersParts_tree, headersActions,
    PartsToReadActions.partsToReadActions, PartsToReadActions.tokenSequence,
    PartsToReadActions.individualTokenActions, Action.applyEscape]

theorem headersParts_writeActions : ∃ actions,
    PartsToWriteActions.partsToWriteActions
      (Grammar.messageSequenceTree headersParts) = some actions := by
  simp [headersParts_tree, PartsToWriteActions.partsToWriteActions,
    PartsToWriteActions.tokenSequence]

/-- Two fields of a loop variable are named after the variable: the parser
declares `loop_headers_header_buffer_` twice. -/
theorem member_declared_twice :
    ¬ ∀ tokens description protocol, parse tokens = some description →
      Analyze.analyze description = some protocol → protocol.NamesValid := by
  intro h
  obtain ⟨writeActions, hwrites⟩ := headersParts_writeActions
  have hparse := Grammar.parse_ofAttributes [104] "Open" "Closed" "Client"
    (List.cons_ne_nil ("headers", .mk "array" [("element", .type
      (.mk "tuple" [("key", .type (.mk "str" [])),
        ("value", .type (.mk "str" []))]))]) [])
    (List.cons_ne_nil _ _) headersParts_accepted
  have hvalid := h _ _ _ hparse
    (analyze_singleton headersParts_readActions hwrites)
  have hmembers := hvalid.members ⟨[104], "Open", "Closed", .server, _,
    headersActions⟩ List.mem_cons_self
  exact absurd hmembers (by decide)

end NetworkProtocolDsl
