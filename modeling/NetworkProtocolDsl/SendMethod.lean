/-
What the emitted send method appends.

Where every stage assigns a chunk, the chunks up to the first empty one are
appended, whatever follows.  A stage assigns the text of its action unless a
literal was not read back as it was printed or is cut at a NUL.
-/
import Mathlib.Data.List.TakeWhile
import NetworkProtocolDsl.EscapeReplacement
import NetworkProtocolDsl.GeneratedSerializer
import NetworkProtocolDsl.Library.MapM

namespace NetworkProtocolDsl

open Run CppLiteral OutputContext Generate GenerateParser GenerateSerializer
open IdentifierReference WriteOctetsWithEscape

namespace Action

/-- An action of a write transition that is no loop. -/
def WritesPiece : Action → Prop
  | .writeStaticOctets _ | .writeFromIdentifier _ _ => True
  | _ => False

/-- What stands for a field before it is escaped: a string as it is, a number
in decimal. -/
def wireText (data : MessageData) (fields : MessageFields)
    (identifier : IdentifierReference) : Option Octets :=
  match identifier.member, dataMember data identifier.name with
  | none, some .string => some (fields.strings identifier)
  | none, some .number =>
      some (MessageFields.toDecimal (fields.numbers identifier))
  | some _, some .struct =>
      match (fieldType (extractType data) identifier).bind memberKind with
      | some .string => some (fields.strings identifier)
      | some .number =>
          some (MessageFields.toDecimal (fields.numbers identifier))
      | _ => none
  | _, _ => none

def escapedText : Option EscapeInfo → Octets → Option Octets
  | none, text => some text
  | some escape, text => (applyEscapeReplacement text escape).toOption

theorem escapedText_some {escape : EscapeInfo} {text escaped : Octets}
    (h : escapedText (some escape) text = some escaped) :
    applyEscapeReplacement text escape = .ok escaped := by
  rw [escapedText] at h
  cases happly : applyEscapeReplacement text escape with
  | error fault =>
      rw [happly] at h
      contradiction
  | ok replaced =>
      rw [happly] at h
      exact congrArg Except.ok (Option.some.inj h)

/-- What an action contributes to the message. -/
def text (data : MessageData) (fields : MessageFields) :
    Action → Option Octets
  | .writeStaticOctets octets => some octets
  | .writeFromIdentifier identifier escape =>
      (wireText data fields identifier).bind (escapedText escape)
  | _ => none

/-- The literals of an escape option are read back as they were printed. -/
def EscapeSurvives : Action → Prop
  | .writeFromIdentifier _ (some escape) =>
      Survives escape.character ∧ Survives escape.sequence
  | _ => True

/-- A static piece that is read back as it was printed and has no NUL, or a
field of its own. -/
def PlainPiece : Action → Prop
  | .writeStaticOctets octets => Survives octets ∧ 0 ∉ octets
  | .writeFromIdentifier identifier _ => identifier.member = none
  | _ => False

end Action

namespace SendCall

variable {stages : List SerializeStage} {thenState : String}
  {fields : MessageFields}

/-- The stage assigns this chunk. -/
def Yields (fields : MessageFields) (stage : ChunkStage) (chunk : Octets) :
    Prop :=
  stage ≠ .noCode ∧ ∀ stages thenState (call : SendCall),
    call.serializer.fields = fields →
      Reaches (step stages thenState) (call.assign stage)
        (call.goto (.gotChunk chunk))

theorem yields_literal (fields : MessageFields) (literal : Octets) :
    Yields fields (.assignLiteral literal) (cString literal) :=
  ⟨by simp, fun _ _ _ _ => Reaches.refl _⟩

theorem yields_text (fields : MessageFields) (source : TextSource) :
    Yields fields (.assignText source) (fields.text source) := by
  constructor
  · simp
  · intro stages thenState call hfields
    rw [assign, hfields]
    exact Reaches.refl _

theorem memcmpEqual_append (s array data : Octets) :
    memcmpEqual data (s ++ array) s.length = .ok (decide (s <+: data)) := by
  rw [memcmpEqual, if_neg (by simp)]
  congr 1
  rw [List.take_left, Bool.eq_iff_iff, beq_iff_eq, decide_eq_true_iff,
    List.prefix_iff_eq_take]
  exact eq_comm

/-- The escape loop replaces from the left, position by position. -/
theorem escape_reaches {character sequence : Octets}
    (hne : character ≠ []) {temp value escaped : Octets}
    (h : Escape.Replaced character sequence value escaped) {pos : Nat}
    (hpos : pos ≤ temp.length) (hvalue : temp.drop pos = value)
    (result : Octets) (call : SendCall) :
    Reaches (step stages thenState)
      (call.goto (.escaping ⟨sequence.length, sequence ++ [0],
        character.length, character ++ [0]⟩ temp pos result))
      (call.goto (.gotChunk (result ++ escaped))) := by
  have hlength : value.length = temp.length - pos := by
    rw [← hvalue, List.length_drop]
  induction h generalizing pos result with
  | nil =>
      rw [List.length_nil] at hlength
      refine Reaches.single ?_
      simp only [step, goto, escapeTurn, if_neg (show ¬ pos < temp.length by
        omega), List.append_nil]
  | @mark value escaped hrest ih =>
      have hpositive := List.length_pos_of_ne_nil hne
      rw [List.length_append] at hlength
      have hdrop : temp.drop (pos + character.length) = value := by
        rw [← List.drop_drop, hvalue, List.drop_left]
      have hnext := ih (by omega) hdrop
        (result ++ sequence) (by rw [← hdrop, List.length_drop])
      rw [List.append_assoc] at hnext
      refine Reaches.head ?_ hnext
      have hequal := memcmpEqual_append character [0] (temp.drop pos)
      rw [decide_eq_true (by rw [hvalue]; exact List.prefix_append _ _)]
        at hequal
      simp only [step, goto, escapeTurn, if_pos (show pos < temp.length by
        omega), if_pos (show pos + character.length ≤ temp.length by omega),
        hequal, if_neg (show ¬ (sequence ++ [0]).length < sequence.length by
        simp), List.take_left]
  | @element a value escaped hno hrest ih =>
      rw [List.length_cons] at hlength
      have hdrop : temp.drop (pos + 1) = value := by
        rw [← List.drop_drop, hvalue, List.drop_succ_cons, List.drop_zero]
      have hnext := ih (by omega) hdrop (result ++ [a])
        (by rw [← hdrop, List.length_drop])
      rw [List.append_assoc, List.singleton_append] at hnext
      refine Reaches.head ?_ hnext
      have htake : (temp.drop pos).take 1 = [a] := by
        rw [hvalue, List.take_succ_cons, List.take_zero]
      by_cases hroom : pos + character.length ≤ temp.length
      · have hequal := memcmpEqual_append character [0] (temp.drop pos)
        rw [decide_eq_false (by rw [hvalue]; exact hno)] at hequal
        simp only [step, goto, escapeTurn, if_pos (show pos < temp.length by
          omega), if_pos hroom, hequal, htake]
      · simp only [step, goto, escapeTurn, if_pos (show pos < temp.length by
          omega), if_neg hroom, htake]

/-- A replacement of an empty mark ends only for the empty text. -/
theorem replaceFrom_nil {escape : EscapeInfo} (hnil : escape.character = [])
    {fuel : Nat} {rest result escaped : Octets}
    (h : replaceFrom escape fuel rest result = .ok escaped) :
    rest = [] ∧ escaped = result := by
  induction fuel generalizing result with
  | zero => contradiction
  | succ fuel ih =>
      rw [replaceFrom] at h
      split at h
      · rename_i hrest
        exact ⟨hrest, (Except.ok.inj h).symm⟩
      · rename_i hrest
        have hfirst : Occurrence.first escape.character rest = some 0 := by
          rw [hnil]
          exact Occurrence.first_of_prefix List.nil_prefix
        rw [hfirst] at h
        simp only [hnil, List.length_nil, Nat.add_zero, List.drop_zero,
          List.take_zero] at h
        exact absurd (ih h).1 hrest

theorem yields_escaped {escape : EscapeInfo} (source : TextSource)
    {escaped : Octets}
    (h : applyEscapeReplacement (fields.text source) escape = .ok escaped) :
    Yields fields (.assignEscaped source ⟨escape.sequence.length,
      escape.sequence ++ [0], escape.character.length,
      escape.character ++ [0]⟩) escaped := by
  constructor
  · simp
  · intro stages thenState call hfields
    rw [assign, hfields]
    by_cases hne : escape.character = []
    · obtain ⟨htext, rfl⟩ := replaceFrom_nil hne h
      rw [htext]
      exact Reaches.single rfl
    · obtain ⟨escaped', hescaped, hreplaced⟩ :=
        applyEscapeReplacement_replaced hne (fields.text source)
      obtain rfl := Except.ok.inj (hescaped.symm.trans h)
      exact escape_reaches hne hreplaced (Nat.zero_le _) List.drop_zero [] call

/-- The stage of a case without a loop, and its chunk. -/
def CaseYields (fields : MessageFields) (stage : SerializeStage)
    (chunk : Octets) : Prop :=
  ∃ assigned, stage = .chunk assigned ∧ Yields fields assigned chunk

theorem atCase_chunk {assigned : ChunkStage} (h : assigned ≠ .noCode)
    (stages : List SerializeStage) :
    atCase (.chunk assigned :: stages) = some (.chunk assigned) := by
  cases assigned with
  | noCode => exact absurd rfl h
  | assignLiteral _ | assignText _ | assignCharacter _ | assignEscaped _ _ =>
      rfl

theorem step_head {serializer : MessageSerializer}
    (hopen : serializer.complete = false) (outputBuffer : Octets)
    (currentState : String) :
    step stages thenState ⟨serializer, outputBuffer, currentState, .head⟩ =
      .ok ⟨serializer, outputBuffer, currentState, .nextChunk⟩ := by
  simp only [step, hopen, Bool.false_eq_true, if_false, goto]

/-- From a case on, the chunks up to the first empty one are appended, and the
method moves to the target state. -/
theorem reaches_chunks (before : List SerializeStage)
    {after : List SerializeStage} {chunks : List Octets}
    (hafter : List.Forall₂ (CaseYields fields) after chunks)
    (serializer : MessageSerializer)
    (hfields : serializer.fields = fields)
    (hstage : serializer.stage = before.length)
    (hopen : serializer.complete = false) (outputBuffer : Octets)
    (currentState : String) :
    ∃ last, Reaches (step (before ++ after) thenState)
      ⟨serializer, outputBuffer, currentState, .head⟩
      ⟨last, outputBuffer ++ (chunks.takeWhile (· ≠ [])).flatten, thenState,
        .returned⟩ := by
  induction hafter generalizing before serializer outputBuffer with
  | nil =>
      refine ⟨{ serializer with complete := true },
        Reaches.head (step_head hopen _ _) ?_⟩
      refine Reaches.head (t := ⟨{ serializer with complete := true },
        outputBuffer, currentState, .gotChunk []⟩) ?_ (Reaches.single ?_)
      · rw [List.append_nil]
        simp only [step, dispatch, hopen, Bool.false_eq_true, if_false, hstage,
          List.drop_length, atCase]
      · simp only [step, ↓reduceIte, finish, List.takeWhile_nil,
          List.flatten_nil, List.append_nil]
  | @cons stage chunk after chunks hfirst hrest ih =>
      obtain ⟨assigned, rfl, hcode, hyields⟩ := hfirst
      have hdispatch : step (before ++ .chunk assigned :: after) thenState
          ⟨serializer, outputBuffer, currentState, .nextChunk⟩ =
            .ok (assign ⟨serializer, outputBuffer, currentState, .nextChunk⟩
              assigned) := by
        simp only [step, dispatch, hopen, Bool.false_eq_true, if_false, hstage,
          List.drop_left, atCase_chunk hcode]
      have hchunk := hyields (before ++ .chunk assigned :: after) thenState
        ⟨serializer, outputBuffer, currentState, .nextChunk⟩ hfields
      by_cases hempty : chunk = []
      · refine ⟨serializer, Reaches.head (step_head hopen _ _)
          (Reaches.head hdispatch (hchunk.trans (Reaches.single ?_)))⟩
        have htake : (chunk :: chunks).takeWhile (· ≠ []) = [] :=
          List.takeWhile_cons_of_neg (by simp [hempty])
        simp only [step, goto, if_pos hempty, finish, htake, List.flatten_nil,
          List.append_nil]
      · let next : MessageSerializer := { serializer with
          stage := serializer.stage + 1
          complete := decide ((before ++ .chunk assigned :: after).length ≤
            serializer.stage + 1) }
        have hadvance : advance (before ++ .chunk assigned :: after)
            serializer = next := by
          simp only [advance, hopen, Bool.false_eq_true, if_false, hstage,
            List.getElem?_append_right (Nat.le_refl _), Nat.sub_self,
            List.getElem?_cons_zero, next]
        have hsent : step (before ++ .chunk assigned :: after) thenState
            ⟨serializer, outputBuffer, currentState, .gotChunk chunk⟩ =
              .ok ⟨next, outputBuffer ++ chunk, currentState, .head⟩ := by
          simp only [step, if_neg hempty, hadvance]
        have htake : ((chunk :: chunks).takeWhile (· ≠ [])).flatten =
            chunk ++ (chunks.takeWhile (· ≠ [])).flatten := by
          rw [List.takeWhile_cons_of_pos (by simpa using hempty),
            List.flatten_cons]
        rw [htake, ← List.append_assoc]
        cases hrest with
        | nil =>
            have hdone : next.complete = true := by
              simp [next, hstage]
            refine ⟨next, Reaches.head (step_head hopen _ _)
              (Reaches.head hdispatch (hchunk.trans
                (Reaches.head hsent (Reaches.single ?_))))⟩
            simp only [step, hdone, if_true, finish, List.takeWhile_nil,
              List.flatten_nil, List.append_nil]
        | @cons stage' chunk' after chunks hfirst' hrest' =>
            have hopen' : next.complete = false := by
              simp [next, hstage]
            obtain ⟨last, hlast⟩ := ih (before ++ [.chunk assigned])
              next hfields (by simp [next, hstage]) hopen'
              (outputBuffer ++ chunk)
            rw [List.append_assoc, List.singleton_append] at hlast
            exact ⟨last, Reaches.head (step_head hopen _ _)
              (Reaches.head hdispatch (hchunk.trans
                (Reaches.head hsent hlast)))⟩

end SendCall

namespace SendCall

/-- A literal is read back as it was printed, or shorter. -/
theorem constant_cases {s array : Octets} (h : constant s = some array) :
    ∃ read, array = read ++ [0] ∧
      (Survives s ∧ read = s ∨ read.length < s.length) := by
  rw [constant, charArray, readStringLiteral_escapeStringLiteral] at h
  obtain ⟨read, hread, rfl⟩ := Option.map_eq_some_iff.mp h
  exact ⟨read, rfl, (readCharacters_cases hread).imp id And.left⟩

theorem cString_append (read : Octets) :
    cString (read ++ [0]) = read.takeWhile (· ≠ 0) := by
  induction read with
  | nil => rfl
  | cons b read ih =>
      rw [cString] at ih ⊢
      by_cases hb : b = 0
      · simp [hb]
      · rw [List.cons_append, List.takeWhile_cons_of_pos (by simpa using hb),
          List.takeWhile_cons_of_pos (by simpa using hb), ih]

theorem takeWhile_ne_zero_of_length {read : Octets}
    (h : read.length ≤ (read.takeWhile (· ≠ 0)).length) :
    0 ∉ read ∧ read.takeWhile (· ≠ 0) = read := by
  have hsame : read.takeWhile (· ≠ 0) = read :=
    (List.takeWhile_prefix _).eq_of_length_le h
  refine ⟨fun hmem => ?_, hsame⟩
  rw [List.takeWhile_eq_self_iff] at hsame
  simpa using hsame 0 hmem

/-- A stage assigns the text of its action, or less. -/
theorem caseYields_of_text {data : MessageData} {fields : MessageFields}
    {action : Action} (hpiece : action.WritesPiece)
    (hescape : action.EscapeSurvives) {stage : SerializeStage}
    (hstage : GenerateSerializer.stage data action = some stage)
    {text : Octets} (htext : action.text data fields = some text) :
    ∃ chunk, CaseYields fields stage chunk ∧ chunk.length ≤ text.length ∧
      (text.length ≤ chunk.length → action.PlainPiece ∧ chunk = text) ∧
      (action.PlainPiece → chunk = text) := by
  cases action with
  | writeStaticOctets octets =>
      obtain ⟨assigned, hassigned, rfl⟩ := Option.map_eq_some_iff.mp hstage
      obtain ⟨array, harray, rfl⟩ := Option.map_eq_some_iff.mp hassigned
      obtain rfl := Option.some.inj htext
      obtain ⟨read, rfl, hread⟩ := constant_cases harray
      have hle : (read.takeWhile (· ≠ 0)).length ≤ read.length :=
        (List.takeWhile_prefix _).length_le
      refine ⟨_, ⟨_, rfl, yields_literal fields _⟩, ?_, ?_, ?_⟩
      · rw [cString_append]
        rcases hread with ⟨_, rfl⟩ | hlt
        · exact hle
        · omega
      · rw [cString_append]
        intro hge
        rcases hread with ⟨hsurvives, rfl⟩ | hlt
        · obtain ⟨hnul, hsame⟩ := takeWhile_ne_zero_of_length hge
          exact ⟨⟨hsurvives, hnul⟩, hsame⟩
        · omega
      · rintro ⟨hsurvives, hnul⟩
        have hexact := charArray_of_survives hsurvives
        have heq := List.append_cancel_right
          (Option.some.inj (harray.symm.trans hexact))
        subst heq
        rw [cString_append, List.takeWhile_eq_self_iff]
        intro b hb
        simpa using fun h0 : b = 0 => hnul (h0 ▸ hb)
  | writeFromIdentifier identifier escape =>
      obtain ⟨assigned, hassigned, rfl⟩ := Option.map_eq_some_iff.mp hstage
      obtain ⟨plain, hplain, hescaped⟩ := Option.bind_eq_some_iff.mp htext
      -- the text of the source, escaped, is what the stage assigns
      have hsource : ∀ source, textStage source escape = some assigned →
          fields.text source = plain → identifier.member = none →
          ∃ chunk, CaseYields fields (.chunk assigned) chunk ∧
            chunk.length ≤ text.length ∧ (text.length ≤ chunk.length →
              Action.PlainPiece (.writeFromIdentifier identifier escape) ∧
                chunk = text) ∧
            (Action.PlainPiece (.writeFromIdentifier identifier escape) →
              chunk = text) := by
        intro source hsource hvalue hmember
        refine ⟨text, ⟨assigned, rfl, ?_⟩, Nat.le_refl _,
          fun _ => ⟨hmember, rfl⟩, fun _ => rfl⟩
        cases escape with
        | none =>
            obtain rfl := Option.some.inj hsource
            obtain rfl := Option.some.inj hescaped
            rw [← hvalue]
            exact yields_text fields source
        | some escape =>
            obtain ⟨constants, hconstants, rfl⟩ :=
              Option.map_eq_some_iff.mp hsource
            have hsequence := charArray_of_survives hescape.2
            have hcharacter := charArray_of_survives hescape.1
            simp only [escapeConstants, constant, hsequence, hcharacter]
              at hconstants
            obtain rfl := Option.some.inj hconstants
            refine yields_escaped source ?_
            rw [hvalue]
            exact Action.escapedText_some hescaped
      obtain ⟨name, member⟩ := identifier
      unfold fieldStage at hassigned
      unfold Action.wireText at hplain
      simp only [IdentifierReference.member, IdentifierReference.name]
        at hassigned hplain
      cases member with
      | none =>
          split at hassigned <;> rename_i hkind
          · rw [hkind] at hplain
            exact hsource _ hassigned (Option.some.inj hplain) rfl
          · rw [hkind] at hplain
            exact hsource _ hassigned (Option.some.inj hplain) rfl
          · contradiction
      | some member =>
          split at hassigned <;> rename_i hkind
          · rw [hkind] at hplain
            contradiction
          · rw [hkind] at hplain
            contradiction
          · contradiction
  | readStaticOctets _ | readOctetsUntilTerminator _ _ _ | loop _ _ _ _ =>
      exact hpiece.elim

/-- An action that passes has a case, which assigns its text. -/
theorem stage_of_plain {data : MessageData} {fields : MessageFields}
    {action : Action} (hplain : action.PlainPiece)
    (hescape : action.EscapeSurvives) {text : Octets}
    (htext : action.text data fields = some text) :
    ∃ stage, GenerateSerializer.stage data action = some stage := by
  cases action with
  | writeStaticOctets octets =>
      refine ⟨.chunk (.assignLiteral (octets ++ [0])), ?_⟩
      rw [GenerateSerializer.stage, literalStage, constant,
        charArray_of_survives hplain.1]
      rfl
  | writeFromIdentifier identifier escape =>
      obtain ⟨plain, hwire, hescaped⟩ := Option.bind_eq_some_iff.mp htext
      obtain ⟨name, member⟩ := identifier
      obtain rfl : member = none := hplain
      have htextStage : ∀ source,
          ∃ assigned, textStage source escape = some assigned := by
        intro source
        cases escape with
        | none => exact ⟨_, rfl⟩
        | some escape =>
            rw [textStage, escapeConstants, constant, constant,
              charArray_of_survives hescape.1, charArray_of_survives hescape.2]
            exact ⟨_, rfl⟩
      unfold Action.wireText at hwire
      simp only [IdentifierReference.member, IdentifierReference.name] at hwire
      simp only [GenerateSerializer.stage, fieldStage,
        IdentifierReference.name]
      split at hwire
      · rename_i hkind
        obtain ⟨assigned, hassigned⟩ := htextStage (.string name)
        rw [hkind]
        exact ⟨_, by rw [hassigned]; rfl⟩
      · rename_i hkind
        obtain ⟨assigned, hassigned⟩ := htextStage (.number name)
        rw [hkind]
        exact ⟨_, by rw [hassigned]; rfl⟩
      · contradiction
      · contradiction
  | readStaticOctets _ | readOctetsUntilTerminator _ _ _ | loop _ _ _ _ =>
      exact hplain.elim

/-- The chunks up to the first empty one hold at most the texts, and only all
of them where every action passes and no empty text stands in front. -/
theorem chunks_of_texts {data : MessageData} {fields : MessageFields}
    {actions : List Action} {stages : List SerializeStage}
    {texts : List Octets}
    (hstages : List.Forall₂
      (fun action stage => GenerateSerializer.stage data action = some stage)
      actions stages)
    (htexts : List.Forall₂
      (fun action text => action.text data fields = some text) actions texts)
    (hpieces : ∀ action ∈ actions, action.WritesPiece)
    (hescapes : ∀ action ∈ actions, action.EscapeSurvives) :
    ∃ chunks, List.Forall₂ (CaseYields fields) stages chunks ∧
      (chunks.takeWhile (· ≠ [])).flatten.length ≤ texts.flatten.length ∧
      (texts.flatten.length ≤ (chunks.takeWhile (· ≠ [])).flatten.length →
        (∀ action ∈ actions, action.PlainPiece) ∧
          texts.Pairwise (fun first later => first = [] → later = [])) ∧
      ((∀ action ∈ actions, action.PlainPiece) → chunks = texts) := by
  induction hstages generalizing texts with
  | nil =>
      cases htexts
      exact ⟨[], .nil, Nat.le_refl _, fun _ => ⟨by simp, .nil⟩, fun _ => rfl⟩
  | @cons action stage actions stages hstage hstages ih =>
      cases htexts with
      | @cons _ text _ texts htext htexts =>
      rw [List.forall_mem_cons] at hpieces hescapes
      obtain ⟨chunk, hcase, hle, hexact, hsame⟩ := caseYields_of_text
        hpieces.1 hescapes.1 hstage htext
      obtain ⟨chunks, hcases, hles, hexacts, hsames⟩ := ih htexts hpieces.2
        hescapes.2
      refine ⟨chunk :: chunks, .cons hcase hcases, ?_, ?_, ?_⟩
      · by_cases hempty : chunk = []
        · rw [List.takeWhile_cons_of_neg (by simp [hempty]), List.flatten_nil]
          exact Nat.zero_le _
        · rw [List.takeWhile_cons_of_pos (by simpa using hempty),
            List.flatten_cons, List.flatten_cons, List.length_append,
            List.length_append]
          exact Nat.add_le_add hle hles
      · intro hge
        rw [List.forall_mem_cons, List.pairwise_cons]
        by_cases hempty : chunk = []
        · rw [List.takeWhile_cons_of_neg (by simp [hempty]), List.flatten_nil,
            List.flatten_cons, List.length_append, List.length_nil] at hge
          have hnone : texts.flatten = [] :=
            List.length_eq_zero_iff.mp (by omega)
          have htail := hexacts (by rw [hnone]; exact Nat.zero_le _)
          refine ⟨⟨(hexact (by omega)).1, htail.1⟩, ?_, htail.2⟩
          intro later hlater _
          exact List.flatten_eq_nil_iff.mp hnone later hlater
        · rw [List.takeWhile_cons_of_pos (by simpa using hempty),
            List.flatten_cons, List.flatten_cons, List.length_append,
            List.length_append] at hge
          have hhead := hexact (by omega)
          have htail := hexacts (by omega)
          refine ⟨⟨hhead.1, htail.1⟩, ?_, htail.2⟩
          intro later _ hnil
          exact absurd (hhead.2.trans hnil) hempty
      · intro hplain
        rw [List.forall_mem_cons] at hplain
        rw [hsame hplain.1, hsames hplain.2]

theorem flatten_takeWhile {texts : List Octets}
    (h : texts.Pairwise (fun first later => first = [] → later = [])) :
    (texts.takeWhile (· ≠ [])).flatten = texts.flatten := by
  induction h with
  | nil => rfl
  | @cons text texts hlater hrest ih =>
      by_cases hempty : text = []
      · rw [List.takeWhile_cons_of_neg (by simp [hempty]), List.flatten_nil,
          eq_comm, List.flatten_eq_nil_iff, List.forall_mem_cons]
        exact ⟨hempty, fun later hmem => hlater later hmem hempty⟩
      · rw [List.takeWhile_cons_of_pos (by simpa using hempty),
          List.flatten_cons, List.flatten_cons, ih]

/-- The emitted send method returns with the message appended, in the target
state, whatever was in the output buffer. -/
def Sends (data : MessageData) (actions : List Action) (fields : MessageFields)
    (thenState : String) (message : Octets) : Prop :=
  ∃ stages, messageSerializer data actions = some stages ∧
    ∀ outputBuffer currentState, ∃ call,
      Reaches (step stages thenState) (start fields outputBuffer currentState)
        call ∧
      call.point = .returned ∧ call.outputBuffer = outputBuffer ++ message ∧
      call.currentState = thenState

/-- What is sent are all pieces of the message in order. -/
def SendsWhole (data : MessageData) (actions : List Action)
    (fields : MessageFields) (thenState : String) : Prop :=
  ∃ texts, actions.mapM (Action.text data fields) = some texts ∧
    Sends data actions fields thenState texts.flatten

/-- Every piece is plain, and no empty piece stands before another. -/
def PiecesPass (data : MessageData) (actions : List Action)
    (fields : MessageFields) : Prop :=
  (∀ action ∈ actions, action.PlainPiece ∧ action.EscapeSurvives) ∧
    ∃ texts, actions.mapM (Action.text data fields) = some texts ∧
      texts.Pairwise (fun first later => first = [] → later = [])

theorem reaches_returned {fields : MessageFields}
    {stages : List SerializeStage} {chunks : List Octets}
    (hcases : List.Forall₂ (CaseYields fields) stages chunks)
    (thenState : String) (outputBuffer : Octets) (currentState : String) :
    ∃ last, Reaches (step stages thenState)
      (start fields outputBuffer currentState)
      ⟨last, outputBuffer ++ (chunks.takeWhile (· ≠ [])).flatten, thenState,
        .returned⟩ :=
  reaches_chunks [] hcases { fields := fields } rfl rfl rfl
    outputBuffer currentState

theorem returned_unique {stages : List SerializeStage} {thenState : String}
    {s t u : SendCall} (ht : t.point = .returned) (hu : u.point = .returned)
    (hst : Reaches (step stages thenState) s t)
    (hsu : Reaches (step stages thenState) s u) : u = t := by
  have hfixed : ∀ {call : SendCall}, call.point = .returned →
      step stages thenState call = .ok call := by
    intro call hcall
    simp only [step, hcall]
  exact (Reaches.eq_of_fixed (hfixed hu)
    (Reaches.of_fixed (hfixed ht) hst hsu)).symm

theorem sendsWhole_of_piecesPass {data : MessageData} {actions : List Action}
    (hpieces : ∀ action ∈ actions, action.WritesPiece)
    {fields : MessageFields} (h : PiecesPass data actions fields)
    (thenState : String) : SendsWhole data actions fields thenState := by
  obtain ⟨hpass, texts, htexts, hpairwise⟩ := h
  have hstages : ∃ stages, messageSerializer data actions = some stages := by
    have hall := MapM.forall₂_of_eq_some htexts
    clear htexts hpairwise
    induction hall with
    | nil => exact ⟨[], rfl⟩
    | @cons action text actions texts htext _ ih =>
        rw [List.forall_mem_cons] at hpass hpieces
        obtain ⟨stage, hstage⟩ := stage_of_plain hpass.1.1 hpass.1.2 htext
        obtain ⟨stages, hstages⟩ := ih hpieces.2 hpass.2
        rw [messageSerializer] at hstages ⊢
        exact ⟨stage :: stages, by rw [List.mapM_cons, hstage, hstages]; rfl⟩
  obtain ⟨stages, hstages⟩ := hstages
  obtain ⟨chunks, hcases, _, _, hsame⟩ := chunks_of_texts
    (MapM.forall₂_of_eq_some hstages) (MapM.forall₂_of_eq_some htexts) hpieces
    fun action haction => (hpass action haction).2
  have hchunks := hsame fun action haction => (hpass action haction).1
  rw [hchunks] at hcases
  refine ⟨texts, htexts, stages, hstages, ?_⟩
  intro outputBuffer currentState
  obtain ⟨last, hlast⟩ := reaches_returned hcases thenState outputBuffer
    currentState
  rw [flatten_takeWhile hpairwise] at hlast
  exact ⟨_, hlast, rfl, rfl, rfl⟩

theorem piecesPass_of_sends {data : MessageData} {actions : List Action}
    (hpieces : ∀ action ∈ actions, action.WritesPiece)
    (hescapes : ∀ action ∈ actions, action.EscapeSurvives)
    {fields : MessageFields} {texts : List Octets}
    (htexts : actions.mapM (Action.text data fields) = some texts)
    {thenState : String}
    (h : Sends data actions fields thenState texts.flatten) :
    PiecesPass data actions fields := by
  obtain ⟨stages, hstages, hsends⟩ := h
  obtain ⟨chunks, hcases, _, hexact, _⟩ := chunks_of_texts
    (MapM.forall₂_of_eq_some hstages) (MapM.forall₂_of_eq_some htexts) hpieces hescapes
  obtain ⟨call, hcall, hreturned, hbuffer, _⟩ := hsends [] ""
  obtain ⟨last, hlast⟩ := reaches_returned hcases thenState [] ""
  have hsame := returned_unique hreturned rfl hcall hlast
  rw [← hsame, List.nil_append, List.nil_append] at hbuffer
  obtain ⟨hplain, hpairwise⟩ := hexact (by rw [← hbuffer])
  exact ⟨fun action haction => ⟨hplain action haction,
    hescapes action haction⟩, texts, htexts, hpairwise⟩

/-- The send method sends the whole message where the pieces pass, and, the
escape literals being read back, only there. -/
theorem sendsWhole_iff_piecesPass (data : MessageData) (actions : List Action)
    (hpieces : ∀ action ∈ actions, action.WritesPiece)
    (fields : MessageFields) (thenState : String) :
    (PiecesPass data actions fields →
      SendsWhole data actions fields thenState) ∧
    ((∀ action ∈ actions, action.EscapeSurvives) →
      SendsWhole data actions fields thenState →
        PiecesPass data actions fields) := by
  constructor
  · intro hpass
    exact sendsWhole_of_piecesPass hpieces hpass thenState
  · rintro hescapes ⟨texts, htexts, hsends⟩
    exact piecesPass_of_sends hpieces hescapes htexts hsends

/-- A greeting with a name: `HI `, the name and a line feed. -/
def greetingData : MessageData :=
  [("name", .mk (.mk "str" none) [])]

def greeting : List Action :=
  [.writeStaticOctets [72, 73, 32], .writeFromIdentifier (.mk "name" none) none,
    .writeStaticOctets [10]]

def greetingFields (name : Octets) : MessageFields where
  strings := fun _ => name
  numbers := fun _ => 0
  sizes := fun _ => 0

def greetingStages : List SerializeStage :=
  [.chunk (.assignLiteral [72, 73, 32, 0]),
    .chunk (.assignText (.string "name")), .chunk (.assignLiteral [10, 0])]

theorem greeting_stages :
    messageSerializer greetingData greeting = some greetingStages := by
  decide

theorem greeting_piecesPass :
    PiecesPass greetingData greeting (greetingFields [65]) := by
  constructor
  · simp only [greeting, List.forall_mem_cons, List.not_mem_nil, false_imp_iff,
      implies_true, and_true]
    exact ⟨⟨⟨by decide, by decide⟩, trivial⟩, ⟨rfl, trivial⟩,
      ⟨by decide, by decide⟩, trivial⟩
  · exact ⟨[[72, 73, 32], [65], [10]], rfl, by decide⟩

theorem sendsWhole_iff_piecesPass_greeting :
    SendsWhole greetingData greeting (greetingFields [65]) "Greeted" := by
  refine (sendsWhole_iff_piecesPass greetingData greeting ?_
    (greetingFields [65]) "Greeted").1 greeting_piecesPass
  simp [greeting, Action.WritesPiece]

/-- With an empty name the method returns before the line feed. -/
theorem empty_name_cuts_greeting :
    ¬ SendsWhole greetingData greeting (greetingFields []) "Greeted" := by
  rintro ⟨texts, htexts, stages, hstages, hsends⟩
  have hexpected : greeting.mapM (Action.text greetingData (greetingFields []))
      = some [[72, 73, 32], [], [10]] := rfl
  obtain rfl := Option.some.inj (htexts.symm.trans hexpected)
  obtain rfl := Option.some.inj (hstages.symm.trans greeting_stages)
  obtain ⟨call, hcall, hreturned, hbuffer, _⟩ := hsends [] "Open"
  have hcut : ∃ last, last.point = .returned ∧
      last.outputBuffer = [72, 73, 32] ∧
      Reaches (step greetingStages "Greeted")
        (start (greetingFields []) [] "Open") last :=
    ⟨_, rfl, rfl, Reaches.head rfl (Reaches.head rfl (Reaches.head rfl
      (Reaches.head rfl (Reaches.head rfl (Reaches.single rfl)))))⟩
  obtain ⟨last, hlast, hshort, hreached⟩ := hcut
  rw [returned_unique hlast hreturned hreached hcall, hshort] at hbuffer
  exact absurd hbuffer (by decide)

end SendCall

end NetworkProtocolDsl
