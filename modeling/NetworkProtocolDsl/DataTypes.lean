/-
The structs for the data of the messages.

Every message has a struct behind the ones its fields need.  A field whose type
has no mapping is reported and left out.  The structs can be defined in their
order exactly if none is there twice, and then the struct of a message says
what is declared of it.
-/
import NetworkProtocolDsl.DeclaredShape
import NetworkProtocolDsl.NamesApart
import NetworkProtocolDsl.ProtocolInfo

namespace NetworkProtocolDsl

open Elaboration TypeMapping StructDefinition

/-- An identifier in the emitted code. -/
def identifierText (identifier : Octets) : String :=
  .ofList (identifier.map fun b => Char.ofNat b.toNat)

def dataName (identifier : Octets) : String :=
  identifierText identifier ++ "Data"

/-- The name of the struct for a field of a message. -/
def fieldStructName (identifier : Octets) (field : String) : String :=
  identifierText identifier ++ "_" ++ field

/-- What the loop over the fields of a message writes. -/
structure CollectedFields where
  fields : List (String × MemberType)
  auxiliary : List StructDefinition
  errors : List String

structure DataTypesResult where
  definitions : List StructDefinition
  errors : List String

namespace GenerateDataTypes

def mappingError (message : MessageInfo) (field : String) : String :=
  "Failed to map type for field '" ++ field ++ "' in message '" ++
    identifierText message.name ++ "'"

def collectFields (message : MessageInfo) : MessageData → CollectedFields
  | [] => ⟨[], [], []⟩
  | (name, type) :: data =>
      let rest := collectFields message data
      match typeToCpp type (fieldStructName message.identifier name) with
      | none => { rest with errors := mappingError message name :: rest.errors }
      | some mapping =>
          { rest with
            fields := (name, mapping.cppType) :: rest.fields
            auxiliary := mapping.auxiliaryDefinitions ++ rest.auxiliary }

/-- The structs of a message. -/
def messageStructs (message : MessageInfo) : List StructDefinition :=
  let collected := collectFields message message.data
  collected.auxiliary ++ [⟨dataName message.identifier, collected.fields⟩]

/-- `generate_data_types`, for the messages of the protocol. -/
def generateDataTypes (messages : List MessageInfo) : DataTypesResult where
  definitions := messages.flatMap messageStructs
  errors := messages.flatMap fun message =>
    (collectFields message message.data).errors

end GenerateDataTypes

namespace MessageInfo

/-- The fields whose declaration says something. -/
def declaredFields (data : MessageData) : List (String × Shape) :=
  data.filterMap fun field => field.2.shape?.map (field.1, ·)

/-- The fields whose declaration says nothing. -/
def undeclaredFields (data : MessageData) : List String :=
  (data.filter fun field => field.2.shape?.isNone).map Prod.fst

theorem declaredFields_cons {name : String} {type : DataType}
    {shape : Shape} (h : type.shape? = some shape) (data : MessageData) :
    declaredFields ((name, type) :: data) =
      (name, shape) :: declaredFields data := by
  rw [declaredFields, List.filterMap_cons, h]
  rfl

theorem declaredFields_cons_none {name : String} {type : DataType}
    (h : type.shape? = none) (data : MessageData) :
    declaredFields ((name, type) :: data) = declaredFields data := by
  rw [declaredFields, List.filterMap_cons, h]
  rfl

/-- No field and no parameter is there twice. -/
structure Distinct (message : MessageInfo) : Prop where
  names : (message.data.map Prod.fst).Nodup
  types : ∀ field ∈ message.data, field.2.Distinct

end MessageInfo

namespace GenerateDataTypes

open MessageInfo

variable {message : MessageInfo}

theorem collectFields_represents {data : MessageData}
    (hdistinct : ∀ field ∈ data, field.2.Distinct)
    {env : List (String × Shape)}
    (hfresh : Fresh env (collectFields message data).auxiliary) :
    ∃ new, define env (collectFields message data).auxiliary =
        some (env ++ new) ∧
      MembersHave (env ++ new) (collectFields message data).fields
        (declaredFields data) := by
  induction data generalizing env with
  | nil =>
      exact ⟨[], define_nil, .nil⟩
  | cons field data ih =>
      obtain ⟨name, type⟩ := field
      have htype := hdistinct _ List.mem_cons_self
      have hdata := fun other hmem =>
        hdistinct other (List.mem_cons_of_mem _ hmem)
      rw [collectFields] at hfresh ⊢
      cases hmapping : typeToCpp type
          (fieldStructName message.identifier name) with
      | none =>
          rw [hmapping] at hfresh
          have hshape := (typeToCpp_eq_none_iff type _).mp hmapping
          rw [declaredFields_cons_none hshape]
          exact ih hdata hfresh
      | some mapping =>
          rw [hmapping] at hfresh
          obtain ⟨shape, hshape, new, hnew, hmember⟩ :=
            typeToCpp_represents type _ mapping env htype hmapping hfresh.left
          obtain ⟨others, hothers, hmembers⟩ := ih hdata (hfresh.right hnew)
          rw [declaredFields_cons hshape]
          refine ⟨new ++ others, ?_, ?_⟩
          · exact define_append hnew hothers
          · rw [← List.append_assoc]
            exact .cons ⟨rfl, MemberType.shape?_append hmember⟩ hmembers

theorem fst_collectFields (message : MessageInfo) (data : MessageData) :
    ((collectFields message data).fields.map Prod.fst).Sublist
      (data.map Prod.fst) := by
  induction data with
  | nil => exact List.Sublist.refl _
  | cons field data ih =>
      obtain ⟨name, type⟩ := field
      rw [collectFields]
      cases typeToCpp type (fieldStructName message.identifier name) with
      | none => exact ih.cons name
      | some mapping => exact ih.cons_cons name

/-- The structs of a message behind other structs. -/
theorem messageStructs_represents (hdistinct : message.Distinct)
    {env : List (String × Shape)}
    (hfresh : Fresh env (messageStructs message)) :
    ∃ new, define env (messageStructs message) = some (env ++ new) ∧
      (env ++ new).lookup (dataName message.identifier) =
        some (.record (declaredFields message.data)) := by
  obtain ⟨new, hnew, hmembers⟩ :=
    collectFields_represents hdistinct.types hfresh.left
  have hnames := hdistinct.names.sublist
    (fst_collectFields message message.data)
  have hfree := hfresh.not_mem hnew
  refine ⟨new ++ [(dataName message.identifier,
    .record (declaredFields message.data))], ?_, ?_⟩
  · rw [← List.append_assoc]
    exact define_snoc hnew hmembers hnames hfree
  · rw [← List.append_assoc, Assoc.lookup_append,
      Assoc.lookup_eq_none_of_not_mem hfree]
    exact List.lookup_cons_self

variable {messages : List MessageInfo}

theorem messages_represent
    (hdistinct : ∀ message ∈ messages, message.Distinct)
    {env : List (String × Shape)}
    (hfresh : Fresh env (messages.flatMap messageStructs)) :
    ∃ new, define env (messages.flatMap messageStructs) =
        some (env ++ new) ∧
      ∀ message ∈ messages, (env ++ new).lookup
        (dataName message.identifier) =
          some (.record (declaredFields message.data)) := by
  induction messages generalizing env with
  | nil =>
      exact ⟨[], define_nil, fun _ hmem => absurd hmem List.not_mem_nil⟩
  | cons message messages ih =>
      rw [List.flatMap_cons] at hfresh ⊢
      obtain ⟨new, hnew, hlookup⟩ :=
        messageStructs_represents (hdistinct _ List.mem_cons_self) hfresh.left
      obtain ⟨others, hothers, hrest⟩ :=
        ih (fun other hmem => hdistinct other (List.mem_cons_of_mem _ hmem))
          (hfresh.right hnew)
      refine ⟨new ++ others, ?_, ?_⟩
      · exact define_append hnew hothers
      · intro other hmem
        rw [← List.append_assoc]
        rcases List.mem_cons.mp hmem with rfl | hmem
        · rw [Assoc.lookup_append, hlookup]
          rfl
        · exact hrest other hmem

theorem errors_collectFields (data : MessageData) :
    (collectFields message data).errors =
      (undeclaredFields data).map (mappingError message) := by
  induction data with
  | nil => rfl
  | cons field data ih =>
      obtain ⟨name, type⟩ := field
      rw [collectFields, undeclaredFields]
      cases hmapping : typeToCpp type
          (fieldStructName message.identifier name) with
      | none =>
          have hshape := (typeToCpp_eq_none_iff type _).mp hmapping
          rw [List.filter_cons_of_pos (by rw [hshape]; rfl), ih,
            undeclaredFields]
          rfl
      | some mapping =>
          have hshape : ¬ type.shape?.isNone = true := by
            rw [Option.isNone_iff_eq_none,
              ← typeToCpp_eq_none_iff type
                (fieldStructName message.identifier name), hmapping]
            exact Option.some_ne_none mapping
          have hfilter : ((name, type) :: data).filter
              (fun field => field.2.shape?.isNone) =
                data.filter fun field => field.2.shape?.isNone :=
            List.filter_cons_of_neg hshape
          rw [hfilter]
          exact ih

/-- The structs can be defined exactly if none is there twice. -/
theorem define_generateDataTypes
    (hdistinct : ∀ message ∈ messages, message.Distinct) :
    ((∃ env, define [] (generateDataTypes messages).definitions = some env) ↔
      ((generateDataTypes messages).definitions.map
        StructDefinition.name).Nodup) ∧
    ∀ env, define [] (generateDataTypes messages).definitions = some env →
      ∀ message ∈ messages, env.lookup (dataName message.identifier) =
        some (.record (declaredFields message.data)) := by
  have hnames : ∀ env,
      define [] (generateDataTypes messages).definitions = some env →
        Fresh [] (generateDataTypes messages).definitions := by
    intro env henv
    have hnodup := nodup_of_elaborate henv List.nodup_nil
    rw [names_of_define henv] at hnodup
    exact hnodup
  constructor
  · constructor
    · rintro ⟨env, henv⟩
      exact hnames env henv
    · intro hnodup
      have hfresh : Fresh [] (generateDataTypes messages).definitions := hnodup
      obtain ⟨new, hnew, _⟩ := messages_represent hdistinct hfresh
      exact ⟨_, hnew⟩
  · intro env henv
    obtain ⟨new, hnew, hlookup⟩ := messages_represent hdistinct
      (hnames env henv)
    have hsame := Option.some.inj (henv.symm.trans hnew)
    rw [hsame]
    exact hlookup

end GenerateDataTypes

section Source

open ProtocolInfo GenerateDataTypes MessageInfo

variable {tokens : List Token} {description : ProtocolDescription}
  {protocol : Protocol}

theorem mem_of_lookup_ofMessages {messages : List Message} {name : Octets}
    {message : Message}
    (h : (ProtocolDescription.ofMessages messages).messages.lookup name =
      some message) : message ∈ messages := by
  have hmem := Assoc.mem_ofPairs (Assoc.mem_of_lookup h)
  obtain ⟨other, hother, heq⟩ := List.mem_map.mp hmem
  obtain ⟨_, rfl⟩ := Prod.mk.inj heq
  exact hother

/-- The parser collects fields and parameters in maps. -/
theorem distinct_of_parse (h : parse tokens = some description)
    {info : MessageInfo} (hinfo : info.Of description) : info.Distinct := by
  rw [parse_eq_ofWritten] at h
  obtain ⟨messages, _, rfl⟩ := Option.map_eq_some_iff.mp h
  obtain ⟨message, hmessage, _, _, _, _, hdata⟩ := hinfo
  obtain ⟨written, _, rfl⟩ :=
    List.mem_map.mp (mem_of_lookup_ofMessages hmessage)
  refine ⟨?_, ?_⟩
  · rw [hdata]
    exact (Assoc.sorted_ofPairs _).nodup
  · intro field hfield
    rw [hdata] at hfield
    obtain ⟨other, _, rfl⟩ := List.mem_map.mp (Assoc.mem_ofPairs hfield)
    exact DataType.distinct_collected other.2

/-- What is emitted for the data of an accepted source: the structs define
exactly if none is defined twice; then the struct of a message has the fields
that are declared for it and can be represented, each with the shape that is
declared; and what cannot be represented is reported. -/
theorem dataTypes_of_source (hparse : parse tokens = some description)
    (hanalyze : Analyze.analyze description = some protocol) :
    let result := generateDataTypes (collectMessages protocol)
    ((∃ env, define [] result.definitions = some env) ↔
      (result.definitions.map StructDefinition.name).Nodup) ∧
    (∀ env, define [] result.definitions = some env →
      ∀ name message, description.messages.lookup name = some message →
        env.lookup (dataName (messageNameToIdentifier name)) =
          some (.record (declaredFields message.data))) ∧
    ∀ error, error ∈ result.errors ↔ ∃ info field,
      info.Of description ∧ field ∈ undeclaredFields info.data ∧
        error = mappingError info field := by
  have hmessages := Analyze.mem_collectMessages hanalyze
  obtain ⟨hdefined, hmeans⟩ := define_generateDataTypes
    fun info hinfo => distinct_of_parse hparse ((hmessages info).mp hinfo)
  refine ⟨hdefined, ?_, ?_⟩
  · intro env henv name message hmessage
    have hinfo : MessageInfo.Of ⟨name, messageNameToIdentifier name,
        message.whenState.name, message.thenState.name, .client,
        message.data⟩ description :=
      ⟨message, hmessage, rfl, rfl, rfl, rfl, rfl⟩
    exact hmeans env henv _ ((hmessages _).mpr hinfo)
  · intro error
    simp only [generateDataTypes, List.mem_flatMap, errors_collectFields,
      List.mem_map, hmessages]
    constructor
    · rintro ⟨info, hinfo, field, hfield, rfl⟩
      exact ⟨info, field, hinfo, hfield, rfl⟩
    · rintro ⟨info, field, hinfo, hfield, rfl⟩
      exact ⟨info, hinfo, field, hfield, rfl⟩

/-- `headers: array<element_type=tuple<key=str, value=str>>;`. -/
def headersData : List (String × Grammar.DataType) :=
  [("headers", .mk "array" [("element_type", .type
    (.mk "tuple" [("key", .type (.mk "str" [])),
      ("value", .type (.mk "str" []))]))])]

/-- The message `h` of such a list. -/
def headersMessage : Message :=
  Grammar.Message.treeOfAttributes [104] "Open" "Closed" "Client" headersData
    headersParts

def headersTokens : List Token :=
  Grammar.ProtocolDescription.tokens
    [.ofAttributes [104] "Open" "Closed" "Client" headersData headersParts]

theorem parse_headersTokens :
    parse headersTokens = some (.ofMessages [headersMessage]) :=
  Grammar.parse_ofAttributes [104] "Open" "Closed" "Client"
    (List.cons_ne_nil _ []) (List.cons_ne_nil _ _) headersParts_accepted

theorem analyze_headersMessage : ∃ protocol,
    Analyze.analyze (.ofMessages [headersMessage]) = some protocol := by
  obtain ⟨writeActions, hwrites⟩ := headersParts_writeActions
  exact ⟨_, @analyze_singleton headersMessage _ _
    headersParts_readActions hwrites⟩

/-- A list of pairs of strings comes out as one. -/
theorem dataTypes_of_source_headers :
    ∃ protocol, Analyze.analyze (.ofMessages [headersMessage]) =
        some protocol ∧
      ∀ env, define [] (generateDataTypes
          (collectMessages protocol)).definitions = some env →
        env.lookup "HData" = some (.record
          [("headers",
            .list (.record [("key", .text), ("value", .text)]))]) := by
  obtain ⟨protocol, hanalyze⟩ := analyze_headersMessage
  obtain ⟨_, hmeans, _⟩ := dataTypes_of_source parse_headersTokens hanalyze
  exact ⟨protocol, hanalyze,
    fun env henv => hmeans env henv [104] headersMessage rfl⟩

end Source

end NetworkProtocolDsl
