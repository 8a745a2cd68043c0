/-
When the emitted structs have different names.

The name of a struct is its place in the message: a field follows an
underscore, the elements of an array follow `Element`.  Fields may have either
in their names, so two places are told apart where no field with structs in it
goes on like that behind another.
-/
import Mathlib.Data.List.Pairwise
import NetworkProtocolDsl.DataTypes

namespace NetworkProtocolDsl

open TypeMapping StructDefinition

/-- What follows the name of a place in the names of its structs. -/
def IsTail (tail : List Char) : Prop :=
  tail = [] ∨ ['_'] <+: tail ∨ "Element".toList <+: tail

/-- The second name goes on behind the first as the name of a struct does. -/
def Continues (first second : List Char) : Prop :=
  first ++ ['_'] <+: second ∨ first ++ "Element".toList <+: second

namespace IsTail

theorem field (name : String) (tail : List Char) :
    IsTail ('_' :: (name.toList ++ tail)) :=
  Or.inr (Or.inl (List.prefix_append ['_'] (name.toList ++ tail)))

theorem element (tail : List Char) : IsTail ("Element".toList ++ tail) :=
  Or.inr (Or.inr (List.prefix_append _ tail))

/-- No tail begins inside of `Element`. -/
theorem not_of_append {first rest : List Char} {c : Char}
    (h : "Element".toList = c :: (first ++ rest)) {tail : List Char}
    (hbegins : rest <+: tail) (hne : rest ≠ []) : ¬ IsTail tail := by
  have hends : rest <:+ "lement".toList :=
    ⟨first, (List.cons.inj h).2.symm⟩
  have hheads : ∀ other ∈ "lement".toList.tails,
      other.head? ≠ some '_' ∧ other.head? ≠ some 'E' := by decide
  obtain ⟨hunderscore, hletter⟩ := hheads rest
    ((List.mem_tails _ _).mpr hends)
  obtain ⟨d, others, rfl⟩ := List.exists_cons_of_ne_nil hne
  obtain ⟨behind, rfl⟩ := hbegins
  rintro (hnil | ⟨more, hmore⟩ | ⟨more, hmore⟩)
  · contradiction
  · exact hunderscore (congrArg List.head? hmore).symm
  · exact hletter (congrArg List.head? hmore).symm

theorem continues_of_append {name rest tail : List Char} (hne : rest ≠ [])
    (h : IsTail (rest ++ tail)) (htail : IsTail tail) :
    Continues name (name ++ rest) := by
  obtain ⟨c, others, rfl⟩ := List.exists_cons_of_ne_nil hne
  rcases h with hnil | ⟨more, hmore⟩ | helement
  · contradiction
  · obtain ⟨rfl, -⟩ := List.cons.inj hmore
    exact Or.inl ⟨others, by simp⟩
  · rcases List.prefix_or_prefix_of_prefix helement
      (List.prefix_append (c :: others) tail) with hinside | ⟨behind, hsplit⟩
    · exact Or.inr ((List.prefix_append_right_inj name).mpr hinside)
    · by_cases hbehind : behind = []
      · refine Or.inr ((List.prefix_append_right_inj name).mpr ?_)
        rw [hbehind, List.append_nil] at hsplit
        rw [hsplit]
      · rw [← hsplit] at helement
        exact absurd htail (not_of_append hsplit.symm
          ((List.prefix_append_right_inj _).mp helement) hbehind)

/-- Tails do not make two names alike unless one continues the other. -/
theorem append_ne {name other tail behind : List Char} (hne : name ≠ other)
    (hname : ¬ Continues name other) (hother : ¬ Continues other name)
    (htail : IsTail tail) (hbehind : IsTail behind) :
    name ++ tail ≠ other ++ behind := by
  intro h
  rcases List.append_eq_append_iff.mp h with ⟨rest, rfl, rfl⟩ | ⟨rest, rfl, rfl⟩
  · refine hname (continues_of_append ?_ htail hbehind)
    rintro rfl
    exact hne (List.append_nil name).symm
  · refine hother (continues_of_append ?_ hbehind htail)
    rintro rfl
    exact hne (List.append_nil other)

end IsTail

/-- A vector of structs, or a struct. -/
def Shape.hasStruct : Shape → Bool
  | .unsigned _ => false
  | .signed _ => false
  | .text => false
  | .list element => element.hasStruct
  | .record _ => true

def DataType.hasStruct (type : DataType) : Bool :=
  type.shape?.any Shape.hasStruct

def TypeParameterValue.hasStruct (value : TypeParameterValue) : Bool :=
  value.shape?.any Shape.hasStruct

/-- The fields of a tuple that have structs. -/
def structFields (parameters : List (String × TypeParameterValue)) :
    List String :=
  (parameters.filter fun parameter => parameter.2.hasStruct).map Prod.fst

/-- The fields of a message that have structs. -/
def structFieldsOf (data : MessageData) : List String :=
  (data.filter fun field => field.2.hasStruct).map Prod.fst

theorem mem_structFields {name : String}
    {parameters : List (String × TypeParameterValue)} :
    name ∈ structFields parameters ↔
      ∃ value, (name, value) ∈ parameters ∧ value.hasStruct = true := by
  simp [structFields]

theorem mem_structFieldsOf {name : String} {data : MessageData} :
    name ∈ structFieldsOf data ↔
      ∃ type, (name, type) ∈ data ∧ type.hasStruct = true := by
  simp [structFieldsOf]

/-- No name goes on behind another as the name of a struct does. -/
def NoneContinues (names : List String) : Prop :=
  ∀ name ∈ names, ∀ other ∈ names, ¬ Continues name.toList other.toList

mutual

/-- In the tuples of the type no field continues another one. -/
def DataType.Separate : DataType → Prop
  | .mk name parameters =>
      (name.name = "tuple" → NoneContinues (structFields parameters)) ∧
        ParametersSeparate parameters

def ParametersSeparate : List (String × TypeParameterValue) → Prop
  | [] => True
  | (_, value) :: parameters => value.Separate ∧ ParametersSeparate parameters

def TypeParameterValue.Separate : TypeParameterValue → Prop
  | .boolean _ => True
  | .integer _ => True
  | .string _ => True
  | .type type => type.Separate

end

/-- The structs of a field have different names, all of them places in it. -/
structure Placed (base : List Char) (name : String)
    (definitions : List StructDefinition) : Prop where
  nodup : (definitions.map StructDefinition.name).Nodup
  place : ∀ definition ∈ definitions, ∃ tail, IsTail tail ∧
    definition.name.toList = base ++ '_' :: (name.toList ++ tail)

/-- The structs of the fields of one place have different names. -/
theorem nodup_of_placed {base : List Char}
    {blocks : List (String × List StructDefinition)}
    (hkeys : (blocks.map Prod.fst).Nodup)
    (hplaced : ∀ block ∈ blocks, Placed base block.1 block.2)
    (happart : ∀ block ∈ blocks, ∀ other ∈ blocks, block.2 ≠ [] →
      other.2 ≠ [] → ¬ Continues block.1.toList other.1.toList) :
    ((blocks.flatMap Prod.snd).map StructDefinition.name).Nodup := by
  induction blocks with
  | nil => exact List.nodup_nil
  | cons block blocks ih =>
      rw [List.map_cons, List.nodup_cons] at hkeys
      have hrest := ih hkeys.2
        (fun other hmem => hplaced other (List.mem_cons_of_mem block hmem))
        (fun first hfirst second hsecond =>
          happart first (List.mem_cons_of_mem block hfirst) second
            (List.mem_cons_of_mem block hsecond))
      rw [List.flatMap_cons, List.map_append]
      refine List.nodup_append.mpr
        ⟨(hplaced block List.mem_cons_self).nodup, hrest, ?_⟩
      rintro name hname _ hother rfl
      obtain ⟨definition, hdefinition, hfirst⟩ := List.mem_map.mp hname
      obtain ⟨second, hsecond, hsame⟩ := List.mem_map.mp hother
      obtain ⟨other, hmem, hsecond⟩ := List.mem_flatMap.mp hsecond
      obtain ⟨tail, htail, hplace⟩ :=
        (hplaced block List.mem_cons_self).place definition hdefinition
      obtain ⟨behind, hbehind, hplace'⟩ :=
        (hplaced other (List.mem_cons_of_mem block hmem)).place second hsecond
      have hne : block.1.toList ≠ other.1.toList := by
        rw [ne_eq, String.toList_inj]
        intro heq
        exact hkeys.1 (heq ▸ List.mem_map_of_mem hmem)
      have hhere := List.ne_nil_of_mem hdefinition
      have hthere := List.ne_nil_of_mem hsecond
      have hmem' := List.mem_cons_of_mem block hmem
      refine IsTail.append_ne hne
        (happart block List.mem_cons_self other hmem' hhere hthere)
        (happart other hmem' block List.mem_cons_self hthere hhere) htail
        hbehind ?_
      rw [hfirst, hsame.symm, hplace'] at hplace
      exact (List.cons.inj (List.append_cancel_left hplace)).2.symm

/-- The structs are those of fields, field by field. -/
def InBlocks (base : List Char) (names structNames : List String)
    (definitions : List StructDefinition) : Prop :=
  ∃ blocks : List (String × List StructDefinition),
    definitions = blocks.flatMap Prod.snd ∧
      (blocks.map Prod.fst).Sublist names ∧
      ∀ block ∈ blocks, Placed base block.1 block.2 ∧
        (block.2 ≠ [] → block.1 ∈ structNames)

namespace InBlocks

variable {base : List Char} {names structNames : List String}
  {definitions others : List StructDefinition} {name : String}

theorem nil : InBlocks base [] [] [] :=
  ⟨[], rfl, List.Sublist.refl _, fun _ hmem => absurd hmem List.not_mem_nil⟩

/-- A field without structs changes nothing. -/
theorem skip (h : InBlocks base names structNames definitions) :
    InBlocks base (name :: names) structNames definitions := by
  obtain ⟨blocks, hsplit, hnames, hblocks⟩ := h
  exact ⟨blocks, hsplit, hnames.cons name, hblocks⟩

theorem mono {moreNames : List String}
    (h : InBlocks base names structNames definitions)
    (hnames : ∀ other ∈ structNames, other ∈ moreNames) :
    InBlocks base names moreNames definitions := by
  obtain ⟨blocks, hsplit, hsublist, hblocks⟩ := h
  refine ⟨blocks, hsplit, hsublist, fun block hmem => ?_⟩
  obtain ⟨hblock, hstruct⟩ := hblocks block hmem
  exact ⟨hblock, fun hne => hnames block.1 (hstruct hne)⟩

theorem cons {moreNames : List String} (hplaced : Placed base name others)
    (hnames : ∀ other ∈ structNames, other ∈ moreNames)
    (hname : others ≠ [] → name ∈ moreNames)
    (h : InBlocks base names structNames definitions) :
    InBlocks base (name :: names) moreNames (others ++ definitions) := by
  obtain ⟨blocks, rfl, hsublist, hblocks⟩ := h
  refine ⟨(name, others) :: blocks, by rw [List.flatMap_cons],
    hsublist.cons_cons name, ?_⟩
  intro block hmem
  rcases List.mem_cons.mp hmem with rfl | hmem
  · exact ⟨hplaced, hname⟩
  · obtain ⟨hblock, hstruct⟩ := hblocks block hmem
    exact ⟨hblock, fun hne => hnames block.1 (hstruct hne)⟩

theorem nodup (h : InBlocks base names structNames definitions)
    (hnames : names.Nodup) (hseparate : NoneContinues structNames) :
    (definitions.map StructDefinition.name).Nodup := by
  obtain ⟨blocks, rfl, hsublist, hblocks⟩ := h
  exact nodup_of_placed (hnames.sublist hsublist)
    (fun block hmem => (hblocks block hmem).1)
    fun block hmem other hother hblock hne =>
      hseparate block.1 ((hblocks block hmem).2 hblock) other.1
        ((hblocks other hother).2 hne)

theorem place (h : InBlocks base names structNames definitions)
    {definition : StructDefinition} (hmem : definition ∈ definitions) :
    ∃ rest, IsTail ('_' :: rest) ∧
      definition.name.toList = base ++ '_' :: rest := by
  obtain ⟨blocks, rfl, _, hblocks⟩ := h
  obtain ⟨block, hblock, hmem⟩ := List.mem_flatMap.mp hmem
  obtain ⟨tail, _, hname⟩ := (hblocks block hblock).1.place definition hmem
  exact ⟨block.1.toList ++ tail, IsTail.field block.1 tail, hname⟩

end InBlocks

/-- The structs have different names, all of them at or behind the place. -/
structure Named (structName : String)
    (definitions : List StructDefinition) : Prop where
  nodup : (definitions.map StructDefinition.name).Nodup
  place : ∀ definition ∈ definitions, ∃ tail, IsTail tail ∧
    definition.name.toList = structName.toList ++ tail

namespace Named

variable {structName : String} {definitions : List StructDefinition}

theorem nil : Named structName [] :=
  ⟨List.nodup_nil, fun _ hmem => absurd hmem List.not_mem_nil⟩

theorem of_element (h : Named (structName ++ "Element") definitions) :
    Named structName definitions := by
  refine ⟨h.nodup, fun definition hmem => ?_⟩
  obtain ⟨tail, _, hname⟩ := h.place definition hmem
  refine ⟨_, IsTail.element tail, ?_⟩
  rw [hname, String.toList_append, List.append_assoc]

theorem placed {name : String}
    (h : Named (structName ++ "_" ++ name) definitions) :
    Placed structName.toList name definitions := by
  refine ⟨h.nodup, fun definition hmem => ?_⟩
  obtain ⟨tail, htail, hname⟩ := h.place definition hmem
  refine ⟨tail, htail, ?_⟩
  rw [hname, String.toList_append, String.toList_append, List.append_assoc,
    List.append_assoc]
  rfl

/-- A struct behind the ones of its fields. -/
theorem of_fields {names structNames : List String}
    {members : List (String × MemberType)}
    (h : InBlocks structName.toList names structNames definitions)
    (hnames : names.Nodup) (hseparate : NoneContinues structNames) :
    Named structName (definitions ++ [⟨structName, members⟩]) := by
  constructor
  · rw [List.map_append, List.map_singleton]
    refine List.nodup_append.mpr
      ⟨h.nodup hnames hseparate, List.nodup_singleton _, ?_⟩
    rintro name hname _ hother rfl
    obtain ⟨definition, hmem, rfl⟩ := List.mem_map.mp hname
    obtain ⟨rest, _, hplace⟩ := h.place hmem
    rw [List.mem_singleton.mp hother] at hplace
    have hlength := congrArg List.length hplace
    simp at hlength
  · intro definition hmem
    rcases List.mem_append.mp hmem with hmem | hmem
    · obtain ⟨rest, htail, hplace⟩ := h.place hmem
      exact ⟨_, htail, hplace⟩
    · obtain rfl := List.mem_singleton.mp hmem
      exact ⟨[], Or.inl rfl, (List.append_nil _).symm⟩

end Named

namespace TypeMapping

mutual

/-- A type that is no struct and no vector of structs needs none. -/
theorem auxiliary_typeToCpp : ∀ (type : DataType) (structName : String)
    (result : TypeMappingResult), typeToCpp type structName = some result →
      type.hasStruct = false → result.auxiliaryDefinitions = []
  | .mk name parameters, structName, result, hresult, hnone => by
      rw [DataType.hasStruct] at hnone
      cases mapped_of_typeToCpp hresult with
      | scalar _ _ => rfl
      | @array element helement hshape =>
          refine auxiliary_elementToCpp parameters _ element helement ?_
          rw [hshape] at hnone
          cases helementShape : elementShape? parameters with
          | none => rfl
          | some shape =>
              rw [helementShape] at hnone
              exact hnone
      | @tuple members nested _ hfields hshape =>
          have hsome := isSome_fieldsToCpp parameters (tupleName structName)
          rw [hfields] at hsome
          obtain ⟨shapes, hshapes⟩ := Option.isSome_iff_exists.mp hsome.symm
          rw [hshape, hshapes] at hnone
          contradiction

theorem auxiliary_elementToCpp :
    ∀ (parameters : List (String × TypeParameterValue)) (structName : String)
      (result : TypeMappingResult),
      elementToCpp parameters structName = some result →
      (elementShape? parameters).any Shape.hasStruct = false →
      result.auxiliaryDefinitions = []
  | [], _, _, hresult, _ => by contradiction
  | (name, value) :: parameters, structName, result, hresult, hnone => by
      rw [elementToCpp] at hresult
      rw [elementShape?] at hnone
      by_cases hname : name = "element_type"
      · rw [if_pos hname] at hresult hnone
        exact auxiliary_valueToCpp value structName result hresult hnone
      · rw [if_neg hname] at hresult hnone
        exact auxiliary_elementToCpp parameters structName result hresult hnone

theorem auxiliary_valueToCpp : ∀ (value : TypeParameterValue)
    (structName : String) (result : TypeMappingResult),
      valueToCpp value structName = some result →
      value.shape?.any Shape.hasStruct = false →
      result.auxiliaryDefinitions = []
  | .type type, structName, result, hresult, hnone =>
      auxiliary_typeToCpp type structName result hresult hnone
  | .boolean _, _, _, hresult, _ => by contradiction
  | .integer _, _, _, hresult, _ => by contradiction
  | .string _, _, _, hresult, _ => by contradiction

end

theorem hasStruct_of_auxiliary {type : DataType} {structName : String}
    {result : TypeMappingResult} (h : typeToCpp type structName = some result)
    (hne : result.auxiliaryDefinitions ≠ []) : type.hasStruct = true := by
  rw [← Bool.not_eq_false]
  exact fun hnone => hne (auxiliary_typeToCpp type structName result h hnone)

mutual

/-- The structs of a type have different names behind its place. -/
theorem typeToCpp_named : ∀ (type : DataType) (structName : String)
    (result : TypeMappingResult), structName ≠ "" → type.Distinct →
      type.Separate → typeToCpp type structName = some result →
      Named structName result.auxiliaryDefinitions
  | .mk name parameters, structName, result, hstart, hdistinct, hseparate,
      hresult => by
      rw [DataType.Distinct] at hdistinct
      rw [DataType.Separate] at hseparate
      cases mapped_of_typeToCpp hresult with
      | scalar _ _ => exact .nil
      | @array element helement _ =>
          exact .of_element (elementToCpp_named parameters _ element (by simp)
            hdistinct.2 hseparate.2 helement)
      | @tuple members nested hname hfields _ =>
          rw [tupleName, if_neg hstart] at hfields ⊢
          exact .of_fields
            (fieldsToCpp_inBlocks parameters structName members nested
              hdistinct.2 hseparate.2 hfields)
            hdistinct.1 (hseparate.1 hname)

theorem elementToCpp_named :
    ∀ (parameters : List (String × TypeParameterValue)) (structName : String)
      (result : TypeMappingResult), structName ≠ "" →
      ParametersDistinct parameters → ParametersSeparate parameters →
      elementToCpp parameters structName = some result →
      Named structName result.auxiliaryDefinitions
  | [], _, _, _, _, _, hresult => by contradiction
  | (name, value) :: parameters, structName, result, hstart, hdistinct,
      hseparate, hresult => by
      rw [ParametersDistinct] at hdistinct
      rw [ParametersSeparate] at hseparate
      rw [elementToCpp] at hresult
      by_cases hname : name = "element_type"
      · rw [if_pos hname] at hresult
        exact valueToCpp_named value structName result hstart hdistinct.1
          hseparate.1 hresult
      · rw [if_neg hname] at hresult
        exact elementToCpp_named parameters structName result hstart
          hdistinct.2 hseparate.2 hresult

theorem valueToCpp_named : ∀ (value : TypeParameterValue)
    (structName : String) (result : TypeMappingResult), structName ≠ "" →
      value.Distinct → value.Separate →
      valueToCpp value structName = some result →
      Named structName result.auxiliaryDefinitions
  | .type type, structName, result, hstart, hdistinct, hseparate, hresult =>
      typeToCpp_named type structName result hstart hdistinct hseparate hresult
  | .boolean _, _, _, _, _, _, hresult => by contradiction
  | .integer _, _, _, _, _, _, hresult => by contradiction
  | .string _, _, _, _, _, _, hresult => by contradiction

theorem fieldsToCpp_inBlocks :
    ∀ (parameters : List (String × TypeParameterValue)) (structName : String)
      (members : List (String × MemberType))
      (definitions : List StructDefinition),
      ParametersDistinct parameters → ParametersSeparate parameters →
      fieldsToCpp parameters structName = some (members, definitions) →
      InBlocks structName.toList (parameters.map Prod.fst)
        (structFields parameters) definitions
  | [], _, _, _, _, _, hresult => by
      obtain ⟨rfl, rfl⟩ := Prod.mk.inj (Option.some.inj hresult)
      exact .nil
  | (name, .type type) :: parameters, structName, members, definitions,
      hdistinct, hseparate, hresult => by
      rw [ParametersDistinct] at hdistinct
      rw [ParametersSeparate] at hseparate
      obtain ⟨mapping, hmapping, hresult⟩ :=
        Option.bind_eq_some_iff.mp hresult
      obtain ⟨⟨rest, nested⟩, hrest, hresult⟩ :=
        Option.map_eq_some_iff.mp hresult
      obtain ⟨rfl, rfl⟩ := Prod.mk.inj hresult
      have hnamed := typeToCpp_named type _ mapping (by simp) hdistinct.1
        hseparate.1 hmapping
      refine .cons hnamed.placed ?_ ?_ (fieldsToCpp_inBlocks parameters
        structName rest nested hdistinct.2 hseparate.2 hrest)
      · intro other hother
        obtain ⟨value, hmem, hstruct⟩ := mem_structFields.mp hother
        exact mem_structFields.mpr
          ⟨value, List.mem_cons_of_mem _ hmem, hstruct⟩
      · intro hne
        exact mem_structFields.mpr ⟨.type type, List.mem_cons_self,
          hasStruct_of_auxiliary hmapping hne⟩
  | (_, .boolean _) :: parameters, structName, members, definitions, hdistinct,
      hseparate, hresult =>
      .skip (fieldsToCpp_inBlocks parameters structName members definitions
        hdistinct.2 hseparate.2 hresult)
  | (_, .integer _) :: parameters, structName, members, definitions, hdistinct,
      hseparate, hresult =>
      .skip (fieldsToCpp_inBlocks parameters structName members definitions
        hdistinct.2 hseparate.2 hresult)
  | (_, .string _) :: parameters, structName, members, definitions, hdistinct,
      hseparate, hresult =>
      .skip (fieldsToCpp_inBlocks parameters structName members definitions
        hdistinct.2 hseparate.2 hresult)

end

end TypeMapping

/-- The fields of the message with structs can be told apart, and in their
tuples the fields can. -/
structure SeparateData (data : MessageData) : Prop where
  fields : NoneContinues (structFieldsOf data)
  types : ∀ field ∈ data, field.2.Separate

namespace GenerateDataTypes

variable {message : MessageInfo}

theorem collectFields_inBlocks {data : MessageData}
    (hdistinct : ∀ field ∈ data, field.2.Distinct)
    (hseparate : ∀ field ∈ data, field.2.Separate) :
    InBlocks (identifierText message.identifier).toList (data.map Prod.fst)
      (structFieldsOf data) (collectFields message data).auxiliary := by
  induction data with
  | nil => exact .nil
  | cons field data ih =>
      obtain ⟨name, type⟩ := field
      have hrest := ih
        (fun other hmem => hdistinct other (List.mem_cons_of_mem _ hmem))
        (fun other hmem => hseparate other (List.mem_cons_of_mem _ hmem))
      have hmore : ∀ other ∈ structFieldsOf data,
          other ∈ structFieldsOf ((name, type) :: data) := by
        intro other hother
        obtain ⟨found, hmem, hstruct⟩ := mem_structFieldsOf.mp hother
        exact mem_structFieldsOf.mpr
          ⟨found, List.mem_cons_of_mem _ hmem, hstruct⟩
      rw [collectFields]
      cases hmapping : typeToCpp type
          (fieldStructName message.identifier name) with
      | none => exact (hrest.mono hmore).skip
      | some mapping =>
          have hnamed := typeToCpp_named type _ mapping
            (by simp [fieldStructName]) (hdistinct _ List.mem_cons_self)
            (hseparate _ List.mem_cons_self) hmapping
          refine .cons hnamed.placed hmore (fun hne => ?_) hrest
          exact mem_structFieldsOf.mpr ⟨type, List.mem_cons_self,
            hasStruct_of_auxiliary hmapping hne⟩

/-- The names of the structs of a message. -/
theorem place_messageStructs (hdistinct : message.Distinct)
    (hseparate : SeparateData message.data) :
    ((messageStructs message).map StructDefinition.name).Nodup ∧
      ∀ definition ∈ messageStructs message,
        definition.name = dataName message.identifier ∨
          ∃ rest, definition.name.toList =
            (identifierText message.identifier).toList ++ '_' :: rest := by
  have hblocks := @collectFields_inBlocks message _ hdistinct.types
    hseparate.types
  have hplace : ∀ definition ∈ (collectFields message message.data).auxiliary,
      ∃ rest, definition.name.toList =
        (identifierText message.identifier).toList ++ '_' :: rest := by
    intro definition hmem
    obtain ⟨rest, _, hname⟩ := hblocks.place hmem
    exact ⟨rest, hname⟩
  constructor
  · rw [messageStructs, List.map_append, List.map_singleton]
    refine List.nodup_append.mpr
      ⟨hblocks.nodup hdistinct.names hseparate.fields,
        List.nodup_singleton _, ?_⟩
    rintro name hname _ hother rfl
    obtain ⟨definition, hmem, rfl⟩ := List.mem_map.mp hname
    obtain ⟨rest, hrest⟩ := hplace definition hmem
    rw [List.mem_singleton.mp hother, dataName, String.toList_append] at hrest
    exact absurd (List.append_cancel_left hrest) (by simp)
  · intro definition hmem
    rcases List.mem_append.mp hmem with hmem | hmem
    · exact Or.inr (hplace definition hmem)
    · rw [List.mem_singleton.mp hmem]
      exact Or.inl rfl

end GenerateDataTypes

section Identifiers

theorem toNat_ofNat_byte (b : UInt8) : (Char.ofNat b.toNat).toNat = b.toNat := by
  have hbyte : b.toNat < 256 := b.toNat_lt
  have hchar : b.toNat.isValidChar := Or.inl (by omega)
  rw [Char.ofNat, dif_pos hchar]
  rfl

theorem identifierText_inj {first second : Octets}
    (h : identifierText first = identifierText second) : first = second := by
  have hlists := String.ofList_inj.mp h
  refine List.map_injective_iff.mpr (fun b c hbc => ?_) hlists
  have hnat := congrArg Char.toNat hbc
  rw [toNat_ofNat_byte, toNat_ofNat_byte] at hnat
  exact UInt8.toNat_inj.mp hnat

theorem dataName_inj {first second : Octets}
    (h : dataName first = dataName second) : first = second :=
  identifierText_inj ((String.append_left_inj "Data").mp h)

theorem isAlnum_toUpper {b : UInt8} (h : isAlnum b = true) :
    isAlnum (toUpper b) = true := by
  rw [toUpper]
  split
  · rename_i hlower
    have hstep : (32 : UInt8) ≤ 97 := by decide
    have hupper : (b - 32).toNat = b.toNat - 32 :=
      UInt8.toNat_sub_of_le _ _ (UInt8.le_trans hstep hlower.1)
    simp only [UInt8.le_iff_toNat_le] at hlower
    simp only [isAlnum, isLetterByte, Bool.or_eq_true, Bool.and_eq_true,
      decide_eq_true_eq, UInt8.le_iff_toNat_le, hupper]
    simp at hlower ⊢
    omega
  · exact h

theorem isAlnum_of_mem_appendCharacters {name : Octets} {b : UInt8} :
    ∀ capitalizeNext, b ∈ appendCharacters capitalizeNext name →
      isAlnum b = true := by
  induction name with
  | nil => exact fun _ hmem => absurd hmem List.not_mem_nil
  | cons c name ih =>
      intro capitalizeNext hmem
      rw [appendCharacters] at hmem
      split at hmem
      · exact ih true hmem
      · split at hmem
        · rename_i hc
          rcases List.mem_cons.mp hmem with rfl | hmem
          · cases capitalizeNext with
            | true => exact isAlnum_toUpper hc
            | false => exact hc
          · exact ih false hmem
        · exact ih capitalizeNext hmem

/-- There is no underscore in the identifier of a message. -/
theorem underscore_not_mem_identifierText (name : Octets) :
    '_' ∉ (identifierText (messageNameToIdentifier name)).toList := by
  intro hmem
  rw [identifierText, String.toList_ofList] at hmem
  obtain ⟨b, hb, hchar⟩ := List.mem_map.mp hmem
  have halnum := isAlnum_of_mem_appendCharacters true hb
  have hnat := congrArg Char.toNat hchar
  rw [toNat_ofNat_byte] at hnat
  have hbyte : b = 95 := UInt8.toNat_inj.mp hnat
  rw [hbyte] at halnum
  exact absurd halnum (by decide)

/-- What is in front of the first underscore. -/
theorem eq_of_append_underscore {first second rest others : List Char}
    (hfirst : '_' ∉ first) (hsecond : '_' ∉ second)
    (h : first ++ '_' :: rest = second ++ '_' :: others) : first = second := by
  have htake : ∀ front behind : List Char, '_' ∉ front →
      (front ++ '_' :: behind).takeWhile (· ≠ '_') = front := by
    intro front behind hfront
    rw [List.takeWhile_append_of_pos, List.takeWhile_cons_of_neg (by simp),
      List.append_nil]
    intro c hc
    exact decide_eq_true fun heq => hfront (heq ▸ hc)
  rw [← htake first rest hfirst, h, htake second others hsecond]

end Identifiers

section Source

open ProtocolInfo GenerateDataTypes MessageInfo

/-- Structs of messages with different identifiers have different names. -/
theorem name_ne_of_messageStructs {first second : MessageInfo}
    (hfirst : first.identifier = messageNameToIdentifier first.name)
    (hsecond : second.identifier = messageNameToIdentifier second.name)
    (hdistinct : first.Distinct) (hdistinct' : second.Distinct)
    (hseparate : SeparateData first.data)
    (hseparate' : SeparateData second.data)
    (hne : first.identifier ≠ second.identifier)
    {definition other : StructDefinition}
    (hmem : definition ∈ messageStructs first)
    (hmem' : other ∈ messageStructs second) :
    definition.name ≠ other.name := by
  have hplain := underscore_not_mem_identifierText first.name
  have hplain' := underscore_not_mem_identifierText second.name
  rw [← hfirst] at hplain
  rw [← hsecond] at hplain'
  have htexts : (identifierText first.identifier).toList ≠
      (identifierText second.identifier).toList := by
    rw [ne_eq, String.toList_inj]
    exact fun heq => hne (identifierText_inj heq)
  have hdata : ∀ {identifier : Octets},
      '_' ∉ (identifierText identifier).toList →
        '_' ∉ (dataName identifier).toList := by
    intro identifier hplain hin
    rw [dataName, String.toList_append] at hin
    rcases List.mem_append.mp hin with hin | hin
    · exact hplain hin
    · exact absurd hin (by decide)
  intro hsame
  rcases (place_messageStructs hdistinct hseparate).2 definition hmem with
    hname | ⟨rest, hname⟩
  · rcases (place_messageStructs hdistinct' hseparate').2 other hmem' with
      hname' | ⟨rest', hname'⟩
    · rw [hname, hname'] at hsame
      exact hne (dataName_inj hsame)
    · rw [← hsame, hname] at hname'
      exact hdata hplain (hname' ▸ List.mem_append_right _ List.mem_cons_self)
  · rcases (place_messageStructs hdistinct' hseparate').2 other hmem' with
      hname' | ⟨rest', hname'⟩
    · rw [hsame, hname'] at hname
      exact hdata hplain' (hname ▸ List.mem_append_right _ List.mem_cons_self)
    · rw [hsame, hname'] at hname
      exact htexts (eq_of_append_underscore hplain' hplain hname).symm

variable {tokens : List Token} {description : ProtocolDescription}
  {protocol : Protocol}

/-- What is collected of a message. -/
theorem MessageInfo.of_mem (entry : Octets × Message)
    (hentry : entry ∈ description.messages) :
    MessageInfo.Of ⟨entry.1, messageNameToIdentifier entry.1,
      entry.2.whenState.name, entry.2.thenState.name, .client, entry.2.data⟩
      description :=
  ⟨entry.2, Assoc.lookup_of_mem description.nodup hentry, rfl, rfl, rfl, rfl,
    rfl⟩

theorem definitions_names (messages : List MessageInfo) :
    (generateDataTypes messages).definitions.map StructDefinition.name =
      messages.flatMap fun message =>
        (messageStructs message).map StructDefinition.name := by
  rw [generateDataTypes, List.map_flatMap]

/-- Two messages with one identifier have a struct with one name. -/
theorem identifier_ne_of_nodup {messages : List MessageInfo}
    (h : (messages.flatMap fun message =>
      (messageStructs message).map StructDefinition.name).Nodup)
    {first second : MessageInfo} (hfirst : first ∈ messages)
    (hsecond : second ∈ messages) (hne : first ≠ second) :
    first.identifier ≠ second.identifier := by
  have hmem : ∀ message : MessageInfo, dataName message.identifier ∈
      (messageStructs message).map StructDefinition.name := by
    intro message
    rw [messageStructs, List.map_append]
    exact List.mem_append_right _ List.mem_cons_self
  have hpairwise : messages.Pairwise
      fun first second => first.identifier ≠ second.identifier := by
    refine (List.nodup_flatMap.mp h).2.imp fun {first second} hdisjoint heq => ?_
    exact hdisjoint (hmem first) (heq ▸ hmem second)
  have : Std.Symm fun first second : MessageInfo =>
      first.identifier ≠ second.identifier := ⟨fun _ _ hne => hne.symm⟩
  exact hpairwise.forall hfirst hsecond hne

/-- Where the fields with structs can be told apart, the structs of an accepted
source can be defined in their order exactly if different messages have
different identifiers. -/
theorem define_dataTypes_iff (hparse : parse tokens = some description)
    (hanalyze : Analyze.analyze description = some protocol)
    (hseparate : ∀ entry ∈ description.messages,
      SeparateData entry.2.data) :
    (∃ env, define []
        (generateDataTypes (collectMessages protocol)).definitions =
          some env) ↔
      ∀ entry ∈ description.messages, ∀ other ∈ description.messages,
        entry.1 ≠ other.1 →
          messageNameToIdentifier entry.1 ≠ messageNameToIdentifier other.1 := by
  have hcollected := Analyze.collectedFrom_of_analyze hanalyze
  have hmessages := hcollected.messages
  have hdistinct : ∀ info ∈ collectMessages protocol, info.Distinct :=
    fun info hinfo => distinct_of_parse hparse ((hmessages info).mp hinfo)
  rw [(define_generateDataTypes hdistinct).1, definitions_names]
  constructor
  · intro hnodup entry hentry other hother hne
    have hinfo := fun entry hentry => (hmessages _).mpr
      (MessageInfo.of_mem entry hentry)
    exact identifier_ne_of_nodup hnodup (hinfo entry hentry)
      (hinfo other hother) fun heq => hne (congrArg MessageInfo.name heq)
  · intro hidentifiers
    have hnodup : (collectMessages protocol).Nodup :=
      List.Nodup.of_map MessageInfo.name hcollected.messagesOnce
    have hdata : ∀ info ∈ collectMessages protocol,
        info.identifier = messageNameToIdentifier info.name ∧
          ∃ entry ∈ description.messages, entry.1 = info.name ∧
            entry.2.data = info.data := by
      intro info hinfo
      obtain ⟨message, hmessage, hidentifier, _, _, _, hdata⟩ :=
        (hmessages info).mp hinfo
      exact ⟨hidentifier, _, Assoc.mem_of_lookup hmessage, rfl, hdata.symm⟩
    refine List.nodup_flatMap.mpr ⟨fun info hinfo => ?_,
      hnodup.pairwise_of_forall_ne fun first hfirst second hsecond hne => ?_⟩
    · obtain ⟨_, entry, hentry, _, hsame⟩ := hdata info hinfo
      exact (place_messageStructs (hdistinct info hinfo)
        (hsame ▸ hseparate entry hentry)).1
    · obtain ⟨hidentifier, entry, hentry, hname, hsame⟩ := hdata first hfirst
      obtain ⟨hidentifier', other, hother, hname', hsame'⟩ :=
        hdata second hsecond
      have hnames : first.name ≠ second.name := fun heq =>
        hne (List.inj_on_of_nodup_map hcollected.messagesOnce hfirst hsecond
          heq)
      have happart : first.identifier ≠ second.identifier := by
        rw [hidentifier, hidentifier', ← hname, ← hname']
        refine hidentifiers entry hentry other hother ?_
        rw [hname, hname']
        exact hnames
      intro name hin hin'
      obtain ⟨definition, hdefinition, rfl⟩ := List.mem_map.mp hin
      obtain ⟨behind, hbehind, heq⟩ := List.mem_map.mp hin'
      exact name_ne_of_messageStructs hidentifier hidentifier'
        (hdistinct first hfirst) (hdistinct second hsecond)
        (hsame ▸ hseparate entry hentry) (hsame' ▸ hseparate other hother)
        happart hdefinition hbehind heq.symm

theorem separateData_headers : SeparateData headersMessage.data := by
  constructor
  · intro name hname other hother
    have hfields : structFieldsOf headersMessage.data = ["headers"] := rfl
    rw [hfields, List.mem_singleton] at hname hother
    rw [hname, hother, Continues]
    decide
  · intro field hfield
    have hdata : headersMessage.data = [("headers", .mk (.mk "array" none)
        [("element_type", .type (.mk (.mk "tuple" none)
          [("key", .type (.mk (.mk "str" none) [])),
            ("value", .type (.mk (.mk "str" none) []))]))])] := rfl
    rw [hdata, List.mem_singleton] at hfield
    rw [hfield]
    simp [DataType.Separate, ParametersSeparate, TypeParameterValue.Separate,
      NoneContinues, structFields, TypeParameterValue.hasStruct,
      TypeParameterValue.shape?, DataType.shape?, IdentifierReference.name,
      Shape.hasStruct]

/-- The same list in a message `h 2`. -/
def nextHeadersMessage : Message :=
  Grammar.Message.treeOfAttributes [104, 32, 50] "Open" "Closed" "Client"
    headersData headersParts

theorem parse_twoHeaders :
    parse (Grammar.ProtocolDescription.tokens
        [.ofAttributes [104] "Open" "Closed" "Client" headersData headersParts,
          .ofAttributes [104, 32, 50] "Open" "Closed" "Client" headersData
            headersParts]) =
      some (.ofMessages [headersMessage, nextHeadersMessage]) := by
  refine Grammar.parse_of_trees ⟨List.cons_ne_nil _ _, ?_⟩ rfl
  have haccepted := fun name => Grammar.Message.accepted_ofAttributes name
    "Open" "Closed" "Client" (List.cons_ne_nil _ _ : headersData ≠ [])
    (List.cons_ne_nil _ _) headersParts_accepted
  intro message hmessage
  rcases List.mem_pair.mp hmessage with rfl | rfl <;> exact haccepted _

theorem messages_twoHeaders :
    (ProtocolDescription.ofMessages
      [headersMessage, nextHeadersMessage]).messages =
        [([104], headersMessage), ([104, 32, 50], nextHeadersMessage)] :=
  rfl

/-- The structs of two messages with lists of tuples are `H…` and `H2…`. -/
theorem define_dataTypes_iff_headers :
    ∃ protocol, Analyze.analyze
        (.ofMessages [headersMessage, nextHeadersMessage]) = some protocol ∧
      ∃ env, define [] (generateDataTypes
        (collectMessages protocol)).definitions = some env := by
  have hparts : ∀ entry ∈ (ProtocolDescription.ofMessages
      [headersMessage, nextHeadersMessage]).messages,
        entry.2.parts = Grammar.messageSequenceTree headersParts ∧
          SeparateData entry.2.data := by
    intro entry hentry
    rw [messages_twoHeaders] at hentry
    rcases List.mem_pair.mp hentry with rfl | rfl <;>
      exact ⟨rfl, separateData_headers⟩
  obtain ⟨protocol, hanalyze⟩ := Analyze.analyze_of_parts fun entry hentry => by
    rw [(hparts entry hentry).1]
    exact ⟨⟨_, headersParts_readActions⟩, headersParts_writeActions⟩
  refine ⟨protocol, hanalyze,
    (define_dataTypes_iff parse_twoHeaders hanalyze
      fun entry hentry => (hparts entry hentry).2).mpr ?_⟩
  intro entry hentry other hother hne
  rw [messages_twoHeaders] at hentry hother
  rcases List.mem_pair.mp hentry with rfl | rfl <;>
    rcases List.mem_pair.mp hother with rfl | rfl
  · contradiction
  · decide
  · decide
  · contradiction

end Source

end NetworkProtocolDsl
