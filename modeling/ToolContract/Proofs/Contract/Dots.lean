import ToolContract.Proofs.Contract.Locality
import ToolContract.Proofs.Contract.Validation

/-!
# Leading dots

A reference may be absolute: it may have leading dots, which belong to no name. Two registries that
differ in such dots alone, in whatever references and however many, are compiled through the same
steps on the same tables. So they give the same contracts, under dotted names as well, and no
contract has a name or a reference with a leading dot (`Compiler.contract_dotted`).
-/

set_option autoImplicit false

namespace ToolContract

/-! ## Dotted names -/

namespace QualifiedName

/-- The name after some leading dots. -/
def dotted (dots : Nat) (name : String) : String :=
  String.ofList (List.replicate dots '.') ++ name

@[simp] theorem strip_dotted (dots : Nat) (name : String) : strip (dotted dots name) = strip name := by
  have leading : ((dotted dots name).toList.dropWhile (· = '.')) =
      name.toList.dropWhile (· = '.') := by
    rw [dotted, String.toList_append, String.toList_ofList]
    induction dots with
    | zero => rfl
    | succ dots ih => rwa [List.replicate_succ, List.cons_append, List.dropWhile_cons_of_pos (by decide)]
  rw [strip, strip, leading]

@[simp] theorem dotted_zero (name : String) : dotted 0 name = name :=
  String.empty_append

/-- The name does not start with a dot. -/
def Plain (name : String) : Prop :=
  name.toList.head? ≠ some '.'

theorem plain_strip (name : String) : Plain (strip name) := by
  rw [Plain, strip, String.toList_ofList]
  intro first
  have := List.head?_dropWhile_not (· = '.') name.toList
  rw [first] at this
  simp at this

end QualifiedName

open QualifiedName

@[simp] theorem WellKnown.ofName?_dotted (dots : Nat) (name : String) :
    ofName? (dotted dots name) = ofName? name := by
  rw [ofName?, ofName?, strip_dotted]

@[simp] theorem Registry.message?_dotted (registry : Registry) (dots : Nat) (name : String) :
    registry.message? (dotted dots name) = registry.message? name := by
  rw [message?, message?, strip_dotted]

@[simp] theorem Registry.enumeration?_dotted (registry : Registry) (dots : Nat) (name : String) :
    registry.enumeration? (dotted dots name) = registry.enumeration? name := by
  rw [enumeration?, enumeration?, strip_dotted]

/-! ## Descriptors whose references get leading dots -/

inductive FieldKind.Dotted : FieldKind → FieldKind → Prop where
  | scalar (type : Scalar) : Dotted (.scalar type) (.scalar type)
  | enumeration (dots : Nat) (name : String) :
    Dotted (.enumeration name) (.enumeration (dotted dots name))
  | message (dots : Nat) (name : String) : Dotted (.message name) (.message (dotted dots name))
  | group (name : String) : Dotted (.group name) (.group name)

inductive Cardinality.Dotted : Cardinality → Cardinality → Prop where
  | singular : Dotted .singular .singular
  | repeated : Dotted .repeated .repeated
  | map {key other : FieldKind} : key.Dotted other → Dotted (.map key) (.map other)

inductive Field.Dotted (field : Field) : Field → Prop where
  | intro {kind : FieldKind} {cardinality : Cardinality} :
    field.kind.Dotted kind → field.cardinality.Dotted cardinality →
    Field.Dotted field { field with kind := kind, cardinality := cardinality }

inductive Message.Dotted (message : Message) : Message → Prop where
  | intro {fields : List Field} :
    List.Forall₂ Field.Dotted message.fields fields →
    Message.Dotted message { message with fields := fields }

/-- The second registry has the messages of the first, with some references dotted, and the same
enums. No contract is about a service. -/
structure Registry.Dotted (registry other : Registry) : Prop where
  messages : ∀ name, Option.Rel Message.Dotted (registry.message? name) (other.message? name)
  enumerations : ∀ name, registry.enumeration? name = other.enumeration? name

inductive Slot.Dotted : Slot → Slot → Prop where
  | plain {field other : Field} : field.Dotted other → Dotted (.plain field) (.plain other)
  | group {name : String} {members others : List Field} :
    List.Forall₂ Field.Dotted members others → Dotted (.group name members) (.group name others)

/-! ### References without more dots -/

private theorem FieldKind.Dotted.refl (kind : FieldKind) : kind.Dotted kind := by
  cases kind with
  | scalar type => exact .scalar type
  | enumeration name => simpa using FieldKind.Dotted.enumeration 0 name
  | message name => simpa using FieldKind.Dotted.message 0 name
  | group name => exact .group name

private theorem Cardinality.Dotted.refl (cardinality : Cardinality) :
    cardinality.Dotted cardinality := by
  cases cardinality with
  | singular => exact .singular
  | repeated => exact .repeated
  | map key => exact .map (.refl key)

private theorem Field.Dotted.refl (field : Field) : field.Dotted field :=
  .intro (.refl field.kind) (.refl field.cardinality)

private theorem Message.Dotted.refl (message : Message) : message.Dotted message :=
  .intro (List.forall₂_same.mpr fun field _ => .refl field)

private theorem Registry.Dotted.refl (registry : Registry) : registry.Dotted registry where
  messages name := by
    cases registry.message? name with
    | none => exact .none
    | some message => exact .some (.refl message)
  enumerations _ := rfl

/-! ### What the dots leave alone -/

private theorem FieldKind.Dotted.keyForm?_eq {kind other : FieldKind} (dotted : kind.Dotted other) :
    other.keyForm? = kind.keyForm? := by
  cases dotted <;> rfl

namespace Field.Dotted

variable {field other : Field}

private theorem name_eq (dotted : field.Dotted other) : other.name = field.name := by
  cases dotted
  rfl

private theorem oneof_eq (dotted : field.Dotted other) : other.oneof = field.oneof := by
  cases dotted
  rfl

private theorem markedRequired_eq (dotted : field.Dotted other) :
    other.markedRequired = field.markedRequired := by
  cases dotted
  rfl

private theorem isRequired_eq (dotted : field.Dotted other) (options : Options) :
    other.isRequired options = field.isRequired options := by
  cases dotted with
  | @intro kind cardinality _ shape =>
    rcases field with ⟨name, ownKind, own⟩
    cases shape <;> rfl

end Field.Dotted

private theorem forall₂_filter_dotted {fields others : List Field}
    (pairs : List.Forall₂ Field.Dotted fields others) (group : String) :
    List.Forall₂ Field.Dotted (fields.filter fun field => field.oneof = some group)
      (others.filter fun field => field.oneof = some group) :=
  List.rel_filter (fun _ _ pair => by simp [pair.oneof_eq]) pairs

namespace Slot.Dotted

variable {slot other : Slot}

private theorem property_eq (dotted : slot.Dotted other) : other.property = slot.property := by
  cases dotted with
  | plain field => exact field.name_eq
  | group members => rfl

private theorem isRequired_eq (dotted : slot.Dotted other) (options : Options) :
    other.isRequired options = slot.isRequired options := by
  cases dotted with
  | plain field => exact field.isRequired_eq options
  | group members =>
    rw [Slot.isRequired, Slot.isRequired, groupIsRequired, groupIsRequired]
    congr 1
    induction members with
    | nil => rfl
    | cons first _ ih => rw [List.any_cons, List.any_cons, first.markedRequired_eq, ih]

private theorem required_eq {slots others : List Slot}
    (pairs : List.Forall₂ Slot.Dotted slots others)
    (options : Options) :
    (others.filter fun slot => slot.isRequired options).map Slot.property =
      (slots.filter fun slot => slot.isRequired options).map Slot.property := by
  induction pairs with
  | nil => rfl
  | cons first _ ih =>
    rw [List.filter_cons, List.filter_cons, first.isRequired_eq]
    split
    · rw [List.map_cons, List.map_cons, first.property_eq, ih]
    · exact ih

end Slot.Dotted

private theorem Message.Dotted.fullName_eq {message other : Message}
    (dotted : message.Dotted other) :
    other.fullName = message.fullName := by
  cases dotted
  rfl

/-- A message may be registered together with one whose references have more dots. -/
theorem Registry.Dotted.addMessage {registry other : Registry} (registries : registry.Dotted other)
    {message messageOther : Message} (dotted : message.Dotted messageOther) :
    (registry.addMessage message).Dotted (other.addMessage messageOther) where
  messages name := by
    rw [message?_addMessage, message?_addMessage, dotted.fullName_eq]
    split
    · cases dotted with
      | intro pairs => exact .some (.intro pairs)
    · exact registries.messages name
  enumerations := registries.enumerations

private theorem Message.Dotted.slots {message other : Message} (dotted : message.Dotted other) :
    List.Forall₂ Slot.Dotted message.slots other.slots := by
  cases dotted with
  | @intro fields pairs =>
    have members := forall₂_filter_dotted pairs
    have from_ {rest others : List Field} (rests : List.Forall₂ Field.Dotted rest others)
        (met : List String) :
        List.Forall₂ Slot.Dotted (message.slotsFrom met rest)
          ({ message with fields := fields }.slotsFrom met others) := by
      induction rests generalizing met with
      | nil => exact .nil
      | @cons field other _ _ first _ ih =>
        rw [slotsFrom, slotsFrom, first.oneof_eq]
        cases field.oneof with
        | none => exact .cons (.plain first) (ih met)
        | some group =>
          dsimp only
          split
          · exact ih met
          · exact .cons (.group (members group)) (ih (group :: met))
    exact from_ pairs []

/-! ## Steps that succeed alike -/

/-- Where one of the steps succeeds the other one does, with the same value and the same table. The
causes of failures may differ, since a cause names a type as it was referred to. -/
def Step.Alike {α : Type} (step other : Step α) : Prop :=
  ∀ before value after, step before = (.ok value, after) ↔ other before = (.ok value, after)

namespace Step.Alike

variable {α β : Type} {step other : Step α} {next nextOther : α → Step β}

private theorem refl (step : Step α) : step.Alike step :=
  fun _ _ _ => Iff.rfl

private theorem fail (cause another : SchemaError) :
    (Step.fail cause : Step α).Alike (.fail another) :=
  fun _ _ _ => ⟨nofun, nofun⟩

private theorem bind (first : step.Alike other)
    (later : ∀ value, (next value).Alike (nextOther value)) :
    (step >>= next).Alike (other >>= nextOther) := by
  intro before value after
  constructor
  · intro ran
    obtain ⟨passed, middle, start, rest⟩ := bind_eq_ok ran
    rw [bind_of_ok ((first _ _ _).mp start)]
    exact (later passed _ _ _).mp rest
  · intro ran
    obtain ⟨passed, middle, start, rest⟩ := bind_eq_ok ran
    rw [bind_of_ok ((first _ _ _).mpr start)]
    exact (later passed _ _ _).mpr rest

end Step.Alike

/-- The second resolver finds under each dotted name what the first finds under the name. -/
def Resolver.Alike (resolve another : Resolver) : Prop :=
  ∀ dots name, (resolve name).Alike (another (dotted dots name))

namespace Compiler

variable {registry other : Registry} (options : Options) {resolve another : Resolver}

private theorem kindSchema_alike (registries : registry.Dotted other)
    (resolvers : resolve.Alike another)
    {kind kindOther : FieldKind} (dotted : kind.Dotted kindOther) :
    ((mk registry options).kindSchema resolve kind).Alike
      ((mk other options).kindSchema another kindOther) := by
  cases dotted with
  | scalar type => exact .refl _
  | enumeration dots name =>
    rw [kindSchema, kindSchema, Registry.enumeration?_dotted, registries.enumerations]
    cases other.enumeration? name with
    | none => exact .fail _ _
    | some enumeration => exact .refl _
  | message dots name =>
    rw [kindSchema, kindSchema, WellKnown.ofName?_dotted]
    cases WellKnown.ofName? name with
    | some type => exact .refl _
    | none => exact (resolvers dots name).bind fun _ => .refl _
  | group name => exact .fail _ _

private theorem fieldSchemaWith_alike (registries : registry.Dotted other)
    (resolvers : resolve.Alike another) {field fieldOther : Field}
    (dotted : field.Dotted fieldOther) :
    ((mk registry options).fieldSchemaWith resolve field).Alike
      ((mk other options).fieldSchemaWith another fieldOther) := by
  cases dotted with
  | @intro kind cardinality kinds shapes =>
    have compiled := kindSchema_alike options registries resolvers kinds
    refine Step.Alike.bind ?_ fun _ => .refl _
    rcases field with ⟨name, ownKind, own⟩
    rw [valueSchema, valueSchema]
    cases shapes with
    | singular => exact compiled
    | repeated => exact compiled.bind fun _ => .refl _
    | map keys =>
      refine compiled.bind fun values => ?_
      dsimp only
      rw [keys.keyForm?_eq]
      split
      · exact .refl _
      · exact .fail _ _

private theorem inlined?_alike (resolvers : resolve.Alike another) {member memberOther : Field}
    (dotted : member.Dotted memberOther) :
    (inlined? resolve member).Alike (inlined? another memberOther) := by
  cases dotted with
  | @intro kind cardinality kinds shapes =>
    rcases member with ⟨name, ownKind, own⟩
    cases kinds with
    | message dots target =>
      cases shapes with
      | singular =>
        rw [inlined?, inlined?]
        dsimp only
        rw [WellKnown.ofName?_dotted]
        cases WellKnown.ofName? target with
        | some type => exact .refl _
        | none => exact (resolvers dots target).bind fun _ => .refl _
      | _ => exact .refl _
    | _ => cases shapes <;> exact .refl _

private theorem variant_alike (registries : registry.Dotted other)
    (resolvers : resolve.Alike another)
    {member memberOther : Field} (dotted : member.Dotted memberOther) :
    ((mk registry options).variant resolve member).Alike
      ((mk other options).variant another memberOther) := by
  refine (inlined?_alike resolvers dotted).bind fun found => ?_
  cases found with
  | some definition =>
    cases dotted
    exact .refl _
  | none =>
    have value := fieldSchemaWith_alike options registries resolvers dotted
    cases dotted
    exact value.bind fun _ => .refl _

private theorem variants_alike (registries : registry.Dotted other)
    (resolvers : resolve.Alike another)
    {members others : List Field} (pairs : List.Forall₂ Field.Dotted members others) :
    ((mk registry options).variants resolve members).Alike
      ((mk other options).variants another others) := by
  induction pairs with
  | nil => exact .refl _
  | cons first _ ih =>
    exact (variant_alike options registries resolvers first).bind fun _ => ih.bind fun _ => .refl _

private theorem slotSchema_alike (registries : registry.Dotted other)
    (resolvers : resolve.Alike another)
    {slot slotOther : Slot} (dotted : slot.Dotted slotOther) :
    ((mk registry options).slotSchema resolve slot).Alike
      ((mk other options).slotSchema another slotOther) := by
  cases dotted with
  | plain field => exact fieldSchemaWith_alike options registries resolvers field
  | group members => exact (variants_alike options registries resolvers members).bind fun _ => .refl _

private theorem properties_alike (registries : registry.Dotted other)
    (resolvers : resolve.Alike another)
    (owner : String) {slots others : List Slot} (pairs : List.Forall₂ Slot.Dotted slots others)
    (done : Entries Schema) :
    ((mk registry options).properties resolve owner done slots).Alike
      ((mk other options).properties another owner done others) := by
  induction pairs generalizing done with
  | nil => exact .refl _
  | cons first _ ih =>
    refine (slotSchema_alike options registries resolvers first).bind fun schema => ?_
    rw [first.property_eq]
    split
    · exact .fail _ _
    · exact ih _

private theorem body_alike (registries : registry.Dotted other) (resolvers : resolve.Alike another)
    {message messageOther : Message} (dotted : message.Dotted messageOther) :
    ((mk registry options).body resolve message).Alike
      ((mk other options).body another messageOther) := by
  have required := Slot.Dotted.required_eq dotted.slots options
  have compiled := fun owner done =>
    properties_alike options registries resolvers owner dotted.slots done
  cases dotted
  refine (compiled _ _).bind fun properties => ?_
  dsimp only
  rw [required]
  exact .refl _

private theorem messageSchemaWith_alike (registries : registry.Dotted other)
    (resolvers : resolve.Alike another) {message messageOther : Message}
    (dotted : message.Dotted messageOther) :
    ((mk registry options).messageSchemaWith resolve message).Alike
      ((mk other options).messageSchemaWith another messageOther) := by
  have compiled := body_alike options registries resolvers dotted
  have named := dotted.fullName_eq
  intro before schema after
  by_cases present : message.fullName ∈ before.keys
  · rw [messageSchemaWith_of_mem present, messageSchemaWith_of_mem (named ▸ present)]
    exact compiled before schema after
  · rw [messageSchemaWith_eq_ok_iff present, messageSchemaWith_eq_ok_iff (named ▸ present), named]
    exact exists_congr fun middle => and_congr_left fun _ => compiled _ _ _

private theorem ensure_alike (registries : registry.Dotted other)
    {compile compileOther : Message → Step ObjectSchema}
    (compiled : ∀ {message messageOther}, message.Dotted messageOther →
      (compile message).Alike (compileOther messageOther)) :
    Resolver.Alike ((mk registry options).ensure compile) ((mk other options).ensure compileOther) := by
  intro dots name before kept after
  have pair := registries.messages name
  rw [ensure_eq_ok_iff, ensure_eq_ok_iff, Registry.message?_dotted]
  dsimp only
  generalize registry.message? name = found at pair ⊢
  generalize other.message? name = foundOther at pair ⊢
  cases pair with
  | none => simp
  | @some message messageOther dotted =>
    have same (schema : ObjectSchema) := compiled dotted before schema after
    simp [dotted.fullName_eq, same]

private theorem resolver_alike (registries : registry.Dotted other) (depth : Nat) :
    Resolver.Alike ((mk registry options).resolver depth) ((mk other options).resolver depth) := by
  induction depth with
  | zero => exact ensure_alike options registries fun _ => .fail _ _
  | succ depth ih => exact ensure_alike options registries (messageSchemaWith_alike options registries ih)

/-- Both resolvers are taken as deep as the larger of the registries, which changes neither. -/
theorem messageSchema_alike (registries : registry.Dotted other) {message messageOther : Message}
    (dotted : message.Dotted messageOther) :
    ((mk registry options).messageSchema message).Alike
      ((mk other options).messageSchema messageOther) := by
  let depth := max registry.messages.size other.messages.size
  have bounded : ((mk registry options).messageSchemaWith
      ((mk registry options).resolver depth) message).Alike
      ((mk other options).messageSchemaWith ((mk other options).resolver depth) messageOther) :=
    messageSchemaWith_alike options registries (resolver_alike options registries depth) dotted
  intro before schema after
  have same := bounded before schema after
  rwa [messageSchemaWith_resolver (mk registry options) message before (Nat.le_max_left _ _),
    messageSchemaWith_resolver (mk other options) messageOther before (Nat.le_max_right _ _)] at same

private theorem contract_alike (registries : registry.Dotted other) (dots : Nat) (name : String)
    (contract : Contract) :
    (mk registry options).contract name = .ok contract ↔
      (mk other options).contract (dotted dots name) = .ok contract := by
  have pair := registries.messages name
  rw [contract_eq_ok_iff, contract_eq_ok_iff, Registry.message?_dotted]
  dsimp only
  generalize registry.message? name = found at pair ⊢
  generalize other.message? name = foundOther at pair ⊢
  cases pair with
  | none => simp
  | some dotted => simp [messageSchema_alike options registries dotted [] contract.root _]

end Compiler

/-! ## Names and references of a contract -/

namespace Contract.Describes

variable {compiler : Compiler} {name : String} {contract : Contract}

private theorem plain_of_mem_keys (describes : contract.Describes compiler (strip name))
    {next : String}
    (member : next ∈ contract.definitions.keys) : Plain next := by
  have reached := describes.mem_keys_iff.mp member
  rw [← Registry.strip_of_reaches reached (strip_strip name)]
  exact plain_strip next

/-- The root refers to nothing that its definition does not refer to. -/
theorem mem_references_definitions (describes : contract.Describes compiler (strip name))
    {text : String} (member : text ∈ contract.toJson.references) :
    text ∈ contract.definitions.toJson.references := by
  rw [Contract.toJson, Json.references, Json.referencesOfEntries_append, List.mem_append] at member
  rcases member with atRoot | atDefinitions
  · rw [Schema.references_keywords, List.mem_map] at atRoot
    obtain ⟨next, refers, rfl⟩ := atRoot
    exact Definitions.mem_references_of_schema? describes.root refers
  · simpa [Json.referencesOfEntries] using atDefinitions

private theorem plain_of_mem_references (describes : contract.Describes compiler (strip name))
    {text : String} (member : text ∈ contract.toJson.references) :
    ∃ target, text = definitionPath target ∧ Plain target := by
  obtain ⟨⟨owner, definition⟩, listed, inside⟩ :=
    Definitions.mem_references_toJson (describes.mem_references_definitions member)
  obtain ⟨schema, rfl, next, refers, rfl⟩ := Definition.mem_references_toJson inside
  have distinct : contract.definitions.keys.Nodup := describes.walk.nodup List.nodup_nil
  have found := Definitions.schema?_eq_some_iff.mpr (Entries.get?_of_mem distinct listed)
  exact ⟨next, rfl, describes.plain_of_mem_keys (describes.mem_keys_of_references found refers)⟩

end Contract.Describes

/-! ## Leading dots do not matter -/

/-- If one registry has the references of another with more leading dots, then the two have the same
contracts, whatever dots the name is asked for with. In their documents no definition has a name, and
no reference a target, that starts with a dot. -/
theorem Compiler.contract_dotted (options : Options) (registry other : Registry)
    (registries : registry.Dotted other) (dots : Nat) (name : String) (contract : Contract) :
    ((Compiler.mk registry options).contract name = .ok contract ↔
      (Compiler.mk other options).contract (dotted dots name) = .ok contract) ∧
    ((Compiler.mk registry options).contract name = .ok contract →
      (∀ key ∈ contract.toJson.definitions.keys, Plain key) ∧
      ∀ text ∈ contract.toJson.references,
        ∃ target, text = definitionPath target ∧ Plain target) := by
  refine ⟨Compiler.contract_alike options registries dots name contract, fun compiled => ?_⟩
  have describes := Compiler.contract_describes compiled
  refine ⟨fun key member => ?_, fun text member => describes.plain_of_mem_references member⟩
  rw [contract.definitions_toJson, Definitions.keys_documents] at member
  exact describes.plain_of_mem_keys member

namespace Stems

def leaf : Message where
  fullName := "acme.Leaf"
  fields := [{ name := "green", kind := .scalar .bool }]

def stem : Message where
  fullName := "acme.Stem"
  fields := [
    { name := "leaf", kind := .message "acme.Leaf" },
    { name := "bud", kind := .message "acme.Leaf", oneof := some "tip" },
    { name := "stems", kind := .message "acme.Stem", cardinality := .map (.scalar .string) },
    { name := "color", kind := .enumeration "acme.Color" },
    { name := "cut", kind := .message "google.protobuf.Timestamp" }]

/-- The same message with absolute references, some of which have more than one dot. -/
def absoluteStem : Message where
  fullName := "acme.Stem"
  fields := [
    { name := "leaf", kind := .message (dotted 1 "acme.Leaf") },
    { name := "bud", kind := .message (dotted 2 "acme.Leaf"), oneof := some "tip" },
    { name := "stems", kind := .message (dotted 1 "acme.Stem"),
      cardinality := .map (.scalar .string) },
    { name := "color", kind := .enumeration (dotted 3 "acme.Color") },
    { name := "cut", kind := .message (dotted 1 "google.protobuf.Timestamp") }]

def parts : Registry :=
  Registry.empty |>.addMessage leaf |>.addEnumeration ⟨"acme.Color", [("RED", 0)], none⟩

private theorem dotted_stem : stem.Dotted absoluteStem := by
  refine .intro (.cons ?_ (.cons ?_ (.cons ?_ (.cons ?_ (.cons ?_ .nil)))))
  · exact .intro (.message 1 _) .singular
  · exact .intro (.message 2 _) .singular
  · exact .intro (.message 1 _) (.refl _)
  · exact .intro (.enumeration 3 _) .singular
  · exact .intro (.message 1 _) .singular

end Stems

open Stems in
theorem Compiler.contract_dotted_stem :
    ∃ contract, (Compiler.mk (parts.addMessage stem) {}).contract "acme.Stem" = .ok contract ∧
      (Compiler.mk (parts.addMessage absoluteStem) {}).contract "...acme.Stem" = .ok contract ∧
      (∀ key ∈ contract.toJson.definitions.keys, Plain key) ∧
      ∀ text ∈ contract.toJson.references,
        ∃ target, text = definitionPath target ∧ Plain target := by
  obtain ⟨contract, compiled⟩ :
      ∃ contract, (Compiler.mk (parts.addMessage stem) {}).contract "acme.Stem" = .ok contract :=
    Compiler.exists_contract_of_isOk (by decide +kernel)
  obtain ⟨same, plain⟩ := Compiler.contract_dotted {} (parts.addMessage stem)
    (parts.addMessage absoluteStem) ((Registry.Dotted.refl parts).addMessage dotted_stem) 3
    "acme.Stem" contract
  have absolute : dotted 3 "acme.Stem" = "...acme.Stem" := by decide +kernel
  exact ⟨contract, compiled, absolute ▸ same.mp compiled, plain compiled⟩

end ToolContract
