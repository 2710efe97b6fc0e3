import ToolContract.Proofs.Contract.Validation
import ToolContract.Proofs.Request.Variant

/-!
# The unions of oneof groups

In the document of a contract the property of a oneof group is a union with one variant for each
member, in the order of their declarations. A variant is a closed object with the name of its
member as the constant of the discriminator; it requires the value of the member under the name of
the member, or takes over the properties of the member's message (`Json.IsVariant`). One sort of
member has no such variant: if it is named like the discriminator and its value is held under its
name, then its value stands where the constant would be (`Compiler.contract_unions`).
-/

set_option autoImplicit false

namespace ToolContract

namespace Json

/-- The document is that of an object with these properties only, of which the listed names are
required. -/
structure IsClosedObject (document : Json) (properties : Entries Json) (required : List String) :
    Prop where
  type : document.keyword? "type" = some (.str "object")
  properties : document.keyword? "properties" = some (.obj properties)
  required : document.keyword? "required" = some (.arr (required.map .str))
  closed : document.keyword? "additionalProperties" = some (.bool false)

private theorem IsClosedObject.required_eq {document : Json} {properties others : Entries Json}
    {required names : List String} (object : document.IsClosedObject properties required)
    (again : document.IsClosedObject others names) : names = required := by
  have same := again.required.symm.trans object.required
  rw [Option.some.injEq, Json.arr.injEq] at same
  exact List.map_injective_iff.mpr (fun _ _ => Json.str.inj) same

private theorem SameAssertions.isClosedObject {left right : Json} (same : SameAssertions left right)
    {properties : Entries Json} {required : List String}
    (object : right.IsClosedObject properties required) :
    left.IsClosedObject properties required :=
  ⟨(same.keyword? _ (by decide)).trans object.type,
    (same.keyword? _ (by decide)).trans object.properties,
    (same.keyword? _ (by decide)).trans object.required,
    (same.keyword? _ (by decide)).trans object.closed⟩

/-- How properties and required names carry the value of a member. Of a single message that is not
well known they may have all that its definition has, after the discriminator. -/
inductive Carries (registry : Registry) (definitions : Entries Json) (member : Field)
    (properties : Entries Json) (required : List String) : Prop where
  | value {schema : Schema} :
      FieldDescribed registry member schema →
      properties.get? member.name = some schema.toJson → member.name ∈ required →
      Carries registry definitions member properties required
  | definition {name : String} {tag definition : Json} {inner : Entries Json} {names : List String} :
      member.kind = .message name → member.cardinality = .singular →
      WellKnown.ofName? name = none →
      definitions.get? (QualifiedName.strip name) = some definition →
      definition.IsClosedObject inner names →
      properties = (discriminatorKey, tag) :: inner → required = discriminatorKey :: names →
      Carries registry definitions member properties required

/-- What a variant with these properties and required names keeps to. -/
structure IsVariantWith (registry : Registry) (definitions : Entries Json) (member : Field)
    (document : Json) (properties : Entries Json) (required : List String) : Prop where
  object : document.IsClosedObject properties required
  /-- The discriminator has the name of the member as its constant. -/
  tag : properties.get? discriminatorKey =
    some (.obj [("type", .str "string"), ("const", .str member.name)])
  /-- The discriminator is the first name that is required. -/
  first : required.head? = some discriminatorKey
  distinct : required.Nodup
  declared : ∀ name ∈ required, name ∈ properties.keys
  carries : Carries registry definitions member properties required

/-- The document is a variant for the member. -/
def IsVariant (registry : Registry) (definitions : Entries Json) (member : Field)
    (document : Json) : Prop :=
  ∃ properties required,
    IsVariantWith registry definitions member document properties required

/-- The member has the name of the discriminator, and the document has the schema of its value in
the place of the constant and requires the name twice. -/
def IsOverwritten (registry : Registry) (member : Field) (document : Json) : Prop :=
  member.name = discriminatorKey ∧ ∃ schema, FieldDescribed registry member schema ∧
    document =
      (Schema.object [(discriminatorKey, schema)] [discriminatorKey, discriminatorKey]).toJson

end Json

open Json

private theorem Schema.isClosedObject_object (properties : Entries Schema)
    (required : List String) :
    (Schema.object properties required).toJson.IsClosedObject (propertiesToJson properties)
      required := by
  constructor <;> simp [toJson, keywords, Entries.get?_cons]

private theorem ObjectSchema.isClosedObject (schema : ObjectSchema) :
    schema.toSchema.toJson.IsClosedObject (Schema.propertiesToJson schema.properties)
      schema.required := by
  have object := Schema.isClosedObject_object schema.properties schema.required
  cases text : schema.description with
  | none => simpa [toSchema, text, Schema.describe?] using object
  | some text =>
    have same : SameAssertions schema.toSchema.toJson
        (Schema.object schema.properties schema.required).toJson := by
      simp only [toSchema, text]
      exact sameAssertions_append (by simp [assertions])
    exact same.isClosedObject object

/-! ## Which variants name their members -/

section

variable {registry : Registry} {table : Definitions} {member : Field} {document : Json}
  {definitions : Entries Json}

private theorem Json.IsOverwritten.not_isVariant
    (overwritten : IsOverwritten registry member document) :
    ¬ IsVariant registry definitions member document := by
  rintro ⟨properties, required, variant⟩
  obtain ⟨-, schema, -, rfl⟩ := overwritten
  have names := variant.object.required_eq (Schema.isClosedObject_object _ _)
  have distinct := variant.distinct
  rw [← names] at distinct
  exact absurd distinct (by decide)

private theorem isVariant_inlineVariant {compiler : Compiler} {name : String} {message : Message}
    {definition : ObjectSchema} (kind : member.kind = .message name)
    (alone : member.cardinality = .singular) (plain : WellKnown.ofName? name = none)
    (stored : table.schema? (QualifiedName.strip name) = some definition)
    (described : MessageDescribed compiler table message definition)
    (free : discriminatorKey ∉ definition.properties.keys) :
    IsVariant registry table.documents member (Compiler.inlineVariant member definition).toJson := by
  have unlisted : discriminatorKey ∉ definition.required := fun required =>
    free (described.mem_keys_of_required required)
  refine ⟨_, _, ⟨(Compiler.inlineObject member definition).isClosedObject, ?_, rfl, ?_, ?_, ?_⟩⟩
  · rfl
  · exact List.nodup_cons.mpr ⟨unlisted, described.nodup_required⟩
  · rw [Schema.keys_propertiesToJson]
    intro other required
    rcases List.mem_cons.mp required with rfl | required
    · exact List.mem_cons_self
    · exact List.mem_cons_of_mem _ (described.mem_keys_of_required required)
  · exact .definition kind alone plain (Definitions.get?_documents stored)
      definition.isClosedObject rfl rfl

private theorem isVariant_nestedVariant {schema : Schema}
    (different : member.name ≠ discriminatorKey)
    (value : FieldDescribed registry member schema) :
    IsVariant registry definitions member (Compiler.nestedVariant member schema).toJson := by
  rw [Compiler.nestedVariant_eq different]
  refine ⟨_, _, ⟨(Compiler.nestedObject member schema).isClosedObject, rfl, rfl, ?_, ?_, ?_⟩⟩
  · simpa [Compiler.nestedObject] using different.symm
  · rw [Schema.keys_propertiesToJson]
    exact fun _ required => required
  · refine .value value ?_ (by simp [Compiler.nestedObject])
    rw [Schema.get?_propertiesToJson]
    simp [Compiler.nestedObject, Entries.get?_cons, different.symm]

private theorem isOverwritten_nestedVariant {schema : Schema}
    (same : member.name = discriminatorKey)
    (value : FieldDescribed registry member schema) :
    IsOverwritten registry member (Compiler.nestedVariant member schema).toJson := by
  refine ⟨same, schema, value, ?_⟩
  rw [Compiler.nestedVariant_of_eq same]

private theorem VariantDescribed.isVariant_iff {compiler : Compiler} {variant : Schema}
    (faithful : table.Faithful compiler)
    (described : VariantDescribed compiler.registry table member variant) :
    IsVariant compiler.registry table.documents member variant.toJson ↔
      ¬ IsOverwritten compiler.registry member variant.toJson := by
  refine ⟨fun variant overwritten => overwritten.not_isVariant variant, fun fine => ?_⟩
  cases described using VariantDescribed.formCases with
  | inlined kind alone plain found stored noDiscriminator =>
    obtain ⟨message, -, definition⟩ := faithful.described _ _ stored
    rw [(Registry.message?_eq_some found).1] at stored
    exact isVariant_inlineVariant kind alone plain stored definition noDiscriminator
  | nested value =>
    by_cases same : member.name = discriminatorKey
    · exact absurd (isOverwritten_nestedVariant same value) fine
    · exact isVariant_nestedVariant same value

end

/-! ## The groups of a contract -/

/-- In the document of a contract, each oneof group of each message that is reached has a union of
variants for its members, in order. All are as they should be but those whose member overwrites
the discriminator. -/
theorem Compiler.contract_unions (compiler : Compiler) (name : String) (contract : Contract)
    (compiled : compiler.contract name = .ok contract) (next : String) (message : Message)
    (reached : compiler.registry.Reaches (QualifiedName.strip name) next)
    (registered : compiler.registry.messages[next]? = some message) :
    ∃ document properties required,
      contract.toJson.definitions.get? next = some document ∧
      document.IsClosedObject properties required ∧
      (next = QualifiedName.strip name → contract.toJson.IsClosedObject properties required) ∧
      ∀ group, (∃ field ∈ message.fields, field.oneof = some group) →
        ∃ variants, properties.get? (group ++ oneofSuffix) = some (.obj [("oneOf", .arr variants)]) ∧
          List.Forall₂ (fun member variant =>
              IsVariant compiler.registry contract.toJson.definitions member variant ↔
                ¬ IsOverwritten compiler.registry member variant)
            (message.members group) variants := by
  have describes := Compiler.contract_describes compiled
  obtain ⟨held, schema, again, stored, described⟩ :=
    describes.entries next (describes.mem_keys_iff.mpr reached)
  obtain rfl := Option.some.inj (again.symm.trans registered)
  rw [contract.definitions_toJson]
  refine ⟨_, _, _, Definitions.get?_documents stored, schema.isClosedObject, ?_, ?_⟩
  · rintro rfl
    obtain rfl := Option.some.inj (stored.symm.trans describes.root)
    exact contract.sameAssertions_toJson.isClosedObject contract.root.isClosedObject
  · intro group given
    have listed : Slot.group group (held.members group) ∈ held.slots :=
      Message.mem_slots_iff.mpr (.inr ⟨group, given, rfl⟩)
    obtain ⟨property, found, -, slot⟩ := described.exists_property listed
    cases slot with
    | @group _ _ variants pairs =>
      refine ⟨Schema.variantsToJson variants, ?_, ?_⟩
      · rw [Schema.get?_propertiesToJson, show group ++ oneofSuffix =
          (Slot.group group (held.members group)).property from rfl, found]
        rfl
      · rw [Schema.variantsToJson_eq_map, List.forall₂_map_right_iff]
        exact pairs.imp fun _ _ variant => variant.isVariant_iff describes.faithful

/-! ### A member of the discriminator's name -/

namespace TaggedChoice

/-- The member that is named like the discriminator. -/
def tag : Field where
  name := "object_type"
  kind := .scalar .string
  oneof := some "kind"

/-- A member whose message is taken over. -/
def place : Field where
  name := "place"
  kind := .message "a.Point"
  oneof := some "kind"

def choice : Message where
  fullName := "a.Choice"
  fields := [tag, place]

def point : Message where
  fullName := "a.Point"
  fields := [{ name := "x", kind := .scalar .int32 }]

def compiler : Compiler where
  registry := Registry.empty |>.addMessage choice |>.addMessage point

/-- The document of the choice. -/
def document : Json :=
  match compiler.contract "a.Choice" with
  | .ok contract => contract.toJson
  | .error _ => .null

private theorem exists_contract :
    ∃ contract, compiler.contract "a.Choice" = .ok contract ∧ contract.toJson = document := by
  obtain ⟨contract, compiled⟩ : ∃ contract, compiler.contract "a.Choice" = .ok contract :=
    Compiler.exists_contract_of_isOk (by decide +kernel)
  exact ⟨contract, compiled, by rw [document, compiled]⟩

/-- The variant in which the value of the member stands where the constant would be. -/
def overwritten : Json :=
  .obj [("type", .str "object"),
    ("properties", .obj [("object_type", .obj [("type", .str "string")])]),
    ("required", .arr [.str "object_type", .str "object_type"]),
    ("additionalProperties", .bool false)]

/-- The variant of the other member. -/
def taken : Json :=
  .obj [("type", .str "object"),
    ("properties", .obj [
      ("object_type", .obj [("type", .str "string"), ("const", .str "place")]),
      ("x", .obj [("type", .str "integer")])]),
    ("required", .arr [.str "object_type"]),
    ("additionalProperties", .bool false)]

/-- The properties of the choice. -/
def choiceProperties : Entries Json :=
  [("kindOneOfType", .obj [("oneOf", .arr [overwritten, taken])])]

private theorem definitions_choice :
    ∃ entry, document.definitions.get? "a.Choice" = some entry ∧
      entry.IsClosedObject choiceProperties [] := by
  have stored : (document.definitions.get? "a.Choice").isSome = true := by decide +kernel
  obtain ⟨entry, found⟩ := Option.isSome_iff_exists.mp stored
  have keyword (word : String) : entry.keyword? word =
      (document.definitions.get? "a.Choice").bind (fun entry => entry.keyword? word) := by
    rw [found, Option.bind_some]
  refine ⟨entry, found, ⟨?_, ?_, ?_, ?_⟩⟩
  · exact (keyword "type").trans (by decide +kernel)
  · exact (keyword "properties").trans (by decide +kernel)
  · exact (keyword "required").trans (by decide +kernel)
  · exact (keyword "additionalProperties").trans (by decide +kernel)

private theorem isOverwritten_tag : IsOverwritten compiler.registry tag overwritten :=
  ⟨rfl, _, ⟨_, .singular rfl .scalar, rfl⟩, rfl⟩

end TaggedChoice

open TaggedChoice in
/-- The variant of a member that is named like the discriminator is none: it has no constant and
requires a name twice. -/
theorem contract_variant_overwritten :
    ∃ contract entry first second, compiler.contract "a.Choice" = .ok contract ∧
      contract.toJson.definitions.get? "a.Choice" = some entry ∧
      entry.IsClosedObject [("kindOneOfType", .obj [("oneOf", .arr [first, second])])] [] ∧
      choice.members "kind" = [tag, place] ∧
      ¬ IsVariant compiler.registry contract.toJson.definitions tag first := by
  obtain ⟨contract, compiled, same⟩ := exists_contract
  obtain ⟨entry, found, object⟩ := definitions_choice
  exact ⟨contract, entry, overwritten, taken, compiled, same ▸ found, object, by decide +kernel,
    isOverwritten_tag.not_isVariant⟩

open TaggedChoice in
theorem Compiler.contract_unions_choice :
    ∃ contract variants, compiler.contract "a.Choice" = .ok contract ∧
      compiler.registry.Reaches "a.Choice" "a.Choice" ∧
      compiler.registry.messages["a.Choice"]? = some choice ∧
      choiceProperties.get? "kindOneOfType" = some (.obj [("oneOf", .arr variants)]) ∧
      List.Forall₂ (fun member variant =>
          IsVariant compiler.registry contract.toJson.definitions member variant ↔
            ¬ IsOverwritten compiler.registry member variant)
        [tag, place] variants := by
  obtain ⟨contract, compiled, same⟩ := exists_contract
  have registered : compiler.registry.messages["a.Choice"]? = some choice := by decide +kernel
  have stripped : QualifiedName.strip "a.Choice" = "a.Choice" := by decide +kernel
  have reached : compiler.registry.Reaches (QualifiedName.strip "a.Choice") "a.Choice" := by
    rw [stripped]
    exact .refl
  obtain ⟨entry, held, required, found, object, -, groups⟩ :=
    Compiler.contract_unions compiler "a.Choice" contract compiled "a.Choice" choice reached
      registered
  obtain ⟨variants, union, pairs⟩ := groups "kind" ⟨tag, by decide, rfl⟩
  obtain ⟨again, stored, known⟩ := definitions_choice
  rw [← same, found] at stored
  obtain rfl := Option.some.inj stored
  have sameProperties := object.properties.symm.trans known.properties
  obtain rfl := Json.obj.inj (Option.some.inj sameProperties)
  exact ⟨contract, variants, compiled, .refl, registered, union, pairs⟩

end ToolContract
