import ToolContract.Proofs.Table.Faithful

/-!
# References of documents

A document refers to a definition by the text under a `$ref`, at any depth. The references of a
schema's document are the paths of the names that the schema refers to
(`Schema.references_toJson`), and the schema of a message refers only to what fields refer to: its
own, or those of a message whose definition it took over (`MessageDescribed.refers`).
-/

set_option autoImplicit false

namespace ToolContract

namespace Json

mutual

/-- The texts that stand under the key `$ref`, at any depth, in document order. -/
def references : Json → List String
  | .arr items => referencesOfItems items
  | .obj entries => referencesOfEntries entries
  | _ => []

def referencesOfItems : List Json → List String
  | [] => []
  | item :: rest => item.references ++ referencesOfItems rest

def referencesOfEntries : List (String × Json) → List String
  | [] => []
  | (key, value) :: rest =>
    (if key = "$ref" then value.text?.toList else []) ++ value.references ++
      referencesOfEntries rest

end

private theorem mem_referencesOfEntries {text : String} {entries : Entries Json} :
    text ∈ referencesOfEntries entries ↔
      ∃ entry ∈ entries, entry.1 = "$ref" ∧ entry.2.text? = some text ∨ text ∈ entry.2.references := by
  induction entries with
  | nil => simp [referencesOfEntries]
  | cons entry rest ih =>
    rcases entry with ⟨key, value⟩
    by_cases pointer : key = "$ref" <;> simp [referencesOfEntries, pointer, ih, or_assoc]

theorem referencesOfEntries_append (left right : Entries Json) :
    referencesOfEntries (left ++ right) = referencesOfEntries left ++ referencesOfEntries right := by
  induction left with
  | nil => rfl
  | cons entry rest ih =>
    rcases entry with ⟨key, value⟩
    simp [referencesOfEntries, ih]

private theorem referencesOfItems_str (texts : List String) :
    referencesOfItems (texts.map .str) = [] := by
  induction texts with
  | nil => rfl
  | cons text rest ih => simp [referencesOfItems, references, ih]

end Json

namespace Schema

mutual

/-- The names of the definitions that the schema refers to, in document order. -/
def references : Schema → List String
  | .reference name => [name]
  | .list items => items.references
  | .map values _ => values.references
  | .object properties _ => referencesOfProperties properties
  | .union variants => referencesOfVariants variants
  | .described _ schema => schema.references
  | _ => []

def referencesOfProperties : List (String × Schema) → List String
  | [] => []
  | (_, schema) :: rest => schema.references ++ referencesOfProperties rest

def referencesOfVariants : List Schema → List String
  | [] => []
  | schema :: rest => schema.references ++ referencesOfVariants rest

end

mutual

theorem references_keywords : ∀ schema : Schema,
    Json.referencesOfEntries schema.keywords = schema.references.map definitionPath
  | .any | .typed _ | .constant _ | .openObject | .emptyObject => by
    simp [keywords, references, Json.referencesOfEntries, Json.references]
  | .nullable _ none | .nullable _ (some _) => by
    simp [keywords, references, Json.referencesOfEntries, Json.references, Json.referencesOfItems]
  | .reference name => by
    simp [keywords, references, Json.referencesOfEntries, Json.references, Json.text?]
  | .list items => by
    have inside := references_keywords items
    simp [keywords, references, Json.referencesOfEntries, Json.references, inside]
  | .map values form => by
    have inside := references_keywords values
    cases form <;>
      simp [keywords, references, Json.referencesOfEntries, Json.references, KeyForm.toJson, inside]
  | .object properties required => by
    have inside := references_properties properties
    simp [keywords, references, Json.referencesOfEntries, Json.references,
      Json.referencesOfItems_str, inside]
  | .union variants => by
    have inside := references_variants variants
    simp [keywords, references, Json.referencesOfEntries, Json.references, inside]
  | .described text schema => by
    have inside := references_keywords schema
    simp [keywords, references, Json.referencesOfEntries_append, Json.referencesOfEntries,
      Json.references, inside]

private theorem references_properties : ∀ properties : List (String × Schema),
    Json.referencesOfEntries (propertiesToJson properties) =
      (referencesOfProperties properties).map definitionPath
  | [] => rfl
  | (name, schema) :: rest => by
    have first := references_keywords schema
    have later := references_properties rest
    simp [propertiesToJson, referencesOfProperties, Json.referencesOfEntries, Json.references,
      Json.text?, first, later]

private theorem references_variants : ∀ variants : List Schema,
    Json.referencesOfItems (variantsToJson variants) =
      (referencesOfVariants variants).map definitionPath
  | [] => rfl
  | schema :: rest => by
    have first := references_keywords schema
    have later := references_variants rest
    simp [variantsToJson, referencesOfVariants, Json.referencesOfItems, Json.references, first,
      later]

end

/-- The references of a schema's document are the paths of the names it refers to. -/
theorem references_toJson (schema : Schema) :
    schema.toJson.references = schema.references.map definitionPath :=
  references_keywords schema

private theorem mem_referencesOfProperties {name : String} {properties : Entries Schema} :
    name ∈ referencesOfProperties properties ↔
      ∃ entry ∈ properties, name ∈ entry.2.references := by
  induction properties with
  | nil => simp [referencesOfProperties]
  | cons entry rest ih =>
    rcases entry with ⟨key, schema⟩
    simp [referencesOfProperties, ih]

private theorem mem_referencesOfVariants {name : String} {variants : List Schema} :
    name ∈ referencesOfVariants variants ↔ ∃ schema ∈ variants, name ∈ schema.references := by
  induction variants with
  | nil => simp [referencesOfVariants]
  | cons schema rest ih => simp [referencesOfVariants, ih]

@[simp] theorem references_describe? (comment : Option String) (schema : Schema) :
    (schema.describe? comment).references = schema.references := by
  cases comment with
  | none => rfl
  | some comment => cases schema <;> rfl

end Schema

private theorem ObjectSchema.references_toSchema (schema : ObjectSchema) :
    schema.toSchema.references = Schema.referencesOfProperties schema.properties := by
  simp [ObjectSchema.toSchema, Schema.references]

/-! ## References of definitions -/

theorem Definitions.mem_references_toJson {table : Definitions} {text : String}
    (member : text ∈ table.toJson.references) :
    ∃ entry ∈ table, text ∈ entry.2.toJson.references := by
  rw [Definitions.toJson, Json.references, Json.mem_referencesOfEntries] at member
  obtain ⟨_, mapped, pointer⟩ := member
  obtain ⟨entry, listed, rfl⟩ := List.mem_map.mp mapped
  rcases pointer with ⟨-, text⟩ | inside
  · cases definition : entry.2 <;>
      simp [definition, Definition.toJson, Schema.toJson, Json.text?] at text
  · exact ⟨entry, listed, inside⟩

theorem Definition.mem_references_toJson {definition : Definition} {text : String}
    (member : text ∈ definition.toJson.references) :
    ∃ schema, definition = .completed schema ∧
      ∃ next ∈ schema.toSchema.references, text = definitionPath next := by
  cases definition with
  | reserved => simp [toJson, Json.references] at member
  | completed schema =>
    rw [toJson, Schema.references_toJson, List.mem_map] at member
    obtain ⟨next, listed, rfl⟩ := member
    exact ⟨schema, rfl, next, listed, rfl⟩

theorem Definitions.mem_references_of_schema? {table : Definitions} {name next : String}
    {schema : ObjectSchema} (found : table.schema? name = some schema)
    (member : next ∈ schema.toSchema.references) :
    definitionPath next ∈ table.toJson.references := by
  have listed := Entries.mem_of_get? (Definitions.schema?_eq_some_iff.mp found)
  have inside : definitionPath next ∈ (Definition.completed schema).toJson.references := by
    rw [Definition.toJson, Schema.references_toJson]
    exact List.mem_map.mpr ⟨next, member, rfl⟩
  rw [Definitions.toJson, Json.references, Json.mem_referencesOfEntries]
  exact ⟨_, List.mem_map.mpr ⟨_, listed, rfl⟩, .inr inside⟩

/-! ## References of described schemas -/

section Described

variable {registry : Registry} {table : Definitions} {name : String}

private theorem KindDescribed.mem_references_iff {kind : FieldKind} {schema : Schema}
    (described : KindDescribed registry kind schema) :
    name ∈ schema.references ↔ kind.target? = some name := by
  cases described with
  | @scalar type =>
    cases type <;> simp [Scalar.schema, Schema.references, FieldKind.target?]
  | enumeration => simp [Enumeration.schema, Schema.references, FieldKind.target?]
  | @wellKnown _ type known =>
    cases type <;> simp [WellKnown.schema, Schema.references, FieldKind.target?, known]
  | message known => simp [Schema.references, FieldKind.target?, known, eq_comm]

private theorem FieldDescribed.mem_references_iff {field : Field} {schema : Schema}
    (described : FieldDescribed registry field schema) :
    name ∈ schema.references ↔ field.target? = some name := by
  obtain ⟨plain, value, rfl⟩ := described
  rw [Schema.references_describe?]
  cases value with
  | singular _ kind => exact kind.mem_references_iff
  | repeated _ kind =>
    rw [Schema.references]
    exact kind.mem_references_iff
  | map _ _ kind =>
    rw [Schema.references]
    exact kind.mem_references_iff

private theorem Compiler.mem_references_nestedVariant {member : Field} {schema : Schema} :
    name ∈ (Compiler.nestedVariant member schema).references ↔ name ∈ schema.references := by
  by_cases same : member.name = discriminatorKey
  · simp [Compiler.nestedVariant_of_eq same, Schema.references, Schema.referencesOfProperties]
  · simp [Compiler.nestedVariant_of_ne same, Schema.references, Schema.referencesOfProperties]

private theorem Compiler.mem_references_inlineVariant {member : Field} {definition : ObjectSchema} :
    name ∈ (Compiler.inlineVariant member definition).references ↔
      name ∈ Schema.referencesOfProperties definition.properties := by
  simp [Compiler.inlineVariant, Schema.references, Schema.referencesOfProperties]

theorem Compiler.sizeOf_lt_inlineVariant (member : Field) (definition : ObjectSchema) :
    sizeOf definition.properties < sizeOf (Compiler.inlineVariant member definition) := by
  unfold Compiler.inlineVariant
  generalize member.comment.or definition.description = comment
  cases comment with
  | none => simp only [Schema.describe?, Schema.object.sizeOf_spec, List.cons.sizeOf_spec]; omega
  | some comment =>
    simp only [Schema.describe?, Schema.describe, Schema.described.sizeOf_spec,
      Schema.object.sizeOf_spec, List.cons.sizeOf_spec]
    omega

/-- The schema of a message refers to the message types of its fields and, where a variant took a
definition over, to those of the fields of that message. -/
theorem MessageDescribed.refers {compiler : Compiler} (faithful : table.Faithful compiler)
    {message : Message} {schema : ObjectSchema}
    (described : MessageDescribed compiler table message schema)
    (member : name ∈ schema.toSchema.references) :
    name ∈ message.targets ∨
      ∃ owner held, table.schema? owner = some held ∧ compiler.registry.Refers owner name := by
  rw [ObjectSchema.references_toSchema, Schema.mem_referencesOfProperties] at member
  obtain ⟨⟨property, inner⟩, listed, inside⟩ := member
  obtain ⟨slot, slotListed, -, slotDescribed⟩ := described.exists_slot listed
  have smaller : sizeOf inner < sizeOf schema.properties := by
    have := List.sizeOf_lt_of_mem listed
    simp only [Prod.mk.sizeOf_spec] at this
    omega
  cases slotDescribed with
  | plain field =>
    have declared := (Message.mem_slot_fields slotListed (List.mem_singleton.mpr rfl)).1
    exact .inl (Message.mem_targets_iff.mpr ⟨_, declared, field.mem_references_iff.mp inside⟩)
  | @group group members variants pairs =>
    obtain ⟨variant, variantListed, inside⟩ := Schema.mem_referencesOfVariants.mp inside
    obtain ⟨field, fieldListed, variantDescribed⟩ := exists_left_of_forall₂ pairs variantListed
    have declared := (Message.mem_slot_fields slotListed fieldListed).1
    cases variantDescribed using VariantDescribed.formCases with
    | nested value =>
      rw [Compiler.mem_references_nestedVariant, value.mem_references_iff] at inside
      exact .inl (Message.mem_targets_iff.mpr ⟨field, declared, inside⟩)
    | @inlined raw target definition kind alone plain found stored =>
      rw [Compiler.mem_references_inlineVariant, ← ObjectSchema.references_toSchema] at inside
      obtain ⟨owner, registered, ownerDescribed⟩ := faithful.described _ _ stored
      have shrinks : sizeOf definition.properties < sizeOf schema.properties := by
        have := Compiler.sizeOf_lt_inlineVariant field definition
        have := List.sizeOf_lt_of_mem variantListed
        simp only [Schema.union.sizeOf_spec] at smaller
        omega
      rcases ownerDescribed.refers faithful inside with own | other
      · exact .inr ⟨_, _, stored, owner, registered, own⟩
      · exact .inr other
termination_by sizeOf schema.properties

theorem Definitions.Faithful.refers {compiler : Compiler} (faithful : table.Faithful compiler)
    {schema : ObjectSchema} {next : String} (found : table.schema? name = some schema)
    (member : next ∈ schema.toSchema.references) :
    ∃ owner ∈ table.keys, compiler.registry.Refers owner next := by
  obtain ⟨message, registered, described⟩ := faithful.described name schema found
  rcases described.refers faithful member with own | ⟨owner, held, stored, foreign⟩
  · exact ⟨name, Definitions.mem_keys_of_schema? found, message, registered, own⟩
  · exact ⟨owner, Definitions.mem_keys_of_schema? stored, foreign⟩

/-- What a field of a message refers to is referred to by the schema of the message, unless its
definition was taken over. -/
theorem MessageDescribed.mem_references_or_mem_keys {compiler : Compiler} {message : Message}
    {schema : ObjectSchema} (described : MessageDescribed compiler table message schema)
    (target : name ∈ message.targets) :
    name ∈ schema.toSchema.references ∨ name ∈ table.keys := by
  obtain ⟨field, declared, target⟩ := Message.mem_targets_iff.mp target
  obtain ⟨slot, slotListed, inside⟩ := Message.exists_slot declared
  obtain ⟨property, -, listed, slotDescribed⟩ := described.exists_property slotListed
  have within : name ∈ property.references → name ∈ schema.toSchema.references := by
    intro member
    rw [ObjectSchema.references_toSchema, Schema.mem_referencesOfProperties]
    exact ⟨_, listed, member⟩
  cases slotDescribed with
  | plain value =>
    obtain rfl := List.mem_singleton.mp inside
    exact .inl (within (value.mem_references_iff.mpr target))
  | group pairs =>
    obtain ⟨variant, variantListed, variantDescribed⟩ := exists_right_of_forall₂ pairs inside
    cases variantDescribed using VariantDescribed.formCases with
    | nested value =>
      refine .inl (within (Schema.mem_referencesOfVariants.mpr ⟨_, variantListed, ?_⟩))
      exact Compiler.mem_references_nestedVariant.mpr (value.mem_references_iff.mpr target)
    | inlined kind alone plain found stored =>
      simp only [Field.target?, FieldKind.target?, kind, plain, Option.some.injEq] at target
      rw [(Registry.message?_eq_some found).1, target] at stored
      exact .inr (Definitions.mem_keys_of_schema? stored)

end Described

end ToolContract
