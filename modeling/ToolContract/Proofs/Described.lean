import Mathlib.Data.List.Nodup
import ToolContract.Proofs.Correspondence
import ToolContract.Proofs.Table.Extension
import ToolContract.Proofs.WellFormed

/-!
# What the schemas of a contract say

A schema describes a kind, a field, a slot or a message of a registry, relative to the table that
its references and inlined definitions are looked up in. The relations do not say which form the
variant of a message takes when both are possible, since that depends on what was in progress when
it was compiled. A table is faithful if each completed entry describes the message of its name
(`Definitions.Faithful`).
-/

set_option autoImplicit false

namespace ToolContract

inductive KindDescribed (registry : Registry) : FieldKind → Schema → Prop where
  | scalar {type} : KindDescribed registry (.scalar type) type.schema
  | enumeration {name enumeration} :
      registry.enumeration? name = some enumeration →
      KindDescribed registry (.enumeration name) enumeration.schema
  | wellKnown {name type} :
      WellKnown.ofName? name = some type → KindDescribed registry (.message name) type.schema
  | message {name message} :
      WellKnown.ofName? name = none → registry.message? name = some message →
      KindDescribed registry (.message name) (.reference (QualifiedName.strip name))

inductive ValueDescribed (registry : Registry) (field : Field) : Schema → Prop where
  | singular {schema} :
      field.cardinality = .singular → KindDescribed registry field.kind schema →
      ValueDescribed registry field schema
  | repeated {items} :
      field.cardinality = .repeated → KindDescribed registry field.kind items →
      ValueDescribed registry field (.list items)
  | map {key form values} :
      field.cardinality = .map key → key.keyForm? = some form →
      KindDescribed registry field.kind values →
      ValueDescribed registry field (.map values form)

def FieldDescribed (registry : Registry) (field : Field) (schema : Schema) : Prop :=
  ∃ plain, ValueDescribed registry field plain ∧ schema = plain.describe? field.comment

inductive VariantDescribed (registry : Registry) (table : Definitions) (member : Field) :
    Schema → Prop where
  /-- The properties of the member's definition behind the name of the member. -/
  | inlined {name message definition} :
      member.kind = .message name → member.cardinality = .singular →
      WellKnown.ofName? name = none → registry.message? name = some message →
      table.schema? message.fullName = some definition →
      discriminatorKey ∉ definition.properties.keys → member.name ∉ definition.properties.keys →
      VariantDescribed registry table member
        ((Schema.object ((discriminatorKey, .constant member.name) :: definition.properties)
          (discriminatorKey :: definition.required)).describe?
            (member.comment.or definition.description))
  /-- The name of the member, and its value under that name. -/
  | nested {schema} :
      member.name ≠ discriminatorKey → FieldDescribed registry member schema →
      VariantDescribed registry table member
        (.object [(discriminatorKey, .constant member.name), (member.name, schema)]
          [discriminatorKey, member.name])
  /-- The value alone, where it has the place of the name. -/
  | overwritten {schema} :
      member.name = discriminatorKey → FieldDescribed registry member schema →
      VariantDescribed registry table member
        (.object [(discriminatorKey, schema)] [discriminatorKey, discriminatorKey])

inductive SlotDescribed (registry : Registry) (table : Definitions) : Slot → Schema → Prop where
  | plain {field schema} :
      FieldDescribed registry field schema → SlotDescribed registry table (.plain field) schema
  | group {name members variants} :
      List.Forall₂ (VariantDescribed registry table) members variants →
      SlotDescribed registry table (.group name members) (.union variants)

structure PropertyDescribed (registry : Registry) (table : Definitions) (slot : Slot)
    (property : String × Schema) : Prop where
  name : property.1 = slot.property
  schema : SlotDescribed registry table slot property.2

structure MessageDescribed (compiler : Compiler) (table : Definitions) (message : Message)
    (schema : ObjectSchema) : Prop where
  properties :
    List.Forall₂ (PropertyDescribed compiler.registry table) message.slots schema.properties
  distinct : schema.properties.Distinct
  required :
    schema.required =
      (message.slots.filter fun slot => slot.isRequired compiler.options).map Slot.property
  description : schema.description = message.comment

/-! ## The two forms of a variant -/

section Forms

variable {registry : Registry} {table : Definitions} {member : Field}

theorem Compiler.nestedVariant_of_ne (different : member.name ≠ discriminatorKey)
    (schema : Schema) : nestedVariant member schema =
      .object [(discriminatorKey, .constant member.name), (member.name, schema)]
        [discriminatorKey, member.name] := by
  simp only [nestedVariant, Entries.put, if_neg different.symm]

theorem Compiler.nestedVariant_of_eq (same : member.name = discriminatorKey)
    (schema : Schema) : nestedVariant member schema =
      .object [(discriminatorKey, schema)] [discriminatorKey, discriminatorKey] := by
  simp only [nestedVariant, Entries.put, same, if_true]

theorem VariantDescribed.ofNested {schema : Schema}
    (value : FieldDescribed registry member schema) :
    VariantDescribed registry table member (Compiler.nestedVariant member schema) := by
  by_cases same : member.name = discriminatorKey
  · rw [Compiler.nestedVariant_of_eq same]
    exact .overwritten same value
  · rw [Compiler.nestedVariant_of_ne same]
    exact .nested same value

/-- A variant takes a definition over or holds the value under the member's name. -/
theorem VariantDescribed.formCases
    {motive : ∀ variant, VariantDescribed registry table member variant → Prop}
    (inlined : ∀ {name message definition} (kind : member.kind = .message name)
      (alone : member.cardinality = .singular) (plain : WellKnown.ofName? name = none)
      (found : registry.message? name = some message)
      (stored : table.schema? message.fullName = some definition)
      (noDiscriminator : discriminatorKey ∉ definition.properties.keys)
      (noMember : member.name ∉ definition.properties.keys),
      motive (Compiler.inlineVariant member definition)
        (.inlined kind alone plain found stored noDiscriminator noMember))
    (nested : ∀ {schema} (value : FieldDescribed registry member schema),
      motive (Compiler.nestedVariant member schema) (.ofNested value))
    {variant : Schema} (described : VariantDescribed registry table member variant) :
    motive variant described := by
  have holding {schema variant : Schema} (value : FieldDescribed registry member schema)
      (described : VariantDescribed registry table member variant)
      (same : variant = Compiler.nestedVariant member schema) : motive variant described := by
    subst same
    exact nested value
  cases described with
  | inlined kind alone plain found stored noDiscriminator noMember =>
    exact inlined kind alone plain found stored noDiscriminator noMember
  | nested different value => exact holding value _ (Compiler.nestedVariant_of_ne different _).symm
  | overwritten same value => exact holding value _ (Compiler.nestedVariant_of_eq same _).symm

end Forms

/-! ## Properties and their slots -/

namespace MessageDescribed

variable {compiler : Compiler} {table : Definitions} {message : Message} {schema : ObjectSchema}

theorem keys_eq (described : MessageDescribed compiler table message schema) :
    schema.properties.keys = message.slots.map Slot.property := by
  have properties := described.properties
  generalize message.slots = slots at properties
  generalize schema.properties = entries at properties
  induction properties with
  | nil => rfl
  | cons first _ ih => rw [Entries.keys, List.map_cons, first.name, List.map_cons, ← ih]; rfl

theorem exists_required (described : MessageDescribed compiler table message schema)
    {name : String} (required : name ∈ schema.required) :
    ∃ slot ∈ message.slots, slot.isRequired compiler.options = true ∧ slot.property = name := by
  rw [described.required] at required
  obtain ⟨slot, listed, rfl⟩ := List.mem_map.mp required
  obtain ⟨member, needed⟩ := List.mem_filter.mp listed
  exact ⟨slot, member, needed, rfl⟩

theorem mem_keys_of_required (described : MessageDescribed compiler table message schema)
    {name : String} (required : name ∈ schema.required) : name ∈ schema.properties.keys := by
  obtain ⟨slot, listed, -, rfl⟩ := described.exists_required required
  rw [described.keys_eq]
  exact List.mem_map.mpr ⟨slot, listed, rfl⟩

theorem mem_required (described : MessageDescribed compiler table message schema) {slot : Slot}
    (member : slot ∈ message.slots) (required : slot.isRequired compiler.options = true) :
    slot.property ∈ schema.required := by
  rw [described.required]
  exact List.mem_map.mpr ⟨slot, List.mem_filter.mpr ⟨member, required⟩, rfl⟩

theorem nodup_required (described : MessageDescribed compiler table message schema) :
    schema.required.Nodup := by
  have distinct : (message.slots.map Slot.property).Nodup := described.keys_eq ▸ described.distinct
  rw [described.required]
  exact distinct.sublist (List.filter_sublist.map Slot.property)

theorem slot_eq (described : MessageDescribed compiler table message schema) {left right : Slot}
    (leftMember : left ∈ message.slots) (rightMember : right ∈ message.slots)
    (same : left.property = right.property) : left = right := by
  have distinct : (message.slots.map Slot.property).Nodup := described.keys_eq ▸ described.distinct
  exact List.inj_on_of_nodup_map distinct leftMember rightMember same

theorem eq_or_oneof_eq (described : MessageDescribed compiler table message schema)
    {left right : Field} (leftDeclared : left ∈ message.fields)
    (rightDeclared : right ∈ message.fields) (same : left.property = right.property) :
    left = right ∨ left.oneof.isSome = true ∧ left.oneof = right.oneof := by
  obtain ⟨slot, listed, leftInside⟩ := Message.exists_slot leftDeclared
  obtain ⟨other, otherListed, rightInside⟩ := Message.exists_slot rightDeclared
  obtain rfl : slot = other := by
    refine described.slot_eq listed otherListed ?_
    rw [← (Message.mem_slot_fields listed leftInside).2, same,
      (Message.mem_slot_fields otherListed rightInside).2]
  cases slot with
  | plain field =>
    exact .inl ((List.mem_singleton.mp leftInside).trans (List.mem_singleton.mp rightInside).symm)
  | group group members =>
    have leftGroup := (Message.mem_of_mem_group listed leftInside).2
    have rightGroup := (Message.mem_of_mem_group listed rightInside).2
    exact .inr ⟨Option.isSome_of_eq_some leftGroup, leftGroup.trans rightGroup.symm⟩

theorem exists_slot (described : MessageDescribed compiler table message schema) {name : String}
    {property : Schema} (member : (name, property) ∈ schema.properties) :
    ∃ slot ∈ message.slots, slot.property = name ∧
      SlotDescribed compiler.registry table slot property := by
  obtain ⟨slot, listed, pair⟩ := exists_left_of_forall₂ described.properties member
  exact ⟨slot, listed, pair.name.symm, pair.schema⟩

theorem exists_property (described : MessageDescribed compiler table message schema) {slot : Slot}
    (member : slot ∈ message.slots) :
    ∃ property, schema.properties.get? slot.property = some property ∧
      (slot.property, property) ∈ schema.properties ∧
      SlotDescribed compiler.registry table slot property := by
  obtain ⟨⟨name, property⟩, listed, pair⟩ := exists_right_of_forall₂ described.properties member
  obtain rfl : name = slot.property := pair.name
  exact ⟨property, Entries.get?_of_mem described.distinct listed, listed, pair.schema⟩

end MessageDescribed

/-! ## Described fields and messages are well-formed -/

section WellFormed

variable {registry : Registry} {table : Definitions}

private theorem KindDescribed.wellFormed {kind : FieldKind} {schema : Schema}
    (described : KindDescribed registry kind schema) : kind.WellFormed registry := by
  cases described with
  | scalar => exact trivial
  | enumeration found => exact Option.isSome_iff_exists.mpr ⟨_, found⟩
  | wellKnown found => exact .inl (Option.isSome_iff_exists.mpr ⟨_, found⟩)
  | message _ found => exact .inr (Option.isSome_iff_exists.mpr ⟨_, found⟩)

private theorem FieldDescribed.wellFormed {field : Field} {schema : Schema}
    (described : FieldDescribed registry field schema) : field.WellFormed registry := by
  obtain ⟨plain, value, -⟩ := described
  cases value with
  | singular alone kind => exact ⟨kind.wellFormed, fun key keyed => by simp [alone] at keyed⟩
  | repeated many kind => exact ⟨kind.wellFormed, fun key keyed => by simp [many] at keyed⟩
  | map mapped form kind =>
    refine ⟨kind.wellFormed, fun key keyed => ?_⟩
    obtain rfl := Cardinality.map.inj (mapped.symm.trans keyed)
    exact Option.isSome_iff_exists.mpr ⟨_, form⟩

private theorem VariantDescribed.wellFormed {member : Field} {schema : Schema}
    (described : VariantDescribed registry table member schema) : member.WellFormed registry := by
  cases described with
  | inlined kind alone plain found =>
    refine ⟨?_, fun key keyed => by simp [alone] at keyed⟩
    rw [kind]
    exact .inr (Option.isSome_iff_exists.mpr ⟨_, found⟩)
  | nested _ value | overwritten _ value => exact value.wellFormed

private theorem SlotDescribed.wellFormed {slot : Slot} {schema : Schema}
    (described : SlotDescribed registry table slot schema) {field : Field}
    (inside : field ∈ slot.fields) : field.WellFormed registry := by
  cases described with
  | plain value =>
    obtain rfl := List.mem_singleton.mp inside
    exact value.wellFormed
  | group variants =>
    obtain ⟨_, _, variant⟩ := exists_right_of_forall₂ variants inside
    exact variant.wellFormed

theorem MessageDescribed.wellFormed {compiler : Compiler} {message : Message}
    {schema : ObjectSchema} (described : MessageDescribed compiler table message schema) :
    message.WellFormed compiler.registry := by
  refine ⟨fun field declared => ?_, described.keys_eq ▸ described.distinct⟩
  obtain ⟨slot, listed, inside⟩ := Message.exists_slot declared
  obtain ⟨_, _, _, property⟩ := described.exists_property listed
  exact property.wellFormed inside

end WellFormed

/-! ## Larger tables -/

/-- The completed entries of one table are those of another. -/
def Definitions.Keeps (before after : Definitions) : Prop :=
  ∀ name schema, before.schema? name = some schema → after.schema? name = some schema

theorem Definitions.Extends.keeps {before after : Definitions} (larger : before.Extends after) :
    before.Keeps after :=
  fun _ _ found => larger.schema? found

section Keeps

variable {registry : Registry} {before after : Definitions}

theorem VariantDescribed.keeps (kept : before.Keeps after) {member : Field} {schema : Schema}
    (described : VariantDescribed registry before member schema) :
    VariantDescribed registry after member schema := by
  cases described with
  | inlined kind alone plain found stored noDiscriminator noMember =>
    exact .inlined kind alone plain found (kept _ _ stored) noDiscriminator noMember
  | nested different value => exact .nested different value
  | overwritten same value => exact .overwritten same value

theorem SlotDescribed.keeps (kept : before.Keeps after) {slot : Slot} {schema : Schema}
    (described : SlotDescribed registry before slot schema) :
    SlotDescribed registry after slot schema := by
  cases described with
  | plain value => exact .plain value
  | group variants => exact .group (variants.imp fun _ _ variant => variant.keeps kept)

private theorem PropertyDescribed.keeps (kept : before.Keeps after) {slot : Slot}
    {property : String × Schema} (described : PropertyDescribed registry before slot property) :
    PropertyDescribed registry after slot property :=
  ⟨described.name, described.schema.keeps kept⟩

theorem MessageDescribed.keeps {compiler : Compiler} (kept : before.Keeps after)
    {message : Message} {schema : ObjectSchema}
    (described : MessageDescribed compiler before message schema) :
    MessageDescribed compiler after message schema :=
  ⟨described.properties.imp fun _ _ property => property.keeps kept, described.distinct,
    described.required, described.description⟩

end Keeps

end ToolContract
