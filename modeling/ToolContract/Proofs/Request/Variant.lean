import ToolContract.Proofs.Call.Wrapper
import ToolContract.Proofs.Described
import ToolContract.Proofs.Validation.Open

/-!
# The two forms of a variant

A variant is the schema of an object that names its member under the discriminator. The object of
the inlined form is one of the member's definition with the discriminator before it; that of the
nested form holds the value of the member under its name. Either is told from the other variants of
its group by the constant alone.
-/

set_option autoImplicit false

namespace ToolContract

/-! ## Variants as object schemas -/

namespace Compiler

def inlineObject (member : Field) (definition : ObjectSchema) : ObjectSchema where
  properties := (discriminatorKey, .constant member.name) :: definition.properties
  required := discriminatorKey :: definition.required
  description := member.comment.or definition.description

def nestedObject (member : Field) (schema : Schema) : ObjectSchema where
  properties := [(discriminatorKey, .constant member.name), (member.name, schema)]
  required := [discriminatorKey, member.name]

theorem inlineVariant_eq (member : Field) (definition : ObjectSchema) :
    inlineVariant member definition = (inlineObject member definition).toSchema := rfl

theorem nestedVariant_eq {member : Field} (different : member.name ≠ discriminatorKey)
    (schema : Schema) : nestedVariant member schema = (nestedObject member schema).toSchema := by
  rw [nestedVariant_of_ne different]
  rfl

end Compiler

/-! ## Objects of a variant -/

namespace ObjectSchema.Fits

open Compiler

variable {valid : Schema → Json → Prop} {schema definition : ObjectSchema} {member : Field}
  {entries content : Entries Json} {inner : Schema} {name : String}

theorem get?_eq_none (fits : schema.Fits valid entries)
    (undeclared : name ∉ schema.properties.keys) :
    entries.get? name = none := by
  rw [Entries.get?_eq_none_iff]
  intro member
  obtain ⟨value, found⟩ := Entries.exists_get? member
  obtain ⟨inner, held, -⟩ := fits.properties _ (Entries.mem_of_get? found)
  exact undeclared (Entries.mem_keys_of_mem (Entries.mem_of_get? held))

/-- A required property is there with a value that is valid for its schema. -/
theorem exists_valid (fits : schema.Fits valid entries) (required : name ∈ schema.required)
    (declared : schema.properties.get? name = some inner) :
    ∃ value, entries.get? name = some value ∧ valid inner value := by
  obtain ⟨value, found⟩ := Entries.exists_get? (fits.required name required)
  obtain ⟨held, stored, accepted⟩ := fits.properties _ (Entries.mem_of_get? found)
  obtain rfl := Option.some.inj (stored.symm.trans declared)
  exact ⟨value, found, accepted⟩

/-- An object of the inlined form without its discriminator is one of the definition. -/
theorem of_inlineObject (fits : (inlineObject member definition).Fits valid content)
    (noDiscriminator : discriminatorKey ∉ definition.properties.keys)
    (declared : ∀ name ∈ definition.required, name ∈ definition.properties.keys) :
    definition.Fits valid (content.erase discriminatorKey) := by
  refine ⟨fun name required => ?_, fun entry inside => ?_⟩
  · refine Entries.mem_keys_erase_iff.mpr ⟨fits.required name (List.mem_cons_of_mem _ required), ?_⟩
    rintro rfl
    exact noDiscriminator (declared _ required)
  · obtain ⟨listed, different⟩ := Entries.mem_erase_iff.mp inside
    obtain ⟨inner, found, accepted⟩ := fits.properties entry listed
    rw [inlineObject, Entries.get?_cons, if_neg different.symm] at found
    exact ⟨inner, found, accepted⟩

theorem inlineObject (fits : definition.Fits valid entries)
    (noDiscriminator : discriminatorKey ∉ definition.properties.keys)
    (constant : valid (.constant member.name) (.str member.name)) :
    (inlineObject member definition).Fits valid
      ((discriminatorKey, .str member.name) :: entries) := by
  refine ⟨fun name required => ?_, fun entry inside => ?_⟩
  · rw [Entries.keys_cons]
    rcases List.mem_cons.mp required with rfl | required
    · exact List.mem_cons_self
    · exact List.mem_cons_of_mem _ (fits.required name required)
  · rcases List.mem_cons.mp inside with rfl | listed
    · exact ⟨_, by rw [Compiler.inlineObject, Entries.get?_cons, if_pos rfl], constant⟩
    · obtain ⟨inner, found, accepted⟩ := fits.properties entry listed
      have different : discriminatorKey ≠ entry.1 := by
        intro same
        rw [same] at noDiscriminator
        exact noDiscriminator (Entries.mem_keys_of_mem (Entries.mem_of_get? found))
      exact ⟨inner, by rw [Compiler.inlineObject, Entries.get?_cons, if_neg different, found],
        accepted⟩

theorem nestedObject {value : Json} (different : member.name ≠ discriminatorKey)
    (constant : valid (.constant member.name) (.str member.name)) (accepted : valid inner value) :
    (nestedObject member inner).Fits valid
      [(discriminatorKey, .str member.name), (member.name, value)] := by
  refine ⟨fun name required => by simpa [Compiler.nestedObject] using required, ?_⟩
  simp only [List.mem_cons, List.not_mem_nil, or_false, forall_eq_or_imp, forall_eq,
    Compiler.nestedObject, Entries.get?_cons, if_true, if_neg different.symm]
  exact ⟨⟨_, rfl, constant⟩, ⟨_, rfl, accepted⟩⟩

end ObjectSchema.Fits

/-! ## Which variant accepts an object -/

section

open Json Compiler

variable {registry : Registry} {table : Definitions} {definitions : Entries Json} {hops : Nat}

theorem VariantDescribed.get?_discriminator {member : Field} {variant : Schema} {value : Json}
    (described : VariantDescribed registry table member variant)
    (different : member.name ≠ discriminatorKey)
    (accepted : Accepts definitions hops variant.toJson value) :
    ∃ content : Entries Json, value = .obj content ∧
      content.get? discriminatorKey = some (.str member.name) := by
  have tagged (schema : ObjectSchema) (required : discriminatorKey ∈ schema.required)
      (constant : schema.properties.get? discriminatorKey = some (.constant member.name))
      (same : variant = schema.toSchema) : ∃ content : Entries Json, value = .obj content ∧
        content.get? discriminatorKey = some (.str member.name) := by
    rw [same] at accepted
    obtain ⟨content, rfl, fits⟩ := ObjectSchema.accepts_iff.mp accepted
    obtain ⟨tag, found, tagAccepted⟩ := fits.exists_valid required constant
    obtain rfl := Schema.accepts_constant_iff.mp tagAccepted
    exact ⟨content, rfl, found⟩
  cases described using VariantDescribed.formCases with
  | @inlined _ _ definition =>
    exact tagged (inlineObject member definition) List.mem_cons_self
      (by rw [inlineObject, Entries.get?_cons, if_pos rfl]) (inlineVariant_eq member definition)
  | @nested schema =>
    exact tagged (nestedObject member schema) List.mem_cons_self
      (by rw [nestedObject, Entries.get?_cons, if_pos rfl]) (nestedVariant_eq different schema)

/-- An object that conforms to the variant of the member that it names conforms to the union. -/
theorem conforms_union_of_variant {members : List Field} {variants : List Schema}
    (pairs : List.Forall₂ (VariantDescribed registry table) members variants)
    (names : (members.map Field.name).Nodup)
    (different : ∀ member ∈ members, member.name ≠ discriminatorKey) {index : Nat}
    (bound : index < members.length) (variantBound : index < variants.length)
    {content : Entries Json}
    (tagged : content.get? discriminatorKey = some (.str members[index].name))
    (conforms : Conforms definitions variants[index].toJson (.obj content)) :
    Conforms definitions (Schema.union variants).toJson (.obj content) := by
  refine Schema.conforms_union_iff.mpr ⟨⟨index, variantBound⟩, conforms, fun other accepted => ?_⟩
  obtain ⟨same, described⟩ := List.forall₂_iff_get.mp pairs
  have otherBound : other.val < members.length := Nat.lt_of_lt_of_eq other.isLt same.symm
  obtain ⟨_, shape, found⟩ := (described other otherBound other.isLt).get?_discriminator
    (different _ (List.getElem_mem otherBound)) accepted
  obtain rfl := Json.obj.inj shape
  have sameName : members[other.val].name = members[index].name :=
    Json.str.inj (Option.some.inj (found.symm.trans tagged))
  have mapped : (members.map Field.name).get ⟨other.val, by simpa using otherBound⟩ =
      (members.map Field.name).get ⟨index, by simpa using bound⟩ := by
    simpa using sameName
  have sameIndex := List.nodup_iff_injective_get.mp names mapped
  exact Fin.ext (Fin.mk.inj sameIndex)

end

end ToolContract
