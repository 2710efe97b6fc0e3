import Mathlib.Data.Fin.SuccPred
import ToolContract.Proofs.Validation.Accepts

/-!
# What the schema forms accept

The documents of the forms that contracts are made of, each with the values that it accepts. The
parts of a value are checked with all hops again, and an object does not use any.
-/

set_option autoImplicit false

namespace ToolContract

def JsonType.Holds : JsonType → Json → Prop
  | .boolean, .bool _ => True
  | .integer, .num written => written.isWhole = true
  | .number, .num _ => True
  | .string, .str _ => True
  | _, _ => False

namespace Json

private theorem isOfType_keyword_iff {value : Json} {type : JsonType} :
    value.isOfType type.keyword = true ↔ type.Holds value := by
  cases type <;> cases value <;> simp [isOfType, JsonType.keyword, JsonType.Holds]

private theorem isOfType_null_iff {value : Json} :
    value.isOfType "null" = true ↔ value = .null := by
  cases value <;> simp [isOfType]

private theorem isOfType_array_iff {value : Json} :
    value.isOfType "array" = true ↔ ∃ items, value = .arr items := by
  cases value <;> simp [isOfType]

private theorem isOfType_object_iff {value : Json} :
    value.isOfType "object" = true ↔ ∃ entries, value = .obj entries := by
  cases value <;> simp [isOfType]

end Json

namespace Schema

open Json

variable {definitions : Entries Json} {hops : Nat} {value : Json}

theorem get?_propertiesToJson (properties : Entries Schema) (name : String) :
    Entries.get? name (propertiesToJson properties) = (properties.get? name).map toJson := by
  rw [propertiesToJson_eq_map, Entries.get?_map]

theorem keys_propertiesToJson (properties : Entries Schema) :
    Entries.keys (propertiesToJson properties) = properties.keys := by
  rw [propertiesToJson_eq_map, Entries.keys_map]

private theorem accepts_true : Accepts definitions hops (.bool true) value := by
  rw [Accepts]
  simp

private theorem not_accepts_false : ¬ Accepts definitions hops (.bool false) value := by
  rw [Accepts]
  simp [entries?]

theorem accepts_any : Accepts definitions hops any.toJson value := by
  rw [Accepts]
  simp [toJson, keywords]

theorem accepts_typed_iff {type : JsonType} :
    Accepts definitions hops (typed type).toJson value ↔ type.Holds value := by
  rw [Accepts, ← isOfType_keyword_iff]
  simp [toJson, keywords, Entries.get?_cons, typeWords]

theorem accepts_nullable_iff {type : JsonType} {format : Option String} :
    Accepts definitions hops (nullable type format).toJson value ↔
      type.Holds value ∨ value = .null := by
  rw [Accepts, ← isOfType_keyword_iff, ← isOfType_null_iff]
  cases format <;> simp [toJson, keywords, Entries.get?_cons, typeWords, text?]

theorem accepts_constant_iff {text : String} :
    Accepts definitions hops (constant text).toJson value ↔ value = .str text := by
  have clauses : Accepts definitions hops (constant text).toJson value ↔
      value.isOfType "string" = true ∧ value = .str text := by
    rw [Accepts]
    simp [toJson, keywords, Entries.get?_cons, typeWords]
  rw [clauses, and_iff_right_iff_imp]
  rintro rfl
  rfl

theorem accepts_reference_iff {name : String} :
    Accepts definitions hops (reference name).toJson value ↔
      ∃ target, definitions.get? name = some target ∧ 0 < hops ∧
        Accepts definitions (hops - 1) target value := by
  rw [Accepts]
  simp [toJson, keywords, Entries.get?_cons, definitionPath_inj]

theorem accepts_list_iff {items : Schema} :
    Accepts definitions hops (list items).toJson value ↔
      ∃ inner, value = .arr inner ∧
        ∀ item ∈ inner, Accepts definitions definitions.length items.toJson item := by
  have clauses : Accepts definitions hops (list items).toJson value ↔
      value.isOfType "array" = true ∧ ∀ inner, value.items? = some inner →
        ∀ item ∈ inner, Accepts definitions definitions.length items.toJson item := by
    rw [Accepts]
    simp [toJson, keywords, Entries.get?_cons, typeWords]
  rw [clauses, isOfType_array_iff]
  constructor
  · intro given
    obtain ⟨⟨inner, rfl⟩, inside⟩ := given
    exact ⟨inner, rfl, inside inner rfl⟩
  · intro given
    obtain ⟨inner, rfl, inside⟩ := given
    exact ⟨⟨inner, rfl⟩, fun _ shape => Option.some.inj shape ▸ inside⟩

theorem accepts_openObject_iff :
    Accepts definitions hops openObject.toJson value ↔ ∃ entries, value = .obj entries := by
  rw [Accepts, ← isOfType_object_iff]
  simp [toJson, keywords, Entries.get?_cons, typeWords, accepts_true]

theorem accepts_emptyObject_iff :
    Accepts definitions hops emptyObject.toJson value ↔ value = .obj [] := by
  have clauses : Accepts definitions hops emptyObject.toJson value ↔
      value.isOfType "object" = true ∧ ∀ entries, value.entries? = some entries →
        ∀ entry, entry ∉ entries := by
    rw [Accepts]
    simp [toJson, keywords, Entries.get?_cons, typeWords, declaredNames, not_accepts_false]
  rw [clauses, isOfType_object_iff]
  constructor
  · intro given
    obtain ⟨⟨entries, rfl⟩, closed⟩ := given
    rw [List.eq_nil_iff_forall_not_mem.mpr (closed entries rfl)]
  · rintro rfl
    refine ⟨⟨[], rfl⟩, fun _ shape entry => ?_⟩
    obtain rfl := Option.some.inj shape
    exact List.not_mem_nil

theorem accepts_map_iff {values : Schema} {form : KeyForm} :
    Accepts definitions hops (map values form).toJson value ↔
      ∃ entries : Entries Json, value = .obj entries ∧
        ∀ entry ∈ entries, Accepts definitions definitions.length values.toJson entry.2 := by
  have names (key : String) : Accepts definitions definitions.length form.toJson (.str key) := by
    rw [Accepts]
    cases form <;> simp [KeyForm.toJson, Entries.get?_cons, typeWords, isOfType]
  have clauses : Accepts definitions hops (map values form).toJson value ↔
      value.isOfType "object" = true ∧ ∀ entries, value.entries? = some entries →
        ∀ entry ∈ entries, Accepts definitions definitions.length values.toJson entry.2 := by
    rw [Accepts]
    simp [toJson, keywords, Entries.get?_cons, typeWords, declaredNames, names]
  rw [clauses, isOfType_object_iff]
  constructor
  · intro given
    obtain ⟨⟨entries, rfl⟩, inside⟩ := given
    exact ⟨entries, rfl, inside entries rfl⟩
  · intro given
    obtain ⟨entries, rfl, inside⟩ := given
    exact ⟨⟨entries, rfl⟩, fun _ shape => Option.some.inj shape ▸ inside⟩

theorem accepts_object_iff {properties : Entries Schema} {required : List String} :
    Accepts definitions hops (object properties required).toJson value ↔
      ∃ entries : Entries Json, value = .obj entries ∧ (∀ name ∈ required, name ∈ entries.keys) ∧
        ∀ entry ∈ entries, ∃ schema, properties.get? entry.1 = some schema ∧
          Accepts definitions definitions.length schema.toJson entry.2 := by
  have clauses : Accepts definitions hops (object properties required).toJson value ↔
      value.isOfType "object" = true ∧ (∀ entries, value.entries? = some entries →
        ∀ name ∈ required, name ∈ entries.keys) ∧
        (∀ entries, value.entries? = some entries → ∀ entry ∈ entries,
          ∀ inner, (properties.get? entry.1).map toJson = some inner →
            Accepts definitions definitions.length inner entry.2) ∧
        ∀ entries, value.entries? = some entries → ∀ entry ∈ entries,
          entry.1 ∈ properties.keys := by
    rw [Accepts]
    simp [toJson, keywords, Entries.get?_cons, typeWords, declaredNames, get?_propertiesToJson,
      keys_propertiesToJson, not_accepts_false]
  rw [clauses, isOfType_object_iff]
  constructor
  · intro given
    obtain ⟨⟨entries, rfl⟩, required, inside, closed⟩ := given
    refine ⟨entries, rfl, required entries rfl, fun entry member => ?_⟩
    have declared := closed entries rfl entry member
    cases found : properties.get? entry.1 with
    | none => exact absurd declared (Entries.get?_eq_none_iff.mp found)
    | some schema => exact ⟨schema, rfl, inside entries rfl entry member _ (by rw [found]; rfl)⟩
  · intro given
    obtain ⟨entries, rfl, required, inside⟩ := given
    refine ⟨⟨entries, rfl⟩, ?_, ?_, ?_⟩
    · exact fun _ shape => Option.some.inj shape ▸ required
    · intro _ shape entry member inner found
      obtain rfl := Option.some.inj shape
      obtain ⟨schema, held, accepted⟩ := inside entry member
      rw [held] at found
      exact Option.some.inj found ▸ accepted
    · intro _ shape entry member
      obtain rfl := Option.some.inj shape
      obtain ⟨schema, held, -⟩ := inside entry member
      exact Entries.mem_keys_of_mem (Entries.mem_of_get? held)

theorem accepts_union_iff {variants : List Schema} :
    Accepts definitions hops (union variants).toJson value ↔
      ∃! index : Fin variants.length, Accepts definitions hops (variants.get index).toJson value := by
  have clauses : Accepts definitions hops (union variants).toJson value ↔
      ∃! index : Fin (variants.map toJson).length,
        Accepts definitions hops ((variants.map toJson).get index) value := by
    rw [Accepts]
    simp [toJson, keywords, Entries.get?_cons, variantsToJson_eq_map]
  rw [clauses]
  refine (finCongr (List.length_map toJson)).existsUnique_congr fun index => ?_
  simp

theorem accepts_described_iff {text : String} {schema : Schema} :
    Accepts definitions hops (described text schema).toJson value ↔
      Accepts definitions hops schema.toJson value := by
  apply SameAssertions.accepts_iff
  exact sameAssertions_append (by simp [assertions])

theorem accepts_describe?_iff {comment : Option String} {schema : Schema} :
    Accepts definitions hops (schema.describe? comment).toJson value ↔
      Accepts definitions hops schema.toJson value := by
  cases comment with
  | none => rfl
  | some comment =>
    cases schema <;> simp only [describe?, describe, accepts_described_iff]

end Schema

/-! ## Object schemas -/

/-- The entries are those of the schema: all that is required is there, and every entry has a
property whose schema its value is valid for. -/
structure ObjectSchema.Fits (schema : ObjectSchema) (valid : Schema → Json → Prop)
    (entries : Entries Json) : Prop where
  required : ∀ name ∈ schema.required, name ∈ entries.keys
  properties : ∀ entry ∈ entries, ∃ inner,
    schema.properties.get? entry.1 = some inner ∧ valid inner entry.2

theorem ObjectSchema.accepts_iff {definitions : Entries Json} {hops : Nat} {schema : ObjectSchema}
    {value : Json} :
    Json.Accepts definitions hops schema.toSchema.toJson value ↔
      ∃ entries : Entries Json, value = .obj entries ∧
        schema.Fits (fun inner part => Json.Accepts definitions definitions.length inner.toJson part)
          entries := by
  rw [toSchema, Schema.accepts_describe?_iff, Schema.accepts_object_iff]
  constructor
  · intro given
    obtain ⟨entries, rfl, required, properties⟩ := given
    exact ⟨entries, rfl, required, properties⟩
  · intro given
    obtain ⟨entries, rfl, required, properties⟩ := given
    exact ⟨entries, rfl, required, properties⟩

end ToolContract
