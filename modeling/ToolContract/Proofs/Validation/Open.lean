import Mathlib.Logic.Relation
import ToolContract.Proofs.Validation.Forms

/-!
# The open parts of a value

A document leaves a part of a value open where it says nothing about it, and an object leaves the
names open that it does not declare. `Json.Leads` tells which parts of a value are checked against
which parts of a document; a value conforms to a document if it is accepted and no name in its
open parts has the form of a oneof property (`Json.Conforms`).
-/

set_option autoImplicit false

namespace ToolContract

namespace Json

/-- Checking one value against one schema leads to checking another against another. Of the
variants of a union, only that which accepts the value counts. -/
inductive Leads (definitions : Entries Json) : Json × Json → Json × Json → Prop where
  | reference {schema value target name} :
      schema.keyword? "$ref" = some (.str (definitionPath name)) →
      definitions.get? name = some target → Leads definitions (schema, value) (target, value)
  | variant {schema value operand variants variant} :
      schema.keyword? "oneOf" = some operand → operand.items? = some variants →
      variant ∈ variants → Accepts definitions definitions.length variant value →
      Leads definitions (schema, value) (variant, value)
  | item {schema value operand items item} :
      schema.keyword? "items" = some operand → value.items? = some items → item ∈ items →
      Leads definitions (schema, value) (operand, item)
  | property {schema value operand properties entries entry inner} :
      schema.keyword? "properties" = some operand → operand.entries? = some properties →
      value.entries? = some entries → entry ∈ entries → properties.get? entry.1 = some inner →
      Leads definitions (schema, value) (inner, entry.2)
  | additional {schema value operand entries entry} :
      schema.keyword? "additionalProperties" = some operand → value.entries? = some entries →
      entry ∈ entries → entry.1 ∉ schema.declaredNames →
      Leads definitions (schema, value) (operand, entry.2)

def SaysNothing (schema : Json) : Prop :=
  schema = .bool true ∨
    schema.entries?.isSome = true ∧ ∀ name ∈ assertions, schema.keyword? name = none

/-- What the schema leaves open of the value has no key of the form of a oneof property. -/
structure PlainWhereOpen (schema value : Json) : Prop where
  whole : schema.SaysNothing → value.Plain
  names : ∀ operand, schema.keyword? "additionalProperties" = some operand →
    ∀ entries, value.entries? = some entries → ∀ key ∈ entries.keys, key ∉ schema.declaredNames →
    isOneofKey key = false

/-- No open part of the value has a key of the form of a oneof property. -/
def OpenPlain (definitions : Entries Json) (schema value : Json) : Prop :=
  ∀ inner part, Relation.ReflTransGen (Leads definitions) (schema, value) (inner, part) →
    PlainWhereOpen inner part

/-- The schema accepts the value, and its open parts are plain. -/
structure Conforms (definitions : Entries Json) (schema value : Json) : Prop where
  accepted : Accepts definitions definitions.length schema value
  plain : OpenPlain definitions schema value

variable {definitions : Entries Json} {schema value inner part : Json}

theorem not_saysNothing {name : String} {operand : Json} (listed : name ∈ assertions)
    (found : schema.keyword? name = some operand) : ¬ schema.SaysNothing := by
  rintro (rfl | ⟨-, silent⟩)
  · contradiction
  · rw [silent name listed] at found
    contradiction

private theorem OpenPlain.here (plain : OpenPlain definitions schema value) :
    PlainWhereOpen schema value :=
  plain schema value .refl

private theorem OpenPlain.step (plain : OpenPlain definitions schema value)
    (leads : Leads definitions (schema, value) (inner, part)) : OpenPlain definitions inner part :=
  fun last rest path => plain last rest (.head leads path)

theorem openPlain_of_steps (here : PlainWhereOpen schema value)
    (next : ∀ inner part, Leads definitions (schema, value) (inner, part) →
      OpenPlain definitions inner part) : OpenPlain definitions schema value := by
  intro last rest path
  rcases Relation.ReflTransGen.cases_head path with same | ⟨⟨inner, part⟩, first, path⟩
  · obtain ⟨rfl, rfl⟩ := Prod.mk.inj same
    exact here
  · exact next inner part first last rest path

theorem Conforms.step (conforms : Conforms definitions schema value)
    (leads : Leads definitions (schema, value) (inner, part))
    (accepted : Accepts definitions definitions.length inner part) :
    Conforms definitions inner part :=
  ⟨accepted, conforms.plain.step leads⟩

/-! ## Annotations -/

section

variable {left right : Json}

private theorem SameAssertions.saysNothing (same : SameAssertions left right)
    (silent : right.SaysNothing) :
    left.SaysNothing := by
  rcases silent with rfl | ⟨-, none⟩
  · exact absurd same.right_object (by simp [entries?])
  · refine .inr ⟨same.left_object, fun name member => ?_⟩
    exact (same.keyword? name member).trans (none name member)

private theorem SameAssertions.leads (same : SameAssertions left right)
    (leads : Leads definitions (right, value) (inner, part)) :
    Leads definitions (left, value) (inner, part) := by
  cases leads with
  | reference found target =>
    exact .reference ((same.keyword? _ (by decide)).trans found) target
  | variant found items member accepted =>
    exact .variant ((same.keyword? _ (by decide)).trans found) items member accepted
  | item found items member => exact .item ((same.keyword? _ (by decide)).trans found) items member
  | property found properties entries member inner =>
    exact .property ((same.keyword? _ (by decide)).trans found) properties entries member inner
  | additional found entries member undeclared =>
    exact .additional ((same.keyword? _ (by decide)).trans found) entries member
      (same.declaredNames ▸ undeclared)

private theorem SameAssertions.plainWhereOpen (same : SameAssertions left right)
    (plain : PlainWhereOpen left value) : PlainWhereOpen right value := by
  refine ⟨fun silent => plain.whole (same.saysNothing silent), fun operand found => ?_⟩
  rw [← same.declaredNames]
  exact plain.names operand ((same.keyword? _ (by decide)).trans found)

private theorem SameAssertions.openPlain (same : SameAssertions left right)
    (plain : OpenPlain definitions left value) : OpenPlain definitions right value := by
  exact openPlain_of_steps (same.plainWhereOpen plain.here) fun _ _ leads =>
    plain.step (same.leads leads)

theorem SameAssertions.conforms (same : SameAssertions left right)
    (conforms : Conforms definitions left value) : Conforms definitions right value :=
  ⟨same.accepts_iff.mp conforms.accepted, same.openPlain conforms.plain⟩

end

end Json

/-! ## Values that conform to the schema forms -/

namespace Schema

open Json

variable {definitions : Entries Json} {value : Json}

theorem conforms_any_iff : Conforms definitions any.toJson value ↔ value.Plain := by
  constructor
  · exact fun conforms => conforms.plain.here.whole (.inr ⟨rfl, fun _ _ => rfl⟩)
  · intro plain
    refine ⟨accepts_any, openPlain_of_steps ⟨fun _ => plain, ?_⟩ fun _ _ leads => ?_⟩
    · exact fun _ found => by contradiction
    · cases leads <;> contradiction

theorem conforms_described_iff {text : String} {schema : Schema} :
    Conforms definitions (described text schema).toJson value ↔
      Conforms definitions schema.toJson value := by
  have same : SameAssertions (described text schema).toJson schema.toJson :=
    sameAssertions_append (by simp [assertions])
  exact ⟨same.conforms, same.symm.conforms⟩

theorem conforms_describe?_iff {comment : Option String} {schema : Schema} :
    Conforms definitions (schema.describe? comment).toJson value ↔
      Conforms definitions schema.toJson value := by
  cases comment with
  | none => rfl
  | some comment =>
    cases schema <;> simp only [describe?, describe, conforms_described_iff]

/-- A schema that says something and leads nowhere leaves nothing open. -/
theorem openPlain_of_leaf {schema : Schema} {name : String} (listed : name ∈ assertions)
    (present : name ∈ Entries.keys schema.keywords)
    (leaf : ∀ name ∈ ["$ref", "oneOf", "items", "properties", "additionalProperties"],
      name ∉ Entries.keys schema.keywords) : OpenPlain definitions schema.toJson value := by
  obtain ⟨operand, found⟩ := Entries.exists_get? present
  have missing (name : String) (operand : Json)
      (member : name ∈ ["$ref", "oneOf", "items", "properties", "additionalProperties"])
      (held : schema.toJson.keyword? name = some operand) : False := by
    rw [toJson, keyword?_obj, Entries.get?_eq_none_iff.mpr (leaf name member)] at held
    contradiction
  refine openPlain_of_steps ⟨fun silent => ?_, fun operand held => ?_⟩ fun _ _ leads => ?_
  · exact absurd silent (not_saysNothing listed found)
  · exact (missing _ _ (by decide) held).elim
  · cases leads with
    | reference held => exact (missing _ _ (by decide) held).elim
    | variant held => exact (missing _ _ (by decide) held).elim
    | item held => exact (missing _ _ (by decide) held).elim
    | property held => exact (missing _ _ (by decide) held).elim
    | additional held => exact (missing _ _ (by decide) held).elim

theorem conforms_typed_iff {type : JsonType} :
    Conforms definitions (typed type).toJson value ↔ type.Holds value := by
  refine ⟨fun conforms => accepts_typed_iff.mp conforms.accepted, fun held => ?_⟩
  have listed : "type" ∈ assertions := by decide
  exact ⟨accepts_typed_iff.mpr held,
    openPlain_of_leaf listed (by simp [keywords]) (by simp [keywords])⟩

theorem conforms_nullable_iff {type : JsonType} {format : Option String} :
    Conforms definitions (nullable type format).toJson value ↔ type.Holds value ∨ value = .null := by
  refine ⟨fun conforms => accepts_nullable_iff.mp conforms.accepted, fun held => ?_⟩
  have listed : "type" ∈ assertions := by decide
  refine ⟨accepts_nullable_iff.mpr held, openPlain_of_leaf listed ?_ ?_⟩ <;>
    cases format <;> simp [keywords]

theorem conforms_constant_iff {text : String} :
    Conforms definitions (constant text).toJson value ↔ value = .str text := by
  refine ⟨fun conforms => accepts_constant_iff.mp conforms.accepted, fun held => ?_⟩
  have listed : "type" ∈ assertions := by decide
  exact ⟨accepts_constant_iff.mpr held,
    openPlain_of_leaf listed (by simp [keywords]) (by simp [keywords])⟩

theorem conforms_list_iff {items : Schema} :
    Conforms definitions (list items).toJson value ↔
      ∃ inner, value = .arr inner ∧ ∀ item ∈ inner, Conforms definitions items.toJson item := by
  constructor
  · intro conforms
    obtain ⟨inner, rfl, inside⟩ := accepts_list_iff.mp conforms.accepted
    exact ⟨inner, rfl, fun item member => conforms.step (.item rfl rfl member) (inside item member)⟩
  · intro given
    obtain ⟨inner, rfl, inside⟩ := given
    refine ⟨accepts_list_iff.mpr ⟨inner, rfl, fun item member => (inside item member).accepted⟩, ?_⟩
    refine openPlain_of_steps ⟨fun silent => ?_, fun operand found => ?_⟩ fun _ _ leads => ?_
    · exact absurd silent (not_saysNothing (by decide : "type" ∈ assertions) rfl)
    · contradiction
    · cases leads with
      | item found shape member =>
        obtain rfl := Option.some.inj found
        obtain rfl := Option.some.inj shape
        exact (inside _ member).plain
      | _ => contradiction

theorem conforms_map_iff {values : Schema} {form : KeyForm} :
    Conforms definitions (map values form).toJson value ↔
      ∃ entries : Entries Json, value = .obj entries ∧ PlainKeys entries ∧
        ∀ entry ∈ entries, Conforms definitions values.toJson entry.2 := by
  have undeclared (key : String) : key ∉ (map values form).toJson.declaredNames := List.not_mem_nil
  constructor
  · intro conforms
    obtain ⟨entries, rfl, inside⟩ := accepts_map_iff.mp conforms.accepted
    refine ⟨entries, rfl, fun key member => ?_, fun entry member => ?_⟩
    · exact conforms.plain.here.names _ rfl entries rfl key member (undeclared key)
    · exact conforms.step (.additional rfl rfl member (undeclared _)) (inside entry member)
  · intro given
    obtain ⟨entries, rfl, plainKeys, inside⟩ := given
    refine ⟨accepts_map_iff.mpr ⟨entries, rfl, fun entry member => (inside entry member).accepted⟩,
      ?_⟩
    refine openPlain_of_steps ⟨fun silent => ?_, fun _ _ _ shape key member _ => ?_⟩
      fun _ _ leads => ?_
    · exact absurd silent (not_saysNothing (by decide : "type" ∈ assertions) rfl)
    · obtain rfl := Option.some.inj shape
      exact plainKeys key member
    · cases leads with
      | additional found shape member =>
        obtain rfl := Option.some.inj found
        obtain rfl := Option.some.inj shape
        exact (inside _ member).plain
      | _ => contradiction

theorem conforms_openObject_iff :
    Conforms definitions openObject.toJson value ↔
      (∃ entries, value = .obj entries) ∧ value.Plain := by
  have undeclared (key : String) : key ∉ openObject.toJson.declaredNames := List.not_mem_nil
  constructor
  · intro conforms
    obtain ⟨entries, rfl⟩ := accepts_openObject_iff.mp conforms.accepted
    refine ⟨⟨entries, rfl⟩, .obj (fun key member => ?_) fun entry member => ?_⟩
    · exact conforms.plain.here.names _ rfl entries rfl key member (undeclared key)
    · exact (conforms.plain.step (.additional rfl rfl member (undeclared _))).here.whole (.inl rfl)
  · intro given
    obtain ⟨⟨entries, rfl⟩, plain⟩ := given
    obtain ⟨plainKeys, inside⟩ := allObjects_obj_iff.mp plain
    refine ⟨accepts_openObject_iff.mpr ⟨entries, rfl⟩, ?_⟩
    refine openPlain_of_steps ⟨fun silent => ?_, fun _ _ _ shape key member _ => ?_⟩
      fun _ _ leads => ?_
    · exact absurd silent (not_saysNothing (by decide : "type" ∈ assertions) rfl)
    · obtain rfl := Option.some.inj shape
      exact plainKeys key member
    · cases leads with
      | additional found shape member =>
        obtain rfl := Option.some.inj found
        obtain rfl := Option.some.inj shape
        refine openPlain_of_steps ⟨fun _ => inside _ member, ?_⟩ fun _ _ leads => ?_
        · exact fun _ found => by contradiction
        · cases leads <;> contradiction
      | _ => contradiction

theorem conforms_emptyObject_iff :
    Conforms definitions emptyObject.toJson value ↔ value = .obj [] := by
  refine ⟨fun conforms => accepts_emptyObject_iff.mp conforms.accepted, ?_⟩
  rintro rfl
  refine ⟨accepts_emptyObject_iff.mpr rfl, ?_⟩
  refine openPlain_of_steps ⟨fun silent => ?_, fun _ _ _ shape key member _ => ?_⟩
    fun _ _ leads => ?_
  · exact absurd silent (not_saysNothing (by decide : "type" ∈ assertions) rfl)
  · obtain rfl := Option.some.inj shape
    contradiction
  · cases leads with
    | property _ _ shape member =>
      obtain rfl := Option.some.inj shape
      contradiction
    | additional _ shape member =>
      obtain rfl := Option.some.inj shape
      contradiction
    | _ => contradiction

theorem conforms_object_iff {properties : Entries Schema} {required : List String} :
    Conforms definitions (object properties required).toJson value ↔
      ∃ entries : Entries Json, value = .obj entries ∧ (∀ name ∈ required, name ∈ entries.keys) ∧
        ∀ entry ∈ entries, ∃ schema, properties.get? entry.1 = some schema ∧
          Conforms definitions schema.toJson entry.2 := by
  have declared (name : String) (schema : Schema) (found : properties.get? name = some schema) :
      Entries.get? name (propertiesToJson properties) = some schema.toJson := by
    rw [get?_propertiesToJson, found]
    rfl
  constructor
  · intro conforms
    obtain ⟨entries, rfl, needed, inside⟩ := accepts_object_iff.mp conforms.accepted
    refine ⟨entries, rfl, needed, fun entry member => ?_⟩
    obtain ⟨schema, found, accepted⟩ := inside entry member
    exact ⟨schema, found,
      conforms.step (.property rfl rfl rfl member (declared _ schema found)) accepted⟩
  · intro given
    obtain ⟨entries, rfl, needed, inside⟩ := given
    have accepted : Accepts definitions definitions.length (object properties required).toJson
        (.obj entries) := by
      refine accepts_object_iff.mpr ⟨entries, rfl, needed, fun entry member => ?_⟩
      obtain ⟨schema, found, conforms⟩ := inside entry member
      exact ⟨schema, found, conforms.accepted⟩
    have known (key : String) (member : key ∈ entries.keys) :
        key ∈ (object properties required).toJson.declaredNames := by
      change key ∈ Entries.keys (propertiesToJson properties)
      obtain ⟨entry, listed, rfl⟩ := List.mem_map.mp member
      obtain ⟨schema, found, -⟩ := inside entry listed
      rw [keys_propertiesToJson]
      exact Entries.mem_keys_of_mem (Entries.mem_of_get? found)
    refine ⟨accepted, openPlain_of_steps ⟨fun silent => ?_, fun _ _ _ shape key member new => ?_⟩
      fun _ _ leads => ?_⟩
    · exact absurd silent (not_saysNothing (by decide : "type" ∈ assertions) rfl)
    · obtain rfl := Option.some.inj shape
      exact absurd (known key member) new
    · cases leads with
      | property found opened shape member inner =>
        obtain rfl := Option.some.inj found
        obtain rfl := Option.some.inj opened
        obtain rfl := Option.some.inj shape
        obtain ⟨schema, stored, conforms⟩ := inside _ member
        rw [declared _ _ stored] at inner
        obtain rfl := Option.some.inj inner
        exact conforms.plain
      | additional _ shape member new =>
        obtain rfl := Option.some.inj shape
        exact absurd (known _ (Entries.mem_keys_of_mem member)) new
      | _ => contradiction

theorem conforms_union_iff {variants : List Schema} :
    Conforms definitions (union variants).toJson value ↔
      ∃ index : Fin variants.length, Conforms definitions (variants.get index).toJson value ∧
        ∀ other : Fin variants.length,
          Accepts definitions definitions.length (variants.get other).toJson value → other = index := by
  constructor
  · intro conforms
    obtain ⟨index, accepted, alone⟩ := accepts_union_iff.mp conforms.accepted
    have listed : (variants.get index).toJson ∈ variantsToJson variants := by
      rw [variantsToJson_eq_map]
      exact List.mem_map.mpr ⟨_, List.getElem_mem index.isLt, rfl⟩
    exact ⟨index, conforms.step (.variant rfl rfl listed accepted) accepted, alone⟩
  · intro given
    obtain ⟨index, conforms, alone⟩ := given
    refine ⟨accepts_union_iff.mpr ⟨index, conforms.accepted, alone⟩, ?_⟩
    refine openPlain_of_steps ⟨fun silent => ?_, fun _ found => ?_⟩ fun _ _ leads => ?_
    · exact absurd silent (not_saysNothing (by decide : "oneOf" ∈ assertions) rfl)
    · contradiction
    · cases leads with
      | variant found opened member accepted =>
        obtain rfl := Option.some.inj found
        obtain rfl := Option.some.inj opened
        rw [variantsToJson_eq_map] at member
        obtain ⟨variant, listed, rfl⟩ := List.mem_map.mp member
        obtain ⟨other, bound, rfl⟩ := List.getElem_of_mem listed
        obtain rfl := alone ⟨other, bound⟩ accepted
        exact conforms.plain
      | _ => contradiction

end Schema

theorem ObjectSchema.conforms_iff {definitions : Entries Json} {schema : ObjectSchema}
    {value : Json} :
    Json.Conforms definitions schema.toSchema.toJson value ↔
      ∃ entries : Entries Json, value = .obj entries ∧
        schema.Fits (fun inner part => Json.Conforms definitions inner.toJson part) entries := by
  rw [toSchema, Schema.conforms_describe?_iff, Schema.conforms_object_iff]
  constructor
  · intro given
    obtain ⟨entries, rfl, required, properties⟩ := given
    exact ⟨entries, rfl, required, properties⟩
  · intro given
    obtain ⟨entries, rfl, required, properties⟩ := given
    exact ⟨entries, rfl, required, properties⟩

end ToolContract
