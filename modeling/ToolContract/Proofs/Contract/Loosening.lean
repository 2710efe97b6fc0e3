import Mathlib.Data.List.Forall2
import ToolContract.Proofs.References

/-!
# Contracts with fewer required properties

A contract loosens another one if they differ in required properties only: those of its message
objects, and those that the variants of its unions take over from message objects, are some of those
that stand at the same place of the other, in the same order. Their documents have the same keys,
items and values in the same order then, but for texts that are missing from lists under `required`
(`Contract.Loosens.document`).
-/

set_option autoImplicit false

namespace ToolContract

/-! ## Schemas -/

mutual

/-- The schemas are the same but for the required properties of message objects that variants of
unions take over. -/
inductive Schema.Loosens : Schema → Schema → Prop where
  | same (schema : Schema) : Schema.Loosens schema schema
  | union {lefts rights : List Schema} :
      Schema.LoosenEach lefts rights → Schema.Loosens (.union lefts) (.union rights)
  | inlined (member : Field) {loose strict : ObjectSchema} :
      Schema.LoosenProperties loose.properties strict.properties →
      loose.required.Sublist strict.required → loose.description = strict.description →
      Schema.Loosens (Compiler.inlineVariant member loose) (Compiler.inlineVariant member strict)

inductive Schema.LoosenEach : List Schema → List Schema → Prop where
  | nil : Schema.LoosenEach [] []
  | cons {left right : Schema} {lefts rights : List Schema} :
      Schema.Loosens left right → Schema.LoosenEach lefts rights →
      Schema.LoosenEach (left :: lefts) (right :: rights)

inductive Schema.LoosenProperties : Entries Schema → Entries Schema → Prop where
  | nil : Schema.LoosenProperties [] []
  | cons (name : String) {left right : Schema} {lefts rights : Entries Schema} :
      Schema.Loosens left right → Schema.LoosenProperties lefts rights →
      Schema.LoosenProperties ((name, left) :: lefts) ((name, right) :: rights)

end

namespace Schema.LoosenProperties

variable {lefts rights : Entries Schema}

private theorem keys_eq (loosen : LoosenProperties lefts rights) : lefts.keys = rights.keys := by
  induction lefts generalizing rights with
  | nil => cases loosen with | nil => rfl
  | cons entry rest ih =>
    cases loosen with
    | cons name _ later => rw [Entries.keys_cons, Entries.keys_cons, ih later]

theorem contains_eq (loosen : LoosenProperties lefts rights) (name : String) :
    lefts.contains name = rights.contains name := by
  rw [Bool.eq_iff_iff, Entries.contains_iff, Entries.contains_iff, loosen.keys_eq]

theorem concat (loosen : LoosenProperties lefts rights) (name : String) {left right : Schema}
    (last : left.Loosens right) :
    LoosenProperties (lefts ++ [(name, left)]) (rights ++ [(name, right)]) := by
  induction lefts generalizing rights with
  | nil => cases loosen with | nil => exact .cons name last .nil
  | cons entry rest ih =>
    cases loosen with
    | cons first here later => exact .cons first here (ih later)

end Schema.LoosenProperties

/-- The message object is the other one without some of its required properties. -/
structure ObjectSchema.Loosens (loose strict : ObjectSchema) : Prop where
  properties : Schema.LoosenProperties loose.properties strict.properties
  required : loose.required.Sublist strict.required
  description : loose.description = strict.description

/-! ## Tables of definitions -/

inductive Definition.Loosens : Definition → Definition → Prop where
  | reserved : Definition.Loosens .reserved .reserved
  | completed {loose strict : ObjectSchema} :
      loose.Loosens strict → Definition.Loosens (.completed loose) (.completed strict)

/-- The tables have the same names in the same order. -/
inductive Definitions.Loosen : Definitions → Definitions → Prop where
  | nil : Definitions.Loosen [] []
  | cons (name : String) {left right : Definition} {lefts rights : Definitions} :
      left.Loosens right → Definitions.Loosen lefts rights →
      Definitions.Loosen ((name, left) :: lefts) ((name, right) :: rights)

namespace Definitions.Loosen

variable {loose strict : Definitions}

theorem keys_eq (loosen : loose.Loosen strict) : loose.keys = strict.keys := by
  induction loosen with
  | nil => rfl
  | cons name _ _ ih => rw [Entries.keys_cons, Entries.keys_cons, ih]

theorem contains_eq (loosen : loose.Loosen strict) (name : String) :
    loose.contains name = strict.contains name := by
  rw [Bool.eq_iff_iff, Entries.contains_iff, Entries.contains_iff, loosen.keys_eq]

theorem reserve (loosen : loose.Loosen strict) (name : String) :
    (loose.reserve name).Loosen (strict.reserve name) := by
  induction loosen with
  | nil => exact .cons name .reserved .nil
  | cons first here _ ih => exact .cons first here ih

theorem complete (loosen : loose.Loosen strict) (name : String) {left right : ObjectSchema}
    (schema : left.Loosens right) :
    (loose.complete name left).Loosen (strict.complete name right) := by
  induction loosen with
  | nil => exact .cons name (.completed schema) .nil
  | cons first here later ih =>
    unfold Definitions.complete at ih ⊢
    by_cases same : first = name
    · rw [Entries.put, Entries.put, if_pos same, if_pos same]
      exact .cons first (.completed schema) later
    · rw [Entries.put, Entries.put, if_neg same, if_neg same]
      exact .cons first here ih

theorem withdraw (loosen : loose.Loosen strict) (name : String) :
    (loose.withdraw name).Loosen (strict.withdraw name) := by
  induction loosen with
  | nil => exact .nil
  | cons first here _ ih =>
    unfold Definitions.withdraw Entries.erase at ih ⊢
    by_cases same : first = name
    · rw [List.filter_cons_of_neg (by simp [same]), List.filter_cons_of_neg (by simp [same])]
      exact ih
    · rw [List.filter_cons_of_pos (by simp [same]), List.filter_cons_of_pos (by simp [same])]
      exact .cons first here ih

/-- A name has a completed definition in both tables or in neither of them. -/
theorem schema? (loosen : loose.Loosen strict) (name : String) :
    Option.Rel ObjectSchema.Loosens (loose.schema? name) (strict.schema? name) := by
  induction loosen with
  | nil => exact .none
  | cons first here _ ih =>
    unfold Definitions.schema? at ih ⊢
    by_cases same : first = name
    · rw [Entries.get?_cons, Entries.get?_cons, if_pos same, if_pos same]
      cases here with
      | reserved => exact .none
      | completed schema => exact .some schema
    · rw [Entries.get?_cons, Entries.get?_cons, if_neg same, if_neg same]
      exact ih

end Definitions.Loosen

structure Contract.Loosens (loose strict : Contract) : Prop where
  root : loose.root.Loosens strict.root
  definitions : loose.definitions.Loosen strict.definitions

/-! ## Documents -/

mutual

/-- The values are the same, key order included, but for texts that are missing from lists under
`required`. -/
inductive Json.SameButRequired : Json → Json → Prop where
  | same (value : Json) : Json.SameButRequired value value
  | arr {lefts rights : List Json} :
      Json.SameItems lefts rights → Json.SameButRequired (.arr lefts) (.arr rights)
  | obj {lefts rights : Entries Json} :
      Json.SameEntries lefts rights → Json.SameButRequired (.obj lefts) (.obj rights)

inductive Json.SameItems : List Json → List Json → Prop where
  | nil : Json.SameItems [] []
  | cons {left right : Json} {lefts rights : List Json} :
      Json.SameButRequired left right → Json.SameItems lefts rights →
      Json.SameItems (left :: lefts) (right :: rights)

inductive Json.SameEntries : Entries Json → Entries Json → Prop where
  | nil : Json.SameEntries [] []
  | cons (key : String) {left right : Json} {lefts rights : Entries Json} :
      Json.SameButRequired left right → Json.SameEntries lefts rights →
      Json.SameEntries ((key, left) :: lefts) ((key, right) :: rights)
  | required {few many : List String} {lefts rights : Entries Json} :
      few.Sublist many → Json.SameEntries lefts rights →
      Json.SameEntries (("required", .arr (few.map .str)) :: lefts)
        (("required", .arr (many.map .str)) :: rights)

end

namespace Json.SameEntries

variable {lefts rights : Entries Json}

private theorem refl (entries : Entries Json) : SameEntries entries entries := by
  induction entries with
  | nil => exact .nil
  | cons entry rest ih => exact .cons entry.1 (.same entry.2) ih

private theorem append {moreLefts moreRights : Entries Json} (same : SameEntries lefts rights)
    (more : SameEntries moreLefts moreRights) :
    SameEntries (lefts ++ moreLefts) (rights ++ moreRights) := by
  induction lefts generalizing rights with
  | nil => cases same with | nil => exact more
  | cons entry rest ih =>
    cases same with
    | cons key here later => exact .cons key here (ih later)
    | required sublist later => exact .required sublist (ih later)

end Json.SameEntries

namespace Schema

theorem keywords_describe?_object (properties : Entries Schema) (required : List String)
    (description : Option String) :
    ((Schema.object properties required).describe? description).keywords =
      (Schema.object properties required).keywords ++
        (description.map fun text => ("description", Json.str text)).toList := by
  cases description with
  | none => rfl
  | some text => rfl

/-- Described objects with related properties and required properties have related keywords. -/
theorem sameEntries_object {lefts rights : Entries Schema} {few many : List String}
    (properties : Json.SameEntries (propertiesToJson lefts) (propertiesToJson rights))
    (required : few.Sublist many) (description : Option String) :
    Json.SameEntries ((Schema.object lefts few).describe? description).keywords
      ((Schema.object rights many).describe? description).keywords := by
  rw [keywords_describe?_object, keywords_describe?_object]
  refine Json.SameEntries.append ?_ (.refl _)
  exact .cons _ (.same _) (.cons _ (.obj properties) (.required required (.cons _ (.same _) .nil)))

mutual

theorem Loosens.keywords {left right : Schema} (loosens : left.Loosens right) :
    Json.SameEntries left.keywords right.keywords := by
  cases loosens with
  | same schema => exact .refl _
  | union each => exact .cons _ (.arr each.items) .nil
  | @inlined member loose strict properties required description =>
    have smaller := Compiler.sizeOf_lt_inlineVariant member loose
    have tagged : Json.SameEntries
        (propertiesToJson ((discriminatorKey, .constant member.name) :: _))
        (propertiesToJson ((discriminatorKey, .constant member.name) :: _)) :=
      .cons discriminatorKey (.same _) properties.entries
    rw [Compiler.inlineVariant, Compiler.inlineVariant, description]
    exact sameEntries_object tagged (required.cons_cons discriminatorKey) _
termination_by sizeOf left

theorem LoosenEach.items {lefts rights : List Schema} (each : LoosenEach lefts rights) :
    Json.SameItems (variantsToJson lefts) (variantsToJson rights) := by
  cases each with
  | nil => exact .nil
  | cons first rest => exact .cons (.obj first.keywords) rest.items
termination_by sizeOf lefts

theorem LoosenProperties.entries {lefts rights : Entries Schema}
    (properties : LoosenProperties lefts rights) :
    Json.SameEntries (propertiesToJson lefts) (propertiesToJson rights) := by
  cases properties with
  | nil => exact .nil
  | cons name first rest => exact .cons name (.obj first.keywords) rest.entries
termination_by sizeOf lefts

end

end Schema

private theorem ObjectSchema.Loosens.keywords {loose strict : ObjectSchema}
    (loosens : loose.Loosens strict) :
    Json.SameEntries loose.toSchema.keywords strict.toSchema.keywords := by
  rw [ObjectSchema.toSchema, ObjectSchema.toSchema, loosens.description]
  exact Schema.sameEntries_object loosens.properties.entries loosens.required _

private theorem Definition.Loosens.document {loose strict : Definition}
    (loosens : loose.Loosens strict) :
    Json.SameButRequired loose.toJson strict.toJson := by
  cases loosens with
  | reserved => exact .same _
  | completed schema => exact .obj schema.keywords

private theorem Definitions.Loosen.document {loose strict : Definitions}
    (loosen : loose.Loosen strict) :
    Json.SameButRequired loose.toJson strict.toJson := by
  refine .obj ?_
  induction loosen with
  | nil => exact .nil
  | cons name here _ ih => exact .cons name here.document ih

theorem Contract.Loosens.document {loose strict : Contract} (loosens : loose.Loosens strict) :
    Json.SameButRequired loose.toJson strict.toJson := by
  refine .obj (loosens.root.keywords.append ?_)
  exact .cons "$defs" loosens.definitions.document .nil

end ToolContract
