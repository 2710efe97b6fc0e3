import ToolContract.Json
import ToolContract.Descriptor.Kind

/-!
# Schemas

The schema forms a contract is made of. `Schema.toJson` writes a schema as a JSON Schema document;
its keywords come in a fixed order and a description is always the last of them.

A description is added by `describe`, which joins it with one that is already there, so no schema
built by it carries two.
-/

set_option autoImplicit false

namespace ToolContract

inductive JsonType where
  | boolean
  | integer
  | number
  | string
  deriving DecidableEq, Repr, Inhabited

def JsonType.keyword : JsonType → String
  | .boolean => "boolean"
  | .integer => "integer"
  | .number => "number"
  | .string => "string"

/-- Scalars of 64 bits are written as strings, since a JSON number may lose their precision. -/
def Scalar.jsonType : Scalar → JsonType
  | .bool => .boolean
  | .string | .bytes => .string
  | .int32 | .uint32 | .sint32 | .fixed32 | .sfixed32 => .integer
  | .int64 | .uint64 | .sint64 | .fixed64 | .sfixed64 => .string
  | .float | .double => .number

def FieldKind.jsonType? : FieldKind → Option JsonType
  | .scalar type => some type.jsonType
  | .enumeration _ => some .integer
  | .message _ => none
  | .group _ => none

inductive KeyForm where
  | text
  | boolean
  | integer
  deriving DecidableEq, Repr, Inhabited

/-- The key forms of the kinds that may key a map: text, truth values and integers. -/
def FieldKind.keyForm? : FieldKind → Option KeyForm
  | .scalar .string => some .text
  | .scalar .bool => some .boolean
  | .scalar .int32 | .scalar .int64 | .scalar .uint32 | .scalar .uint64 | .scalar .sint32
  | .scalar .sint64 | .scalar .fixed32 | .scalar .fixed64 | .scalar .sfixed32
  | .scalar .sfixed64 => some .integer
  | .scalar .double | .scalar .float | .scalar .bytes => none
  | .enumeration _ | .message _ | .group _ => none

inductive Schema where
  | any
  | typed (type : JsonType)
  /-- A value of one sort, or `null`; a string may have to follow a named format. -/
  | nullable (type : JsonType) (format : Option String)
  | constant (text : String)
  | reference (name : String)
  | list (items : Schema)
  | map (values : Schema) (keys : KeyForm)
  | openObject
  | emptyObject
  /-- An object with these properties only, of which the required ones are present. -/
  | object (properties : List (String × Schema)) (required : List String)
  | union (variants : List Schema)
  | described (text : String) (schema : Schema)
  deriving Repr, Inhabited

def definitionPath (name : String) : String :=
  "#/$defs/" ++ name

theorem definitionPath_inj {left right : String} :
    definitionPath left = definitionPath right ↔ left = right := by
  simp [definitionPath, ← String.toList_inj]

def KeyForm.toJson : KeyForm → Json
  | .text => .obj [("type", .str "string")]
  | .boolean =>
    .obj [("type", .str "string"), ("description", .str "Boolean map key: \"true\" or \"false\".")]
  | .integer => .obj [("type", .str "string"), ("description", .str "Decimal integer map key.")]

namespace Schema

def describe (comment : String) : Schema → Schema
  | .described text schema => .described (comment ++ "\n\n" ++ text) schema
  | schema => .described comment schema

def describe? (comment : Option String) (schema : Schema) : Schema :=
  match comment with
  | some comment => schema.describe comment
  | none => schema

mutual

def keywords : Schema → List (String × Json)
  | .any => []
  | .typed type => [("type", .str type.keyword)]
  | .nullable type none => [("type", .arr [.str type.keyword, .str "null"])]
  | .nullable type (some format) =>
    [("type", .arr [.str type.keyword, .str "null"]), ("format", .str format)]
  | .constant text => [("type", .str "string"), ("const", .str text)]
  | .reference name => [("$ref", .str (definitionPath name))]
  | .list items => [("type", .str "array"), ("items", .obj items.keywords)]
  | .map values keys =>
    [("type", .str "object"), ("additionalProperties", .obj values.keywords),
      ("propertyNames", keys.toJson)]
  | .openObject => [("type", .str "object"), ("additionalProperties", .bool true)]
  | .emptyObject =>
    [("type", .str "object"), ("properties", .obj []), ("additionalProperties", .bool false)]
  | .object properties required =>
    [("type", .str "object"), ("properties", .obj (propertiesToJson properties)),
      ("required", .arr (required.map .str)), ("additionalProperties", .bool false)]
  | .union variants => [("oneOf", .arr (variantsToJson variants))]
  | .described text schema => schema.keywords ++ [("description", .str text)]

def propertiesToJson : List (String × Schema) → List (String × Json)
  | [] => []
  | (name, schema) :: rest => (name, .obj schema.keywords) :: propertiesToJson rest

def variantsToJson : List Schema → List Json
  | [] => []
  | schema :: rest => .obj schema.keywords :: variantsToJson rest

end

def toJson (schema : Schema) : Json :=
  .obj schema.keywords

theorem propertiesToJson_eq_map (properties : Entries Schema) :
    propertiesToJson properties = properties.map fun entry => (entry.1, entry.2.toJson) := by
  induction properties with
  | nil => rfl
  | cons entry rest ih =>
    rcases entry with ⟨name, schema⟩
    simp [propertiesToJson, toJson, ih]

theorem variantsToJson_eq_map (variants : List Schema) :
    variantsToJson variants = variants.map toJson := by
  induction variants with
  | nil => rfl
  | cons schema rest ih => simp [variantsToJson, toJson, ih]

end Schema

structure ObjectSchema where
  properties : Entries Schema
  required : List String
  description : Option String := none
  deriving Repr, Inhabited

def ObjectSchema.toSchema (schema : ObjectSchema) : Schema :=
  (Schema.object schema.properties schema.required).describe? schema.description

end ToolContract
