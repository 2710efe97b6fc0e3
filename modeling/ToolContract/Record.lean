import ToolContract.Json
import ToolContract.Tool.Catalog

/-!
# Reading records

A record is written as an object with its fields by name, or as an array with its fields in the
order of their declaration. Reading a field takes what is there; a field that has a default may be
left out but not be `null`. A record of fixed form refuses names that it does not declare.
-/

set_option autoImplicit false

namespace ToolContract

/-- What becomes of the items of an array after those that are fields of the record. -/
inductive Surplus where
  | refused
  | ignored
  deriving DecidableEq, Repr

structure RecordForm where
  names : List String
  isOpen : Bool := false

namespace RecordForm

def fields? (form : RecordForm) (surplus : Surplus) : Json → Option (Entries Json)
  | .obj entries =>
    if form.isOpen || entries.all fun entry => entry.1 ∈ form.names then some entries else none
  | .arr items =>
    if surplus = .refused ∧ form.names.length < items.length then none
    else some (form.names.zip items)
  | _ => none

end RecordForm

namespace Entries

def field? {α : Type} (fields : Entries Json) (name : String) (read? : Json → Option α) :
    Option α :=
  (fields.get? name).bind read?

def fieldOr? {α : Type} (fields : Entries Json) (name : String) (default : α)
    (read? : Json → Option α) : Option α :=
  match fields.get? name with
  | some value => read? value
  | none => some default

end Entries

namespace Json

def list? {α : Type} (read? : Json → Option α) (value : Json) : Option (List α) :=
  value.items?.bind fun items => items.mapM read?

def nullable? {α : Type} (read? : Json → Option α) : Json → Option (Option α)
  | .null => some none
  | value => (read? value).map some

def size? (value : Json) : Option Nat :=
  value.integer?.bind fun integer =>
    if 0 ≤ integer ∧ integer.toNat < Nat.pow 2 64 then some integer.toNat else none

end Json

def ExtraProperty.form : RecordForm :=
  ⟨["name", "description", "required", "context_key"], false⟩

/-- Reads an extra property; one that does not say is not required. -/
def ExtraProperty.read? (surplus : Surplus) (value : Json) : Option ExtraProperty := do
  let fields ← ExtraProperty.form.fields? surplus value
  return {
    name := ← fields.field? "name" Json.text?
    description := ← fields.field? "description" Json.text?
    required := ← fields.fieldOr? "required" false Json.bool?
    contextKey := ← fields.field? "context_key" Json.text? }

def ExtraProperty.toJson (extra : ExtraProperty) : Json :=
  .obj [("name", .str extra.name), ("description", .str extra.description),
    ("required", .bool extra.required), ("context_key", .str extra.contextKey)]

/-- How a tool is written; a client may add fields of its own. -/
def Tool.form : RecordForm :=
  ⟨["name", "description", "inputSchema"], true⟩

def Tool.read? (surplus : Surplus) (value : Json) : Option Tool := do
  let fields ← Tool.form.fields? surplus value
  return {
    name := ← fields.field? "name" Json.text?
    description := ← fields.field? "description" Json.text?
    inputSchema := ← fields.field? "inputSchema" some }

def Tool.toJson (tool : Tool) : Json :=
  .obj [("name", .str tool.name), ("description", .str tool.description),
    ("inputSchema", tool.inputSchema)]

end ToolContract
