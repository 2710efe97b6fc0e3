import ToolContract.Schema.Basic

/-!
# The table of definitions

Every message type of a contract has one entry, under its qualified name. The name is reserved
before the fields of the message are compiled, so a message that refers to itself finds its own
name; the entry is completed afterwards, or withdrawn if the message cannot be compiled. Entries
stand in the order of their reservations, so a message precedes the types it refers to.
-/

set_option autoImplicit false

namespace ToolContract

inductive Definition where
  | reserved
  | completed (schema : ObjectSchema)
  deriving Repr, Inhabited

/-- The definitions by qualified name, in the order of their reservations. -/
abbrev Definitions := Entries Definition

namespace Definitions

def isReserved (definitions : Definitions) (name : String) : Bool :=
  match definitions.get? name with
  | some .reserved => true
  | _ => false

def schema? (definitions : Definitions) (name : String) : Option ObjectSchema :=
  match definitions.get? name with
  | some (.completed schema) => some schema
  | _ => none

def reserve (definitions : Definitions) (name : String) : Definitions :=
  definitions ++ [(name, .reserved)]

def complete (definitions : Definitions) (name : String) (schema : ObjectSchema) : Definitions :=
  definitions.put name (.completed schema)

def withdraw (definitions : Definitions) (name : String) : Definitions :=
  definitions.erase name

end Definitions

/-- The document of a definition; one that is not completed has none yet. -/
def Definition.toJson : Definition → Json
  | .reserved => .null
  | .completed schema => schema.toSchema.toJson

def Definitions.toJson (definitions : Definitions) : Json :=
  .obj (definitions.map fun entry => (entry.1, entry.2.toJson))

end ToolContract
