import ToolContract.Descriptor.Kind

/-!
# Why a contract cannot be compiled

Each cause carries the names of what it is about. `message` is the only place that words them.
-/

set_option autoImplicit false

namespace ToolContract

inductive SchemaError where
  | unknownType (name : String)
  | groupField (group : String)
  | mapKey (field : String) (key : FieldKind)
  | streamingMethod (service method : String)
  | repeatedProperty (message property : String)
  | repeatedExtra (property : String)
  | shadowedProperty (property message : String)
  | repeatedTool (name : String)
  deriving DecidableEq, Repr

namespace SchemaError

inductive Category where
  | unknownType
  | unsupported
  | conflict
  deriving DecidableEq, Repr

def category : SchemaError → Category
  | .unknownType _ => .unknownType
  | .groupField _ | .mapKey _ _ | .streamingMethod _ _ => .unsupported
  | .repeatedProperty _ _ | .repeatedExtra _ | .shadowedProperty _ _ | .repeatedTool _ => .conflict

def Category.heading : Category → String
  | .unknownType => "unknown type"
  | .unsupported => "unsupported descriptor"
  | .conflict => "property conflict"

def detail : SchemaError → String
  | .unknownType name => name
  | .groupField group => "group field type " ++ group
  | .mapKey field key => "map field " ++ field ++ " has invalid key kind " ++ key.label
  | .streamingMethod service method => "streaming method " ++ service ++ "." ++ method
  | .repeatedProperty message property =>
    message ++ " declares property " ++ property ++ " twice"
  | .repeatedExtra property => "duplicate extra property " ++ property
  | .shadowedProperty property message =>
    "extra property " ++ property ++ " shadows a field of " ++ message
  | .repeatedTool name => "duplicate tool name " ++ name

def message (error : SchemaError) : String :=
  error.category.heading ++ ": " ++ error.detail

end SchemaError

end ToolContract
