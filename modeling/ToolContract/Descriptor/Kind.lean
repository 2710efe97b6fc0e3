import ToolContract.Descriptor.Name

/-!
# Field kinds

What a single value of a field is: one of the fifteen scalar types, or a reference to an enum, a
message or a group by its qualified name.
-/

set_option autoImplicit false

namespace ToolContract

inductive Scalar where
  | double
  | float
  | int32
  | int64
  | uint32
  | uint64
  | sint32
  | sint64
  | fixed32
  | fixed64
  | sfixed32
  | sfixed64
  | bool
  | string
  | bytes
  deriving DecidableEq, Repr, Inhabited

def Scalar.keyword : Scalar → String
  | .double => "double"
  | .float => "float"
  | .int32 => "int32"
  | .int64 => "int64"
  | .uint32 => "uint32"
  | .uint64 => "uint64"
  | .sint32 => "sint32"
  | .sint64 => "sint64"
  | .fixed32 => "fixed32"
  | .fixed64 => "fixed64"
  | .sfixed32 => "sfixed32"
  | .sfixed64 => "sfixed64"
  | .bool => "bool"
  | .string => "string"
  | .bytes => "bytes"

/-- What one value of a field is. References hold the qualified name as it was given. -/
inductive FieldKind where
  | scalar (type : Scalar)
  | enumeration (name : String)
  | message (name : String)
  | group (name : String)
  deriving DecidableEq, Repr, Inhabited

/-- How a kind is shown to people: a scalar by its keyword, a reference with its sort before it. -/
def FieldKind.label : FieldKind → String
  | .scalar type => type.keyword
  | .enumeration name => "enum " ++ name
  | .message name => "message " ++ name
  | .group name => "group " ++ name

inductive Cardinality where
  | singular
  | repeated
  /-- A map to values of the field's kind from keys of kind `key`. -/
  | map (key : FieldKind)
  deriving DecidableEq, Repr, Inhabited

def Cardinality.label : Cardinality → String
  | .singular => "singular"
  | .repeated => "repeated"
  | .map key => "map " ++ key.label

end ToolContract
