import ToolContract.Descriptor.Basic

/-!
# Required properties

By default a field may be left out unless it is marked required. If the keyword `optional` is to be
honoured, every field without it must be present as well. A list or a map is never required, since
an empty one and an absent one are the same message.
-/

set_option autoImplicit false

namespace ToolContract

structure Options where
  /-- Whether a field without the keyword `optional` must be present. -/
  honourOptional : Bool := false
  deriving DecidableEq, Repr, Inhabited

def Field.isRequired (options : Options) (field : Field) : Bool :=
  !field.isList && !field.isMap &&
    (field.markedRequired || options.honourOptional && !field.declaredOptional)

/-- Whether the property of a oneof group with these members must be present. -/
def groupIsRequired (options : Options) (members : List Field) : Bool :=
  options.honourOptional || members.any Field.markedRequired

end ToolContract
