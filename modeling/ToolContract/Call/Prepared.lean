import ToolContract.Call.Extras
import ToolContract.Call.Flatten

/-!
# Prepared calls

The arguments of a call, taken back to the JSON form of the request: extra properties go to the
context, and oneof wrappers are flattened. A call without arguments is one with no properties.
-/

set_option autoImplicit false

namespace ToolContract

structure PreparedCall where
  payload : Json
  context : Context

namespace PreparedCall

/-- The properties at the root of arguments; `null` has none, and any other value is refused. -/
def root : Json → Except CallError (Entries Json)
  | .null => .ok []
  | .obj entries => .ok entries
  | _ => .error .notAnObject

def ofArguments (extras : List ExtraProperty) (arguments : Json) :
    Except CallError PreparedCall := do
  let entries ← root arguments
  let (context, left) := Context.take extras ∅ entries
  return ⟨(Json.obj left).flatten, ← context⟩

def decode {α : Type} (call : PreparedCall) (read? : Json → Option α) : Except CallError α :=
  match read? call.payload with
  | some request => .ok request
  | none => .error .notTheRequest

end PreparedCall

end ToolContract
