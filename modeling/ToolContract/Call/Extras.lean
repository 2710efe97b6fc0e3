import Std.Data.ExtTreeMap
import ToolContract.Json
import ToolContract.Tool.Extra

/-!
# Taking extra properties out of arguments

Extra properties stand at the root of the arguments of a call. Each is taken out in turn and its
text put under its context key; `null` counts as absent. The first extra property that is missing
though required, or that is no text, ends the call, and those taken out until then stay out.
-/

set_option autoImplicit false

namespace ToolContract

inductive CallError where
  | notAnObject
  | extraNotText (property : String)
  | missingExtra (property : String)
  | notTheRequest
  deriving DecidableEq, Repr

/-- The text of a refusal. What is wrong with a request is told by its reader alone. -/
def CallError.message : CallError → String
  | .notAnObject => "invalid params: tool arguments must be a JSON object"
  | .extraNotText property => "invalid params: extra property " ++ property ++ " must be a string"
  | .missingExtra property => "missing extra property: " ++ property
  | .notTheRequest => "invalid params"

abbrev Context := Std.ExtTreeMap String String

namespace Context

def take : List ExtraProperty → Context → Entries Json → Except CallError Context × Entries Json
  | [], context, entries => (.ok context, entries)
  | extra :: rest, context, entries =>
    let left := entries.erase extra.name
    match entries.get? extra.name with
    | some (.str text) => take rest (context.insert extra.contextKey text) left
    | none | some .null =>
      if extra.required then (.error (.missingExtra extra.name), left)
      else take rest context left
    | some _ => (.error (.extraNotText extra.name), left)

/-- The context that the arguments supply, and what is left of them. Arguments that are no object
supply nothing. -/
def extract (extras : List ExtraProperty) : Json → Except CallError Context × Json
  | .obj entries =>
    let (context, left) := take extras ∅ entries
    (context, .obj left)
  | arguments => ((take extras ∅ []).1, arguments)

end Context

end ToolContract
