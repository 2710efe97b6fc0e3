import ToolContract.Schema.Compile
import ToolContract.Tool.Extra
import ToolContract.Tool.Name

/-!
# The tools of a registry

Every method without streams is a tool. Its input is the contract of the request message with the
extra properties added to the root, which leaves the definitions as they are: the definition of the
request message itself does not show the extra properties.
-/

set_option autoImplicit false

namespace ToolContract

structure Tool where
  name : String
  description : String
  inputSchema : Json
  deriving DecidableEq, Repr, Inhabited

structure Catalog where
  compiler : Compiler
  extras : List ExtraProperty := []
  nameLimit : Nat := defaultNameLimit

namespace Catalog

def addExtras (message : String) :
    Entries Schema → List ExtraProperty → Except SchemaError (Entries Schema)
  | properties, [] => .ok properties
  | properties, extra :: rest =>
    if properties.contains extra.name then .error (.shadowedProperty extra.name message)
    else
      addExtras message
        (properties ++ [(extra.name, .described extra.description (.typed .string))]) rest

/-- The contract of a request message with the extra properties at its root. -/
def input (catalog : Catalog) (message : String) : Except SchemaError Contract := do
  let contract ← catalog.compiler.contract message
  match firstRepeated? (catalog.extras.map ExtraProperty.name) with
  | some name => .error (.repeatedExtra name)
  | none =>
    let properties ← addExtras message contract.root.properties catalog.extras
    let required := (catalog.extras.filter ExtraProperty.required).map ExtraProperty.name
    return { contract with
      root := { contract.root with
        properties := properties
        required := contract.root.required ++ required } }

def methodTool (catalog : Catalog) (service : Service) (method : Method) :
    Except SchemaError Tool :=
  if method.isStreaming then .error (.streamingMethod service.fullName method.name)
  else do
    let input ← catalog.input method.input
    let description := method.comment.getD ("Calls " ++ service.name ++ "." ++ method.name ++ ".")
    let fullName := service.fullName ++ "." ++ method.name
    return ⟨ToolName.fit (ToolName.ofMethod fullName) catalog.nameLimit, description, input.toJson⟩

/-- The tools of the listed methods, in order; methods that stream have none. -/
def toolsOf (catalog : Catalog) (service : Service) :
    List Method → Except SchemaError (List Tool)
  | [] => .ok []
  | method :: rest =>
    if method.isStreaming then catalog.toolsOf service rest
    else do
      let tool ← catalog.methodTool service method
      return tool :: (← catalog.toolsOf service rest)

def toolsOfAll (catalog : Catalog) : List Service → Except SchemaError (List Tool)
  | [] => .ok []
  | service :: rest => do
    let tools ← catalog.toolsOf service service.methods
    return tools ++ (← catalog.toolsOfAll rest)

def unrepeated (tools : List Tool) : Except SchemaError (List Tool) :=
  match firstRepeated? (tools.map Tool.name) with
  | some name => .error (.repeatedTool name)
  | none => .ok tools

def allTools (catalog : Catalog) : Except SchemaError (List Tool) := do
  unrepeated (← catalog.toolsOfAll catalog.compiler.registry.serviceList)

def serviceTools (catalog : Catalog) (name : String) : Except SchemaError (List Tool) :=
  match catalog.compiler.registry.service? name with
  | none => .error (.unknownType name)
  | some service => do unrepeated (← catalog.toolsOf service service.methods)

end Catalog

end ToolContract
