import ToolContract.Descriptor.Kind

/-!
# Descriptors

Messages, enums and services as resolved declarations. A field that refers to another type holds
its qualified name, so recursive and mutually recursive messages need no sharing. A oneof group is
no declaration of its own: it is the fields of one message that name the same group.
-/

set_option autoImplicit false

namespace ToolContract

/-- A field of a message. Of a map, `kind` is the kind of the values. -/
structure Field where
  name : String
  kind : FieldKind
  cardinality : Cardinality := .singular
  declaredOptional : Bool := false
  markedRequired : Bool := false
  oneof : Option String := none
  comment : Option String := none
  deriving DecidableEq, Repr, Inhabited

def Field.isList (field : Field) : Bool :=
  match field.cardinality with
  | .repeated => true
  | _ => false

def Field.isMap (field : Field) : Bool :=
  match field.cardinality with
  | .map _ => true
  | _ => false

structure Message where
  fullName : String
  fields : List Field := []
  comment : Option String := none
  deriving DecidableEq, Repr, Inhabited

def Message.name (message : Message) : String :=
  QualifiedName.short message.fullName

def Message.members (message : Message) (group : String) : List Field :=
  message.fields.filter fun field => field.oneof = some group

/-- The oneof groups in the order in which their first members are declared. -/
def Message.groups (message : Message) : List String :=
  (message.fields.filterMap Field.oneof).foldl
    (fun seen group => if group ∈ seen then seen else seen ++ [group]) []

structure Enumeration where
  fullName : String
  values : List (String × Int) := []
  comment : Option String := none
  deriving DecidableEq, Repr, Inhabited

def Enumeration.name (enumeration : Enumeration) : String :=
  QualifiedName.short enumeration.fullName

structure Method where
  name : String
  input : String
  output : String := ""
  comment : Option String := none
  clientStreaming : Bool := false
  serverStreaming : Bool := false
  deriving DecidableEq, Repr, Inhabited

def Method.isStreaming (method : Method) : Bool :=
  method.clientStreaming || method.serverStreaming

structure Service where
  fullName : String
  methods : List Method := []
  comment : Option String := none
  deriving DecidableEq, Repr, Inhabited

def Service.name (service : Service) : String :=
  QualifiedName.short service.fullName

end ToolContract
