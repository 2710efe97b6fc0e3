/-!
# Files of declarations

The declarations of one interface file as its compiler hands them on: nested as they are written,
with references still absolute and comments still by their source paths. Absent names are empty.
-/

set_option autoImplicit false

namespace ToolContract

structure FieldDeclaration where
  name : String := ""
  number : Int := 0
  label : Option Int := none
  type : Option Int := none
  typeName : String := ""
  oneofIndex : Option Int := none
  declaredOptional : Bool := false
  deriving DecidableEq, Repr, Inhabited

structure EnumDeclaration where
  name : String := ""
  values : List (String × Int) := []
  deriving DecidableEq, Repr, Inhabited

structure MessageDeclaration where
  name : String := ""
  fields : List FieldDeclaration := []
  nested : List MessageDeclaration := []
  enumerations : List EnumDeclaration := []
  oneofs : List String := []
  isMapEntry : Bool := false
  deriving Repr, Inhabited

structure MethodDeclaration where
  name : String := ""
  input : String := ""
  output : String := ""
  clientStreaming : Bool := false
  serverStreaming : Bool := false
  deriving DecidableEq, Repr, Inhabited

structure ServiceDeclaration where
  name : String := ""
  methods : List MethodDeclaration := []
  deriving DecidableEq, Repr, Inhabited

/-- The way to a declaration in its file: a field number and an index for each step. -/
abbrev SourcePath := List Int

structure SourceLocation where
  path : SourcePath := []
  leading : Option String := none
  trailing : Option String := none
  deriving DecidableEq, Repr, Inhabited

structure FileDeclaration where
  package : String := ""
  messages : List MessageDeclaration := []
  enumerations : List EnumDeclaration := []
  services : List ServiceDeclaration := []
  locations : List SourceLocation := []
  deriving Repr, Inhabited

end ToolContract
