import ToolContract.Descriptor.Registry
import ToolContract.Entries
import ToolContract.FileDescriptor.Basic
import ToolContract.Text.Blank
import ToolContract.Wire.Basic

/-!
# Resolving declarations

A declared type is registered under the names of its package and of the messages around it. Inside
a message the nested messages come first, then the enums, then the message itself. A message that
stands for the entries of a map is no type of its own: the list of such entries that its owner
declares becomes a map.

Resolving a file yields one result for each type, in the order of registration. Registering stops
at the first that is a failure and keeps the types before it.
-/

set_option autoImplicit false

namespace ToolContract

inductive DescriptorError where
  | malformed (cause : WireError)
  | missingOneof (field : String) (index : Int)
  deriving DecidableEq, Repr

def DescriptorError.message? : DescriptorError → Option String
  | .malformed _ => none
  | .missingOneof field index =>
    some ("descriptor error: field " ++ field ++ " references missing oneof " ++ toString index)

/-! ## Comments and marks by path -/

/-- The comment of a location: what stands before the declaration, else what stands after it, if
any of it is more than blank. -/
def SourceLocation.comment? (location : SourceLocation) : Option String :=
  ((location.leading.or location.trailing).map Text.trimLines).filter (· ≠ "")

structure SourceNotes where
  locations : List SourceLocation := []
  requiredPaths : List SourcePath := []

/-- The comment of the first location with that path that has one. -/
def SourceNotes.comment? (notes : SourceNotes) (path : SourcePath) : Option String :=
  notes.locations.findSome? fun location =>
    if location.path = path then location.comment? else none

def SourceNotes.isRequired (notes : SourceNotes) (path : SourcePath) : Bool :=
  notes.requiredPaths.contains path

/-- The path of the declaration at the index in the list of that field number. A step of a path
takes 32 bits: lists of 2^31 declarations and more, whose later indices have no step, are out of
scope. -/
def SourcePath.child (path : SourcePath) (number : Int) (index : Nat) : SourcePath :=
  path ++ [number, (index : Int)]

/-! ## Fields -/

def repeatedLabel : Int := 3

def requiredLabel : Int := 2

def messageType : Int := 11

namespace FieldDeclaration

def isRepeated (field : FieldDeclaration) : Bool :=
  field.label = some repeatedLabel

/-- The kind of the field. A type that is absent or unknown is that of the first code. -/
def kind (field : FieldDeclaration) : FieldKind :=
  let name := QualifiedName.strip field.typeName
  match field.type with
  | some 2 => .scalar .float
  | some 3 => .scalar .int64
  | some 4 => .scalar .uint64
  | some 5 => .scalar .int32
  | some 6 => .scalar .fixed64
  | some 7 => .scalar .fixed32
  | some 8 => .scalar .bool
  | some 9 => .scalar .string
  | some 10 => .group name
  | some 11 => .message name
  | some 12 => .scalar .bytes
  | some 13 => .scalar .uint32
  | some 14 => .enumeration name
  | some 15 => .scalar .sfixed32
  | some 16 => .scalar .sfixed64
  | some 17 => .scalar .sint32
  | some 18 => .scalar .sint64
  | _ => .scalar .double

end FieldDeclaration

structure MapKinds where
  key : FieldKind
  value : FieldKind
  deriving DecidableEq, Repr

/-- The kinds of the map whose entries a message stands for: those of its first fields of the
numbers one and two. -/
def MessageDeclaration.mapKinds? (entry : MessageDeclaration) : Option MapKinds :=
  if entry.isMapEntry then do
    let key ← entry.fields.find? fun field => field.number = 1
    let value ← entry.fields.find? fun field => field.number = 2
    return ⟨key.kind, value.kind⟩
  else none

def MessageDeclaration.maps (message : MessageDeclaration) (fullName : String) :
    Entries MapKinds :=
  message.nested.filterMap fun entry =>
    entry.mapKinds?.map fun kinds => (QualifiedName.join fullName entry.name, kinds)

namespace FieldDeclaration

/-- The map that a field is, if it is a list of the entries of one; of entries of one name the last
are meant. -/
def map? (field : FieldDeclaration) (maps : Entries MapKinds) : Option MapKinds :=
  if field.isRepeated ∧ field.type = some messageType then
    Entries.get? (QualifiedName.strip field.typeName) maps.reverse
  else none

/-- The oneof of a field; the keyword `optional` makes one of its own, which does not count. -/
def oneof (field : FieldDeclaration) (oneofs : List String) :
    Except DescriptorError (Option String) :=
  match field.oneofIndex with
  | none => .ok none
  | some index =>
    if field.declaredOptional then .ok none
    else
      let declared := if index < 0 then none else oneofs[index.toNat]?
      match declared with
      | some name => .ok (some name)
      | none => .error (.missingOneof field.name index)

def resolve (field : FieldDeclaration) (oneofs : List String) (maps : Entries MapKinds)
    (comment : Option String) (isMarked : Bool) : Except DescriptorError Field :=
  match field.oneof oneofs with
  | .error cause => .error cause
  | .ok group =>
    let (kind, cardinality) :=
      match field.map? maps with
      | some kinds => (kinds.value, Cardinality.map kinds.key)
      | none => (field.kind, if field.isRepeated then .repeated else .singular)
    .ok {
      name := field.name
      kind := kind
      cardinality := cardinality
      declaredOptional := field.declaredOptional
      markedRequired := field.label = some requiredLabel || isMarked
      oneof := group
      comment := comment }

def resolveAll (notes : SourceNotes) (path : SourcePath) (oneofs : List String)
    (maps : Entries MapKinds) : Nat → List FieldDeclaration → Except DescriptorError (List Field)
  | _, [] => .ok []
  | index, field :: rest => do
    let place := SourcePath.child path 2 index
    let first ← field.resolve oneofs maps (notes.comment? place) (notes.isRequired place)
    return first :: (← resolveAll notes path oneofs maps (index + 1) rest)

end FieldDeclaration

/-! ## Types -/

def EnumDeclaration.resolve (notes : SourceNotes) (scope : String) (path : SourcePath)
    (enumeration : EnumDeclaration) : Descriptor :=
  .enumeration {
    fullName := QualifiedName.join scope enumeration.name
    values := enumeration.values
    comment := notes.comment? path }

def EnumDeclaration.resolveAll (notes : SourceNotes) (scope : String) (path : SourcePath)
    (number : Int) (enumerations : List EnumDeclaration) :
    List (Except DescriptorError Descriptor) :=
  enumerations.zipIdx.map fun (enumeration, index) =>
    .ok (enumeration.resolve notes scope (path.child number index))

namespace MessageDeclaration

mutual

/-- The types of a message: those declared inside it, and the message itself. -/
def resolve (notes : SourceNotes) (scope : String) (path : SourcePath) :
    MessageDeclaration → List (Except DescriptorError Descriptor)
  | ⟨name, fields, nested, enumerations, oneofs, isMapEntry⟩ =>
    let fullName := QualifiedName.join scope name
    let maps := (⟨name, fields, nested, enumerations, oneofs, isMapEntry⟩ :
      MessageDeclaration).maps fullName
    let message := (FieldDeclaration.resolveAll notes path oneofs maps 0 fields).map fun fields =>
      Descriptor.message ⟨fullName, fields, notes.comment? path⟩
    resolveNested notes fullName path 0 nested
      ++ EnumDeclaration.resolveAll notes fullName path 4 enumerations
      ++ [message]

/-- The types of nested messages, of which the first has the given index. Entries of maps have none
but count. -/
def resolveNested (notes : SourceNotes) (scope : String) (path : SourcePath) :
    Nat → List MessageDeclaration → List (Except DescriptorError Descriptor)
  | _, [] => []
  | index, message :: rest =>
    (if message.isMapEntry then []
      else resolve notes scope (SourcePath.child path 3 index) message)
      ++ resolveNested notes scope path (index + 1) rest

end

end MessageDeclaration

def ServiceDeclaration.resolve (notes : SourceNotes) (scope : String) (path : SourcePath)
    (service : ServiceDeclaration) : Descriptor :=
  .service {
    fullName := QualifiedName.join scope service.name
    methods := service.methods.zipIdx.map fun (method, index) => {
      name := method.name
      input := QualifiedName.strip method.input
      output := QualifiedName.strip method.output
      comment := notes.comment? (path.child 2 index)
      clientStreaming := method.clientStreaming
      serverStreaming := method.serverStreaming }
    comment := notes.comment? path }

/-- The types of a file in the order of registration; `requiredPaths` are those of the fields that
are marked required. -/
def FileDeclaration.resolve (file : FileDeclaration) (requiredPaths : List SourcePath) :
    List (Except DescriptorError Descriptor) :=
  let notes : SourceNotes := ⟨file.locations, requiredPaths⟩
  (file.messages.zipIdx.flatMap fun (message, index) =>
      message.resolve notes file.package (SourcePath.child [] 4 index))
    ++ EnumDeclaration.resolveAll notes file.package [] 5 file.enumerations
    ++ file.services.zipIdx.map fun (service, index) =>
      .ok (service.resolve notes file.package (SourcePath.child [] 6 index))

namespace Registry

def addResolved : Registry → List (Except DescriptorError Descriptor) →
    Except DescriptorError Unit × Registry
  | registry, [] => (.ok (), registry)
  | registry, .ok descriptor :: rest => (registry.add descriptor).addResolved rest
  | registry, .error cause :: _ => (.error cause, registry)

/-- Registers the types of a file. What is registered before a failure stays. -/
def addFile (registry : Registry) (file : FileDeclaration) (requiredPaths : List SourcePath) :
    Except DescriptorError Unit × Registry :=
  registry.addResolved (file.resolve requiredPaths)

/-- Registers the types of files, each with the paths of its required fields. -/
def addFiles : Registry → List (FileDeclaration × List SourcePath) →
    Except DescriptorError Registry
  | registry, [] => .ok registry
  | registry, (file, requiredPaths) :: rest =>
    match registry.addFile file requiredPaths with
    | (.ok (), after) => after.addFiles rest
    | (.error cause, _) => .error cause

end Registry

end ToolContract
