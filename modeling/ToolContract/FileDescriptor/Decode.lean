import ToolContract.FileDescriptor.Grammar
import ToolContract.FileDescriptor.Resolve

/-!
# Decoding descriptor files

The bytes of a descriptor file, or of a set of them, as declarations. The marks of required fields
are an extension and are read by a second pass over the same bytes, which knows only the way to
them; both passes must succeed.
-/

set_option autoImplicit false

namespace ToolContract

def FieldDeclaration.ofRecord (record : WireRecord) : FieldDeclaration where
  name := record.text 1
  number := (record.int? 3).getD 0
  label := record.int? 4
  type := record.int? 5
  typeName := record.text 6
  oneofIndex := record.int? 9
  declaredOptional := record.flag 17

def EnumDeclaration.ofRecord (record : WireRecord) : EnumDeclaration where
  name := record.text 1
  values := (record.records 2).map fun value => (value.text 1, (value.int? 2).getD 0)

def MessageDeclaration.ofRecord (record : WireRecord) : MessageDeclaration :=
  { name := record.text 1
    fields := (record.records 2).map FieldDeclaration.ofRecord
    nested := (record.records 3).attach.map fun nested => ofRecord nested.val
    enumerations := (record.records 4).map EnumDeclaration.ofRecord
    oneofs := (record.records 8).map fun oneof => oneof.text 1
    isMapEntry := (record.merged 7).flag 7 }
termination_by sizeOf record
decreasing_by exact WireRecord.sizeOf_lt_of_mem_records nested.property

def ServiceDeclaration.ofRecord (record : WireRecord) : ServiceDeclaration where
  name := record.text 1
  methods := (record.records 2).map fun method => {
    name := method.text 1
    input := method.text 2
    output := method.text 3
    clientStreaming := method.flag 5
    serverStreaming := method.flag 6 }

def FileDeclaration.ofRecord (record : WireRecord) : FileDeclaration where
  package := record.text 2
  messages := (record.records 4).map MessageDeclaration.ofRecord
  enumerations := (record.records 5).map EnumDeclaration.ofRecord
  services := (record.records 6).map ServiceDeclaration.ofRecord
  locations := ((record.merged 9).records 1).map fun location => {
    path := location.ints 1
    leading := location.text? 3
    trailing := location.text? 4 }

/-! ## Marks of required fields -/

def requiredMark : Int := 2

/-- The paths of the marked fields of a message and of the messages inside it. -/
def requiredPathsOf (path : SourcePath) (message : WireRecord) : List SourcePath :=
  ((message.records 2).zipIdx.filterMap fun (field, index) =>
      if ((field.merged 8).ints fieldBehaviorNumber).contains requiredMark
      then some (path.child 2 index) else none)
    ++ (message.records 3).attach.zipIdx.flatMap fun (nested, index) =>
      requiredPathsOf (path.child 3 index) nested.val
termination_by sizeOf message
decreasing_by exact WireRecord.sizeOf_lt_of_mem_records nested.property

def requiredPathsOfFile (file : WireRecord) : List SourcePath :=
  (file.records 4).zipIdx.flatMap fun (message, index) =>
    requiredPathsOf (SourcePath.child [] 4 index) message

/-! ## Files and sets of files -/

def FileDeclaration.decode (bytes : List UInt8) : Except DescriptorError FileDeclaration :=
  match DescriptorElement.grammar.decode .file bytes with
  | .ok record => .ok (FileDeclaration.ofRecord record)
  | .error cause => .error (.malformed cause)

def FileDeclaration.decodeSet (bytes : List UInt8) :
    Except DescriptorError (List FileDeclaration) :=
  match DescriptorElement.grammar.decode .fileSet bytes with
  | .ok record => .ok ((record.records 1).map FileDeclaration.ofRecord)
  | .error cause => .error (.malformed cause)

/-- The paths of the marked fields of each file in the bytes of a set of files. -/
def decodeRequiredPaths (bytes : List UInt8) : Except DescriptorError (List (List SourcePath)) :=
  match MarkElement.grammar.decode .fileSet bytes with
  | .ok record => .ok ((record.records 1).map requiredPathsOfFile)
  | .error cause => .error (.malformed cause)

/-- Each file with the paths of its marked fields; files beyond the last paths have none. -/
def withRequiredPaths : List FileDeclaration → List (List SourcePath) →
    List (FileDeclaration × List SourcePath)
  | [], _ => []
  | file :: files, [] => (file, []) :: withRequiredPaths files []
  | file :: files, paths :: rest => (file, paths) :: withRequiredPaths files rest

namespace Registry

/-- The types of the files in the bytes of a set, without marks of required fields. -/
def ofUnmarkedBytes (bytes : List UInt8) : Except DescriptorError Registry := do
  let files ← FileDeclaration.decodeSet bytes
  empty.addFiles (withRequiredPaths files [])

/-- The types of the files in the bytes of a set, with the marks of required fields. -/
def ofBytes (bytes : List UInt8) : Except DescriptorError Registry := do
  let files ← FileDeclaration.decodeSet bytes
  let paths ← decodeRequiredPaths bytes
  empty.addFiles (withRequiredPaths files paths)

end Registry

end ToolContract
