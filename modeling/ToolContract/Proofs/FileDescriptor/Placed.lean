import ToolContract.Proofs.FileDescriptor.Annotations

/-!
# Where messages are declared

The messages of a file that are registered, in the order of their registration, each with its full
name and its source path. A message is resolved from its own declaration
(`FileDeclaration.messageResults_resolve`), and once a file is registered, each name of a message
stands for the last one declared with it (`Registry.exists_registered`).
-/

set_option autoImplicit false

namespace ToolContract

/-- A message as it is declared: its name inside the scopes around it, the way to it, and its
declaration. -/
structure PlacedMessage where
  fullName : String
  path : SourcePath
  declaration : MessageDeclaration

def PlacedMessage.resolve (notes : SourceNotes) (placed : PlacedMessage) :
    Except DescriptorError Message :=
  (FieldDeclaration.resolveAll notes placed.path placed.declaration.oneofs
    (placed.declaration.maps placed.fullName) 0 placed.declaration.fields).map fun fields =>
      ⟨placed.fullName, fields, notes.comment? placed.path⟩

namespace MessageDeclaration

mutual

/-- The messages inside a message that are no entries of maps, and the message itself. -/
def placed (scope : String) (path : SourcePath) : MessageDeclaration → List PlacedMessage
  | ⟨name, fields, nested, enumerations, oneofs, isMapEntry⟩ =>
    placedNested (QualifiedName.join scope name) path 0 nested
      ++ [⟨QualifiedName.join scope name, path,
        ⟨name, fields, nested, enumerations, oneofs, isMapEntry⟩⟩]

/-- The messages of nested messages, of which the first has the given index. -/
def placedNested (scope : String) (path : SourcePath) :
    Nat → List MessageDeclaration → List PlacedMessage
  | _, [] => []
  | index, message :: rest =>
    (if message.isMapEntry then [] else placed scope (SourcePath.child path 3 index) message)
      ++ placedNested scope path (index + 1) rest

end

end MessageDeclaration

namespace FileDeclaration

def placed (file : FileDeclaration) : List PlacedMessage :=
  file.messages.zipIdx.flatMap fun (message, index) =>
    message.placed file.package (SourcePath.child [] 4 index)

/-- The last message that the file declares with the name. -/
def placed? (file : FileDeclaration) (name : String) : Option PlacedMessage :=
  file.placed.reverse.find? fun placed =>
    QualifiedName.strip placed.fullName = QualifiedName.strip name

end FileDeclaration

/-! ## Resolving messages one by one -/

section Resolve

variable {notes : SourceNotes}

mutual

private theorem MessageDeclaration.messageResults_resolve (scope : String) (path : SourcePath) :
    ∀ message : MessageDeclaration,
      messageResults (message.resolve notes scope path) =
        (message.placed scope path).map (PlacedMessage.resolve notes)
  | ⟨name, fields, nested, enumerations, oneofs, isMapEntry⟩ => by
    have inside := MessageDeclaration.messageResults_resolveNested (QualifiedName.join scope name)
      path 0 nested
    rw [resolve_eq, messageResults_append, messageResults_append, messageResults_enumerations,
      List.append_nil, messageResults_singleton, inside, placed, List.map_append]
    rfl

private theorem MessageDeclaration.messageResults_resolveNested (scope : String)
    (path : SourcePath) :
    ∀ (index : Nat) (nested : List MessageDeclaration),
      messageResults (resolveNested notes scope path index nested) =
        (placedNested scope path index nested).map (PlacedMessage.resolve notes)
  | _, [] => rfl
  | index, message :: rest => by
    have here := MessageDeclaration.messageResults_resolve scope (path.child 3 index) message
    have later := MessageDeclaration.messageResults_resolveNested scope path (index + 1) rest
    rw [resolveNested, placedNested, messageResults_append, List.map_append, later]
    by_cases entry : message.isMapEntry
    · rw [if_pos entry, if_pos entry]
      rfl
    · rw [if_neg entry, if_neg entry, here]

end

end Resolve

private theorem FileDeclaration.messageResults_resolve (file : FileDeclaration)
    (paths : List SourcePath) :
    messageResults (file.resolve paths) =
      file.placed.map (PlacedMessage.resolve ⟨file.locations, paths⟩) := by
  rw [FileDeclaration.resolve, messageResults_append, messageResults_append,
    messageResults_enumerations, messageResults_services, List.append_nil, List.append_nil,
    messageResults, List.filterMap_flatMap, placed, List.map_flatMap]
  refine List.flatMap_congr ?_
  rintro ⟨message, index⟩ -
  exact message.messageResults_resolve file.package (SourcePath.child [] 4 index)

/-- Each declaration is resolved by itself. -/
theorem FieldDeclaration.forall₂_of_resolveAll {notes : SourceNotes} {path : SourcePath}
    {oneofs : List String} {maps : Entries MapKinds} {start : Nat}
    {declarations : List FieldDeclaration} {fields : List Field}
    (resolved : resolveAll notes path oneofs maps start declarations = .ok fields) :
    List.Forall₂ (fun declaration field => ∃ comment isMarked,
      declaration.resolve oneofs maps comment isMarked = .ok field) declarations fields := by
  induction declarations generalizing start fields with
  | nil =>
    cases resolved
    exact .nil
  | cons declaration rest ih =>
    rw [resolveAll_cons] at resolved
    obtain ⟨head, tail, first, later, rfl⟩ := bind_cons_eq_ok resolved
    exact .cons ⟨_, _, first⟩ (ih later)

theorem PlacedMessage.resolve_eq_ok {notes : SourceNotes} {placed : PlacedMessage}
    {message : Message} (resolved : placed.resolve notes = .ok message) :
    message.fullName = placed.fullName ∧ message.comment = notes.comment? placed.path ∧
      FieldDeclaration.resolveAll notes placed.path placed.declaration.oneofs
        (placed.declaration.maps placed.fullName) 0 placed.declaration.fields =
          .ok message.fields := by
  unfold resolve at resolved
  cases all : FieldDeclaration.resolveAll notes placed.path placed.declaration.oneofs
      (placed.declaration.maps placed.fullName) 0 placed.declaration.fields with
  | error cause => simp [all, Except.map] at resolved
  | ok fields =>
    simp only [all, Except.map, Except.ok.injEq] at resolved
    subst resolved
    exact ⟨rfl, rfl, rfl⟩

/-- What is registered under a name that a file declares is the last message declared with it. -/
theorem Registry.exists_registered {registry after : Registry} {file : FileDeclaration}
    {paths : List SourcePath} (added : registry.addFile file paths = (.ok (), after))
    {name : String} {placed : PlacedMessage} (last : file.placed? name = some placed) :
    ∃ message, placed.resolve ⟨file.locations, paths⟩ = .ok message ∧
      after.message? name = some { message with fullName := QualifiedName.strip name } := by
  obtain ⟨descriptors, resolved, rfl⟩ := addResolved_eq_ok_iff.mp added
  have results := file.messageResults_resolve paths
  rw [resolved, messageResults_map_ok] at results
  have same : List.Forall₂ Eq (file.placed.map (PlacedMessage.resolve ⟨file.locations, paths⟩))
      ((descriptors.filterMap Descriptor.message?).map .ok) := by
    rw [results]
    exact List.forall₂_same.mpr fun _ _ => rfl
  rw [List.forall₂_map_left_iff, List.forall₂_map_right_iff] at same
  have alike : ∀ placed message,
      PlacedMessage.resolve ⟨file.locations, paths⟩ placed = .ok message →
      decide (QualifiedName.strip placed.fullName = QualifiedName.strip name) =
        decide (QualifiedName.strip message.fullName = QualifiedName.strip name) := by
    intro placed message own
    rw [(PlacedMessage.resolve_eq_ok own).1]
  have found := find?_related (List.rel_reverse same) alike
  rw [message?, messages_foldl_add]
  rw [FileDeclaration.placed?] at last
  rw [last] at found
  generalize (descriptors.filterMap Descriptor.message?).reverse.find? _ = registered at found ⊢
  cases found with
  | some own => exact ⟨_, own, rfl⟩

end ToolContract
