import ToolContract.Proofs.Descriptor.Lookup
import ToolContract.Proofs.FileDescriptor.Placed

/-!
# The types of a file

The types that a file declares, in the order of their registration: inside a message the nested
messages that are no entries of maps, then its enums, then the message itself. They are exactly the
types to which a way leads down from the file (`FileDeclaration.mem_placedTypes_iff`), each resolved
from its own declaration (`FileDeclaration.resolve_eq_map`). No path of theirs begins a later one
(`FileDeclaration.pairwise_placedTypes`): what is inside a message comes before it, and no two types
have one path.
-/

set_option autoImplicit false

namespace ToolContract

inductive TypeDeclaration where
  | message (declaration : MessageDeclaration)
  | enumeration (declaration : EnumDeclaration)
  | service (declaration : ServiceDeclaration)

def TypeDeclaration.name : TypeDeclaration → String
  | .message declaration => declaration.name
  | .enumeration declaration => declaration.name
  | .service declaration => declaration.name

def TypeDeclaration.sort : TypeDeclaration → DescriptorSort
  | .message _ => .message
  | .enumeration _ => .enumeration
  | .service _ => .service

/-- A type as it is declared: the names of the messages around it, the outermost first, the way to
it, and its declaration. -/
structure PlacedType where
  around : List String
  path : SourcePath
  declaration : TypeDeclaration

/-- A way leads down from the file to the type. It enters no nested message that stands for the
entries of a map, though these count. -/
inductive FileDeclaration.Declares (file : FileDeclaration) : PlacedType → Prop where
  | message {index : Nat} {message : MessageDeclaration} :
    file.messages[index]? = some message → Declares file ⟨[], [4, (index : Int)], .message message⟩
  | nested {around : List String} {path : SourcePath} {outer inner : MessageDeclaration}
      {index : Nat} :
    Declares file ⟨around, path, .message outer⟩ → outer.nested[index]? = some inner →
    inner.isMapEntry = false →
    Declares file ⟨around ++ [outer.name], path ++ [3, (index : Int)], .message inner⟩
  | enumeration {index : Nat} {enumeration : EnumDeclaration} :
    file.enumerations[index]? = some enumeration →
    Declares file ⟨[], [5, (index : Int)], .enumeration enumeration⟩
  | nestedEnumeration {around : List String} {path : SourcePath} {outer : MessageDeclaration}
      {index : Nat} {enumeration : EnumDeclaration} :
    Declares file ⟨around, path, .message outer⟩ → outer.enumerations[index]? = some enumeration →
    Declares file
      ⟨around ++ [outer.name], path ++ [4, (index : Int)], .enumeration enumeration⟩
  | service {index : Nat} {service : ServiceDeclaration} :
    file.services[index]? = some service → Declares file ⟨[], [6, (index : Int)], .service service⟩

/-! ## In the order of registration -/

def EnumDeclaration.placedTypes (around : List String) (path : SourcePath) (number : Int)
    (enumerations : List EnumDeclaration) : List PlacedType :=
  enumerations.zipIdx.map fun (enumeration, index) =>
    ⟨around, path.child number index, .enumeration enumeration⟩

namespace MessageDeclaration

mutual

/-- The types of a message: those declared inside it, and the message itself. -/
def placedTypes (around : List String) (path : SourcePath) :
    MessageDeclaration → List PlacedType
  | ⟨name, fields, nested, enumerations, oneofs, isMapEntry⟩ =>
    placedTypesNested (around ++ [name]) path 0 nested
      ++ EnumDeclaration.placedTypes (around ++ [name]) path 4 enumerations
      ++ [⟨around, path, .message ⟨name, fields, nested, enumerations, oneofs, isMapEntry⟩⟩]

/-- The types of nested messages, of which the first has the given index. -/
def placedTypesNested (around : List String) (path : SourcePath) :
    Nat → List MessageDeclaration → List PlacedType
  | _, [] => []
  | index, message :: rest =>
    (if message.isMapEntry then [] else placedTypes around (SourcePath.child path 3 index) message)
      ++ placedTypesNested around path (index + 1) rest

end

private theorem sizeOf_lt_of_mem_nested {message inner : MessageDeclaration}
    (listed : inner ∈ message.nested) : sizeOf inner < sizeOf message := by
  obtain ⟨name, fields, nested, enumerations, oneofs, isMapEntry⟩ := message
  have smaller : sizeOf inner < sizeOf nested := List.sizeOf_lt_of_mem listed
  simp only [mk.sizeOf_spec]
  omega

/-- What holds of a message if it holds of those nested in it holds of all messages. -/
theorem nestedInduction {motive : MessageDeclaration → Prop}
    (step : ∀ message, (∀ inner ∈ message.nested, motive inner) → motive message)
    (message : MessageDeclaration) : motive message :=
  step message fun inner _ => nestedInduction step inner
termination_by sizeOf message
decreasing_by exact sizeOf_lt_of_mem_nested (by assumption)

private theorem placedTypesNested_eq (around : List String) (path : SourcePath) (start : Nat)
    (nested : List MessageDeclaration) :
    placedTypesNested around path start nested =
      (nested.zipIdx start).flatMap fun (inner, index) =>
        if inner.isMapEntry then [] else inner.placedTypes around (path.child 3 index) := by
  induction nested generalizing start with
  | nil => rfl
  | cons message rest ih => rw [placedTypesNested, ih, List.zipIdx_cons, List.flatMap_cons]

theorem placedTypes_eq (around : List String) (path : SourcePath) (message : MessageDeclaration) :
    message.placedTypes around path =
      (message.nested.zipIdx.flatMap fun (inner, index) =>
        if inner.isMapEntry then []
        else inner.placedTypes (around ++ [message.name]) (path.child 3 index))
      ++ EnumDeclaration.placedTypes (around ++ [message.name]) path 4 message.enumerations
      ++ [⟨around, path, .message message⟩] := by
  cases message
  rw [placedTypes, placedTypesNested_eq]

end MessageDeclaration

def FileDeclaration.placedTypes (file : FileDeclaration) : List PlacedType :=
  (file.messages.zipIdx.flatMap fun (message, index) =>
      message.placedTypes [] (SourcePath.child [] 4 index))
    ++ EnumDeclaration.placedTypes [] [] 5 file.enumerations
    ++ file.services.zipIdx.map fun (service, index) =>
      ⟨[], SourcePath.child [] 6 index, .service service⟩

/-! ## Ways down and the order of registration -/

private theorem EnumDeclaration.mem_placedTypes_iff {around : List String} {path : SourcePath}
    {number : Int} {enumerations : List EnumDeclaration} {placed : PlacedType} :
    placed ∈ placedTypes around path number enumerations ↔
      ∃ (index : Nat) (enumeration : EnumDeclaration), enumerations[index]? = some enumeration ∧
        placed = ⟨around, path ++ [number, (index : Int)], .enumeration enumeration⟩ := by
  rw [placedTypes, List.mem_map]
  constructor
  · intro ⟨(enumeration, index), listed, same⟩
    exact ⟨index, enumeration, List.mem_zipIdx_iff_getElem?.mp listed, same.symm⟩
  · intro ⟨index, enumeration, listed, same⟩
    exact ⟨(enumeration, index), List.mem_zipIdx_iff_getElem?.mpr listed, same.symm⟩

theorem MessageDeclaration.mem_placedTypes_iff {around : List String} {path : SourcePath}
    {message : MessageDeclaration} {placed : PlacedType} :
    placed ∈ message.placedTypes around path ↔
      (∃ (index : Nat) (inner : MessageDeclaration), message.nested[index]? = some inner ∧
        inner.isMapEntry = false ∧
          placed ∈ inner.placedTypes (around ++ [message.name]) (path ++ [3, (index : Int)])) ∨
      (∃ (index : Nat) (enumeration : EnumDeclaration),
        message.enumerations[index]? = some enumeration ∧ placed =
          ⟨around ++ [message.name], path ++ [4, (index : Int)], .enumeration enumeration⟩) ∨
      placed = ⟨around, path, .message message⟩ := by
  rw [placedTypes_eq, List.mem_append, List.mem_append, List.mem_singleton,
    EnumDeclaration.mem_placedTypes_iff, or_assoc, List.mem_flatMap]
  refine or_congr_left ⟨?_, ?_⟩
  · intro ⟨(inner, index), listed, member⟩
    dsimp only at member
    split at member
    · cases member
    · rename_i plain
      exact ⟨index, inner, List.mem_zipIdx_iff_getElem?.mp listed, by simpa using plain, member⟩
  · intro ⟨index, inner, listed, plain, member⟩
    refine ⟨(inner, index), List.mem_zipIdx_iff_getElem?.mpr listed, ?_⟩
    dsimp only
    rw [if_neg (by simp [plain])]
    exact member

private theorem MessageDeclaration.mem_placedTypes_self (around : List String) (path : SourcePath)
    (message : MessageDeclaration) :
    ⟨around, path, .message message⟩ ∈ message.placedTypes around path :=
  mem_placedTypes_iff.mpr (.inr (.inr rfl))

/-- The types of a message that is inside another one are among those of the other. -/
theorem MessageDeclaration.placedTypes_subset (message : MessageDeclaration)
    {around inside : List String} {path place : SourcePath} {inner : MessageDeclaration}
    (listed : ⟨inside, place, .message inner⟩ ∈ message.placedTypes around path) :
    inner.placedTypes inside place ⊆ message.placedTypes around path := by
  induction message using nestedInduction generalizing around path with
  | step message ih =>
    rcases mem_placedTypes_iff.mp listed with
      ⟨index, nested, found, plain, below⟩ | ⟨index, enumeration, found, same⟩ | same
    · intro placed member
      have later := ih nested (List.mem_of_getElem? found) below member
      exact mem_placedTypes_iff.mpr (.inl ⟨index, nested, found, plain, later⟩)
    · cases same
    · cases same
      exact fun _ member => member

namespace FileDeclaration

variable {file : FileDeclaration} {placed : PlacedType}

theorem mem_placedTypes_iff_exists :
    placed ∈ file.placedTypes ↔
      (∃ (index : Nat) (message : MessageDeclaration), file.messages[index]? = some message ∧
        placed ∈ message.placedTypes [] [4, (index : Int)]) ∨
      (∃ (index : Nat) (enumeration : EnumDeclaration),
        file.enumerations[index]? = some enumeration ∧
          placed = ⟨[], [5, (index : Int)], .enumeration enumeration⟩) ∨
      ∃ (index : Nat) (service : ServiceDeclaration), file.services[index]? = some service ∧
        placed = ⟨[], [6, (index : Int)], .service service⟩ := by
  rw [placedTypes, List.mem_append, List.mem_append, EnumDeclaration.mem_placedTypes_iff, or_assoc,
    List.mem_flatMap, List.mem_map]
  refine or_congr ⟨?_, ?_⟩ (or_congr_right ⟨?_, ?_⟩)
  · intro ⟨(message, index), listed, member⟩
    exact ⟨index, message, List.mem_zipIdx_iff_getElem?.mp listed, member⟩
  · intro ⟨index, message, listed, member⟩
    exact ⟨(message, index), List.mem_zipIdx_iff_getElem?.mpr listed, member⟩
  · intro ⟨(service, index), listed, same⟩
    exact ⟨index, service, List.mem_zipIdx_iff_getElem?.mp listed, same.symm⟩
  · intro ⟨index, service, listed, same⟩
    exact ⟨(service, index), List.mem_zipIdx_iff_getElem?.mpr listed, same.symm⟩

/-- What is declared inside a declared message is declared. -/
theorem Declares.of_mem (message : MessageDeclaration) {around : List String} {path : SourcePath}
    (declares : file.Declares ⟨around, path, .message message⟩) :
    ∀ placed ∈ message.placedTypes around path, file.Declares placed := by
  induction message using MessageDeclaration.nestedInduction generalizing around path with
  | step message ih =>
    intro placed member
    rcases MessageDeclaration.mem_placedTypes_iff.mp member with
      ⟨index, inner, listed, plain, below⟩ | ⟨index, enumeration, listed, rfl⟩ | rfl
    · exact ih inner (List.mem_of_getElem? listed) (declares.nested listed plain) placed below
    · exact declares.nestedEnumeration listed
    · exact declares

private theorem placedTypes_subset_of_mem {around : List String} {path : SourcePath}
    {message : MessageDeclaration} (listed : ⟨around, path, .message message⟩ ∈ file.placedTypes) :
    message.placedTypes around path ⊆ file.placedTypes := by
  rcases mem_placedTypes_iff_exists.mp listed with
    ⟨index, outer, found, below⟩ | ⟨index, enumeration, found, same⟩ | ⟨index, service, found, same⟩
  · intro placed member
    have inside := outer.placedTypes_subset below member
    exact mem_placedTypes_iff_exists.mpr (.inl ⟨index, outer, found, inside⟩)
  · cases same
  · cases same

/-- The types in the order of registration are those to which a way leads down from the file. -/
theorem mem_placedTypes_iff : placed ∈ file.placedTypes ↔ file.Declares placed := by
  constructor
  · intro listed
    rcases mem_placedTypes_iff_exists.mp listed with
      ⟨index, message, found, below⟩ | ⟨index, enumeration, found, rfl⟩ |
        ⟨index, service, found, rfl⟩
    · exact (Declares.message found).of_mem message placed below
    · exact .enumeration found
    · exact .service found
  · intro declares
    induction declares with
    | @message index message found =>
      have own := message.mem_placedTypes_self [] [4, (index : Int)]
      exact mem_placedTypes_iff_exists.mpr (.inl ⟨index, message, found, own⟩)
    | @nested around path outer inner index _ found plain ih =>
      have own := inner.mem_placedTypes_self (around ++ [outer.name]) (path ++ [3, (index : Int)])
      exact placedTypes_subset_of_mem ih
        (MessageDeclaration.mem_placedTypes_iff.mpr (.inl ⟨index, inner, found, plain, own⟩))
    | @enumeration index enumeration found =>
      exact mem_placedTypes_iff_exists.mpr (.inr (.inl ⟨index, enumeration, found, rfl⟩))
    | @nestedEnumeration around path outer index enumeration _ found ih =>
      exact placedTypes_subset_of_mem ih
        (MessageDeclaration.mem_placedTypes_iff.mpr (.inr (.inl ⟨index, enumeration, found, rfl⟩)))
    | @service index service found =>
      exact mem_placedTypes_iff_exists.mpr (.inr (.inr ⟨index, service, found, rfl⟩))

end FileDeclaration

/-! ## Resolving types one by one -/

/-- The name inside the scopes, one in the other. -/
def QualifiedName.joinAll (scope : String) (names : List String) : String :=
  names.foldl QualifiedName.join scope

theorem QualifiedName.joinAll_concat (scope : String) (names : List String) (name : String) :
    joinAll scope (names ++ [name]) = join (joinAll scope names) name := by
  rw [joinAll, List.foldl_append]
  rfl

namespace PlacedType

/-- The qualified name of the type in a file of the package. -/
def fullName (package : String) (placed : PlacedType) : String :=
  QualifiedName.join (QualifiedName.joinAll package placed.around) placed.declaration.name

/-- What the type is registered under. -/
def key (package : String) (placed : PlacedType) : DescriptorKey :=
  (placed.declaration.sort, QualifiedName.strip (placed.fullName package))

def resolve (package : String) (notes : SourceNotes) (placed : PlacedType) :
    Except DescriptorError Descriptor :=
  let scope := QualifiedName.joinAll package placed.around
  match placed.declaration with
  | .message declaration =>
    (PlacedMessage.resolve notes
      ⟨QualifiedName.join scope declaration.name, placed.path, declaration⟩).map .message
  | .enumeration declaration => .ok (declaration.resolve notes scope placed.path)
  | .service declaration => .ok (declaration.resolve notes scope placed.path)

variable {package : String} {notes : SourceNotes} {placed : PlacedType} {descriptor : Descriptor}

theorem exists_message_of_resolve {around : List String} {path : SourcePath}
    {declaration : MessageDeclaration}
    (resolved : resolve package notes ⟨around, path, .message declaration⟩ = .ok descriptor) :
    ∃ message, PlacedMessage.resolve notes
        ⟨fullName package ⟨around, path, .message declaration⟩, path, declaration⟩ = .ok message ∧
      descriptor = .message message := by
  unfold resolve at resolved
  dsimp only at resolved
  cases own : PlacedMessage.resolve notes
      ⟨QualifiedName.join (QualifiedName.joinAll package around) declaration.name, path,
        declaration⟩ with
  | error cause =>
    rw [own] at resolved
    cases resolved
  | ok message =>
    rw [own] at resolved
    exact ⟨message, own, (Except.ok.inj resolved).symm⟩

theorem key_of_resolve (resolved : placed.resolve package notes = .ok descriptor) :
    descriptor.key = placed.key package := by
  obtain ⟨around, path, declaration⟩ := placed
  cases declaration with
  | message declaration =>
    obtain ⟨message, own, rfl⟩ := exists_message_of_resolve resolved
    rw [Descriptor.key, Descriptor.fullName, (PlacedMessage.resolve_eq_ok own).1]
    rfl
  | enumeration declaration =>
    cases resolved
    rfl
  | service declaration =>
    cases resolved
    rfl

end PlacedType

private theorem EnumDeclaration.resolveAll_eq_map (package : String) (notes : SourceNotes)
    (around : List String) (path : SourcePath) (number : Int)
    (enumerations : List EnumDeclaration) :
    resolveAll notes (QualifiedName.joinAll package around) path number enumerations =
      (placedTypes around path number enumerations).map (PlacedType.resolve package notes) := by
  rw [resolveAll, placedTypes, List.map_map]
  rfl

private theorem MessageDeclaration.resolveNested_eq (notes : SourceNotes) (scope : String)
    (path : SourcePath) (start : Nat) (nested : List MessageDeclaration) :
    resolveNested notes scope path start nested =
      (nested.zipIdx start).flatMap fun (inner, index) =>
        if inner.isMapEntry then [] else inner.resolve notes scope (path.child 3 index) := by
  induction nested generalizing start with
  | nil => rfl
  | cons message rest ih => rw [resolveNested, ih, List.zipIdx_cons, List.flatMap_cons]

private theorem MessageDeclaration.resolve_eq_map (package : String) (notes : SourceNotes)
    (message : MessageDeclaration) (around : List String) (path : SourcePath) :
    message.resolve notes (QualifiedName.joinAll package around) path =
      (message.placedTypes around path).map (PlacedType.resolve package notes) := by
  induction message using nestedInduction generalizing around path with
  | step message ih =>
    rw [resolve_eq, placedTypes_eq, ← QualifiedName.joinAll_concat, resolveNested_eq,
      EnumDeclaration.resolveAll_eq_map, List.map_append, List.map_append, List.map_flatMap]
    congr 1
    · congr 1
      apply List.flatMap_congr
      intro entry listed
      obtain ⟨inner, index⟩ := entry
      have nested := ih inner (List.fst_mem_of_mem_zipIdx listed)
      dsimp only
      by_cases entry : inner.isMapEntry
      · rw [if_pos entry, if_pos entry]
        rfl
      · rw [if_neg entry, if_neg entry, nested]
    · rw [QualifiedName.joinAll_concat, List.map_singleton]
      dsimp only [PlacedType.resolve, PlacedMessage.resolve]
      cases FieldDeclaration.resolveAll notes path message.oneofs _ 0 message.fields <;> rfl

/-- The types of a file are resolved one by one, each from its own declaration. -/
theorem FileDeclaration.resolve_eq_map (file : FileDeclaration) (paths : List SourcePath) :
    file.resolve paths =
      file.placedTypes.map (PlacedType.resolve file.package ⟨file.locations, paths⟩) := by
  rw [resolve, placedTypes, List.map_append, List.map_append, List.map_flatMap, List.map_map]
  congr 2
  · apply List.flatMap_congr
    intro entry _
    exact entry.1.resolve_eq_map file.package _ [] (SourcePath.child [] 4 entry.2)
  · exact EnumDeclaration.resolveAll_eq_map file.package _ [] [] 5 file.enumerations

/-! ## Paths -/

namespace SourcePath

theorem length_child (path : SourcePath) (number : Int) (index : Nat) :
    (path.child number index).length = path.length + 2 := by
  simp [child]

/-- Below a path two parts have nothing in common. -/
theorem eq_of_child_prefix {path below : SourcePath} {number other : Int} {index position : Nat}
    (first : path.child number index <+: below) (second : path.child other position <+: below) :
    number = other ∧ index = position := by
  have same := (List.prefix_of_prefix_length_le first second (by simp [length_child])).eq_of_length
    (by simp [length_child])
  simpa [child, Int.natCast_inj] using same

end SourcePath

/-- The type does not begin the way to the other. -/
def PlacedType.Leaves (earlier later : PlacedType) : Prop :=
  ¬ earlier.path <+: later.path

section Leaves

variable {path : SourcePath}

private theorem leaves_of_child {number other : Int} {index position : Nat}
    {earlier later : PlacedType}
    (different : (number, index) ≠ (other, position))
    (first : path.child number index <+: earlier.path)
    (second : path.child other position <+: later.path) : earlier.Leaves later := by
  intro begins
  obtain ⟨rfl, rfl⟩ := SourcePath.eq_of_child_prefix (first.trans begins) second
  exact different rfl

private theorem leaves_of_path {number : Int} {index : Nat} {earlier later : PlacedType}
    (first : path.child number index <+: earlier.path) (own : later.path = path) :
    earlier.Leaves later := by
  intro begins
  have long := (first.trans begins).length_le
  rw [own, SourcePath.length_child] at long
  omega

/-- The parts of items at different indices leave each other. -/
theorem pairwise_leaves_flatMap {α : Type} {number : Int} {items : List α}
    {types : α × Nat → List PlacedType}
    (each : ∀ item ∈ items, ∀ index, (types (item, index)).Pairwise PlacedType.Leaves)
    (below : ∀ item ∈ items, ∀ index, ∀ placed ∈ types (item, index),
      path.child number index <+: placed.path) :
    (items.zipIdx.flatMap types).Pairwise PlacedType.Leaves := by
  have indices : items.zipIdx.Pairwise fun left right => left.2 ≠ right.2 := by
    have distinct : (items.zipIdx.map Prod.snd).Nodup := by
      rw [List.zipIdx_map_snd]
      exact List.nodup_range'
    exact List.pairwise_map.mp distinct
  rw [List.pairwise_flatMap]
  constructor
  · intro entry listed
    exact each entry.1 (List.fst_mem_of_mem_zipIdx listed) entry.2
  · apply indices.imp_of_mem
    intro left right leftListed rightListed different earlier earlierListed later laterListed
    have first := below left.1 (List.fst_mem_of_mem_zipIdx leftListed) left.2 earlier earlierListed
    have second := below right.1 (List.fst_mem_of_mem_zipIdx rightListed) right.2 later laterListed
    exact leaves_of_child (fun same => different (Prod.mk.inj same).2) first second

private theorem pairwise_leaves_map {α : Type} {number : Int} {items : List α}
    {place : α × Nat → PlacedType}
    (below : ∀ item ∈ items, ∀ index, path.child number index <+: (place (item, index)).path) :
    (items.zipIdx.map place).Pairwise PlacedType.Leaves := by
  have inside : ∀ item ∈ items, ∀ index, ∀ placed ∈ [place (item, index)],
      path.child number index <+: placed.path := by
    intro item listed index placed member
    rw [List.mem_singleton.mp member]
    exact below item listed index
  rw [List.map_eq_flatMap]
  exact pairwise_leaves_flatMap (fun _ _ _ => List.pairwise_singleton _ _) inside

end Leaves

private theorem EnumDeclaration.pairwise_placedTypes (around : List String) (path : SourcePath)
    (number : Int) (enumerations : List EnumDeclaration) :
    (placedTypes around path number enumerations).Pairwise PlacedType.Leaves :=
  pairwise_leaves_map fun _ _ _ => List.prefix_rfl

private theorem EnumDeclaration.exists_prefix_of_mem {around : List String} {path : SourcePath}
    {number : Int} {enumerations : List EnumDeclaration} {placed : PlacedType}
    (listed : placed ∈ placedTypes around path number enumerations) :
    ∃ index, path.child number index <+: placed.path := by
  obtain ⟨index, enumeration, -, rfl⟩ := mem_placedTypes_iff.mp listed
  exact ⟨index, List.prefix_rfl⟩

/-- The ways to the types of a message begin with the way to it. -/
theorem MessageDeclaration.prefix_of_mem_placedTypes (message : MessageDeclaration)
    {around : List String} {path : SourcePath} {placed : PlacedType}
    (listed : placed ∈ message.placedTypes around path) : path <+: placed.path := by
  induction message using nestedInduction generalizing around path with
  | step message ih =>
    rcases mem_placedTypes_iff.mp listed with
      ⟨index, inner, found, plain, below⟩ | ⟨index, enumeration, found, rfl⟩ | rfl
    · exact (List.prefix_append _ _).trans (ih inner (List.mem_of_getElem? found) below)
    · exact List.prefix_append _ _
    · exact List.prefix_rfl

private theorem MessageDeclaration.pairwise_placedTypes (message : MessageDeclaration)
    (around : List String) (path : SourcePath) :
    (message.placedTypes around path).Pairwise PlacedType.Leaves := by
  induction message using nestedInduction generalizing around path with
  | step message ih =>
    have below (inner : MessageDeclaration) (index : Nat) (placed : PlacedType)
        (member : placed ∈ if inner.isMapEntry then []
          else inner.placedTypes (around ++ [message.name]) (path.child 3 index)) :
        path.child 3 index <+: placed.path := by
      split at member
      · cases member
      · exact inner.prefix_of_mem_placedTypes member
    rw [placedTypes_eq, List.pairwise_append, List.pairwise_append]
    refine ⟨⟨?_, EnumDeclaration.pairwise_placedTypes .., ?_⟩, List.pairwise_singleton _ _, ?_⟩
    · refine pairwise_leaves_flatMap ?_ fun inner _ index placed => below inner index placed
      intro inner listed index
      dsimp only
      split
      · exact .nil
      · exact ih inner listed _ _
    · -- nested messages and enums are parts of different numbers
      intro earlier nested later enumeration
      obtain ⟨⟨inner, index⟩, -, member⟩ := List.mem_flatMap.mp nested
      obtain ⟨position, second⟩ := EnumDeclaration.exists_prefix_of_mem enumeration
      exact leaves_of_child (by simp) (below inner index earlier member) second
    · intro earlier listed later own
      rw [List.mem_singleton] at own
      rcases List.mem_append.mp listed with nested | enumeration
      · obtain ⟨⟨inner, index⟩, -, member⟩ := List.mem_flatMap.mp nested
        exact leaves_of_path (below inner index earlier member) (by rw [own])
      · obtain ⟨index, first⟩ := EnumDeclaration.exists_prefix_of_mem enumeration
        exact leaves_of_path first (by rw [own])

/-- No type begins the way to a later one. -/
theorem FileDeclaration.pairwise_placedTypes (file : FileDeclaration) :
    file.placedTypes.Pairwise PlacedType.Leaves := by
  rw [placedTypes, List.pairwise_append, List.pairwise_append]
  refine ⟨⟨?_, EnumDeclaration.pairwise_placedTypes .., ?_⟩, ?_, ?_⟩
  · have inside : ∀ message ∈ file.messages, ∀ index,
        ∀ placed ∈ message.placedTypes [] (SourcePath.child [] 4 index),
          SourcePath.child [] 4 index <+: placed.path :=
      fun message _ _ _ listed => message.prefix_of_mem_placedTypes listed
    exact pairwise_leaves_flatMap (fun message _ _ => message.pairwise_placedTypes _ _) inside
  · intro earlier inside later enumeration
    obtain ⟨⟨message, index⟩, -, member⟩ := List.mem_flatMap.mp inside
    obtain ⟨position, second⟩ := EnumDeclaration.exists_prefix_of_mem enumeration
    exact leaves_of_child (by simp) (message.prefix_of_mem_placedTypes member) second
  · exact pairwise_leaves_map fun _ _ _ => List.prefix_rfl
  · intro earlier listed later service
    obtain ⟨⟨service, position⟩, -, rfl⟩ := List.mem_map.mp service
    rcases List.mem_append.mp listed with inside | enumeration
    · obtain ⟨⟨message, index⟩, -, member⟩ := List.mem_flatMap.mp inside
      exact leaves_of_child (by simp) (message.prefix_of_mem_placedTypes member) List.prefix_rfl
    · obtain ⟨index, first⟩ := EnumDeclaration.exists_prefix_of_mem enumeration
      exact leaves_of_child (by simp) first List.prefix_rfl

end ToolContract
