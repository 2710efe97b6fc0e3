import Mathlib.Data.List.Flatten
import Mathlib.Data.List.Nodup
import ToolContract.Proofs.FileDescriptor.Types

/-!
# Declared names

The names of the types of a file are among all that it declares, which has the entries of maps and
what is inside them too (`FileDeclaration.typeNames_sublist`). If those of the types are pairwise
different, each type is registered under a key of its own (`FileDeclaration.nodup_keys`), where it
stays (`Registry.exists_held`).
-/

set_option autoImplicit false

namespace ToolContract

namespace MessageDeclaration

mutual

/-- The qualified names that a message in the scope declares: those inside it, and its own. -/
def declaredNames (scope : String) : MessageDeclaration → List String
  | ⟨name, _, nested, enumerations, _, _⟩ =>
    declaredNamesOfAll (QualifiedName.join scope name) nested
      ++ enumerations.map (fun enumeration =>
        QualifiedName.join (QualifiedName.join scope name) enumeration.name)
      ++ [QualifiedName.join scope name]

def declaredNamesOfAll (scope : String) : List MessageDeclaration → List String
  | [] => []
  | message :: rest => declaredNames scope message ++ declaredNamesOfAll scope rest

end

private theorem declaredNamesOfAll_eq (scope : String) (messages : List MessageDeclaration) :
    declaredNamesOfAll scope messages = messages.flatMap (declaredNames scope) := by
  induction messages with
  | nil => rfl
  | cons message rest ih => rw [declaredNamesOfAll, ih, List.flatMap_cons]

private theorem declaredNames_eq (scope : String) (message : MessageDeclaration) :
    message.declaredNames scope =
      message.nested.flatMap (declaredNames (QualifiedName.join scope message.name))
        ++ message.enumerations.map (fun enumeration =>
          QualifiedName.join (QualifiedName.join scope message.name) enumeration.name)
        ++ [QualifiedName.join scope message.name] := by
  cases message
  rw [declaredNames, declaredNamesOfAll_eq]

private theorem singleton_sublist_declaredNames (scope : String) (message : MessageDeclaration) :
    [QualifiedName.join scope message.name].Sublist (message.declaredNames scope) := by
  rw [declaredNames_eq]
  exact List.sublist_append_right _ _

end MessageDeclaration

def FileDeclaration.declaredNames (file : FileDeclaration) : List String :=
  MessageDeclaration.declaredNamesOfAll file.package file.messages
    ++ file.enumerations.map (fun enumeration => QualifiedName.join file.package enumeration.name)
    ++ file.services.map fun service => QualifiedName.join file.package service.name

/-- The qualified names of the types, in the order of registration. -/
def FileDeclaration.typeNames (file : FileDeclaration) : List String :=
  file.placedTypes.map (PlacedType.fullName file.package)

/-! ## Names of types -/

private theorem EnumDeclaration.map_fullName_placedTypes (package : String) (around : List String)
    (path : SourcePath) (number : Int) (enumerations : List EnumDeclaration) :
    (placedTypes around path number enumerations).map (PlacedType.fullName package) =
      enumerations.map fun enumeration =>
        QualifiedName.join (QualifiedName.joinAll package around) enumeration.name := by
  rw [placedTypes, List.map_map]
  conv_rhs => rw [← List.zipIdx_map_fst 0 enumerations, List.map_map]
  rfl

private theorem sublist_flatMap_zipIdx {α β : Type} {items : List α} {first : α × Nat → List β}
    {second : α → List β}
    (each : ∀ item ∈ items, ∀ index, (first (item, index)).Sublist (second item)) :
    (items.zipIdx.flatMap first).Sublist (items.flatMap second) := by
  conv_rhs => rw [← List.zipIdx_map_fst 0 items, List.flatMap_map]
  apply List.Sublist.flatMap_right _
  intro entry listed
  exact each entry.1 (List.fst_mem_of_mem_zipIdx listed) entry.2

private theorem sublist_flatMap_of_mem {α β : Type} {items : List α} {item : α}
    (function : α → List β)
    (listed : item ∈ items) : (function item).Sublist (items.flatMap function) :=
  List.sublist_flatten_of_mem (List.mem_map_of_mem listed)

namespace MessageDeclaration

/-- The types of a message are among what it declares. -/
theorem fullNames_sublist (package : String) (message : MessageDeclaration) (around : List String)
    (path : SourcePath) :
    ((message.placedTypes around path).map (PlacedType.fullName package)).Sublist
      (message.declaredNames (QualifiedName.joinAll package around)) := by
  induction message using nestedInduction generalizing around path with
  | step message ih =>
    rw [placedTypes_eq, declaredNames_eq, List.map_append, List.map_append, List.map_flatMap,
      EnumDeclaration.map_fullName_placedTypes, ← QualifiedName.joinAll_concat]
    refine ((sublist_flatMap_zipIdx ?_).append_right _).append ?_
    · intro inner listed index
      dsimp only
      split
      · exact List.nil_sublist _
      · exact ih inner listed _ _
    · rw [QualifiedName.joinAll_concat]
      exact List.Sublist.refl _

/-- The names of the messages nested in a message, entries of maps included, are among what a
message around it declares. -/
theorem nestedNames_sublist (package : String) (message : MessageDeclaration)
    {around inside : List String} {path place : SourcePath} {inner : MessageDeclaration}
    (listed : ⟨inside, place, .message inner⟩ ∈ message.placedTypes around path) :
    (inner.nested.map fun nested => QualifiedName.join
      (QualifiedName.joinAll package (inside ++ [inner.name])) nested.name).Sublist
        (message.declaredNames (QualifiedName.joinAll package around)) := by
  induction message using nestedInduction generalizing around path with
  | step message ih =>
    rw [declaredNames_eq, ← QualifiedName.joinAll_concat, List.append_assoc]
    refine List.Sublist.trans ?_ (List.sublist_append_left _ _)
    rcases mem_placedTypes_iff.mp listed with
      ⟨index, nested, found, plain, below⟩ | ⟨index, enumeration, found, same⟩ | same
    · have member := List.mem_of_getElem? found
      exact (ih nested member below).trans (sublist_flatMap_of_mem _ member)
    · cases same
    · cases same
      rw [List.map_eq_flatMap]
      exact List.Sublist.flatMap_right _ fun nested _ => nested.singleton_sublist_declaredNames _

end MessageDeclaration

namespace FileDeclaration

variable {file : FileDeclaration}

theorem typeNames_sublist (file : FileDeclaration) :
    file.typeNames.Sublist file.declaredNames := by
  rw [typeNames, placedTypes, declaredNames, List.map_append, List.map_append, List.map_flatMap,
    EnumDeclaration.map_fullName_placedTypes, MessageDeclaration.declaredNamesOfAll_eq,
    List.map_map]
  refine ((sublist_flatMap_zipIdx ?_).append_right _).append ?_
  · intro message _ index
    exact message.fullNames_sublist file.package [] _
  · conv_rhs => rw [← List.zipIdx_map_fst 0 file.services, List.map_map]
    exact List.Sublist.refl _

/-- Types of different names have keys of their own. -/
theorem nodup_keys (distinct : (file.typeNames.map QualifiedName.strip).Nodup) :
    (file.placedTypes.map (PlacedType.key file.package)).Nodup := by
  apply List.Nodup.of_map Prod.snd
  rw [typeNames, List.map_map] at distinct
  rw [List.map_map]
  exact distinct

theorem nodup_nestedNames (distinct : file.declaredNames.Nodup) {around : List String}
    {path : SourcePath} {message : MessageDeclaration}
    (declares : file.Declares ⟨around, path, .message message⟩) :
    (message.nested.map fun nested => QualifiedName.join
      (QualifiedName.joinAll file.package (around ++ [message.name])) nested.name).Nodup := by
  refine distinct.sublist ?_
  rw [declaredNames, MessageDeclaration.declaredNamesOfAll_eq, List.append_assoc]
  refine List.Sublist.trans ?_ (List.sublist_append_left _ _)
  rcases mem_placedTypes_iff_exists.mp (mem_placedTypes_iff.mpr declares) with
    ⟨index, outer, found, below⟩ | ⟨index, enumeration, found, same⟩ | ⟨index, service, found, same⟩
  · have there := outer.nestedNames_sublist file.package below
    exact there.trans (sublist_flatMap_of_mem _ (List.mem_of_getElem? found))
  · cases same
  · cases same

end FileDeclaration

/-! ## Registered types -/

namespace Registry

variable {registry after : Registry} {file : FileDeclaration} {paths : List SourcePath}

/-- A file is registered exactly if each of its types can be resolved, to what is registered. -/
theorem addFile_eq_ok_iff :
    registry.addFile file paths = (.ok (), after) ↔
      ∃ descriptors : List Descriptor,
        List.Forall₂ (fun placed descriptor =>
          placed.resolve file.package ⟨file.locations, paths⟩ = .ok descriptor)
          file.placedTypes descriptors ∧ after = descriptors.foldl add registry := by
  rw [addFile, addResolved_eq_ok_iff, file.resolve_eq_map]
  refine exists_congr fun descriptors => and_congr_left fun _ => ?_
  rw [← List.forall₂_eq_eq_eq, List.forall₂_map_left_iff, List.forall₂_map_right_iff]

theorem map_key_of_resolved {package : String} {notes : SourceNotes} {types : List PlacedType}
    {descriptors : List Descriptor}
    (resolved : List.Forall₂ (fun placed descriptor =>
      placed.resolve package notes = .ok descriptor) types descriptors) :
    descriptors.map Descriptor.key = types.map (PlacedType.key package) := by
  induction resolved with
  | nil => rfl
  | cons own _ ih => rw [List.map_cons, List.map_cons, PlacedType.key_of_resolve own, ih]

/-- A type of a name of its own stays as it was resolved. -/
theorem exists_held (distinct : (file.typeNames.map QualifiedName.strip).Nodup)
    (added : registry.addFile file paths = (.ok (), after)) {placed : PlacedType}
    (listed : placed ∈ file.placedTypes) :
    ∃ descriptor, placed.resolve file.package ⟨file.locations, paths⟩ = .ok descriptor ∧
      after.held? (placed.key file.package) = some descriptor.stripped := by
  obtain ⟨descriptors, resolved, rfl⟩ := addFile_eq_ok_iff.mp added
  obtain ⟨descriptor, member, own⟩ := exists_right_of_forall₂ resolved listed
  have keys := file.nodup_keys distinct
  rw [← map_key_of_resolved resolved] at keys
  refine ⟨descriptor, own, ?_⟩
  rw [← PlacedType.key_of_resolve own]
  exact held?_foldl_add_of_mem keys member

private theorem held?_of_not_mem (added : registry.addFile file paths = (.ok (), after))
    {key : DescriptorKey} (absent : key ∉ file.placedTypes.map (PlacedType.key file.package)) :
    after.held? key = registry.held? key := by
  obtain ⟨descriptors, resolved, rfl⟩ := addFile_eq_ok_iff.mp added
  rw [← map_key_of_resolved resolved] at absent
  exact held?_foldl_add_of_not_mem absent

/-- What a file registers is registered under the keys of its types. -/
theorem isSome_held?_iff (distinct : (file.typeNames.map QualifiedName.strip).Nodup)
    (added : Registry.empty.addFile file paths = (.ok (), after)) {key : DescriptorKey} :
    (after.held? key).isSome ↔ ∃ placed ∈ file.placedTypes, placed.key file.package = key := by
  rw [← List.mem_map]
  constructor
  · intro found
    by_contra absent
    rw [held?_of_not_mem added absent, held?_empty] at found
    cases found
  · intro listed
    obtain ⟨placed, member, rfl⟩ := List.mem_map.mp listed
    obtain ⟨descriptor, -, own⟩ := exists_held distinct added member
    rw [own]
    rfl

end Registry

end ToolContract
