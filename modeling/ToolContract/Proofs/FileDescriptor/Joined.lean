import ToolContract.Proofs.Descriptor.Lookup
import ToolContract.Proofs.FileDescriptor.Annotations
import ToolContract.Proofs.Wire.Append

/-!
# Sets of files that are joined

The bytes of two sets of files, one after the other, are the bytes of a set of all their files, each
with the marks of its own fields. What is registered from them is what the second set registers, and
under the other names what the first one does (`Registry.ofBytes_append`).
-/

set_option autoImplicit false

namespace ToolContract

/-! ## Declarations and marks -/

section Decoding

variable {bytes left right : List UInt8}

private theorem FileDeclaration.decodeSet_eq_ok_iff {files : List FileDeclaration} :
    decodeSet bytes = .ok files ↔
      ∃ record, DescriptorElement.grammar.decode .fileSet bytes = .ok record ∧
        files = (record.records 1).map FileDeclaration.ofRecord := by
  unfold decodeSet
  split <;> rename_i read <;> simp [read, eq_comm]

private theorem decodeRequiredPaths_eq_ok_iff {paths : List (List SourcePath)} :
    decodeRequiredPaths bytes = .ok paths ↔
      ∃ record, MarkElement.grammar.decode .fileSet bytes = .ok record ∧
        paths = (record.records 1).map requiredPathsOfFile := by
  unfold decodeRequiredPaths
  split <;> rename_i read <;> simp [read, eq_comm]

private theorem FileDeclaration.decodeSet_append {files others : List FileDeclaration}
    (first : decodeSet left = .ok files) (second : decodeSet right = .ok others) :
    decodeSet (left ++ right) = .ok (files ++ others) := by
  obtain ⟨record, read, rfl⟩ := decodeSet_eq_ok_iff.mp first
  obtain ⟨other, readOther, rfl⟩ := decodeSet_eq_ok_iff.mp second
  refine decodeSet_eq_ok_iff.mpr ⟨record ++ other, Grammar.decode_append read readOther, ?_⟩
  rw [WireRecord.records_append, List.map_append]

private theorem decodeRequiredPaths_append {paths others : List (List SourcePath)}
    (first : decodeRequiredPaths left = .ok paths)
    (second : decodeRequiredPaths right = .ok others) :
    decodeRequiredPaths (left ++ right) = .ok (paths ++ others) := by
  obtain ⟨record, read, rfl⟩ := decodeRequiredPaths_eq_ok_iff.mp first
  obtain ⟨other, readOther, rfl⟩ := decodeRequiredPaths_eq_ok_iff.mp second
  have joined := Grammar.decode_append read readOther
  refine decodeRequiredPaths_eq_ok_iff.mpr ⟨record ++ other, joined, ?_⟩
  rw [WireRecord.records_append, List.map_append]

/-- There are marks for each file of a set: both are read from the same parts of its bytes. -/
theorem length_eq_of_decoded {files : List FileDeclaration} {paths : List (List SourcePath)}
    (decoded : FileDeclaration.decodeSet bytes = .ok files)
    (found : decodeRequiredPaths bytes = .ok paths) : files.length = paths.length := by
  obtain ⟨marks, rfl, decodes⟩ := decodeRequiredPaths_eq_ok found
  have reads := FileDeclaration.decodeSet_eq_ok decoded
  rw [List.length_map, reads.length_eq, decodes.length_eq]

end Decoding

private theorem withRequiredPaths_append {files : List FileDeclaration}
    {paths : List (List SourcePath)}
    (length : files.length = paths.length) (others : List FileDeclaration)
    (more : List (List SourcePath)) :
    withRequiredPaths (files ++ others) (paths ++ more) =
      withRequiredPaths files paths ++ withRequiredPaths others more := by
  induction files generalizing paths with
  | nil =>
    rw [List.length_nil, eq_comm, List.length_eq_zero_iff] at length
    subst length
    rfl
  | cons file rest ih =>
    cases paths with
    | nil => cases length
    | cons path paths =>
      rw [List.cons_append, List.cons_append, withRequiredPaths, withRequiredPaths,
        List.cons_append, ih (Nat.succ.inj length)]

/-! ## Registries -/

namespace Registry

variable {first second : Registry}

/-- Of files that are registered after others, what is registered covers what was. -/
theorem addFiles_append {files others : List (FileDeclaration × List SourcePath)}
    (added : empty.addFiles files = .ok first) (addedOthers : empty.addFiles others = .ok second) :
    ∃ joined, empty.addFiles (files ++ others) = .ok joined ∧
      ∀ key, joined.held? key = (second.held? key).or (first.held? key) := by
  obtain ⟨descriptors, resolved, rfl⟩ := addFiles_eq_ok_iff.mp added
  obtain ⟨later, resolvedLater, rfl⟩ := addFiles_eq_ok_iff.mp addedOthers
  refine ⟨_, addFiles_eq_ok_iff.mpr ⟨descriptors ++ later, ?_, rfl⟩, fun key => ?_⟩
  · rw [List.flatMap_append, resolved, resolvedLater, List.map_append]
  · rw [List.foldl_append, held?_foldl_add_or]

/-- The registries have no name of one sort in common. -/
def Apart (first second : Registry) : Prop :=
  (∀ name ∈ first.messages.keys, name ∉ second.messages.keys) ∧
  (∀ name ∈ first.enumerations.keys, name ∉ second.enumerations.keys) ∧
  ∀ name ∈ first.services.keys, name ∉ second.services.keys

instance (first second : Registry) : Decidable (first.Apart second) :=
  inferInstanceAs (Decidable (_ ∧ _ ∧ _))

private theorem getElem?_eq_none_of_apart {α : Type} {table other : Std.ExtTreeMap String α}
    (apart : ∀ name ∈ table.keys, name ∉ other.keys) (name : String) :
    table[name]? = none ∨ other[name]? = none := by
  by_cases listed : name ∈ table.keys
  · have absent := apart name listed
    rw [Std.ExtTreeMap.mem_keys] at absent
    exact .inr (Std.ExtTreeMap.getElem?_eq_none absent)
  · rw [Std.ExtTreeMap.mem_keys] at listed
    exact .inl (Std.ExtTreeMap.getElem?_eq_none listed)

private theorem Apart.held?_eq_none (apart : first.Apart second) (key : DescriptorKey) :
    first.held? key = none ∨ second.held? key = none := by
  obtain ⟨messages, enumerations, services⟩ := apart
  obtain ⟨sort, name⟩ := key
  cases sort with
  | message =>
    simpa only [held?, Option.map_eq_none_iff] using getElem?_eq_none_of_apart messages name
  | enumeration =>
    simpa only [held?, Option.map_eq_none_iff] using getElem?_eq_none_of_apart enumerations name
  | service =>
    simpa only [held?, Option.map_eq_none_iff] using getElem?_eq_none_of_apart services name

private theorem exists_joined {left right : List UInt8} (readLeft : ofBytes left = .ok first)
    (readRight : ofBytes right = .ok second) :
    ∃ joined, ofBytes (left ++ right) = .ok joined ∧
      ∀ key, joined.held? key = (second.held? key).or (first.held? key) := by
  obtain ⟨files, paths, decoded, found, added⟩ := ofBytes_eq_ok readLeft
  obtain ⟨others, more, decodedOthers, foundMore, addedOthers⟩ := ofBytes_eq_ok readRight
  obtain ⟨joined, together, held⟩ := addFiles_append added addedOthers
  refine ⟨joined, ?_, held⟩
  rw [ofBytes, FileDeclaration.decodeSet_append decoded decodedOthers,
    decodeRequiredPaths_append found foundMore]
  rw [← withRequiredPaths_append (length_eq_of_decoded decoded found)] at together
  exact together

/-- The bytes of two sets of files are, one after the other, the bytes of a set. From it each name
stands for what the second set declares with it, marks of required fields included, and else for
what the first one does. So the order is no matter if the sets have no name in common. -/
theorem ofBytes_append {left right : List UInt8} (readLeft : ofBytes left = .ok first)
    (readRight : ofBytes right = .ok second) :
    (∃ joined, ofBytes (left ++ right) = .ok joined ∧ ∀ name : String,
      joined.messages[name]? = second.messages[name]?.or first.messages[name]? ∧
      joined.enumerations[name]? = second.enumerations[name]?.or first.enumerations[name]? ∧
      joined.services[name]? = second.services[name]?.or first.services[name]?) ∧
    (first.Apart second → ofBytes (left ++ right) = ofBytes (right ++ left)) := by
  obtain ⟨joined, read, held⟩ := exists_joined readLeft readRight
  refine ⟨⟨joined, read, fun name => ⟨?_, ?_, ?_⟩⟩, fun apart => ?_⟩
  · have message := held (.message, name)
    simp only [held?, ← Option.map_or] at message
    exact Option.map_injective (fun _ _ => Descriptor.message.inj) message
  · have enumeration := held (.enumeration, name)
    simp only [held?, ← Option.map_or] at enumeration
    exact Option.map_injective (fun _ _ => Descriptor.enumeration.inj) enumeration
  · have service := held (.service, name)
    simp only [held?, ← Option.map_or] at service
    exact Option.map_injective (fun _ _ => Descriptor.service.inj) service
  · obtain ⟨other, readOther, heldOther⟩ := exists_joined readRight readLeft
    have same : joined = other := eq_of_held? fun key => by
      rw [held, heldOther]
      cases apart.held?_eq_none key <;> simp [*]
    rw [read, readOther, same]

namespace Crates

/-- A file with a message `A`, whose field `x` is marked required. -/
def crate : List UInt8 := [10, 15, 34, 13, 10, 1, 65, 18, 8, 10, 1, 120, 66, 3, 224, 65, 2]

/-- A file with a message `B`, whose field `y` is marked required. -/
def label : List UInt8 := [10, 15, 34, 13, 10, 1, 66, 18, 8, 10, 1, 121, 66, 3, 224, 65, 2]

/-- A file with another message `A`, whose field `y` is not marked. -/
def revision : List UInt8 := [10, 10, 34, 8, 10, 1, 65, 18, 3, 10, 1, 121]

def field (name : String) (markedRequired : Bool) : Field :=
  { name := name, kind := .scalar .double, markedRequired := markedRequired }

private theorem exists_registry (bytes : List UInt8) (name : String) (message? : Option Message)
    (evaluated : (ofBytes bytes).toOption.map (·.messages[name]?) = some message?) :
    ∃ registry, ofBytes bytes = .ok registry ∧ registry.messages[name]? = message? := by
  cases read : ofBytes bytes with
  | error => simp [read, Except.toOption] at evaluated
  | ok registry =>
    rw [read] at evaluated
    exact ⟨registry, rfl, Option.some.inj evaluated⟩

end Crates

open Crates in
/-- The second `A` replaces the first with its mark, and the mark of `B` stays; what has no name in
common may stand in any order. -/
theorem ofBytes_append_crates :
    (∃ first second joined, ofBytes crate = .ok first ∧ ofBytes (label ++ revision) = .ok second ∧
      ofBytes (crate ++ (label ++ revision)) = .ok joined ∧
      first.messages["A"]? = some ⟨"A", [field "x" true], none⟩ ∧
      joined.messages["A"]? = some ⟨"A", [field "y" false], none⟩ ∧
      joined.messages["B"]? = some ⟨"B", [field "y" true], none⟩) ∧
    ofBytes (crate ++ label) = ofBytes (label ++ crate) := by
  obtain ⟨first, readFirst, firstA⟩ := exists_registry crate "A"
    (some ⟨"A", [field "x" true], none⟩) (by decide +kernel)
  obtain ⟨second, readSecond, secondA⟩ := exists_registry (label ++ revision) "A"
    (some ⟨"A", [field "y" false], none⟩) (by decide +kernel)
  obtain ⟨other, readOther, secondB⟩ := exists_registry (label ++ revision) "B"
    (some ⟨"B", [field "y" true], none⟩) (by decide +kernel)
  obtain rfl := Except.ok.inj (readOther.symm.trans readSecond)
  obtain ⟨⟨joined, read, held⟩, -⟩ := ofBytes_append readFirst readSecond
  refine ⟨⟨first, _, joined, readFirst, readSecond, read, firstA, ?_, ?_⟩, ?_⟩
  · rw [(held "A").1, secondA]
    rfl
  · rw [(held "B").1, secondB]
    rfl
  · obtain ⟨third, readThird, -⟩ := exists_registry label "B"
      (some ⟨"B", [field "y" true], none⟩) (by decide +kernel)
    have apart : ∀ left ∈ (ofBytes crate).toOption, ∀ right ∈ (ofBytes label).toOption,
        left.Apart right := by decide +kernel
    rw [readFirst, readThird] at apart
    exact (ofBytes_append readFirst readThird).2 (apart _ rfl _ rfl)

end Registry

end ToolContract
