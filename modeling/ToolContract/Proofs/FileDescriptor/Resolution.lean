import ToolContract.Proofs.FileDescriptor.Marks

/-!
# Resolving with and without marks

The paths of marked fields decide nothing but the marks (`FileDeclaration.map_unmarked_resolve`). So
files that can be registered can be with any other marks, to the same types but for them
(`Registry.addFiles_sameButMarks`).
-/

set_option autoImplicit false

namespace ToolContract

/-! ## Leaving marks out -/

def Field.unmarked (field : Field) : Field :=
  { field with markedRequired := false }

def Message.unmarked (message : Message) : Message :=
  { message with fields := message.fields.map Field.unmarked }

def Descriptor.unmarked : Descriptor → Descriptor
  | .message held => .message held.unmarked
  | other => other

section Unmarked

variable {locations : List SourceLocation} {paths others : List SourcePath}

private theorem FieldDeclaration.map_unmarked_resolve (field : FieldDeclaration)
    (oneofs : List String)
    (maps : Entries MapKinds) (comment : Option String) (left right : Bool) :
    (field.resolve oneofs maps comment left).map Field.unmarked =
      (field.resolve oneofs maps comment right).map Field.unmarked := by
  unfold FieldDeclaration.resolve
  split <;> rfl

theorem FieldDeclaration.resolveAll_cons (notes : SourceNotes) (path : SourcePath)
    (oneofs : List String) (maps : Entries MapKinds) (index : Nat) (field : FieldDeclaration)
    (rest : List FieldDeclaration) :
    resolveAll notes path oneofs maps index (field :: rest) =
      (field.resolve oneofs maps (notes.comment? (path.child 2 index))
        (notes.isRequired (path.child 2 index))).bind fun first =>
          (resolveAll notes path oneofs maps (index + 1) rest).map (first :: ·) := by
  rw [resolveAll]
  cases resolveAll notes path oneofs maps (index + 1) rest <;> rfl

private theorem map_bind_cons {α ε : Type} (function : α → α) (first : Except ε α)
    (later : Except ε (List α)) :
    (first.bind fun value => later.map (value :: ·)).map (List.map function) =
      (first.map function).bind fun value => (later.map (List.map function)).map (value :: ·) := by
  cases first <;> cases later <;> rfl

theorem bind_cons_eq_ok {α ε : Type} {first : Except ε α} {later : Except ε (List α)}
    {values : List α} (read : (first.bind fun value => later.map (value :: ·)) = .ok values) :
    ∃ head tail, first = .ok head ∧ later = .ok tail ∧ values = head :: tail := by
  cases first <;> cases later <;> cases read
  exact ⟨_, _, rfl, rfl, rfl⟩

private theorem FieldDeclaration.map_unmarked_resolveAll (path : SourcePath) (oneofs : List String)
    (maps : Entries MapKinds) (index : Nat) (fields : List FieldDeclaration) :
    (FieldDeclaration.resolveAll ⟨locations, paths⟩ path oneofs maps index fields).map
        (List.map Field.unmarked) =
      (FieldDeclaration.resolveAll ⟨locations, others⟩ path oneofs maps index fields).map
        (List.map Field.unmarked) := by
  induction fields generalizing index with
  | nil => rfl
  | cons field rest ih =>
    rw [resolveAll_cons, resolveAll_cons, map_bind_cons, map_bind_cons, ih (index + 1),
      field.map_unmarked_resolve]
    rfl

/-- The result of resolving a type, without marks. -/
def unmarkedResult (result : Except DescriptorError Descriptor) :
    Except DescriptorError Descriptor :=
  result.map Descriptor.unmarked

private theorem unmarkedResult_message (fullName : String) (comment : Option String)
    (fields : Except DescriptorError (List Field)) :
    unmarkedResult (fields.map fun fields => .message ⟨fullName, fields, comment⟩) =
      (fields.map (List.map Field.unmarked)).map fun fields =>
        .message ⟨fullName, fields, comment⟩ := by
  cases fields <;> rfl

theorem MessageDeclaration.resolve_eq (notes : SourceNotes) (scope : String) (path : SourcePath)
    (message : MessageDeclaration) :
    message.resolve notes scope path =
      resolveNested notes (QualifiedName.join scope message.name) path 0 message.nested
        ++ EnumDeclaration.resolveAll notes (QualifiedName.join scope message.name) path 4
          message.enumerations
        ++ [(FieldDeclaration.resolveAll notes path message.oneofs
          (message.maps (QualifiedName.join scope message.name)) 0 message.fields).map fun fields =>
            .message ⟨QualifiedName.join scope message.name, fields, notes.comment? path⟩] := by
  cases message
  rw [resolve]

mutual

private theorem MessageDeclaration.map_unmarked_resolve (scope : String) (path : SourcePath) :
    ∀ message : MessageDeclaration,
      (message.resolve ⟨locations, paths⟩ scope path).map unmarkedResult =
        (message.resolve ⟨locations, others⟩ scope path).map unmarkedResult
  | ⟨name, fields, nested, enumerations, oneofs, isMapEntry⟩ => by
    have inside := MessageDeclaration.map_unmarked_resolveNested
      (QualifiedName.join scope name) path 0 nested
    rw [resolve_eq, resolve_eq, List.map_append, List.map_append, List.map_append, List.map_append,
      inside, List.map_singleton, List.map_singleton, unmarkedResult_message,
      unmarkedResult_message, FieldDeclaration.map_unmarked_resolveAll]
    rfl

private theorem MessageDeclaration.map_unmarked_resolveNested (scope : String) (path : SourcePath) :
    ∀ (index : Nat) (nested : List MessageDeclaration),
      (resolveNested ⟨locations, paths⟩ scope path index nested).map unmarkedResult =
        (resolveNested ⟨locations, others⟩ scope path index nested).map unmarkedResult
  | _, [] => rfl
  | index, message :: rest => by
    have first := MessageDeclaration.map_unmarked_resolve scope (path.child 3 index) message
    have later := MessageDeclaration.map_unmarked_resolveNested scope path (index + 1) rest
    rw [resolveNested, resolveNested, List.map_append, List.map_append, later]
    split
    · rfl
    · rw [first]

end

/-- The paths of marked fields decide nothing but the marks. -/
theorem FileDeclaration.map_unmarked_resolve (file : FileDeclaration) :
    (file.resolve paths).map unmarkedResult = (file.resolve others).map unmarkedResult := by
  rw [FileDeclaration.resolve, FileDeclaration.resolve, List.map_append, List.map_append,
    List.map_append, List.map_append, List.map_flatMap, List.map_flatMap]
  congr 2
  exact List.flatMap_congr fun (message, index) _ => message.map_unmarked_resolve _ _

end Unmarked

/-! ## Registering resolved types -/

namespace Registry

theorem addResolved_eq_ok_iff {registry after : Registry}
    {results : List (Except DescriptorError Descriptor)} :
    registry.addResolved results = (.ok (), after) ↔
      ∃ descriptors : List Descriptor,
        results = descriptors.map .ok ∧ after = descriptors.foldl add registry := by
  induction results generalizing registry with
  | nil =>
    simp only [addResolved, Prod.mk.injEq, true_and]
    constructor
    · rintro rfl
      exact ⟨[], rfl, rfl⟩
    · rintro ⟨descriptors, same, rfl⟩
      rw [List.map_eq_nil_iff.mp same.symm]
      rfl
  | cons result rest ih =>
    cases result with
    | error cause =>
      simp only [addResolved, Prod.mk.injEq, reduceCtorEq, false_and, false_iff, not_exists, not_and]
      intro descriptors same
      cases descriptors with
      | nil => cases same
      | cons => cases (List.cons.inj same).1
    | ok descriptor =>
      rw [addResolved, ih]
      constructor
      · rintro ⟨descriptors, rfl, rfl⟩
        exact ⟨descriptor :: descriptors, rfl, rfl⟩
      · rintro ⟨descriptors, same, rfl⟩
        cases descriptors with
        | nil => cases same
        | cons first others =>
          obtain ⟨head, tail⟩ := List.cons.inj same
          obtain rfl := Except.ok.inj head
          exact ⟨others, tail, rfl⟩

/-- Files are registered exactly if all their types can be resolved. -/
theorem addFiles_eq_ok_iff {registry after : Registry}
    {files : List (FileDeclaration × List SourcePath)} :
    registry.addFiles files = .ok after ↔
      ∃ descriptors : List Descriptor,
        (files.flatMap fun file => file.1.resolve file.2) = descriptors.map .ok ∧
          after = descriptors.foldl add registry := by
  induction files generalizing registry with
  | nil =>
    simp only [addFiles, Except.ok.injEq, List.flatMap_nil]
    constructor
    · rintro rfl
      exact ⟨[], rfl, rfl⟩
    · rintro ⟨descriptors, same, rfl⟩
      rw [List.map_eq_nil_iff.mp same.symm]
      rfl
  | cons file rest ih =>
    rw [addFiles, List.flatMap_cons]
    constructor
    · intro added
      split at added <;> rename_i middle ran
      · obtain ⟨first, resolved, rfl⟩ := addResolved_eq_ok_iff.mp ran
        obtain ⟨later, others, rfl⟩ := ih.mp added
        exact ⟨first ++ later, by rw [resolved, others, List.map_append],
          (List.foldl_append ..).symm⟩
      · cases added
    · rintro ⟨descriptors, same, rfl⟩
      obtain ⟨first, later, rfl, resolved, others⟩ := List.map_eq_append_iff.mp same.symm
      have ran : registry.addFile file.1 file.2 = (.ok (), first.foldl add registry) :=
        addResolved_eq_ok_iff.mpr ⟨first, resolved.symm, rfl⟩
      rw [ran]
      exact ih.mpr ⟨later, others.symm, List.foldl_append ..⟩

/-! ## Registering with other marks -/

/-- The registries hold the same types, messages up to the marks of their fields. -/
structure SameButMarks (left right : Registry) : Prop where
  messages : ∀ name : String,
    left.messages[name]?.map Message.unmarked = right.messages[name]?.map Message.unmarked
  enumerations : left.enumerations = right.enumerations
  services : left.services = right.services

namespace SameButMarks

variable {left right : Registry}

private theorem refl (registry : Registry) : registry.SameButMarks registry :=
  ⟨fun _ => rfl, rfl, rfl⟩

private theorem addMessage (same : left.SameButMarks right) {first second : Message}
    (unmarked : first.unmarked = second.unmarked) :
    (left.addMessage first).SameButMarks (right.addMessage second) := by
  have named : first.fullName = second.fullName := (congrArg Message.fullName unmarked :)
  refine ⟨fun name => ?_, same.enumerations, same.services⟩
  simp only [Registry.addMessage, Std.ExtTreeMap.getElem?_insert, named]
  split
  · exact congrArg (fun held => some { held with fullName := QualifiedName.strip second.fullName })
      unmarked
  · exact same.messages name

private theorem add (same : left.SameButMarks right) {first second : Descriptor}
    (unmarked : first.unmarked = second.unmarked) :
    (left.add first).SameButMarks (right.add second) := by
  cases first <;> cases second <;> simp only [Descriptor.unmarked, reduceCtorEq,
    Descriptor.message.injEq, Descriptor.enumeration.injEq, Descriptor.service.injEq] at unmarked
  case message.message => exact same.addMessage unmarked
  case enumeration.enumeration =>
    subst unmarked
    exact ⟨same.messages, by simp only [Registry.add, addEnumeration, same.enumerations],
      same.services⟩
  case service.service =>
    subst unmarked
    exact ⟨same.messages, same.enumerations, by simp only [Registry.add, addService, same.services]⟩

private theorem foldl_add (same : left.SameButMarks right) {descriptors others : List Descriptor}
    (unmarked : descriptors.map Descriptor.unmarked = others.map Descriptor.unmarked) :
    (descriptors.foldl Registry.add left).SameButMarks (others.foldl Registry.add right) := by
  induction descriptors generalizing left right others with
  | nil =>
    rw [List.map_eq_nil_iff.mp unmarked.symm]
    exact same
  | cons descriptor rest ih =>
    cases others with
    | nil => cases unmarked
    | cons other others =>
      obtain ⟨first, later⟩ := List.cons.inj unmarked
      exact ih (same.add first) later

end SameButMarks

private theorem exists_ok_of_unmarkedResult {results : List (Except DescriptorError Descriptor)}
    {descriptors : List Descriptor}
    (same : results.map unmarkedResult = (descriptors.map .ok).map unmarkedResult) :
    ∃ others : List Descriptor, results = others.map .ok ∧
      descriptors.map Descriptor.unmarked = others.map Descriptor.unmarked := by
  induction results generalizing descriptors with
  | nil =>
    rw [List.map_eq_nil_iff.mp (List.map_eq_nil_iff.mp same.symm)]
    exact ⟨[], rfl, rfl⟩
  | cons result rest ih =>
    cases descriptors with
    | nil => cases same
    | cons descriptor descriptors =>
      obtain ⟨first, later⟩ := List.cons.inj same
      obtain ⟨others, rfl, unmarked⟩ := ih later
      cases result with
      | error => cases first
      | ok other =>
        exact ⟨other :: others, rfl, congrArg₂ List.cons (Except.ok.inj first).symm unmarked⟩

private theorem map_unmarkedResult_files (files : List (FileDeclaration × List SourcePath)) :
    (files.flatMap fun file => file.1.resolve file.2).map unmarkedResult =
      (files.map Prod.fst).flatMap fun file => (file.resolve []).map unmarkedResult := by
  rw [List.map_flatMap, List.flatMap_map]
  exact List.flatMap_congr fun file _ => file.1.map_unmarked_resolve

/-- Files that can be registered can be with any other marks, and only the marks differ. -/
theorem addFiles_sameButMarks {registry after : Registry}
    {files others : List (FileDeclaration × List SourcePath)}
    (same : files.map Prod.fst = others.map Prod.fst) (added : registry.addFiles files = .ok after) :
    ∃ other, registry.addFiles others = .ok other ∧ after.SameButMarks other := by
  obtain ⟨descriptors, resolved, rfl⟩ := addFiles_eq_ok_iff.mp added
  have alike : (others.flatMap fun file => file.1.resolve file.2).map unmarkedResult =
      (descriptors.map .ok).map unmarkedResult := by
    rw [← resolved, map_unmarkedResult_files, map_unmarkedResult_files, same]
  obtain ⟨twins, again, unmarked⟩ := exists_ok_of_unmarkedResult alike
  exact ⟨_, addFiles_eq_ok_iff.mpr ⟨twins, again, rfl⟩,
    (SameButMarks.refl registry).foldl_add unmarked⟩

end Registry

end ToolContract
