import ToolContract.Proofs.FileDescriptor.Names

/-!
# Where registering a file stops

A file fails exactly if a field of one of its messages refers to a oneof that the message does not
declare. It fails at the first such field, with all types before its message registered as they are
in the file without the reference, and nothing else changed (`Registry.addFile_stray`).
-/

set_option autoImplicit false

namespace ToolContract

/-! ## Stray fields -/

/-- The field refers to a oneof that is not declared. -/
def FieldDeclaration.IsStray (oneofs : List String) (field : FieldDeclaration) : Prop :=
  field.declaredOptional = false ∧
    ∃ index ∈ field.oneofIndex, index < 0 ∨ (oneofs.length : Int) ≤ index

instance (oneofs : List String) (field : FieldDeclaration) : Decidable (field.IsStray oneofs) :=
  inferInstanceAs (Decidable (_ ∧ ∃ _ ∈ _, _))

/-- The error is that of the first stray field of the message. -/
inductive MessageDeclaration.FailsWith (message : MessageDeclaration) : DescriptorError → Prop where
  | stray {before after : List FieldDeclaration} {field : FieldDeclaration} {index : Int} :
    message.fields = before ++ field :: after →
    (∀ earlier ∈ before, ¬ earlier.IsStray message.oneofs) →
    field.IsStray message.oneofs → field.oneofIndex = some index →
    FailsWith message (.missingOneof field.name index)

def TypeDeclaration.HasStray : TypeDeclaration → Prop
  | .message declaration => ∃ field ∈ declaration.fields, field.IsStray declaration.oneofs
  | .enumeration _ => False
  | .service _ => False

namespace FieldDeclaration

variable {field : FieldDeclaration} {oneofs : List String} {cause : DescriptorError}

private theorem oneof_eq_error_iff :
    field.oneof oneofs = .error cause ↔ field.IsStray oneofs ∧
      ∃ index, field.oneofIndex = some index ∧ cause = .missingOneof field.name index := by
  unfold oneof IsStray
  cases given : field.oneofIndex with
  | none => simp
  | some index =>
    cases field.declaredOptional with
    | true => simp
    | false =>
      have missing : (if index < 0 then none else oneofs[index.toNat]?) = none ↔
          index < 0 ∨ (oneofs.length : Int) ≤ index := by
        split
        · simp [*]
        · rw [List.getElem?_eq_none_iff]
          omega
      cases declared : (if index < 0 then none else oneofs[index.toNat]?) with
      | none =>
        have stray := missing.mp declared
        simp [declared, stray, eq_comm]
      | some name =>
        have stands : ¬ (index < 0 ∨ (oneofs.length : Int) ≤ index) := by
          rw [← missing, declared]
          exact Option.some_ne_none name
        simp [declared, stands]

private theorem resolve_eq_error_iff {maps : Entries MapKinds} {comment : Option String}
    {isMarked : Bool} :
    field.resolve oneofs maps comment isMarked = .error cause ↔
      field.oneof oneofs = .error cause := by
  unfold resolve
  cases field.oneof oneofs with
  | error own => simp
  | ok group => simp

private theorem not_isStray_of_resolve {maps : Entries MapKinds} {comment : Option String}
    {isMarked : Bool} {resolved : Field}
    (ok : field.resolve oneofs maps comment isMarked = .ok resolved) : ¬ field.IsStray oneofs := by
  intro stray
  have ⟨_, index, given, _⟩ := stray
  have failed := oneof_eq_error_iff.mpr ⟨stray, index, given, rfl⟩
  rw [resolve_eq_error_iff.mpr failed] at ok
  cases ok

end FieldDeclaration

/-- Of the fields of a message the first stray one fails. -/
theorem FieldDeclaration.exists_stray_of_resolveAll {notes : SourceNotes} {path : SourcePath}
    {oneofs : List String} {maps : Entries MapKinds} {start : Nat}
    {declarations : List FieldDeclaration} {cause : DescriptorError}
    (failed : resolveAll notes path oneofs maps start declarations = .error cause) :
    ∃ before field after index, declarations = before ++ field :: after ∧
      (∀ earlier ∈ before, ¬ earlier.IsStray oneofs) ∧ field.IsStray oneofs ∧
      field.oneofIndex = some index ∧ cause = .missingOneof field.name index := by
  induction declarations generalizing start with
  | nil => cases failed
  | cons declaration rest ih =>
    rw [resolveAll_cons] at failed
    cases first : declaration.resolve oneofs maps (notes.comment? (path.child 2 start))
        (notes.isRequired (path.child 2 start)) with
    | error own =>
      rw [first] at failed
      obtain rfl := Except.error.inj failed
      obtain ⟨stray, index, given, same⟩ :=
        oneof_eq_error_iff.mp (resolve_eq_error_iff.mp first)
      exact ⟨[], declaration, rest, index, rfl, nofun, stray, given, same⟩
    | ok head =>
      rw [first] at failed
      cases later : resolveAll notes path oneofs maps (start + 1) rest with
      | ok tail =>
        rw [later] at failed
        cases failed
      | error own =>
        rw [later] at failed
        obtain rfl := Except.error.inj failed
        obtain ⟨before, field, after, index, split, earlier, stray⟩ := ih later
        refine ⟨declaration :: before, field, after, index, ?_, ?_, stray⟩
        · rw [split, List.cons_append]
        · exact List.forall_mem_cons.mpr ⟨not_isStray_of_resolve first, earlier⟩

namespace PlacedType

variable {package : String} {notes : SourceNotes} {placed : PlacedType} {cause : DescriptorError}

private theorem failsWith_of_resolve (failed : placed.resolve package notes = .error cause) :
    ∃ message, placed.declaration = .message message ∧ message.FailsWith cause := by
  obtain ⟨around, path, declaration⟩ := placed
  cases declaration with
  | message declaration =>
    refine ⟨declaration, rfl, ?_⟩
    unfold resolve PlacedMessage.resolve at failed
    dsimp only at failed
    cases all : FieldDeclaration.resolveAll notes path declaration.oneofs
        (declaration.maps (QualifiedName.join (QualifiedName.joinAll package around)
          declaration.name)) 0 declaration.fields with
    | ok fields =>
      rw [all] at failed
      cases failed
    | error own =>
      rw [all] at failed
      obtain rfl := Except.error.inj failed
      obtain ⟨before, field, after, index, split, earlier, stray, given, rfl⟩ :=
        FieldDeclaration.exists_stray_of_resolveAll all
      exact .stray split earlier stray given
  | enumeration => cases failed
  | service => cases failed

private theorem not_hasStray_of_resolve {descriptor : Descriptor}
    (resolved : placed.resolve package notes = .ok descriptor) : ¬ placed.declaration.HasStray := by
  obtain ⟨around, path, declaration⟩ := placed
  cases declaration with
  | message declaration =>
    obtain ⟨message, own, rfl⟩ := exists_message_of_resolve resolved
    obtain ⟨-, -, fields⟩ := PlacedMessage.resolve_eq_ok own
    intro ⟨field, listed, stray⟩
    obtain ⟨_, -, _, _, single⟩ := exists_right_of_forall₂
      (FieldDeclaration.forall₂_of_resolveAll fields) listed
    exact FieldDeclaration.not_isStray_of_resolve single stray
  | enumeration => exact not_false
  | service => exact not_false

end PlacedType

private theorem MessageDeclaration.FailsWith.exists_isStray {message : MessageDeclaration}
    {cause : DescriptorError} (fails : message.FailsWith cause) :
    ∃ field ∈ message.fields, field.IsStray message.oneofs := by
  obtain ⟨split, -, stray, -⟩ := fails
  rw [split]
  exact ⟨_, List.mem_append_right _ List.mem_cons_self, stray⟩

/-! ## Without stray references -/

/-- The field itself unless it is stray, else the same field outside of oneofs. -/
def FieldDeclaration.repaired (oneofs : List String) (field : FieldDeclaration) :
    FieldDeclaration :=
  if field.IsStray oneofs then { field with oneofIndex := none } else field

namespace MessageDeclaration

mutual

/-- The message without stray fields, in messages inside it neither. Entries of maps are left as
they are. -/
def repaired : MessageDeclaration → MessageDeclaration
  | ⟨name, fields, nested, enumerations, oneofs, isMapEntry⟩ =>
    ⟨name, fields.map (FieldDeclaration.repaired oneofs), allRepaired nested, enumerations, oneofs,
      isMapEntry⟩

def allRepaired : List MessageDeclaration → List MessageDeclaration
  | [] => []
  | message :: rest =>
    (if message.isMapEntry then message else repaired message) :: allRepaired rest

end

end MessageDeclaration

def FileDeclaration.repaired (file : FileDeclaration) : FileDeclaration :=
  { file with messages := file.messages.map MessageDeclaration.repaired }

def TypeDeclaration.repaired : TypeDeclaration → TypeDeclaration
  | .message declaration => .message declaration.repaired
  | other => other

def PlacedType.repaired (placed : PlacedType) : PlacedType :=
  { placed with declaration := placed.declaration.repaired }

namespace FieldDeclaration

private theorem not_isStray_repaired (oneofs : List String) (field : FieldDeclaration) :
    ¬ (field.repaired oneofs).IsStray oneofs := by
  unfold repaired
  split
  · simp [IsStray]
  · assumption

private theorem map_repaired {oneofs : List String} {fields : List FieldDeclaration}
    (none : ¬ ∃ field ∈ fields, field.IsStray oneofs) :
    fields.map (FieldDeclaration.repaired oneofs) = fields := by
  have each : ∀ field ∈ fields, field.repaired oneofs = id field :=
    fun field listed => if_neg fun stray => none ⟨field, listed, stray⟩
  rw [List.map_congr_left each, List.map_id]

end FieldDeclaration

private theorem EnumDeclaration.map_repaired_placedTypes (around : List String) (path : SourcePath)
    (number : Int) (enumerations : List EnumDeclaration) :
    (placedTypes around path number enumerations).map PlacedType.repaired =
      placedTypes around path number enumerations := by
  rw [placedTypes, List.map_map]
  rfl

namespace MessageDeclaration

private theorem allRepaired_eq_map (messages : List MessageDeclaration) :
    allRepaired messages =
      messages.map fun message => if message.isMapEntry then message else message.repaired := by
  induction messages with
  | nil => rfl
  | cons message rest ih => rw [allRepaired, ih, List.map_cons]

private theorem repaired_eq (message : MessageDeclaration) :
    message.repaired = { message with
      fields := message.fields.map (FieldDeclaration.repaired message.oneofs)
      nested := message.nested.map fun inner =>
        if inner.isMapEntry then inner else inner.repaired } := by
  cases message
  rw [repaired, allRepaired_eq_map]

private theorem maps_repaired (message : MessageDeclaration) (fullName : String) :
    message.repaired.maps fullName = message.maps fullName := by
  rw [repaired_eq, maps, maps, List.filterMap_map]
  apply List.filterMap_congr
  intro inner _
  rw [Function.comp_apply]
  -- entries of maps are left as they are, and no other message has map kinds
  by_cases entry : inner.isMapEntry
  · rw [if_pos entry]
  · rw [if_neg entry, repaired_eq]
    simp [mapKinds?, entry]

private theorem placedTypes_repaired (message : MessageDeclaration) (around : List String)
    (path : SourcePath) :
    message.repaired.placedTypes around path =
      (message.placedTypes around path).map PlacedType.repaired := by
  induction message using nestedInduction generalizing around path with
  | step message ih =>
    have own : PlacedType.repaired ⟨around, path, .message message⟩ =
        ⟨around, path, .message message.repaired⟩ := rfl
    rw [placedTypes_eq, placedTypes_eq, List.map_append, List.map_append, List.map_flatMap,
      List.map_singleton, own, EnumDeclaration.map_repaired_placedTypes, repaired_eq,
      List.zipIdx_map, List.flatMap_map]
    congr 2
    apply List.flatMap_congr
    intro entry listed
    obtain ⟨inner, index⟩ := entry
    dsimp only [Prod.map]
    by_cases entry : inner.isMapEntry
    · rw [if_pos entry, if_pos entry, if_pos entry]
      rfl
    · rw [if_neg entry, if_neg entry, ← ih inner (List.fst_mem_of_mem_zipIdx listed)]
      have kept : inner.repaired.isMapEntry = inner.isMapEntry := by rw [repaired_eq]
      rw [kept, if_neg entry]
      rfl

end MessageDeclaration

private theorem FileDeclaration.placedTypes_repaired (file : FileDeclaration) :
    file.repaired.placedTypes = file.placedTypes.map PlacedType.repaired := by
  rw [placedTypes, placedTypes, List.map_append, List.map_append, List.map_flatMap, List.map_map,
    EnumDeclaration.map_repaired_placedTypes, repaired, List.zipIdx_map, List.flatMap_map]
  congr 2
  apply List.flatMap_congr
  intro entry _
  exact entry.1.placedTypes_repaired [] _

namespace TypeDeclaration

@[simp] theorem name_repaired (declaration : TypeDeclaration) :
    declaration.repaired.name = declaration.name := by
  cases declaration with
  | message declaration => rw [repaired, name, MessageDeclaration.repaired_eq, name]
  | enumeration => rfl
  | service => rfl

@[simp] theorem sort_repaired (declaration : TypeDeclaration) :
    declaration.repaired.sort = declaration.sort := by
  cases declaration <;> rfl

private theorem not_hasStray_repaired (declaration : TypeDeclaration) :
    ¬ declaration.repaired.HasStray := by
  cases declaration with
  | message declaration =>
    rw [repaired, HasStray, MessageDeclaration.repaired_eq]
    intro ⟨field, listed, stray⟩
    obtain ⟨original, -, rfl⟩ := List.mem_map.mp listed
    exact FieldDeclaration.not_isStray_repaired _ original stray
  | enumeration => exact not_false
  | service => exact not_false

end TypeDeclaration

namespace PlacedType

variable {package : String} {notes : SourceNotes} {placed : PlacedType}

private theorem fullName_repaired (package : String) (placed : PlacedType) :
    placed.repaired.fullName package = placed.fullName package := by
  rw [fullName, fullName, repaired, TypeDeclaration.name_repaired]

private theorem key_repaired (package : String) (placed : PlacedType) :
    placed.repaired.key package = placed.key package := by
  rw [key, key, fullName_repaired, repaired, TypeDeclaration.sort_repaired]

/-- A type without stray fields is resolved as it would be in the repaired file. -/
theorem resolve_repaired (none : ¬ placed.declaration.HasStray) :
    placed.repaired.resolve package notes = placed.resolve package notes := by
  obtain ⟨around, path, declaration⟩ := placed
  cases declaration with
  | message declaration =>
    have fields := FieldDeclaration.map_repaired none
    have maps := declaration.maps_repaired
    unfold resolve PlacedMessage.resolve repaired TypeDeclaration.repaired
    dsimp only
    rw [maps]
    rw [MessageDeclaration.repaired_eq]
    dsimp only
    rw [fields]
  | enumeration => rfl
  | service => rfl

end PlacedType

private theorem FileDeclaration.typeNames_repaired (file : FileDeclaration) :
    file.repaired.typeNames = file.typeNames := by
  rw [typeNames, typeNames, placedTypes_repaired, List.map_map]
  exact List.map_congr_left fun placed _ => placed.fullName_repaired file.package

/-! ## What is registered before a failure -/

namespace Registry

variable {registry after : Registry} {file : FileDeclaration} {paths : List SourcePath}
  {cause : DescriptorError}

private theorem exists_split_of_addResolved {results : List (Except DescriptorError Descriptor)}
    (failed : registry.addResolved results = (.error cause, after)) :
    ∃ (descriptors : List Descriptor) (rest : List (Except DescriptorError Descriptor)),
      results = descriptors.map .ok ++ .error cause :: rest ∧
        after = descriptors.foldl add registry := by
  induction results generalizing registry with
  | nil => cases failed
  | cons result rest ih =>
    cases result with
    | error own =>
      cases failed
      exact ⟨[], rest, rfl, rfl⟩
    | ok descriptor =>
      obtain ⟨descriptors, others, rfl, rfl⟩ := ih failed
      exact ⟨descriptor :: descriptors, others, rfl, rfl⟩

/-- A file fails at the first type that cannot be resolved. -/
theorem exists_split_of_addFile (failed : registry.addFile file paths = (.error cause, after)) :
    ∃ before offending rest descriptors, file.placedTypes = before ++ offending :: rest ∧
      List.Forall₂ (fun placed descriptor =>
        placed.resolve file.package ⟨file.locations, paths⟩ = .ok descriptor) before descriptors ∧
      offending.resolve file.package ⟨file.locations, paths⟩ = .error cause ∧
      after = descriptors.foldl add registry := by
  obtain ⟨descriptors, others, results, rfl⟩ := exists_split_of_addResolved failed
  rw [file.resolve_eq_map, List.map_eq_append_iff] at results
  obtain ⟨before, later, split, resolved, stopped⟩ := results
  obtain ⟨offending, rest, rfl, own, -⟩ := List.map_eq_cons_iff.mp stopped
  refine ⟨before, offending, rest, descriptors, split, ?_, own, rfl⟩
  rwa [← List.forall₂_eq_eq_eq, List.forall₂_map_left_iff, List.forall₂_map_right_iff] at resolved

private theorem addFile_fails_iff :
    (∃ cause after, registry.addFile file paths = (.error cause, after)) ↔
      ∃ placed, file.Declares placed ∧ placed.declaration.HasStray := by
  constructor
  · intro ⟨cause, after, failed⟩
    obtain ⟨before, offending, rest, -, split, -, own, -⟩ := exists_split_of_addFile failed
    obtain ⟨message, declared, fails⟩ := PlacedType.failsWith_of_resolve own
    refine ⟨offending, FileDeclaration.mem_placedTypes_iff.mp ?_, ?_⟩
    · rw [split]
      exact List.mem_append_right _ List.mem_cons_self
    · rw [declared]
      exact fails.exists_isStray
  · intro ⟨placed, declares, stray⟩
    rcases ran : registry.addFile file paths with ⟨cause | done, after⟩
    · exact ⟨cause, after, rfl⟩
    · obtain ⟨descriptors, resolved, -⟩ := addFile_eq_ok_iff.mp ran
      obtain ⟨descriptor, -, own⟩ := exists_right_of_forall₂ resolved
        (FileDeclaration.mem_placedTypes_iff.mpr declares)
      exact absurd stray (PlacedType.not_hasStray_of_resolve own)

/-- Without its stray references a file is registered. -/
theorem exists_addFile_repaired (registry : Registry) (file : FileDeclaration)
    (paths : List SourcePath) :
    ∃ full, registry.addFile file.repaired paths = (.ok (), full) := by
  rcases ran : registry.addFile file.repaired paths with ⟨cause | done, after⟩
  · obtain ⟨placed, declares, stray⟩ := addFile_fails_iff.mp ⟨cause, after, ran⟩
    have listed := FileDeclaration.mem_placedTypes_iff.mpr declares
    rw [file.placedTypes_repaired] at listed
    obtain ⟨original, -, rfl⟩ := List.mem_map.mp listed
    exact absurd stray original.declaration.not_hasStray_repaired
  · exact ⟨after, rfl⟩

/-- Registries that hold the same under a name answer its lookups alike. -/
theorem lookups_eq {left right : Registry} {name : String}
    (same : ∀ sort, left.held? (sort, QualifiedName.strip name) =
      right.held? (sort, QualifiedName.strip name)) :
    left.message? name = right.message? name ∧ left.enumeration? name = right.enumeration? name ∧
      left.service? name = right.service? name :=
  ⟨getElem?_messages_eq (same .message), getElem?_enumerations_eq (same .enumeration),
    getElem?_services_eq (same .service)⟩

/-- Before a failure the types before the offending one are registered as they are in the repaired
file, and nothing else is. -/
theorem held?_of_split (distinct : (file.typeNames.map QualifiedName.strip).Nodup)
    {full : Registry} (repaired : registry.addFile file.repaired paths = (.ok (), full))
    {before later : List PlacedType} {descriptors : List Descriptor}
    (split : file.placedTypes = before ++ later)
    (resolved : List.Forall₂ (fun placed descriptor =>
      placed.resolve file.package ⟨file.locations, paths⟩ = .ok descriptor) before descriptors)
    (key : DescriptorKey) :
    (descriptors.foldl add registry).held? key =
      if key ∈ before.map (PlacedType.key file.package) then full.held? key
      else registry.held? key := by
  have keys := map_key_of_resolved resolved
  split
  · rename_i listed
    obtain ⟨placed, member, rfl⟩ := List.mem_map.mp listed
    obtain ⟨descriptor, registered, own⟩ := exists_right_of_forall₂ resolved member
    have unlike : (descriptors.map Descriptor.key).Nodup := by
      have all := file.nodup_keys distinct
      rw [split, List.map_append] at all
      rw [keys]
      exact (List.nodup_append.mp all).1
    have inRepaired : placed.repaired ∈ file.repaired.placedTypes := by
      rw [file.placedTypes_repaired, split]
      exact List.mem_map_of_mem (List.mem_append_left _ member)
    obtain ⟨twin, again, held⟩ :=
      exists_held (file.typeNames_repaired ▸ distinct) repaired inRepaired
    -- what could be resolved has no stray field, so the repair does not touch it
    rw [PlacedType.resolve_repaired (PlacedType.not_hasStray_of_resolve own)] at again
    obtain rfl := Except.ok.inj (again.symm.trans own)
    rw [PlacedType.key_repaired] at held
    refine Eq.trans ?_ held.symm
    rw [← PlacedType.key_of_resolve own]
    exact held?_foldl_add_of_mem unlike registered
  · rename_i absent
    rw [← keys] at absent
    exact held?_foldl_add_of_not_mem absent

/-- Neither the message at which a file fails nor a message around it is registered before. -/
theorem not_mem_names_of_prefix (distinct : (file.typeNames.map QualifiedName.strip).Nodup)
    {before rest : List PlacedType} {offending outer : PlacedType}
    (split : file.placedTypes = before ++ offending :: rest) (declares : file.Declares outer)
    (around : outer.path <+: offending.path) :
    QualifiedName.strip (outer.fullName file.package) ∉
      before.map fun placed => QualifiedName.strip (placed.fullName file.package) := by
  intro listed
  obtain ⟨placed, member, same⟩ := List.mem_map.mp listed
  have leaves := file.pairwise_placedTypes
  have declared := FileDeclaration.mem_placedTypes_iff.mpr declares
  rw [FileDeclaration.typeNames, List.map_map, split, List.map_append] at distinct
  rw [split] at leaves declared
  -- the outer message cannot come earlier, as it begins the way to the offending one
  rcases List.mem_append.mp declared with early | late
  · exact (List.pairwise_append.mp leaves).2.2 outer early offending List.mem_cons_self around
  · exact (List.nodup_append.mp distinct).2.2 _ (List.mem_map_of_mem member) _
      (List.mem_map_of_mem late) same

/-- A file fails exactly if a field of one of its messages is stray. It fails at the first such
field in the order of registration. The types before its message are then registered as they are in
the file without stray references and all else is left alone: lookups of names that the file does
not declare, of that message and of the messages around it find what they found before. -/
theorem addFile_stray (registry : Registry) (file : FileDeclaration) (paths : List SourcePath)
    (distinct : (file.typeNames.map QualifiedName.strip).Nodup) :
    ((∃ cause after, registry.addFile file paths = (.error cause, after)) ↔
      ∃ placed, file.Declares placed ∧ placed.declaration.HasStray) ∧
    ∃ full, registry.addFile file.repaired paths = (.ok (), full) ∧
    ∀ cause after, registry.addFile file paths = (.error cause, after) →
      ∃ before offending rest message, file.placedTypes = before ++ offending :: rest ∧
        (∀ earlier ∈ before, ¬ earlier.declaration.HasStray) ∧
        offending.declaration = .message message ∧ message.FailsWith cause ∧
        (∀ key, after.held? key =
          if key ∈ before.map (PlacedType.key file.package) then full.held? key
          else registry.held? key) ∧
        ∀ name, (QualifiedName.strip name ∉ file.typeNames.map QualifiedName.strip ∨
            ∃ outer, file.Declares outer ∧ outer.path <+: offending.path ∧
              QualifiedName.strip name = QualifiedName.strip (outer.fullName file.package)) →
          after.message? name = registry.message? name ∧
            after.enumeration? name = registry.enumeration? name ∧
            after.service? name = registry.service? name := by
  refine ⟨addFile_fails_iff, ?_⟩
  obtain ⟨full, repaired⟩ := registry.exists_addFile_repaired file paths
  refine ⟨full, repaired, ?_⟩
  intro cause after failed
  obtain ⟨before, offending, rest, descriptors, split, resolved, own, rfl⟩ :=
    exists_split_of_addFile failed
  obtain ⟨message, declared, fails⟩ := PlacedType.failsWith_of_resolve own
  have held := held?_of_split distinct repaired split resolved
  refine ⟨before, offending, rest, message, split, ?_, declared, fails, held, ?_⟩
  · intro earlier listed
    obtain ⟨descriptor, -, resolves⟩ := exists_right_of_forall₂ resolved listed
    exact PlacedType.not_hasStray_of_resolve resolves
  · intro name untouched
    have absent : QualifiedName.strip name ∉
        before.map fun placed => QualifiedName.strip (placed.fullName file.package) := by
      rcases untouched with foreign | ⟨outer, declares, around, same⟩
      · intro listed
        rw [FileDeclaration.typeNames, List.map_map, split, List.map_append] at foreign
        exact foreign (List.mem_append_left _ listed)
      · rw [same]
        exact not_mem_names_of_prefix distinct split declares around
    apply lookups_eq
    intro sort
    rw [held, if_neg]
    intro listed
    obtain ⟨placed, member, same⟩ := List.mem_map.mp listed
    exact absent (List.mem_map.mpr ⟨placed, member, (Prod.mk.inj same).2⟩)

end Registry

namespace Cages

def registry : Registry :=
  Registry.empty.addMessage { fullName := "zoo.Cage", comment := some "As it was." }

/-- The second message inside the cage has a field in a oneof that it does not declare. -/
def cage : MessageDeclaration where
  name := "Cage"
  nested := [
    { name := "Lock" },
    { name := "Door", oneofs := ["way"], fields := [
      { name := "sliding", number := 1, oneofIndex := some 0 },
      { name := "hinged", number := 2, oneofIndex := some 1 }] }]

def file : FileDeclaration where
  package := "zoo"
  messages := [{ name := "Keeper" }, cage]
  enumerations := [{ name := "Shift" }]

def after : Registry := (registry.addFile file []).2

end Cages

open Cages in
/-- The cage stays as it was, the types before its door are registered, and what the file does not
declare is left alone. -/
theorem Registry.addFile_stray_cage :
    (file.typeNames.map QualifiedName.strip).Nodup ∧
    Cages.registry.addFile file [] = (.error (.missingOneof "hinged" 1), after) ∧
    after.message? "zoo.Cage" = some { fullName := "zoo.Cage", comment := some "As it was." } ∧
    after.message? "zoo.Cage.Lock" = some { fullName := "zoo.Cage.Lock" } ∧
    after.message? "zoo.Visitor" = Cages.registry.message? "zoo.Visitor" ∧
    ∃ placed, file.Declares placed ∧ placed.declaration.HasStray := by
  have distinct : (file.typeNames.map QualifiedName.strip).Nodup := by decide +kernel
  have failed : Cages.registry.addFile file [] = (.error (.missingOneof "hinged" 1), after) :=
    Prod.ext (by decide +kernel) rfl
  obtain ⟨fails, full, -, stops⟩ := Registry.addFile_stray Cages.registry file [] distinct
  obtain ⟨before, offending, rest, message, -, -, -, -, -, untouched⟩ := stops _ _ failed
  have foreign : QualifiedName.strip "zoo.Visitor" ∉ file.typeNames.map QualifiedName.strip := by
    decide +kernel
  exact ⟨distinct, failed, by decide +kernel, by decide +kernel, (untouched _ (.inl foreign)).1,
    fails.mp ⟨_, _, failed⟩⟩

end ToolContract
