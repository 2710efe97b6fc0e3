import ToolContract.Proofs.FileDescriptor.Resolution

/-!
# Annotations of fields

The declarations of a set of files and the marks of required fields are read from the same bytes by
two grammars and joined by position. Nothing shifts one against the other: a registered field is
marked exactly if its own label or the options in the bytes of its own declaration say so, and
reading the set without the marks yields the same types (`Registry.ofBytes_annotations`).
-/

set_option autoImplicit false

namespace ToolContract

/-! ## Declarations in bytes -/

section Read

variable {δ : Type}

/-- The bytes are decoded to a record that stands for the declaration. -/
def DescriptorElement.Reads (element : DescriptorElement) (convert : WireRecord → δ)
    (declaration : δ) (bytes : List UInt8) : Prop :=
  ∃ record, DescriptorElement.grammar.Decodes element bytes record ∧ convert record = declaration

def FieldDeclaration.IsRead : FieldDeclaration → List UInt8 → Prop :=
  DescriptorElement.field.Reads FieldDeclaration.ofRecord

def MessageDeclaration.IsRead : MessageDeclaration → List UInt8 → Prop :=
  DescriptorElement.message.Reads MessageDeclaration.ofRecord

def FileDeclaration.IsRead : FileDeclaration → List UInt8 → Prop :=
  DescriptorElement.file.Reads FileDeclaration.ofRecord

/-- The parts of a declaration are read from the parts of its bytes. -/
theorem Grammar.Decodes.reads {element inner : DescriptorElement} {bytes : List UInt8}
    {record : WireRecord} {number : Nat} {repeated : Bool}
    (decodes : DescriptorElement.grammar.Decodes element bytes record)
    (rule : DescriptorElement.grammar element number = some ⟨.record inner, repeated⟩)
    (convert : WireRecord → δ) :
    List.Forall₂ (inner.Reads convert) ((record.records number).map convert)
      ((RawRecord.ofBytes bytes).payloads number) :=
  List.forall₂_map_left_iff.mpr
    ((decodes.records rule).flip.imp fun record _ decodes => ⟨record, decodes, rfl⟩)

end Read

private theorem MessageDeclaration.fields_ofRecord (record : WireRecord) :
    (ofRecord record).fields = (record.records 2).map FieldDeclaration.ofRecord := by
  rw [ofRecord]

private theorem MessageDeclaration.nested_ofRecord (record : WireRecord) :
    (ofRecord record).nested = (record.records 3).map ofRecord := by
  rw [ofRecord]
  exact List.attach_map_val ..

private theorem MessageDeclaration.IsRead.fields {message : MessageDeclaration} {bytes : List UInt8}
    (read : message.IsRead bytes) :
    List.Forall₂ FieldDeclaration.IsRead message.fields
      ((RawRecord.ofBytes bytes).payloads 2) := by
  obtain ⟨record, decodes, rfl⟩ := read
  have rule : DescriptorElement.grammar .message 2 = some ⟨.record .field, true⟩ := rfl
  rw [fields_ofRecord]
  exact decodes.reads rule _

private theorem MessageDeclaration.IsRead.nested {message : MessageDeclaration} {bytes : List UInt8}
    (read : message.IsRead bytes) :
    List.Forall₂ MessageDeclaration.IsRead message.nested
      ((RawRecord.ofBytes bytes).payloads 3) := by
  obtain ⟨record, decodes, rfl⟩ := read
  have rule : DescriptorElement.grammar .message 3 = some ⟨.record .message, true⟩ := rfl
  rw [nested_ofRecord]
  exact decodes.reads rule _

private theorem FileDeclaration.IsRead.messages {file : FileDeclaration} {bytes : List UInt8}
    (read : file.IsRead bytes) :
    List.Forall₂ MessageDeclaration.IsRead file.messages
      ((RawRecord.ofBytes bytes).payloads 4) := by
  obtain ⟨record, decodes, rfl⟩ := read
  have rule : DescriptorElement.grammar .file 4 = some ⟨.record .message, true⟩ := rfl
  exact decodes.reads rule _

/-! ## Declared messages with their bytes -/

/-- A message as it is declared: its name inside the scopes around it, its declaration, and the
bytes that stand at its place. -/
structure DeclaredMessage where
  fullName : String
  declaration : MessageDeclaration
  bytes : List UInt8

namespace MessageDeclaration

mutual

/-- The messages declared by a message that stands at the place of the bytes, in the order of their
registration: those inside it that are no entries of maps, and itself. -/
def declared (scope : String) : MessageDeclaration → List UInt8 → List DeclaredMessage
  | ⟨name, fields, nested, enumerations, oneofs, isMapEntry⟩, bytes =>
    declaredNested (QualifiedName.join scope name) nested ((RawRecord.ofBytes bytes).payloads 3)
      ++ [⟨QualifiedName.join scope name,
        ⟨name, fields, nested, enumerations, oneofs, isMapEntry⟩, bytes⟩]

def declaredNested (scope : String) :
    List MessageDeclaration → List (List UInt8) → List DeclaredMessage
  | message :: rest, bytes :: others =>
    (if message.isMapEntry then [] else declared scope message bytes)
      ++ declaredNested scope rest others
  | _, _ => []

end

end MessageDeclaration

def FileDeclaration.declared (file : FileDeclaration) (bytes : List UInt8) :
    List DeclaredMessage :=
  (file.messages.zip ((RawRecord.ofBytes bytes).payloads 4)).flatMap fun (message, part) =>
    message.declared file.package part

/-- The messages declared by the files in the bytes of a set. -/
def FileDeclaration.declaredInSet (files : List FileDeclaration) (bytes : List UInt8) :
    List DeclaredMessage :=
  (files.zip ((RawRecord.ofBytes bytes).payloads 1)).flatMap fun (file, part) => file.declared part

/-! ## Fields and messages that agree with their bytes -/

/-- The field is the one that is declared in the bytes, and it is marked exactly if it is declared
with the label of a required field or its options hold the mark. -/
structure Field.AgreesWith (field : Field) (declaration : FieldDeclaration) (bytes : List UInt8) :
    Prop where
  read : declaration.IsRead bytes
  name : field.name = declaration.name
  marked : field.markedRequired = true ↔
    declaration.label = some requiredLabel ∨ IsMarked bytes

/-- The message has the fields that are declared in the bytes, each at its place. -/
structure Message.AgreesWith (message : Message) (declared : DeclaredMessage) : Prop where
  read : declared.declaration.IsRead declared.bytes
  length : message.fields.length = declared.declaration.fields.length
  fields : ∀ (index : Nat) (field : Field), message.fields[index]? = some field →
    ∃ declaration bytes, declared.declaration.fields[index]? = some declaration ∧
      ((RawRecord.ofBytes declared.bytes).payloads 2)[index]? = some bytes ∧
        field.AgreesWith declaration bytes

/-- The result, if it is a message, is that of the declared message. -/
def ResultsFrom (result : Except DescriptorError Message) (declared : DeclaredMessage) : Prop :=
  ∀ message, result = .ok message →
    message.fullName = declared.fullName ∧ message.AgreesWith declared

/-! ## Resolving fields -/

theorem FieldDeclaration.resolve_eq_ok {declaration : FieldDeclaration} {oneofs : List String}
    {maps : Entries MapKinds} {comment : Option String} {isMarked : Bool} {field : Field}
    (resolved : declaration.resolve oneofs maps comment isMarked = .ok field) :
    field.name = declaration.name ∧
      (field.markedRequired = true ↔ declaration.label = some requiredLabel ∨ isMarked = true) := by
  unfold resolve at resolved
  split at resolved <;> cases resolved
  exact ⟨rfl, by simp⟩

/-- Each declaration is resolved with the mark of its own place. -/
theorem FieldDeclaration.resolveAll_eq_ok {notes : SourceNotes} {path : SourcePath}
    {oneofs : List String} {maps : Entries MapKinds} {start : Nat}
    {declarations : List FieldDeclaration} {fields : List Field}
    (resolved : resolveAll notes path oneofs maps start declarations = .ok fields) :
    fields.length = declarations.length ∧
      ∀ (index : Nat) (field : Field), fields[index]? = some field →
        ∃ declaration, declarations[index]? = some declaration ∧ field.name = declaration.name ∧
          (field.markedRequired = true ↔ declaration.label = some requiredLabel ∨
            path ++ [2, ((start + index : Nat) : Int)] ∈ notes.requiredPaths) := by
  induction declarations generalizing start fields with
  | nil =>
    cases resolved
    exact ⟨rfl, by simp⟩
  | cons declaration rest ih =>
    rw [resolveAll_cons] at resolved
    obtain ⟨head, tail, first, later, rfl⟩ := bind_cons_eq_ok resolved
    obtain ⟨length, each⟩ := ih later
    refine ⟨by simp [length], fun index field found => ?_⟩
    cases index with
    | zero =>
      obtain rfl := Option.some.inj found
      obtain ⟨name, marked⟩ := resolve_eq_ok first
      refine ⟨declaration, rfl, name, ?_⟩
      rw [marked, SourceNotes.isRequired, List.contains_iff_mem]
      rfl
    | succ index =>
      obtain ⟨other, stored, name, marked⟩ := each index field found
      rw [Nat.add_assoc, Nat.add_comm 1] at marked
      exact ⟨other, stored, name, marked⟩

/-! ## Resolving messages -/

/-- What comes of the messages among the results. -/
def messageResults (results : List (Except DescriptorError Descriptor)) :
    List (Except DescriptorError Message) :=
  results.filterMap fun
    | .ok (.message message) => some (.ok message)
    | .ok _ => none
    | .error cause => some (.error cause)

theorem messageResults_append (results others : List (Except DescriptorError Descriptor)) :
    messageResults (results ++ others) = messageResults results ++ messageResults others :=
  List.filterMap_append

theorem messageResults_enumerations (notes : SourceNotes) (scope : String) (path : SourcePath)
    (number : Int) (enumerations : List EnumDeclaration) :
    messageResults (EnumDeclaration.resolveAll notes scope path number enumerations) = [] := by
  simp [messageResults, EnumDeclaration.resolveAll, EnumDeclaration.resolve]

theorem messageResults_singleton (fields : Except DescriptorError (List Field))
    (make : List Field → Message) :
    messageResults [fields.map fun fields => .message (make fields)] = [fields.map make] := by
  cases fields <;> rfl

section Resolve

variable {notes : SourceNotes}

/-- A message itself agrees with its bytes if the marks collected below its path are those of the
bytes. -/
theorem MessageDeclaration.resultsFrom {message : MessageDeclaration} {bytes : List UInt8}
    (read : message.IsRead bytes) {path : SourcePath}
    (marks : ∀ suffix, path ++ suffix ∈ notes.requiredPaths ↔ MarkedAt bytes suffix)
    (fullName : String) (comment : Option String) (oneofs : List String)
    (maps : Entries MapKinds) :
    ResultsFrom
      ((FieldDeclaration.resolveAll notes path oneofs maps 0 message.fields).map fun fields =>
        ⟨fullName, fields, comment⟩) ⟨fullName, message, bytes⟩ := by
  intro held resolved
  cases all : FieldDeclaration.resolveAll notes path oneofs maps 0 message.fields with
  | error => simp [all, Except.map] at resolved
  | ok fields =>
    simp only [all, Except.map, Except.ok.injEq] at resolved
    subst resolved
    obtain ⟨length, each⟩ := FieldDeclaration.resolveAll_eq_ok all
    refine ⟨rfl, read, length, fun index field found => ?_⟩
    obtain ⟨declaration, stored, name, marked⟩ := each index field found
    obtain ⟨part, placed, fieldRead⟩ := exists_right_getElem? read.fields stored
    refine ⟨declaration, part, stored, placed, fieldRead, name, ?_⟩
    rw [marked, Nat.zero_add, marks, markedAt_field_iff]
    simp [placed]

mutual

private theorem MessageDeclaration.resolve_resultsFrom (scope : String) (path : SourcePath) :
    ∀ (message : MessageDeclaration) {bytes : List UInt8}, message.IsRead bytes →
      (∀ suffix, path ++ suffix ∈ notes.requiredPaths ↔ MarkedAt bytes suffix) →
        List.Forall₂ ResultsFrom (messageResults (message.resolve notes scope path))
          (message.declared scope bytes)
  | ⟨name, fields, nested, enumerations, oneofs, isMapEntry⟩, bytes, read, marks => by
    have inside := MessageDeclaration.resolveNested_resultsFrom (QualifiedName.join scope name)
      path 0 nested read.nested fun index suffix => by
        rw [Nat.zero_add, marks, markedAt_nested_iff]
    have own := MessageDeclaration.resultsFrom read marks (QualifiedName.join scope name)
      (notes.comment? path) oneofs (maps ⟨name, fields, nested, enumerations, oneofs, isMapEntry⟩ (QualifiedName.join scope name))
    rw [resolve_eq, messageResults_append, messageResults_append, messageResults_enumerations,
      List.append_nil, messageResults_singleton, declared]
    exact List.rel_append inside (.cons own .nil)

private theorem MessageDeclaration.resolveNested_resultsFrom (scope : String) (path : SourcePath) :
    ∀ (start : Nat) (nested : List MessageDeclaration) {parts : List (List UInt8)},
      List.Forall₂ MessageDeclaration.IsRead nested parts →
        (∀ (index : Nat) suffix,
          path ++ 3 :: ((start + index : Nat) : Int) :: suffix ∈ notes.requiredPaths ↔
            ∃ part, parts[index]? = some part ∧ MarkedAt part suffix) →
          List.Forall₂ ResultsFrom (messageResults (resolveNested notes scope path start nested))
            (declaredNested scope nested parts)
  | _, [], _, reads, _ => by
    cases reads
    rw [resolveNested, declaredNested]
    · exact .nil
    · nofun
  | start, message :: rest, _, reads, marks => by
    cases reads with
    | @cons _ part _ parts read reads =>
      have later := MessageDeclaration.resolveNested_resultsFrom scope path (start + 1) rest reads
        fun index suffix => by
          rw [Nat.add_assoc, Nat.add_comm 1, marks]
          rfl
      have here : ∀ suffix, path.child 3 start ++ suffix ∈ notes.requiredPaths ↔
          MarkedAt part suffix := fun suffix => by
        rw [SourcePath.child, List.append_assoc]
        simpa using marks 0 suffix
      rw [resolveNested, declaredNested, messageResults_append]
      -- an entry of a map takes up an index but is no message
      refine List.rel_append ?_ later
      by_cases entry : message.isMapEntry
      · rw [if_pos entry, if_pos entry]
        exact .nil
      · rw [if_neg entry, if_neg entry]
        exact MessageDeclaration.resolve_resultsFrom scope _ message read here

end

end Resolve

/-! ## Resolving files -/

theorem messageResults_services (notes : SourceNotes) (scope : String)
    (services : List (ServiceDeclaration × Nat)) :
    messageResults (services.map fun (service, index) =>
      .ok (service.resolve notes scope (SourcePath.child [] 6 index))) = [] := by
  simp [messageResults, ServiceDeclaration.resolve]

private theorem FileDeclaration.resolve_resultsFrom {file : FileDeclaration} {bytes : List UInt8}
    (read : file.IsRead bytes) {marks : WireRecord}
    (decodes : MarkElement.grammar.Decodes .file bytes marks) :
    List.Forall₂ ResultsFrom (messageResults (file.resolve (requiredPathsOfFile marks)))
      (file.declared bytes) := by
  rw [FileDeclaration.resolve, messageResults_append, messageResults_append,
    messageResults_enumerations, messageResults_services, List.append_nil, List.append_nil,
    FileDeclaration.declared, messageResults, List.filterMap_flatMap]
  refine List.rel_flatMap (zipIdx_related_zip read.messages) ?_
  rintro ⟨message, index⟩ ⟨_, part⟩ ⟨rfl, messageRead, placed⟩
  refine message.resolve_resultsFrom _ _ messageRead fun suffix => ?_
  rw [mem_requiredPathsOfFile_iff decodes]
  simp [placed]

/-- The files are read from the parts of the set, and their marks from the same parts. -/
theorem resultsFrom_withRequiredPaths {files : List FileDeclaration} {parts : List (List UInt8)}
    {marks : List WireRecord} (reads : List.Forall₂ FileDeclaration.IsRead files parts)
    (decodes : List.Forall₂ (MarkElement.grammar.Decodes .file) parts marks) :
    List.Forall₂ ResultsFrom
      (messageResults ((withRequiredPaths files (marks.map requiredPathsOfFile)).flatMap
        fun file => file.1.resolve file.2))
      ((files.zip parts).flatMap fun (file, part) => file.declared part) := by
  induction reads generalizing marks with
  | nil => exact .nil
  | cons read _ ih =>
    cases decodes with
    | cons decoded decodes =>
      rw [List.map_cons, withRequiredPaths, List.flatMap_cons, List.zip_cons_cons,
        List.flatMap_cons, messageResults_append]
      exact List.rel_append (FileDeclaration.resolve_resultsFrom read decoded) (ih decodes)

/-! ## Registered messages -/

def Descriptor.message? : Descriptor → Option Message
  | .message held => some held
  | _ => none

theorem messageResults_map_ok (descriptors : List Descriptor) :
    messageResults (descriptors.map .ok) = (descriptors.filterMap Descriptor.message?).map .ok := by
  rw [messageResults, List.filterMap_map, List.map_filterMap]
  refine List.filterMap_congr fun descriptor _ => ?_
  cases descriptor <;> rfl

private theorem Registry.messages_addMessage (registry : Registry) (message : Message)
    (name : String) :
    (registry.addMessage message).messages[name]? =
      if QualifiedName.strip message.fullName = name then some { message with fullName := name }
      else registry.messages[name]? := by
  simp only [addMessage, Std.ExtTreeMap.getElem?_insert, Std.compare_eq_iff_eq]
  split
  · rename_i same
    rw [same]
  · rfl

/-- Of the messages that are registered under one name the last one stays. -/
theorem Registry.messages_foldl_add (registry : Registry) (descriptors : List Descriptor)
    (name : String) :
    (descriptors.foldl add registry).messages[name]? =
      (((descriptors.filterMap Descriptor.message?).reverse.find? fun message =>
        QualifiedName.strip message.fullName = name).map fun message =>
          { message with fullName := name }).or registry.messages[name]? := by
  induction descriptors generalizing registry with
  | nil => rfl
  | cons descriptor rest ih =>
    rw [List.foldl_cons, ih]
    cases descriptor with
    | message held =>
      have listed : (Descriptor.message held :: rest).filterMap Descriptor.message? =
          held :: rest.filterMap Descriptor.message? := rfl
      rw [listed, List.reverse_cons, List.find?_append, Registry.add, messages_addMessage]
      generalize (rest.filterMap Descriptor.message?).reverse.find? _ = later
      cases later with
      | some => rfl
      | none =>
        by_cases named : QualifiedName.strip held.fullName = name
        · simp [named]
        · simp [named]
    | enumeration => rfl
    | service => rfl

/-- Registering files that are resolved with their marks leaves under each name the last message
that is declared with it. -/
theorem Registry.messages_of_resultsFrom {descriptors : List Descriptor}
    {declared : List DeclaredMessage}
    (pairs : List.Forall₂ ResultsFrom (messageResults (descriptors.map .ok)) declared)
    (name : String) :
    Option.Rel Message.AgreesWith (descriptors.foldl add empty).messages[name]?
      (declared.reverse.find? fun message => QualifiedName.strip message.fullName = name) := by
  rw [messageResults_map_ok, List.forall₂_map_left_iff] at pairs
  have found : Option.Rel (fun message declared => ResultsFrom (.ok message) declared)
      ((descriptors.filterMap Descriptor.message?).reverse.find? fun message =>
        QualifiedName.strip message.fullName = name)
      (declared.reverse.find? fun message => QualifiedName.strip message.fullName = name) :=
    find?_related (List.rel_reverse pairs) fun message _ agrees => by rw [(agrees message rfl).1]
  have none : empty.messages[name]? = none := Std.ExtTreeMap.getElem?_empty
  rw [messages_foldl_add, none, Option.or_none]
  generalize (descriptors.filterMap Descriptor.message?).reverse.find? _ = resolved at found ⊢
  generalize declared.reverse.find? _ = last at found ⊢
  cases found with
  | none => exact .none
  | some agrees =>
    -- what is registered is renamed, which does not touch the fields
    obtain ⟨-, read, length, fields⟩ := agrees _ rfl
    exact .some ⟨read, length, fields⟩

/-! ## Reading sets of files -/

theorem FileDeclaration.decodeSet_eq_ok {bytes : List UInt8} {files : List FileDeclaration}
    (decoded : decodeSet bytes = .ok files) :
    List.Forall₂ FileDeclaration.IsRead files ((RawRecord.ofBytes bytes).payloads 1) := by
  unfold decodeSet at decoded
  split at decoded
  · rename_i record read
    cases decoded
    have decodes : DescriptorElement.grammar.Decodes .fileSet bytes record := ⟨_, Nat.le_refl _, read⟩
    have rule : DescriptorElement.grammar .fileSet 1 = some ⟨.record .file, true⟩ := rfl
    exact decodes.reads rule _
  · cases decoded

theorem decodeRequiredPaths_eq_ok {bytes : List UInt8} {paths : List (List SourcePath)}
    (decoded : decodeRequiredPaths bytes = .ok paths) :
    ∃ marks, paths = marks.map requiredPathsOfFile ∧
      List.Forall₂ (MarkElement.grammar.Decodes .file) ((RawRecord.ofBytes bytes).payloads 1)
        marks := by
  unfold decodeRequiredPaths at decoded
  split at decoded
  · rename_i record read
    cases decoded
    have decodes : MarkElement.grammar.Decodes .fileSet bytes record := ⟨_, Nat.le_refl _, read⟩
    have rule : MarkElement.grammar .fileSet 1 = some ⟨.record .file, true⟩ := rfl
    exact ⟨_, rfl, decodes.records rule⟩
  · cases decoded

private theorem map_fst_withRequiredPaths (files : List FileDeclaration)
    (paths : List (List SourcePath)) :
    (withRequiredPaths files paths).map Prod.fst = files := by
  fun_induction withRequiredPaths files paths with
  | case1 => rfl
  | case2 file files ih => rw [List.map_cons, ih]
  | case3 file files paths rest ih => rw [List.map_cons, ih]

namespace Registry

theorem ofBytes_eq_ok {bytes : List UInt8} {registry : Registry}
    (read : ofBytes bytes = .ok registry) :
    ∃ files paths, FileDeclaration.decodeSet bytes = .ok files ∧
      decodeRequiredPaths bytes = .ok paths ∧
        empty.addFiles (withRequiredPaths files paths) = .ok registry := by
  unfold ofBytes at read
  cases decoded : FileDeclaration.decodeSet bytes with
  | error => simp [decoded, bind, Except.bind] at read
  | ok files =>
    cases found : decodeRequiredPaths bytes with
    | error => simp [decoded, found, bind, Except.bind] at read
    | ok paths =>
      rw [decoded, found] at read
      exact ⟨files, paths, rfl, rfl, read⟩

/-- Files whose bytes can be read with the marks of required fields can also be read without them,
to the same types but for the marks; and with them, each message is the last one declared with its
name, and each of its fields is marked exactly if it is declared with the label of a required field
or the options in the bytes at its place hold the mark. -/
theorem ofBytes_annotations {bytes : List UInt8} {registry : Registry}
    (read : ofBytes bytes = .ok registry) :
    ∃ files unmarked, FileDeclaration.decodeSet bytes = .ok files ∧
      ofUnmarkedBytes bytes = .ok unmarked ∧ registry.SameButMarks unmarked ∧
        ∀ name : String, Option.Rel Message.AgreesWith registry.messages[name]?
          ((FileDeclaration.declaredInSet files bytes).reverse.find? fun message =>
            QualifiedName.strip message.fullName = name) := by
  obtain ⟨files, paths, decoded, found, added⟩ := ofBytes_eq_ok read
  obtain ⟨unmarked, plain, same⟩ := addFiles_sameButMarks
    ((map_fst_withRequiredPaths files paths).trans (map_fst_withRequiredPaths files []).symm) added
  -- the marks are those of the parts from which the files are read
  obtain ⟨marks, rfl, decodes⟩ := decodeRequiredPaths_eq_ok found
  have pairs := resultsFrom_withRequiredPaths (FileDeclaration.decodeSet_eq_ok decoded) decodes
  obtain ⟨descriptors, resolved, rfl⟩ := addFiles_eq_ok_iff.mp added
  rw [resolved] at pairs
  refine ⟨files, unmarked, decoded, ?_, same, messages_of_resultsFrom pairs⟩
  rw [ofUnmarkedBytes, decoded]
  exact plain

/-- One file with a message in which an entry of a map stands before a message with two fields. The
options of the first field are written twice, with the mark in a packed list in the second. -/
def markedAfterMapEntry : List UInt8 :=
  [10, 37, 34, 35, 10, 1, 77, 26, 4, 58, 2, 56, 1, 26, 24, 10, 1, 73, 18, 14, 10, 1, 97, 66, 3,
    224, 65, 1, 66, 4, 226, 65, 1, 2, 18, 3, 10, 1, 98]

theorem ofBytes_annotations_after_map_entry :
    ∃ registry, ofBytes markedAfterMapEntry = .ok registry ∧
      registry.messageList =
        [⟨"M", [], none⟩,
          ⟨"M.I", [{ name := "a", kind := .scalar .double, markedRequired := true },
            { name := "b", kind := .scalar .double }], none⟩] ∧
      ∃ files unmarked, FileDeclaration.decodeSet markedAfterMapEntry = .ok files ∧
        ofUnmarkedBytes markedAfterMapEntry = .ok unmarked ∧ registry.SameButMarks unmarked ∧
          ∀ name : String, Option.Rel Message.AgreesWith registry.messages[name]?
            ((FileDeclaration.declaredInSet files markedAfterMapEntry).reverse.find? fun message =>
              QualifiedName.strip message.fullName = name) := by
  have evaluated : (ofBytes markedAfterMapEntry).toOption.map messageList =
      some [⟨"M", [], none⟩,
        ⟨"M.I", [{ name := "a", kind := .scalar .double, markedRequired := true },
          { name := "b", kind := .scalar .double }], none⟩] := by decide +kernel
  cases read : ofBytes markedAfterMapEntry with
  | error => simp [read, Except.toOption] at evaluated
  | ok registry =>
    rw [read] at evaluated
    exact ⟨registry, rfl, Option.some.inj evaluated, ofBytes_annotations read⟩

end Registry

end ToolContract
