import ToolContract.Proofs.Contract.Dots
import ToolContract.Proofs.FileDescriptor.Names

/-!
# What a file registers

A file whose names are pairwise different and plain registers exactly the types that it declares,
each under the dotted path of its package, the messages around it and its own name. Each field of a
message comes of its own declaration: it is a map only if it lists the entries of one that its own
message declares (`Registry.registered_types`).
-/

set_option autoImplicit false

namespace ToolContract

/-! ## Plain names -/

namespace QualifiedName

private theorem strip_of_plain {name : String} (plain : Plain name) : strip name = name := by
  have kept : name.toList.dropWhile (· = '.') = name.toList := by
    rw [Plain] at plain
    cases chars : name.toList with
    | nil => rfl
    | cons first rest =>
      rw [chars] at plain
      exact List.dropWhile_cons_of_neg (by simpa using plain)
  rw [strip, kept, String.ofList_toList]

private theorem plain_append {left right : String} (nonempty : left ≠ "") (plain : Plain left) :
    Plain (left ++ right) := by
  rw [Plain] at plain ⊢
  rw [String.toList_append]
  cases chars : left.toList with
  | nil => exact absurd (String.toList_eq_nil_iff.mp chars) nonempty
  | cons first rest =>
    rw [chars] at plain
    exact plain

instance (name : String) : Decidable (Plain name) :=
  inferInstanceAs (Decidable (_ ≠ _))

private theorem plain_join {scope name : String} (plainScope : Plain scope)
    (plainName : Plain name) :
    Plain (join scope name) := by
  unfold join
  split
  · exact plainName
  · rename_i nonempty
    rw [String.append_assoc]
    exact plain_append nonempty plainScope

private theorem plain_joinAll {scope : String} {names : List String} (plainScope : Plain scope)
    (plain : ∀ name ∈ names, Plain name) : Plain (joinAll scope names) := by
  induction names generalizing scope with
  | nil => exact plainScope
  | cons name rest ih =>
    obtain ⟨first, later⟩ := List.forall_mem_cons.mp plain
    exact ih (plain_join plainScope first) later

private theorem join_ne_empty {scope name : String} (nonempty : name ≠ "") :
    join scope name ≠ "" := by
  unfold join
  split
  · exact nonempty
  · simp

private theorem joinAll_of_nonempty {scope : String} (nonempty : scope ≠ "") (names : List String) :
    joinAll scope names = ".".intercalate (scope :: names) := by
  induction names generalizing scope with
  | nil => exact String.intercalate_singleton.symm
  | cons name rest ih =>
    have inner : scope ++ "." ++ name ≠ "" := by simp
    have first : joinAll scope (name :: rest) = joinAll (scope ++ "." ++ name) rest := by
      rw [joinAll, List.foldl_cons, join, if_neg nonempty]
      rfl
    rw [first, ih inner, String.intercalate_cons_append, String.intercalate_cons_cons]

/-- The dotted path of the package, which may be empty, and the names inside it. -/
def path (package : String) (names : List String) : String :=
  ".".intercalate (if package = "" then names else package :: names)

private theorem joinAll_eq_path (package : String) {names : List String} (some : names ≠ [])
    (nonempty : ∀ name ∈ names, name ≠ "") : joinAll package names = path package names := by
  unfold path
  split
  · rename_i empty
    cases names with
    | nil => exact absurd rfl some
    | cons name rest =>
      have first : joinAll package (name :: rest) = joinAll name rest := by
        rw [joinAll, List.foldl_cons, join, if_pos empty]
        rfl
      rw [first, joinAll_of_nonempty (nonempty name List.mem_cons_self)]
  · rename_i packaged
    exact joinAll_of_nonempty packaged _

end QualifiedName

/-! ## Kinds by the numbers of types -/

/-- The number that declarations give the type by. -/
def Scalar.typeNumber : Scalar → Int
  | .double => 1
  | .float => 2
  | .int64 => 3
  | .uint64 => 4
  | .int32 => 5
  | .fixed64 => 6
  | .fixed32 => 7
  | .bool => 8
  | .string => 9
  | .bytes => 12
  | .uint32 => 13
  | .sfixed32 => 15
  | .sfixed64 => 16
  | .sint32 => 17
  | .sint64 => 18

/-- The kind that a field is declared with. A reference loses its leading dots. -/
inductive FieldDeclaration.IsOfKind (declaration : FieldDeclaration) : FieldKind → Prop where
  | scalar {type : Scalar} : declaration.type = some type.typeNumber →
      IsOfKind declaration (.scalar type)
  | group : declaration.type = some 10 →
      IsOfKind declaration (.group (QualifiedName.strip declaration.typeName))
  | message : declaration.type = some messageType →
      IsOfKind declaration (.message (QualifiedName.strip declaration.typeName))
  | enumeration : declaration.type = some 14 →
      IsOfKind declaration (.enumeration (QualifiedName.strip declaration.typeName))
  /-- Without a type that there is, a field is a double. -/
  | unknown : (∀ number, declaration.type = some number → number < 1 ∨ 18 < number) →
      IsOfKind declaration (.scalar .double)

private theorem FieldDeclaration.isOfKind_iff {declaration : FieldDeclaration} {kind : FieldKind} :
    declaration.IsOfKind kind ↔ declaration.kind = kind := by
  constructor
  · intro given
    cases given with
    | @scalar type number => cases type <;> simp [FieldDeclaration.kind, number, Scalar.typeNumber]
    | group number => simp [FieldDeclaration.kind, number]
    | message number => simp [FieldDeclaration.kind, number, messageType]
    | enumeration number => simp [FieldDeclaration.kind, number]
    | unknown outside =>
      unfold FieldDeclaration.kind
      split <;> simp_all
  · rintro rfl
    unfold FieldDeclaration.kind
    dsimp only
    split
    case h_9 number => exact .group number
    case h_10 number => exact .message number
    case h_13 number => exact .enumeration number
    case h_18 =>
      by_cases double : declaration.type = some 1
      · exact .scalar double
      · refine .unknown fun number given => ?_
        simp only [given, Option.some.injEq, imp_false] at *
        omega
    all_goals exact .scalar (by assumption)

/-! ## Fields and types as they are declared -/

/-- The message stands for the entries of a map of those kinds: they are the kinds of its first
fields of the numbers one and two. -/
structure MessageDeclaration.IsEntryOf (entry : MessageDeclaration) (key value : FieldKind) :
    Prop where
  isMapEntry : entry.isMapEntry = true
  key : ∃ field, (entry.fields.find? fun field => field.number = 1) = some field ∧
    field.IsOfKind key
  value : ∃ field, (entry.fields.find? fun field => field.number = 2) = some field ∧
    field.IsOfKind value

/-- What a field that is declared in a message becomes. -/
structure Field.Mirrors (owner : MessageDeclaration) (ownerName : String)
    (declaration : FieldDeclaration) (field : Field) : Prop where
  name : field.name = declaration.name
  /-- A list of the entries of a map that the message itself declares is a map. -/
  map : ∀ key value, field.cardinality = .map key ∧ field.kind = value ↔
    declaration.label = some repeatedLabel ∧ declaration.type = some messageType ∧
      ∃ entry ∈ owner.nested,
        QualifiedName.strip declaration.typeName = ownerName ++ "." ++ entry.name ∧
          entry.IsEntryOf key value
  /-- Any other field is a list or single, and of the kind that it is declared with. -/
  plain : field.isMap = false → declaration.IsOfKind field.kind ∧
    field.cardinality = if declaration.label = some repeatedLabel then .repeated else .singular
  declaredOptional : field.declaredOptional = declaration.declaredOptional
  /-- The oneofs that stand for the keyword `optional` are passed over. -/
  isMember : field.oneof.isSome ↔
    declaration.oneofIndex.isSome ∧ declaration.declaredOptional = false
  oneof : ∀ group, field.oneof = some group → ∃ index : Nat,
    declaration.oneofIndex = some (index : Int) ∧ owner.oneofs[index]? = some group

structure Method.Mirrors (declaration : MethodDeclaration) (method : Method) : Prop where
  name : method.name = declaration.name
  input : method.input = QualifiedName.strip declaration.input
  output : method.output = QualifiedName.strip declaration.output
  clientStreaming : method.clientStreaming = declaration.clientStreaming
  serverStreaming : method.serverStreaming = declaration.serverStreaming

/-- What a type that is declared under the name becomes: each part comes of its own declaration. -/
inductive Descriptor.Mirrors (name : String) : TypeDeclaration → Descriptor → Prop where
  | message {declaration : MessageDeclaration} {message : Message} :
    message.fullName = name →
    List.Forall₂ (Field.Mirrors declaration name) declaration.fields message.fields →
    Mirrors name (.message declaration) (.message message)
  | enumeration {declaration : EnumDeclaration} {enumeration : Enumeration} :
    enumeration.fullName = name → enumeration.values = declaration.values →
    Mirrors name (.enumeration declaration) (.enumeration enumeration)
  | service {declaration : ServiceDeclaration} {service : Service} :
    service.fullName = name →
    List.Forall₂ Method.Mirrors declaration.methods service.methods →
    Mirrors name (.service declaration) (.service service)

/-! ## Maps -/

private theorem MessageDeclaration.mapKinds?_eq_some_iff {entry : MessageDeclaration}
    {kinds : MapKinds} :
    entry.mapKinds? = some kinds ↔ entry.IsEntryOf kinds.key kinds.value := by
  unfold mapKinds?
  constructor
  · intro found
    split at found
    · rename_i flagged
      cases first : entry.fields.find? fun field => field.number = 1 with
      | none => simp [first] at found
      | some key =>
        cases second : entry.fields.find? fun field => field.number = 2 with
        | none => simp [first, second] at found
        | some value =>
          simp only [first, second, Option.pure_def, Option.bind_eq_bind, Option.bind_some,
            Option.some.injEq] at found
          subst found
          exact ⟨flagged, ⟨key, first, FieldDeclaration.isOfKind_iff.mpr rfl⟩,
            ⟨value, second, FieldDeclaration.isOfKind_iff.mpr rfl⟩⟩
    · cases found
  · intro ⟨flagged, ⟨key, first, keyKind⟩, ⟨value, second, valueKind⟩⟩
    rw [FieldDeclaration.isOfKind_iff] at keyKind valueKind
    rw [if_pos flagged, first, second]
    simp only [Option.pure_def, Option.bind_eq_bind, Option.bind_some, keyKind, valueKind]

private theorem MessageDeclaration.keys_maps_sublist (message : MessageDeclaration)
    (fullName : String) :
    (message.maps fullName).keys.Sublist
      (message.nested.map fun entry => QualifiedName.join fullName entry.name) := by
  rw [maps]
  induction message.nested with
  | nil => exact List.Sublist.refl _
  | cons entry rest ih =>
    cases kinds : entry.mapKinds? with
    | none => simpa [kinds] using ih.cons _
    | some kinds => simpa [kinds] using ih

/-- Of the entries of maps of different names, the one of the name is found. -/
theorem MessageDeclaration.get?_maps_iff {message : MessageDeclaration} {fullName name : String}
    {kinds : MapKinds}
    (distinct : (message.nested.map fun entry => QualifiedName.join fullName entry.name).Nodup) :
    Entries.get? name (message.maps fullName).reverse = some kinds ↔
      ∃ entry ∈ message.nested, name = QualifiedName.join fullName entry.name ∧
        entry.IsEntryOf kinds.key kinds.value := by
  have keys : Entries.Distinct (message.maps fullName).reverse := by
    rw [Entries.Distinct, Entries.keys, List.map_reverse, List.nodup_reverse]
    exact distinct.sublist (message.keys_maps_sublist fullName)
  have listed : (name, kinds) ∈ (message.maps fullName).reverse ↔
      ∃ entry ∈ message.nested, name = QualifiedName.join fullName entry.name ∧
        entry.IsEntryOf kinds.key kinds.value := by
    rw [List.mem_reverse, maps, List.mem_filterMap]
    refine exists_congr fun entry => and_congr_right fun _ => ?_
    rw [Option.map_eq_some_iff]
    constructor
    · intro found
      obtain ⟨_, own, same⟩ := found
      obtain ⟨rfl, rfl⟩ := Prod.mk.inj same
      exact ⟨rfl, mapKinds?_eq_some_iff.mp own⟩
    · intro meant
      obtain ⟨rfl, own⟩ := meant
      exact ⟨kinds, mapKinds?_eq_some_iff.mpr own, rfl⟩
  rw [← listed]
  exact ⟨Entries.mem_of_get?, Entries.get?_of_mem keys⟩

/-! ## Fields -/

namespace FieldDeclaration

variable {declaration : FieldDeclaration}

private theorem map?_eq_some_iff {owner : MessageDeclaration} {ownerName : String}
    (kinds : MapKinds)
    (named : ownerName ≠ "")
    (distinct : (owner.nested.map fun entry => QualifiedName.join ownerName entry.name).Nodup) :
    declaration.map? (owner.maps ownerName) = some kinds ↔
      declaration.label = some repeatedLabel ∧ declaration.type = some messageType ∧
        ∃ entry ∈ owner.nested,
          QualifiedName.strip declaration.typeName = ownerName ++ "." ++ entry.name ∧
            entry.IsEntryOf kinds.key kinds.value := by
  have join (entry : MessageDeclaration) :
      QualifiedName.join ownerName entry.name = ownerName ++ "." ++ entry.name :=
    if_neg named
  simp only [map?, isRepeated, decide_eq_true_iff]
  split
  · rename_i listed
    rw [MessageDeclaration.get?_maps_iff distinct]
    simp only [join, listed, true_and]
  · rename_i single
    constructor
    · intro found
      cases found
    · intro ⟨label, type, _⟩
      exact absurd ⟨label, type⟩ single

private theorem isSome_of_oneof_eq_ok {oneofs : List String} {group : Option String}
    (found : declaration.oneof oneofs = .ok group) :
    group.isSome ↔ declaration.oneofIndex.isSome ∧ declaration.declaredOptional = false := by
  unfold oneof at found
  cases given : declaration.oneofIndex with
  | none =>
    rw [given] at found
    cases found
    simp
  | some index =>
    rw [given] at found
    dsimp only at found
    cases keyword : declaration.declaredOptional with
    | true =>
      rw [keyword] at found
      cases found
      simp
    | false =>
      rw [keyword, if_neg Bool.false_ne_true] at found
      split at found
      · cases found
        simp
      · cases found

private theorem getElem?_of_oneof_eq_ok {oneofs : List String} {name : String}
    (found : declaration.oneof oneofs = .ok (some name)) :
    ∃ index : Nat, declaration.oneofIndex = some (index : Int) ∧ oneofs[index]? = some name := by
  unfold oneof at found
  cases given : declaration.oneofIndex with
  | none =>
    rw [given] at found
    cases found
  | some index =>
    rw [given] at found
    dsimp only at found
    split at found
    · cases found
    · split at found
      · rename_i other listed
        cases found
        split at listed
        · cases listed
        · rename_i natural
          refine ⟨index.toNat, ?_, listed⟩
          rw [Int.toNat_of_nonneg (by omega)]
      · cases found

private theorem mirrors_of_resolve {owner : MessageDeclaration} {ownerName : String}
    {comment : Option String} {isMarked : Bool} {field : Field} (named : ownerName ≠ "")
    (distinct : (owner.nested.map fun entry => QualifiedName.join ownerName entry.name).Nodup)
    (resolved : declaration.resolve owner.oneofs (owner.maps ownerName) comment isMarked =
      .ok field) : field.Mirrors owner ownerName declaration := by
  unfold resolve at resolved
  cases grouped : declaration.oneof owner.oneofs with
  | error cause =>
    rw [grouped] at resolved
    cases resolved
  | ok group =>
    rw [grouped] at resolved
    have oneof (name : String) (member : group = some name) :=
      getElem?_of_oneof_eq_ok (member ▸ grouped)
    cases meant : declaration.map? (owner.maps ownerName) with
    | none =>
      rw [meant] at resolved
      obtain rfl := Except.ok.inj resolved
      have member := isSome_of_oneof_eq_ok grouped
      refine ⟨rfl, fun key value => ?_, fun _ => ⟨isOfKind_iff.mpr rfl, ?_⟩, rfl, member, oneof⟩
      · rw [← map?_eq_some_iff ⟨key, value⟩ named distinct, meant]
        dsimp only
        split <;> simp
      · simp only [isRepeated, decide_eq_true_iff]
    | some kinds =>
      rw [meant] at resolved
      obtain rfl := Except.ok.inj resolved
      refine ⟨rfl, fun key value => ?_, nofun, rfl, isSome_of_oneof_eq_ok grouped, oneof⟩
      rw [← map?_eq_some_iff ⟨key, value⟩ named distinct, meant, Option.some.injEq,
        MapKinds.mk.injEq]
      exact and_congr_left fun _ => ⟨Cardinality.map.inj, congrArg Cardinality.map⟩

end FieldDeclaration

/-! ## Types under their dotted names -/

/-- Neither the package nor any name of a type starts with a dot, and the names are not empty. -/
structure FileDeclaration.PlainlyNamed (file : FileDeclaration) : Prop where
  package : QualifiedName.Plain file.package
  nonempty : ∀ placed, file.Declares placed → placed.declaration.name ≠ ""
  plain : ∀ placed, file.Declares placed → QualifiedName.Plain placed.declaration.name

/-- The names of the package, of the messages around the type and of the type, with dots between. -/
def FileDeclaration.dottedName (file : FileDeclaration) (placed : PlacedType) : String :=
  QualifiedName.path file.package (placed.around ++ [placed.declaration.name])

namespace FileDeclaration

variable {file : FileDeclaration} {placed : PlacedType}

/-- The messages around a type are declared. -/
theorem Declares.exists_around (declares : file.Declares placed) :
    ∀ name ∈ placed.around, ∃ outer, file.Declares outer ∧ outer.declaration.name = name := by
  have inside {around : List String} {path : SourcePath} {outer : MessageDeclaration}
      (declares : file.Declares ⟨around, path, .message outer⟩)
      (ih : ∀ name ∈ around, ∃ outer, file.Declares outer ∧ outer.declaration.name = name) :
      ∀ name ∈ around ++ [outer.name],
        ∃ outer, file.Declares outer ∧ outer.declaration.name = name := by
    intro name listed
    rcases List.mem_append.mp listed with further | own
    · exact ih name further
    · exact ⟨_, declares, (List.mem_singleton.mp own).symm⟩
  induction declares with
  | message => exact fun _ => nofun
  | nested declares _ _ ih => exact inside declares ih
  | enumeration => exact fun _ => nofun
  | nestedEnumeration declares _ ih => exact inside declares ih
  | service => exact fun _ => nofun

/-- What holds of the names of all types holds of those on the way to one. -/
theorem Declares.forall_names (declares : file.Declares placed) {holds : String → Prop}
    (all : ∀ placed, file.Declares placed → holds placed.declaration.name) :
    ∀ name ∈ placed.around ++ [placed.declaration.name], holds name := by
  intro name listed
  rcases List.mem_append.mp listed with further | own
  · obtain ⟨outer, outside, rfl⟩ := declares.exists_around name further
    exact all outer outside
  · rw [List.mem_singleton.mp own]
    exact all placed declares

private theorem fullName_eq_dottedName (plain : file.PlainlyNamed)
    (declares : file.Declares placed) :
    placed.fullName file.package = file.dottedName placed := by
  have names : placed.around ++ [placed.declaration.name] ≠ [] := by simp
  rw [PlacedType.fullName, ← QualifiedName.joinAll_concat]
  exact QualifiedName.joinAll_eq_path _ names (declares.forall_names plain.nonempty)

private theorem strip_fullName (plain : file.PlainlyNamed) (declares : file.Declares placed) :
    QualifiedName.strip (placed.fullName file.package) = placed.fullName file.package := by
  rw [PlacedType.fullName, ← QualifiedName.joinAll_concat]
  exact QualifiedName.strip_of_plain
    (QualifiedName.plain_joinAll plain.package (declares.forall_names plain.plain))

private theorem key_eq (plain : file.PlainlyNamed) (declares : file.Declares placed) :
    placed.key file.package = (placed.declaration.sort, file.dottedName placed) := by
  rw [PlacedType.key, strip_fullName plain declares, fullName_eq_dottedName plain declares]

private theorem dottedName_ne_empty (plain : file.PlainlyNamed) (declares : file.Declares placed) :
    file.dottedName placed ≠ "" := by
  rw [← fullName_eq_dottedName plain declares]
  exact QualifiedName.join_ne_empty (plain.nonempty placed declares)

/-- No leading dots are lost from the names of the types. -/
theorem nodup_strip_typeNames (distinct : file.declaredNames.Nodup) (plain : file.PlainlyNamed) :
    (file.typeNames.map QualifiedName.strip).Nodup := by
  have kept : file.typeNames.map QualifiedName.strip = file.typeNames := by
    rw [typeNames, List.map_map]
    apply List.map_congr_left
    intro placed listed
    exact strip_fullName plain (mem_placedTypes_iff.mp listed)
  rw [kept]
  exact distinct.sublist file.typeNames_sublist

end FileDeclaration

private theorem forall₂_zipIdx {α : Type} (items : List α) (start : Nat) :
    List.Forall₂ (fun item indexed => indexed.1 = item) items (items.zipIdx start) := by
  induction items generalizing start with
  | nil => exact .nil
  | cons item rest ih => exact .cons rfl (ih (start + 1))

/-- A type becomes what it is declared to be. -/
theorem PlacedType.mirrors_of_resolve {file : FileDeclaration} {placed : PlacedType}
    {notes : SourceNotes} {descriptor : Descriptor} (distinct : file.declaredNames.Nodup)
    (plain : file.PlainlyNamed) (declares : file.Declares placed)
    (resolved : placed.resolve file.package notes = .ok descriptor) :
    descriptor.stripped.Mirrors (file.dottedName placed) placed.declaration := by
  have named := FileDeclaration.fullName_eq_dottedName plain declares
  have stripped := (FileDeclaration.strip_fullName plain declares).trans named
  have nonempty := FileDeclaration.dottedName_ne_empty plain declares
  obtain ⟨around, path, declaration⟩ := placed
  cases declaration with
  | message declaration =>
    obtain ⟨message, own, rfl⟩ := exists_message_of_resolve resolved
    obtain ⟨name, -, fields⟩ := PlacedMessage.resolve_eq_ok own
    have entries := FileDeclaration.nodup_nestedNames distinct declares
    rw [QualifiedName.joinAll_concat] at entries
    rw [named] at fields
    refine .message ((congrArg QualifiedName.strip name).trans stripped) ?_
    apply (FieldDeclaration.forall₂_of_resolveAll fields).imp
    intro _ _ ⟨_, _, field⟩
    exact FieldDeclaration.mirrors_of_resolve nonempty (named ▸ entries) field
  | enumeration declaration =>
    obtain rfl := Except.ok.inj resolved
    exact .enumeration stripped rfl
  | service declaration =>
    obtain rfl := Except.ok.inj resolved
    refine .service stripped ?_
    rw [List.forall₂_map_right_iff]
    apply (forall₂_zipIdx declaration.methods 0).imp
    intro method (_, index) same
    subst same
    exact ⟨rfl, rfl, rfl, rfl, rfl⟩

/-- A file whose names are pairwise different and plain registers exactly its types, each under its
dotted name and as it is declared. -/
theorem Registry.registered_types {file : FileDeclaration} {paths : List SourcePath}
    {after : Registry} (distinct : file.declaredNames.Nodup) (plain : file.PlainlyNamed)
    (added : Registry.empty.addFile file paths = (.ok (), after)) :
    (∀ sort name, (after.held? (sort, name)).isSome ↔
      ∃ placed, file.Declares placed ∧ placed.declaration.sort = sort ∧
        file.dottedName placed = name) ∧
    ∀ placed, file.Declares placed → ∃ descriptor,
      after.held? (placed.declaration.sort, file.dottedName placed) = some descriptor ∧
        descriptor.Mirrors (file.dottedName placed) placed.declaration := by
  have names := FileDeclaration.nodup_strip_typeNames distinct plain
  constructor
  · intro sort name
    rw [isSome_held?_iff names added]
    apply exists_congr
    intro placed
    rw [FileDeclaration.mem_placedTypes_iff]
    apply and_congr_right
    intro declares
    rw [FileDeclaration.key_eq plain declares, Prod.mk.injEq]
  · intro placed declares
    obtain ⟨descriptor, resolved, own⟩ := exists_held names added
      (FileDeclaration.mem_placedTypes_iff.mpr declares)
    rw [FileDeclaration.key_eq plain declares] at own
    exact ⟨_, own, PlacedType.mirrors_of_resolve distinct plain declares resolved⟩

namespace Shelves

/-- A message with a map, and a message inside it that lists entries of the same map, which it does
not declare. -/
def shelf : MessageDeclaration where
  name := "Shelf"
  fields := [
    { name := "books", number := 1, label := some repeatedLabel, type := some messageType,
      typeName := ".lib.Shelf.BooksEntry" },
    { name := "room", number := 2, type := some 9, oneofIndex := some 0 },
    { name := "label", number := 3, type := some 9, oneofIndex := some 1,
      declaredOptional := true }]
  nested := [
    { name := "BooksEntry", isMapEntry := true, fields := [
      { name := "key", number := 1, type := some 9 },
      { name := "value", number := 2, type := some 5 }] },
    { name := "Board", fields := [
      { name := "books", number := 1, label := some repeatedLabel, type := some messageType,
        typeName := ".lib.Shelf.BooksEntry" }] }]
  enumerations := [{ name := "Wood", values := [("OAK", 0)] }]
  oneofs := ["place", "_label"]

def file : FileDeclaration where
  package := "lib"
  messages := [shelf]
  services := [{ name := "Desk", methods := [{ name := "Find", input := ".lib.Shelf" }] }]

def registry : Registry := (Registry.empty.addFile file []).2

private theorem plainlyNamed : file.PlainlyNamed := by
  have names : ∀ placed ∈ file.placedTypes,
      placed.declaration.name ≠ "" ∧ QualifiedName.Plain placed.declaration.name := by
    decide +kernel
  refine ⟨by decide +kernel, ?_, ?_⟩
  · intro placed declares
    exact (names placed (FileDeclaration.mem_placedTypes_iff.mpr declares)).1
  · intro placed declares
    exact (names placed (FileDeclaration.mem_placedTypes_iff.mpr declares)).2

end Shelves

open Shelves in
/-- The shelf is registered as it is declared, with its map from texts to numbers, and the entries
of the map are not. -/
theorem Registry.registered_types_shelf :
    file.declaredNames.Nodup ∧ file.PlainlyNamed ∧
    Registry.empty.addFile file [] = (.ok (), Shelves.registry) ∧
    (∃ message, Shelves.registry.held? (.message, "lib.Shelf") = some (.message message) ∧
      (Descriptor.message message).Mirrors "lib.Shelf" (.message shelf) ∧
      ∃ books, message.fields[0]? = some books ∧ books.cardinality = .map (.scalar .string) ∧
        books.kind = .scalar .int32) ∧
    (Shelves.registry.held? (.message, "lib.Shelf.BooksEntry")).isSome = false := by
  have distinct : file.declaredNames.Nodup := by decide +kernel
  have added : Registry.empty.addFile file [] = (.ok (), Shelves.registry) :=
    Prod.ext (by decide +kernel) rfl
  obtain ⟨registered, mirrors⟩ := Registry.registered_types distinct plainlyNamed added
  refine ⟨distinct, plainlyNamed, added, ?_, ?_⟩
  · have declares : file.Declares ⟨[], [4, 0], .message shelf⟩ :=
      .message (by rfl : file.messages[0]? = _)
    have name : file.dottedName ⟨[], [4, 0], .message shelf⟩ = "lib.Shelf" := by decide +kernel
    have own := mirrors _ declares
    rw [name] at own
    obtain ⟨_, held, mirrored⟩ := own
    cases mirrored with
    | @message _ message named fields =>
      refine ⟨message, held, .message named fields, ?_⟩
      obtain ⟨books, found, mirrored⟩ :=
        exists_right_getElem? fields (by rfl : shelf.fields[0]? = _)
      -- the entries are those of a map from texts to numbers
      have entry : shelf.nested[0].IsEntryOf (.scalar .string) (.scalar .int32) :=
        ⟨rfl, ⟨_, rfl, .scalar rfl⟩, ⟨_, rfl, .scalar rfl⟩⟩
      have reference : QualifiedName.strip ".lib.Shelf.BooksEntry" =
          "lib.Shelf" ++ "." ++ shelf.nested[0].name := by decide +kernel
      have map := (mirrored.map (.scalar .string) (.scalar .int32)).mpr
        ⟨rfl, rfl, _, List.getElem_mem _, reference, entry⟩
      exact ⟨books, found, map⟩
  · rw [Bool.eq_false_iff, Ne, registered]
    intro ⟨placed, declares, sort, name⟩
    have others : ∀ placed ∈ file.placedTypes, file.dottedName placed ≠ "lib.Shelf.BooksEntry" := by
      decide +kernel
    exact others placed (FileDeclaration.mem_placedTypes_iff.mpr declares) name

end ToolContract
