import ToolContract.Proofs.Contract.Existence
import ToolContract.Proofs.FileDescriptor.Placed

/-!
# Fields of unknown types

A field whose type is absent or is none of the defined types is registered as a double, the first of
the defined types (`Registry.addFile_withKnownTypes`). Neither registering its file nor compiling its
message fails on its account: the contracts that reach the message fail exactly if something else in
it, or in what it reaches, is not well declared (`Registry.unknown_types`).
-/

set_option autoImplicit false

namespace ToolContract

def doubleType : Int := 1

/-- The greatest code of a defined type; the least is that of doubles. -/
def greatestType : Int := 18

namespace FieldDeclaration

def hasKnownType (field : FieldDeclaration) : Bool :=
  match field.type with
  | none => false
  | some code => doubleType ≤ code && code ≤ greatestType

/-- The field itself if its type is defined, else the same field declared as a double. -/
def withKnownType (field : FieldDeclaration) : FieldDeclaration :=
  { field with type := if field.hasKnownType then field.type else some doubleType }

variable {field : FieldDeclaration}

private theorem kind_of_unknown (unknown : field.hasKnownType = false) :
    field.kind = .scalar .double := by
  unfold hasKnownType at unknown
  unfold kind
  split <;> simp_all [doubleType, greatestType]

private theorem map?_of_unknown (unknown : field.hasKnownType = false) (maps : Entries MapKinds) :
    field.map? maps = none := by
  rw [map?, if_neg]
  rintro ⟨-, message⟩
  simp [hasKnownType, message, messageType, doubleType, greatestType] at unknown

private theorem withKnownType_of_known (known : field.hasKnownType = true) :
    field.withKnownType = field := by
  rw [withKnownType, if_pos known]

private theorem kind_withKnownType (field : FieldDeclaration) :
    field.withKnownType.kind = field.kind := by
  cases known : field.hasKnownType with
  | true => rw [withKnownType_of_known known]
  | false =>
    rw [kind_of_unknown known, withKnownType, known]
    rfl

private theorem map?_withKnownType (field : FieldDeclaration) (maps : Entries MapKinds) :
    field.withKnownType.map? maps = field.map? maps := by
  cases known : field.hasKnownType with
  | true => rw [withKnownType_of_known known]
  | false =>
    rw [map?_of_unknown known, withKnownType, known, map?, if_neg]
    rintro ⟨-, message⟩
    cases message

private theorem resolve_withKnownType (field : FieldDeclaration) (oneofs : List String)
    (maps : Entries MapKinds) (comment : Option String) (isMarked : Bool) :
    field.withKnownType.resolve oneofs maps comment isMarked =
      field.resolve oneofs maps comment isMarked := by
  rw [resolve, resolve, kind_withKnownType, map?_withKnownType]
  rfl

private theorem resolveAll_withKnownType (notes : SourceNotes) (path : SourcePath)
    (oneofs : List String)
    (maps : Entries MapKinds) (index : Nat) (fields : List FieldDeclaration) :
    resolveAll notes path oneofs maps index (fields.map withKnownType) =
      resolveAll notes path oneofs maps index fields := by
  induction fields generalizing index with
  | nil => rfl
  | cons field rest ih =>
    rw [List.map_cons, resolveAll_cons, resolveAll_cons, resolve_withKnownType, ih]

end FieldDeclaration

namespace MessageDeclaration

mutual

/-- The message with its fields, and those of the messages inside it, declared with defined types. -/
def withKnownTypes : MessageDeclaration → MessageDeclaration
  | ⟨name, fields, nested, enumerations, oneofs, isMapEntry⟩ =>
    ⟨name, fields.map FieldDeclaration.withKnownType, allWithKnownTypes nested, enumerations,
      oneofs, isMapEntry⟩

def allWithKnownTypes : List MessageDeclaration → List MessageDeclaration
  | [] => []
  | message :: rest => withKnownTypes message :: allWithKnownTypes rest

end

private theorem allWithKnownTypes_eq_map (messages : List MessageDeclaration) :
    allWithKnownTypes messages = messages.map withKnownTypes := by
  induction messages with
  | nil => rfl
  | cons message rest ih => rw [allWithKnownTypes, ih, List.map_cons]

private theorem mapKinds?_withKnownTypes (entry : MessageDeclaration) :
    entry.withKnownTypes.mapKinds? = entry.mapKinds? := by
  obtain ⟨name, fields, nested, enumerations, oneofs, isMapEntry⟩ := entry
  have numbered (number : Int) :
      ((fields.map FieldDeclaration.withKnownType).find? fun field => field.number = number) =
        (fields.find? fun field => field.number = number).map FieldDeclaration.withKnownType := by
    rw [List.find?_map]
    rfl
  rw [withKnownTypes, mapKinds?, mapKinds?]
  simp only [numbered]
  cases fields.find? fun field => field.number = 1 with
  | none => rfl
  | some key =>
    cases fields.find? fun field => field.number = 2 with
    | none => rfl
    | some value =>
      simp [FieldDeclaration.kind_withKnownType]

private theorem maps_withKnownTypes (message : MessageDeclaration) (fullName : String) :
    message.withKnownTypes.maps fullName = message.maps fullName := by
  obtain ⟨name, fields, nested, enumerations, oneofs, isMapEntry⟩ := message
  rw [withKnownTypes, maps, maps, allWithKnownTypes_eq_map, List.filterMap_map]
  refine List.filterMap_congr fun entry _ => ?_
  rw [Function.comp_apply, mapKinds?_withKnownTypes]
  cases entry
  rw [withKnownTypes]

mutual

private theorem resolve_withKnownTypes (notes : SourceNotes) (scope : String) (path : SourcePath) :
    ∀ message : MessageDeclaration,
      message.withKnownTypes.resolve notes scope path = message.resolve notes scope path
  | ⟨name, fields, nested, enumerations, oneofs, isMapEntry⟩ => by
    have inside := resolveNested_withKnownTypes notes (QualifiedName.join scope name) path 0 nested
    have maps := maps_withKnownTypes ⟨name, fields, nested, enumerations, oneofs, isMapEntry⟩
      (QualifiedName.join scope name)
    rw [withKnownTypes] at maps ⊢
    rw [resolve_eq, resolve_eq, maps, inside, FieldDeclaration.resolveAll_withKnownType]

private theorem resolveNested_withKnownTypes (notes : SourceNotes) (scope : String)
    (path : SourcePath) :
    ∀ (index : Nat) (nested : List MessageDeclaration),
      resolveNested notes scope path index (allWithKnownTypes nested) =
        resolveNested notes scope path index nested
  | _, [] => rfl
  | index, message :: rest => by
    have here := resolve_withKnownTypes notes scope (path.child 3 index) message
    have later := resolveNested_withKnownTypes notes scope path (index + 1) rest
    have entry : message.withKnownTypes.isMapEntry = message.isMapEntry := by
      cases message
      rw [withKnownTypes]
    rw [allWithKnownTypes, resolveNested, resolveNested, entry, here, later]

end

end MessageDeclaration

def FileDeclaration.withKnownTypes (file : FileDeclaration) : FileDeclaration :=
  { file with messages := file.messages.map MessageDeclaration.withKnownTypes }

namespace Registry

/-- Fields of unknown types are registered as doubles are, in maps as well. -/
theorem addFile_withKnownTypes (registry : Registry) (file : FileDeclaration)
    (paths : List SourcePath) :
    registry.addFile file.withKnownTypes paths = registry.addFile file paths := by
  have resolved : file.withKnownTypes.resolve paths = file.resolve paths := by
    rw [FileDeclaration.resolve, FileDeclaration.resolve, FileDeclaration.withKnownTypes,
      List.zipIdx_map, List.flatMap_map]
    congr 2
    refine List.flatMap_congr ?_
    rintro ⟨message, index⟩ -
    exact message.resolve_withKnownTypes _ file.package (SourcePath.child [] 4 index)
  rw [addFile, addFile, resolved]

/-- Every contract that reaches the message fails exactly if the message is not well declared. -/
theorem contracts_fail_iff (registry : Registry) (options : Options) (name : String) :
    (∀ root, registry.Reaches (QualifiedName.strip root) (QualifiedName.strip name) →
      ∃ cause, (Compiler.mk registry options).contract root = .error cause) ↔
        ¬ registry.WellDeclared name := by
  have compiles (root : String) :
      (∃ contract, (Compiler.mk registry options).contract root = .ok contract) ↔
        registry.Sound (QualifiedName.strip root) := Compiler.exists_contract_iff
  constructor
  · intro fail declared
    obtain ⟨cause, failed⟩ := fail name .refl
    obtain ⟨contract, compiled⟩ := (compiles name).mpr (sound_iff_wellDeclared.mpr declared)
    rw [failed] at compiled
    cases compiled
  · intro flawed root path
    cases compiled : (Compiler.mk registry options).contract root with
    | error cause => exact ⟨cause, rfl⟩
    | ok contract =>
      have sound := ((compiles root).mp ⟨contract, compiled⟩).of_reaches path
      exact absurd (sound_iff_wellDeclared.mp sound) flawed

end Registry

private theorem FieldDeclaration.resolve_of_unknown {declaration : FieldDeclaration}
    {oneofs : List String}
    {maps : Entries MapKinds} {comment : Option String} {isMarked : Bool} {field : Field}
    (unknown : declaration.hasKnownType = false)
    (resolved : declaration.resolve oneofs maps comment isMarked = .ok field) :
    field.name = declaration.name ∧ field.kind = .scalar .double ∧
      field.cardinality = if declaration.isRepeated then .repeated else .singular := by
  unfold resolve at resolved
  rw [map?_of_unknown unknown, kind_of_unknown unknown] at resolved
  cases grouped : declaration.oneof oneofs with
  | error cause =>
    rw [grouped] at resolved
    cases resolved
  | ok group =>
    rw [grouped] at resolved
    obtain rfl := Except.ok.inj resolved
    exact ⟨rfl, rfl, rfl⟩

/-- A file is registered as it would be if each field of an unknown type were declared as a double,
with the same failure or to the same registry. Where it is registered, each field of an unknown type
stands at its place in its message as a number, alone or in a list; and the contracts that reach the
message all fail exactly if the message, or one that it reaches, is not well declared, which is no
matter of such fields. -/
theorem Registry.unknown_types (registry : Registry) (file : FileDeclaration)
    (paths : List SourcePath) :
    registry.addFile file.withKnownTypes paths = registry.addFile file paths ∧
    ∀ after, registry.addFile file paths = (.ok (), after) →
      ∀ name placed, file.placed? name = some placed →
        ∀ (index : Nat) declaration, placed.declaration.fields[index]? = some declaration →
          declaration.hasKnownType = false →
          (∃ message field, after.message? name = some message ∧
            message.fields[index]? = some field ∧ field.name = declaration.name ∧
            field.kind = .scalar .double ∧
            field.cardinality = if declaration.isRepeated then .repeated else .singular) ∧
          ∀ options,
            (∀ root, after.Reaches (QualifiedName.strip root) (QualifiedName.strip name) →
              ∃ cause, (Compiler.mk after options).contract root = .error cause) ↔
                ¬ after.WellDeclared name := by
  refine ⟨registry.addFile_withKnownTypes file paths, ?_⟩
  intro after added name placed last index declaration listed unknown
  refine ⟨?_, fun options => after.contracts_fail_iff options name⟩
  obtain ⟨message, own, registered⟩ := Registry.exists_registered added last
  obtain ⟨-, -, fields⟩ := PlacedMessage.resolve_eq_ok own
  obtain ⟨field, stands, comment, isMarked, resolved⟩ :=
    exists_right_getElem? (FieldDeclaration.forall₂_of_resolveAll fields) listed
  exact ⟨_, field, registered, stands, FieldDeclaration.resolve_of_unknown unknown resolved⟩

namespace Gauges

/-- A message with a field of no type, which names a message type that is not declared, and a field
of a type that is not defined. -/
def gauge : MessageDeclaration where
  name := "Gauge"
  fields := [
    { name := "level", number := 1, typeName := ".a.Missing" },
    { name := "marks", number := 2, label := some repeatedLabel, type := some 19 }]

def file : FileDeclaration := { package := "a", messages := [gauge] }

def registry : Registry := (Registry.empty.addFile file []).2

/-- The schema of the message: a number and a list of numbers. -/
def schema : Json :=
  .obj [
    ("type", .str "object"),
    ("properties", .obj [
      ("level", .obj [("type", .str "number")]),
      ("marks", .obj [("type", .str "array"), ("items", .obj [("type", .str "number")])])]),
    ("required", .arr []),
    ("additionalProperties", .bool false)]

private theorem added : Registry.empty.addFile file [] = (.ok (), registry) :=
  Prod.ext (by decide +kernel) rfl

end Gauges

open Gauges in
/-- Neither the file nor the contract of its message fails, though no field of the message has a
defined type. -/
theorem unknown_types_compile :
    (∀ field ∈ gauge.fields, field.hasKnownType = false) ∧
    Registry.empty.addFile file [] = (.ok (), Gauges.registry) ∧
    ∃ contract, (Compiler.mk Gauges.registry {}).contract "a.Gauge" = .ok contract ∧
      contract.root.toSchema.toJson = Gauges.schema := by
  refine ⟨by decide, added, ?_⟩
  obtain ⟨contract, compiled⟩ : ∃ contract,
      (Compiler.mk Gauges.registry {}).contract "a.Gauge" = .ok contract :=
    Compiler.exists_contract_of_isOk (by decide +kernel)
  refine ⟨contract, compiled, ?_⟩
  have written : ((Compiler.mk Gauges.registry {}).contract "a.Gauge").toOption.map
      (·.root.toSchema.toJson) = some Gauges.schema := by decide +kernel
  simpa only [compiled, Except.toOption, Option.map_some, Option.some.injEq] using written

open Gauges in
/-- The second field of the gauge is a list of numbers, and a contract that reaches the gauge does not
fail. -/
theorem Registry.unknown_types_gauge :
    (∃ message field, Gauges.registry.message? "a.Gauge" = some message ∧
      message.fields[1]? = some field ∧ field.kind = .scalar .double ∧
      field.cardinality = .repeated) ∧
    ¬ ∀ root, Gauges.registry.Reaches (QualifiedName.strip root) (QualifiedName.strip "a.Gauge") →
      ∃ cause, (Compiler.mk Gauges.registry {}).contract root = .error cause := by
  have declared : file.placed? "a.Gauge" = some ⟨"a.Gauge", [4, 0], gauge⟩ := by rfl
  obtain ⟨-, fields⟩ := Registry.unknown_types Registry.empty file []
  obtain ⟨⟨message, field, registered, stands, -, kind, cardinality⟩, fail⟩ :=
    fields Gauges.registry added "a.Gauge" ⟨"a.Gauge", [4, 0], gauge⟩ declared 1 _ rfl rfl
  have compiles : ∃ contract, (Compiler.mk Gauges.registry {}).contract "a.Gauge" = .ok contract :=
    Compiler.exists_contract_of_isOk (by decide +kernel)
  have declares : Gauges.registry.WellDeclared "a.Gauge" :=
    Registry.sound_iff_wellDeclared.mp (Compiler.exists_contract_iff.mp compiles)
  exact ⟨⟨message, field, registered, stands, kind, cardinality⟩,
    fun all => (fail {}).mp all declares⟩

end ToolContract
