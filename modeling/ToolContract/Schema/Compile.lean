import ToolContract.Descriptor.Registry
import ToolContract.Schema.Definitions
import ToolContract.Schema.Discriminator
import ToolContract.Schema.Error
import ToolContract.Schema.Presence
import ToolContract.Schema.WellKnown

/-!
# Compiling messages

A message becomes a closed object with one property for each field outside a oneof and one for
each oneof group. A field that refers to a message refers to its definition, which is compiled
when it is met first and found in the table of definitions afterwards, so shared types are compiled
once and recursive ones end.

The property of a group is a union with one variant for each member. A variant carries the name of
its member under the discriminator. A member that is a single message gives its own properties to
the variant; a member of any other kind, and a message that is still being compiled or whose
properties would clash with the variant's own, is held under its name.
-/

set_option autoImplicit false

namespace ToolContract

/-! ## Steps over the table of definitions -/

/-- A step of a compilation: it yields a value or the cause of a failure, and the table as it
leaves it. What it completed before it failed stays. -/
def Step (α : Type) : Type :=
  Definitions → Except SchemaError α × Definitions

namespace Step

def run {α : Type} (step : Step α) (definitions : Definitions) :
    Except SchemaError α × Definitions :=
  step definitions

instance : Monad Step where
  pure value := fun definitions => (.ok value, definitions)
  bind step next := fun definitions =>
    match step definitions with
    | (.ok value, after) => next value after
    | (.error cause, after) => (.error cause, after)

def fail {α : Type} (cause : SchemaError) : Step α :=
  fun definitions => (.error cause, definitions)

def ofExcept {α : Type} (result : Except SchemaError α) : Step α :=
  fun definitions => (result, definitions)

def definitions : Step Definitions :=
  fun definitions => (.ok definitions, definitions)

section

variable {α β : Type} {step : Step α} {next : α → Step β} {before after : Definitions}

theorem bind_of_ok {value : α} (ran : step before = (.ok value, after)) :
    (step >>= next) before = next value after := by
  simp only [bind, ran]

theorem bind_of_error {cause : SchemaError} (ran : step before = (.error cause, after)) :
    (step >>= next) before = (.error cause, after) := by
  simp only [bind, ran]

theorem bind_eq_ok {value : β} (ran : (step >>= next) before = (.ok value, after)) :
    ∃ first middle, step before = (.ok first, middle) ∧ next first middle = (.ok value, after) := by
  rcases early : step before with ⟨outcome, middle⟩
  cases outcome with
  | error cause =>
    rw [bind_of_error early] at ran
    cases ran
  | ok first =>
    rw [bind_of_ok early] at ran
    exact ⟨first, middle, rfl, ran⟩

theorem pure_eq_ok {value other : α} (ran : (pure value : Step α) before = (.ok other, after)) :
    value = other ∧ before = after := by
  obtain ⟨same, rfl⟩ := Prod.mk.inj ran
  exact ⟨Except.ok.inj same, rfl⟩

end

end Step

/-! ## The properties of a message -/

inductive Slot where
  | plain (field : Field)
  | group (name : String) (members : List Field)
  deriving Repr

def Slot.property : Slot → String
  | .plain field => field.name
  | .group name _ => name ++ oneofSuffix

def Slot.isRequired (options : Options) : Slot → Bool
  | .plain field => field.isRequired options
  | .group _ members => groupIsRequired options members

/-- The slots of the listed fields, leaving out the groups that were met before. -/
def Message.slotsFrom (message : Message) : List String → List Field → List Slot
  | _, [] => []
  | met, field :: rest =>
    match field.oneof with
    | none => .plain field :: message.slotsFrom met rest
    | some group =>
      if group ∈ met then message.slotsFrom met rest
      else .group group (message.members group) :: message.slotsFrom (group :: met) rest

/-- The slots of a message: each field outside a oneof at its own position, and each group at the
position of its first member. -/
def Message.slots (message : Message) : List Slot :=
  message.slotsFrom [] message.fields

/-! ## Schemas of fields and variants -/

/-- Finds the definition of a message, compiling it if there is none, and yields the name under
which it is kept. -/
abbrev Resolver := String → Step String

def Enumeration.schema (enumeration : Enumeration) : Schema :=
  let values := enumeration.values.map fun (name, number) =>
    name ++ " (" ++ toString number ++ ")"
  let allowed :=
    "Enum " ++ enumeration.name ++ ". Allowed values: " ++ ", ".intercalate values ++ "."
  (Schema.described allowed (.typed .integer)).describe? enumeration.comment

/-- The schema of a scalar; bytes are described as what they are written in. -/
def Scalar.schema (type : Scalar) : Schema :=
  match type with
  | .bytes => .described "Base64-encoded bytes." (.typed type.jsonType)
  | _ => .typed type.jsonType

structure Compiler where
  registry : Registry
  options : Options := {}

namespace Compiler

def kindSchema (compiler : Compiler) (resolve : Resolver) : FieldKind → Step Schema
  | .scalar type => pure type.schema
  | .enumeration name =>
    match compiler.registry.enumeration? name with
    | some enumeration => pure enumeration.schema
    | none => .fail (.unknownType name)
  | .message name =>
    match WellKnown.ofName? name with
    | some type => pure type.schema
    | none => do return .reference (← resolve name)
  | .group name => .fail (.groupField name)

def valueSchema (compiler : Compiler) (resolve : Resolver) (field : Field) : Step Schema :=
  match field.cardinality with
  | .singular => compiler.kindSchema resolve field.kind
  | .repeated => do return .list (← compiler.kindSchema resolve field.kind)
  | .map key => do
    let values ← compiler.kindSchema resolve field.kind
    match key.keyForm? with
    | some form => return .map values form
    | none => .fail (.mapKey field.name key)

def fieldSchemaWith (compiler : Compiler) (resolve : Resolver) (field : Field) : Step Schema := do
  return (← compiler.valueSchema resolve field).describe? field.comment

/-- The definition whose properties a variant takes over: that of a single plain message which is
completed and has neither a property of the member's name nor one of the discriminator's. -/
def inlined? (resolve : Resolver) (field : Field) : Step (Option ObjectSchema) :=
  match field.kind, field.cardinality with
  | .message name, .singular =>
    match WellKnown.ofName? name with
    | some _ => pure none
    | none => do
      let kept ← resolve name
      let definitions ← .definitions
      return (definitions.schema? kept).filter fun definition =>
        !definition.properties.contains discriminatorKey
          && !definition.properties.contains field.name
  | _, _ => pure none

/-- The variant that holds the properties of a message beside the discriminator. -/
def inlineVariant (field : Field) (definition : ObjectSchema) : Schema :=
  let description := field.comment.or definition.description
  (Schema.object ((discriminatorKey, .constant field.name) :: definition.properties)
    (discriminatorKey :: definition.required)).describe? description

def nestedVariant (field : Field) (value : Schema) : Schema :=
  .object (Entries.put field.name value [(discriminatorKey, .constant field.name)])
    [discriminatorKey, field.name]

def variant (compiler : Compiler) (resolve : Resolver) (field : Field) : Step Schema := do
  match ← inlined? resolve field with
  | some definition => return inlineVariant field definition
  | none => return nestedVariant field (← compiler.fieldSchemaWith resolve field)

def variants (compiler : Compiler) (resolve : Resolver) : List Field → Step (List Schema)
  | [] => pure []
  | field :: rest => do
    let first ← compiler.variant resolve field
    return first :: (← compiler.variants resolve rest)

/-! ## Schemas of messages -/

def slotSchema (compiler : Compiler) (resolve : Resolver) : Slot → Step Schema
  | .plain field => compiler.fieldSchemaWith resolve field
  | .group _ members => do return .union (← compiler.variants resolve members)

/-- Compiles the remaining properties of the message `owner` after those done. A property whose
name is taken is a failure, once its own schema has been compiled. -/
def properties (compiler : Compiler) (resolve : Resolver) (owner : String) :
    Entries Schema → List Slot → Step (Entries Schema)
  | done, [] => pure done
  | done, slot :: rest => do
    let schema ← compiler.slotSchema resolve slot
    if done.contains slot.property then .fail (.repeatedProperty owner slot.property)
    else compiler.properties resolve owner (done ++ [(slot.property, schema)]) rest

/-- The object schema of a message, without an entry of its own in the table. -/
def body (compiler : Compiler) (resolve : Resolver) (message : Message) : Step ObjectSchema := do
  let properties ← compiler.properties resolve message.fullName [] message.slots
  let required := message.slots.filter fun slot => slot.isRequired compiler.options
  return ⟨properties, required.map Slot.property, message.comment⟩

/-- Compiles a message under its name. A name that has no entry is reserved first and completed
afterwards, or withdrawn if the message cannot be compiled; an entry that was there stays. -/
def messageSchemaWith (compiler : Compiler) (resolve : Resolver) (message : Message) :
    Step ObjectSchema := fun definitions =>
  if definitions.contains message.fullName then
    compiler.body resolve message definitions
  else
    match compiler.body resolve message (definitions.reserve message.fullName) with
    | (.ok schema, after) => (.ok schema, after.complete message.fullName schema)
    | (.error cause, after) => (.error cause, after.withdraw message.fullName)

/-- Finds the registered message, compiles it by `compile` unless it has an entry, and yields the
name of the entry. -/
def ensure (compiler : Compiler) (compile : Message → Step ObjectSchema) : Resolver := fun name =>
  match compiler.registry.message? name with
  | none => .fail (.unknownType name)
  | some message => fun definitions =>
    if definitions.contains message.fullName then (.ok message.fullName, definitions)
    else
      match compile message definitions with
      | (.ok _, after) => (.ok message.fullName, after)
      | (.error cause, after) => (.error cause, after)

/-- Resolves names through at most `depth` messages inside each other. -/
def resolver (compiler : Compiler) : Nat → Resolver
  | 0 => compiler.ensure fun message => .fail (.unknownType message.fullName)
  | depth + 1 => compiler.ensure (compiler.messageSchemaWith (compiler.resolver depth))

/-- Resolves names through as many messages as are registered. Every message that is being compiled
inside another one has just been reserved, so no compilation goes deeper. -/
def resolve (compiler : Compiler) : Resolver :=
  compiler.resolver compiler.registry.messages.size

def messageSchema (compiler : Compiler) (message : Message) : Step ObjectSchema :=
  compiler.messageSchemaWith compiler.resolve message

def fieldSchema (compiler : Compiler) (field : Field) : Step Schema :=
  compiler.fieldSchemaWith compiler.resolve field

end Compiler

/-! ## Documents -/

structure Contract where
  root : ObjectSchema
  definitions : Definitions
  deriving Repr, Inhabited

/-- The document of a contract: the schema of the message, and the definitions after it. -/
def Contract.toJson (contract : Contract) : Json :=
  .obj (contract.root.toSchema.keywords ++ [("$defs", contract.definitions.toJson)])

/-- The contract of the message of that name, compiled on a table of its own. -/
def Compiler.contract (compiler : Compiler) (name : String) : Except SchemaError Contract :=
  match compiler.registry.message? name with
  | none => .error (.unknownType name)
  | some message =>
    match compiler.messageSchema message [] with
    | (.ok schema, definitions) => .ok ⟨schema, definitions⟩
    | (.error cause, _) => .error cause

end ToolContract
