import ToolContract.Proofs.Compile.Runs
import ToolContract.Proofs.Contract.Loosening

/-!
# What honouring the keyword `optional` changes

Two compilers that differ in whether a field without the keyword must be present go through the same
steps on every registry. Their tables have the same names in the same order at each moment, and the
definitions, unions and variants that they build differ in required properties only. So both give a
contract or both fail, for the same cause, and the contract of the compiler that asks for less
loosens the other one (`Compiler.contract_honourOptional`).
-/

set_option autoImplicit false

namespace ToolContract

/-- The cause lies in a message or in what it refers to, not in extra properties or in tools. -/
def SchemaError.OfMessage : SchemaError → Prop
  | .unknownType _ | .groupField _ | .mapKey _ _ | .repeatedProperty _ _ => True
  | .streamingMethod _ _ | .repeatedExtra _ | .shadowedProperty _ _ | .repeatedTool _ => False

/-! ## Steps in pairs -/

/-- Both fail for the same cause, which lies in a message, or both succeed with related values; the
first table that is left loosens the second. -/
inductive Step.EndAlike {α β : Type} (related : α → β → Prop) :
    Except SchemaError α × Definitions → Except SchemaError β × Definitions → Prop where
  | ok {left : α} {right : β} {after other : Definitions} :
      related left right → after.Loosen other →
      Step.EndAlike related (.ok left, after) (.ok right, other)
  | error {cause : SchemaError} {after other : Definitions} :
      cause.OfMessage → after.Loosen other →
      Step.EndAlike related (.error cause, after) (.error cause, other)

/-- On tables of which the first loosens the second, the steps end alike. -/
def Step.Paired {α β : Type} (related : α → β → Prop) (loose : Step α) (strict : Step β) : Prop :=
  ∀ before other : Definitions, before.Loosen other →
    Step.EndAlike related (loose before) (strict other)

namespace Step.Paired

variable {α β γ δ : Type} {related : α → β → Prop} {relatedNext : γ → δ → Prop}
  {loose : Step α} {strict : Step β}

private theorem pure {left : α} {right : β} (values : related left right) :
    Paired related (Pure.pure left : Step α) (Pure.pure right) := by
  intro before other tables
  exact .ok values tables

private theorem fail {cause : SchemaError} (about : cause.OfMessage) :
    Paired related (Step.fail cause) (Step.fail cause) := by
  intro before other tables
  exact .error about tables

theorem definitions :
    Paired Definitions.Loosen Step.definitions Step.definitions := by
  intro before other tables
  exact .ok tables tables

private theorem imp {weaker : α → β → Prop} (step : Paired related loose strict)
    (weaken : ∀ left right, related left right → weaker left right) :
    Paired weaker loose strict := by
  intro before other tables
  have ended := step before other tables
  generalize loose before = left at ended ⊢
  generalize strict other = right at ended ⊢
  cases ended with
  | error about after => exact .error about after
  | ok values after => exact .ok (weaken _ _ values) after

private theorem bind {looseNext : α → Step γ} {strictNext : β → Step δ}
    (first : Paired related loose strict)
    (later : ∀ left right, related left right →
      Paired relatedNext (looseNext left) (strictNext right)) :
    Paired relatedNext (loose >>= looseNext) (strict >>= strictNext) := by
  intro before other tables
  have ended := first before other tables
  generalize looseRan : loose before = left at ended
  generalize strictRan : strict other = right at ended
  cases ended with
  | error about middle =>
    rw [Step.bind_of_error looseRan, Step.bind_of_error strictRan]
    exact .error about middle
  | ok values middle =>
    rw [Step.bind_of_ok looseRan, Step.bind_of_ok strictRan]
    exact later _ _ values _ _ middle

/-- The values are passed on through functions that keep them related. -/
theorem map {left : α → γ} {right : β → δ} (first : Paired related loose strict)
    (keeps : ∀ one another, related one another → relatedNext (left one) (right another)) :
    Paired relatedNext (do return left (← loose)) (do return right (← strict)) :=
  first.bind fun one another values => .pure (keeps one another values)

end Step.Paired

private theorem rel_filter {α β : Type} {related : α → β → Prop} {left : Option α}
    {right : Option β}
    {keep : α → Bool} {keepOther : β → Bool} (values : Option.Rel related left right)
    (alike : ∀ one another, related one another → keep one = keepOther another) :
    Option.Rel related (left.filter keep) (right.filter keepOther) := by
  cases values with
  | none => exact .none
  | @some one another pair =>
    rw [Option.filter_some, Option.filter_some, alike one another pair]
    split
    · exact .some pair
    · exact .none

/-! ## Compilers in pairs -/

/-- Both compilers read one registry, and whatever the first of them requires the other does. -/
structure Compiler.Loosens (loose strict : Compiler) : Prop where
  registry : loose.registry = strict.registry
  options : loose.options.honourOptional = true → strict.options.honourOptional = true

private theorem Compiler.Loosens.refl (compiler : Compiler) : compiler.Loosens compiler :=
  ⟨rfl, id⟩

/-- The resolvers find the same names. -/
def Resolver.Paired (loose strict : Resolver) : Prop :=
  ∀ name, Step.Paired Eq (loose name) (strict name)

private theorem Slot.isRequired_of_loosens {loose strict : Compiler}
    (loosens : loose.Loosens strict)
    (slot : Slot) (required : slot.isRequired loose.options = true) :
    slot.isRequired strict.options = true := by
  have options := loosens.options
  cases slot with
  | plain field =>
    simp only [Slot.isRequired, Field.isRequired, Bool.and_eq_true, Bool.or_eq_true] at required ⊢
    refine ⟨required.1, required.2.imp id fun honoured => ⟨options honoured.1, honoured.2⟩⟩
  | group name members =>
    simp only [Slot.isRequired, groupIsRequired, Bool.or_eq_true] at required ⊢
    exact required.imp options id

namespace Compiler

variable {loose strict : Compiler} {resolve another : Resolver}

private theorem kindSchema_paired (loosens : loose.Loosens strict)
    (resolvers : resolve.Paired another)
    (kind : FieldKind) :
    Step.Paired Eq (loose.kindSchema resolve kind) (strict.kindSchema another kind) := by
  cases kind with
  | scalar type => exact .pure rfl
  | enumeration name =>
    rw [kindSchema, kindSchema, loosens.registry]
    cases strict.registry.enumeration? name with
    | none => exact .fail trivial
    | some enumeration => exact .pure rfl
  | message name =>
    rw [kindSchema, kindSchema]
    cases WellKnown.ofName? name with
    | some type => exact .pure rfl
    | none => exact (resolvers name).map fun _ _ same => congrArg Schema.reference same
  | group name => exact .fail trivial

private theorem valueSchema_paired (loosens : loose.Loosens strict)
    (resolvers : resolve.Paired another)
    (field : Field) :
    Step.Paired Eq (loose.valueSchema resolve field) (strict.valueSchema another field) := by
  have kind := kindSchema_paired loosens resolvers field.kind
  rw [valueSchema, valueSchema]
  cases field.cardinality with
  | singular => exact kind
  | repeated => exact kind.map fun _ _ same => congrArg Schema.list same
  | map key =>
    refine kind.bind fun left right same => ?_
    cases key.keyForm? with
    | none => exact .fail trivial
    | some form => exact .pure (congrArg (Schema.map · form) same)

private theorem fieldSchemaWith_paired (loosens : loose.Loosens strict)
    (resolvers : resolve.Paired another) (field : Field) :
    Step.Paired Eq (loose.fieldSchemaWith resolve field) (strict.fieldSchemaWith another field) :=
  (valueSchema_paired loosens resolvers field).map fun _ _ same =>
    congrArg (Schema.describe? field.comment) same

/-- A definition is taken over in both compilations or in neither, since only its names decide. -/
theorem inlined?_paired (resolvers : resolve.Paired another) (member : Field) :
    Step.Paired (Option.Rel ObjectSchema.Loosens) (inlined? resolve member)
      (inlined? another member) := by
  unfold inlined?
  split
  · rename_i name _ _
    cases WellKnown.ofName? name with
    | some type => exact .pure .none
    | none =>
      refine (resolvers name).bind fun kept again same => Step.Paired.definitions.bind ?_
      intro table other tables
      subst same
      refine .pure (rel_filter (tables.schema? kept) fun left right schema => ?_)
      rw [schema.properties.contains_eq, schema.properties.contains_eq]
  · exact .pure .none

private theorem inlineVariant_loosens (member : Field) {left right : ObjectSchema}
    (loosens : left.Loosens right) :
    (inlineVariant member left).Loosens (inlineVariant member right) :=
  .inlined member loosens.properties loosens.required loosens.description

private theorem variant_paired (loosens : loose.Loosens strict) (resolvers : resolve.Paired another)
    (member : Field) :
    Step.Paired Schema.Loosens (loose.variant resolve member) (strict.variant another member) := by
  refine (inlined?_paired resolvers member).bind fun left right found => ?_
  cases found with
  | some definition => exact .pure (inlineVariant_loosens member definition)
  | none =>
    refine (fieldSchemaWith_paired loosens resolvers member).map fun left right same => ?_
    subst same
    exact .same (nestedVariant member left)

private theorem variants_paired (loosens : loose.Loosens strict)
    (resolvers : resolve.Paired another)
    (members : List Field) :
    Step.Paired Schema.LoosenEach (loose.variants resolve members)
      (strict.variants another members) := by
  induction members with
  | nil => exact .pure .nil
  | cons member rest ih =>
    refine (variant_paired loosens resolvers member).bind fun left right first => ?_
    exact ih.map fun lefts rights later => .cons first later

private theorem slotSchema_paired (loosens : loose.Loosens strict)
    (resolvers : resolve.Paired another)
    (slot : Slot) :
    Step.Paired Schema.Loosens (loose.slotSchema resolve slot)
      (strict.slotSchema another slot) := by
  cases slot with
  | plain field =>
    refine (fieldSchemaWith_paired loosens resolvers field).imp fun left right same => ?_
    subst same
    exact .same left
  | group name members =>
    exact (variants_paired loosens resolvers members).map fun lefts rights each => .union each

private theorem properties_paired (loosens : loose.Loosens strict)
    (resolvers : resolve.Paired another)
    (owner : String) (slots : List Slot) {done doneOther : Entries Schema}
    (before : Schema.LoosenProperties done doneOther) :
    Step.Paired Schema.LoosenProperties (loose.properties resolve owner done slots)
      (strict.properties another owner doneOther slots) := by
  induction slots generalizing done doneOther with
  | nil => exact .pure before
  | cons slot rest ih =>
    refine (slotSchema_paired loosens resolvers slot).bind fun left right schema => ?_
    rw [before.contains_eq]
    split
    · exact .fail trivial
    · exact ih (before.concat slot.property schema)

private theorem body_paired (loosens : loose.Loosens strict) (resolvers : resolve.Paired another)
    (message : Message) :
    Step.Paired ObjectSchema.Loosens (loose.body resolve message)
      (strict.body another message) := by
  refine (properties_paired loosens resolvers _ _ .nil).map fun left right properties => ?_
  refine ⟨properties, List.Sublist.map _ ?_, rfl⟩
  exact List.monotone_filter_right _ (Slot.isRequired_of_loosens loosens)

private theorem messageSchemaWith_paired (loosens : loose.Loosens strict)
    (resolvers : resolve.Paired another) (message : Message) :
    Step.Paired ObjectSchema.Loosens (loose.messageSchemaWith resolve message)
      (strict.messageSchemaWith another message) := by
  have body := body_paired loosens resolvers message
  intro before other tables
  by_cases present : message.fullName ∈ before.keys
  · rw [messageSchemaWith_of_mem present, messageSchemaWith_of_mem (tables.keys_eq ▸ present)]
    exact body before other tables
  · have absent : message.fullName ∉ other.keys := tables.keys_eq ▸ present
    have ended := body _ _ (tables.reserve message.fullName)
    generalize looseRan :
      loose.body resolve message (before.reserve message.fullName) = left at ended
    generalize strictRan :
      strict.body another message (other.reserve message.fullName) = right at ended
    cases ended with
    | error about after =>
      rw [messageSchemaWith_of_not_mem present looseRan,
        messageSchemaWith_of_not_mem absent strictRan]
      exact .error about (after.withdraw message.fullName)
    | ok schema after =>
      rw [messageSchemaWith_of_not_mem present looseRan,
        messageSchemaWith_of_not_mem absent strictRan]
      exact .ok schema (after.complete message.fullName schema)

private theorem ensure_paired (loosens : loose.Loosens strict)
    {compile compileOther : Message → Step ObjectSchema}
    (compiled : ∀ message,
      Step.Paired ObjectSchema.Loosens (compile message) (compileOther message)) :
    Resolver.Paired (loose.ensure compile) (strict.ensure compileOther) := by
  intro name
  rw [ensure, ensure, loosens.registry]
  cases strict.registry.message? name with
  | none => exact .fail trivial
  | some message =>
    intro before other tables
    dsimp only
    rw [tables.contains_eq]
    split
    · exact .ok rfl tables
    · have ended := compiled message before other tables
      generalize compile message before = left at ended ⊢
      generalize compileOther message other = right at ended ⊢
      cases ended with
      | error about after => exact .error about after
      | ok schema after => exact .ok rfl after

private theorem resolver_paired (loosens : loose.Loosens strict) (depth : Nat) :
    Resolver.Paired (loose.resolver depth) (strict.resolver depth) := by
  induction depth with
  | zero => exact ensure_paired loosens fun message => .fail trivial
  | succ depth ih => exact ensure_paired loosens (messageSchemaWith_paired loosens ih)

private theorem contract_paired (loosens : loose.Loosens strict) (name : String) :
    (∃ cause : SchemaError, cause.OfMessage ∧
      loose.contract name = .error cause ∧ strict.contract name = .error cause) ∨
    ∃ left right : Contract, left.Loosens right ∧
      loose.contract name = .ok left ∧ strict.contract name = .ok right := by
  rw [contract, contract, loosens.registry]
  cases strict.registry.message? name with
  | none => exact .inl ⟨.unknownType name, trivial, rfl, rfl⟩
  | some message =>
    have resolvers : Resolver.Paired loose.resolve strict.resolve := by
      rw [resolve, resolve, loosens.registry]
      exact resolver_paired loosens _
    have ended : Step.EndAlike ObjectSchema.Loosens (loose.messageSchema message [])
        (strict.messageSchema message []) :=
      messageSchemaWith_paired loosens resolvers message [] [] .nil
    dsimp only
    generalize loose.messageSchema message [] = left at ended ⊢
    generalize strict.messageSchema message [] = right at ended ⊢
    cases ended with
    | error about => exact .inl ⟨_, about, rfl, rfl⟩
    | ok schema after => exact .inr ⟨_, _, ⟨schema, after⟩, rfl, rfl⟩

/-- No contract fails for a reason that lies in extra properties or in tools. -/
theorem contract_error (compiler : Compiler) {name : String} {cause : SchemaError}
    (failed : compiler.contract name = .error cause) : cause.OfMessage := by
  rcases contract_paired (.refl compiler) name with ⟨other, about, same, -⟩ | ⟨_, _, -, same, -⟩
  · rw [failed] at same
    cases same
    exact about
  · rw [failed] at same
    cases same

end Compiler

/-! ## The option changes required properties only -/

/-- For every registry and name, to honour the keyword `optional` changes neither whether there is a
contract nor the cause of a failure. The two contracts are the same but for the required properties
of message objects and of the variants that take over such objects: what is required without the
option stands among what is required with it, in the same order. So their documents are the same, key
order included, but for texts that are missing from lists under `required`. -/
theorem Compiler.contract_honourOptional (registry : Registry) (name : String) :
    (∃ cause, (Compiler.mk registry ⟨false⟩).contract name = .error cause ∧
      (Compiler.mk registry ⟨true⟩).contract name = .error cause) ∨
    ∃ loose strict, (Compiler.mk registry ⟨false⟩).contract name = .ok loose ∧
      (Compiler.mk registry ⟨true⟩).contract name = .ok strict ∧
      loose.Loosens strict ∧ loose.toJson.SameButRequired strict.toJson := by
  have loosens : (Compiler.mk registry ⟨false⟩).Loosens (Compiler.mk registry ⟨true⟩) :=
    ⟨rfl, nofun⟩
  rcases Compiler.contract_paired loosens name with
    ⟨cause, -, looseFailed, strictFailed⟩ | ⟨left, right, contracts, looseRan, strictRan⟩
  · exact .inl ⟨cause, looseFailed, strictFailed⟩
  · exact .inr ⟨left, right, looseRan, strictRan, contracts, contracts.document⟩

end ToolContract
