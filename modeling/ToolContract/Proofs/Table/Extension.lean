import ToolContract.Proofs.Compile.Respects

/-!
# How a compilation changes the table

Whatever a step is asked to compile and whether it fails or not, the table afterwards is the table
before with completed entries of new names behind it. The main statements are
`messageSchema_extending` and `fieldSchema_extending`. They hold for every message, registered or
not, and for every table, whatever is reserved in it.
-/

set_option autoImplicit false

namespace ToolContract

namespace Definitions

/-- Completes the name that was reserved, or withdraws it after a failure. -/
def close (table : Definitions) (name : String) : Except SchemaError ObjectSchema → Definitions
  | .ok schema => table.complete name schema
  | .error _ => table.withdraw name

/-- Completed entries of new names come after what was there. -/
def Extends (before after : Definitions) : Prop :=
  ∃ added : Definitions, after = before ++ added ∧ added.keys.Nodup ∧
    (∀ name ∈ added.keys, name ∉ before.keys) ∧
    ∀ entry ∈ added, ∃ schema, entry.2 = .completed schema

namespace Extends

variable {before middle after : Definitions}

theorem refl (definitions : Definitions) : definitions.Extends definitions :=
  ⟨[], by simp⟩

theorem trans (first : before.Extends middle) (last : middle.Extends after) :
    before.Extends after := by
  obtain ⟨left, rfl, leftNodup, leftNew, leftCompleted⟩ := first
  obtain ⟨right, rfl, rightNodup, rightNew, rightCompleted⟩ := last
  refine ⟨left ++ right, List.append_assoc _ _ _, ?_, ?_, ?_⟩
  · rw [Entries.keys_append, List.nodup_append]
    refine ⟨leftNodup, rightNodup, ?_⟩
    intro name member other later same
    subst same
    exact rightNew name later (by simp [member])
  · intro name member
    rw [Entries.keys_append, List.mem_append] at member
    rcases member with member | member
    · exact leftNew name member
    · exact fun old => rightNew name member (by simp [old])
  · intro entry member
    rcases List.mem_append.mp member with member | member
    · exact leftCompleted entry member
    · exact rightCompleted entry member

theorem keys_subset (extends_ : before.Extends after) : before.keys ⊆ after.keys := by
  obtain ⟨added, rfl, -⟩ := extends_
  intro name member
  simp [member]

theorem get? (extends_ : before.Extends after) {name : String} {definition : Definition}
    (found : Entries.get? name before = some definition) :
    Entries.get? name after = some definition := by
  obtain ⟨added, rfl, -⟩ := extends_
  rw [Entries.get?_append, found, Option.some_or]

theorem schema? (extends_ : before.Extends after) {name : String} {schema : ObjectSchema}
    (found : before.schema? name = some schema) : after.schema? name = some schema := by
  unfold Definitions.schema? at found ⊢
  split at found
  · rename_i held
    rw [extends_.get? held]
    exact found
  · contradiction

theorem distinct (extends_ : before.Extends after) (nodup : before.keys.Nodup) :
    after.keys.Nodup := by
  obtain ⟨added, rfl, addedNodup, new, -⟩ := extends_
  rw [Entries.keys_append, List.nodup_append]
  refine ⟨nodup, addedNodup, ?_⟩
  intro name member other later same
  subst same
  exact new name later member

/-- Completing a name that was reserved before a step makes one more entry of its additions. -/
theorem complete {name : String} (absent : name ∉ before.keys)
    (extends_ : (before.reserve name).Extends after) (schema : ObjectSchema) :
    before.Extends (after.complete name schema) := by
  obtain ⟨added, rfl, nodup, new, completed⟩ := extends_
  refine ⟨(name, .completed schema) :: added, ?_, ?_, ?_, ?_⟩
  · rw [Definitions.complete, reserve, List.append_assoc, Entries.put_append absent]
    simp [Entries.put]
  · rw [Entries.keys_cons, List.nodup_cons]
    exact ⟨fun member => new name member (by simp [reserve]), nodup⟩
  · intro other member
    rcases List.mem_cons.mp member with rfl | member
    · exact absent
    · exact fun old => new other member (by simp [reserve, old])
  · intro entry member
    rcases List.mem_cons.mp member with rfl | member
    · exact ⟨schema, rfl⟩
    · exact completed entry member

/-- Withdrawing a name that was reserved before a step leaves the other additions. -/
theorem withdraw {name : String} (absent : name ∉ before.keys)
    (extends_ : (before.reserve name).Extends after) :
    before.Extends (after.withdraw name) := by
  obtain ⟨added, rfl, nodup, new, completed⟩ := extends_
  have fresh : name ∉ added.keys := fun member => new name member (by simp [reserve])
  refine ⟨added, ?_, nodup, ?_, completed⟩
  · rw [Definitions.withdraw, reserve, List.append_assoc, Entries.erase_append,
      Entries.erase_of_not_mem absent, Entries.erase_append, Entries.erase_of_not_mem fresh]
    simp [Entries.erase]
  · intro other member old
    exact new other member (by simp [reserve, old])

theorem close {name : String} (absent : name ∉ before.keys)
    (extends_ : (before.reserve name).Extends after) (outcome : Except SchemaError ObjectSchema) :
    before.Extends (after.close name outcome) := by
  cases outcome with
  | ok schema => exact extends_.complete absent schema
  | error cause => exact extends_.withdraw absent

end Extends

end Definitions

/-! ## Steps -/

/-- The step extends every table, also when it fails. -/
def Step.Extending {α : Type} (step : Step α) : Prop :=
  ∀ before : Definitions, before.Extends (step before).2

instance : IsPreorder Definitions Definitions.Extends where
  refl := .refl
  trans _ _ _ first last := first.trans last

namespace Step

variable {α β : Type}

theorem extending_pure (value : α) : (pure value : Step α).Extending :=
  respects_pure value

theorem extending_fail (cause : SchemaError) : (fail cause : Step α).Extending :=
  respects_fail cause

theorem Extending.bind {step : Step α} {next : α → Step β} (first : step.Extending)
    (later : ∀ value, (next value).Extending) : (step >>= next).Extending :=
  Respects.bind first later

end Step

/-- What is asked of an extending resolver extends every table. -/
theorem Asks.extending {registry : Registry} {asked : String → Prop} {flaw : Prop} {α : Type}
    {part : Resolver → Step α} {resolve : Resolver} (asks : Asks registry asked flaw part)
    (resolving : ∀ name, (resolve name).Extending) : (part resolve).Extending :=
  asks.respects fun _ _ name _ => resolving name

namespace Compiler

open Step

variable {compiler : Compiler} {resolve : Resolver} {message : Message}
  {before after : Definitions}

theorem kindSchema_extending (resolving : ∀ name, (resolve name).Extending) (kind : FieldKind) :
    (compiler.kindSchema resolve kind).Extending :=
  (kindSchema_asks (fun _ found => found) fun _ => trivial).extending resolving

private theorem fieldSchemaWith_extending (resolving : ∀ name, (resolve name).Extending)
    (field : Field) :
    (compiler.fieldSchemaWith resolve field).Extending :=
  (fieldSchemaWith_asks (fun _ found => found) fun _ => trivial).extending resolving

theorem inlined?_extending (resolving : ∀ name, (resolve name).Extending) (field : Field) :
    (inlined? resolve field).Extending :=
  (inlined?_asks .empty (fun _ found => found) fun _ => trivial).extending resolving

theorem variant_extending (resolving : ∀ name, (resolve name).Extending) (field : Field) :
    (compiler.variant resolve field).Extending :=
  (variant_asks (fun _ found => found) fun _ => trivial).extending resolving

theorem variants_extending (resolving : ∀ name, (resolve name).Extending) (members : List Field) :
    (compiler.variants resolve members).Extending :=
  (variants_asks (fun _ listed => listed) fun _ _ _ => trivial).extending resolving

theorem slotSchema_extending (resolving : ∀ name, (resolve name).Extending) (slot : Slot) :
    (compiler.slotSchema resolve slot).Extending :=
  (slotSchema_asks (fun _ listed => listed) fun _ _ _ => trivial).extending resolving

theorem properties_extending (resolving : ∀ name, (resolve name).Extending) (owner : String)
    (done : Entries Schema) (slots : List Slot) :
    (compiler.properties resolve owner done slots).Extending :=
  (properties_asks (fun _ listed => listed) (fun _ _ _ _ _ => trivial) fun _ => trivial).extending
    resolving

theorem body_extending (resolving : ∀ name, (resolve name).Extending) (message : Message) :
    (compiler.body resolve message).Extending :=
  (body_asks compiler message).extending resolving

theorem messageSchemaWith_of_mem (present : message.fullName ∈ before.keys) :
    compiler.messageSchemaWith resolve message before = compiler.body resolve message before := by
  rw [messageSchemaWith, if_pos (Entries.contains_iff.mpr present)]

theorem messageSchemaWith_of_not_mem (absent : message.fullName ∉ before.keys)
    {outcome : Except SchemaError ObjectSchema}
    (ran : compiler.body resolve message (before.reserve message.fullName) = (outcome, after)) :
    compiler.messageSchemaWith resolve message before =
      (outcome, after.close message.fullName outcome) := by
  rw [messageSchemaWith, if_neg (by rwa [Entries.contains_iff]), ran]
  cases outcome <;> rfl

/-- A message without an entry is compiled under a reservation, which is completed. -/
theorem messageSchemaWith_eq_ok_iff (absent : message.fullName ∉ before.keys)
    {schema : ObjectSchema} :
    compiler.messageSchemaWith resolve message before = (.ok schema, after) ↔
      ∃ middle, compiler.body resolve message (before.reserve message.fullName) =
        (.ok schema, middle) ∧ middle.complete message.fullName schema = after := by
  rcases built : compiler.body resolve message (before.reserve message.fullName) with
    ⟨outcome, middle⟩
  rw [messageSchemaWith_of_not_mem absent built]
  constructor
  · intro ran
    obtain ⟨rfl, rfl⟩ := Prod.mk.inj ran
    exact ⟨middle, rfl, rfl⟩
  · rintro ⟨_, same, rfl⟩
    obtain ⟨rfl, rfl⟩ := Prod.mk.inj same
    rfl

/-- What the resolver yields is the name of the registered message; the table changes only if the
message has no entry. -/
theorem ensure_eq_ok_iff {compile : Message → Step ObjectSchema} {name kept : String} :
    compiler.ensure compile name before = (.ok kept, after) ↔
      ∃ message, compiler.registry.message? name = some message ∧ message.fullName = kept ∧
        (message.fullName ∈ before.keys ∧ before = after ∨
          message.fullName ∉ before.keys ∧
            ∃ schema, compile message before = (.ok schema, after)) := by
  cases found : compiler.registry.message? name with
  | none => simp [ensure, found, Step.fail]
  | some message =>
    by_cases present : message.fullName ∈ before.keys
    · simp [ensure, found, present, Entries.contains_iff]
    · rcases ran : compile message before with ⟨outcome, middle⟩
      cases outcome <;> simp [ensure, found, present, Entries.contains_iff, ran]

theorem messageSchemaWith_extending (resolving : ∀ name, (resolve name).Extending)
    (message : Message) : (compiler.messageSchemaWith resolve message).Extending := by
  have body : (compiler.body resolve message).Extending := body_extending resolving message
  intro before
  by_cases present : message.fullName ∈ before.keys
  · rw [messageSchemaWith_of_mem present]
    exact body before
  · rcases ran : compiler.body resolve message (before.reserve message.fullName) with
      ⟨outcome, after⟩
    have extends_ := body (before.reserve message.fullName)
    rw [ran] at extends_
    rw [messageSchemaWith_of_not_mem present ran]
    exact extends_.close present outcome

theorem ensure_extending {compile : Message → Step ObjectSchema}
    (compiling : ∀ message, (compile message).Extending) (name : String) :
    (compiler.ensure compile name).Extending := by
  unfold ensure
  split
  · exact extending_fail _
  · rename_i message _
    intro before
    have extends_ := compiling message before
    dsimp only
    split
    · exact .refl before
    · split <;> rename_i ran <;> rw [ran] at extends_ <;> exact extends_

theorem resolver_extending (depth : Nat) (name : String) :
    (compiler.resolver depth name).Extending := by
  induction depth generalizing name with
  | zero => exact ensure_extending (fun _ => extending_fail _) name
  | succ depth ih => exact ensure_extending (fun message => messageSchemaWith_extending ih message) name

/-- Compiling a message leaves the entries of the table as they are and adds completed ones. -/
theorem messageSchema_extending (compiler : Compiler) (message : Message) :
    (compiler.messageSchema message).Extending :=
  messageSchemaWith_extending (resolver_extending _) message

/-- Compiling a field leaves the entries of the table as they are and adds completed ones. -/
theorem fieldSchema_extending (compiler : Compiler) (field : Field) :
    (compiler.fieldSchema field).Extending :=
  fieldSchemaWith_extending (resolver_extending _) field

end Compiler

end ToolContract
