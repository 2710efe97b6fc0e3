import ToolContract.Proofs.Table.Faithful

/-!
# What compiled schemas say, on any table

A compilation that succeeds yields a schema that describes what was compiled, relative to the table
that it leaves (`messageSchema_described`). This holds on every table, whatever entries and
reservations it has, and for messages that are not registered.
-/

set_option autoImplicit false

namespace ToolContract

/-- On every table the resolver adds completed entries only, and what it yields is the name of the
registered message. -/
structure Resolver.Finds (resolve : Resolver) (registry : Registry) : Prop where
  extending : ∀ name, (resolve name).Extending
  named : ∀ {name kept before after}, resolve name before = (.ok kept, after) →
    ∃ message, registry.message? name = some message ∧ kept = message.fullName

namespace Compiler

variable {compiler : Compiler} {resolve : Resolver} {before after : Definitions}

private theorem resolver_finds (compiler : Compiler) (depth : Nat) :
    (compiler.resolver depth).Finds compiler.registry where
  extending := resolver_extending depth
  named ran := by
    have ensured {compile : Message → Step ObjectSchema} {name kept : String}
        {before after : Definitions}
        (ran : compiler.ensure compile name before = (.ok kept, after)) :
        ∃ message, compiler.registry.message? name = some message ∧ kept = message.fullName := by
      obtain ⟨message, found, rfl, -⟩ := ensure_eq_ok_iff.mp ran
      exact ⟨message, found, rfl⟩
    cases depth <;> exact ensured ran

private theorem kindSchema_described (finds : resolve.Finds compiler.registry) {kind : FieldKind}
    {schema : Schema} (ran : compiler.kindSchema resolve kind before = (.ok schema, after)) :
    KindDescribed compiler.registry kind schema := by
  cases kind with
  | scalar type =>
    obtain ⟨rfl, -⟩ := Step.pure_eq_ok ran
    exact .scalar
  | enumeration name =>
    cases found : compiler.registry.enumeration? name with
    | none =>
      simp only [kindSchema, found] at ran
      cases ran
    | some enumeration =>
      simp only [kindSchema, found] at ran
      obtain ⟨rfl, -⟩ := Step.pure_eq_ok ran
      exact .enumeration found
  | message name =>
    cases known : WellKnown.ofName? name with
    | some type =>
      simp only [kindSchema, known] at ran
      obtain ⟨rfl, -⟩ := Step.pure_eq_ok ran
      exact .wellKnown known
    | none =>
      simp only [kindSchema, known] at ran
      obtain ⟨kept, middle, resolved, rest⟩ := Step.bind_eq_ok ran
      obtain ⟨rfl, -⟩ := Step.pure_eq_ok rest
      obtain ⟨message, found, rfl⟩ := finds.named resolved
      rw [(Registry.message?_eq_some found).1]
      exact .message known found
  | group name => cases ran

private theorem valueSchema_described (finds : resolve.Finds compiler.registry) {field : Field}
    {schema : Schema} (ran : compiler.valueSchema resolve field before = (.ok schema, after)) :
    ValueDescribed compiler.registry field schema := by
  cases cardinality : field.cardinality with
  | singular =>
    simp only [valueSchema, cardinality] at ran
    exact .singular cardinality (kindSchema_described finds ran)
  | repeated =>
    simp only [valueSchema, cardinality] at ran
    obtain ⟨items, middle, first, rest⟩ := Step.bind_eq_ok ran
    obtain ⟨rfl, -⟩ := Step.pure_eq_ok rest
    exact .repeated cardinality (kindSchema_described finds first)
  | map key =>
    simp only [valueSchema, cardinality] at ran
    obtain ⟨values, middle, first, rest⟩ := Step.bind_eq_ok ran
    cases keyed : key.keyForm? with
    | none =>
      rw [keyed] at rest
      cases rest
    | some form =>
      rw [keyed] at rest
      obtain ⟨rfl, -⟩ := Step.pure_eq_ok rest
      exact .map cardinality keyed (kindSchema_described finds first)

private theorem fieldSchemaWith_described (finds : resolve.Finds compiler.registry) {field : Field}
    {schema : Schema} (ran : compiler.fieldSchemaWith resolve field before = (.ok schema, after)) :
    FieldDescribed compiler.registry field schema := by
  obtain ⟨plain, middle, first, rest⟩ := Step.bind_eq_ok ran
  obtain ⟨rfl, -⟩ := Step.pure_eq_ok rest
  exact ⟨plain, valueSchema_described finds first, rfl⟩

/-- A definition that a variant takes over is the entry of the member's message in the table. -/
theorem inlineVariant_described (finds : resolve.Finds compiler.registry) {member : Field}
    {definition : ObjectSchema}
    (ran : inlined? resolve member before = (.ok (some definition), after)) :
    VariantDescribed compiler.registry after member (inlineVariant member definition) := by
  cases kind : member.kind with
  | message name =>
    cases alone : member.cardinality with
    | singular =>
      cases plain : WellKnown.ofName? name with
      | some type =>
        simp only [inlined?, kind, alone, plain] at ran
        cases ran
      | none =>
        simp only [inlined?, kind, alone, plain] at ran
        obtain ⟨kept, middle, resolved, rest⟩ := Step.bind_eq_ok ran
        obtain ⟨table, last, looked, rest⟩ := Step.bind_eq_ok rest
        obtain ⟨rfl, rfl⟩ := Step.pure_eq_ok looked
        obtain ⟨chosen, rfl⟩ := Step.pure_eq_ok rest
        obtain ⟨message, found, rfl⟩ := finds.named resolved
        obtain ⟨stored, free⟩ := Option.filter_eq_some_iff.mp chosen
        simp only [Bool.and_eq_true, Bool.not_eq_true', ← Bool.not_eq_true, Entries.contains_iff]
          at free
        exact .inlined kind alone plain found stored free.1 free.2
    | _ =>
      simp only [inlined?, kind, alone] at ran
      cases ran
  | _ =>
    simp only [inlined?, kind] at ran
    cases ran

private theorem variant_described (finds : resolve.Finds compiler.registry) {member : Field}
    {schema : Schema} (ran : compiler.variant resolve member before = (.ok schema, after)) :
    VariantDescribed compiler.registry after member schema := by
  obtain ⟨found, middle, first, rest⟩ := Step.bind_eq_ok ran
  cases found with
  | some definition =>
    obtain ⟨rfl, rfl⟩ := Step.pure_eq_ok rest
    exact inlineVariant_described finds first
  | none =>
    obtain ⟨value, last, compiled, rest⟩ := Step.bind_eq_ok rest
    obtain ⟨rfl, rfl⟩ := Step.pure_eq_ok rest
    exact .ofNested (fieldSchemaWith_described finds compiled)

private theorem variants_described (finds : resolve.Finds compiler.registry) {members : List Field}
    {variants : List Schema}
    (ran : compiler.variants resolve members before = (.ok variants, after)) :
    List.Forall₂ (VariantDescribed compiler.registry after) members variants := by
  induction members generalizing before variants with
  | nil =>
    obtain ⟨rfl, -⟩ := Step.pure_eq_ok ran
    exact .nil
  | cons member rest ih =>
    obtain ⟨variant, middle, first, later⟩ := Step.bind_eq_ok ran
    obtain ⟨others, last, second, later⟩ := Step.bind_eq_ok later
    obtain ⟨rfl, rfl⟩ := Step.pure_eq_ok later
    have extending : (compiler.variants resolve rest).Extending :=
      variants_extending finds.extending rest
    have larger := extending middle
    rw [second] at larger
    exact .cons ((variant_described finds first).keeps larger.keeps) (ih second)

private theorem slotSchema_described (finds : resolve.Finds compiler.registry) {slot : Slot}
    {schema : Schema} (ran : compiler.slotSchema resolve slot before = (.ok schema, after)) :
    SlotDescribed compiler.registry after slot schema := by
  cases slot with
  | plain field => exact .plain (fieldSchemaWith_described finds ran)
  | group name members =>
    obtain ⟨variants, middle, first, rest⟩ := Step.bind_eq_ok ran
    obtain ⟨rfl, rfl⟩ := Step.pure_eq_ok rest
    exact .group (variants_described finds first)

/-- The properties that are done stay in front, and no name comes twice if none does in these. -/
theorem properties_described (finds : resolve.Finds compiler.registry) {owner : String}
    {slots : List Slot} {done properties : Entries Schema} (distinct : done.Distinct)
    (ran : compiler.properties resolve owner done slots before = (.ok properties, after)) :
    properties.Distinct ∧ ∃ added, properties = done ++ added ∧
      List.Forall₂ (PropertyDescribed compiler.registry after) slots added := by
  induction slots generalizing before done with
  | nil =>
    obtain ⟨rfl, -⟩ := Step.pure_eq_ok ran
    exact ⟨distinct, [], (List.append_nil _).symm, .nil⟩
  | cons slot rest ih =>
    obtain ⟨schema, middle, first, later⟩ := Step.bind_eq_ok ran
    split at later
    · cases later
    rename_i untaken
    have new : slot.property ∉ done.keys := mt Entries.contains_iff.mpr untaken
    have nextDistinct : Entries.Distinct (done ++ [(slot.property, schema)]) := by
      rw [Entries.Distinct, Entries.keys_append]
      exact List.nodup_append_comm.mp (List.nodup_cons.mpr ⟨new, distinct⟩)
    obtain ⟨allDistinct, added, rfl, described⟩ := ih nextDistinct later
    have extending : (compiler.properties resolve owner (done ++ [(slot.property, schema)])
        rest).Extending := properties_extending finds.extending _ _ _
    have larger := extending middle
    rw [later] at larger
    refine ⟨allDistinct, (slot.property, schema) :: added, by simp, .cons ⟨rfl, ?_⟩ described⟩
    exact (slotSchema_described finds first).keeps larger.keeps

private theorem body_described (finds : resolve.Finds compiler.registry) {message : Message}
    {schema : ObjectSchema} (ran : compiler.body resolve message before = (.ok schema, after)) :
    MessageDescribed compiler after message schema := by
  obtain ⟨properties, middle, first, rest⟩ := Step.bind_eq_ok ran
  obtain ⟨rfl, rfl⟩ := Step.pure_eq_ok rest
  have none : Entries.Distinct ([] : Entries Schema) := List.nodup_nil
  obtain ⟨distinct, added, rfl, described⟩ := properties_described finds none first
  exact ⟨described, distinct, rfl, rfl⟩

/-- Whatever the table holds, the schema of a message describes it. -/
theorem messageSchema_described {message : Message} {schema : ObjectSchema}
    (ran : compiler.messageSchema message before = (.ok schema, after)) :
    MessageDescribed compiler after message schema := by
  have finds := compiler.resolver_finds compiler.registry.messages.size
  by_cases present : message.fullName ∈ before.keys
  · rw [messageSchema, messageSchemaWith_of_mem present] at ran
    exact body_described finds ran
  · obtain ⟨middle, built, rfl⟩ := (messageSchemaWith_eq_ok_iff present).mp ran
    have extending : (compiler.body compiler.resolve message).Extending :=
      body_extending finds.extending message
    have larger := extending (before.reserve message.fullName)
    rw [built] at larger
    have reserved := Definitions.get?_of_reserve_extends present larger
    exact (body_described finds built).keeps (Definitions.keeps_complete reserved)

end Compiler

end ToolContract
