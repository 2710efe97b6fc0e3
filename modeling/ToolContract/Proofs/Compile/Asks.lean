import ToolContract.Proofs.WellFormed

/-!
# What the compiler asks of its resolver

The functions that compile kinds, fields, variants and properties change the table of definitions
only through the resolver. They ask it for the message types that they refer to, look at the table,
and fail where an enum or a message is unknown or something is flawed. `Asks` is that shape, and each
function has it (`body_asks`); what follows from the shape alone is proved once, by induction on it.
-/

set_option autoImplicit false

namespace ToolContract

/-- Made of calls of the resolver for `asked` message types, looks at the table, and failures that
show the flaw. To ask for a message type that is not registered shows it too. -/
inductive Asks (registry : Registry) (asked : String → Prop) (flaw : Prop) :
    {α : Type} → (Resolver → Step α) → Prop where
  | settled {α : Type} (value : α) : Asks registry asked flaw fun _ => pure value
  | flawed {α : Type} (cause : SchemaError) :
      flaw → Asks registry asked flaw fun _ => (Step.fail cause : Step α)
  | look : Asks registry asked flaw fun _ => Step.definitions
  | ask {name : String} :
      asked (QualifiedName.strip name) → (registry.message? name = none → flaw) →
      Asks registry asked flaw fun resolve => resolve name
  | bind {α β : Type} {first : Resolver → Step α} {next : α → Resolver → Step β} :
      Asks registry asked flaw first → (∀ value, Asks registry asked flaw (next value)) →
      Asks registry asked flaw fun resolve => first resolve >>= fun value => next value resolve

namespace Compiler

variable {compiler : Compiler} {asked : String → Prop} {flaw : Prop}

theorem kindSchema_asks {kind : FieldKind}
    (known : ∀ target, kind.target? = some target → asked target)
    (flawed : ¬ kind.WellFormed compiler.registry → flaw) :
    Asks compiler.registry asked flaw fun resolve => compiler.kindSchema resolve kind := by
  cases kind with
  | scalar type => exact .settled _
  | enumeration name =>
    cases found : compiler.registry.enumeration? name with
    | none =>
      simp only [kindSchema, found]
      exact .flawed _ (flawed (by simp [FieldKind.WellFormed, found]))
    | some enumeration =>
      simp only [kindSchema, found]
      exact .settled _
  | message name =>
    cases plain : WellKnown.ofName? name with
    | some type =>
      simp only [kindSchema, plain]
      exact .settled _
    | none =>
      simp only [kindSchema, plain]
      refine .bind (.ask (known _ (by simp [FieldKind.target?, plain])) fun missing => ?_)
        fun _ => .settled _
      exact flawed (by simp [FieldKind.WellFormed, plain, missing])
  | group name => exact .flawed _ (flawed id)

private theorem valueSchema_asks {field : Field}
    (known : ∀ target, field.target? = some target → asked target)
    (flawed : ¬ field.WellFormed compiler.registry → flaw) :
    Asks compiler.registry asked flaw fun resolve => compiler.valueSchema resolve field := by
  have kind : Asks compiler.registry asked flaw fun resolve =>
      compiler.kindSchema resolve field.kind :=
    kindSchema_asks known fun unfit => flawed fun fine => unfit fine.kind
  cases cardinality : field.cardinality with
  | singular =>
    simp only [valueSchema, cardinality]
    exact kind
  | repeated =>
    simp only [valueSchema, cardinality]
    exact .bind kind fun _ => .settled _
  | map key =>
    simp only [valueSchema, cardinality]
    refine .bind kind fun _ => ?_
    cases form : key.keyForm? with
    | some form => exact .settled _
    | none => exact .flawed _ (flawed fun fine => by simpa [form] using fine.key key cardinality)

theorem fieldSchemaWith_asks {field : Field}
    (known : ∀ target, field.target? = some target → asked target)
    (flawed : ¬ field.WellFormed compiler.registry → flaw) :
    Asks compiler.registry asked flaw fun resolve => compiler.fieldSchemaWith resolve field :=
  .bind (valueSchema_asks known flawed) fun _ => .settled _

theorem inlined?_asks (registry : Registry) {member : Field}
    (known : ∀ target, member.target? = some target → asked target)
    (flawed : ¬ member.WellFormed registry → flaw) :
    Asks registry asked flaw fun resolve => inlined? resolve member := by
  unfold inlined?
  split
  · rename_i name kind alone
    cases plain : WellKnown.ofName? name with
    | some type => exact .settled _
    | none =>
      have target : member.target? = some (QualifiedName.strip name) := by
        simp [Field.target?, FieldKind.target?, kind, plain]
      refine .bind (.ask (known _ target) fun missing => ?_) fun _ => .bind .look fun _ => .settled _
      exact flawed fun fine => by simpa [kind, FieldKind.WellFormed, plain, missing] using fine.kind
  · exact .settled _

theorem variant_asks {member : Field}
    (known : ∀ target, member.target? = some target → asked target)
    (flawed : ¬ member.WellFormed compiler.registry → flaw) :
    Asks compiler.registry asked flaw fun resolve => compiler.variant resolve member := by
  refine .bind (inlined?_asks compiler.registry known flawed) fun found => ?_
  cases found with
  | some definition => exact .settled _
  | none => exact .bind (fieldSchemaWith_asks known flawed) fun _ => .settled _

theorem variants_asks {members : List Field}
    (known : ∀ target ∈ members.filterMap Field.target?, asked target)
    (flawed : ∀ member ∈ members, ¬ member.WellFormed compiler.registry → flaw) :
    Asks compiler.registry asked flaw fun resolve => compiler.variants resolve members := by
  induction members with
  | nil => exact .settled _
  | cons member rest ih =>
    have first : Asks compiler.registry asked flaw fun resolve =>
        compiler.variant resolve member :=
      variant_asks (fun target found =>
        known target (List.mem_filterMap.mpr ⟨member, List.mem_cons_self, found⟩))
        (flawed member List.mem_cons_self)
    refine .bind first fun _ => .bind (ih (fun target listed => known target ?_)
      fun other inside => flawed other (List.mem_cons_of_mem _ inside)) fun _ => .settled _
    obtain ⟨other, inside, found⟩ := List.mem_filterMap.mp listed
    exact List.mem_filterMap.mpr ⟨other, List.mem_cons_of_mem _ inside, found⟩

theorem slotSchema_asks {slot : Slot} (known : ∀ target ∈ slot.targets, asked target)
    (flawed : ∀ field ∈ slot.fields, ¬ field.WellFormed compiler.registry → flaw) :
    Asks compiler.registry asked flaw fun resolve => compiler.slotSchema resolve slot := by
  cases slot with
  | plain field =>
    exact fieldSchemaWith_asks (fun target found =>
      known target (List.mem_filterMap.mpr ⟨field, List.mem_singleton.mpr rfl, found⟩))
      (flawed field (List.mem_singleton.mpr rfl))
  | group name members => exact .bind (variants_asks known flawed) fun _ => .settled _

theorem properties_asks {owner : String} {done : Entries Schema} {slots : List Slot}
    (known : ∀ target ∈ slots.flatMap Slot.targets, asked target)
    (flawed : ∀ slot ∈ slots, ∀ field ∈ slot.fields, ¬ field.WellFormed compiler.registry → flaw)
    (repeated : ¬ (done.keys ++ slots.map Slot.property).Nodup → flaw) :
    Asks compiler.registry asked flaw fun resolve =>
      compiler.properties resolve owner done slots := by
  induction slots generalizing done with
  | nil => exact .settled _
  | cons slot rest ih =>
    rw [List.flatMap_cons] at known
    have first : Asks compiler.registry asked flaw fun resolve =>
        compiler.slotSchema resolve slot :=
      slotSchema_asks (fun target listed => known target (List.mem_append_left _ listed))
        (flawed slot List.mem_cons_self)
    refine .bind first fun schema => ?_
    by_cases taken : done.contains slot.property = true
    · simp only [taken, if_true]
      refine .flawed _ (repeated fun distinct => ?_)
      exact (List.nodup_append.mp distinct).2.2 _ (Entries.contains_iff.mp taken) _
        (List.mem_map.mpr ⟨slot, List.mem_cons_self, rfl⟩) rfl
    · simp only [taken]
      refine ih (fun target listed => known target (List.mem_append_right _ listed))
        (fun other inside => flawed other (List.mem_cons_of_mem _ inside)) fun twice => ?_
      exact repeated (by simpa using twice)

theorem body_asks (compiler : Compiler) (message : Message) :
    Asks compiler.registry (· ∈ message.targets) (¬ message.WellFormed compiler.registry)
      fun resolve => compiler.body resolve message := by
  rw [message.targets_eq_slots]
  refine .bind (properties_asks (fun _ listed => listed) (fun slot listed field inside unfit => ?_)
    fun twice => ?_) fun _ => .settled _
  · exact fun fine => unfit (fine.fields field (Message.mem_slot_fields listed inside).1)
  · exact fun fine => twice fine.properties

end Compiler

end ToolContract
