import ToolContract.Proofs.Contract.Validation
import ToolContract.Proofs.Request.Variant

/-!
# Messages that can be filled

A message whose required properties lead back to it has no finite value. `Registry.Fillable` is the
least set of messages in which each required property has a field that needs no message outside of
the set. What a contract accepts shows that its message is fillable
(`Contract.Describes.fillable_of_accepts`).
-/

set_option autoImplicit false

namespace ToolContract

open Json

/-- The message type that each value of the field holds a value of. Lists and maps may be empty. -/
def Field.needs? (field : Field) : Option String :=
  match field.cardinality with
  | .singular => field.target?
  | .repeated | .map _ => none

/-- The message of the name can be written down: for each required property there is a field that
needs no message, or one that can be written down. -/
inductive Registry.Fillable (registry : Registry) (options : Options) : String → Prop where
  | message {name : String} {message : Message} (chosen : Slot → Field) :
      registry.messages[name]? = some message →
      (∀ slot ∈ message.slots, slot.isRequired options = true → chosen slot ∈ slot.fields) →
      (∀ slot ∈ message.slots, slot.isRequired options = true →
        ∀ next, (chosen slot).needs? = some next → Fillable registry options next) →
      Fillable registry options name

theorem Registry.Fillable.of_slots {registry : Registry} {options : Options} {name : String}
    {message : Message} (registered : registry.messages[name]? = some message)
    (each : ∀ slot ∈ message.slots, slot.isRequired options = true →
      ∃ field ∈ slot.fields, ∀ next, field.needs? = some next →
        registry.Fillable options next) : registry.Fillable options name := by
  classical
  let chosen (slot : Slot) : Field :=
    if given : slot ∈ message.slots ∧ slot.isRequired options = true
    then (each slot given.1 given.2).choose else default
  have spec (slot : Slot) (listed : slot ∈ message.slots)
      (required : slot.isRequired options = true) : chosen slot ∈ slot.fields ∧
        ∀ next, (chosen slot).needs? = some next → registry.Fillable options next := by
    simp only [chosen, dif_pos (And.intro listed required)]
    exact (each slot listed required).choose_spec
  exact .message chosen registered (fun slot listed required => (spec slot listed required).1)
    fun slot listed required => (spec slot listed required).2

/-! ## Values of a contract -/

/-- The schema accepts the value with the definitions of the contract. -/
abbrev Contract.Accepts (contract : Contract) (schema : Schema) (value : Json) : Prop :=
  Json.Accepts contract.definitions.documents contract.definitions.documents.length schema.toJson
    value

theorem Contract.admits_iff {contract : Contract} {value : Json} :
    contract.toJson.Admits value ↔ contract.Accepts contract.root.toSchema value := by
  rw [Json.Admits, contract.definitions_toJson]
  exact contract.sameAssertions_toJson.accepts_iff

private theorem FieldDescribed.eq_reference {registry : Registry} {field : Field} {schema : Schema}
    {next : String} (described : FieldDescribed registry field schema)
    (needs : field.needs? = some next) :
    schema = (Schema.reference next).describe? field.comment := by
  obtain ⟨plain, value, rfl⟩ := described
  cases value with
  | repeated many => simp [Field.needs?, many] at needs
  | map mapped => simp [Field.needs?, mapped] at needs
  | singular alone kind =>
    simp only [Field.needs?, alone, Field.target?] at needs
    generalize field.kind = given at kind needs
    cases kind with
    | scalar | enumeration => simp [FieldKind.target?] at needs
    | wellKnown known => simp [FieldKind.target?, known] at needs
    | message plain =>
      simp only [FieldKind.target?, plain, Option.some.injEq] at needs
      rw [needs]

/-- An object of the nested form holds a value of the member under its name, also where that is the
name of the discriminator. -/
theorem Compiler.exists_of_accepts_nestedVariant {definitions : Entries Json} {hops : Nat}
    {member : Field} {schema : Schema} {value : Json}
    (accepted : Json.Accepts definitions hops (nestedVariant member schema).toJson value) :
    ∃ content : Entries Json, value = .obj content ∧ ∃ inner,
      content.get? member.name = some inner ∧
      Json.Accepts definitions definitions.length schema.toJson inner := by
  obtain ⟨content, rfl, required, properties⟩ := Schema.accepts_object_iff.mp accepted
  obtain ⟨inner, held⟩ := Entries.exists_get? (required member.name (by simp))
  obtain ⟨stated, found, takes⟩ := properties _ (Entries.mem_of_get? held)
  rw [Entries.get?_put, if_pos rfl] at found
  obtain rfl := Option.some.inj found
  exact ⟨content, rfl, inner, held, takes⟩

private theorem Json.size_erase_le (key : String) (entries : Entries Json) :
    (Json.obj (entries.erase key)).size ≤ (Json.obj entries).size := by
  have := Flatten.sizeEntries_erase_le key entries
  simp only [Json.size]
  omega

namespace Contract.Describes

variable {compiler : Compiler} {contract : Contract} {root : String}

/-- What the schema of a field accepts is accepted by the definition that the field needs. -/
theorem accepts_of_needs (describes : contract.Describes compiler root) {field : Field}
    {schema : Schema} {next : String} {definition : ObjectSchema} {value : Json}
    (described : FieldDescribed compiler.registry field schema) (needs : field.needs? = some next)
    (stored : contract.definitions.schema? next = some definition)
    (accepted : contract.Accepts schema value) : contract.Accepts definition.toSchema value := by
  obtain rfl := described.eq_reference needs
  exact (describes.accepts_reference_iff stored).mp (Schema.accepts_describe?_iff.mp accepted)

/-- The definition of what a field of a message needs. -/
theorem exists_definition (describes : contract.Describes compiler root) {owner next : String}
    {message : Message} (present : owner ∈ contract.definitions.keys)
    (registered : compiler.registry.messages[owner]? = some message) {field : Field}
    (declared : field ∈ message.fields) (needs : field.needs? = some next) :
    ∃ definition, contract.definitions.schema? next = some definition := by
  have target : field.target? = some next := by
    unfold Field.needs? at needs
    split at needs
    · exact needs
    all_goals contradiction
  have listed := Message.mem_targets_iff.mpr ⟨field, declared, target⟩
  obtain ⟨_, definition, -, stored, -⟩ :=
    describes.entries next (describes.closed present ⟨message, registered, listed⟩)
  exact ⟨definition, stored⟩

/-- A value that is accepted by the definition of a message shows that the message can be filled,
by induction on its size: what its parts need is smaller. -/
theorem fillable_of_accepts (describes : contract.Describes compiler root) {next : String}
    {schema : ObjectSchema} {value : Json}
    (stored : contract.definitions.schema? next = some schema)
    (accepted : contract.Accepts schema.toSchema value) :
    compiler.registry.Fillable compiler.options next := by
  have present := Definitions.mem_keys_of_schema? stored
  obtain ⟨message, registered, described⟩ := describes.faithful.described next schema stored
  obtain ⟨entries, rfl, fits⟩ := ObjectSchema.accepts_iff.mp accepted
  -- what a field needs is filled by any smaller value that its schema accepts
  have filled {field : Field} {inner : Schema} {part : Json} (declared : field ∈ message.fields)
      (described : FieldDescribed compiler.registry field inner)
      (takes : contract.Accepts inner part) (smaller : part.size < (Json.obj entries).size)
      (other : String) (needs : field.needs? = some other) :
      compiler.registry.Fillable compiler.options other := by
    obtain ⟨definition, held⟩ := describes.exists_definition present registered declared needs
    exact describes.fillable_of_accepts held (describes.accepts_of_needs described needs held takes)
  refine .of_slots registered fun slot listed required => ?_
  obtain ⟨property, found, -, slotDescribed⟩ := described.exists_property listed
  obtain ⟨part, inside, takes⟩ := fits.exists_valid (described.mem_required listed required) found
  have smaller : part.size < (Json.obj entries).size :=
    size_lt_of_mem_entries (Entries.mem_of_get? inside)
  cases slotDescribed with
  | @plain field _ value =>
    have declared := (Message.mem_slot_fields listed (List.mem_singleton.mpr rfl)).1
    exact ⟨field, List.mem_singleton.mpr rfl, filled declared value takes smaller⟩
  | @group group members variants pairs =>
    obtain ⟨index, chosen, -⟩ := Schema.accepts_union_iff.mp takes
    obtain ⟨member, memberListed, variant⟩ :=
      exists_left_of_forall₂ pairs (List.get_mem variants index)
    have declared := (Message.mem_slot_fields listed memberListed).1
    refine ⟨member, memberListed, fun other needs => ?_⟩
    generalize variants.get index = form at chosen variant
    cases variant using VariantDescribed.formCases with
    | nested value =>
      obtain ⟨content, rfl, inner, held, innerTakes⟩ :=
        Compiler.exists_of_accepts_nestedVariant chosen
      have innerSmaller := size_lt_of_mem_entries (Entries.mem_of_get? held)
      exact filled declared value innerTakes (innerSmaller.trans smaller) other needs
    | @inlined name target definition kind alone plain known held noDiscriminator =>
      rw [Compiler.inlineVariant_eq] at chosen
      obtain ⟨content, rfl, contentFits⟩ := ObjectSchema.accepts_iff.mp chosen
      obtain ⟨owner, -, ownerDescribed⟩ := describes.faithful.described _ _ held
      have rest : contract.Accepts definition.toSchema (.obj (content.erase discriminatorKey)) :=
        ObjectSchema.accepts_iff.mpr ⟨_, rfl, contentFits.of_inlineObject noDiscriminator
          fun _ listed => ownerDescribed.mem_keys_of_required listed⟩
      have same : target.fullName = other := by
        simpa [Field.needs?, alone, Field.target?, FieldKind.target?, kind, plain,
          (Registry.message?_eq_some known).1] using needs
      have restSmaller : (Json.obj (content.erase discriminatorKey)).size < (Json.obj entries).size :=
        Nat.lt_of_le_of_lt (size_erase_le discriminatorKey content) smaller
      rw [← same]
      exact describes.fillable_of_accepts held rest
termination_by value.size

end Contract.Describes

end ToolContract
