import ToolContract.Proofs.Call.Level
import ToolContract.Proofs.Contract.Validation
import ToolContract.Proofs.Request.Value
import ToolContract.Proofs.Request.Variant

/-!
# From accepted arguments to requests

Flattening takes a value that conforms to the schema of a kind to a value of the kind. The proof is
by the size of the value: a message is decoded entry by entry, where the entry of a oneof group
holds one of the two forms of a variant and comes to the member that the variant names
(`Decodes.variant`), and no two entries come to one field (`Decodes.message`).
-/

set_option autoImplicit false

namespace ToolContract

open Json Flatten

/-! ## Decoding by size -/

section

variable {compiler : Compiler} {table : Definitions}

/-- Values below the size that conform to what describes a kind or a message are flattened to
values of it. -/
structure Decodes (compiler : Compiler) (table : Definitions) (size : Nat) : Prop where
  kind : ∀ kind schema value, value.size < size → KindDescribed compiler.registry kind schema →
    (∀ target, kind.target? = some target → target ∈ table.keys) →
    Conforms table.documents schema.toJson value → value.Distinct →
    KindValue compiler.registry compiler.options kind value.flatten ∧ value.flatten.Distinct
  message : ∀ message schema entries, (Json.obj entries).size < size →
    compiler.registry.Holds message → message.fullName ∈ table.keys →
    MessageDescribed compiler table message schema →
    schema.Fits (fun inner part => Conforms table.documents inner.toJson part) entries →
    (Json.obj entries).Distinct →
    ∃ flat, (Json.obj entries).flatten = .obj flat ∧ (Json.obj flat).Distinct ∧
      MessageValue compiler.registry compiler.options message flat

namespace Decodes

variable {size : Nat} (decodes : Decodes compiler table size)

include decodes

private theorem field {field : Field} {schema : Schema} {value : Json} (smaller : value.size < size)
    (described : FieldDescribed compiler.registry field schema)
    (present : ∀ target, field.target? = some target → target ∈ table.keys)
    (conforms : Conforms table.documents schema.toJson value) (distinct : value.Distinct) :
    FieldValue compiler.registry compiler.options field value.flatten ∧ value.flatten.Distinct := by
  obtain ⟨plain, valueDescribed, rfl⟩ := described
  rw [Schema.conforms_describe?_iff] at conforms
  cases valueDescribed with
  | singular alone kind =>
    obtain ⟨kindValue, flatDistinct⟩ := decodes.kind _ _ _ smaller kind present conforms distinct
    exact ⟨.singular alone kindValue, flatDistinct⟩
  | repeated many kind =>
    obtain ⟨items, rfl, inside⟩ := Schema.conforms_list_iff.mp conforms
    have distinctItems := allObjects_arr_iff.mp distinct
    have each (item : Json) (member : item ∈ items) := decodes.kind _ _ item
      (Nat.lt_trans (size_lt_of_items? rfl member) smaller) kind present (inside item member)
      (distinctItems item member)
    rw [flatten_arr]
    refine ⟨.repeated many fun flat member => ?_, .arr fun flat member => ?_⟩ <;>
      obtain ⟨item, listed, rfl⟩ := List.mem_map.mp member
    · exact (each item listed).1
    · exact (each item listed).2
  | map mapped _ kind =>
    obtain ⟨entries, rfl, plainKeys, inside⟩ := Schema.conforms_map_iff.mp conforms
    obtain ⟨distinctKeys, distinctValues⟩ := allObjects_obj_iff.mp distinct
    have each (entry : String × Json) (member : entry ∈ entries) := decodes.kind _ _ entry.2
      (Nat.lt_trans (size_lt_of_entries? rfl member) smaller) kind present (inside entry member)
      (distinctValues entry member)
    rw [flatten_obj_of_plainKeys plainKeys]
    have keys : Entries.keys (entries.map fun entry => (entry.1, entry.2.flatten)) = entries.keys :=
      Entries.keys_map Json.flatten entries
    refine ⟨.map mapped ?_ fun flat member => ?_, .obj ?_ fun flat member => ?_⟩
    · rwa [PlainKeys, keys]
    · obtain ⟨entry, listed, rfl⟩ := List.mem_map.mp member
      exact (each entry listed).1
    · rwa [Entries.Distinct, keys]
    · obtain ⟨entry, listed, rfl⟩ := List.mem_map.mp member
      exact (each entry listed).2

end Decodes

/-- What a wrapper of the member comes to is flattened to a value of the member. -/
structure MemberDecoded (compiler : Compiler) (member : Field) (value : Json) : Prop where
  promoted : FieldValue compiler.registry compiler.options member
    (promoted member.name value).flatten
  distinct : (ToolContract.promoted member.name value).flatten.Distinct

namespace Decodes

variable {size : Nat} (decodes : Decodes compiler table size) {member : Field}
  {content : Entries Json}

include decodes

/-- A wrapper of the inlined form comes to an object of the definition. -/
theorem inlined {name : String} {message : Message} {definition : ObjectSchema}
    (smaller : (Json.obj content).size < size)
    (tagged : content.get? discriminatorKey = some (.str member.name))
    (kind : member.kind = .message name) (alone : member.cardinality = .singular)
    (plain : WellKnown.ofName? name = none)
    (found : compiler.registry.message? name = some message)
    (described : MessageDescribed compiler table message definition)
    (present : message.fullName ∈ table.keys) (different : member.name ≠ discriminatorKey)
    (noDiscriminator : discriminatorKey ∉ definition.properties.keys)
    (noMember : member.name ∉ definition.properties.keys)
    (conforms : Conforms table.documents (Compiler.inlineVariant member definition).toJson
      (.obj content))
    (distinct : (Json.obj content).Distinct) : MemberDecoded compiler member (.obj content) := by
  rw [Compiler.inlineVariant_eq] at conforms
  obtain ⟨_, shape, fits⟩ := ObjectSchema.conforms_iff.mp conforms
  obtain rfl := Json.obj.inj shape
  have absent : content.get? member.name = none := by
    refine fits.get?_eq_none ?_
    simpa [Compiler.inlineObject, different] using noMember
  have shrinks : (Json.obj (content.erase discriminatorKey)).size < (Json.obj content).size := by
    have := sizeEntries_erase_add_le tagged
    have := (Json.str member.name).size_pos
    simp only [Json.size]
    omega
  obtain ⟨flat, same, flatDistinct, messageValue⟩ := decodes.message message definition
    (content.erase discriminatorKey) (Nat.lt_trans shrinks smaller)
    (Registry.message?_eq_some found).2 present described
    (fits.of_inlineObject noDiscriminator fun _ => described.mem_keys_of_required)
    (Json.Distinct.erase distinct discriminatorKey)
  constructor <;> rw [promoted_of_none absent, same]
  · exact .singular alone (kind ▸ .message plain found messageValue)
  · exact flatDistinct

private theorem nested {schema : Schema} (smaller : (Json.obj content).size < size)
    (described : FieldDescribed compiler.registry member schema)
    (present : ∀ target, member.target? = some target → target ∈ table.keys)
    (different : member.name ≠ discriminatorKey)
    (conforms : Conforms table.documents (Compiler.nestedVariant member schema).toJson
      (.obj content))
    (distinct : (Json.obj content).Distinct) : MemberDecoded compiler member (.obj content) := by
  rw [Compiler.nestedVariant_eq different] at conforms
  obtain ⟨_, shape, fits⟩ := ObjectSchema.conforms_iff.mp conforms
  obtain rfl := Json.obj.inj shape
  have declared : (Compiler.nestedObject member schema).properties.get? member.name =
      some schema := by
    simp [Compiler.nestedObject, Entries.get?_cons, different.symm]
  obtain ⟨part, found, partConforms⟩ :=
    fits.exists_valid (List.mem_cons_of_mem _ List.mem_cons_self) declared
  have listed := Entries.mem_of_get? found
  obtain ⟨fieldValue, flatDistinct⟩ := decodes.field
    (Nat.lt_trans (size_lt_of_entries? rfl listed) smaller) described present partConforms
    ((allObjects_obj_iff.mp distinct).2 _ listed)
  constructor <;> rw [promoted_of_some found]
  · exact fieldValue
  · exact flatDistinct

theorem variant {variant : Schema} (smaller : (Json.obj content).size < size)
    (tagged : content.get? discriminatorKey = some (.str member.name))
    (faithful : table.Faithful compiler)
    (described : VariantDescribed compiler.registry table member variant)
    (present : ∀ target, member.target? = some target → target ∈ table.keys)
    (different : member.name ≠ discriminatorKey)
    (conforms : Conforms table.documents variant.toJson (.obj content))
    (distinct : (Json.obj content).Distinct) : MemberDecoded compiler member (.obj content) := by
  cases described using VariantDescribed.formCases with
  | nested valueDescribed =>
    exact decodes.nested smaller valueDescribed present different conforms distinct
  | @inlined name message definition kind alone plain found stored noDiscriminator noMember =>
    obtain ⟨owner, registered, ownerDescribed⟩ := faithful.described _ _ stored
    have held := (Registry.message?_eq_some found).2
    obtain rfl := Option.some.inj (held.symm.trans registered)
    exact decodes.inlined smaller tagged kind alone plain found ownerDescribed
      (Definitions.mem_keys_of_schema? stored) different noDiscriminator noMember conforms distinct

end Decodes

/-! ## The entries of a message -/

/-- The entry belongs to the field, and comes to its name and to a value of it. -/
structure EntryDecoded (compiler : Compiler) (message : Message) (entry : String × Json)
    (field : Field) : Prop where
  declared : field ∈ message.fields
  property : entry.1 = field.property
  name : (rewritten entry).1 = field.name
  value : FieldValue compiler.registry compiler.options field (rewritten entry).2.flatten
  distinct : (rewritten entry).2.flatten.Distinct

private theorem Decodes.entry {size : Nat} (decodes : Decodes compiler table size)
    (faithful : table.Faithful compiler) {message : Message} {schema : ObjectSchema}
    (encodable : message.Encodable) (described : MessageDescribed compiler table message schema)
    (present : ∀ target ∈ message.targets, target ∈ table.keys) {entry : String × Json}
    (smaller : entry.2.size < size) {inner : Schema}
    (found : schema.properties.get? entry.1 = some inner)
    (conforms : Conforms table.documents inner.toJson entry.2) (distinct : entry.2.Distinct) :
    ∃ field, EntryDecoded compiler message entry field := by
  obtain ⟨slot, listed, property, slotDescribed⟩ :=
    described.exists_slot (Entries.mem_of_get? found)
  have fieldPresent (field : Field) (declared : field ∈ message.fields) (target : String)
      (refers : field.target? = some target) : target ∈ table.keys :=
    present target (Message.mem_targets_iff.mpr ⟨field, declared, refers⟩)
  cases slotDescribed with
  | @plain field _ fieldDescribed =>
    obtain ⟨declared, own⟩ := Message.mem_slot_fields listed (List.mem_singleton.mpr rfl)
    have key : entry.1 = field.name := property.symm
    have same : rewritten entry = entry :=
      rewritten_of_plain (key ▸ encodable.plain field declared)
    obtain ⟨value, flatDistinct⟩ := decodes.field smaller fieldDescribed
      (fieldPresent field declared) conforms distinct
    refine ⟨field, declared, property.symm.trans own.symm, ?_, ?_, ?_⟩ <;> rw [same]
    · exact key
    · exact value
    · exact flatDistinct
  | @group group members variants pairs =>
    obtain ⟨index, variantConforms, -⟩ := Schema.conforms_union_iff.mp conforms
    have variantListed : variants.get index ∈ variants := List.get_mem variants index
    obtain ⟨member, memberListed, variantDescribed⟩ := exists_left_of_forall₂ pairs variantListed
    obtain ⟨declared, own⟩ := Message.mem_slot_fields listed memberListed
    have grouped : member.oneof.isSome = true := by
      rw [(Message.mem_of_mem_group listed memberListed).2]
      rfl
    have different := encodable.members member declared grouped
    obtain ⟨content, shape, tagged⟩ :=
      variantDescribed.get?_discriminator different variantConforms.accepted
    rw [shape] at smaller variantConforms distinct
    have decoded := decodes.variant smaller tagged faithful variantDescribed
      (fieldPresent member declared) different variantConforms distinct
    have same : rewritten entry = (member.name, promoted member.name entry.2) := by
      apply rewritten_of_wrapper
      rw [show entry = (group ++ oneofSuffix, .obj content) from Prod.ext property.symm shape]
      exact wrapperMember?_of_discriminator tagged
    refine ⟨member, declared, property.symm.trans own.symm, ?_, ?_, ?_⟩ <;> rw [same]
    · rw [shape]
      exact decoded.promoted
    · rw [shape]
      exact decoded.distinct

section

variable {message : Message} {entries : Entries Json}

private theorem EntryDecoded.eq_of_property (distinct : entries.Distinct)
    {left right : String × Json}
    {leftField rightField : Field} (leftDecoded : EntryDecoded compiler message left leftField)
    (rightDecoded : EntryDecoded compiler message right rightField) (leftMember : left ∈ entries)
    (rightMember : right ∈ entries) (same : leftField.property = rightField.property) :
    left = right :=
  distinct.eq_of_key leftMember rightMember
    (leftDecoded.property.trans (same.trans rightDecoded.property.symm))

variable (encodable : message.Encodable) (distinct : entries.Distinct)
  (decoded : ∀ entry ∈ entries, ∃ field, EntryDecoded compiler message entry field)

include encodable distinct decoded

private theorem distinct_rewritten : Entries.Distinct (entries.map rewritten) := by
  have names : (entries.map fun entry => (rewritten entry).1).Nodup := by
    refine List.Nodup.map_on (fun left leftMember right rightMember same => ?_)
      (List.Nodup.of_map Prod.fst distinct)
    obtain ⟨leftField, leftDecoded⟩ := decoded left leftMember
    obtain ⟨rightField, rightDecoded⟩ := decoded right rightMember
    obtain rfl := encodable.eq_of_name leftDecoded.declared rightDecoded.declared
      (leftDecoded.name.symm.trans (same.trans rightDecoded.name))
    exact leftDecoded.eq_of_property distinct rightDecoded leftMember rightMember rfl
  simpa [Entries.Distinct, Entries.keys, Function.comp_def] using names

/-- Entries that come to fields of a message are flattened to an object of the message, if a field
of each required slot is among them. -/
theorem message_of_entries
    (required : ∀ slot ∈ message.slots, slot.isRequired compiler.options = true →
      ∃ entry ∈ entries, ∃ field ∈ slot.fields, EntryDecoded compiler message entry field) :
    ∃ flat, (Json.obj entries).flatten = .obj flat ∧ (Json.obj flat).Distinct ∧
      MessageValue compiler.registry compiler.options message flat := by
  have rewrittenDistinct := distinct_rewritten encodable distinct decoded
  have field_of_key (name : String) (member : name ∈ (settled entries).keys) :
      ∃ entry ∈ entries, ∃ field, EntryDecoded compiler message entry field ∧ field.name = name := by
    obtain ⟨_, settledMember, rfl⟩ := List.mem_map.mp member
    obtain ⟨entry, listed, rfl⟩ := List.mem_map.mp settledMember
    obtain ⟨field, entryDecoded⟩ := decoded entry listed
    exact ⟨entry, listed, field, entryDecoded, entryDecoded.name.symm⟩
  have plain : PlainKeys (entries.map rewritten) := by
    rw [PlainKeys, ← keys_settled]
    intro name member
    obtain ⟨_, _, field, entryDecoded, rfl⟩ := field_of_key name member
    exact encodable.plain field entryDecoded.declared
  refine ⟨settled entries, flatten_obj_of_rewritten rewrittenDistinct plain, .obj ?_ ?_,
    .entries ?_ ?_ ?_ ?_⟩
  · rwa [Entries.Distinct, keys_settled]
  · intro flat member
    obtain ⟨entry, listed, rfl⟩ := List.mem_map.mp member
    obtain ⟨field, entryDecoded⟩ := decoded entry listed
    exact entryDecoded.distinct
  · intro name member
    obtain ⟨_, _, field, entryDecoded, same⟩ := field_of_key name member
    exact ⟨field, entryDecoded.declared, same⟩
  · intro flat member field declared same
    obtain ⟨entry, listed, rfl⟩ := List.mem_map.mp member
    obtain ⟨own, entryDecoded⟩ := decoded entry listed
    obtain rfl := encodable.eq_of_name declared entryDecoded.declared (same.trans entryDecoded.name)
    exact entryDecoded.value
  · intro left leftDeclared right rightDeclared grouped sameGroup leftPresent rightPresent
    obtain ⟨leftEntry, leftListed, leftField, leftDecoded, leftName⟩ := field_of_key _ leftPresent
    obtain ⟨rightEntry, rightListed, rightField, rightDecoded, rightName⟩ :=
      field_of_key _ rightPresent
    obtain rfl := encodable.eq_of_name leftDecoded.declared leftDeclared leftName
    obtain rfl := encodable.eq_of_name rightDecoded.declared rightDeclared rightName
    have property : leftField.property = rightField.property := by
      obtain ⟨group, member⟩ := Option.isSome_iff_exists.mp grouped
      simp [Field.property, ← sameGroup, member]
    obtain rfl := leftDecoded.eq_of_property distinct rightDecoded leftListed rightListed property
    exact encodable.eq_of_name leftDeclared rightDeclared
      (leftDecoded.name.symm.trans rightDecoded.name)
  · intro slot listed needed
    obtain ⟨entry, entryListed, field, inside, entryDecoded⟩ := required slot listed needed
    refine ⟨field, inside, ?_⟩
    rw [← entryDecoded.name]
    exact List.mem_map.mpr ⟨_, List.mem_map.mpr ⟨entry, entryListed, rfl⟩, rfl⟩

end

/-! ## Decoding with the definitions of a contract -/

section

variable {contract : Contract} {name : String}

theorem Decodes.message_succ {size : Nat} (decodes : Decodes compiler contract.definitions size)
    (describes : contract.Describes compiler name) (encodable : compiler.registry.Encodable)
    {message : Message} {schema : ObjectSchema} {entries : Entries Json}
    (smaller : (Json.obj entries).size < size + 1) (held : compiler.registry.Holds message)
    (present : message.fullName ∈ contract.definitions.keys)
    (described : MessageDescribed compiler contract.definitions message schema)
    (fits : schema.Fits
      (fun inner part => Conforms contract.definitions.documents inner.toJson part) entries)
    (distinct : (Json.obj entries).Distinct) :
    ∃ flat, (Json.obj entries).flatten = .obj flat ∧ (Json.obj flat).Distinct ∧
      MessageValue compiler.registry compiler.options message flat := by
  obtain ⟨distinctKeys, distinctValues⟩ := allObjects_obj_iff.mp distinct
  have targets (target : String) (member : target ∈ message.targets) :
      target ∈ contract.definitions.keys := describes.closed present ⟨message, held, member⟩
  have decoded (entry : String × Json) (member : entry ∈ entries) :
      ∃ field, EntryDecoded compiler message entry field := by
    obtain ⟨inner, found, conforms⟩ := fits.properties entry member
    have inside : entry.2.size < (Json.obj entries).size := size_lt_of_entries? rfl member
    exact decodes.entry describes.faithful (encodable message held) described targets (by omega)
      found conforms (distinctValues entry member)
  refine message_of_entries (encodable message held) distinctKeys decoded fun slot listed needed => ?_
  have key := fits.required _ (described.mem_required listed needed)
  obtain ⟨entry, member, property⟩ := List.mem_map.mp key
  obtain ⟨field, entryDecoded⟩ := decoded entry member
  obtain ⟨own, ownListed, inside⟩ := Message.exists_slot entryDecoded.declared
  have same : own.property = slot.property := by
    rw [← (Message.mem_slot_fields ownListed inside).2, ← entryDecoded.property, property]
  obtain rfl := described.slot_eq ownListed listed same
  exact ⟨entry, member, field, inside, entryDecoded⟩

private theorem kindValue_of_plain {kind : FieldKind} {value : Json} (plain : value.Plain)
    (kindValue : KindValue compiler.registry compiler.options kind value)
    (distinct : value.Distinct) :
    KindValue compiler.registry compiler.options kind value.flatten ∧ value.flatten.Distinct := by
  rw [plain.flatten_eq]
  exact ⟨kindValue, distinct⟩

theorem Contract.Describes.decodes (describes : contract.Describes compiler name)
    (encodable : compiler.registry.Encodable) (size : Nat) :
    Decodes compiler contract.definitions size := by
  induction size with
  | zero => exact ⟨fun _ _ _ smaller => absurd smaller (Nat.not_lt_zero _),
      fun _ _ _ smaller => absurd smaller (Nat.not_lt_zero _)⟩
  | succ size ih =>
    refine ⟨fun kind schema value smaller described present conforms distinct => ?_,
      fun _ _ _ => ih.message_succ describes encodable⟩
    cases described with
    | @scalar type =>
      have held := Scalar.conforms_iff.mp conforms
      exact kindValue_of_plain held.plain (.scalar held) distinct
    | enumeration =>
      have held := Enumeration.conforms_iff.mp conforms
      exact kindValue_of_plain held.plain (.enumeration held) distinct
    | wellKnown known =>
      have held := WellKnown.conforms_iff.mp conforms
      exact kindValue_of_plain held.plain (.wellKnown known held) distinct
    | @message kindName owner known found =>
      have target : (FieldKind.message kindName).target? = some (QualifiedName.strip kindName) := by
        simp [FieldKind.target?, known]
      have member := present _ target
      obtain ⟨definition, stored, ownerDescribed⟩ := describes.exists_schema member found
      obtain ⟨entries, rfl, fits⟩ :=
        ObjectSchema.conforms_iff.mp ((describes.conforms_reference_iff stored).mp conforms)
      obtain ⟨named, held⟩ := Registry.message?_eq_some found
      obtain ⟨flat, same, flatDistinct, messageValue⟩ := ih.message_succ describes encodable
        smaller held (named ▸ member) ownerDescribed fits distinct
      rw [same]
      exact ⟨.message known found messageValue, flatDistinct⟩

end

end

end ToolContract
