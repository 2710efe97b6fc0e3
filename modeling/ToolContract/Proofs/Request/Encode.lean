import Mathlib.Tactic.Choose
import ToolContract.Proofs.Call.Level
import ToolContract.Proofs.Contract.Validation
import ToolContract.Proofs.Request.Value
import ToolContract.Proofs.Request.Variant

/-!
# From requests to accepted arguments

Every value of a kind is what some value that conforms to the schema of the kind is flattened to.
The proof goes by the size of the value, as that of decoding: an entry of a message is put back
into the wrapper of its group if it belongs to one, in whichever form the variant of its member
has (`Encodes.variant`), and since only one member of a group is present the wrappers of a message
have different names (`Encodes.message_succ`).
-/

set_option autoImplicit false

namespace ToolContract

open Json Flatten

/-! ## Values that can be sent -/

namespace Definitions

/-- Some value that conforms to the schema is flattened to the value. -/
def Sends (table : Definitions) (schema : Schema) (value : Json) : Prop :=
  ∃ payload, Conforms table.documents schema.toJson payload ∧ payload.Distinct ∧
    payload.flatten = value

/-- Some entries of the schema are those of an object that is flattened to the entries. -/
def SendsEntries (table : Definitions) (schema : ObjectSchema) (entries : Entries Json) : Prop :=
  ∃ encoded,
    schema.Fits (fun inner part => Conforms table.documents inner.toJson part) encoded ∧
    (Json.obj encoded).Distinct ∧ (Json.obj encoded).flatten = .obj entries

namespace Sends

variable {table : Definitions} {schema : Schema}

private theorem of_plain {value : Json} (plain : value.Plain)
    (conforms : Conforms table.documents schema.toJson value) (distinct : value.Distinct) :
    table.Sends schema value :=
  ⟨value, conforms, distinct, plain.flatten_eq⟩

private theorem describe? {value : Json} (sent : table.Sends schema value)
    (comment : Option String) :
    table.Sends (schema.describe? comment) value := by
  obtain ⟨payload, conforms, spec⟩ := sent
  exact ⟨payload, Schema.conforms_describe?_iff.mpr conforms, spec⟩

private theorem list {items : List Json} (each : ∀ item ∈ items, table.Sends schema item) :
    table.Sends (.list schema) (.arr items) := by
  choose! encode conforms distinct flat using each
  refine ⟨.arr (items.map encode), Schema.conforms_list_iff.mpr ⟨_, rfl, ?_⟩, .arr ?_, ?_⟩
  · exact List.forall_mem_map.mpr conforms
  · exact List.forall_mem_map.mpr distinct
  · rw [flatten_arr, List.map_map]
    congr 1
    exact (List.map_congr_left flat).trans (List.map_id items)

private theorem map {form : KeyForm} {entries : Entries Json} (plain : PlainKeys entries)
    (distinctKeys : entries.Distinct) (each : ∀ entry ∈ entries, table.Sends schema entry.2) :
    table.Sends (.map schema form) (.obj entries) := by
  choose! encode conforms distinct flat using each
  have keys : Entries.keys (entries.map fun entry => (entry.1, encode entry)) = entries.keys := by
    simp [Entries.keys]
  have encodedPlain : PlainKeys (entries.map fun entry => (entry.1, encode entry)) := by
    rwa [PlainKeys, keys]
  refine ⟨.obj (entries.map fun entry => (entry.1, encode entry)),
    Schema.conforms_map_iff.mpr ⟨_, rfl, encodedPlain, ?_⟩, .obj ?_ ?_, ?_⟩
  · exact List.forall_mem_map.mpr conforms
  · rwa [Entries.Distinct, keys]
  · exact List.forall_mem_map.mpr distinct
  · rw [flatten_obj_of_plainKeys encodedPlain, List.map_map]
    congr 1
    refine (List.map_congr_left fun entry member => ?_).trans (List.map_id entries)
    exact Prod.ext rfl (flat entry member)

end Sends

end Definitions

/-! ## Encoding by size -/

section

variable {compiler : Compiler} {table : Definitions}

/-- Values below the size can be sent. -/
structure Encodes (compiler : Compiler) (table : Definitions) (size : Nat) : Prop where
  kind : ∀ kind schema value, value.size < size → KindDescribed compiler.registry kind schema →
    (∀ target, kind.target? = some target → target ∈ table.keys) →
    KindValue compiler.registry compiler.options kind value → value.Distinct →
    table.Sends schema value
  message : ∀ message schema entries, (Json.obj entries).size < size →
    compiler.registry.Holds message → message.fullName ∈ table.keys →
    MessageDescribed compiler table message schema →
    MessageValue compiler.registry compiler.options message entries →
    (Json.obj entries).Distinct → table.SendsEntries schema entries

namespace Encodes

variable {size : Nat} (encodes : Encodes compiler table size)

include encodes

private theorem field {field : Field} {schema : Schema} {value : Json} (smaller : value.size < size)
    (described : FieldDescribed compiler.registry field schema)
    (present : ∀ target, field.target? = some target → target ∈ table.keys)
    (fieldValue : FieldValue compiler.registry compiler.options field value)
    (distinct : value.Distinct) : table.Sends schema value := by
  obtain ⟨plain, valueDescribed, rfl⟩ := described
  refine Definitions.Sends.describe? ?_ field.comment
  cases fieldValue with
  | singular alone kindValue =>
    cases valueDescribed with
    | singular _ kind => exact encodes.kind _ _ _ smaller kind present kindValue distinct
    | repeated many => simp [alone] at many
    | map mapped => simp [alone] at mapped
  | @repeated _ items many kindValues =>
    cases valueDescribed with
    | singular alone => simp [many] at alone
    | map mapped => simp [many] at mapped
    | repeated _ kind =>
      refine .list fun item member => ?_
      exact encodes.kind _ _ item (Nat.lt_trans (size_lt_of_items? rfl member) smaller) kind present
        (kindValues item member) (allObjects_arr_iff.mp distinct item member)
  | @map _ key entries mapped plainKeys kindValues =>
    cases valueDescribed with
    | singular alone => simp [mapped] at alone
    | repeated many => simp [mapped] at many
    | map _ _ kind =>
      obtain ⟨distinctKeys, distinctValues⟩ := allObjects_obj_iff.mp distinct
      refine .map plainKeys distinctKeys fun entry member => ?_
      exact encodes.kind _ _ entry.2 (Nat.lt_trans (size_lt_of_entries? rfl member) smaller) kind
        present (kindValues entry member) (distinctValues entry member)

end Encodes

/-- An object that conforms to the variant names the member and comes to the value. -/
structure MemberEncoded (table : Definitions) (member : Field) (variant : Schema) (value : Json)
    (content : Entries Json) : Prop where
  conforms : Conforms table.documents variant.toJson (.obj content)
  distinct : (Json.obj content).Distinct
  tagged : content.get? discriminatorKey = some (.str member.name)
  flatten : (promoted member.name (.obj content)).flatten = value

namespace Encodes

variable {size : Nat} (encodes : Encodes compiler table size) {member : Field} {value : Json}

include encodes

private theorem nested {schema : Schema} (smaller : value.size < size)
    (described : FieldDescribed compiler.registry member schema)
    (present : ∀ target, member.target? = some target → target ∈ table.keys)
    (different : member.name ≠ discriminatorKey)
    (fieldValue : FieldValue compiler.registry compiler.options member value)
    (distinct : value.Distinct) :
    ∃ content, MemberEncoded table member (Compiler.nestedVariant member schema) value content := by
  obtain ⟨payload, conforms, payloadDistinct, flat⟩ :=
    encodes.field smaller described present fieldValue distinct
  have stored : Entries.get? member.name
      [(discriminatorKey, .str member.name), (member.name, payload)] = some payload := by
    simp [Entries.get?_cons, different.symm]
  refine ⟨[(discriminatorKey, .str member.name), (member.name, payload)], ?_, .obj ?_ ?_, ?_, ?_⟩
  · rw [Compiler.nestedVariant_eq different, ObjectSchema.conforms_iff]
    exact ⟨_, rfl, .nestedObject different (Schema.conforms_constant_iff.mpr rfl) conforms⟩
  · simpa [Entries.Distinct] using different.symm
  · simpa using ⟨.str _, payloadDistinct⟩
  · rw [Entries.get?_cons, if_pos rfl]
  · rw [promoted_of_some stored, flat]

private theorem inlined {name : String} {message : Message} {definition : ObjectSchema}
    (smaller : value.size < size) (kind : member.kind = .message name)
    (alone : member.cardinality = .singular) (plain : WellKnown.ofName? name = none)
    (found : compiler.registry.message? name = some message)
    (described : MessageDescribed compiler table message definition)
    (present : message.fullName ∈ table.keys) (different : member.name ≠ discriminatorKey)
    (noDiscriminator : discriminatorKey ∉ definition.properties.keys)
    (noMember : member.name ∉ definition.properties.keys)
    (fieldValue : FieldValue compiler.registry compiler.options member value)
    (distinct : value.Distinct) :
    ∃ content,
      MemberEncoded table member (Compiler.inlineVariant member definition) value content := by
  obtain ⟨entries, rfl, messageValue⟩ := fieldValue.exists_entries kind alone plain found
  obtain ⟨encoded, fits, encodedDistinct, flat⟩ := encodes.message message definition entries
    smaller (Registry.message?_eq_some found).2 present described messageValue distinct
  have noTag := fits.get?_eq_none noDiscriminator
  have absent : Entries.get? member.name ((discriminatorKey, .str member.name) :: encoded) =
      none := by
    rw [Entries.get?_cons, if_neg different.symm, fits.get?_eq_none noMember]
  obtain ⟨distinctKeys, distinctValues⟩ := allObjects_obj_iff.mp encodedDistinct
  rw [Entries.get?_eq_none_iff] at noTag
  refine ⟨(discriminatorKey, .str member.name) :: encoded, ?_, .obj ?_ ?_, ?_, ?_⟩
  · rw [Compiler.inlineVariant_eq, ObjectSchema.conforms_iff]
    exact ⟨_, rfl, fits.inlineObject noDiscriminator (Schema.conforms_constant_iff.mpr rfl)⟩
  · exact List.nodup_cons.mpr ⟨noTag, distinctKeys⟩
  · exact List.forall_mem_cons.mpr ⟨.str _, distinctValues⟩
  · rw [Entries.get?_cons, if_pos rfl]
  · rw [promoted_of_none absent, Entries.erase_cons_self noTag, flat]

theorem variant {variant : Schema} (smaller : value.size < size)
    (faithful : table.Faithful compiler)
    (described : VariantDescribed compiler.registry table member variant)
    (present : ∀ target, member.target? = some target → target ∈ table.keys)
    (different : member.name ≠ discriminatorKey)
    (fieldValue : FieldValue compiler.registry compiler.options member value)
    (distinct : value.Distinct) : ∃ content, MemberEncoded table member variant value content := by
  cases described using VariantDescribed.formCases with
  | nested valueDescribed =>
    exact encodes.nested smaller valueDescribed present different fieldValue distinct
  | @inlined name message definition kind alone plain found stored noDiscriminator noMember =>
    obtain ⟨owner, registered, ownerDescribed⟩ := faithful.described _ _ stored
    have held := (Registry.message?_eq_some found).2
    obtain rfl := Option.some.inj (held.symm.trans registered)
    exact encodes.inlined smaller kind alone plain found ownerDescribed
      (Definitions.mem_keys_of_schema? stored) different noDiscriminator noMember fieldValue distinct

end Encodes

/-! ## The entries of a message -/

/-- The entry stands under the property of the field, conforms to it, and comes to the name of the
field and to the value. -/
structure EntryEncoded (table : Definitions) (schema : ObjectSchema) (field : Field) (value : Json)
    (encoded : String × Json) : Prop where
  property : encoded.1 = field.property
  conforms : ∃ inner, schema.properties.get? encoded.1 = some inner ∧
    Conforms table.documents inner.toJson encoded.2
  distinct : encoded.2.Distinct
  name : (rewritten encoded).1 = field.name
  flatten : (rewritten encoded).2.flatten = value

private theorem Encodes.entry {size : Nat} (encodes : Encodes compiler table size)
    (faithful : table.Faithful compiler) {message : Message} {schema : ObjectSchema}
    (encodable : message.Encodable) (described : MessageDescribed compiler table message schema)
    (present : ∀ target ∈ message.targets, target ∈ table.keys) {field : Field} {value : Json}
    (declared : field ∈ message.fields) (smaller : value.size < size)
    (fieldValue : FieldValue compiler.registry compiler.options field value)
    (distinct : value.Distinct) : ∃ encoded, EntryEncoded table schema field value encoded := by
  have fieldPresent (target : String) (refers : field.target? = some target) :
      target ∈ table.keys := present target (Message.mem_targets_iff.mpr ⟨field, declared, refers⟩)
  obtain ⟨slot, listed, inside⟩ := Message.exists_slot declared
  obtain ⟨-, own⟩ := Message.mem_slot_fields listed inside
  obtain ⟨property, found, -, slotDescribed⟩ := described.exists_property listed
  cases slotDescribed with
  | plain fieldDescribed =>
    obtain rfl := List.mem_singleton.mp inside
    obtain ⟨payload, conforms, payloadDistinct, flat⟩ :=
      encodes.field smaller fieldDescribed fieldPresent fieldValue distinct
    have same : rewritten (field.name, payload) = (field.name, payload) :=
      rewritten_of_plain (encodable.plain field declared)
    refine ⟨(field.name, payload), own.symm, ⟨property, found, conforms⟩, payloadDistinct, ?_, ?_⟩
    · rw [same]
    · rw [same, flat]
  | @group group members variants pairs =>
    have listedMember : field ∈ members := inside
    obtain ⟨index, bound, rfl⟩ := List.getElem_of_mem listedMember
    obtain ⟨sameLength, each⟩ := List.forall₂_iff_get.mp pairs
    have variantBound : index < variants.length := Nat.lt_of_lt_of_eq bound sameLength
    have variantDescribed : VariantDescribed compiler.registry table members[index]
        variants[index] := each index bound variantBound
    have different (member : Field) (inGroup : member ∈ members) :
        member.name ≠ discriminatorKey := by
      obtain ⟨memberDeclared, grouped⟩ := Message.mem_of_mem_group listed inGroup
      exact encodable.members member memberDeclared (Option.isSome_of_eq_some grouped)
    obtain ⟨content, member⟩ := encodes.variant smaller faithful variantDescribed fieldPresent
      (different _ listedMember) fieldValue distinct
    have same : rewritten (group ++ oneofSuffix, .obj content) =
        (members[index].name, promoted members[index].name (.obj content)) :=
      rewritten_of_wrapper (wrapperMember?_of_discriminator member.tagged)
    refine ⟨(group ++ oneofSuffix, .obj content), own.symm, ⟨_, found, ?_⟩, member.distinct, ?_, ?_⟩
    · exact conforms_union_of_variant pairs (encodable.nodup_of_group listed) different bound
        variantBound member.tagged member.conforms
    · rw [same]
    · rw [same, member.flatten]

/-! ## The object of a message -/

section

variable {message : Message} {schema : ObjectSchema} {entries : Entries Json}
  {encode : String × Json → String × Json} (encodable : message.Encodable)
  (distinct : entries.Distinct)
  (encoded : ∀ entry ∈ entries, ∃ field ∈ message.fields, field.name = entry.1 ∧
    EntryEncoded table schema field entry.2 (encode entry))

include encoded

private theorem settled_map_encode : settled (entries.map encode) = entries := by
  rw [settled, List.map_map]
  refine (List.map_congr_left fun entry member => ?_).trans (List.map_id entries)
  obtain ⟨field, -, named, entryEncoded⟩ := encoded entry member
  exact Prod.ext (entryEncoded.name.trans named) entryEncoded.flatten

include distinct

private theorem flatten_map_encode (plain : PlainKeys entries) :
    (Json.obj (entries.map encode)).flatten = .obj entries := by
  have same := settled_map_encode encoded
  have keys : Entries.keys ((entries.map encode).map rewritten) = entries.keys := by
    rw [← keys_settled, same]
  rw [flatten_obj_of_rewritten, same]
  · rwa [Entries.Distinct, keys]
  · rwa [PlainKeys, keys]

private theorem distinct_map_encode (described : MessageDescribed compiler table message schema)
    (onePerGroup : message.OnePerGroup entries) : Entries.Distinct (entries.map encode) := by
  have properties : (entries.map fun entry => (encode entry).1).Nodup := by
    refine List.Nodup.map_on (fun left leftMember right rightMember same => ?_)
      (List.Nodup.of_map Prod.fst distinct)
    obtain ⟨leftField, leftDeclared, leftNamed, leftEncoded⟩ := encoded left leftMember
    obtain ⟨rightField, rightDeclared, rightNamed, rightEncoded⟩ := encoded right rightMember
    have property : leftField.property = rightField.property :=
      leftEncoded.property.symm.trans (same.trans rightEncoded.property)
    have field : leftField = rightField := by
      rcases described.eq_or_oneof_eq leftDeclared rightDeclared property with
        field | ⟨grouped, sameGroup⟩
      · exact field
      · exact onePerGroup leftField leftDeclared rightField rightDeclared grouped sameGroup
          (leftNamed ▸ Entries.mem_keys_of_mem leftMember)
          (rightNamed ▸ Entries.mem_keys_of_mem rightMember)
    exact distinct.eq_of_key leftMember rightMember
      (leftNamed.symm.trans ((congrArg Field.name field).trans rightNamed))
  simpa [Entries.Distinct, Entries.keys, Function.comp_def] using properties

omit distinct

include encodable

private theorem fits_map_encode (described : MessageDescribed compiler table message schema)
    (required : message.RequiredPresent compiler.options entries) :
    schema.Fits (fun inner part => Conforms table.documents inner.toJson part)
      (entries.map encode) := by
  refine ⟨fun name needed => ?_, List.forall_mem_map.mpr fun entry member => ?_⟩
  · obtain ⟨slot, listed, slotRequired, rfl⟩ := described.exists_required needed
    obtain ⟨field, inside, present⟩ := required slot listed slotRequired
    obtain ⟨declared, own⟩ := Message.mem_slot_fields listed inside
    obtain ⟨entry, member, key⟩ := List.mem_map.mp present
    obtain ⟨other, otherDeclared, named, entryEncoded⟩ := encoded entry member
    obtain rfl := encodable.eq_of_name otherDeclared declared (named.trans key)
    rw [← own, ← entryEncoded.property]
    exact Entries.mem_keys_of_mem (List.mem_map.mpr ⟨entry, member, rfl⟩)
  · obtain ⟨_, _, _, entryEncoded⟩ := encoded entry member
    exact entryEncoded.conforms

end

/-! ## Encoding with the definitions of a contract -/

section

variable {contract : Contract} {name : String}

theorem Encodes.message_succ {size : Nat} (encodes : Encodes compiler contract.definitions size)
    (describes : contract.Describes compiler name) (encodable : compiler.registry.Encodable)
    {message : Message} {schema : ObjectSchema} {entries : Entries Json}
    (smaller : (Json.obj entries).size < size + 1) (held : compiler.registry.Holds message)
    (present : message.fullName ∈ contract.definitions.keys)
    (described : MessageDescribed compiler contract.definitions message schema)
    (messageValue : MessageValue compiler.registry compiler.options message entries)
    (distinct : (Json.obj entries).Distinct) : contract.definitions.SendsEntries schema entries := by
  obtain ⟨distinctKeys, distinctValues⟩ := allObjects_obj_iff.mp distinct
  obtain ⟨declared, values, onePerGroup, required⟩ := messageValue
  have targets (target : String) (member : target ∈ message.targets) :
      target ∈ contract.definitions.keys := describes.closed present ⟨message, held, member⟩
  have each (entry : String × Json) (member : entry ∈ entries) :
      ∃ encoded, ∃ field ∈ message.fields, field.name = entry.1 ∧
        EntryEncoded contract.definitions schema field entry.2 encoded := by
    obtain ⟨field, fieldDeclared, named⟩ := declared _ (Entries.mem_keys_of_mem member)
    have inside : entry.2.size < (Json.obj entries).size := size_lt_of_entries? rfl member
    obtain ⟨encoded, entryEncoded⟩ := encodes.entry describes.faithful (encodable message held)
      described targets fieldDeclared (by omega) (values entry member field fieldDeclared named)
      (distinctValues entry member)
    exact ⟨encoded, field, fieldDeclared, named, entryEncoded⟩
  choose! encode encoded using each
  have plain : PlainKeys entries := by
    intro key member
    obtain ⟨field, fieldDeclared, rfl⟩ := declared key member
    exact (encodable message held).plain field fieldDeclared
  refine ⟨entries.map encode, fits_map_encode (encodable message held) encoded described required,
    .obj ?_ ?_, flatten_map_encode distinctKeys encoded plain⟩
  · exact distinct_map_encode distinctKeys encoded described onePerGroup
  · refine List.forall_mem_map.mpr fun entry member => ?_
    obtain ⟨_, _, _, entryEncoded⟩ := encoded entry member
    exact entryEncoded.distinct

theorem Contract.Describes.encodes (describes : contract.Describes compiler name)
    (encodable : compiler.registry.Encodable) (size : Nat) :
    Encodes compiler contract.definitions size := by
  induction size with
  | zero => exact ⟨fun _ _ _ smaller => absurd smaller (Nat.not_lt_zero _),
      fun _ _ _ smaller => absurd smaller (Nat.not_lt_zero _)⟩
  | succ size ih =>
    refine ⟨fun kind schema value smaller described present kindValue distinct => ?_,
      fun _ _ _ => ih.message_succ describes encodable⟩
    cases kindValue with
    | scalar held =>
      cases described with
      | scalar => exact .of_plain held.plain (Scalar.conforms_iff.mpr held) distinct
    | enumeration held =>
      cases described with
      | enumeration =>
        exact .of_plain held.plain (Enumeration.conforms_iff.mpr held) distinct
    | @wellKnown _ type _ known held =>
      cases described with
      | message unknown => simp [known] at unknown
      | @wellKnown _ other sameKnown =>
        obtain rfl := Option.some.inj (sameKnown.symm.trans known)
        exact .of_plain held.plain (WellKnown.conforms_iff.mpr held) distinct
    | @message kindName owner entries unknown found messageValue =>
      cases described with
      | wellKnown known => simp [unknown] at known
      | message =>
        have target : (FieldKind.message kindName).target? =
            some (QualifiedName.strip kindName) := by
          simp [FieldKind.target?, unknown]
        have member := present _ target
        obtain ⟨definition, stored, ownerDescribed⟩ := describes.exists_schema member found
        obtain ⟨named, held⟩ := Registry.message?_eq_some found
        obtain ⟨encoded, fits, encodedDistinct, flat⟩ := ih.message_succ describes encodable
          smaller held (named ▸ member) ownerDescribed messageValue distinct
        refine ⟨.obj encoded, (describes.conforms_reference_iff stored).mpr ?_, encodedDistinct,
          flat⟩
        exact ObjectSchema.conforms_iff.mpr ⟨encoded, rfl, fits⟩

end

end

end ToolContract
