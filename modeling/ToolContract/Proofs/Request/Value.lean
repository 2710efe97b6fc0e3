import Mathlib.Data.List.Nodup
import ToolContract.Proofs.Graph
import ToolContract.Proofs.Json.Objects
import ToolContract.Proofs.Validation.Open

/-!
# Requests in their natural JSON form

The JSON form that a request has for its server, by the descriptors alone: an object whose keys
are declared field names, with at most one member of each oneof group, values by the kinds and
cardinalities of the fields, and all that must be present. Contracts do not occur in it.
-/

set_option autoImplicit false

namespace ToolContract

/-! ## Messages whose requests can be told apart -/

/-- Fields have different names, none of the form of a oneof property, and no member of a group
has the name of the discriminator. -/
structure Message.Encodable (message : Message) : Prop where
  distinct : (message.fields.map Field.name).Nodup
  plain : ∀ field ∈ message.fields, isOneofKey field.name = false
  members : ∀ field ∈ message.fields, field.oneof.isSome = true → field.name ≠ discriminatorKey

theorem Message.Encodable.eq_of_name {message : Message} (encodable : message.Encodable)
    {left right : Field} (leftDeclared : left ∈ message.fields)
    (rightDeclared : right ∈ message.fields) (same : left.name = right.name) : left = right :=
  List.inj_on_of_nodup_map encodable.distinct leftDeclared rightDeclared same

theorem Message.Encodable.nodup_of_group {message : Message} (encodable : message.Encodable)
    {group : String} {members : List Field} (listed : .group group members ∈ message.slots) :
    (members.map Field.name).Nodup := by
  rcases Message.mem_slots_iff.mp listed with ⟨_, _, _, same⟩ | ⟨_, _, same⟩
  · contradiction
  · obtain ⟨rfl, rfl⟩ := Slot.group.inj same
    exact encodable.distinct.sublist (List.Sublist.map _ List.filter_sublist)

instance (message : Message) : Decidable message.Encodable :=
  decidable_of_iff ((message.fields.map Field.name).Nodup ∧
      (∀ field ∈ message.fields, isOneofKey field.name = false) ∧
      ∀ field ∈ message.fields, field.oneof.isSome = true → field.name ≠ discriminatorKey)
    ⟨fun all => ⟨all.1, all.2.1, all.2.2⟩, fun all => ⟨all.distinct, all.plain, all.members⟩⟩

/-- All registered messages are encodable. -/
def Registry.Encodable (registry : Registry) : Prop :=
  ∀ message, registry.Holds message → message.Encodable

private theorem Registry.Encodable.empty : Registry.empty.Encodable := by
  intro message held
  simp [Registry.Holds, Registry.empty] at held

private theorem Registry.Encodable.addMessage {registry : Registry} (encodable : registry.Encodable)
    {message : Message} (new : message.Encodable) : (registry.addMessage message).Encodable := by
  intro other held
  rw [Registry.Holds, Registry.addMessage, Std.ExtTreeMap.getElem?_insert] at held
  split at held
  · obtain rfl := Option.some.inj held
    exact ⟨new.distinct, new.plain, new.members⟩
  · exact encodable other held

theorem Shapes.encodable : compiler.registry.Encodable := by
  have shapes : shape.Encodable := by decide +kernel
  have groups : group.Encodable := by decide +kernel
  have circles : circle.Encodable := by decide +kernel
  exact ((Registry.Encodable.empty.addMessage shapes).addMessage groups).addMessage circles

/-! ## Values of kinds, fields and messages -/

/-- The values of a well-known type. -/
def WellKnown.Holds (type : WellKnown) (value : Json) : Prop :=
  match type with
  | .struct => (∃ entries, value = .obj entries) ∧ value.Plain
  | .value => value.Plain
  | .listValue => (∃ items, value = .arr items) ∧ value.Plain
  | .empty => value = .obj []
  | .duration | .fieldMask => JsonType.string.Holds value
  | .timestamp | .int64Value | .uint64Value | .stringValue | .bytesValue =>
    JsonType.string.Holds value ∨ value = .null
  | .doubleValue | .floatValue => JsonType.number.Holds value ∨ value = .null
  | .int32Value | .uint32Value => JsonType.integer.Holds value ∨ value = .null
  | .boolValue => JsonType.boolean.Holds value ∨ value = .null

/-! ### Such values are plain -/

theorem JsonType.Holds.plain {type : JsonType} {value : Json} (held : type.Holds value) :
    value.Plain := by
  cases value with
  | null => exact .null
  | bool truth => exact .bool truth
  | num number => exact .num number
  | str text => exact .str text
  | arr => cases type <;> contradiction
  | obj => cases type <;> contradiction

theorem WellKnown.Holds.plain {type : WellKnown} {value : Json} (held : type.Holds value) :
    value.Plain := by
  cases type with
  | struct | listValue => exact held.2
  | value => exact held
  | empty =>
    obtain rfl : value = .obj [] := held
    exact .obj (fun _ member => absurd member List.not_mem_nil)
      fun _ member => absurd member List.not_mem_nil
  | duration | fieldMask => exact JsonType.Holds.plain held
  | _ =>
    rcases held with held | rfl
    · exact held.plain
    · exact .null

/-! ### What conforms to the schemas of such values -/

section

open Json

variable {definitions : Entries Json} {value : Json}

theorem Scalar.conforms_iff {type : Scalar} :
    Conforms definitions type.schema.toJson value ↔ type.jsonType.Holds value := by
  cases type <;> simp only [Scalar.schema, Schema.conforms_described_iff, Schema.conforms_typed_iff]

theorem Enumeration.conforms_iff {enumeration : Enumeration} :
    Conforms definitions enumeration.schema.toJson value ↔ JsonType.integer.Holds value := by
  rw [Enumeration.schema, Schema.conforms_describe?_iff, Schema.conforms_described_iff,
    Schema.conforms_typed_iff]

theorem WellKnown.conforms_iff {type : WellKnown} :
    Conforms definitions type.schema.toJson value ↔ type.Holds value := by
  cases type with
  | struct => exact Schema.conforms_openObject_iff
  | value => exact Schema.conforms_described_iff.trans Schema.conforms_any_iff
  | listValue =>
    refine Schema.conforms_described_iff.trans (Schema.conforms_list_iff.trans ?_)
    simp only [Schema.conforms_any_iff]
    constructor
    · intro given
      obtain ⟨items, rfl, inside⟩ := given
      exact ⟨⟨items, rfl⟩, .arr inside⟩
    · intro given
      obtain ⟨⟨items, rfl⟩, plain⟩ := given
      exact ⟨items, rfl, allObjects_arr_iff.mp plain⟩
  | empty => exact Schema.conforms_emptyObject_iff
  | duration | fieldMask => exact Schema.conforms_described_iff.trans Schema.conforms_typed_iff
  | _ => exact Schema.conforms_nullable_iff

end

/-! ### Objects of messages -/

/-- Of two members of one group, at most one is present. -/
def Message.OnePerGroup (message : Message) (entries : Entries Json) : Prop :=
  ∀ left ∈ message.fields, ∀ right ∈ message.fields, left.oneof.isSome = true →
    left.oneof = right.oneof → left.name ∈ entries.keys → right.name ∈ entries.keys → left = right

/-- A field of each slot that is required is present. -/
def Message.RequiredPresent (options : Options) (message : Message) (entries : Entries Json) : Prop :=
  ∀ slot ∈ message.slots, slot.isRequired options = true →
    ∃ field ∈ slot.fields, field.name ∈ entries.keys

instance (message : Message) (entries : Entries Json) : Decidable (message.OnePerGroup entries) :=
  inferInstanceAs (Decidable (∀ left ∈ message.fields, ∀ right ∈ message.fields, _ → _))

instance (options : Options) (message : Message) (entries : Entries Json) :
    Decidable (message.RequiredPresent options entries) :=
  inferInstanceAs (Decidable (∀ slot ∈ message.slots, _ → _))

mutual

/-- The values of the kind. -/
inductive KindValue (registry : Registry) (options : Options) : FieldKind → Json → Prop where
  | scalar {type value} :
      type.jsonType.Holds value → KindValue registry options (.scalar type) value
  | enumeration {name value} :
      JsonType.integer.Holds value → KindValue registry options (.enumeration name) value
  | wellKnown {name type value} :
      WellKnown.ofName? name = some type → type.Holds value →
      KindValue registry options (.message name) value
  | message {name message entries} :
      WellKnown.ofName? name = none → registry.message? name = some message →
      MessageValue registry options message entries →
      KindValue registry options (.message name) (.obj entries)

/-- The values of the field. -/
inductive FieldValue (registry : Registry) (options : Options) : Field → Json → Prop where
  | singular {field value} :
      field.cardinality = .singular → KindValue registry options field.kind value →
      FieldValue registry options field value
  | repeated {field items} :
      field.cardinality = .repeated → (∀ item ∈ items, KindValue registry options field.kind item) →
      FieldValue registry options field (.arr items)
  | map {field key entries} :
      field.cardinality = .map key → Json.PlainKeys entries →
      (∀ entry ∈ entries, KindValue registry options field.kind entry.2) →
      FieldValue registry options field (.obj entries)

/-- The objects of the message. -/
inductive MessageValue (registry : Registry) (options : Options) :
    Message → Entries Json → Prop where
  | entries {message entries} :
      (∀ name ∈ entries.keys, ∃ field ∈ message.fields, field.name = name) →
      (∀ entry ∈ entries, ∀ field ∈ message.fields, field.name = entry.1 →
        FieldValue registry options field entry.2) →
      message.OnePerGroup entries → message.RequiredPresent options entries →
      MessageValue registry options message entries

end

theorem FieldValue.exists_entries {registry : Registry} {options : Options} {field : Field}
    {name : String} {message : Message} {value : Json}
    (fieldValue : FieldValue registry options field value) (kind : field.kind = .message name)
    (alone : field.cardinality = .singular) (plain : WellKnown.ofName? name = none)
    (found : registry.message? name = some message) :
    ∃ entries, value = .obj entries ∧ MessageValue registry options message entries := by
  cases fieldValue with
  | repeated many => simp [alone] at many
  | map mapped => simp [alone] at mapped
  | singular _ kindValue =>
    rw [kind] at kindValue
    cases kindValue with
    | wellKnown known => simp [plain] at known
    | @message _ owner entries _ held messageValue =>
      obtain rfl := Option.some.inj (held.symm.trans found)
      exact ⟨entries, rfl, messageValue⟩

end ToolContract
