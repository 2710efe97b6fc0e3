import Mathlib.Data.Finset.Lattice.Basic
import Mathlib.Data.Set.Finite.Basic
import Mathlib.Data.String.Basic
import ToolContract.Proofs.Contract.Fillable

/-!
# Contracts that accept something

A contract accepts some value exactly if its message can be filled, provided that the members of
each oneof group have different names (`Compiler.contract_satisfiable`). The value is built along
the derivation that the message can be filled; the tag of a variant tells it from the others, and
so does a fresh text where a member has the name of the discriminator and its value replaces the tag.
-/

set_option autoImplicit false

namespace ToolContract

open Json

/-! ## Values for single fields -/

def JsonType.sample : JsonType → Json
  | .boolean => .bool false
  | .integer | .number => .num (.integer 0)
  | .string => .str ""

private theorem JsonType.holds_sample (type : JsonType) : type.Holds type.sample := by
  cases type with
  | integer => rfl
  | boolean | number | string => trivial

private theorem JsonType.distinct_sample (type : JsonType) : type.sample.Distinct := by
  cases type with
  | boolean => exact .bool false
  | integer | number => exact .num _
  | string => exact .str ""

/-- A type that holds of one text holds of all. -/
theorem JsonType.holds_text {type : JsonType} {left right : String}
    (held : type.Holds (.str left)) : type.Holds (.str right) := by
  cases type with
  | string => exact trivial
  | boolean | integer | number => exact absurd held id

/-- The schema accepts a value in which no object has a key twice. -/
def Contract.Offers (contract : Contract) (schema : Schema) : Prop :=
  ∃ value : Json, value.Distinct ∧ contract.Accepts schema value

section

variable {contract : Contract}

private theorem distinct_empty : (Json.obj []).Distinct :=
  .obj List.nodup_nil fun _ member => absurd member List.not_mem_nil

private theorem WellKnown.offers (type : WellKnown) : contract.Offers type.schema := by
  cases type with
  | struct => exact ⟨.obj [], distinct_empty, Schema.accepts_openObject_iff.mpr ⟨[], rfl⟩⟩
  | value => exact ⟨.null, .null, Schema.accepts_described_iff.mpr Schema.accepts_any⟩
  | listValue =>
    have noItem : ∀ item ∈ ([] : List Json), item.Distinct := by simp
    exact ⟨.arr [], .arr noItem, Schema.accepts_described_iff.mpr
      (Schema.accepts_list_iff.mpr ⟨[], rfl, by simp⟩)⟩
  | empty => exact ⟨.obj [], distinct_empty, Schema.accepts_emptyObject_iff.mpr rfl⟩
  | duration | fieldMask =>
    exact ⟨.str "", .str "", Schema.accepts_described_iff.mpr
      (Schema.accepts_typed_iff.mpr trivial)⟩
  | _ => exact ⟨.null, .null, Schema.accepts_nullable_iff.mpr (.inr rfl)⟩

private theorem Scalar.accepts_iff {type : Scalar} {value : Json} :
    contract.Accepts type.schema value ↔ type.jsonType.Holds value := by
  cases type <;>
    simp only [Contract.Accepts, Scalar.schema, Schema.accepts_described_iff,
      Schema.accepts_typed_iff]

private theorem Enumeration.accepts_iff {enumeration : Enumeration} {value : Json} :
    contract.Accepts enumeration.schema value ↔ JsonType.integer.Holds value := by
  rw [Contract.Accepts, Enumeration.schema, Schema.accepts_describe?_iff,
    Schema.accepts_described_iff, Schema.accepts_typed_iff]

private theorem KindDescribed.offers {registry : Registry} {kind : FieldKind} {schema : Schema}
    (described : KindDescribed registry kind schema)
    (filled : ∀ next, kind.target? = some next → contract.Offers (.reference next)) :
    contract.Offers schema := by
  cases described with
  | @scalar type =>
    exact ⟨type.jsonType.sample, type.jsonType.distinct_sample,
      Scalar.accepts_iff.mpr type.jsonType.holds_sample⟩
  | enumeration =>
    exact ⟨_, JsonType.integer.distinct_sample,
      Enumeration.accepts_iff.mpr JsonType.integer.holds_sample⟩
  | @wellKnown _ type => exact type.offers
  | message plain => exact filled _ (by simp [FieldKind.target?, plain])

/-- A field has a value if what it needs has one. -/
theorem FieldDescribed.offers {registry : Registry} {field : Field} {schema : Schema}
    (described : FieldDescribed registry field schema)
    (filled : ∀ next, field.needs? = some next → contract.Offers (.reference next)) :
    contract.Offers schema := by
  obtain ⟨plain, value, rfl⟩ := described
  suffices offers : contract.Offers plain by
    obtain ⟨value, distinct, accepted⟩ := offers
    exact ⟨value, distinct, Schema.accepts_describe?_iff.mpr accepted⟩
  cases value with
  | singular alone kind =>
    refine kind.offers fun next target => filled next ?_
    rw [Field.needs?, alone]
    exact target
  | repeated =>
    have noItem : ∀ item ∈ ([] : List Json), item.Distinct := by simp
    exact ⟨.arr [], .arr noItem, Schema.accepts_list_iff.mpr ⟨[], rfl, by simp⟩⟩
  | map => exact ⟨.obj [], distinct_empty, Schema.accepts_map_iff.mpr ⟨[], rfl, by simp⟩⟩

private theorem KindDescribed.accepts_text {registry : Registry} {kind : FieldKind}
    {schema : Schema}
    (described : KindDescribed registry kind schema)
    (objects : ∀ next text, kind.target? = some next →
      ¬ contract.Accepts (.reference next) (.str text)) {left right : String}
    (accepted : contract.Accepts schema (.str left)) : contract.Accepts schema (.str right) := by
  cases described with
  | scalar => exact Scalar.accepts_iff.mpr (JsonType.holds_text (Scalar.accepts_iff.mp accepted))
  | enumeration =>
    exact Enumeration.accepts_iff.mpr (JsonType.holds_text (Enumeration.accepts_iff.mp accepted))
  | @wellKnown _ type =>
    cases type <;>
      simp_all [Contract.Accepts, WellKnown.schema, Schema.accepts_described_iff,
        Schema.accepts_typed_iff, Schema.accepts_nullable_iff, Schema.accepts_any,
        Schema.accepts_openObject_iff, Schema.accepts_emptyObject_iff, Schema.accepts_list_iff,
        JsonType.Holds]
  | message plain =>
    exact absurd accepted (objects _ _ (by simp [FieldKind.target?, plain]))

/-- The schema of a field accepts all texts or none, if what it needs accepts objects only. -/
theorem FieldDescribed.accepts_text {registry : Registry} {field : Field} {schema : Schema}
    (described : FieldDescribed registry field schema)
    (objects : ∀ next text, field.needs? = some next →
      ¬ contract.Accepts (.reference next) (.str text)) {left right : String}
    (accepted : contract.Accepts schema (.str left)) : contract.Accepts schema (.str right) := by
  obtain ⟨plain, value, rfl⟩ := described
  rw [Contract.Accepts, Schema.accepts_describe?_iff] at accepted ⊢
  cases value with
  | singular alone kind =>
    refine kind.accepts_text (fun next text target => objects next text ?_) accepted
    rw [Field.needs?, alone]
    exact target
  | repeated =>
    obtain ⟨_, shape, -⟩ := Schema.accepts_list_iff.mp accepted
    contradiction
  | map =>
    obtain ⟨_, shape, -⟩ := Schema.accepts_map_iff.mp accepted
    contradiction

end

/-! ## Values for the variants of a group -/

/-- The value of the member stands where the name of the member would be, and it may be a text. -/
def Contract.TakesText (contract : Contract) (registry : Registry) (member : Field)
    (variant : Schema) : Prop :=
  member.name = discriminatorKey ∧ ∃ schema, FieldDescribed registry member schema ∧
    variant = Compiler.nestedVariant member schema ∧
    ∃ text, contract.Accepts schema (.str text)

section

open Compiler

variable {compiler : Compiler} {contract : Contract} {root : String}

private theorem accepts_nestedVariant_of_same {member : Field} {schema : Schema} {value : Json}
    (same : member.name = discriminatorKey) (accepted : contract.Accepts schema value) :
    contract.Accepts (nestedVariant member schema) (.obj [(discriminatorKey, value)]) := by
  refine Schema.accepts_object_iff.mpr ⟨_, rfl, ?_, ?_⟩
  · simp [same]
  · simp only [List.mem_singleton, forall_eq, same]
    exact ⟨schema, rfl, accepted⟩

private theorem VariantDescribed.offers (describes : contract.Describes compiler root)
    {member : Field}
    {variant : Schema}
    (described : VariantDescribed compiler.registry contract.definitions member variant)
    (filled : ∀ next, member.needs? = some next → contract.Offers (.reference next)) :
    contract.Offers variant := by
  have constant : contract.Accepts (.constant member.name) (.str member.name) :=
    Schema.accepts_constant_iff.mpr rfl
  cases described using VariantDescribed.formCases with
  | @inlined name message definition kind alone plain found stored noDiscriminator =>
    obtain ⟨named, -⟩ := Registry.message?_eq_some found
    have needs : member.needs? = some message.fullName := by
      simp [Field.needs?, alone, Field.target?, kind, FieldKind.target?, plain, named]
    obtain ⟨value, distinct, accepted⟩ := filled _ needs
    obtain ⟨entries, rfl, fits⟩ :=
      ObjectSchema.accepts_iff.mp ((describes.accepts_reference_iff stored).mp accepted)
    obtain ⟨keys, inside⟩ := allObjects_obj_iff.mp distinct
    have absent := Entries.get?_eq_none_iff.mp (fits.get?_eq_none noDiscriminator)
    refine ⟨.obj ((discriminatorKey, .str member.name) :: entries), ?_, ?_⟩
    · refine .obj (List.nodup_cons.mpr ⟨absent, keys⟩) fun entry listed => ?_
      rcases List.mem_cons.mp listed with rfl | listed
      · exact .str _
      · exact inside entry listed
    · exact ObjectSchema.accepts_iff.mpr ⟨_, rfl, fits.inlineObject noDiscriminator constant⟩
  | @nested schema value =>
    obtain ⟨held, distinct, accepted⟩ := value.offers filled
    by_cases same : member.name = discriminatorKey
    · refine ⟨.obj [(discriminatorKey, held)], ?_, accepts_nestedVariant_of_same same accepted⟩
      exact .obj (List.nodup_singleton _) (by simpa using distinct)
    · refine ⟨.obj [(discriminatorKey, .str member.name), (member.name, held)], ?_, ?_⟩
      · refine .obj (by simpa [Entries.Distinct] using Ne.symm same) ?_
        simpa using ⟨.str _, distinct⟩
      · rw [nestedVariant_eq same]
        exact ObjectSchema.accepts_iff.mpr ⟨_, rfl, .nestedObject same constant accepted⟩

private theorem VariantDescribed.exists_content {registry : Registry} {table : Definitions}
    {member : Field} {variant : Schema} {value : Json}
    (described : VariantDescribed registry table member variant)
    (accepted : contract.Accepts variant value) :
    ∃ content : Entries Json, value = .obj content := by
  cases described using VariantDescribed.formCases with
  | inlined =>
    rw [inlineVariant_eq] at accepted
    obtain ⟨content, shape, -⟩ := ObjectSchema.accepts_iff.mp accepted
    exact ⟨content, shape⟩
  | nested =>
    obtain ⟨content, shape, -⟩ := exists_of_accepts_nestedVariant accepted
    exact ⟨content, shape⟩

/-- What a variant accepts names its member, or has the member's own value in that place. -/
theorem VariantDescribed.tag_of_accepts {registry : Registry} {table : Definitions}
    {member : Field} {variant : Schema} {content : Entries Json}
    (described : VariantDescribed registry table member variant)
    (accepted : contract.Accepts variant (.obj content)) :
    ∃ tag, content.get? discriminatorKey = some tag ∧
      (tag = .str member.name ∨ member.name = discriminatorKey ∧
        ∀ text, tag = .str text → contract.TakesText registry member variant) := by
  by_cases same : member.name = discriminatorKey
  · cases described using VariantDescribed.formCases with
    | inlined =>
      rw [inlineVariant_eq] at accepted
      obtain ⟨_, shape, fits⟩ := ObjectSchema.accepts_iff.mp accepted
      obtain rfl := Json.obj.inj shape
      obtain ⟨tag, held, takes⟩ := fits.exists_valid List.mem_cons_self
        (by rw [inlineObject, Entries.get?_cons, if_pos rfl])
      exact ⟨tag, held, .inl (Schema.accepts_constant_iff.mp takes)⟩
    | nested value =>
      obtain ⟨_, shape, tag, held, takes⟩ := exists_of_accepts_nestedVariant accepted
      obtain rfl := Json.obj.inj shape
      rw [same] at held
      refine ⟨tag, held, .inr ⟨same, fun text written => ?_⟩⟩
      exact ⟨same, _, value, rfl, text, written ▸ takes⟩
  · obtain ⟨_, shape, held⟩ := described.get?_discriminator same accepted
    obtain rfl := Json.obj.inj shape
    exact ⟨_, held, .inl rfl⟩

private theorem exists_notMem (names : List String) : ∃ name, name ∉ names := by
  obtain ⟨name, fresh⟩ := Infinite.exists_notMem_finset names.toFinset
  exact ⟨name, fun listed => fresh (List.mem_toFinset.mpr listed)⟩

/-- The members of a group by the positions of their variants. -/
theorem exists_members_of_forall₂ {related : Field → Schema → Prop} {members : List Field}
    {variants : List Schema} (pairs : List.Forall₂ related members variants)
    (names : (members.map Field.name).Nodup) :
    ∃ member : Fin variants.length → Field,
      (∀ index, member index ∈ members ∧ related (member index) (variants.get index)) ∧
      (∀ field ∈ members, ∃ index, member index = field) ∧
      Function.Injective fun index => (member index).name := by
  obtain ⟨same, related⟩ := List.forall₂_iff_get.mp pairs
  have bound (index : Fin variants.length) : index.val < members.length :=
    Nat.lt_of_lt_of_eq index.isLt same.symm
  refine ⟨fun index => members.get ⟨index.val, bound index⟩, fun index => ?_,
    fun field listed => ?_, fun left right equal => ?_⟩
  · exact ⟨List.get_mem _ _, related index.val (bound index) index.isLt⟩
  · obtain ⟨position, held, rfl⟩ := List.getElem_of_mem listed
    exact ⟨⟨position, Nat.lt_of_lt_of_eq held same⟩, rfl⟩
  · have mapped : (members.map Field.name).get ⟨left, by simpa using bound left⟩ =
        (members.map Field.name).get ⟨right, by simpa using bound right⟩ := by
      simpa using equal
    exact Fin.ext (Fin.mk.inj (List.nodup_iff_injective_get.mp names mapped))

/-- A union has a value if its members have different names and one of them has a value. If the
value of one member may be a text and stands where the names of the others do, then a text that is
no member's name is such a value; otherwise names tell the variants apart. -/
theorem offers_union (describes : contract.Describes compiler root) {members : List Field}
    {variants : List Schema}
    (pairs : List.Forall₂ (VariantDescribed compiler.registry contract.definitions) members variants)
    (names : (members.map Field.name).Nodup)
    (objects : ∀ member ∈ members, ∀ next text, member.needs? = some next →
      ¬ contract.Accepts (.reference next) (.str text))
    {chosen : Field} (listed : chosen ∈ members)
    (filled : ∀ next, chosen.needs? = some next → contract.Offers (.reference next)) :
    contract.Offers (.union variants) := by
  obtain ⟨member, described, positions, apart⟩ := exists_members_of_forall₂ pairs names
  by_cases texts : ∃ index,
      contract.TakesText compiler.registry (member index) (variants.get index)
  · obtain ⟨index, tagged, schema, value, form, left, accepted⟩ := texts
    obtain ⟨text, fresh⟩ := exists_notMem (members.map Field.name)
    have takes : contract.Accepts (variants.get index) (.obj [(discriminatorKey, .str text)]) := by
      rw [form]
      exact accepts_nestedVariant_of_same tagged
        (value.accepts_text (objects _ (described index).1) accepted)
    have distinct : (Json.obj [(discriminatorKey, .str text)]).Distinct :=
      .obj (List.nodup_singleton _) (by simpa using AllObjects.str text)
    refine ⟨_, distinct, Schema.accepts_union_iff.mpr ⟨index, takes, fun other also => ?_⟩⟩
    obtain ⟨tag, held, named | ⟨overwritten, -⟩⟩ := (described other).2.tag_of_accepts also
    · rw [named, Entries.get?_cons, if_pos rfl, Option.some.injEq, Json.str.injEq] at held
      exact absurd (held ▸ List.mem_map_of_mem (described other).1) fresh
    · exact apart (overwritten.trans tagged.symm)
  · obtain ⟨index, rfl⟩ := positions chosen listed
    obtain ⟨value, distinct, accepted⟩ := (described index).2.offers describes filled
    refine ⟨value, distinct, Schema.accepts_union_iff.mpr ⟨index, accepted, fun other also => ?_⟩⟩
    obtain ⟨content, rfl⟩ := (described index).2.exists_content accepted
    obtain ⟨tag, held, mine⟩ := (described index).2.tag_of_accepts accepted
    obtain ⟨again, heldAgain, theirs⟩ := (described other).2.tag_of_accepts also
    obtain rfl := Option.some.inj (heldAgain.symm.trans held)
    rcases mine with named | ⟨overwritten, takes⟩ <;>
      rcases theirs with otherNamed | ⟨otherOverwritten, otherTakes⟩
    · exact apart (Json.str.inj (otherNamed.symm.trans named))
    · exact absurd ⟨other, otherTakes _ named⟩ texts
    · exact absurd ⟨index, takes _ otherNamed⟩ texts
    · exact apart (otherOverwritten.trans overwritten.symm)

end

/-! ## Values for messages -/

/-- No two members of one oneof group have the same name. -/
def Message.DistinctMembers (message : Message) : Prop :=
  ∀ group, ((message.members group).map Field.name).Nodup

private theorem Message.DistinctMembers.of_nodup {message : Message}
    (names : (message.fields.map Field.name).Nodup) : message.DistinctMembers :=
  fun _ => names.sublist (List.filter_sublist.map Field.name)

/-- Values for listed properties, as the entries of one object. -/
theorem exists_entries {contract : Contract} {properties : Entries Schema} (names : List String)
    (each : ∀ name ∈ names, ∃ schema, properties.get? name = some schema ∧
      contract.Offers schema) :
    ∃ entries : Entries Json, entries.keys = names ∧ ∀ entry ∈ entries, entry.2.Distinct ∧
      ∃ schema, properties.get? entry.1 = some schema ∧ contract.Accepts schema entry.2 := by
  induction names with
  | nil => exact ⟨[], rfl, by simp⟩
  | cons name rest ih =>
    obtain ⟨schema, found, value, distinct, accepted⟩ := each name List.mem_cons_self
    obtain ⟨entries, keys, inside⟩ := ih fun other listed =>
      each other (List.mem_cons_of_mem _ listed)
    refine ⟨(name, value) :: entries, by rw [Entries.keys_cons, keys], fun entry listed => ?_⟩
    rcases List.mem_cons.mp listed with rfl | listed
    · exact ⟨distinct, schema, found, accepted⟩
    · exact inside entry listed

private theorem ObjectSchema.offers {contract : Contract} {schema : ObjectSchema}
    (distinct : schema.required.Nodup)
    (each : ∀ name ∈ schema.required, ∃ inner, schema.properties.get? name = some inner ∧
      contract.Offers inner) : contract.Offers schema.toSchema := by
  obtain ⟨entries, keys, inside⟩ := exists_entries schema.required each
  refine ⟨.obj entries, .obj ?_ fun entry listed => (inside entry listed).1,
    ObjectSchema.accepts_iff.mpr ⟨entries, rfl, ?_, fun entry listed => (inside entry listed).2⟩⟩
  · rw [Entries.Distinct, keys]
    exact distinct
  · rw [keys]
    exact fun _ listed => listed

namespace Contract.Describes

variable {compiler : Compiler} {contract : Contract} {root : String}

/-- A message type accepts no text. -/
theorem not_accepts_text (describes : contract.Describes compiler root) {owner next : String}
    {message : Message} (present : owner ∈ contract.definitions.keys)
    (registered : compiler.registry.messages[owner]? = some message) {field : Field}
    (declared : field ∈ message.fields) (needs : field.needs? = some next) (text : String) :
    ¬ contract.Accepts (.reference next) (.str text) := by
  intro accepted
  obtain ⟨definition, stored⟩ := describes.exists_definition present registered declared needs
  obtain ⟨_, shape, -⟩ :=
    ObjectSchema.accepts_iff.mp ((describes.accepts_reference_iff stored).mp accepted)
  contradiction

private theorem offers_slot (describes : contract.Describes compiler root) {owner : String}
    {message : Message} (present : owner ∈ contract.definitions.keys)
    (registered : compiler.registry.messages[owner]? = some message)
    (distinct : message.DistinctMembers) {slot : Slot} (listed : slot ∈ message.slots)
    {schema : Schema} (described : SlotDescribed compiler.registry contract.definitions slot schema)
    {chosen : Field} (inside : chosen ∈ slot.fields)
    (filled : ∀ next, chosen.needs? = some next → contract.Offers (.reference next)) :
    contract.Offers schema := by
  cases described with
  | plain value =>
    obtain rfl := List.mem_singleton.mp inside
    exact value.offers filled
  | @group group members variants pairs =>
    have same : members = message.members group := by
      rcases Message.mem_slots_iff.mp listed with ⟨_, _, _, other⟩ | ⟨_, _, other⟩
      · contradiction
      · obtain ⟨rfl, rfl⟩ := Slot.group.inj other
        rfl
    refine offers_union describes pairs (same ▸ distinct group)
      (fun member belongs next text needs => ?_) inside filled
    have declared := (Message.mem_of_mem_group listed belongs).1
    exact describes.not_accepts_text present registered declared needs text

/-- The definition of a message that can be filled accepts some value, if the members of groups
have different names. -/
theorem offers_of_fillable (describes : contract.Describes compiler root)
    (distinct : ∀ next ∈ contract.definitions.keys, ∀ message,
      compiler.registry.messages[next]? = some message → message.DistinctMembers)
    {next : String} (fillable : compiler.registry.Fillable compiler.options next)
    (present : next ∈ contract.definitions.keys) : contract.Offers (.reference next) := by
  induction fillable with
  | @message name message chosen registered inside _ ih =>
    obtain ⟨held, schema, again, stored, described⟩ := describes.entries name present
    obtain rfl := Option.some.inj (again.symm.trans registered)
    suffices offers : contract.Offers schema.toSchema by
      obtain ⟨value, fine, accepted⟩ := offers
      exact ⟨value, fine, (describes.accepts_reference_iff stored).mpr accepted⟩
    refine ObjectSchema.offers described.nodup_required fun property needed => ?_
    obtain ⟨slot, listed, required, rfl⟩ := described.exists_required needed
    obtain ⟨inner, found, -, slotDescribed⟩ := described.exists_property listed
    refine ⟨inner, found, describes.offers_slot present registered
      (distinct name present held registered) listed slotDescribed (inside slot listed required)
      fun other needs => ih slot listed required other needs ?_⟩
    have declared := (Message.mem_slot_fields listed (inside slot listed required)).1
    obtain ⟨definition, kept⟩ := describes.exists_definition present registered declared needs
    exact Definitions.mem_keys_of_schema? kept

end Contract.Describes

private theorem Slot.not_isRequired {message : Message} {slot : Slot} {options : Options}
    (lenient : options.honourOptional = false)
    (unmarked : ∀ field ∈ message.fields, field.markedRequired = false)
    (listed : slot ∈ message.slots) : slot.isRequired options = false := by
  cases slot with
  | plain field =>
    have declared := (Message.mem_slot_fields listed (List.mem_singleton.mpr rfl)).1
    simp [isRequired, Field.isRequired, lenient, unmarked field declared]
  | group group members =>
    simp only [isRequired, groupIsRequired, lenient, Bool.false_or, List.any_eq_false]
    intro member inside
    simp [unmarked member (Message.mem_of_mem_group listed inside).1]

/-- If no field is marked as required then a contract accepts some value whenever the keyword
`optional` is not honoured. If it is honoured, a contract that accepts a value is that of a message
that can be filled; and it accepts one if the message can be filled and the members of each oneof
group that is reached have different names. -/
theorem Compiler.contract_satisfiable (compiler : Compiler) (name : String) (contract : Contract)
    (unmarked : ∀ (next : String) (message : Message),
      compiler.registry.messages[next]? = some message →
      ∀ field ∈ message.fields, field.markedRequired = false)
    (compiled : compiler.contract name = .ok contract) :
    (compiler.options.honourOptional = false →
      ∃ value : Json, value.Distinct ∧ contract.toJson.Admits value) ∧
    ((∃ value : Json, value.Distinct ∧ contract.toJson.Admits value) →
      compiler.registry.Fillable compiler.options (QualifiedName.strip name)) ∧
    ((∀ (next : String) (message : Message),
        compiler.registry.Reaches (QualifiedName.strip name) next →
        compiler.registry.messages[next]? = some message → message.DistinctMembers) →
      compiler.registry.Fillable compiler.options (QualifiedName.strip name) →
      ∃ value : Json, value.Distinct ∧ contract.toJson.Admits value) := by
  have describes := Compiler.contract_describes compiled
  have present := Definitions.mem_keys_of_schema? describes.root
  refine ⟨fun lenient => ?_, fun admitted => ?_, fun distinct fillable => ?_⟩
  · obtain ⟨message, schema, registered, stored, described⟩ := describes.entries _ present
    obtain rfl := Option.some.inj (stored.symm.trans describes.root)
    refine ⟨.obj [], distinct_empty, Contract.admits_iff.mpr
      (ObjectSchema.accepts_iff.mpr ⟨[], rfl, fun property needed => ?_, by simp⟩)⟩
    obtain ⟨slot, listed, required, -⟩ := described.exists_required needed
    rw [Slot.not_isRequired lenient (unmarked _ message registered) listed] at required
    contradiction
  · obtain ⟨value, -, admits⟩ := admitted
    exact describes.fillable_of_accepts describes.root (Contract.admits_iff.mp admits)
  · obtain ⟨value, fine, accepted⟩ := describes.offers_of_fillable
      (fun next inside message registered =>
        distinct next message (describes.mem_keys_iff.mp inside) registered) fillable present
    exact ⟨value, fine, Contract.admits_iff.mpr
      ((describes.accepts_reference_iff describes.root).mp accepted)⟩

/-! ### Messages with required members -/

namespace RequiredMembers

def next : Field where
  name := "next"
  kind := .message "a.Node"

/-- A message that holds one of its own type. -/
def node : Message where
  fullName := "a.Node"
  fields := [next]

def text : Field where
  name := "text"
  kind := .scalar .string
  oneof := some "kind"

/-- A message with the same member twice. -/
def twice : Message where
  fullName := "a.Twice"
  fields := [text, text]

/-- A message that may end in a text. -/
def tree : Message where
  fullName := "a.Tree"
  fields := [{ name := "node", kind := .message "a.Node", oneof := some "kind" },
    { name := "branch", kind := .message "a.Tree", oneof := some "kind" }, text]

def compiler : Compiler where
  registry := Registry.empty |>.addMessage node |>.addMessage twice |>.addMessage tree
  options := { honourOptional := true }

private theorem unmarked (name : String) (message : Message)
    (registered : compiler.registry.messages[name]? = some message) :
    ∀ field ∈ message.fields, field.markedRequired = false := by
  have all : ∀ message ∈ compiler.registry.messageList,
      ∀ field ∈ message.fields, field.markedRequired = false := by decide +kernel
  exact all message (Registry.mem_messageList registered)

/-- The only field of a node is required and needs a node. -/
theorem node_not_fillable : ¬ compiler.registry.Fillable compiler.options "a.Node" := by
  intro fillable
  generalize same : "a.Node" = name at fillable
  induction fillable with
  | message chosen registered inside _ ih =>
    subst same
    have held : compiler.registry.messages["a.Node"]? = some node := by decide +kernel
    obtain rfl := Option.some.inj (held.symm.trans registered)
    have listed : Slot.plain next ∈ node.slots := List.mem_singleton.mpr rfl
    have only := List.mem_singleton.mp (inside _ listed rfl)
    refine ih _ listed rfl "a.Node" ?_ rfl
    rw [only]
    decide +kernel

private theorem fillable_of_text {name : String} {message : Message} {members : List Field}
    (registered : compiler.registry.messages[name]? = some message)
    (slots : message.slots = [.group "kind" members]) (listed : text ∈ members) :
    compiler.registry.Fillable compiler.options name := by
  refine .of_slots registered fun slot member _ => ?_
  rw [slots, List.mem_singleton] at member
  rw [member]
  exact ⟨text, listed, fun _ needs => by contradiction⟩

private theorem variant_text {table : Definitions} {variant : Schema}
    (described : VariantDescribed compiler.registry table text variant) :
    variant = Compiler.nestedVariant text (.typed .string) := by
  cases described using VariantDescribed.formCases with
  | inlined kind => contradiction
  | nested value =>
    obtain ⟨_, value, rfl⟩ := value
    cases value with
    | repeated many => contradiction
    | map mapped => contradiction
    | singular _ kind => cases kind with | scalar => rfl

/-- A tree leads to trees and nodes only. -/
theorem nodup_of_reached {name : String} {message : Message}
    (reached : compiler.registry.Reaches "a.Tree" name)
    (registered : compiler.registry.messages[name]? = some message) :
    (message.fields.map Field.name).Nodup := by
  have tree : compiler.registry.messages["a.Tree"]? = some tree := by decide +kernel
  have node : compiler.registry.messages["a.Node"]? = some node := by decide +kernel
  have known : name = "a.Tree" ∨ name = "a.Node" := by
    clear registered
    induction reached with
    | refl => exact .inl rfl
    | tail _ refers ih =>
      obtain ⟨owner, held, listed⟩ := refers
      rcases ih with rfl | rfl
      · obtain rfl := Option.some.inj (tree.symm.trans held)
        rw [show RequiredMembers.tree.targets = ["a.Node", "a.Tree"] by decide +kernel] at listed
        simpa [or_comm] using listed
      · obtain rfl := Option.some.inj (node.symm.trans held)
        rw [show RequiredMembers.node.targets = ["a.Node"] by decide +kernel] at listed
        exact .inr (List.mem_singleton.mp listed)
  rcases known with rfl | rfl
  · obtain rfl := Option.some.inj (tree.symm.trans registered)
    decide
  · obtain rfl := Option.some.inj (node.symm.trans registered)
    decide

/-- The two variants are the same, so no value is valid for exactly one of them. -/
theorem twice_rejects {contract : Contract} (compiled : compiler.contract "a.Twice" = .ok contract)
    (value : Json) : ¬ contract.toJson.Admits value := by
  intro admits
  have describes := Compiler.contract_describes compiled
  have stripped : QualifiedName.strip "a.Twice" = "a.Twice" := by decide +kernel
  rw [stripped] at describes
  obtain ⟨message, registered, described⟩ := describes.faithful.described _ _ describes.root
  have held : compiler.registry.messages["a.Twice"]? = some twice := by decide +kernel
  obtain rfl := Option.some.inj (held.symm.trans registered)
  obtain ⟨entries, rfl, fits⟩ := ObjectSchema.accepts_iff.mp (Contract.admits_iff.mp admits)
  have listed : Slot.group "kind" [text, text] ∈ twice.slots := List.mem_singleton.mpr rfl
  obtain ⟨property, found, -, slot⟩ := described.exists_property listed
  obtain ⟨part, -, takes⟩ := fits.exists_valid (described.mem_required listed rfl) found
  cases slot with
  | group pairs =>
    cases pairs with
    | cons first rest =>
      cases rest with
      | cons second rest =>
        cases rest
        obtain rfl := variant_text first
        obtain rfl := variant_text second
        obtain ⟨index, accepted, alone⟩ := Schema.accepts_union_iff.mp takes
        have same (other : Fin 2) : [Compiler.nestedVariant text (.typed .string),
            Compiler.nestedVariant text (.typed .string)].get other =
              Compiler.nestedVariant text (.typed .string) := by
          match other with
          | 0 | 1 => rfl
        rw [same] at accepted
        have both (other : Fin 2) : other = index :=
          alone other (by simpa only [same] using accepted)
        exact absurd ((both 0).trans (both 1).symm) (by decide)

end RequiredMembers

open RequiredMembers in
/-- Two messages whose contracts accept nothing if the keyword `optional` is honoured: one that
requires a message of its own type, and one with two members of the same name, though it can be
filled. -/
theorem contract_unsatisfiable :
    (∀ (name : String) (message : Message), compiler.registry.messages[name]? = some message →
      ∀ field ∈ message.fields, field.markedRequired = false) ∧
    (∃ contract, compiler.contract "a.Node" = .ok contract ∧
      ∀ value, ¬ contract.toJson.Admits value) ∧
    ∃ contract, compiler.contract "a.Twice" = .ok contract ∧
      compiler.registry.Fillable compiler.options "a.Twice" ∧
      ∀ value, ¬ contract.toJson.Admits value := by
  refine ⟨unmarked, ?_, ?_⟩
  · obtain ⟨contract, compiled⟩ : ∃ contract, compiler.contract "a.Node" = .ok contract :=
      Compiler.exists_contract_of_isOk (by decide +kernel)
    have stripped : QualifiedName.strip "a.Node" = "a.Node" := by decide +kernel
    have describes := Compiler.contract_describes compiled
    rw [stripped] at describes
    exact ⟨contract, compiled, fun value admits => node_not_fillable
      (describes.fillable_of_accepts describes.root (Contract.admits_iff.mp admits))⟩
  · obtain ⟨contract, compiled⟩ : ∃ contract, compiler.contract "a.Twice" = .ok contract :=
      Compiler.exists_contract_of_isOk (by decide +kernel)
    have held : compiler.registry.messages["a.Twice"]? = some twice := by decide +kernel
    have slots : twice.slots = [.group "kind" [text, text]] := rfl
    have fillable := fillable_of_text held slots List.mem_cons_self
    exact ⟨contract, compiled, fillable, twice_rejects compiled⟩

open RequiredMembers in
theorem Compiler.contract_satisfiable_tree :
    ∃ contract, compiler.contract "a.Tree" = .ok contract ∧
      ∃ value : Json, value.Distinct ∧ contract.toJson.Admits value := by
  obtain ⟨contract, compiled⟩ : ∃ contract, compiler.contract "a.Tree" = .ok contract :=
    Compiler.exists_contract_of_isOk (by decide +kernel)
  have stripped : QualifiedName.strip "a.Tree" = "a.Tree" := by decide +kernel
  have held : compiler.registry.messages["a.Tree"]? = some tree := by decide +kernel
  obtain ⟨-, -, satisfiable⟩ :=
    Compiler.contract_satisfiable compiler "a.Tree" contract unmarked compiled
  rw [stripped] at satisfiable
  refine ⟨contract, compiled, satisfiable (fun next message reached registered => ?_) ?_⟩
  · exact .of_nodup (nodup_of_reached reached registered)
  · exact fillable_of_text held rfl (List.mem_of_getElem? (i := 2) rfl)

end ToolContract
