import ToolContract.Proofs.Compile.Schemas

/-!
# The properties of a message

A message may declare the members of its oneof groups in any order, between each other and between
other fields. Its properties stand at the positions of its openers: the fields outside any group,
and the first member of each group. Every field is represented at one place, under its own name or
by the variant at its rank among the members of its group (`Compiler.messageSchema_properties`).
-/

set_option autoImplicit false

namespace ToolContract

/-! ## Positions in a list -/

section Positions

variable {α : Type} {condition : α → Bool} {items : List α} {index rank : Nat} {item : α}

/-- Among the items that pass, one comes after those that pass before it. -/
theorem getElem?_filter_countP_take (found : items[index]? = some item)
    (passes : condition item = true) :
    (items.filter condition)[(items.take index).countP condition]? = some item := by
  induction items generalizing index with
  | nil => cases found
  | cons first rest ih =>
    cases index with
    | zero =>
      obtain rfl := Option.some.inj found
      simp [passes]
    | succ index =>
      have later := ih found
      by_cases fine : condition first = true
      · simpa [List.filter_cons, fine] using later
      · simpa [List.filter_cons, fine] using later

private theorem exists_countP_take_eq (small : rank < (items.filter condition).length) :
    ∃ index item, items[index]? = some item ∧ condition item = true ∧
      (items.take index).countP condition = rank := by
  induction items generalizing rank with
  | nil => simp at small
  | cons first rest ih =>
    by_cases fine : condition first = true
    · cases rank with
      | zero => exact ⟨0, first, rfl, fine, rfl⟩
      | succ rank =>
        have fewer : rank < (rest.filter condition).length := by
          simpa [List.filter_cons, fine] using small
        obtain ⟨index, item, found, passes, count⟩ := ih fewer
        exact ⟨index + 1, item, found, passes, by simp [fine, count]⟩
    · have same : rank < (rest.filter condition).length := by
        simpa [List.filter_cons, fine] using small
      obtain ⟨index, item, found, passes, count⟩ := ih same
      exact ⟨index + 1, item, found, passes, by simp [fine, count]⟩

private theorem countP_take_lt {later : Nat} (found : items[index]? = some item)
    (passes : condition item = true) (before : index < later) :
    (items.take index).countP condition < (items.take later).countP condition := by
  have next : (items.take (index + 1)).countP condition =
      (items.take index).countP condition + 1 := by
    rw [List.take_add_one, found, List.countP_append]
    simp [passes]
  have grows : (items.take (index + 1)).countP condition ≤ (items.take later).countP condition :=
    (List.take_sublist_take_left before).countP_le
  omega

private theorem nodup_zipIdx (items : List α) : items.zipIdx.Nodup := by
  refine List.Nodup.of_map Prod.snd ?_
  rw [List.zipIdx_map_snd]
  exact List.nodup_range'

end Positions

/-! ## What a message requires -/

namespace Message

/-- Whether the property at the position of the opener must be present. -/
def requires (message : Message) (options : Options) (opener : Field) : Bool :=
  match opener.oneof with
  | none =>
    !opener.isList && !opener.isMap &&
      (opener.markedRequired || options.honourOptional && !opener.declaredOptional)
  | some group =>
    options.honourOptional ||
      message.fields.any fun member => member.oneof = some group && member.markedRequired

private theorem slot_isRequired (message : Message) (options : Options) (opener : Field) :
    (message.slot opener).isRequired options = message.requires options opener := by
  unfold slot requires
  cases opener.oneof with
  | none => rfl
  | some group => simp [Slot.isRequired, groupIsRequired, members, List.any_filter]

/-! ## The places of the fields -/

/-- How many members of the group are declared before the position. -/
def rank (message : Message) (index : Nat) (group : String) : Nat :=
  (message.fields.take index).countP fun earlier => earlier.oneof = some group

/-- The place of the field at the position: the name of a property and, for a member of a group,
the rank among the variants. -/
def place (message : Message) (index : Nat) (field : Field) : String × Option Nat :=
  (field.property, field.oneof.map (message.rank index))

def places (message : Message) : List (String × Option Nat) :=
  message.fields.zipIdx.map fun entry => message.place entry.2 entry.1

private theorem mem_places_iff {message : Message} {place : String × Option Nat} :
    place ∈ message.places ↔
      ∃ index field, message.fields[index]? = some field ∧ message.place index field = place := by
  simp only [places, List.mem_map, Prod.exists, List.mk_mem_zipIdx_iff_getElem?]
  exact exists_comm

/-- Two fields have different places if no property name is there twice. -/
theorem place_ne {message : Message} (distinct : (message.openers.map Field.property).Nodup)
    {earlier later : Nat} {left right : Field} (before : earlier < later)
    (leftFound : message.fields[earlier]? = some left)
    (rightFound : message.fields[later]? = some right) :
    message.place earlier left ≠ message.place later right := by
  intro same
  obtain ⟨property, ranks⟩ := Prod.mk.inj same
  cases leftGroup : left.oneof with
  | none =>
    have rightGroup : right.oneof = none := by
      rw [leftGroup] at ranks
      exact Option.map_eq_none_iff.mp ranks.symm
    have listed {index : Nat} {field : Field} (found : message.fields[index]? = some field)
        (alone : field.oneof = none) :
        (field, index) ∈ message.fields.zipIdx.filter
          fun entry => message.opens entry.2 entry.1 :=
      List.mem_filter.mpr ⟨List.mk_mem_zipIdx_iff_getElem?.mpr found, by simp [opens, alone]⟩
    rw [openers, List.map_map] at distinct
    have equal := List.inj_on_of_nodup_map distinct (listed leftFound leftGroup)
      (listed rightFound rightGroup) property
    exact Nat.ne_of_lt before (congrArg Prod.snd equal)
  | some group =>
    cases rightGroup : right.oneof with
    | none => simp [leftGroup, rightGroup] at ranks
    | some other =>
      obtain rfl : group = other := by
        simpa [Field.property, leftGroup, rightGroup] using property
      have sameRank : message.rank earlier group = message.rank later group := by
        simpa [leftGroup, rightGroup] using ranks
      have grows : message.rank earlier group < message.rank later group :=
        countP_take_lt leftFound (decide_eq_true leftGroup) before
      exact Nat.ne_of_lt grows sameRank

private theorem nodup_places {message : Message}
    (distinct : (message.openers.map Field.property).Nodup) :
    message.places.Nodup := by
  refine (List.nodup_map_iff_inj_on (nodup_zipIdx _)).mpr ?_
  rintro ⟨left, earlier⟩ leftListed ⟨right, later⟩ rightListed same
  have leftFound := List.mk_mem_zipIdx_iff_getElem?.mp leftListed
  have rightFound := List.mk_mem_zipIdx_iff_getElem?.mp rightListed
  rcases Nat.lt_trichotomy earlier later with before | rfl | after
  · exact absurd same (place_ne distinct before leftFound rightFound)
  · rw [leftFound] at rightFound
    rw [Option.some.inj rightFound]
  · exact absurd same.symm (place_ne distinct after rightFound leftFound)

end Message

/-! ## The parts of a schema -/

/-- What is under the name of a property: the variants of a union by their ranks, and the schema
itself if it is no union. -/
def Schema.parts : Schema → List (Option Nat × Schema)
  | .union variants => variants.zipIdx.map fun entry => (some entry.2, entry.1)
  | schema => [(none, schema)]

/-- The parts of an object schema, each at its place. -/
def ObjectSchema.parts (schema : ObjectSchema) : List ((String × Option Nat) × Schema) :=
  schema.properties.flatMap fun property =>
    property.2.parts.map fun part => ((property.1, part.1), part.2)

/-- The part is the schema of the field, or its variant if it is a member of a group. -/
def Field.RepresentedBy (registry : Registry) (table : Definitions) (field : Field)
    (part : Schema) : Prop :=
  match field.oneof with
  | none => FieldDescribed registry field part
  | some _ => VariantDescribed registry table field part

/-- How the schema of a message is put together. -/
structure Message.Represented (compiler : Compiler) (table : Definitions) (message : Message)
    (schema : ObjectSchema) : Prop where
  keys : schema.properties.keys = message.openers.map Field.property
  distinct : schema.properties.keys.Nodup
  /-- Every part is at the place of a field, and every field has a part at its place. -/
  places : (schema.parts.map Prod.fst).Perm message.places
  /-- No two fields and no two parts share a place. -/
  once : message.places.Nodup
  parts : ∀ index field, message.fields[index]? = some field →
    ∃ part, (message.place index field, part) ∈ schema.parts ∧
      field.RepresentedBy compiler.registry table part
  required :
    schema.required =
      (message.openers.filter fun opener => message.requires compiler.options opener).map
        Field.property

section Parts

variable {registry : Registry} {table : Definitions}

private theorem KindDescribed.parts_eq {kind : FieldKind} {schema : Schema}
    (described : KindDescribed registry kind schema) : schema.parts = [(none, schema)] := by
  cases described with
  | @scalar type => cases type <;> rfl
  | @enumeration _ enumeration =>
    unfold Enumeration.schema
    cases enumeration.comment <;> rfl
  | @wellKnown _ type => cases type <;> rfl
  | message => rfl

private theorem FieldDescribed.parts_eq {field : Field} {schema : Schema}
    (described : FieldDescribed registry field schema) : schema.parts = [(none, schema)] := by
  obtain ⟨plain, value, rfl⟩ := described
  cases field.comment with
  | some comment => cases plain <;> rfl
  | none =>
    cases value with
    | singular _ kind => exact kind.parts_eq
    | repeated => rfl
    | map => rfl

private theorem Schema.mem_parts_union_iff {variants : List Schema} {rank : Option Nat}
    {part : Schema} :
    (rank, part) ∈ (Schema.union variants).parts ↔
      ∃ index, rank = some index ∧ variants[index]? = some part := by
  simp only [Schema.parts, List.mem_map, Prod.exists, List.mk_mem_zipIdx_iff_getElem?,
    Prod.mk.injEq]
  constructor
  · rintro ⟨_, index, found, rfl, rfl⟩
    exact ⟨index, rfl, found⟩
  · rintro ⟨index, rfl, found⟩
    exact ⟨part, index, found, rfl, rfl⟩

private theorem Schema.nodup_parts (schema : Schema) : (schema.parts.map Prod.fst).Nodup := by
  cases schema with
  | union variants =>
    have ranks : (Schema.union variants).parts.map Prod.fst =
        (variants.zipIdx.map Prod.snd).map some := by
      rw [Schema.parts, List.map_map, List.map_map]
      rfl
    rw [ranks, List.zipIdx_map_snd]
    exact List.Nodup.map (fun _ _ => Option.some.inj) List.nodup_range'
  | _ => exact List.nodup_singleton _

private theorem ObjectSchema.mem_parts_iff {schema : ObjectSchema} {name : String}
    {rank : Option Nat}
    {part : Schema} :
    ((name, rank), part) ∈ schema.parts ↔
      ∃ property, (name, property) ∈ schema.properties ∧ (rank, part) ∈ property.parts := by
  simp only [ObjectSchema.parts, List.mem_flatMap, List.mem_map, Prod.exists, Prod.mk.injEq]
  constructor
  · rintro ⟨_, property, listed, _, _, inside, ⟨rfl, rfl⟩, rfl⟩
    exact ⟨property, listed, inside⟩
  · rintro ⟨property, listed, inside⟩
    exact ⟨name, property, listed, rank, part, inside, ⟨rfl, rfl⟩, rfl⟩

private theorem ObjectSchema.nodup_parts {schema : ObjectSchema}
    (distinct : schema.properties.Distinct) :
    (schema.parts.map Prod.fst).Nodup := by
  rw [ObjectSchema.parts, List.map_flatMap]
  refine List.nodup_flatMap.mpr ⟨fun property _ => ?_, ?_⟩
  · have places : (property.2.parts.map fun part => ((property.1, part.1), part.2)).map Prod.fst =
        (property.2.parts.map Prod.fst).map fun rank => (property.1, rank) := by
      rw [List.map_map, List.map_map]
      rfl
    rw [places]
    exact property.2.nodup_parts.map fun _ _ same => (Prod.mk.inj same).2
  · refine (List.pairwise_map.mp distinct).imp fun {left right} different place inLeft inRight => ?_
    simp only [List.mem_map] at inLeft inRight
    obtain ⟨_, ⟨_, _, rfl⟩, rfl⟩ := inLeft
    obtain ⟨_, ⟨_, _, rfl⟩, same⟩ := inRight
    exact different (Prod.mk.inj same).1.symm

end Parts

/-! ## What a described schema represents -/

namespace MessageDescribed

variable {compiler : Compiler} {table : Definitions} {message : Message} {schema : ObjectSchema}

private theorem keys_eq_openers (described : MessageDescribed compiler table message schema) :
    schema.properties.keys = message.openers.map Field.property := by
  rw [described.keys_eq, message.slots_property]

private theorem required_eq_openers (described : MessageDescribed compiler table message schema) :
    schema.required =
      (message.openers.filter fun opener => message.requires compiler.options opener).map
        Field.property := by
  rw [described.required, message.slots_eq, List.filter_map, List.map_map]
  have needed : ((fun slot : Slot => slot.isRequired compiler.options) ∘ message.slot) =
      fun opener => message.requires compiler.options opener :=
    funext fun opener => message.slot_isRequired compiler.options opener
  rw [needed]
  exact List.map_congr_left fun opener _ => message.slot_property opener

/-- Every field has a part that represents it at its place. -/
theorem exists_part (described : MessageDescribed compiler table message schema) {index : Nat}
    {field : Field} (found : message.fields[index]? = some field) :
    ∃ part, (message.place index field, part) ∈ schema.parts ∧
      field.RepresentedBy compiler.registry table part := by
  have declared := List.mem_of_getElem? found
  cases grouped : field.oneof with
  | none =>
    have listed : Slot.plain field ∈ message.slots :=
      Message.mem_slots_iff.mpr (.inl ⟨field, declared, grouped, rfl⟩)
    obtain ⟨property, -, stored, slot⟩ := described.exists_property listed
    cases slot with
    | plain value =>
      refine ⟨property, ?_, by simpa [Field.RepresentedBy, grouped] using value⟩
      rw [Message.place, Field.property, grouped]
      exact ObjectSchema.mem_parts_iff.mpr ⟨property, stored, by simp [value.parts_eq]⟩
  | some group =>
    have listed : Slot.group group (message.members group) ∈ message.slots :=
      Message.mem_slots_iff.mpr (.inr ⟨group, ⟨field, declared, grouped⟩, rfl⟩)
    obtain ⟨property, -, stored, slot⟩ := described.exists_property listed
    cases slot with
    | @group _ _ variants pairs =>
      have ranked : (message.members group)[message.rank index group]? = some field :=
        getElem?_filter_countP_take found (decide_eq_true grouped)
      obtain ⟨part, atRank, variant⟩ := exists_right_getElem? pairs ranked
      refine ⟨part, ?_, by simpa [Field.RepresentedBy, grouped] using variant⟩
      rw [Message.place, Field.property, grouped]
      exact ObjectSchema.mem_parts_iff.mpr
        ⟨_, stored, Schema.mem_parts_union_iff.mpr ⟨_, rfl, atRank⟩⟩

/-- Every part is at the place of a field. -/
theorem exists_field (described : MessageDescribed compiler table message schema) {name : String}
    {rank : Option Nat} {part : Schema} (held : ((name, rank), part) ∈ schema.parts) :
    ∃ index field, message.fields[index]? = some field ∧
      message.place index field = (name, rank) := by
  obtain ⟨property, stored, inside⟩ := ObjectSchema.mem_parts_iff.mp held
  obtain ⟨slot, listed, rfl, slotDescribed⟩ := described.exists_slot stored
  rcases Message.mem_slots_iff.mp listed with ⟨field, declared, alone, rfl⟩ | ⟨group, -, rfl⟩
  · cases slotDescribed with
    | plain value =>
      rw [value.parts_eq, List.mem_singleton] at inside
      obtain ⟨rfl, rfl⟩ := Prod.mk.inj inside
      obtain ⟨index, found⟩ := List.getElem?_of_mem declared
      exact ⟨index, field, found, by simp [Message.place, Field.property, alone, Slot.property]⟩
  · cases slotDescribed with
    | group pairs =>
      obtain ⟨rank, rfl, atRank⟩ := Schema.mem_parts_union_iff.mp inside
      obtain ⟨member, ranked, -⟩ := exists_left_getElem? pairs atRank
      obtain ⟨small, -⟩ := List.getElem?_eq_some_iff.mp ranked
      obtain ⟨index, field, found, passes, count⟩ := exists_countP_take_eq small
      have grouped : field.oneof = some group := of_decide_eq_true passes
      have rank_eq : message.rank index group = rank := count
      exact ⟨index, field, found, by
        simp [Message.place, Field.property, grouped, Slot.property, rank_eq]⟩

private theorem represented (described : MessageDescribed compiler table message schema) :
    message.Represented compiler table schema := by
  have distinct := described.distinct
  rw [Entries.Distinct, described.keys_eq_openers] at distinct
  have once := Message.nodup_places distinct
  refine ⟨described.keys_eq_openers, described.distinct, ?_, once,
    fun _ _ found => described.exists_part found, described.required_eq_openers⟩
  refine (List.perm_ext_iff_of_nodup (ObjectSchema.nodup_parts described.distinct) once).mpr ?_
  intro place
  rw [Message.mem_places_iff, List.mem_map]
  constructor
  · rintro ⟨⟨⟨name, rank⟩, part⟩, inside, rfl⟩
    exact described.exists_field inside
  · rintro ⟨index, field, found, rfl⟩
    obtain ⟨part, inside, -⟩ := described.exists_part found
    exact ⟨_, inside, rfl⟩

end MessageDescribed

/-! ## The properties of a compiled message -/

/-- Whatever the table holds, the schema of a message has its properties at the positions of its
openers and represents every field once; if two properties have one name, there is none. -/
theorem Compiler.messageSchema_properties (compiler : Compiler) (message : Message)
    (table : Definitions) :
    (∀ schema after, compiler.messageSchema message table = (.ok schema, after) →
      message.Represented compiler after schema) ∧
    (¬ (message.openers.map Field.property).Nodup →
      ∃ cause after, compiler.messageSchema message table = (.error cause, after)) := by
  refine ⟨fun schema after ran => (messageSchema_described ran).represented, fun repeated => ?_⟩
  rcases ran : compiler.messageSchema message table with ⟨outcome, after⟩
  cases outcome with
  | error cause => exact ⟨cause, after, rfl⟩
  | ok schema =>
    have represented := (messageSchema_described ran).represented
    exact absurd (represented.keys ▸ represented.distinct) repeated

/-! ### Groups between each other -/

namespace Crossing

/-- The members of two groups alternate, and a field outside any group has the suffix of one. -/
def crossing : Message where
  fullName := "a.Crossing"
  fields := [
    { name := "first", kind := .scalar .string, markedRequired := true },
    { name := "up", kind := .scalar .int32, oneof := some "left" },
    { name := "near", kind := .scalar .bool, oneof := some "right", markedRequired := true },
    { name := "midOneOfType", kind := .scalar .string, cardinality := .repeated },
    { name := "down", kind := .message ".a.Crossing", oneof := some "left" },
    { name := "far", kind := .scalar .bytes, oneof := some "right" }]

/-- A field outside any group has the name of the property of a group. -/
def clashing : Message where
  fullName := "a.Clashing"
  fields := [
    { name := "up", kind := .scalar .int32, oneof := some "left" },
    { name := "leftOneOfType", kind := .scalar .string }]

def compiler : Compiler where
  registry := Registry.empty |>.addMessage crossing

def table : Definitions := [("a.Other", .reserved)]

end Crossing

open Crossing in
theorem Compiler.messageSchema_properties_crossing :
    (∃ schema after, compiler.messageSchema crossing table = (.ok schema, after) ∧
      schema.properties.keys = ["first", "leftOneOfType", "rightOneOfType", "midOneOfType"] ∧
      schema.required = ["first", "rightOneOfType"] ∧
      crossing.places = [("first", none), ("leftOneOfType", some 0), ("rightOneOfType", some 0),
        ("midOneOfType", none), ("leftOneOfType", some 1), ("rightOneOfType", some 1)] ∧
      crossing.Represented compiler after schema) ∧
    ∃ cause after, compiler.messageSchema clashing table = (.error cause, after) := by
  obtain ⟨represented, -⟩ := Compiler.messageSchema_properties compiler crossing table
  obtain ⟨-, failing⟩ := Compiler.messageSchema_properties compiler clashing table
  refine ⟨?_, failing (by decide +kernel)⟩
  have compiled : (compiler.messageSchema crossing table).1.toOption.isSome = true := by
    decide +kernel
  rcases ran : compiler.messageSchema crossing table with ⟨outcome, after⟩
  rw [ran] at compiled
  cases outcome with
  | error cause => cases compiled
  | ok schema =>
    have found := represented schema after ran
    refine ⟨schema, after, rfl, found.keys.trans ?_, found.required.trans ?_, ?_, found⟩
    all_goals decide +kernel

end ToolContract
