import ToolContract.Proofs.Contract.Describes

/-!
# Which messages have a contract

A message has a contract exactly if its name is registered and every message type that it reaches
is well declared: its fields refer to types that exist, none of them is a group, its maps are keyed
by texts, truth values or integers, and the names of its properties are pairwise different. For
every other name the compilation ends in an error (`Compiler.contract_ok_iff`).
-/

set_option autoImplicit false

namespace ToolContract

/-! ## What a well-declared message keeps to -/

/-- The kinds that may key a map: texts, truth values and the ten sorts of integers. -/
def FieldKind.mapKeys : List FieldKind :=
  [.scalar .string, .scalar .bool, .scalar .int32, .scalar .int64, .scalar .uint32,
    .scalar .uint64, .scalar .sint32, .scalar .sint64, .scalar .fixed32, .scalar .fixed64,
    .scalar .sfixed32, .scalar .sfixed64]

/-- The names of the fields outside oneofs, and one property name for each oneof group. -/
def Message.propertyNames (message : Message) : List String :=
  (message.fields.filter fun field => field.oneof = none).map Field.name ++
    (message.fields.filterMap Field.oneof).eraseDups.map fun group => group ++ oneofSuffix

/-- What the declarations of a message have to keep to in the registry. -/
structure Message.WellDeclared (registry : Registry) (message : Message) : Prop where
  /-- A message type that a field refers to is well known or registered. -/
  messages : ∀ field ∈ message.fields, ∀ name, field.kind = .message name →
    (∃ type : WellKnown, type.fullName = QualifiedName.strip name) ∨
      ∃ target, registry.message? name = some target
  /-- An enum that a field refers to is registered. -/
  enumerations : ∀ field ∈ message.fields, ∀ name, field.kind = .enumeration name →
    ∃ enumeration, registry.enumeration? name = some enumeration
  groups : ∀ field ∈ message.fields, ∀ name, field.kind ≠ .group name
  keys : ∀ field ∈ message.fields, ∀ key, field.cardinality = .map key → key ∈ FieldKind.mapKeys
  properties : message.propertyNames.Nodup

/-- The name is registered, and the messages that it reaches are well declared. -/
def Registry.WellDeclared (registry : Registry) (name : String) : Prop :=
  (∃ message, registry.message? name = some message) ∧
    ∀ next message, registry.Reaches (QualifiedName.strip name) next →
      registry.messages[next]? = some message → message.WellDeclared registry

/-! ## Well-declared messages are those that can be compiled -/

private theorem FieldKind.isSome_keyForm?_iff {kind : FieldKind} :
    kind.keyForm?.isSome = true ↔ kind ∈ mapKeys := by
  cases kind with
  | scalar type => cases type <;> decide
  | _ => simp [keyForm?, mapKeys]

private theorem WellKnown.isSome_ofName?_iff {name : String} :
    (ofName? name).isSome = true ↔ ∃ type : WellKnown, type.fullName = QualifiedName.strip name := by
  rw [ofName?, List.find?_isSome]
  constructor
  · rintro ⟨type, -, named⟩
    exact ⟨type, of_decide_eq_true named⟩
  · rintro ⟨type, named⟩
    exact ⟨type, mem_all type, decide_eq_true named⟩

namespace Message

/-- The properties of the slots are the property names, in the order of the slots. -/
theorem perm_slotsFrom (message : Message) (met : List String) (fields : List Field) :
    ((message.slotsFrom met fields).map Slot.property).Perm
      ((fields.filter fun field => field.oneof = none).map Field.name ++
        ((fields.filterMap Field.oneof).filter fun group => group ∉ met).eraseDups.map
          fun group => group ++ oneofSuffix) := by
  induction fields generalizing met with
  | nil => simp [slotsFrom]
  | cons field rest ih =>
    cases grouped : field.oneof with
    | none =>
      simp only [slotsFrom, grouped, List.map_cons, Slot.property, List.filter_cons, decide_true,
        if_true, List.filterMap_cons, List.cons_append]
      exact (ih met).cons _
    | some group =>
      by_cases known : group ∈ met
      · simpa [slotsFrom, grouped, known] using ih met
      · have later : ((rest.filterMap Field.oneof).filter fun other => other ∉ met).filter
            (fun other => !other == group) =
            (rest.filterMap Field.oneof).filter fun other => other ∉ group :: met := by
          rw [List.filter_filter]
          refine List.filter_congr fun other _ => ?_
          by_cases same : other = group <;> simp [same]
        simp only [slotsFrom, grouped, known, if_false, List.map_cons, Slot.property,
          List.filter_cons, List.filterMap_cons, reduceCtorEq, decide_false, Bool.false_eq_true,
          not_false_eq_true, decide_true, if_true, List.eraseDups_cons, later]
        exact ((ih (group :: met)).cons _).trans List.perm_middle.symm

private theorem perm_propertyNames (message : Message) :
    (message.slots.map Slot.property).Perm message.propertyNames := by
  have perm := message.perm_slotsFrom [] message.fields
  simpa [slots, propertyNames] using perm

private theorem wellFormed_iff {registry : Registry} {message : Message} :
    message.WellFormed registry ↔ message.WellDeclared registry := by
  constructor
  · intro fine
    have refers {field : Field} (listed : field ∈ message.fields) :
        field.kind.WellFormed registry := (fine.fields field listed).kind
    constructor
    case messages =>
      intro field listed name kind
      rw [← WellKnown.isSome_ofName?_iff, ← Option.isSome_iff_exists]
      simpa only [kind, FieldKind.WellFormed] using refers listed
    case enumerations =>
      intro field listed name kind
      rw [← Option.isSome_iff_exists]
      simpa only [kind, FieldKind.WellFormed] using refers listed
    case groups =>
      intro field listed name kind
      simpa only [kind, FieldKind.WellFormed] using refers listed
    case keys =>
      intro field listed key map
      exact FieldKind.isSome_keyForm?_iff.mp ((fine.fields field listed).key key map)
    case properties => exact message.perm_propertyNames.nodup_iff.mp fine.properties
  · intro declared
    refine ⟨fun field listed => ⟨?_, fun key map => ?_⟩, ?_⟩
    · cases kind : field.kind with
      | scalar type => trivial
      | enumeration name =>
        exact Option.isSome_iff_exists.mpr (declared.enumerations field listed name kind)
      | message name =>
        rw [FieldKind.WellFormed, WellKnown.isSome_ofName?_iff, Option.isSome_iff_exists]
        exact declared.messages field listed name kind
      | group name => exact declared.groups field listed name kind
    · exact FieldKind.isSome_keyForm?_iff.mpr (declared.keys field listed key map)
    · exact message.perm_propertyNames.nodup_iff.mpr declared.properties

/-- A message type that a field of a well-declared message refers to is registered. -/
theorem WellDeclared.exists_target {registry : Registry} {message : Message} {field : Field}
    {next : String} (declared : message.WellDeclared registry) (listed : field ∈ message.fields)
    (target : field.target? = some next) :
    ∃ other, registry.messages[next]? = some other := by
  cases kind : field.kind with
  | message name =>
    cases known : WellKnown.ofName? name with
    | some type => simp [Field.target?, FieldKind.target?, kind, known] at target
    | none =>
      simp only [Field.target?, FieldKind.target?, kind, known, Option.some.injEq] at target
      rcases declared.messages field listed name kind with wellKnown | registered
      · rw [← WellKnown.isSome_ofName?_iff, known] at wellKnown
        contradiction
      · exact target ▸ registered
  | _ => simp [Field.target?, FieldKind.target?, kind] at target

end Message

theorem Registry.sound_iff_wellDeclared {registry : Registry} {name : String} :
    registry.Sound (QualifiedName.strip name) ↔ registry.WellDeclared name := by
  constructor
  · intro sound
    refine ⟨?_, fun next message path registered => ?_⟩
    · obtain ⟨message, registered, -⟩ := sound _ .refl
      exact ⟨message, registered⟩
    · obtain ⟨found, again, fine⟩ := sound next path
      obtain rfl := Option.some.inj (again.symm.trans registered)
      exact Message.wellFormed_iff.mp fine
  · intro declared next path
    have registered : ∃ message, registry.messages[next]? = some message := by
      rcases Relation.ReflTransGen.cases_tail path with rfl | ⟨middle, path, owner, held, listed⟩
      · exact declared.1
      · obtain ⟨field, member, target⟩ := Message.mem_targets_iff.mp listed
        exact (declared.2 middle owner path held).exists_target member target
    obtain ⟨message, found⟩ := registered
    exact ⟨message, found, Message.wellFormed_iff.mpr (declared.2 next message path found)⟩

/-- The message has a contract if the name is registered and the messages that it reaches are well
declared, and else there is an error. -/
theorem Compiler.contract_ok_iff (compiler : Compiler) (name : String) :
    ((∃ contract, compiler.contract name = .ok contract) ↔ compiler.registry.WellDeclared name) ∧
      ((∃ cause, compiler.contract name = .error cause) ↔
        ¬ compiler.registry.WellDeclared name) := by
  have succeeds : (∃ contract, compiler.contract name = .ok contract) ↔
      compiler.registry.WellDeclared name := by
    rw [Compiler.exists_contract_iff, Registry.sound_iff_wellDeclared]
  refine ⟨succeeds, ?_⟩
  rw [← succeeds]
  cases compiler.contract name with
  | ok contract => simp
  | error cause => simp

end ToolContract
