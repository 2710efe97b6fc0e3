import ToolContract.Proofs.Graph

/-!
# Messages that can be compiled

A message is well-formed if every field refers to a known type, is no group and keys its maps by a
kind that can be a property name, and if no two of its properties have one name. It is `Sound` if
every message type that it reaches is registered and well-formed. `Registry.sound_iff` unfolds
soundness by one message, which is how a compilation meets it.
-/

set_option autoImplicit false

namespace ToolContract

/-- The kind is no group, and refers to a known type if it refers to any. -/
def FieldKind.WellFormed (registry : Registry) : FieldKind → Prop
  | .scalar _ => True
  | .enumeration name => (registry.enumeration? name).isSome = true
  | .message name =>
    (WellKnown.ofName? name).isSome = true ∨ (registry.message? name).isSome = true
  | .group _ => False

/-- The kind of the field is well-formed, and so is that of its keys if it is a map. -/
structure Field.WellFormed (registry : Registry) (field : Field) : Prop where
  kind : field.kind.WellFormed registry
  key : ∀ key, field.cardinality = .map key → key.keyForm?.isSome = true

/-- The fields are well-formed, and the properties have different names. -/
structure Message.WellFormed (registry : Registry) (message : Message) : Prop where
  fields : ∀ field ∈ message.fields, field.WellFormed registry
  properties : (message.slots.map Slot.property).Nodup

/-- Every message type that the name reaches is registered and well-formed. -/
def Registry.Sound (registry : Registry) (name : String) : Prop :=
  ∀ next, registry.Reaches name next →
    ∃ message, registry.messages[next]? = some message ∧ message.WellFormed registry

/-- The kind is well-formed, and the message type that it refers to is sound. -/
structure FieldKind.Compilable (registry : Registry) (kind : FieldKind) : Prop where
  wellFormed : kind.WellFormed registry
  target : ∀ next, kind.target? = some next → registry.Sound next

/-- The field is well-formed, and the message type that it refers to is sound. -/
structure Field.Compilable (registry : Registry) (field : Field) : Prop where
  kind : field.kind.Compilable registry
  key : ∀ key, field.cardinality = .map key → key.keyForm?.isSome = true

/-- The message is well-formed, and the message types that it refers to are sound. -/
structure Message.Compilable (registry : Registry) (message : Message) : Prop where
  fields : ∀ field ∈ message.fields, field.Compilable registry
  properties : (message.slots.map Slot.property).Nodup

namespace Registry

variable {registry : Registry} {name next : String}

theorem Sound.of_reaches (sound : registry.Sound name) (path : registry.Reaches name next) :
    registry.Sound next :=
  fun other further => sound other (path.trans further)

theorem sound_iff :
    registry.Sound name ↔
      ∃ message, registry.messages[name]? = some message ∧ message.Compilable registry := by
  constructor
  · intro sound
    obtain ⟨message, found, wellFormed⟩ := sound name .refl
    refine ⟨message, found, fun field declared => ?_, wellFormed.properties⟩
    have fine := wellFormed.fields field declared
    refine ⟨⟨fine.kind, fun next target => ?_⟩, fine.key⟩
    have listed := Message.mem_targets_iff.mpr ⟨field, declared, target⟩
    exact sound.of_reaches (.single ⟨message, found, listed⟩)
  · intro given next path
    obtain ⟨message, found, compilable⟩ := given
    rcases Relation.ReflTransGen.cases_head path with rfl | ⟨middle, ⟨held, heldFound, listed⟩, path⟩
    · exact ⟨message, found, fun field declared =>
        ⟨(compilable.fields field declared).kind.wellFormed,
          (compilable.fields field declared).key⟩, compilable.properties⟩
    · obtain rfl := Option.some.inj (found.symm.trans heldFound)
      obtain ⟨field, declared, target⟩ := Message.mem_targets_iff.mp listed
      exact (compilable.fields field declared).kind.target middle target next path

end Registry

end ToolContract
