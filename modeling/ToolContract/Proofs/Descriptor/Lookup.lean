import ToolContract.Descriptor.Registry

/-!
# What a registry holds

A registry is known by what it holds under each key, a sort of descriptor with a name. Of the
descriptors that are registered one after the other the last one of each key stays, and other keys
are left alone (`Registry.held?_foldl_add`).
-/

set_option autoImplicit false

namespace ToolContract

inductive DescriptorSort where
  | message
  | enumeration
  | service
  deriving DecidableEq, Repr

abbrev DescriptorKey := DescriptorSort × String

namespace Descriptor

def sort : Descriptor → DescriptorSort
  | .message _ => .message
  | .enumeration _ => .enumeration
  | .service _ => .service

def fullName : Descriptor → String
  | .message held => held.fullName
  | .enumeration held => held.fullName
  | .service held => held.fullName

/-- What the descriptor is registered under. -/
def key (descriptor : Descriptor) : DescriptorKey :=
  (descriptor.sort, QualifiedName.strip descriptor.fullName)

/-- The descriptor as it is kept, with the name that it is registered under. -/
def stripped : Descriptor → Descriptor
  | .message held => .message { held with fullName := QualifiedName.strip held.fullName }
  | .enumeration held => .enumeration { held with fullName := QualifiedName.strip held.fullName }
  | .service held => .service { held with fullName := QualifiedName.strip held.fullName }

end Descriptor

namespace Registry

def held? (registry : Registry) : DescriptorKey → Option Descriptor
  | (.message, name) => registry.messages[name]?.map .message
  | (.enumeration, name) => registry.enumerations[name]?.map .enumeration
  | (.service, name) => registry.services[name]?.map .service

variable {left right registry : Registry}

@[simp] theorem held?_empty (key : DescriptorKey) : empty.held? key = none := by
  obtain ⟨sort, name⟩ := key
  cases sort <;> simp [held?, empty]

private theorem held?_add (registry : Registry) (descriptor : Descriptor) (key : DescriptorKey) :
    (registry.add descriptor).held? key =
      if descriptor.key = key then some descriptor.stripped else registry.held? key := by
  obtain ⟨sort, name⟩ := key
  cases descriptor <;> cases sort <;>
    simp only [add, addMessage, addEnumeration, addService, held?, Descriptor.key, Descriptor.sort,
      Descriptor.fullName, Descriptor.stripped, Std.ExtTreeMap.getElem?_insert,
      Std.compare_eq_iff_eq, Prod.mk.injEq, true_and, reduceCtorEq, false_and, if_false]
  all_goals split <;> rfl

/-- Of the descriptors that are registered under one key the last one stays. -/
theorem held?_foldl_add (registry : Registry) (descriptors : List Descriptor)
    (key : DescriptorKey) :
    (descriptors.foldl add registry).held? key =
      ((descriptors.reverse.find? fun descriptor => descriptor.key = key).map
        Descriptor.stripped).or (registry.held? key) := by
  induction descriptors generalizing registry with
  | nil => rfl
  | cons descriptor rest ih =>
    rw [List.foldl_cons, ih, held?_add, List.reverse_cons, List.find?_append]
    cases rest.reverse.find? fun descriptor => descriptor.key = key with
    | some later => rfl
    | none =>
      by_cases same : descriptor.key = key <;> simp [same]

/-- What is registered covers what was held before, key by key. -/
theorem held?_foldl_add_or (registry : Registry) (descriptors : List Descriptor)
    (key : DescriptorKey) :
    (descriptors.foldl add registry).held? key =
      ((descriptors.foldl add empty).held? key).or (registry.held? key) := by
  rw [held?_foldl_add, held?_foldl_add, held?_empty, Option.or_none]

theorem held?_foldl_add_of_not_mem {descriptors : List Descriptor} {key : DescriptorKey}
    (absent : key ∉ descriptors.map Descriptor.key) :
    (descriptors.foldl add registry).held? key = registry.held? key := by
  have none : (descriptors.reverse.find? fun descriptor => descriptor.key = key) = none := by
    rw [List.find?_eq_none]
    intro descriptor listed same
    rw [decide_eq_true_iff] at same
    exact absent (same ▸ List.mem_map_of_mem (List.mem_reverse.mp listed))
  rw [held?_foldl_add, none]
  rfl

/-- A descriptor that is registered under a key of its own stays. -/
theorem held?_foldl_add_of_mem {descriptors : List Descriptor} {descriptor : Descriptor}
    (distinct : (descriptors.map Descriptor.key).Nodup) (listed : descriptor ∈ descriptors) :
    (descriptors.foldl add registry).held? descriptor.key = some descriptor.stripped := by
  obtain ⟨before, after, rfl⟩ := List.append_of_mem listed
  have later : descriptor.key ∉ after.map Descriptor.key := by
    rw [List.map_append, List.map_cons] at distinct
    exact (List.nodup_cons.mp (List.nodup_append.mp distinct).2.1).1
  rw [List.foldl_append, List.foldl_cons, held?_foldl_add_of_not_mem later, held?_add, if_pos rfl]

/-! ## Registries that hold the same -/

theorem getElem?_messages_eq {name : String}
    (same : left.held? (.message, name) = right.held? (.message, name)) :
    left.messages[name]? = right.messages[name]? :=
  Option.map_injective (fun _ _ => Descriptor.message.inj) same

theorem getElem?_enumerations_eq {name : String}
    (same : left.held? (.enumeration, name) = right.held? (.enumeration, name)) :
    left.enumerations[name]? = right.enumerations[name]? :=
  Option.map_injective (fun _ _ => Descriptor.enumeration.inj) same

theorem getElem?_services_eq {name : String}
    (same : left.held? (.service, name) = right.held? (.service, name)) :
    left.services[name]? = right.services[name]? :=
  Option.map_injective (fun _ _ => Descriptor.service.inj) same

/-- Registries that hold the same under each key are equal. -/
theorem eq_of_held? (same : ∀ key, left.held? key = right.held? key) : left = right := by
  have messages : left.messages = right.messages :=
    Std.ExtTreeMap.ext_getElem? fun name => getElem?_messages_eq (same (.message, name))
  have enumerations : left.enumerations = right.enumerations :=
    Std.ExtTreeMap.ext_getElem? fun name => getElem?_enumerations_eq (same (.enumeration, name))
  have services : left.services = right.services :=
    Std.ExtTreeMap.ext_getElem? fun name => getElem?_services_eq (same (.service, name))
  cases left
  cases right
  cases messages
  cases enumerations
  cases services
  rfl

end Registry

end ToolContract
