import Mathlib.Data.List.Pairwise
import ToolContract.Proofs.Contract.Dots
import ToolContract.Proofs.Descriptor.Lookup
import ToolContract.FileDescriptor.Resolve
import ToolContract.Tool.Catalog

/-!
# Registering one thing after another

Descriptors are registered one by one or with a file, of which those stay that come before a type
that cannot be resolved. Whatever is registered in whatever order, a lookup finds the last descriptor
of its sort and stripped name and is not changed by any other, so calls that register nothing in
common may change places (`Registry.ofCalls_lookups`).
-/

set_option autoImplicit false

namespace ToolContract

open QualifiedName

/-! ## Calls -/

/-- A call that registers a descriptor as it is, under a raw name, or the types of a file. -/
inductive Registration where
  | single (descriptor : Descriptor)
  | file (file : FileDeclaration) (requiredPaths : List SourcePath)

/-- The types before the first that cannot be resolved. -/
def resolvedBefore : List (Except DescriptorError Descriptor) → List Descriptor
  | .ok descriptor :: rest => descriptor :: resolvedBefore rest
  | _ => []

namespace Registration

/-- What the call registers, in order. -/
def descriptors : Registration → List Descriptor
  | .single descriptor => [descriptor]
  | .file declared requiredPaths => resolvedBefore (declared.resolve requiredPaths)

/-- The calls register nothing of one sort under one stripped name. -/
def Apart (first second : Registration) : Prop :=
  ∀ left ∈ first.descriptors, ∀ right ∈ second.descriptors, left.key ≠ right.key

instance (first second : Registration) : Decidable (first.Apart second) :=
  inferInstanceAs (Decidable (∀ _ ∈ _, ∀ _ ∈ _, _))

end Registration

namespace Registry

/-- The registry after a call, whether the call succeeds or not. -/
def perform (registry : Registry) : Registration → Registry
  | .single descriptor => registry.add descriptor
  | .file file requiredPaths => (registry.addFile file requiredPaths).2

def ofCalls (calls : List Registration) : Registry :=
  calls.foldl perform empty

/-- What a lookup among the descriptors of the sort finds. -/
def lookup? (registry : Registry) : DescriptorSort → String → Option Descriptor
  | .message, name => (registry.message? name).map .message
  | .enumeration, name => (registry.enumeration? name).map .enumeration
  | .service, name => (registry.service? name).map .service

end Registry

/-- The last of the descriptors that is registered under the key. -/
def lastUnder? (key : DescriptorKey) (descriptors : List Descriptor) : Option Descriptor :=
  (descriptors.filter fun descriptor => descriptor.key = key).getLast?

namespace Registry

variable {registry : Registry} {call : Registration} {calls : List Registration}

/-! ## What a call leaves -/

private theorem snd_addResolved (registry : Registry)
    (results : List (Except DescriptorError Descriptor)) :
    (registry.addResolved results).2 = (resolvedBefore results).foldl add registry := by
  induction results generalizing registry with
  | nil => rfl
  | cons result rest ih =>
    cases result with
    | ok descriptor => exact ih (registry.add descriptor)
    | error cause => rfl

private theorem perform_eq (registry : Registry) (call : Registration) :
    registry.perform call = call.descriptors.foldl add registry := by
  cases call with
  | single descriptor => rfl
  | file file requiredPaths => exact snd_addResolved registry (file.resolve requiredPaths)

private theorem ofCalls_eq (calls : List Registration) :
    ofCalls calls = (calls.flatMap Registration.descriptors).foldl add empty := by
  rw [List.foldl_flatMap, ofCalls]
  congr 1
  funext registry call
  exact perform_eq registry call

/-! ## Lookups -/

private theorem lookup?_eq_held? (registry : Registry) (sort : DescriptorSort) (name : String) :
    registry.lookup? sort name = registry.held? (sort, strip name) := by
  cases sort <;> rfl

private theorem held?_foldl_add_eq_lastUnder? (registry : Registry) (descriptors : List Descriptor)
    (key : DescriptorKey) :
    (descriptors.foldl add registry).held? key =
      ((lastUnder? key descriptors).map Descriptor.stripped).or (registry.held? key) := by
  rw [held?_foldl_add, lastUnder?, List.getLast?_eq_head?_reverse, ← List.filter_reverse,
    List.head?_filter]

private theorem held?_ofCalls (calls : List Registration) (key : DescriptorKey) :
    (ofCalls calls).held? key =
      (lastUnder? key (calls.flatMap Registration.descriptors)).map Descriptor.stripped := by
  rw [ofCalls_eq, held?_foldl_add_eq_lastUnder?, held?_empty, Option.or_none]

private theorem held?_perform (registry : Registry) (call : Registration) (key : DescriptorKey) :
    (registry.perform call).held? key =
      ((lastUnder? key call.descriptors).map Descriptor.stripped).or (registry.held? key) := by
  rw [perform_eq, held?_foldl_add_eq_lastUnder?]

private theorem lastUnder?_eq_none_iff {key : DescriptorKey} {descriptors : List Descriptor} :
    lastUnder? key descriptors = none ↔ ∀ descriptor ∈ descriptors, descriptor.key ≠ key := by
  rw [lastUnder?, List.getLast?_eq_none_iff, List.filter_eq_nil_iff]
  simp only [decide_eq_true_eq, ne_eq]

private theorem lookup?_perform_of_absent {sort : DescriptorSort} {name : String}
    (absent : ∀ descriptor ∈ call.descriptors, descriptor.key ≠ (sort, strip name)) :
    (registry.perform call).lookup? sort name = registry.lookup? sort name := by
  rw [lookup?_eq_held?, lookup?_eq_held?, held?_perform, lastUnder?_eq_none_iff.mpr absent]
  rfl

private theorem fullName_of_held?_ofCalls {sort : DescriptorSort} {name : String}
    {held : Descriptor}
    (found : (ofCalls calls).held? (sort, name) = some held) :
    held.fullName = name ∧ Plain name := by
  rw [held?_ofCalls] at found
  obtain ⟨descriptor, last, rfl⟩ := Option.map_eq_some_iff.mp found
  have listed := List.mem_filter.mp (List.mem_of_getLast? last)
  obtain ⟨-, rfl⟩ := Prod.mk.inj (of_decide_eq_true listed.2 : descriptor.key = (sort, name))
  refine ⟨?_, plain_strip _⟩
  cases descriptor <;> rfl

/-! ## The order of calls -/

/-- Calls that register nothing in common may change places. -/
theorem perform_comm {first second : Registration} (apart : first.Apart second)
    (registry : Registry) :
    (registry.perform first).perform second = (registry.perform second).perform first := by
  refine eq_of_held? fun key => ?_
  simp only [held?_perform]
  by_cases absent : ∀ left ∈ first.descriptors, left.key ≠ key
  · rw [lastUnder?_eq_none_iff.mpr absent]
    rfl
  · obtain ⟨left, member, rfl⟩ : ∃ left ∈ first.descriptors, left.key = key := by
      simpa only [ne_eq, not_forall, not_not, exists_prop] using absent
    have none : ∀ right ∈ second.descriptors, right.key ≠ left.key :=
      fun right listed same => apart left member right listed same.symm
    rw [lastUnder?_eq_none_iff.mpr none]
    rfl

/-- The registry is the same after the calls in either order. -/
def Commute (first second : Registration) : Prop :=
  ∀ registry, perform (perform registry first) second = perform (perform registry second) first

instance : Std.Symm Commute :=
  ⟨fun _ _ commute registry => (commute registry).symm⟩

private theorem ofCalls_perm {others : List Registration} (same : calls.Perm others)
    (apart : calls.Pairwise Registration.Apart) : ofCalls calls = ofCalls others := by
  have commute : calls.Pairwise Commute := apart.imp perform_comm
  have all := commute.forall_of_forall fun _ _ _ => rfl
  exact same.foldl_eq' (fun _ first _ second registry => all first second registry) empty

end Registry

/-- Let calls register descriptors, of raw names too, and the types of files, whether all of them are
registered or only those before a failure. What is held under a key has that name, without a leading
dot. A lookup, with however many dots, finds the last descriptor of its sort and stripped name that
was registered, and a further call that registers none leaves it as it is. Calls of which no two
register one sort under one stripped name may come in any order: the registry is the same, and so are
its tools and contracts. -/
theorem Registry.ofCalls_lookups (calls : List Registration) :
    (∀ sort name held, (ofCalls calls).held? (sort, name) = some held →
      held.fullName = name ∧ Plain name) ∧
    (∀ sort name dots, (ofCalls calls).lookup? sort (dotted dots name) =
      (lastUnder? (sort, strip name) (calls.flatMap Registration.descriptors)).map
        Descriptor.stripped) ∧
    (∀ sort name call,
      (∀ descriptor ∈ call.descriptors, descriptor.key ≠ (sort, strip name)) →
      (ofCalls (calls ++ [call])).lookup? sort name = (ofCalls calls).lookup? sort name) ∧
    ∀ others, calls.Perm others → calls.Pairwise Registration.Apart →
      ofCalls calls = ofCalls others ∧
      ∀ options extras nameLimit,
        Catalog.allTools ⟨⟨ofCalls calls, options⟩, extras, nameLimit⟩ =
          Catalog.allTools ⟨⟨ofCalls others, options⟩, extras, nameLimit⟩ ∧
        ∀ name, Compiler.contract ⟨ofCalls calls, options⟩ name =
          Compiler.contract ⟨ofCalls others, options⟩ name := by
  refine ⟨fun sort name held => fullName_of_held?_ofCalls, fun sort name dots => ?_,
    fun sort name call absent => ?_, fun others same apart => ?_⟩
  · rw [lookup?_eq_held?, strip_dotted, held?_ofCalls]
  · rw [ofCalls, List.foldl_append]
    exact lookup?_perform_of_absent absent
  · have equal := ofCalls_perm same apart
    exact ⟨equal, fun _ _ _ => ⟨by rw [equal], fun _ => by rw [equal]⟩⟩

namespace Shop

def item : Registration :=
  .single (.message { fullName := "..shop.Item", comment := some "As it was." })

def service : Registration :=
  .single (.service { fullName := ".shop.Item" })

/-- A file that fails at its second message. -/
def file : Registration :=
  .file {
    package := "shop"
    messages := [{ name := "Item" },
      { name := "Cart", fields := [{ name := "first", number := 1, oneofIndex := some 0 }] }] } []

end Shop

open Shop in
/-- The item of the file replaces the one before it although the file fails, the service of its name
stays, and the two descriptors of one name may come in either order. -/
theorem Registry.ofCalls_lookups_shop :
    (ofCalls [item, service, file]).lookup? .message "...shop.Item" =
      some (.message { fullName := "shop.Item" }) ∧
    (ofCalls [item, service, file]).lookup? .service "shop.Item" =
      (ofCalls [item, service]).lookup? .service "shop.Item" ∧
    (ofCalls [item, service, file]).lookup? .message "shop.Cart" = none ∧
    ofCalls [item, service] = ofCalls [service, item] := by
  obtain ⟨-, found, -, -⟩ := Registry.ofCalls_lookups [item, service, file]
  obtain ⟨-, -, unaffected, order⟩ := Registry.ofCalls_lookups [item, service]
  refine ⟨?_, unaffected .service "shop.Item" file (by decide +kernel), ?_,
    (order _ (.swap _ _ _) (by decide +kernel)).1⟩
  · exact (found .message "shop.Item" 3).trans (by decide +kernel)
  · exact (found .message "shop.Cart" 0).trans (by decide +kernel)

end ToolContract
