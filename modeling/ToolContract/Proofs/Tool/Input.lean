import ToolContract.Proofs.Contract.Describes
import ToolContract.Tool.Catalog

/-!
# The input of a tool

The input of a tool is the contract of its request with one property for each extra property behind
those of the request, all of different names; the definitions are those of the contract.
-/

set_option autoImplicit false

namespace ToolContract

def ExtraProperty.entry (extra : ExtraProperty) : String × Schema :=
  (extra.name, .described extra.description (.typed .string))

namespace Catalog

private theorem addExtras_eq_ok {message : String} {properties result : Entries Schema}
    {extras : List ExtraProperty} (added : addExtras message properties extras = .ok result) :
    result = properties ++ extras.map ExtraProperty.entry ∧
      ∀ extra ∈ extras, extra.name ∉ properties.keys := by
  induction extras generalizing properties with
  | nil =>
    obtain rfl := Except.ok.inj added
    simp
  | cons extra rest ih =>
    simp only [addExtras] at added
    split at added
    · contradiction
    · rename_i free
      rw [Entries.contains_iff] at free
      obtain ⟨rfl, restFree⟩ := ih added
      refine ⟨by simp [ExtraProperty.entry], fun other member => ?_⟩
      rcases List.mem_cons.mp member with rfl | later
      · exact free
      · exact fun present => restFree other later (by simp [present])

private theorem addExtras_eq_error {message : String} {properties : Entries Schema}
    {extras : List ExtraProperty} {cause : SchemaError}
    (failed : addExtras message properties extras = .error cause) :
    ∃ extra ∈ extras, cause = .shadowedProperty extra.name message := by
  induction extras generalizing properties with
  | nil => cases failed
  | cons extra rest ih =>
    simp only [addExtras] at failed
    split at failed
    · obtain rfl := Except.error.inj failed
      exact ⟨extra, List.mem_cons_self, rfl⟩
    · obtain ⟨other, listed, shadowed⟩ := ih failed
      exact ⟨other, List.mem_cons_of_mem _ listed, shadowed⟩

/-- What an input adds to the contract of its request. -/
structure Extended (extras : List ExtraProperty) (request input : Contract) : Prop where
  definitions : input.definitions = request.definitions
  properties : input.root.properties = request.root.properties ++ extras.map ExtraProperty.entry
  required : input.root.required =
    request.root.required ++ (extras.filter ExtraProperty.required).map ExtraProperty.name
  names : (extras.map ExtraProperty.name).Nodup
  fresh : ∀ extra ∈ extras, extra.name ∉ request.root.properties.keys

theorem input_eq_ok {catalog : Catalog} {message : String} {input : Contract}
    (built : catalog.input message = .ok input) :
    ∃ request, catalog.compiler.contract message = .ok request ∧
      Extended catalog.extras request input := by
  unfold Catalog.input at built
  cases compiled : catalog.compiler.contract message with
  | error cause => simp [compiled, bind, Except.bind] at built
  | ok request =>
    simp only [compiled, bind, Except.bind] at built
    cases repeated : firstRepeated? (catalog.extras.map ExtraProperty.name) with
    | some name => simp [repeated] at built
    | none =>
      simp only [repeated] at built
      cases added : addExtras message request.root.properties catalog.extras with
      | error cause => simp [added] at built
      | ok properties =>
        simp only [added, pure, Except.pure] at built
        obtain rfl := Except.ok.inj built
        obtain ⟨rfl, fresh⟩ := addExtras_eq_ok added
        exact ⟨request, rfl, rfl, rfl, rfl, (firstRepeated?_eq_none_iff _).mp repeated, fresh⟩

/-- An input fails as the contract of its message does, because two extra properties have one name,
or because an extra property has the name of a property. -/
theorem input_eq_error {catalog : Catalog} {message : String} {cause : SchemaError}
    (failed : catalog.input message = .error cause) :
    catalog.compiler.contract message = .error cause ∨
      (∃ name, cause = .repeatedExtra name ∧
        ¬ (catalog.extras.map ExtraProperty.name).Nodup) ∨
      ∃ extra ∈ catalog.extras, cause = .shadowedProperty extra.name message := by
  unfold Catalog.input at failed
  cases compiled : catalog.compiler.contract message with
  | error first =>
    simp only [compiled, bind, Except.bind] at failed
    obtain rfl := Except.error.inj failed
    exact .inl rfl
  | ok request =>
    simp only [compiled, bind, Except.bind] at failed
    cases repeated : firstRepeated? (catalog.extras.map ExtraProperty.name) with
    | some name =>
      simp only [repeated] at failed
      obtain rfl := Except.error.inj failed
      refine .inr (.inl ⟨name, rfl, fun distinct => ?_⟩)
      rw [(firstRepeated?_eq_none_iff _).mpr distinct] at repeated
      cases repeated
    | none =>
      simp only [repeated] at failed
      cases added : addExtras message request.root.properties catalog.extras with
      | error first =>
        simp only [added] at failed
        obtain rfl := Except.error.inj failed
        exact .inr (.inr (addExtras_eq_error added))
      | ok properties =>
        simp only [added, pure, Except.pure] at failed
        cases failed

end Catalog

end ToolContract
