import ToolContract.Proofs.Request.Encode

/-!
# Every request can be sent

What the input of a message describes is all that its server understands: every request of the
message is what some accepted arguments are flattened to (`Compiler.exists_admitted`).
-/

set_option autoImplicit false

namespace ToolContract

open Json

/-- If every message has fields of different names, none of the form of a oneof property and no
member named as the discriminator, then every request of a message with a contract is what some
arguments that the contract accepts are flattened to, in the order of its entries. -/
theorem Compiler.exists_admitted (compiler : Compiler) (encodable : compiler.registry.Encodable)
    (name : String) (contract : Contract) (compiled : compiler.contract name = .ok contract)
    (message : Message) (registered : compiler.registry.message? name = some message)
    (entries : Entries Json)
    (request : MessageValue compiler.registry compiler.options message entries)
    (distinct : (Json.obj entries).Distinct) :
    ∃ payload, payload.Distinct ∧ contract.toJson.Admits payload ∧
      OpenPlain contract.toJson.definitions contract.toJson payload ∧
      payload.flatten = .obj entries := by
  have describes := Compiler.contract_describes compiled
  have present := Definitions.mem_keys_of_schema? describes.root
  obtain ⟨schema, stored, described⟩ := describes.exists_schema present registered
  obtain rfl := Option.some.inj (stored.symm.trans describes.root)
  obtain ⟨named, held⟩ := Registry.message?_eq_some registered
  obtain ⟨encoded, fits, encodedDistinct, flat⟩ :=
    (describes.encodes encodable _).message_succ describes encodable (Nat.lt_succ_self _) held
      (named ▸ present) described request distinct
  obtain ⟨admitted, plain⟩ := Contract.conforms_toJson_iff.mpr
    (ObjectSchema.conforms_iff.mpr ⟨encoded, rfl, fits⟩)
  exact ⟨.obj encoded, encodedDistinct, admitted, plain, flat⟩

/-! ### A shape in a group in a shape -/

namespace Shapes

/-- The entries of a shape with a group of another shape. -/
def nested : Entries Json :=
  [("label", .str "outer"),
    ("group", .obj [("shapes", .arr [.obj [("label", .str "inner")]])])]

private theorem messageValue_inner :
    MessageValue compiler.registry {} shape [("label", .str "inner")] := by
  have label : FieldValue compiler.registry {}
      { name := "label", kind := .scalar .string, markedRequired := true } (.str "inner") :=
    .singular rfl (.scalar trivial)
  exact .entries (by decide +kernel) (by simpa [shape] using label) (by decide +kernel)
    (by decide +kernel)

private theorem messageValue_group : MessageValue compiler.registry {} group
    [("shapes", .arr [.obj [("label", .str "inner")]])] := by
  have registered : compiler.registry.message? "draw.Shape" = some shape := by decide +kernel
  have item : KindValue compiler.registry {} (.message "draw.Shape")
      (.obj [("label", .str "inner")]) := .message (by decide +kernel) registered messageValue_inner
  have items : FieldValue compiler.registry {}
      { name := "shapes", kind := .message "draw.Shape", cardinality := .repeated }
      (.arr [.obj [("label", .str "inner")]]) := .repeated rfl (by simpa using item)
  exact .entries (by decide +kernel) (by simpa [group] using items) (by decide +kernel)
    (by decide +kernel)

private theorem messageValue_nested : MessageValue compiler.registry {} shape nested := by
  have registered : compiler.registry.message? ".draw.Group" = some group := by decide +kernel
  have label : FieldValue compiler.registry {}
      { name := "label", kind := .scalar .string, markedRequired := true } (.str "outer") :=
    .singular rfl (.scalar trivial)
  have member : FieldValue compiler.registry {}
      { name := "group", kind := .message ".draw.Group", oneof := some "form" }
      (.obj [("shapes", .arr [.obj [("label", .str "inner")]])]) :=
    .singular rfl (.message (by decide +kernel) registered messageValue_group)
  exact .entries (by decide +kernel) (by simpa [shape, nested] using ⟨label, member⟩)
    (by decide +kernel) (by decide +kernel)

private theorem nested_distinct : (Json.obj nested).Distinct := by
  simp [nested, allObjects_obj_iff, allObjects_arr_iff, Entries.Distinct, AllObjects.str]

end Shapes

open Shapes in
theorem Compiler.exists_admitted_nested :
    ∃ contract payload, compiler.contract "draw.Shape" = .ok contract ∧ payload.Distinct ∧
      contract.toJson.Admits payload ∧
      OpenPlain contract.toJson.definitions contract.toJson payload ∧
      payload.flatten = .obj nested := by
  have registered : compiler.registry.message? "draw.Shape" = some shape := by decide +kernel
  obtain ⟨contract, compiled⟩ : ∃ contract, compiler.contract "draw.Shape" = .ok contract :=
    Compiler.exists_contract_of_isOk (by decide +kernel)
  obtain ⟨payload, sent⟩ := Compiler.exists_admitted compiler encodable "draw.Shape" contract
    compiled shape registered nested messageValue_nested nested_distinct
  exact ⟨contract, payload, compiled, sent⟩

end ToolContract
