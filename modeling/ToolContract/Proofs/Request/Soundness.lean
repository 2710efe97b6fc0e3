import ToolContract.Proofs.Call.Extras
import ToolContract.Proofs.Request.Decode
import ToolContract.Proofs.Tool.Input

/-!
# Accepted arguments are calls

Arguments that the input of a tool accepts are prepared to a call: the extra properties are taken
without a refusal, and what is left is flattened to a request (`Catalog.prepare_of_admits`).
-/

set_option autoImplicit false

namespace ToolContract

open Json

namespace Catalog.Extended

variable {extras : List ExtraProperty} {request input : Contract} {definitions : Entries Json}
  {entries : Entries Json}

private theorem get?_extra (extended : Extended extras request input) {extra : ExtraProperty}
    (member : extra ∈ extras) :
    input.root.properties.get? extra.name =
      some (.described extra.description (.typed .string)) := by
  have absent := Entries.get?_eq_none_iff.mpr (extended.fresh extra member)
  have distinct : Entries.Distinct (extras.map ExtraProperty.entry) := by
    have names := extended.names
    simpa [Entries.Distinct, Entries.keys, ExtraProperty.entry, Function.comp_def] using names
  rw [extended.properties, Entries.get?_append, absent, Option.none_or]
  exact Entries.get?_of_mem distinct (List.mem_map.mpr ⟨extra, member, rfl⟩)

private theorem get?_request (extended : Extended extras request input) {name : String}
    (other : ∀ extra ∈ extras, extra.name ≠ name) :
    input.root.properties.get? name = request.root.properties.get? name := by
  have absent : Entries.get? name (extras.map ExtraProperty.entry) = none := by
    rw [Entries.get?_eq_none_iff]
    intro present
    obtain ⟨_, mapped, same⟩ := List.mem_map.mp present
    obtain ⟨extra, member, rfl⟩ := List.mem_map.mp mapped
    exact other extra member same
  rw [extended.properties, Entries.get?_append, absent, Option.or_none]

private theorem taken (extended : Extended extras request input)
    (fits : input.root.Fits (fun inner part => Conforms definitions inner.toJson part) entries) :
    ∀ extra ∈ extras, extra.TakenFrom entries := by
  intro extra member
  cases found : entries.get? extra.name with
  | none =>
    refine .inr ⟨.inl found, ?_⟩
    rw [Bool.eq_false_iff]
    intro required
    have listed : extra.name ∈ input.root.required := by
      rw [extended.required]
      exact List.mem_append_right _
        (List.mem_map.mpr ⟨extra, List.mem_filter.mpr ⟨member, required⟩, rfl⟩)
    exact Entries.get?_eq_none_iff.mp found (fits.required _ listed)
  | some value =>
    obtain ⟨inner, stored, conforms⟩ := fits.properties _ (Entries.mem_of_get? found)
    rw [extended.get?_extra member] at stored
    obtain rfl := Option.some.inj stored
    have held := Schema.accepts_typed_iff.mp (Schema.accepts_described_iff.mp conforms.accepted)
    cases value with
    | str text => exact .inl ⟨text, found⟩
    | _ => contradiction

private theorem fits_remaining (extended : Extended extras request input)
    (declared : ∀ name ∈ request.root.required, name ∈ request.root.properties.keys)
    (fits : input.root.Fits (fun inner part => Conforms definitions inner.toJson part) entries) :
    request.root.Fits (fun inner part => Conforms definitions inner.toJson part)
      (Context.remaining extras entries) := by
  refine ⟨fun name required => ?_, fun entry member => ?_⟩
  · have listed : name ∈ input.root.required := by
      rw [extended.required]
      exact List.mem_append_left _ required
    obtain ⟨entry, member, rfl⟩ := List.mem_map.mp (fits.required name listed)
    refine Entries.mem_keys_of_mem (Context.mem_remaining_iff.mpr ⟨member, ?_⟩)
    intro extra extraMember same
    exact extended.fresh extra extraMember (same ▸ declared _ required)
  · obtain ⟨listed, other⟩ := Context.mem_remaining_iff.mp member
    rw [← extended.get?_request other]
    exact fits.properties entry listed

end Catalog.Extended

private theorem Context.distinct_remaining {extras : List ExtraProperty} {entries : Entries Json}
    (distinct : (Json.obj entries).Distinct) : (Json.obj (remaining extras entries)).Distinct := by
  obtain ⟨keys, values⟩ := allObjects_obj_iff.mp distinct
  refine .obj ?_ fun entry member => values entry (mem_remaining_iff.mp member).1
  exact keys.sublist (List.Sublist.map _ List.filter_sublist)

/-- If every message has fields of different names, none of the form of a oneof property and no
member named as the discriminator, and the extra properties have different context keys, then
arguments that the input of a tool accepts, without keys of the form of a oneof property in their
open parts, are prepared to a call. Its context holds the supplied extra values, and its payload is
a request of the message. -/
theorem Catalog.prepare_of_admits (catalog : Catalog)
    (encodable : catalog.compiler.registry.Encodable)
    (contextKeys : (catalog.extras.map ExtraProperty.contextKey).Nodup) (name : String)
    (contract : Contract) (built : catalog.input name = .ok contract) (arguments : Json)
    (distinct : arguments.Distinct) (valid : contract.toJson.Admits arguments)
    (plain : OpenPlain contract.toJson.definitions contract.toJson arguments) :
    ∃ message entries call payload, catalog.compiler.registry.message? name = some message ∧
      arguments = .obj entries ∧
      PreparedCall.ofArguments catalog.extras arguments = .ok call ∧
      (∀ key text, call.context[key]? = some text ↔
        ∃ extra ∈ catalog.extras, extra.contextKey = key ∧
          Entries.get? extra.name entries = some (.str text)) ∧
      call.payload = .obj payload ∧ (Json.obj payload).Distinct ∧
      MessageValue catalog.compiler.registry catalog.compiler.options message payload := by
  obtain ⟨request, compiled, extended⟩ := Catalog.input_eq_ok built
  have describes := Compiler.contract_describes compiled
  have conforms := Contract.conforms_toJson_iff.mp ⟨valid, plain⟩
  rw [extended.definitions] at conforms
  obtain ⟨entries, rfl, fits⟩ := ObjectSchema.conforms_iff.mp conforms
  have present := Definitions.mem_keys_of_schema? describes.root
  obtain ⟨message, schema, registered, stored, described⟩ := describes.entries _ present
  obtain rfl := Option.some.inj (stored.symm.trans describes.root)
  have found : catalog.compiler.registry.message? name = some message := registered
  obtain ⟨named, held⟩ := Registry.message?_eq_some found
  obtain ⟨context, ran, supplied⟩ := Context.take_eq_ok extended.names contextKeys
    (fun _ _ => Std.ExtTreeMap.getElem?_empty) (extended.taken fits)
  obtain ⟨payload, flat, flatDistinct, messageValue⟩ :=
    (describes.decodes encodable _).message_succ describes encodable (Nat.lt_succ_self _) held
      (named ▸ present) described
      (extended.fits_remaining (fun _ => described.mem_keys_of_required) fits)
      (Context.distinct_remaining distinct)
  refine ⟨message, entries, ⟨.obj payload, context⟩, payload, found, rfl, ?_, fun key text => ?_,
    rfl, flatDistinct, messageValue⟩
  · simp only [PreparedCall.ofArguments, PreparedCall.root, bind, Except.bind, ran, flat, pure,
      Except.pure]
  · simp only [supplied, Context.Supplies, Std.ExtTreeMap.getElem?_empty, reduceCtorEq, or_false]

/-! ### A shape in a group in a shape -/

namespace Shapes

def catalog : Catalog where
  compiler := compiler
  extras := [{ name := "trace", description := "Trace of the caller.", contextKey := "x-trace" }]

/-- The schema of a circle or a group as a member of its group. -/
def form : Schema :=
  .union [
    .object [("object_type", .constant "circle"), ("radius", .typed .number)] ["object_type"],
    .object [("object_type", .constant "group"), ("shapes", .list (.reference "draw.Shape"))]
      ["object_type"]]

def schema : ObjectSchema where
  properties := [("formOneOfType", form), ("label", .typed .string)]
  required := ["label"]

def input : Contract where
  root := { schema with
    properties := schema.properties ++
      [("trace", .described "Trace of the caller." (.typed .string))] }
  definitions := [
    ("draw.Shape", .completed schema),
    ("draw.Circle", .completed { properties := [("radius", .typed .number)], required := [] }),
    ("draw.Group",
      .completed { properties := [("shapes", .list (.reference "draw.Shape"))], required := [] })]

def wrapper : Entries Json :=
  [("object_type", .str "group"), ("shapes", .arr [.obj [("label", .str "inner")]])]

/-- Arguments for a shape with a group of another shape. -/
def arguments : Entries Json :=
  [("trace", .str "t-1"), ("label", .str "outer"), ("formOneOfType", .obj wrapper)]

private theorem catalog_input : catalog.input "draw.Shape" = .ok input := by
  cbv

private theorem arguments_distinct : (Json.obj arguments).Distinct := by
  simp [arguments, wrapper, allObjects_obj_iff, allObjects_arr_iff, Entries.Distinct, AllObjects.str]

private theorem conforms_inner : Conforms input.definitions.documents
    (Schema.reference "draw.Shape").toJson (.obj [("label", .str "inner")]) := by
  obtain ⟨request, compiled, extended⟩ := Catalog.input_eq_ok catalog_input
  have describes := Compiler.contract_describes compiled
  have stored : request.definitions.schema? "draw.Shape" = some schema := by
    rw [← extended.definitions]
    rfl
  rw [extended.definitions, describes.conforms_reference_iff stored, ObjectSchema.conforms_iff]
  refine ⟨_, rfl, by decide, List.forall_mem_singleton.mpr ?_⟩
  exact ⟨_, rfl, Schema.conforms_typed_iff.mpr trivial⟩

private theorem conforms_wrapper :
    Conforms input.definitions.documents form.toJson (.obj wrapper) := by
  refine Schema.conforms_union_iff.mpr ⟨⟨1, by decide⟩, ?_, fun other accepted => ?_⟩
  · refine Schema.conforms_object_iff.mpr ⟨_, rfl, by decide, List.forall_mem_cons.mpr
      ⟨⟨_, rfl, Schema.conforms_constant_iff.mpr rfl⟩, List.forall_mem_singleton.mpr ?_⟩⟩
    exact ⟨_, rfl, Schema.conforms_list_iff.mpr
      ⟨_, rfl, List.forall_mem_singleton.mpr conforms_inner⟩⟩
  · rcases other with ⟨_ | _ | _, bound⟩
    · -- The tag is that of the other variant.
      obtain ⟨_, shape, -, inside⟩ := Schema.accepts_object_iff.mp accepted
      obtain rfl := Json.obj.inj shape
      obtain ⟨_, found, tag⟩ := inside _ List.mem_cons_self
      obtain rfl := Option.some.inj found
      simp [Schema.accepts_constant_iff] at tag
    · rfl
    · contradiction

private theorem conforms_arguments :
    Conforms input.toJson.definitions input.toJson (.obj arguments) := by
  refine Contract.conforms_toJson_iff.mpr (ObjectSchema.conforms_iff.mpr ⟨_, rfl, ?_, ?_⟩)
  · decide
  · refine List.forall_mem_cons.mpr ⟨⟨_, rfl, ?_⟩, List.forall_mem_cons.mpr
      ⟨⟨_, rfl, ?_⟩, List.forall_mem_singleton.mpr ⟨_, rfl, conforms_wrapper⟩⟩⟩
    · exact Schema.conforms_described_iff.mpr (Schema.conforms_typed_iff.mpr trivial)
    · exact Schema.conforms_typed_iff.mpr trivial

end Shapes

open Shapes in
theorem prepare_of_admits_nested :
    catalog.input "draw.Shape" = .ok input ∧ input.toJson.Admits (.obj arguments) ∧
      ∃ message entries call payload, compiler.registry.message? "draw.Shape" = some message ∧
        Json.obj arguments = .obj entries ∧
        PreparedCall.ofArguments catalog.extras (.obj arguments) = .ok call ∧
        (∀ key text, call.context[key]? = some text ↔
          ∃ extra ∈ catalog.extras, extra.contextKey = key ∧
            Entries.get? extra.name entries = some (.str text)) ∧
        call.payload = .obj payload ∧ (Json.obj payload).Distinct ∧
        MessageValue compiler.registry compiler.options message payload :=
  ⟨catalog_input, conforms_arguments.accepted,
    Catalog.prepare_of_admits catalog encodable (by decide) "draw.Shape" input catalog_input
      (.obj arguments) arguments_distinct conforms_arguments.accepted conforms_arguments.plain⟩

end ToolContract
