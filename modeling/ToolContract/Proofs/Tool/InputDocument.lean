import Mathlib.Data.List.Nodup
import ToolContract.Proofs.Contract.Document
import ToolContract.Proofs.Contract.Loosening
import ToolContract.Proofs.Tool.Input
import ToolContract.Proofs.Validation.Forms

/-!
# The document of an input

A tool has an input exactly if its request has a contract and its extra properties have different
names, none of which is a property of the request. The document of the input is then that of the
contract with the extra properties behind the properties at its root, and the names of the required
ones behind those that are required there; all else in it stays, the definition of the request among
the rest (`Catalog.input_document`).
-/

set_option autoImplicit false

namespace ToolContract

/-! ## The properties of a document -/

/-- The document of an object with these properties, of which the required ones are present;
`others` are its members that say nothing of them. -/
def Json.objectDocument (properties : Entries Json) (required : List String)
    (others : Entries Json) : Json :=
  .obj (("type", .str "object") :: ("properties", .obj properties) ::
    ("required", .arr (required.map .str)) :: others)

namespace ExtraProperty

/-- The property that an extra property is in a document. -/
def document (extra : ExtraProperty) : String × Json :=
  (extra.name, .obj [("type", .str "string"), ("description", .str extra.description)])

/-- The extra properties, if there are any, have different names and none of the given ones. -/
def Fit (extras : List ExtraProperty) (names : List String) : Prop :=
  extras ≠ [] → (extras.map name).Nodup ∧ ∀ extra ∈ extras, extra.name ∉ names

private theorem fit_iff {extras : List ExtraProperty} {names : List String} :
    Fit extras names ↔ (extras.map name).Nodup ∧ ∀ extra ∈ extras, extra.name ∉ names := by
  refine ⟨fun fit => ?_, fun fit _ => fit⟩
  by_cases none : extras = []
  · subst none
    exact ⟨List.nodup_nil, fun _ listed => absurd listed List.not_mem_nil⟩
  · exact fit none

private theorem propertiesToJson_entries (extras : List ExtraProperty) :
    Schema.propertiesToJson (extras.map entry) = extras.map document := by
  rw [Schema.propertiesToJson_eq_map, List.map_map]
  rfl

private theorem keys_documents (extras : List ExtraProperty) :
    Entries.keys (extras.map document) = extras.map name := by
  rw [Entries.keys, List.map_map]
  rfl

end ExtraProperty

namespace Contract

/-- The members of the document of a contract that say nothing of the properties at its root. -/
def otherMembers (contract : Contract) : Entries Json :=
  ("additionalProperties", .bool false) ::
    (contract.root.description.map fun text => ("description", Json.str text)).toList ++
    [("$defs", contract.definitions.toJson)]

private theorem toJson_eq_objectDocument (contract : Contract) :
    contract.toJson = .objectDocument (Schema.propertiesToJson contract.root.properties)
      contract.root.required contract.otherMembers := by
  rw [toJson, ObjectSchema.toSchema, Schema.keywords_describe?_object, List.append_assoc]
  rfl

private theorem nodup_keys_otherMembers (contract : Contract) :
    ("type" :: "properties" :: "required" :: contract.otherMembers.keys).Nodup := by
  rw [otherMembers]
  cases contract.root.description <;> simp

/-- The contract with the extra properties at its root. -/
def withExtras (contract : Contract) (extras : List ExtraProperty) : Contract :=
  { contract with
    root := { contract.root with
      properties := contract.root.properties ++ extras.map ExtraProperty.entry
      required := contract.root.required ++
        (extras.filter ExtraProperty.required).map ExtraProperty.name } }

private theorem toJson_withExtras (contract : Contract) (extras : List ExtraProperty) :
    (contract.withExtras extras).toJson = .objectDocument
      (Schema.propertiesToJson contract.root.properties ++ extras.map ExtraProperty.document)
      (contract.root.required ++ (extras.filter ExtraProperty.required).map ExtraProperty.name)
      contract.otherMembers := by
  have properties : Schema.propertiesToJson (contract.withExtras extras).root.properties =
      Schema.propertiesToJson contract.root.properties ++ extras.map ExtraProperty.document := by
    rw [← ExtraProperty.propertiesToJson_entries]
    simp only [Schema.propertiesToJson_eq_map, withExtras, List.map_append]
  rw [toJson_eq_objectDocument, properties]
  rfl

end Contract

namespace Catalog

variable {catalog : Catalog} {message : String} {request input : Contract}

/-! ## When there is an input -/

private theorem addExtras_of_fresh {properties : Entries Schema} {extras : List ExtraProperty}
    (names : (extras.map ExtraProperty.name).Nodup)
    (fresh : ∀ extra ∈ extras, extra.name ∉ properties.keys) :
    addExtras message properties extras =
      .ok (properties ++ extras.map ExtraProperty.entry) := by
  induction extras generalizing properties with
  | nil => rw [List.map_nil, List.append_nil, addExtras]
  | cons extra rest ih =>
    obtain ⟨alone, others⟩ := List.nodup_cons.mp names
    have free : ¬ properties.contains extra.name = true :=
      fun taken => fresh extra List.mem_cons_self (Entries.contains_iff.mp taken)
    rw [addExtras, if_neg free, ih others]
    · rw [List.append_assoc]
      rfl
    · intro other listed taken
      rw [Entries.keys_append, List.mem_append] at taken
      rcases taken with old | new
      · exact fresh other (List.mem_cons_of_mem _ listed) old
      · obtain same : other.name = extra.name := List.mem_singleton.mp new
        exact alone (same ▸ List.mem_map_of_mem listed)

private theorem input_of_fit (compiled : catalog.compiler.contract message = .ok request)
    (fit : ExtraProperty.Fit catalog.extras request.root.properties.keys) :
    catalog.input message = .ok (request.withExtras catalog.extras) := by
  obtain ⟨names, fresh⟩ := ExtraProperty.fit_iff.mp fit
  have unrepeated := (firstRepeated?_eq_none_iff _).mpr names
  simp only [Catalog.input, compiled, unrepeated, addExtras_of_fresh names fresh, bind, Except.bind]
  rfl

private theorem fit_of_input (compiled : catalog.compiler.contract message = .ok request)
    (built : catalog.input message = .ok input) :
    ExtraProperty.Fit catalog.extras request.root.properties.keys := by
  obtain ⟨other, again, extended⟩ := input_eq_ok built
  obtain rfl := Except.ok.inj (compiled.symm.trans again)
  exact ExtraProperty.fit_iff.mpr ⟨extended.names, extended.fresh⟩

private theorem input_eq_error_of_contract {cause : SchemaError}
    (failed : catalog.compiler.contract message = .error cause) :
    catalog.input message = .error cause := by
  rw [Catalog.input, failed]
  rfl

private theorem category_of_input_eq_error {cause : SchemaError}
    (compiled : catalog.compiler.contract message = .ok request)
    (failed : catalog.input message = .error cause) : cause.category = .conflict := by
  rcases input_eq_error failed with uncompiled | ⟨name, rfl, -⟩ | ⟨extra, -, rfl⟩
  · cases compiled.symm.trans uncompiled
  · rfl
  · rfl

end Catalog

/-! ## Properties and required names -/

/-- The root of a contract has different properties, and its required names are some of them, each
once. -/
theorem Compiler.root_of_contract {compiler : Compiler} {message : String} {request : Contract}
    (compiled : compiler.contract message = .ok request) :
    request.root.properties.Distinct ∧ request.root.required.Nodup ∧
      request.root.required ⊆ request.root.properties.keys := by
  have describes := Compiler.contract_describes compiled
  have member := Definitions.mem_keys_of_schema? describes.root
  obtain ⟨_, schema, -, stored, described⟩ := describes.entries _ member
  obtain rfl := Option.some.inj (stored.symm.trans describes.root)
  exact ⟨described.distinct, described.nodup_required, fun _ => described.mem_keys_of_required⟩

section Fit

variable {extras : List ExtraProperty} {properties : Entries Json} {required : List String}

private theorem ExtraProperty.Fit.distinct (fit : Fit extras properties.keys)
    (distinct : properties.Distinct) : (properties ++ extras.map document).Distinct := by
  obtain ⟨names, fresh⟩ := fit_iff.mp fit
  rw [Entries.Distinct, Entries.keys_append, keys_documents]
  refine List.Nodup.append distinct names fun key old new => ?_
  obtain ⟨extra, listed, rfl⟩ := List.mem_map.mp new
  exact fresh extra listed old

/-- The required names were properties, and no extra property has the name of one. -/
theorem ExtraProperty.Fit.nodup_required (fit : Fit extras properties.keys)
    (distinct : required.Nodup) (named : required ⊆ properties.keys) :
    (required ++ (extras.filter ExtraProperty.required).map name).Nodup := by
  obtain ⟨names, fresh⟩ := fit_iff.mp fit
  refine List.Nodup.append distinct (names.sublist (List.filter_sublist.map name)) ?_
  intro key old new
  obtain ⟨extra, needed, rfl⟩ := List.mem_map.mp new
  exact fresh extra (List.mem_filter.mp needed).1 (named old)

private theorem ExtraProperty.required_subset (named : required ⊆ properties.keys) :
    required ++ (extras.filter ExtraProperty.required).map name ⊆
      Entries.keys (properties ++ extras.map document) := by
  rw [Entries.keys_append, keys_documents]
  exact List.append_subset.mpr ⟨List.subset_append_of_subset_left _ named,
    List.subset_append_of_subset_right _ (List.filter_sublist.map name).subset⟩

end Fit

/-- Where the request has no contract, the input fails with the same cause. Where it has one, whose
document has certain properties and required names at its root, there is an input exactly if the
extra properties, if there are any, have different names and none that is the key of a property; any
other failure is a conflict. The document of the input has, behind the properties, those that are
extra, behind the required names those of the required extra properties, and all `others` as they
are, with the definitions under `$defs`. Its keys and required names do not repeat, and only
properties are required. -/
theorem Catalog.input_document (catalog : Catalog) (message : String) :
    (∀ cause, catalog.compiler.contract message = .error cause →
      catalog.input message = .error cause) ∧
    ∀ request, catalog.compiler.contract message = .ok request →
      ∃ properties required others,
        request.toJson = .objectDocument properties required others ∧
        others.get? "$defs" = some request.definitions.toJson ∧
        ("type" :: "properties" :: "required" :: others.keys).Nodup ∧
        ((∃ input, catalog.input message = .ok input) ↔
          ExtraProperty.Fit catalog.extras properties.keys) ∧
        (∀ cause, catalog.input message = .error cause → cause.category = .conflict) ∧
        ∀ input, catalog.input message = .ok input →
          ∃ allProperties allRequired,
            allProperties = properties ++ catalog.extras.map ExtraProperty.document ∧
            allRequired = required ++
              (catalog.extras.filter ExtraProperty.required).map ExtraProperty.name ∧
            input.toJson = .objectDocument allProperties allRequired others ∧
            allProperties.Distinct ∧ allRequired.Nodup ∧ allRequired ⊆ allProperties.keys := by
  refine ⟨fun cause => input_eq_error_of_contract, fun request compiled => ?_⟩
  obtain ⟨distinct, nodup, named⟩ := Compiler.root_of_contract compiled
  have keys := Schema.keys_propertiesToJson request.root.properties
  refine ⟨_, _, _, request.toJson_eq_objectDocument, ?_, request.nodup_keys_otherMembers, ?_,
    fun cause => category_of_input_eq_error compiled, fun input built => ?_⟩
  · rw [Contract.otherMembers]
    cases request.root.description <;> rfl
  · rw [keys]
    exact ⟨fun ⟨input, built⟩ => fit_of_input compiled built,
      fun fit => ⟨_, input_of_fit compiled fit⟩⟩
  · have fit := fit_of_input compiled built
    obtain rfl := Except.ok.inj ((input_of_fit compiled fit).symm.trans built)
    rw [← keys] at fit named
    exact ⟨_, _, rfl, rfl, request.toJson_withExtras catalog.extras,
      fit.distinct (by rwa [Entries.Distinct, keys]), fit.nodup_required nodup named,
      ExtraProperty.required_subset named⟩

namespace Shapes

def trace : ExtraProperty where
  name := "trace"
  description := "Trace of the caller."
  contextKey := "x-trace"

def tenant : ExtraProperty where
  name := "tenant"
  description := "Who is asking."
  required := true
  contextKey := "x-tenant"

def tracedCatalog : Catalog where
  compiler := compiler
  extras := [trace, tenant]

/-- The third extra property has the name of a property of a shape. -/
def shadowingCatalog : Catalog where
  compiler := compiler
  extras := [trace, tenant, { name := "label", description := "", contextKey := "x-label" }]

end Shapes

open Shapes in
/-- Two extra properties come behind those of a shape and only the second is required; with a third
one that has the name of a property there is a conflict. -/
theorem input_document_traced :
    (∃ request input properties required others,
      compiler.contract "draw.Shape" = .ok request ∧
      request.toJson = .objectDocument properties required others ∧
      tracedCatalog.input "draw.Shape" = .ok input ∧
      input.toJson = .objectDocument (properties ++ [trace.document, tenant.document])
        (required ++ ["tenant"]) others) ∧
    ∃ cause, shadowingCatalog.input "draw.Shape" = .error cause ∧ cause.category = .conflict := by
  obtain ⟨request, compiled⟩ : ∃ request, compiler.contract "draw.Shape" = .ok request :=
    Compiler.exists_contract_of_isOk (by decide +kernel)
  constructor
  · obtain ⟨properties, required, others, document, -, -, -, -, inputs⟩ :=
      (Catalog.input_document tracedCatalog "draw.Shape").2 request compiled
    cases built : tracedCatalog.input "draw.Shape" with
    | error cause =>
      have succeeds : (tracedCatalog.input "draw.Shape").isOk = true := by decide +kernel
      simp [built, Except.isOk, Except.toBool] at succeeds
    | ok input =>
      obtain ⟨_, _, rfl, rfl, extended, -⟩ := inputs input built
      exact ⟨request, input, properties, required, others, compiled, document, rfl, extended⟩
  · obtain ⟨-, -, -, -, -, -, -, conflicts, -⟩ :=
      (Catalog.input_document shadowingCatalog "draw.Shape").2 request compiled
    cases built : shadowingCatalog.input "draw.Shape" with
    | error cause => exact ⟨cause, rfl, conflicts cause built⟩
    | ok input =>
      have fails : (shadowingCatalog.input "draw.Shape").isOk = false := by decide +kernel
      simp [built, Except.isOk, Except.toBool] at fails

end ToolContract
