import ToolContract.Proofs.Call.Extras
import ToolContract.Proofs.Config.Validity
import ToolContract.Proofs.Contract.Presence
import ToolContract.Proofs.Tool.Input

/-!
# What a valid configuration finds at run time

The checks compare context keys without the white space around them, and a call stores its texts
under the keys as they were written. Keys that differ once trimmed differ as written, so no text of
a call takes the place of another one, and no name is given out twice (`Config.extra_values`).
-/

set_option autoImplicit false

namespace ToolContract

private theorem Config.Valid.contextKeys {config : Config} (valid : config.Valid) :
    (config.extras.map ExtraProperty.contextKey).Nodup := by
  have trimmed := valid.keys
  have split : config.extras.map ExtraProperty.trimmedKey =
      (config.extras.map ExtraProperty.contextKey).map Text.trim := by
    rw [List.map_map]
    rfl
  rw [split] at trimmed
  exact List.Nodup.of_map _ trimmed

/-- Whether the argument for the property is a text. -/
def ExtraProperty.isSupplied (entries : Entries Json) (extra : ExtraProperty) : Bool :=
  match entries.get? extra.name with
  | some (.str _) => true
  | _ => false

private theorem ExtraProperty.isSupplied_iff {entries : Entries Json} {extra : ExtraProperty} :
    extra.isSupplied entries = true ↔ ∃ text, entries.get? extra.name = some (.str text) := by
  unfold isSupplied
  split
  · rename_i text found
    exact ⟨fun _ => ⟨text, found⟩, fun _ => rfl⟩
  · rename_i noText
    exact ⟨nofun, fun ⟨text, found⟩ => absurd found (noText text)⟩

namespace Context

/-- A context of the supplied texts and nothing else has one entry for each of them. -/
theorem size_eq {extras : List ExtraProperty} {entries : Entries Json} {context : Context}
    (keys : (extras.map ExtraProperty.contextKey).Nodup)
    (spec : ∀ key text, context[key]? = some text ↔ Supplies extras entries key text) :
    context.size = extras.countP (ExtraProperty.isSupplied entries) := by
  let supplied := extras.filter (ExtraProperty.isSupplied entries)
  have distinct : (supplied.map ExtraProperty.contextKey).Nodup :=
    keys.sublist (List.filter_sublist.map ExtraProperty.contextKey)
  have same : context.keys.Perm (supplied.map ExtraProperty.contextKey) := by
    rw [List.perm_ext_iff_of_nodup Std.ExtTreeMap.nodup_keys distinct]
    intro key
    rw [Std.ExtTreeMap.mem_keys, Std.ExtTreeMap.mem_iff_isSome_getElem?, Option.isSome_iff_exists]
    constructor
    · rintro ⟨text, held⟩
      obtain ⟨extra, listed, keyed, found⟩ := (spec key text).mp held
      exact List.mem_map.mpr ⟨extra,
        List.mem_filter.mpr ⟨listed, ExtraProperty.isSupplied_iff.mpr ⟨text, found⟩⟩, keyed⟩
    · intro member
      obtain ⟨extra, inside, keyed⟩ := List.mem_map.mp member
      obtain ⟨listed, isText⟩ := List.mem_filter.mp inside
      obtain ⟨text, found⟩ := ExtraProperty.isSupplied_iff.mp isText
      exact ⟨text, (spec key text).mpr ⟨extra, listed, keyed, found⟩⟩
  calc context.size = context.keys.length := Std.ExtTreeMap.length_keys.symm
    _ = (supplied.map ExtraProperty.contextKey).length := same.length_eq
    _ = supplied.length := List.length_map _
    _ = extras.countP (ExtraProperty.isSupplied entries) := List.countP_eq_length_filter.symm

end Context

/-- Let a configuration be valid. The context that a call extracts from the entries of its arguments
has as many entries as there are extra properties whose argument is a text, and holds each of these
texts under the context key as it was written, and nothing else. No input, over whatever registry,
fails because two extra properties have one name. -/
theorem Config.extra_values (config : Config) (valid : config.validate = .ok ()) :
    (∀ (entries : Entries Json) context left,
      Context.extract config.extras (.obj entries) = (.ok context, left) →
      context.size = config.extras.countP (ExtraProperty.isSupplied entries) ∧
      ∀ key text, context[key]? = some text ↔
        ∃ extra ∈ config.extras, extra.contextKey = key ∧
          entries.get? extra.name = some (.str text)) ∧
    ∀ registry message property,
      (config.catalog registry).input message ≠ .error (.repeatedExtra property) := by
  have rules := Config.validate_eq_ok_iff.mp valid
  refine ⟨fun entries context left extracted => ?_, fun registry message property failed => ?_⟩
  · have spec := Context.getElem?_of_extract_ok rules.names rules.contextKeys extracted
    exact ⟨Context.size_eq rules.contextKeys spec, spec⟩
  · have names : ((config.catalog registry).extras.map ExtraProperty.name).Nodup := rules.names
    rcases Catalog.input_eq_error failed with compiled | ⟨-, -, repeated⟩ | ⟨extra, -, shadowed⟩
    · exact Compiler.contract_error _ compiled
    · exact repeated names
    · cases shadowed

namespace Tenancy

/-- A property whose context key is written with spaces around it. -/
def tenant : ExtraProperty where
  name := "tenant"
  description := "Who is asking."
  required := true
  contextKey := " x-tenant "

def locale : ExtraProperty where
  name := "locale"
  description := "The language of the answer."
  contextKey := "x-locale"

def config : Config := { extras := [tenant, locale] }

def arguments : Entries Json :=
  [("tenant", .str "acme"), ("locale", .null), ("id", .num (.integer 7))]

end Tenancy

open Tenancy in
/-- The text of the tenant stands under its key with the spaces, and the trimmed key is free. -/
theorem Config.extra_values_tenancy :
    Tenancy.config.validate = .ok () ∧
    ∃ context left, Context.extract Tenancy.config.extras (.obj arguments) = (.ok context, left) ∧
      context.size = 1 ∧ context[" x-tenant "]? = some "acme" ∧ context["x-tenant"]? = none ∧
      (Tenancy.config.catalog Registry.empty).input "a.M" ≠ .error (.repeatedExtra "tenant") := by
  have valid : Tenancy.config.validate = .ok () := by decide +kernel
  obtain ⟨values, inputs⟩ := Config.extra_values Tenancy.config valid
  have succeeds : (Context.extract Tenancy.config.extras (.obj arguments)).1.isOk = true := by
    decide +kernel
  rcases extracted : Context.extract Tenancy.config.extras (.obj arguments) with ⟨outcome, left⟩
  cases outcome with
  | error cause => simp [extracted, Except.isOk, Except.toBool] at succeeds
  | ok context =>
    obtain ⟨size, spec⟩ := values arguments context left extracted
    have unused : context["x-tenant"]? = none := by
      refine Option.eq_none_iff_forall_not_mem.mpr fun text held => ?_
      obtain ⟨extra, listed, keyed, -⟩ := (spec "x-tenant" text).mp held
      have others : ∀ extra ∈ Tenancy.config.extras, extra.contextKey ≠ "x-tenant" := by
        decide +kernel
      exact others extra listed keyed
    refine ⟨valid, context, left, rfl, size.trans (by decide +kernel), ?_, unused,
      inputs Registry.empty "a.M" "tenant"⟩
    exact (spec " x-tenant " "acme").mpr ⟨tenant, by decide +kernel, rfl, rfl⟩

end ToolContract
