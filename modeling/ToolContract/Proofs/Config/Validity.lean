import ToolContract.Config.Basic

/-!
# Valid configurations

A configuration passes the checks exactly if it keeps the limits, each of its extra properties keeps
the rules for a single one, and no two of them share a name or a trimmed context key
(`Config.validate_eq_ok_iff`).
-/

set_option autoImplicit false

namespace ToolContract

/-- The context key without the white space around it. -/
def ExtraProperty.trimmedKey (extra : ExtraProperty) : String :=
  Text.trim extra.contextKey

/-- The rules that a property keeps or breaks on its own. -/
structure ExtraProperty.Valid (extra : ExtraProperty) : Prop where
  named : extra.name ≠ ""
  shortName : extra.name.utf8ByteSize ≤ maxExtraNameLength
  identifier : isIdentifier extra.name.toList = true
  keyed : extra.trimmedKey ≠ ""
  shortKey : extra.trimmedKey.utf8ByteSize ≤ maxExtraNameLength

structure Config.Valid (config : Config) : Prop where
  minNameLimit_le : minNameLimit ≤ config.nameLimit
  le_maxNameLimit : config.nameLimit ≤ maxNameLimit
  length_le : config.extras.length ≤ maxExtras
  extras : ∀ extra ∈ config.extras, extra.Valid
  names : (config.extras.map ExtraProperty.name).Nodup
  keys : (config.extras.map ExtraProperty.trimmedKey).Nodup

namespace Config

private theorem validateName_eq_ok_iff {name : String} :
    validateName name = .ok () ↔
      name ≠ "" ∧ name.utf8ByteSize ≤ maxExtraNameLength ∧ isIdentifier name.toList = true := by
  unfold validateName
  by_cases empty : name = ""
  · simp [empty]
  · by_cases long : maxExtraNameLength < name.utf8ByteSize
    · simp [empty, long, Nat.not_le.mpr long]
    · simp [empty, long, Nat.le_of_not_lt long]

private theorem validateExtra_eq_ok_iff {names keys : List String} {extra : ExtraProperty} :
    validateExtra names keys extra = .ok () ↔
      extra.Valid ∧ extra.name ∉ names ∧ extra.trimmedKey ∉ keys := by
  unfold validateExtra
  rw [show Text.trim extra.contextKey = extra.trimmedKey from rfl]
  cases checked : validateName extra.name with
  | error cause =>
    have broken : ¬ extra.Valid := by
      intro valid
      have passes := validateName_eq_ok_iff.mpr ⟨valid.named, valid.shortName, valid.identifier⟩
      rw [checked] at passes
      cases passes
    simp [broken]
  | ok =>
    obtain ⟨named, shortName, identifier⟩ := validateName_eq_ok_iff.mp checked
    by_cases blank : extra.trimmedKey = ""
    · simp [blank, show ¬ extra.Valid from fun valid => valid.keyed blank]
    · by_cases long : maxExtraNameLength < extra.trimmedKey.utf8ByteSize
      · simp [blank, long, show ¬ extra.Valid from fun valid => Nat.not_le.mpr long valid.shortKey]
      · have valid : extra.Valid := ⟨named, shortName, identifier, blank, Nat.le_of_not_lt long⟩
        by_cases repeated : extra.name ∈ names
        · simp [blank, long, repeated]
        · by_cases taken : extra.trimmedKey ∈ keys
          · simp [blank, long, repeated, taken]
          · simp [blank, long, repeated, taken, valid]

/-- The names and keys that were met before grow along the list, so the checks in order come to
comparing every two extra properties. -/
theorem validateExtras_eq_ok_iff {names keys : List String} {extras : List ExtraProperty} :
    validateExtras names keys extras = .ok () ↔
      (∀ extra ∈ extras, extra.Valid ∧ extra.name ∉ names ∧ extra.trimmedKey ∉ keys) ∧
        (extras.map ExtraProperty.name).Nodup ∧ (extras.map ExtraProperty.trimmedKey).Nodup := by
  induction extras generalizing names keys with
  | nil => simp [validateExtras]
  | cons extra rest ih =>
    rw [validateExtras]
    cases checked : validateExtra names keys extra with
    | error cause =>
      have broken : ¬ (extra.Valid ∧ extra.name ∉ names ∧ extra.trimmedKey ∉ keys) := by
        rw [← validateExtra_eq_ok_iff, checked]
        nofun
      simp [broken]
    | ok =>
      have passes := validateExtra_eq_ok_iff.mp checked
      rw [ih, List.forall_mem_cons, List.map_cons, List.map_cons, List.nodup_cons, List.nodup_cons]
      constructor
      · rintro ⟨later, names, keys⟩
        refine ⟨⟨passes, fun other listed => ?_⟩, ⟨fun again => ?_, names⟩, ⟨fun again => ?_, keys⟩⟩
        · obtain ⟨valid, name, key⟩ := later other listed
          exact ⟨valid, List.not_mem_of_not_mem_cons name, List.not_mem_of_not_mem_cons key⟩
        · obtain ⟨other, listed, same⟩ := List.mem_map.mp again
          exact (later other listed).2.1 (same ▸ List.mem_cons_self)
        · obtain ⟨other, listed, same⟩ := List.mem_map.mp again
          exact (later other listed).2.2 (same ▸ List.mem_cons_self)
      · rintro ⟨⟨-, later⟩, ⟨nameFresh, names⟩, ⟨keyFresh, keys⟩⟩
        refine ⟨fun other listed => ?_, names, keys⟩
        obtain ⟨valid, name, key⟩ := later other listed
        refine ⟨valid, List.not_mem_cons_of_ne_of_not_mem ?_ name,
          List.not_mem_cons_of_ne_of_not_mem ?_ key⟩
        · intro same
          exact nameFresh (List.mem_map.mpr ⟨other, listed, same⟩)
        · intro same
          exact keyFresh (List.mem_map.mpr ⟨other, listed, same⟩)

theorem validate_eq_ok_iff {config : Config} : config.validate = .ok () ↔ config.Valid := by
  unfold validate
  by_cases limits : config.nameLimit < minNameLimit ∨ maxNameLimit < config.nameLimit
  · rw [if_pos limits]
    refine ⟨nofun, fun valid => ?_⟩
    rcases limits with low | high
    · exact absurd valid.minNameLimit_le (Nat.not_le.mpr low)
    · exact absurd valid.le_maxNameLimit (Nat.not_le.mpr high)
  · rw [if_neg limits]
    obtain ⟨low, high⟩ := not_or.mp limits
    by_cases many : maxExtras < config.extras.length
    · rw [if_pos many]
      exact ⟨nofun, fun valid => absurd valid.length_le (Nat.not_le.mpr many)⟩
    · rw [if_neg many, validateExtras_eq_ok_iff]
      constructor
      · rintro ⟨extras, names, keys⟩
        exact ⟨Nat.le_of_not_lt low, Nat.le_of_not_lt high, Nat.le_of_not_lt many,
          fun extra listed => (extras extra listed).1, names, keys⟩
      · intro valid
        refine ⟨fun extra listed => ?_, valid.names, valid.keys⟩
        exact ⟨valid.extras extra listed, List.not_mem_nil, List.not_mem_nil⟩

end Config

end ToolContract
