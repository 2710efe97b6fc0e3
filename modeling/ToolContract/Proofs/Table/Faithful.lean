import ToolContract.Proofs.Described

/-!
# Faithful tables

A table is faithful to a compiler if each completed entry describes the registered message of its
name, and if the entry refers to no message type outside the table other than an unsound one. The
second half is what is left of closedness once a failed message has been withdrawn
(`Faithful.withdraw`).
-/

set_option autoImplicit false

namespace ToolContract.Definitions

/-- Completed entries describe the messages of their names, and refer to names of the table or to
unsound ones. -/
structure Faithful (compiler : Compiler) (table : Definitions) : Prop where
  described : ∀ name schema, table.schema? name = some schema →
    ∃ message, compiler.registry.messages[name]? = some message ∧
      MessageDescribed compiler table message schema
  referred : ∀ name schema next, table.schema? name = some schema →
    compiler.registry.Refers name next →
    next ∈ table.keys ∨ ¬ compiler.registry.Sound next

variable {compiler : Compiler} {table before after : Definitions} {name other : String}
  {schema : ObjectSchema}

/-! ## Lookups after a change of one name -/

theorem schema?_eq_some_iff :
    table.schema? name = some schema ↔ table.get? name = some (.completed schema) := by
  unfold Definitions.schema?
  split
  · rename_i held found
    rw [found]
    simp
  · rename_i unfit
    simp only [reduceCtorEq, false_iff]
    exact fun found => unfit schema found

theorem mem_keys_of_schema? (found : table.schema? name = some schema) : name ∈ table.keys := by
  by_contra absent
  rw [schema?_eq_some_iff, Entries.get?_eq_none_iff.mpr absent] at found
  contradiction

private theorem get?_reserve (absent : name ∉ table.keys) :
    (table.reserve name).get? name = some .reserved := by
  rw [reserve, Entries.get?_append, Entries.get?_eq_none_iff.mpr absent]
  simp [Entries.get?_cons]

theorem get?_reserve_of_ne (different : other ≠ name) :
    (table.reserve name).get? other = table.get? other := by
  rw [reserve, Entries.get?_append]
  simp [Entries.get?_cons, Ne.symm different]

theorem schema?_reserve : (table.reserve name).schema? other = table.schema? other := by
  unfold schema?
  rw [reserve, Entries.get?_append]
  cases found : table.get? other with
  | some definition => rfl
  | none => by_cases same : name = other <;> simp [Entries.get?_cons, same]

theorem keys_reserve : (table.reserve name).keys = table.keys ++ [name] := by
  simp [reserve]

theorem get?_of_reserve_extends (absent : name ∉ before.keys)
    (larger : (before.reserve name).Extends after) : after.get? name = some .reserved :=
  larger.get? (get?_reserve absent)

theorem schema?_complete :
    (table.complete name schema).schema? other =
      if name = other then some schema else table.schema? other := by
  unfold schema? complete
  rw [Entries.get?_put]
  by_cases same : name = other <;> simp [same]

theorem keys_complete (present : name ∈ table.keys) :
    (table.complete name schema).keys = table.keys := by
  rw [complete, Entries.keys_put, if_pos (Entries.contains_iff.mpr present)]

theorem schema?_withdraw :
    (table.withdraw name).schema? other = if name = other then none else table.schema? other := by
  unfold schema? withdraw
  rw [Entries.get?_erase]
  by_cases same : name = other <;> simp [same]

theorem mem_keys_withdraw :
    other ∈ (table.withdraw name).keys ↔ other ∈ table.keys ∧ other ≠ name := by
  rw [withdraw, Entries.keys_erase, List.mem_filter]
  simp

theorem keeps_complete (reserved : table.get? name = some .reserved) :
    table.Keeps (table.complete name schema) := by
  intro other held found
  rw [schema?_complete, if_neg, found]
  rintro rfl
  rw [schema?_eq_some_iff, reserved] at found
  cases found

theorem keeps_withdraw (reserved : table.get? name = some .reserved) :
    table.Keeps (table.withdraw name) := by
  intro other held found
  rw [schema?_withdraw, if_neg, found]
  rintro rfl
  rw [schema?_eq_some_iff, reserved] at found
  cases found

/-! ## Reserving, completing and withdrawing a name -/

namespace Faithful

theorem empty (compiler : Compiler) : Faithful compiler [] :=
  ⟨fun _ _ found => by simp [schema?] at found, fun _ _ _ found => by simp [schema?] at found⟩

theorem reserve (faithful : Faithful compiler table) (name : String) :
    Faithful compiler (table.reserve name) := by
  have kept : table.Keeps (table.reserve name) := fun _ _ found =>
    schema?_reserve.trans found
  refine ⟨fun other schema found => ?_, fun other schema next found refers => ?_⟩
  · obtain ⟨message, registered, described⟩ :=
      faithful.described other schema (schema?_reserve.symm.trans found)
    exact ⟨message, registered, described.keeps kept⟩
  · have old := schema?_reserve.symm.trans found
    refine (faithful.referred other schema next old refers).imp_left fun member => ?_
    simp [keys_reserve, member]

/-- Completing a reserved name keeps a table faithful if the schema describes the message and all
that the message refers to is in the table. -/
theorem complete (faithful : Faithful compiler table)
    (reserved : table.get? name = some .reserved) {message : Message}
    (registered : compiler.registry.messages[name]? = some message)
    (described : MessageDescribed compiler table message schema)
    (present : ∀ next ∈ message.targets, next ∈ table.keys) :
    Faithful compiler (table.complete name schema) := by
  have kept : table.Keeps (table.complete name schema) := keeps_complete reserved
  have keys : (table.complete name schema).keys = table.keys :=
    keys_complete (Entries.mem_keys_of_mem (Entries.mem_of_get? reserved))
  refine ⟨fun other held found => ?_, fun other held next found refers => ?_⟩
  · rw [schema?_complete] at found
    split at found
    · rename_i same
      obtain rfl := Option.some.inj found
      exact ⟨message, same ▸ registered, described.keeps kept⟩
    · obtain ⟨owner, ownerRegistered, ownerDescribed⟩ := faithful.described other held found
      exact ⟨owner, ownerRegistered, ownerDescribed.keeps kept⟩
  · rw [keys]
    rw [schema?_complete] at found
    split at found
    · rename_i same
      obtain ⟨owner, ownerRegistered, listed⟩ := refers
      rw [← same, registered] at ownerRegistered
      obtain rfl := Option.some.inj ownerRegistered
      exact .inl (present next listed)
    · exact faithful.referred other held next found refers

/-- Withdrawing a reserved name keeps a table faithful if the name is unsound. -/
theorem withdraw (faithful : Faithful compiler table)
    (reserved : table.get? name = some .reserved) (unsound : ¬ compiler.registry.Sound name) :
    Faithful compiler (table.withdraw name) := by
  have found_of {other : String} {held : ObjectSchema}
      (found : (table.withdraw name).schema? other = some held) :
      table.schema? other = some held := by
    rw [schema?_withdraw] at found
    split at found
    · contradiction
    · exact found
  refine ⟨fun other held found => ?_, fun other held next found refers => ?_⟩
  · obtain ⟨message, registered, described⟩ := faithful.described other held (found_of found)
    exact ⟨message, registered, described.keeps (keeps_withdraw reserved)⟩
  · rcases faithful.referred other held next (found_of found) refers with member | broken
    · by_cases same : next = name
      · exact .inr (same ▸ unsound)
      · exact .inl (mem_keys_withdraw.mpr ⟨member, same⟩)
    · exact .inr broken

end Faithful

end ToolContract.Definitions
