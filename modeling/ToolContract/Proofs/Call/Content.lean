import ToolContract.Proofs.Call.Round
import ToolContract.Proofs.Json.Contents

/-!
# What flattening leaves of a value

Flattening only takes away: an object loses wrappers and the entries that their members displace, and
gains none. So a flattened value has fewer nodes unless there was no wrapper in it, its scalars are
among those of the value in the same order, and its keys are old keys or texts of discriminators
(`flatten_contents`). What holds of each entry in a value is carried over to the flattened value by
`Json.fits_flatten`.
-/

set_option autoImplicit false

namespace ToolContract

open Flatten

namespace Json

/-! ## Scalars -/

section Leaves

variable {content : Entries Json}

private theorem leaves_sublist_of_get? {key : String} {value : Json}
    (found : content.get? key = some value) : value.leaves.Sublist (Json.obj content).leaves := by
  rw [leaves_obj]
  exact List.sublist_flatten_of_mem (List.mem_map.mpr ⟨_, Entries.mem_of_get? found, rfl⟩)

private theorem leaves_erase_sublist (key : String) (content : Entries Json) :
    (Json.obj (content.erase key)).leaves.Sublist (Json.obj content).leaves := by
  rw [leaves_obj, leaves_obj]
  exact List.filter_sublist.flatMap _

/-- What an entry is rewritten to has no scalars but its own. -/
theorem leaves_rewritten_sublist (entry : String × Json) :
    (rewritten entry).2.leaves.Sublist entry.2.leaves := by
  cases wrapper : wrapperMember? entry with
  | none =>
    rw [rewritten, wrapper]
  | some member =>
    obtain ⟨-, content, held, -⟩ := wrapperMember?_eq_some_iff.mp wrapper
    rw [rewritten_of_wrapper wrapper, held]
    cases found : content.get? member with
    | some value =>
      rw [promoted_of_some found]
      exact leaves_sublist_of_get? found
    | none =>
      rw [promoted_of_none found]
      exact leaves_erase_sublist _ content

private theorem leaves_round_sublist (entries : Entries Json) :
    (Json.obj (round entries)).leaves.Sublist (Json.obj entries).leaves := by
  rw [leaves_obj, leaves_obj]
  have kept := (round_sublist entries).flatMap fun entry => entry.2.leaves
  rw [List.flatMap_map] at kept
  exact kept.trans (List.Sublist.flatMap_right _ fun entry _ => leaves_rewritten_sublist entry)

private theorem leaves_rounds_sublist (entries : Entries Json) :
    (Json.obj (rounds entries)).leaves.Sublist (Json.obj entries).leaves := by
  fun_induction rounds entries with
  | case1 entries _ ih => exact ih.trans (leaves_round_sublist entries)
  | case2 entries => exact List.Sublist.refl _

private theorem leaves_flattenValues_sublist {entries : Entries Json}
    (values : ∀ entry ∈ entries, entry.2.flatten.leaves.Sublist entry.2.leaves) :
    (Json.obj (flattenValues entries)).leaves.Sublist (Json.obj entries).leaves := by
  rw [leaves_obj, leaves_obj, flattenValues, List.flatMap_map]
  exact List.Sublist.flatMap_right _ values

/-- Flattening leaves scalars out and adds none. -/
theorem leaves_flatten_sublist (value : Json) : value.flatten.leaves.Sublist value.leaves := by
  induction value using flatten_induction with
  | null => rw [flatten_null]
  | bool truth => rw [flatten_bool]
  | num number => rw [flatten_num]
  | str text => rw [flatten_str]
  | arr items ih =>
    rw [flatten_arr, leaves_arr, leaves_arr, List.flatMap_map]
    exact List.Sublist.flatMap_right _ ih
  | done entries ih settled =>
    rw [flatten_obj_of_not_hasWrapper settled]
    exact (leaves_flattenValues_sublist ih).trans (leaves_rounds_sublist entries)
  | again entries ih wrapper later =>
    rw [flatten_obj_of_hasWrapper wrapper]
    exact later.trans ((leaves_flattenValues_sublist ih).trans (leaves_rounds_sublist entries))

end Leaves

/-! ## Entries -/

/-- Flattening takes entries that fit to entries that fit, if those within a wrapper do. -/
structure Kept (fits : String × Json → Prop) : Prop where
  rewritten : ∀ entry, fits entry → (∀ inner ∈ entry.2.entriesWithin, fits inner) →
    fits (rewritten entry)
  flattened : ∀ entry, fits entry → fits (entry.1, entry.2.flatten)

private theorem entriesWithin_rewritten_subset (entry : String × Json) :
    (rewritten entry).2.entriesWithin ⊆ entry.2.entriesWithin := by
  cases wrapper : wrapperMember? entry with
  | none =>
    rw [rewritten, wrapper]
    exact List.Subset.refl _
  | some member =>
    obtain ⟨-, content, held, -⟩ := wrapperMember?_eq_some_iff.mp wrapper
    rw [rewritten_of_wrapper wrapper, held]
    cases found : content.get? member with
    | some value =>
      rw [promoted_of_some found]
      exact fun inner listed =>
        mem_entriesWithin_obj.mpr ⟨_, Entries.mem_of_get? found, .inr listed⟩
    | none =>
      rw [promoted_of_none found]
      intro inner listed
      obtain ⟨outer, member, origin⟩ := mem_entriesWithin_obj.mp listed
      exact mem_entriesWithin_obj.mpr ⟨outer, (Entries.mem_erase_iff.mp member).1, origin⟩

section Fits

variable {fits : String × Json → Prop} {entries : Entries Json}

theorem fits_round (kept : Kept fits)
    (all : ∀ entry ∈ (Json.obj entries).entriesWithin, fits entry) :
    ∀ entry ∈ (Json.obj (round entries)).entriesWithin, fits entry := by
  intro entry listed
  obtain ⟨outer, member, origin⟩ := mem_entriesWithin_obj.mp listed
  obtain ⟨old, oldMember, rfl⟩ := mem_round member
  have inside (inner : String × Json) (within : inner ∈ old.2.entriesWithin) : fits inner :=
    all inner (mem_entriesWithin_obj.mpr ⟨old, oldMember, .inr within⟩)
  rcases origin with rfl | within
  · exact kept.rewritten old (all old (mem_entriesWithin_obj.mpr ⟨old, oldMember, .inl rfl⟩)) inside
  · exact inside entry (entriesWithin_rewritten_subset old within)

private theorem fits_rounds (kept : Kept fits)
    (all : ∀ entry ∈ (Json.obj entries).entriesWithin, fits entry) :
    ∀ entry ∈ (Json.obj (rounds entries)).entriesWithin, fits entry := by
  fun_induction rounds entries with
  | case1 entries _ ih => exact ih (fits_round kept all)
  | case2 entries => exact all

theorem fits_flattenValues (kept : Kept fits)
    (all : ∀ entry ∈ (Json.obj entries).entriesWithin, fits entry)
    (values : ∀ entry ∈ entries, ∀ inner ∈ entry.2.flatten.entriesWithin, fits inner) :
    ∀ entry ∈ (Json.obj (flattenValues entries)).entriesWithin, fits entry := by
  intro entry listed
  obtain ⟨_, member, origin⟩ := mem_entriesWithin_obj.mp listed
  obtain ⟨old, oldMember, rfl⟩ := List.mem_map.mp member
  rcases origin with rfl | within
  · exact kept.flattened old (all old (mem_entriesWithin_obj.mpr ⟨old, oldMember, .inl rfl⟩))
  · exact values old oldMember entry within

/-- What fits in the entries of a value fits in those of the flattened value. -/
theorem fits_flatten (kept : Kept fits) {value : Json}
    (all : ∀ entry ∈ value.entriesWithin, fits entry) :
    ∀ entry ∈ value.flatten.entriesWithin, fits entry := by
  have values {entries : Entries Json} (all : ∀ entry ∈ (Json.obj entries).entriesWithin, fits entry)
      (ih : ∀ entry ∈ entries, (∀ inner ∈ entry.2.entriesWithin, fits inner) →
        ∀ inner ∈ entry.2.flatten.entriesWithin, fits inner) :
      ∀ entry ∈ (Json.obj (flattenValues entries)).entriesWithin, fits entry :=
    fits_flattenValues kept all fun entry member => ih entry member fun inner within =>
      all inner (mem_entriesWithin_obj.mpr ⟨entry, member, .inr within⟩)
  induction value using flatten_induction with
  | null => rwa [flatten_null]
  | bool truth => rwa [flatten_bool]
  | num number => rwa [flatten_num]
  | str text => rwa [flatten_str]
  | arr items ih =>
    intro entry listed
    rw [flatten_arr] at listed
    obtain ⟨_, member, within⟩ := mem_entriesWithin_arr.mp listed
    obtain ⟨item, itemMember, rfl⟩ := List.mem_map.mp member
    exact ih item itemMember
      (fun inner inside => all inner (mem_entriesWithin_arr.mpr ⟨item, itemMember, inside⟩)) entry
      within
  | done entries ih settled =>
    rw [flatten_obj_of_not_hasWrapper settled]
    exact values (fits_rounds kept all) ih
  | again entries ih wrapper later =>
    rw [flatten_obj_of_hasWrapper wrapper]
    exact later (values (fits_rounds kept all) ih)

end Fits

/-- What is under a discriminator with a text was so before, since a promoted value that stands there
stood there in the wrapper. -/
theorem kept_untagged (text : String) :
    Kept fun entry => entry ≠ (discriminatorKey, .str text) where
  rewritten entry untagged inside := by
    cases wrapper : wrapperMember? entry with
    | none =>
      rw [Flatten.rewritten, wrapper]
      exact untagged
    | some member =>
      obtain ⟨-, content, held, -⟩ := wrapperMember?_eq_some_iff.mp wrapper
      rw [rewritten_of_wrapper wrapper, held]
      intro same
      cases found : content.get? member with
      | some value =>
        rw [promoted_of_some found] at same
        refine inside _ ?_ same
        rw [held]
        exact mem_entriesWithin_obj.mpr ⟨_, Entries.mem_of_get? found, .inl rfl⟩
      | none =>
        rw [promoted_of_none found] at same
        cases (Prod.mk.inj same).2
  flattened entry untagged same := by
    obtain ⟨key, flat⟩ := Prod.mk.inj same
    exact untagged (Prod.ext key (eq_str_of_flatten flat))

/-! ## Keys -/

/-- The key of the entry and, if it is a discriminator with a text, that text are known. -/
structure Traced (value : Json) (entry : String × Json) : Prop where
  key : entry.1 ∈ value.keysWithin ++ value.tagsWithin
  tag : ∀ text, text ∉ value.tagsWithin → entry ≠ (discriminatorKey, .str text)

private theorem traced_of_mem {value : Json} {entry : String × Json}
    (listed : entry ∈ value.entriesWithin) :
    value.Traced entry where
  key := List.mem_append_left _ (Entries.mem_keys_of_mem listed)
  tag _ unknown same := unknown (mem_tagsWithin_iff.mpr (same ▸ listed))

/-- A wrapper names its member in a discriminator. -/
theorem kept_traced (value : Json) : Kept value.Traced where
  rewritten entry traced inside := by
    refine ⟨?_, fun text unknown => (kept_untagged text).rewritten entry (traced.tag text unknown)
      fun inner within => (inside inner within).tag text unknown⟩
    cases wrapper : wrapperMember? entry with
    | none =>
      rw [Flatten.rewritten, wrapper]
      exact traced.key
    | some member =>
      obtain ⟨-, content, held, tag⟩ := wrapperMember?_eq_some_iff.mp wrapper
      rw [rewritten_of_wrapper wrapper]
      have within : (discriminatorKey, .str member) ∈ entry.2.entriesWithin :=
        held ▸ mem_entriesWithin_obj.mpr ⟨_, Entries.mem_of_get? tag, .inl rfl⟩
      refine List.mem_append_right _ (by_contra fun unknown => ?_)
      exact (inside _ within).tag member unknown rfl
  flattened entry traced :=
    ⟨traced.key, fun text unknown =>
      (kept_untagged text).flattened entry (traced.tag text unknown)⟩

private theorem keysWithin_flatten_subset (value : Json) :
    value.flatten.keysWithin ⊆ value.keysWithin ++ value.tagsWithin := by
  intro key listed
  obtain ⟨entry, member, rfl⟩ := List.mem_map.mp listed
  exact (fits_flatten (kept_traced value) (fun _ => traced_of_mem) entry member).key

/-! ## Nodes -/

private theorem not_wrapperFree_iff {value : Json} :
    ¬ value.WrapperFree ↔ ∃ entry ∈ value.entriesWithin, IsWrapper entry := by
  rw [WrapperFree, allObjects_iff_entriesWithin]
  simp only [not_forall, not_not, exists_prop]

/-- A value with a wrapper is not what flattening ends in, and whatever flattening changes shrinks. -/
theorem size_flatten_lt_iff {value : Json} :
    value.flatten.size < value.size ↔ ∃ entry ∈ value.entriesWithin, IsWrapper entry := by
  rw [← not_wrapperFree_iff]
  constructor
  · intro less free
    rw [free.flatten_eq] at less
    exact Nat.lt_irrefl _ less
  · intro wrapped
    refine (flatten_eq_or_size_lt value).resolve_left fun same => wrapped ?_
    exact same ▸ wrapperFree_flatten value

private theorem size_flatten_le (value : Json) : value.flatten.size ≤ value.size := by
  rcases flatten_eq_or_size_lt value with same | less
  · exact Nat.le_of_eq (congrArg size same)
  · exact Nat.le_of_lt less

end Json

/-- A flattened value has no more nodes than the value, and fewer exactly if some object in it, at any
depth, has a wrapper. Its scalars, with repetitions, are among those of the value. Each of its keys is
a key within the value, or a text that stands under a discriminator there. -/
theorem flatten_contents (value : Json) :
    value.flatten.size ≤ value.size ∧
      (value.flatten.size < value.size ↔ ∃ entry ∈ value.entriesWithin, Json.IsWrapper entry) ∧
      value.flatten.leaves.Sublist value.leaves ∧
      value.flatten.keysWithin ⊆ value.keysWithin ++ value.tagsWithin := by
  exact ⟨Json.size_flatten_le value, Json.size_flatten_lt_iff, Json.leaves_flatten_sublist value,
    Json.keysWithin_flatten_subset value⟩

end ToolContract
