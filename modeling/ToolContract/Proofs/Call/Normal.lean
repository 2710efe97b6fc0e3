import ToolContract.Proofs.Call.Wrapper

/-!
# Flattened values are free of wrappers

Flattening an object goes through its entries, then through their values, and starts again if that
made an entry a wrapper. `Json.flatten_induction` is the induction that follows it. Flattening ends
in a value free of wrappers and leaves every such value as it is (`Json.flatten_normal`), so the
values free of wrappers are the ones that flattening is done with.
-/

set_option autoImplicit false

namespace ToolContract

open Flatten

namespace Json

/-! ## Induction along a flattening -/

/-- The entries with their values flattened. -/
def flattenValues (entries : Entries Json) : Entries Json :=
  entries.map fun entry => (entry.1, entry.2.flatten)

private theorem flattenValues_eq_or_lt (entries : Entries Json) :
    flattenValues entries = entries ∨
      sizeEntries (flattenValues entries) < sizeEntries entries := by
  have plain : (entries.attach.map fun entry => (entry.val.1, (shrink entry.val.2).val)) =
      flattenValues entries :=
    @List.attach_map_val _ _ entries fun entry => (entry.1, entry.2.flatten)
  have shrunk := map_entries_eq_or_lt entries fun entry _ => shrink entry.2
  rwa [plain] at shrunk

theorem flatten_obj_of_hasWrapper {entries : Entries Json}
    (wrapper : hasWrapper (flattenValues (rounds entries)) = true) :
    (Json.obj entries).flatten = (Json.obj (flattenValues (rounds entries))).flatten := by
  rw [flatten_obj]
  exact if_pos wrapper

theorem flatten_obj_of_not_hasWrapper {entries : Entries Json}
    (done : hasWrapper (flattenValues (rounds entries)) = false) :
    (Json.obj entries).flatten = .obj (flattenValues (rounds entries)) := by
  rw [flatten_obj]
  exact if_neg (by rw [flattenValues] at done; simp [done])

/-- An induction with the cases of a flattening: an object is done once its values are flattened
and none of its entries is a wrapper, else what it has become is flattened again. -/
theorem flatten_induction {motive : Json → Prop} (null : motive .null)
    (bool : ∀ truth, motive (.bool truth)) (num : ∀ number, motive (.num number))
    (str : ∀ text, motive (.str text))
    (arr : ∀ items, (∀ item ∈ items, motive item) → motive (.arr items))
    (done : ∀ entries, (∀ entry ∈ rounds entries, motive entry.2) →
      hasWrapper (flattenValues (rounds entries)) = false → motive (.obj entries))
    (again : ∀ entries, (∀ entry ∈ rounds entries, motive entry.2) →
      hasWrapper (flattenValues (rounds entries)) = true →
      motive (.obj (flattenValues (rounds entries))) → motive (.obj entries))
    (value : Json) : motive value := by
  induction bound : value.size using Nat.strongRecOn generalizing value with
  | ind size ih =>
    subst bound
    cases value with
    | null => exact null
    | bool truth => exact bool truth
    | num number => exact num number
    | str text => exact str text
    | arr items =>
      exact arr items fun item member => ih item.size (size_lt_of_mem_items member) item rfl
    | obj entries =>
      have inside (entry : String × Json) (member : entry ∈ rounds entries) :
          motive entry.2 := by
        refine ih entry.2.size ?_ entry.2 rfl
        have := size_le_sizeEntries member
        have := sizeEntries_rounds_le entries
        simp only [size]
        omega
      cases wrapper : hasWrapper (flattenValues (rounds entries)) with
      | false => exact done entries inside wrapper
      | true =>
        refine again entries inside wrapper (ih _ ?_ _ rfl)
        have shrunk := flattenValues_eq_or_lt (rounds entries)
        have fewer := sizeEntries_lt_of_hasWrapper shrunk wrapper
        simp only [size]
        omega

/-! ## What a whole flattening keeps -/

/-- What rounds and the flattening of values keep holds of the flattened object. -/
theorem exists_flatten_obj {holds : Entries Json → Prop}
    (rounded : ∀ entries, hasWrapper entries = true → holds entries → holds (round entries))
    (flattened : ∀ entries, hasWrapper entries = false → holds entries →
      holds (flattenValues entries))
    {entries : Entries Json} (start : holds entries) :
    ∃ flat, (Json.obj entries).flatten = .obj flat ∧ holds flat := by
  have inRounds (entries : Entries Json) (start : holds entries) : holds (rounds entries) := by
    fun_induction rounds entries with
    | case1 entries wrapper ih => exact ih (rounded entries wrapper start)
    | case2 entries => exact start
  have step (entries : Entries Json) (start : holds entries) :
      holds (flattenValues (rounds entries)) :=
    flattened _ (hasWrapper_rounds entries) (inRounds entries start)
  generalize whole : Json.obj entries = value
  induction value using flatten_induction generalizing entries with
  | done others _ settled =>
    obtain rfl := Json.obj.inj whole
    exact ⟨_, flatten_obj_of_not_hasWrapper settled, step entries start⟩
  | again others _ wrapper ih =>
    obtain rfl := Json.obj.inj whole
    rw [flatten_obj_of_hasWrapper wrapper]
    exact ih (step entries start) rfl
  | _ => contradiction

theorem flatten_obj_eq_obj (entries : Entries Json) :
    ∃ flat, (Json.obj entries).flatten = .obj flat := by
  obtain ⟨flat, same, -⟩ := @exists_flatten_obj (fun _ => True) (fun _ _ _ => trivial)
    (fun _ _ _ => trivial) entries trivial
  exact ⟨flat, same⟩

/-- Only a text is flattened to a text. -/
theorem eq_str_of_flatten {value : Json} {text : String} (flat : value.flatten = .str text) :
    value = .str text := by
  cases value with
  | obj entries =>
    obtain ⟨others, again⟩ := flatten_obj_eq_obj entries
    cases again.symm.trans flat
  | arr items => rw [flatten_arr] at flat; cases flat
  | str other => rwa [flatten_str] at flat
  | null => rw [flatten_null] at flat; cases flat
  | bool truth => rw [flatten_bool] at flat; cases flat
  | num number => rw [flatten_num] at flat; cases flat

/-! ## Normal forms -/

/-- Flattening leaves no wrapper at any depth. -/
theorem wrapperFree_flatten (value : Json) : value.flatten.WrapperFree := by
  induction value using flatten_induction with
  | null => rw [flatten_null]; exact .null
  | bool truth => rw [flatten_bool]; exact .bool truth
  | num number => rw [flatten_num]; exact .num number
  | str text => rw [flatten_str]; exact .str text
  | arr items ih =>
    rw [flatten_arr]
    exact .arr (List.forall_mem_map.mpr ih)
  | done entries ih settled =>
    rw [flatten_obj_of_not_hasWrapper settled]
    exact .obj (hasWrapper_eq_false_iff.mp settled) (List.forall_mem_map.mpr ih)
  | again entries _ wrapper ih =>
    rw [flatten_obj_of_hasWrapper wrapper]
    exact ih

theorem map_values_eq_self {entries : Entries Json} {function : Json → Json}
    (fixed : ∀ entry ∈ entries, function entry.2 = entry.2) :
    (entries.map fun entry => (entry.1, function entry.2)) = entries := by
  refine (List.map_congr_left fun entry member => ?_).trans (List.map_id entries)
  exact Prod.ext rfl (fixed entry member)

/-- A value free of wrappers stays as it is. -/
theorem WrapperFree.flatten_eq {value : Json} (free : value.WrapperFree) :
    value.flatten = value := by
  induction free with
  | null => exact flatten_null
  | bool truth => exact flatten_bool truth
  | num number => exact flatten_num number
  | str text => exact flatten_str text
  | arr _ ih => rw [flatten_arr, List.map_congr_left ih, List.map_id']
  | @obj entries plain _ ih =>
    have none : hasWrapper entries = false := hasWrapper_eq_false_iff.mpr plain
    have settled : flattenValues (rounds entries) = entries := by
      rw [rounds_of_not_hasWrapper none]
      exact map_values_eq_self ih
    rw [flatten_obj_of_not_hasWrapper (by rw [settled, none]), settled]

end Json

/-- Flattening ends in a value free of wrappers, leaves exactly those values as they are, and so
changes nothing when it is repeated. -/
theorem flatten_normal (value : Json) :
    value.flatten.WrapperFree ∧ (value.flatten = value ↔ value.WrapperFree) ∧
      value.flatten.flatten = value.flatten := by
  have free := Json.wrapperFree_flatten value
  refine ⟨free, ⟨fun same => ?_, fun already => already.flatten_eq⟩, free.flatten_eq⟩
  rw [same] at free
  exact free

/-- The only entry is no wrapper until its value is flattened, and the member it then names is the
discriminator itself. -/
example :
    Json.flatten (.obj [("kOneOfType",
      .obj [("aOneOfType", .obj [("object_type", .str "object_type")])])]) =
      .obj [("object_type", .str "object_type")] := by decide +kernel

end ToolContract
