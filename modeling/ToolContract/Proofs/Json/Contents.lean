import Mathlib.Data.List.Flatten
import ToolContract.Proofs.Json.Objects

/-!
# What a value contains

The scalars of a value (`Json.leaves`) and the entries of all objects in it (`Json.entriesWithin`), at
any depth and in document order.
-/

set_option autoImplicit false

namespace ToolContract.Json

mutual

/-- The values at any depth that are neither arrays nor objects. -/
def leaves : Json → List Json
  | .arr items => leavesOfItems items
  | .obj entries => leavesOfEntries entries
  | value => [value]

def leavesOfItems : List Json → List Json
  | [] => []
  | item :: rest => item.leaves ++ leavesOfItems rest

def leavesOfEntries : List (String × Json) → List Json
  | [] => []
  | (_, value) :: rest => value.leaves ++ leavesOfEntries rest

end

mutual

/-- The entries of the objects at any depth, each before those in its value. -/
def entriesWithin : Json → Entries Json
  | .arr items => entriesWithinItems items
  | .obj entries => entriesWithinEntries entries
  | _ => []

def entriesWithinItems : List Json → Entries Json
  | [] => []
  | item :: rest => item.entriesWithin ++ entriesWithinItems rest

def entriesWithinEntries : List (String × Json) → Entries Json
  | [] => []
  | (key, value) :: rest => (key, value) :: value.entriesWithin ++ entriesWithinEntries rest

end

/-- The keys of the objects at any depth. -/
def keysWithin (value : Json) : List String :=
  value.entriesWithin.keys

/-- The texts that stand under the discriminator, at any depth. -/
def tagsWithin (value : Json) : List String :=
  value.entriesWithin.filterMap fun entry =>
    if entry.1 = discriminatorKey then entry.2.text? else none

/-! ## Arrays and objects -/

theorem leaves_arr (items : List Json) : (Json.arr items).leaves = items.flatMap leaves := by
  rw [leaves]
  induction items with
  | nil => rfl
  | cons item rest ih => rw [leavesOfItems, ih, List.flatMap_cons]

theorem leaves_obj (entries : Entries Json) :
    (Json.obj entries).leaves = entries.flatMap fun entry => entry.2.leaves := by
  rw [leaves]
  induction entries with
  | nil => rfl
  | cons entry rest ih => rw [leavesOfEntries, ih, List.flatMap_cons]

theorem mem_entriesWithin_arr {entry : String × Json} {items : List Json} :
    entry ∈ (Json.arr items).entriesWithin ↔ ∃ item ∈ items, entry ∈ item.entriesWithin := by
  rw [entriesWithin]
  induction items with
  | nil => simp [entriesWithinItems]
  | cons item rest ih => simp [entriesWithinItems, ih]

theorem mem_entriesWithin_obj {entry : String × Json} {entries : Entries Json} :
    entry ∈ (Json.obj entries).entriesWithin ↔
      ∃ outer ∈ entries, entry = outer ∨ entry ∈ outer.2.entriesWithin := by
  rw [entriesWithin]
  induction entries with
  | nil => simp [entriesWithinEntries]
  | cons outer rest ih => simp [entriesWithinEntries, ih, or_assoc]

theorem mem_tagsWithin_iff {value : Json} {text : String} :
    text ∈ value.tagsWithin ↔ (discriminatorKey, .str text) ∈ value.entriesWithin := by
  rw [tagsWithin, List.mem_filterMap]
  constructor
  · rintro ⟨⟨key, inner⟩, listed, found⟩
    split at found
    · rename_i same
      obtain rfl : key = discriminatorKey := same
      cases inner with
      | str other =>
        obtain rfl := Option.some.inj found
        exact listed
      | _ => cases found
    · cases found
  · exact fun listed => ⟨_, listed, rfl⟩

private theorem allObjects_of_entriesWithin {condition : String × Json → Prop} :
    ∀ value : Json, (∀ entry ∈ value.entriesWithin, condition entry) →
      value.AllObjects fun entries => ∀ entry ∈ entries, condition entry
  | .null, _ => .null
  | .bool truth, _ => .bool truth
  | .num number, _ => .num number
  | .str text, _ => .str text
  | .arr items, all => by
    refine .arr fun item member => allObjects_of_entriesWithin item fun entry inside => ?_
    exact all entry (mem_entriesWithin_arr.mpr ⟨item, member, inside⟩)
  | .obj entries, all => by
    refine .obj (fun entry member => ?_) fun outer member =>
      allObjects_of_entriesWithin outer.2 fun entry inside => ?_
    · exact all entry (mem_entriesWithin_obj.mpr ⟨entry, member, .inl rfl⟩)
    · exact all entry (mem_entriesWithin_obj.mpr ⟨outer, member, .inr inside⟩)
termination_by value => value.size
decreasing_by
  · exact size_lt_of_mem_items member
  · exact size_lt_of_mem_entries member

/-- A condition on single entries holds in every object if it holds of all entries within. -/
theorem allObjects_iff_entriesWithin {condition : String × Json → Prop} {value : Json} :
    value.AllObjects (fun entries => ∀ entry ∈ entries, condition entry) ↔
      ∀ entry ∈ value.entriesWithin, condition entry := by
  refine ⟨fun all => ?_, allObjects_of_entriesWithin value⟩
  induction all with
  | arr _ ih =>
    intro entry listed
    obtain ⟨item, member, inside⟩ := mem_entriesWithin_arr.mp listed
    exact ih item member entry inside
  | obj held _ ih =>
    intro entry listed
    obtain ⟨outer, member, rfl | inside⟩ := mem_entriesWithin_obj.mp listed
    · exact held entry member
    · exact ih outer member entry inside
  | _ => exact fun _ listed => absurd listed List.not_mem_nil

end ToolContract.Json
