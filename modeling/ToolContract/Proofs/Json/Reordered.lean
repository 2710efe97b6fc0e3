import Mathlib.Data.List.Perm.Basic
import Mathlib.Data.List.Zip
import ToolContract.Proofs.Json.Objects

/-!
# Values up to the order of keys

Two values are the same up to the order of keys (`Json.Reordered`) if objects in them, at every depth,
have the same keys in any order and at each key values that are the same in this sense. Readers of a
key and erasing a key cannot tell such objects apart.
-/

set_option autoImplicit false

namespace ToolContract.Json

/-- The same value up to the order of the keys of objects, at any depth. Arrays keep their order. -/
inductive Reordered : Json → Json → Prop where
  | null : Reordered .null .null
  | bool (truth : Bool) : Reordered (.bool truth) (.bool truth)
  | num (number : Number) : Reordered (.num number) (.num number)
  | str (text : String) : Reordered (.str text) (.str text)
  | arr {items others : List Json} :
      items.length = others.length → (∀ pair ∈ items.zip others, Reordered pair.1 pair.2) →
      Reordered (.arr items) (.arr others)
  | obj {entries others : Entries Json} :
      entries.keys.Perm others.keys →
      (∀ entry ∈ entries, ∀ other ∈ others, entry.1 = other.1 → Reordered entry.2 other.2) →
      Reordered (.obj entries) (.obj others)

theorem reordered_obj_iff {entries others : Entries Json} :
    Reordered (.obj entries) (.obj others) ↔ entries.keys.Perm others.keys ∧
      ∀ entry ∈ entries, ∀ other ∈ others, entry.1 = other.1 → Reordered entry.2 other.2 := by
  constructor
  · intro same
    cases same with
    | obj keys values => exact ⟨keys, values⟩
  · exact fun same => .obj same.1 same.2

theorem Reordered.symm {value other : Json} (same : Reordered value other) :
    Reordered other value := by
  induction same with
  | null => exact .null
  | bool truth => exact .bool truth
  | num number => exact .num number
  | str text => exact .str text
  | @arr items others length _ ih =>
    refine .arr length.symm fun pair member => ih pair.swap ?_
    rw [← List.zip_swap] at member
    obtain ⟨swapped, listed, rfl⟩ := List.mem_map.mp member
    exact listed
  | obj keys _ ih =>
    exact .obj keys.symm fun other member entry listed key => ih entry listed other member key.symm

section

variable {entries others : Entries Json} (same : Reordered (.obj entries) (.obj others))
include same

theorem Reordered.distinct_entries (distinct : entries.Distinct) : others.Distinct :=
  (reordered_obj_iff.mp same).1.nodup_iff.mp distinct

/-- Each entry has its partner under the same key. -/
theorem Reordered.exists_partner {entry : String × Json} (member : entry ∈ entries) :
    ∃ other ∈ others, entry.1 = other.1 ∧ Reordered entry.2 other.2 := by
  obtain ⟨keys, values⟩ := reordered_obj_iff.mp same
  have listed : entry.1 ∈ others.keys := keys.mem_iff.mp (Entries.mem_keys_of_mem member)
  obtain ⟨other, found, key⟩ := List.mem_map.mp listed
  exact ⟨other, found, key.symm, values entry member other found key.symm⟩

theorem Reordered.get? (key : String) :
    Option.Rel Reordered (entries.get? key) (others.get? key) := by
  obtain ⟨keys, values⟩ := reordered_obj_iff.mp same
  cases found : entries.get? key with
  | none =>
    have absent : key ∉ others.keys := by
      rw [← keys.mem_iff]
      exact Entries.get?_eq_none_iff.mp found
    rw [Entries.get?_eq_none_iff.mpr absent]
    exact .none
  | some value =>
    have listed := Entries.mem_of_get? found
    obtain ⟨other, otherFound⟩ :=
      Entries.exists_get? (keys.mem_iff.mp (Entries.mem_keys_of_mem listed))
    rw [otherFound]
    exact .some (values _ listed _ (Entries.mem_of_get? otherFound) rfl)

theorem Reordered.erase (key : String) :
    Reordered (.obj (entries.erase key)) (.obj (others.erase key)) := by
  obtain ⟨keys, values⟩ := reordered_obj_iff.mp same
  apply Reordered.obj
  · rw [Entries.keys_erase, Entries.keys_erase]
    exact keys.filter _
  · intro entry member other listed
    exact values entry (Entries.mem_erase_iff.mp member).1 other (Entries.mem_erase_iff.mp listed).1

end

theorem Reordered.text?_eq {value other : Json} (same : Reordered value other) :
    value.text? = other.text? := by
  cases same <;> rfl

end ToolContract.Json
