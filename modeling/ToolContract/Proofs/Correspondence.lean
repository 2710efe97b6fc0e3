import Mathlib.Data.List.Forall2

/-!
# Lists that correspond item by item

What is read from a list, or compiled from one, comes out item by item in its order. An item on one
side has its partner on the other, at the same index.
-/

set_option autoImplicit false

namespace ToolContract

variable {α β γ : Type} {related : α → β → Prop} {lefts : List α} {rights : List β}

theorem exists_right_of_forall₂ (pairs : List.Forall₂ related lefts rights) {left : α}
    (member : left ∈ lefts) : ∃ right ∈ rights, related left right := by
  induction pairs with
  | nil => contradiction
  | cons first _ ih =>
    rcases List.mem_cons.mp member with rfl | later
    · exact ⟨_, List.mem_cons_self, first⟩
    · obtain ⟨right, listed, pair⟩ := ih later
      exact ⟨right, List.mem_cons_of_mem _ listed, pair⟩

theorem exists_left_of_forall₂ (pairs : List.Forall₂ related lefts rights) {right : β}
    (member : right ∈ rights) : ∃ left ∈ lefts, related left right := by
  obtain ⟨left, listed, pair⟩ := exists_right_of_forall₂ pairs.flip member
  exact ⟨left, listed, pair⟩

theorem exists_left_getElem? (pairs : List.Forall₂ related lefts rights) {index : Nat} {right : β}
    (found : rights[index]? = some right) : ∃ left, lefts[index]? = some left ∧ related left right := by
  induction pairs generalizing index with
  | nil => cases found
  | cons pair _ ih =>
    cases index with
    | zero =>
      obtain rfl := Option.some.inj found
      exact ⟨_, rfl, pair⟩
    | succ index => exact ih found

theorem exists_right_getElem? (pairs : List.Forall₂ related lefts rights) {index : Nat} {left : α}
    (found : lefts[index]? = some left) :
    ∃ right, rights[index]? = some right ∧ related left right :=
  exists_left_getElem? pairs.flip found

theorem flatMap_eq_of_forall₂ (pairs : List.Forall₂ related lefts rights) {first : α → List γ}
    {second : β → List γ} (same : ∀ left right, related left right → first left = second right) :
    lefts.flatMap first = rights.flatMap second := by
  induction pairs with
  | nil => rfl
  | cons pair _ ih => rw [List.flatMap_cons, List.flatMap_cons, same _ _ pair, ih]

theorem zipIdx_related_zip (pairs : List.Forall₂ related lefts rights) :
    List.Forall₂ (fun indexed pair => indexed.1 = pair.1 ∧ related pair.1 pair.2 ∧
      rights[indexed.2]? = some pair.2) lefts.zipIdx (lefts.zip rights) := by
  obtain ⟨length, each⟩ := List.forall₂_iff_get.mp pairs
  refine List.forall₂_iff_get.mpr ⟨by simp [length], fun index inLefts inRights => ?_⟩
  have left : index < lefts.length := by simpa using inLefts
  have right : index < rights.length := length ▸ left
  have pair := each index left right
  simp only [List.get_eq_getElem] at pair
  simp [pair]

theorem find?_related (pairs : List.Forall₂ related lefts rights) {first : α → Bool}
    {second : β → Bool} (same : ∀ left right, related left right → first left = second right) :
    Option.Rel related (lefts.find? first) (rights.find? second) := by
  induction pairs with
  | nil => exact .none
  | cons pair _ ih =>
    rw [List.find?_cons, List.find?_cons, same _ _ pair]
    split
    · exact .some pair
    · exact ih

end ToolContract
