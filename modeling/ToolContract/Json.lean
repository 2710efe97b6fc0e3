import ToolContract.Entries

/-!
# JSON values

A value keeps the order of its object entries, since the order of a contract's properties and of a
call's arguments is part of what this library promises. Numbers tell integers from decimals,
because a setting or an argument that asks for an integer refuses `1.0`.
-/

set_option autoImplicit false

namespace ToolContract

/-- A number as it was written: without a fraction and exponent, or as a decimal fraction. -/
inductive Number where
  | integer (value : Int)
  /-- The decimal `mantissa / 10 ^ places`, which is no integer to a reader that wants one. -/
  | decimal (mantissa : Int) (places : Nat)
  deriving DecidableEq, Repr, Inhabited

inductive Json where
  | null
  | bool (value : Bool)
  | num (value : Number)
  | str (text : String)
  | arr (items : List Json)
  | obj (entries : List (String × Json))
  deriving Repr, Inhabited

namespace Json

/-! ## Equality -/

mutual

def beq : Json → Json → Bool
  | .null, .null => true
  | .bool left, .bool right => left == right
  | .num left, .num right => left == right
  | .str left, .str right => left == right
  | .arr left, .arr right => beqItems left right
  | .obj left, .obj right => beqEntries left right
  | _, _ => false

def beqItems : List Json → List Json → Bool
  | [], [] => true
  | left :: lefts, right :: rights => beq left right && beqItems lefts rights
  | _, _ => false

def beqEntries : List (String × Json) → List (String × Json) → Bool
  | [], [] => true
  | (leftKey, left) :: lefts, (rightKey, right) :: rights =>
    leftKey == rightKey && beq left right && beqEntries lefts rights
  | _, _ => false

end

mutual

private theorem eq_of_beq : ∀ (left right : Json), beq left right = true → left = right
  | .null, right, same => by cases right <;> simp_all [beq]
  | .bool _, right, same => by cases right <;> simp_all [beq]
  | .num _, right, same => by cases right <;> simp_all [beq]
  | .str _, right, same => by cases right <;> simp_all [beq]
  | .arr left, right, same => by
    cases right with
    | arr right => rw [beq] at same; rw [eq_of_beqItems left right same]
    | _ => simp [beq] at same
  | .obj left, right, same => by
    cases right with
    | obj right => rw [beq] at same; rw [eq_of_beqEntries left right same]
    | _ => simp [beq] at same

private theorem eq_of_beqItems :
    ∀ (left right : List Json), beqItems left right = true → left = right
  | [], right, same => by cases right <;> simp_all [beqItems]
  | left :: lefts, right, same => by
    cases right with
    | nil => simp [beqItems] at same
    | cons right rights =>
      simp only [beqItems, Bool.and_eq_true] at same
      rw [eq_of_beq left right same.1, eq_of_beqItems lefts rights same.2]

private theorem eq_of_beqEntries :
    ∀ (left right : List (String × Json)), beqEntries left right = true → left = right
  | [], right, same => by cases right <;> simp_all [beqEntries]
  | (leftKey, left) :: lefts, right, same => by
    cases right with
    | nil => simp [beqEntries] at same
    | cons right rights =>
      rcases right with ⟨rightKey, right⟩
      simp only [beqEntries, Bool.and_eq_true, beq_iff_eq] at same
      rw [same.1.1, eq_of_beq left right same.1.2, eq_of_beqEntries lefts rights same.2]

end

mutual

private theorem beq_self : ∀ value : Json, beq value value = true
  | .null => by simp [beq]
  | .bool _ => by simp [beq]
  | .num _ => by simp [beq]
  | .str _ => by simp [beq]
  | .arr items => by simp [beq, beqItems_self items]
  | .obj entries => by simp [beq, beqEntries_self entries]

private theorem beqItems_self : ∀ items : List Json, beqItems items items = true
  | [] => by simp [beqItems]
  | item :: rest => by simp [beqItems, beq_self item, beqItems_self rest]

private theorem beqEntries_self :
    ∀ entries : List (String × Json), beqEntries entries entries = true
  | [] => by simp [beqEntries]
  | (_, value) :: rest => by simp [beqEntries, beq_self value, beqEntries_self rest]

end

private theorem beq_iff_eq {left right : Json} : beq left right = true ↔ left = right :=
  ⟨eq_of_beq left right, fun equal => equal ▸ beq_self left⟩

instance : DecidableEq Json := fun left right =>
  decidable_of_iff (beq left right = true) beq_iff_eq

/-! ## Reading a value -/

def text? : Json → Option String
  | .str text => some text
  | _ => none

def bool? : Json → Option Bool
  | .bool value => some value
  | _ => none

/-- The integer of an integer number; a decimal is none, even when it is whole. -/
def integer? : Json → Option Int
  | .num (.integer value) => some value
  | _ => none

def items? : Json → Option (List Json)
  | .arr items => some items
  | _ => none

def entries? : Json → Option (Entries Json)
  | .obj entries => some entries
  | _ => none

/-! ## Size -/

mutual

def size : Json → Nat
  | .arr items => 1 + sizeItems items
  | .obj entries => 1 + sizeEntries entries
  | _ => 1

def sizeItems : List Json → Nat
  | [] => 0
  | item :: rest => item.size + sizeItems rest

def sizeEntries : List (String × Json) → Nat
  | [] => 0
  | (_, value) :: rest => value.size + sizeEntries rest

end

theorem size_pos (value : Json) : 0 < value.size := by
  cases value <;> simp only [size] <;> omega

theorem size_le_sizeItems {item : Json} {items : List Json} (member : item ∈ items) :
    item.size ≤ sizeItems items := by
  induction items with
  | nil => simp at member
  | cons head rest ih =>
    rcases List.mem_cons.mp member with rfl | later
    · simp [sizeItems]
    · have := ih later
      simp only [sizeItems]
      omega

theorem size_le_sizeEntries {entry : String × Json} {entries : Entries Json}
    (member : entry ∈ entries) : entry.2.size ≤ sizeEntries entries := by
  induction entries with
  | nil => simp at member
  | cons head rest ih =>
    rcases List.mem_cons.mp member with rfl | later
    · simp [sizeEntries]
    · have := ih later
      simp only [sizeEntries]
      omega

theorem size_lt_of_mem_items {item : Json} {items : List Json} (member : item ∈ items) :
    item.size < (arr items).size := by
  have := size_le_sizeItems member
  simp only [size]
  omega

theorem size_lt_of_mem_entries {entry : String × Json} {entries : Entries Json}
    (member : entry ∈ entries) : entry.2.size < (obj entries).size := by
  have := size_le_sizeEntries member
  simp only [size]
  omega

end Json

end ToolContract
