import ToolContract.Call.Flatten

/-!
# Conditions on every object of a value

A condition on the entries of objects is lifted to all objects in a value. Two conditions matter: a
value as it is parsed has no key twice in one object (`Json.Distinct`), and a plain value has no
key of the form of a oneof property (`Json.Plain`).
-/

set_option autoImplicit false

namespace ToolContract.Json

/-- The entries of every object in the value, at any depth, satisfy the condition. -/
inductive AllObjects (condition : Entries Json → Prop) : Json → Prop where
  | null : AllObjects condition .null
  | bool (truth : Bool) : AllObjects condition (.bool truth)
  | num (number : Number) : AllObjects condition (.num number)
  | str (text : String) : AllObjects condition (.str text)
  | arr {items : List Json} :
      (∀ item ∈ items, AllObjects condition item) → AllObjects condition (.arr items)
  | obj {entries : Entries Json} :
      condition entries → (∀ entry ∈ entries, AllObjects condition entry.2) →
      AllObjects condition (.obj entries)

abbrev Distinct (value : Json) : Prop :=
  value.AllObjects Entries.Distinct

/-- No key of the entries has the form of a oneof property. -/
def PlainKeys (entries : Entries Json) : Prop :=
  ∀ key ∈ entries.keys, isOneofKey key = false

instance (entries : Entries Json) : Decidable (PlainKeys entries) :=
  inferInstanceAs (Decidable (∀ key ∈ entries.keys, isOneofKey key = false))

/-- No object in the value has a key of the form of a oneof property. -/
abbrev Plain (value : Json) : Prop :=
  value.AllObjects PlainKeys

section

variable {condition other : Entries Json → Prop}

theorem AllObjects.imp {value : Json} (all : value.AllObjects condition)
    (weaker : ∀ entries, condition entries → other entries) : value.AllObjects other := by
  induction all with
  | null => exact .null
  | bool truth => exact .bool truth
  | num number => exact .num number
  | str text => exact .str text
  | arr _ ih => exact .arr ih
  | obj held _ ih => exact .obj (weaker _ held) ih

theorem allObjects_arr_iff {items : List Json} :
    AllObjects condition (.arr items) ↔ ∀ item ∈ items, AllObjects condition item := by
  constructor
  · intro all
    cases all with
    | arr inside => exact inside
  · exact .arr

theorem allObjects_obj_iff {entries : Entries Json} :
    AllObjects condition (.obj entries) ↔
      condition entries ∧ ∀ entry ∈ entries, AllObjects condition entry.2 := by
  constructor
  · intro all
    cases all with
    | obj held inside => exact ⟨held, inside⟩
  · exact fun all => .obj all.1 all.2

end

theorem Distinct.erase {entries : Entries Json} (distinct : (Json.obj entries).Distinct)
    (key : String) : (Json.obj (entries.erase key)).Distinct := by
  obtain ⟨keys, values⟩ := allObjects_obj_iff.mp distinct
  exact .obj (keys.erase key) fun entry member => values entry (Entries.mem_erase_iff.mp member).1

end ToolContract.Json
