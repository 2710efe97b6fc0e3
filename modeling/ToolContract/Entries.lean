/-!
# Ordered entries

An object or a table of named values is the list of its entries, in the order in which they were
first written. Reading a key finds the first entry that carries it. Writing a key that is present
keeps the entry's position; writing a new key appends. Erasing keeps the order of what is left.

No operation assumes that keys are pairwise different; `Distinct` states it where a law needs it.
-/

set_option autoImplicit false

namespace ToolContract

abbrev Entries (α : Type) := List (String × α)

namespace Entries

variable {α : Type}

def keys (entries : Entries α) : List String :=
  entries.map Prod.fst

def get? (key : String) : Entries α → Option α
  | [] => none
  | (name, value) :: rest => if name = key then some value else get? key rest

def contains (key : String) (entries : Entries α) : Bool :=
  entries.any fun entry => entry.1 = key

/-- Writes `value` under `key`: in place if the key is present, else at the end. -/
def put (key : String) (value : α) : Entries α → Entries α
  | [] => [(key, value)]
  | (name, previous) :: rest =>
    if name = key then (name, value) :: rest else (name, previous) :: put key value rest

def erase (key : String) (entries : Entries α) : Entries α :=
  entries.filter fun entry => entry.1 ≠ key

def Distinct (entries : Entries α) : Prop :=
  entries.keys.Nodup

instance (entries : Entries α) : Decidable entries.Distinct :=
  inferInstanceAs (Decidable entries.keys.Nodup)

/-! ## Laws of the operations, through `get?` and `keys` -/

@[simp] theorem get?_nil (key : String) : get? key ([] : Entries α) = none := rfl

theorem get?_cons (key name : String) (value : α) (rest : Entries α) :
    get? key ((name, value) :: rest) = if name = key then some value else get? key rest := rfl

theorem contains_iff {key : String} {entries : Entries α} :
    contains key entries = true ↔ key ∈ entries.keys := by
  simp [contains, keys]

theorem get?_eq_none_iff {key : String} {entries : Entries α} :
    get? key entries = none ↔ key ∉ entries.keys := by
  induction entries with
  | nil => simp [keys]
  | cons entry rest ih =>
    rcases entry with ⟨name, value⟩
    by_cases same : name = key
    · simp [get?_cons, keys, same]
    · have other : key ≠ name := fun equal => same equal.symm
      simp [get?_cons, keys, same, other, ih]

theorem exists_get? {key : String} {entries : Entries α} (member : key ∈ entries.keys) :
    ∃ value, get? key entries = some value := by
  cases found : get? key entries with
  | none => exact absurd member (get?_eq_none_iff.mp found)
  | some value => exact ⟨value, rfl⟩

theorem mem_of_get? {key : String} {value : α} {entries : Entries α}
    (found : get? key entries = some value) : (key, value) ∈ entries := by
  induction entries with
  | nil => simp at found
  | cons entry rest ih =>
    rcases entry with ⟨name, first⟩
    by_cases same : name = key
    · simp [get?_cons, same] at found
      simp [same, found]
    · rw [get?_cons, if_neg same] at found
      exact List.mem_cons_of_mem _ (ih found)

theorem get?_put (key other : String) (value : α) (entries : Entries α) :
    get? other (put key value entries) =
      if key = other then some value else get? other entries := by
  induction entries with
  | nil => simp [put, get?_cons]
  | cons entry rest ih =>
    rcases entry with ⟨name, previous⟩
    by_cases same : name = key
    · subst same
      simp only [put, if_pos, get?_cons]
      split <;> rfl
    · simp only [put, same, if_false, get?_cons, ih]
      by_cases here : name = other
      · simp [here, show ¬ key = other from fun equal => same (here.trans equal.symm)]
      · simp [here]

theorem keys_put (key : String) (value : α) (entries : Entries α) :
    (put key value entries).keys =
      if contains key entries then entries.keys else entries.keys ++ [key] := by
  induction entries with
  | nil => simp [put, contains, keys]
  | cons entry rest ih =>
    rcases entry with ⟨name, previous⟩
    by_cases same : name = key
    · simp [put, same, contains, keys]
    · simp only [put, same, if_false]
      have tail : contains key ((name, previous) :: rest) = contains key rest := by
        simp [contains, same]
      rw [tail]
      simp only [keys, List.map_cons] at ih ⊢
      rw [ih]
      split <;> simp

theorem get?_erase (key other : String) (entries : Entries α) :
    get? other (erase key entries) = if key = other then none else get? other entries := by
  induction entries with
  | nil => simp [erase]
  | cons entry rest ih =>
    rcases entry with ⟨name, value⟩
    simp only [erase] at ih
    by_cases same : name = key
    · by_cases here : key = other
      · simp [erase, same, here] at ih ⊢
        simpa [here] using ih
      · simp [erase, same, here, get?_cons] at ih ⊢
        simpa [here] using ih
    · by_cases here : key = other
      · have different : ¬ name = other := fun equal => same (equal.trans here.symm)
        simp [erase, get?_cons, here, different] at ih ⊢
        simpa [here] using ih
      · simp [erase, get?_cons, same, here] at ih ⊢
        simp [ih]

theorem keys_erase (key : String) (entries : Entries α) :
    (erase key entries).keys = entries.keys.filter (· ≠ key) := by
  simp [erase, keys, List.filter_map, Function.comp_def]

@[simp] theorem keys_nil : keys ([] : Entries α) = [] := rfl

@[simp] theorem keys_cons (name : String) (value : α) (rest : Entries α) :
    keys ((name, value) :: rest) = name :: keys rest := rfl

@[simp] theorem keys_append (left right : Entries α) :
    keys (left ++ right) = left.keys ++ right.keys := by
  simp [keys]

theorem keys_map {β : Type} (function : α → β) (entries : Entries α) :
    keys (entries.map fun entry => (entry.1, function entry.2)) = entries.keys := by
  simp [keys]

theorem get?_map {β : Type} (function : α → β) (key : String) (entries : Entries α) :
    get? key (entries.map fun entry => (entry.1, function entry.2)) =
      (get? key entries).map function := by
  induction entries with
  | nil => rfl
  | cons entry rest ih =>
    rcases entry with ⟨name, value⟩
    rw [List.map_cons, get?_cons, get?_cons, ih]
    split <;> rfl

theorem mem_keys_of_mem {entry : String × α} {entries : Entries α} (member : entry ∈ entries) :
    entry.1 ∈ entries.keys :=
  List.mem_map.mpr ⟨entry, member, rfl⟩

theorem get?_append (key : String) (left right : Entries α) :
    get? key (left ++ right) = (get? key left).or (get? key right) := by
  induction left with
  | nil => rfl
  | cons entry rest ih =>
    rcases entry with ⟨name, value⟩
    rw [List.cons_append, get?_cons, get?_cons, ih]
    split <;> rfl

theorem get?_of_mem {key : String} {value : α} {entries : Entries α} (distinct : entries.Distinct)
    (member : (key, value) ∈ entries) : get? key entries = some value := by
  induction entries with
  | nil => simp at member
  | cons entry rest ih =>
    rcases entry with ⟨name, first⟩
    obtain ⟨absent, restDistinct⟩ := List.nodup_cons.mp distinct
    rw [get?_cons]
    rcases List.mem_cons.mp member with same | later
    · obtain ⟨rfl, rfl⟩ := Prod.mk.inj same
      rw [if_pos rfl]
    · have different : name ≠ key := by
        rintro rfl
        have present := mem_keys_of_mem later
        exact absent present
      rw [if_neg different]
      exact ih restDistinct later

theorem Distinct.eq_of_key {entries : Entries α} (distinct : entries.Distinct)
    {left right : String × α} (leftMember : left ∈ entries) (rightMember : right ∈ entries)
    (same : left.1 = right.1) : left = right := by
  have found := get?_of_mem distinct leftMember
  rw [same, get?_of_mem distinct rightMember] at found
  exact Prod.ext same (Option.some.inj found).symm

theorem put_append {key : String} {left : Entries α} (absent : key ∉ left.keys) (value : α)
    (right : Entries α) : put key value (left ++ right) = left ++ put key value right := by
  induction left with
  | nil => rfl
  | cons entry rest ih =>
    rcases entry with ⟨name, previous⟩
    rw [keys_cons, List.mem_cons, not_or] at absent
    rw [List.cons_append, put, if_neg (Ne.symm absent.1), ih absent.2, List.cons_append]

theorem erase_append (key : String) (left right : Entries α) :
    erase key (left ++ right) = erase key left ++ erase key right := by
  simp [erase]

theorem mem_erase_iff {key : String} {entry : String × α} {entries : Entries α} :
    entry ∈ erase key entries ↔ entry ∈ entries ∧ entry.1 ≠ key := by
  simp [erase, List.mem_filter]

theorem mem_keys_erase_iff {key name : String} {entries : Entries α} :
    name ∈ (erase key entries).keys ↔ name ∈ entries.keys ∧ name ≠ key := by
  simp [keys_erase, List.mem_filter]

theorem Distinct.erase {entries : Entries α} (distinct : entries.Distinct) (key : String) :
    (entries.erase key).Distinct := by
  rw [Distinct, keys_erase]
  exact distinct.filter _

theorem erase_of_not_mem {key : String} {entries : Entries α} (absent : key ∉ entries.keys) :
    erase key entries = entries := by
  rw [erase, List.filter_eq_self]
  intro entry member
  simpa using fun same : entry.1 = key => absent (same ▸ mem_keys_of_mem member)

theorem erase_cons_self {key : String} {value : α} {entries : Entries α}
    (absent : key ∉ entries.keys) : erase key ((key, value) :: entries) = entries := by
  have rest := erase_of_not_mem absent
  rw [erase] at rest ⊢
  rw [List.filter_cons_of_neg (by simp), rest]

end Entries

end ToolContract
