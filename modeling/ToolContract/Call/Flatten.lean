import ToolContract.Json
import ToolContract.Schema.Discriminator

/-!
# Flattening oneof wrappers

A wrapper is an entry whose key ends in the suffix of oneof properties and whose value is an object
that names a member under the discriminator. Flattening puts the member in its place: the value the
wrapper holds under the member's name if it holds one, else the wrapper without its discriminator.
A promoted member displaces entries of its own name, and entries that look like wrappers but name
no member are left alone.

A promoted member can itself be a wrapper, and flattening the value of an entry can make the entry
a wrapper, so the rounds repeat. Each round with a wrapper leaves fewer values than it found, which
is why the repetition ends.
-/

set_option autoImplicit false

namespace ToolContract

def isOneofKey (key : String) : Bool :=
  oneofSuffix.toList.isSuffixOf key.toList

/-- The member that a wrapper names; an entry that is no wrapper names none. -/
def wrapperMember? (entry : String × Json) : Option String :=
  if isOneofKey entry.1 then
    match entry.2 with
    | .obj content => (Entries.get? discriminatorKey content).bind Json.text?
    | _ => none
  else none

def promoted (member : String) : Json → Json
  | .obj content =>
    match Entries.get? member content with
    | some value => value
    | none => .obj (Entries.erase discriminatorKey content)
  | value => value

def hasWrapper (entries : Entries Json) : Bool :=
  entries.any fun entry => (wrapperMember? entry).isSome

namespace Flatten

/-- Takes one entry after those done, which stand in reverse order: a wrapper becomes its member
and displaces an earlier entry of that name, and an entry of a name that some wrapper names is
dropped. -/
def step (members : List String) (done : Entries Json) (entry : String × Json) : Entries Json :=
  match wrapperMember? entry with
  | some member => (member, promoted member entry.2) :: done.erase member
  | none => if entry.1 ∈ members then done else entry :: done

/-- One round: every wrapper of an object becomes its member, in its place. -/
def round (entries : Entries Json) : Entries Json :=
  (entries.foldl (step (entries.filterMap wrapperMember?)) []).reverse

/-! ## A round with a wrapper leaves fewer values -/

private theorem sizeEntries_append (left right : Entries Json) :
    Json.sizeEntries (left ++ right) = Json.sizeEntries left + Json.sizeEntries right := by
  induction left with
  | nil => simp [Json.sizeEntries]
  | cons entry rest ih =>
    rw [List.cons_append, Json.sizeEntries, ih, Json.sizeEntries, Nat.add_assoc]

private theorem sizeEntries_reverse (entries : Entries Json) :
    Json.sizeEntries entries.reverse = Json.sizeEntries entries := by
  induction entries with
  | nil => rfl
  | cons entry rest ih =>
    rw [List.reverse_cons, sizeEntries_append, ih, Nat.add_comm]
    simp [Json.sizeEntries]

theorem sizeEntries_erase_le (key : String) (entries : Entries Json) :
    Json.sizeEntries (entries.erase key) ≤ Json.sizeEntries entries := by
  induction entries with
  | nil => simp [Entries.erase]
  | cons entry rest ih =>
    rcases entry with ⟨name, value⟩
    by_cases same : name = key
    · simp only [Entries.erase, same, ne_eq, not_true_eq_false, decide_false,
        Bool.false_eq_true, not_false_eq_true, List.filter_cons_of_neg, Json.sizeEntries] at ih ⊢
      omega
    · simp only [Entries.erase, ne_eq, same, not_false_eq_true, decide_true,
        List.filter_cons_of_pos, Json.sizeEntries] at ih ⊢
      omega

theorem sizeEntries_erase_add_le {key : String} {value : Json} {entries : Entries Json}
    (found : entries.get? key = some value) :
    Json.sizeEntries (entries.erase key) + value.size ≤ Json.sizeEntries entries := by
  induction entries with
  | nil => simp at found
  | cons entry rest ih =>
    rcases entry with ⟨name, first⟩
    by_cases same : name = key
    · rw [Entries.get?_cons, if_pos same] at found
      have shrink := sizeEntries_erase_le key rest
      simp only [Option.some.injEq] at found
      simp only [Entries.erase, same, ne_eq, not_true_eq_false, decide_false,
        Bool.false_eq_true, not_false_eq_true, List.filter_cons_of_neg, Json.sizeEntries]
        at shrink ⊢
      rw [found]
      omega
    · rw [Entries.get?_cons, if_neg same] at found
      have shrink := ih found
      simp only [Entries.erase, ne_eq, same, not_false_eq_true, decide_true,
        List.filter_cons_of_pos, Json.sizeEntries] at shrink ⊢
      omega

private theorem size_le_of_get? {key : String} {value : Json} {entries : Entries Json}
    (found : entries.get? key = some value) : value.size ≤ Json.sizeEntries entries :=
  Json.size_le_sizeEntries (Entries.mem_of_get? found)

private theorem size_promoted_lt {entry : String × Json} {member : String}
    (wrapper : wrapperMember? entry = some member) :
    (promoted member entry.2).size < entry.2.size := by
  rcases entry with ⟨key, value⟩
  simp only [wrapperMember?] at wrapper
  split at wrapper
  · split at wrapper
    · obtain ⟨name, found, text⟩ := Option.bind_eq_some_iff.mp wrapper
      simp only [promoted]
      split
      · rename_i nested held
        have := size_le_of_get? held
        simp only [Json.size]
        omega
      · have := sizeEntries_erase_add_le found
        have := name.size_pos
        simp only [Json.size]
        omega
    · simp at wrapper
  · simp at wrapper

private theorem sizeEntries_step_le (members : List String) (done : Entries Json)
    (entry : String × Json) :
    Json.sizeEntries (step members done entry) ≤ Json.sizeEntries done + entry.2.size := by
  simp only [step]
  split
  · rename_i member wrapper
    have := size_promoted_lt wrapper
    have := sizeEntries_erase_le member done
    simp only [Json.sizeEntries]
    omega
  · split
    · omega
    · simp only [Json.sizeEntries]
      omega

private theorem sizeEntries_foldl_le (members : List String) (entries done : Entries Json) :
    Json.sizeEntries (entries.foldl (step members) done) ≤
      Json.sizeEntries done + Json.sizeEntries entries := by
  induction entries generalizing done with
  | nil => simp [Json.sizeEntries]
  | cons entry rest ih =>
    have := ih (step members done entry)
    have := sizeEntries_step_le members done entry
    simp only [List.foldl_cons, Json.sizeEntries]
    omega

private theorem sizeEntries_foldl_lt (members : List String) (entries done : Entries Json)
    (wrapper : hasWrapper entries = true) :
    Json.sizeEntries (entries.foldl (step members) done) <
      Json.sizeEntries done + Json.sizeEntries entries := by
  induction entries generalizing done with
  | nil => simp [hasWrapper] at wrapper
  | cons entry rest ih =>
    simp only [List.foldl_cons, Json.sizeEntries]
    cases named : wrapperMember? entry with
    | some member =>
      have := sizeEntries_foldl_le members rest (step members done entry)
      have := size_promoted_lt named
      have := sizeEntries_erase_le member done
      have : Json.sizeEntries (step members done entry) <
          Json.sizeEntries done + entry.2.size := by
        simp only [step, named, Json.sizeEntries]
        omega
      omega
    | none =>
      have later : hasWrapper rest = true := by
        simpa [hasWrapper, named] using wrapper
      have := ih (step members done entry) later
      have := sizeEntries_step_le members done entry
      omega

theorem sizeEntries_round_lt {entries : Entries Json} (wrapper : hasWrapper entries = true) :
    Json.sizeEntries (round entries) < Json.sizeEntries entries := by
  have := sizeEntries_foldl_lt (entries.filterMap wrapperMember?) entries [] wrapper
  simp only [round, sizeEntries_reverse]
  simpa [Json.sizeEntries] using this

/-! ## Rounds until no wrapper is left -/

def rounds (entries : Entries Json) : Entries Json :=
  if _ : hasWrapper entries = true then rounds (round entries) else entries
termination_by Json.sizeEntries entries
decreasing_by exact sizeEntries_round_lt ‹_›

theorem rounds_of_hasWrapper {entries : Entries Json} (wrapper : hasWrapper entries = true) :
    rounds entries = rounds (round entries) := by
  rw [rounds, dif_pos wrapper]

theorem rounds_of_not_hasWrapper {entries : Entries Json}
    (plain : hasWrapper entries = false) : rounds entries = entries := by
  rw [rounds, dif_neg (by simp [plain])]

theorem hasWrapper_rounds (entries : Entries Json) : hasWrapper (rounds entries) = false := by
  fun_induction rounds entries with
  | case1 entries wrapper ih => exact ih
  | case2 entries plain => simpa using plain

theorem sizeEntries_rounds_le (entries : Entries Json) :
    Json.sizeEntries (rounds entries) ≤ Json.sizeEntries entries := by
  fun_induction rounds entries with
  | case1 entries wrapper ih =>
    have := sizeEntries_round_lt wrapper
    omega
  | case2 entries plain => omega

private theorem rounds_eq_or_sizeEntries_lt (entries : Entries Json) :
    rounds entries = entries ∨ Json.sizeEntries (rounds entries) < Json.sizeEntries entries := by
  cases wrapper : hasWrapper entries with
  | false => exact .inl (rounds_of_not_hasWrapper wrapper)
  | true =>
    have := sizeEntries_round_lt wrapper
    have := sizeEntries_rounds_le (round entries)
    rw [rounds_of_hasWrapper wrapper]
    omega

/-! ## Flattening at every depth -/

abbrev Shrunk (old : Json) : Type :=
  { result : Json // result = old ∨ result.size < old.size }

theorem map_entries_eq_or_lt (entries : Entries Json)
    (shrink : (entry : String × Json) → entry ∈ entries → Shrunk entry.2) :
    (entries.attach.map fun entry => (entry.val.1, (shrink entry.val entry.property).val)) =
        entries ∨
      Json.sizeEntries
        (entries.attach.map fun entry => (entry.val.1, (shrink entry.val entry.property).val)) <
        Json.sizeEntries entries := by
  induction entries with
  | nil => exact .inl rfl
  | cons entry rest ih =>
    have first := (shrink entry List.mem_cons_self).property
    have later := ih fun entry member => shrink entry (List.mem_cons_of_mem _ member)
    simp only [List.attach_cons, List.map_cons, List.map_map, Function.comp_def,
      Json.sizeEntries, List.cons.injEq]
    rcases first with same | less <;> rcases later with rest_same | rest_less
    · exact .inl ⟨by rw [same], rest_same⟩
    · rw [same]
      exact .inr (Nat.add_lt_add_left rest_less _)
    · rw [rest_same]
      exact .inr (Nat.add_lt_add_right less _)
    · exact .inr (Nat.add_lt_add less rest_less)

private theorem map_items_eq_or_lt (items : List Json)
    (shrink : (item : Json) → item ∈ items → Shrunk item) :
    (items.attach.map fun item => (shrink item.val item.property).val) = items ∨
      Json.sizeItems (items.attach.map fun item => (shrink item.val item.property).val) <
        Json.sizeItems items := by
  induction items with
  | nil => exact .inl rfl
  | cons item rest ih =>
    have first := (shrink item List.mem_cons_self).property
    have later := ih fun item member => shrink item (List.mem_cons_of_mem _ member)
    simp only [List.attach_cons, List.map_cons, List.map_map, Function.comp_def,
      Json.sizeItems, List.cons.injEq]
    rcases first with same | less <;> rcases later with rest_same | rest_less
    · exact .inl ⟨by rw [same], rest_same⟩
    · rw [same]
      exact .inr (Nat.add_lt_add_left rest_less _)
    · rw [rest_same]
      exact .inr (Nat.add_lt_add_right less _)
    · exact .inr (Nat.add_lt_add less rest_less)

def shrinkEntries (entries : Entries Json)
    (shrink : (entry : String × Json) → entry ∈ entries → Shrunk entry.2) :
    { flat : Entries Json // flat = entries ∨ Json.sizeEntries flat < Json.sizeEntries entries } :=
  ⟨entries.attach.map fun entry => (entry.val.1, (shrink entry.val entry.property).val),
    map_entries_eq_or_lt entries shrink⟩

def shrinkItems (items : List Json) (shrink : (item : Json) → item ∈ items → Shrunk item) :
    { flat : List Json // flat = items ∨ Json.sizeItems flat < Json.sizeItems items } :=
  ⟨items.attach.map fun item => (shrink item.val item.property).val,
    map_items_eq_or_lt items shrink⟩

/-- Entries that have no wrapper after the rounds and one after their values were flattened are
fewer than before. -/
theorem sizeEntries_lt_of_hasWrapper {entries flat : Entries Json}
    (shrunk : flat = rounds entries ∨ Json.sizeEntries flat < Json.sizeEntries (rounds entries))
    (wrapper : hasWrapper flat = true) : Json.sizeEntries flat < Json.sizeEntries entries := by
  have := sizeEntries_rounds_le entries
  rcases shrunk with same | less
  · rw [same, hasWrapper_rounds] at wrapper
    contradiction
  · omega

private theorem obj_eq_or_size_lt {entries flat : Entries Json}
    (shrunk : flat = rounds entries ∨ Json.sizeEntries flat < Json.sizeEntries (rounds entries)) :
    Json.obj flat = .obj entries ∨ (Json.obj flat).size < (Json.obj entries).size := by
  simp only [Json.size]
  rcases rounds_eq_or_sizeEntries_lt entries with unchanged | fewer <;>
    rcases shrunk with same | less
  · exact .inl (by rw [same, unchanged])
  · rw [unchanged] at less
    exact .inr (Nat.add_lt_add_left less 1)
  · rw [same]
    exact .inr (Nat.add_lt_add_left fewer 1)
  · exact .inr (Nat.add_lt_add_left (Nat.lt_trans less fewer) 1)

private theorem size_lt_of_again {entries flat : Entries Json} {again : Json}
    (shrunk : again = .obj flat ∨ again.size < (Json.obj flat).size)
    (fewer : Json.sizeEntries flat < Json.sizeEntries entries) :
    again.size < (Json.obj entries).size := by
  simp only [Json.size] at shrunk ⊢
  rcases shrunk with same | less
  · rw [same]
    exact Nat.add_lt_add_left fewer 1
  · exact Nat.lt_trans less (Nat.add_lt_add_left fewer 1)

private theorem arr_eq_or_size_lt {items flat : List Json}
    (shrunk : flat = items ∨ Json.sizeItems flat < Json.sizeItems items) :
    Json.arr flat = .arr items ∨ (Json.arr flat).size < (Json.arr items).size := by
  rcases shrunk with same | less
  · exact .inl (by rw [same])
  · exact .inr (Nat.add_lt_add_left less 1)

/-- Flattens a value: an object by rounds over its entries and then in its values, all over again
if that made an entry a wrapper; an array in its items. -/
def shrink : (old : Json) → Shrunk old
  | .obj entries =>
    let flat := shrinkEntries (rounds entries) fun entry _member => shrink entry.2
    have smaller := obj_eq_or_size_lt flat.property
    if wrapper : hasWrapper flat.val = true then
      have fewer := sizeEntries_lt_of_hasWrapper flat.property wrapper
      let again := shrink (.obj flat.val)
      ⟨again.val, .inr (size_lt_of_again again.property fewer)⟩
    else ⟨.obj flat.val, smaller⟩
  | .arr items =>
    let flat := shrinkItems items fun item _member => shrink item
    ⟨.arr flat.val, arr_eq_or_size_lt flat.property⟩
  | .null => ⟨.null, .inl rfl⟩
  | .bool truth => ⟨.bool truth, .inl rfl⟩
  | .num number => ⟨.num number, .inl rfl⟩
  | .str text => ⟨.str text, .inl rfl⟩
termination_by old => old.size
decreasing_by
  all_goals simp only [Json.size]
  all_goals first
    | exact Nat.add_lt_add_left fewer 1
    | exact Nat.lt_one_add_iff.mpr
        (Nat.le_trans (Json.size_le_sizeEntries _member) (sizeEntries_rounds_le entries))
    | exact Nat.lt_one_add_iff.mpr (Json.size_le_sizeItems _member)

end Flatten

/-- The value with every oneof wrapper in it, at any depth, replaced by its member. -/
def Json.flatten (value : Json) : Json :=
  (Flatten.shrink value).val

namespace Json

/-! ## The equations of flattening -/

/-- An object is flattened by its rounds and in its values, until that makes no entry a wrapper. -/
theorem flatten_obj (entries : Entries Json) :
    flatten (.obj entries) =
      let flat : Entries Json :=
        (Flatten.rounds entries).map fun entry => (entry.1, entry.2.flatten)
      if hasWrapper flat then flatten (.obj flat) else .obj flat := by
  rw [flatten, Flatten.shrink]
  simp only [Flatten.shrinkEntries]
  have plain : ((Flatten.rounds entries).attach.map fun entry =>
      (entry.val.1, (Flatten.shrink entry.val.2).val)) =
      (Flatten.rounds entries).map fun entry => (entry.1, entry.2.flatten) :=
    @List.attach_map_val _ _ (Flatten.rounds entries) fun entry => (entry.1, entry.2.flatten)
  by_cases wrapper : hasWrapper
      ((Flatten.rounds entries).map fun entry => (entry.1, entry.2.flatten)) = true
  · simp only [plain, dif_pos wrapper, if_pos wrapper]
    rw [plain]
    rfl
  · simp only [plain, dif_neg wrapper, if_neg wrapper]

theorem flatten_arr (items : List Json) : flatten (.arr items) = .arr (items.map flatten) := by
  rw [flatten, Flatten.shrink]
  simp [Flatten.shrinkItems, flatten]

@[simp] theorem flatten_null : flatten .null = .null := by
  rw [flatten, Flatten.shrink]

@[simp] theorem flatten_bool (truth : Bool) : flatten (.bool truth) = .bool truth := by
  rw [flatten, Flatten.shrink]

@[simp] theorem flatten_num (number : Number) : flatten (.num number) = .num number := by
  rw [flatten, Flatten.shrink]

@[simp] theorem flatten_str (text : String) : flatten (.str text) = .str text := by
  rw [flatten, Flatten.shrink]

theorem flatten_eq_or_size_lt (value : Json) :
    value.flatten = value ∨ value.flatten.size < value.size :=
  (Flatten.shrink value).property

end Json
end ToolContract
