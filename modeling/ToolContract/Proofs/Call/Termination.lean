import Mathlib.Data.List.Basic
import Mathlib.Logic.Function.Iterate
import Mathlib.Tactic.Choose
import ToolContract.Proofs.Call.Normal

/-!
# Flattening ends

Rounds over the entries of an object repeat until none is a wrapper, and they repeat together with
the flattening of the values until that makes no entry a wrapper. The number of discriminators need
not fall: what a wrapper holds under the discriminator is promoted like any other member. What falls
with each round that has a wrapper is the number of values in the object, and so a whole flattening
has fewer such rounds than there are values in what is flattened (`flattening_ends`).
-/

set_option autoImplicit false

namespace ToolContract

namespace Flatten

/-- Rounds until no wrapper is left, each listed with the entries that it starts from. -/
inductive Rounds : Entries Json → List (Entries Json) → Entries Json → Prop where
  | done {entries : Entries Json} (plain : hasWrapper entries = false) : Rounds entries [] entries
  | again {entries settled : Entries Json} {starts : List (Entries Json)}
      (wrapper : hasWrapper entries = true) (later : Rounds (round entries) starts settled) :
      Rounds entries (entries :: starts) settled

/-- The entries with what each of their values was flattened to. -/
def withValues (flat : String × Json → Json) (entries : Entries Json) : Entries Json :=
  entries.map fun entry => (entry.1, flat entry)

/-- One pass over an object: rounds over its entries, then the flattening of their values. -/
def pass (entries : Entries Json) : Entries Json :=
  Json.flattenValues (rounds entries)

end Flatten

open Flatten

/-- A run that flattens the first value to the last one, with the entries from which those of its
rounds start that have a wrapper. -/
inductive Flattening : Json → List (Entries Json) → Json → Prop where
  | null : Flattening .null [] .null
  | bool (truth : Bool) : Flattening (.bool truth) [] (.bool truth)
  | num (number : Number) : Flattening (.num number) [] (.num number)
  | str (text : String) : Flattening (.str text) [] (.str text)
  | arr {items : List Json} {starts : Json → List (Entries Json)} {flat : Json → Json}
      (inside : ∀ item ∈ items, Flattening item (starts item) (flat item)) :
      Flattening (.arr items) (items.flatMap starts) (.arr (items.map flat))
  | done {entries settled : Entries Json} {first : List (Entries Json)}
      {starts : String × Json → List (Entries Json)} {flat : String × Json → Json}
      (outside : Rounds entries first settled)
      (inside : ∀ entry ∈ settled, Flattening entry.2 (starts entry) (flat entry))
      (plain : hasWrapper (withValues flat settled) = false) :
      Flattening (.obj entries) (first ++ settled.flatMap starts) (.obj (withValues flat settled))
  | again {entries settled : Entries Json} {first later : List (Entries Json)}
      {starts : String × Json → List (Entries Json)} {flat : String × Json → Json}
      {result : Json}
      (outside : Rounds entries first settled)
      (inside : ∀ entry ∈ settled, Flattening entry.2 (starts entry) (flat entry))
      (wrapper : hasWrapper (withValues flat settled) = true)
      (rest : Flattening (.obj (withValues flat settled)) later result) :
      Flattening (.obj entries) (first ++ settled.flatMap starts ++ later) result

/-! ## The rounds of one pass -/

namespace Flatten.Rounds

variable {entries settled : Entries Json} {starts : List (Entries Json)}

private theorem exists_starts (entries : Entries Json) :
    ∃ starts, Rounds entries starts (rounds entries) := by
  fun_induction rounds entries with
  | case1 entries wrapper ih =>
    obtain ⟨starts, later⟩ := ih
    exact ⟨entries :: starts, .again wrapper later⟩
  | case2 entries plain => exact ⟨[], .done (by simpa using plain)⟩

private theorem settled_eq (run : Rounds entries starts settled) : settled = rounds entries := by
  induction run with
  | done plain => exact (rounds_of_not_hasWrapper plain).symm
  | again wrapper _ ih => rw [rounds_of_hasWrapper wrapper, ih]

private theorem starts_eq {others : List (Entries Json)} {other : Entries Json}
    (run : Rounds entries starts settled) (second : Rounds entries others other) :
    others = starts := by
  induction run generalizing others with
  | done plain =>
    cases second with
    | done => rfl
    | again wrapper _ => rw [plain] at wrapper; contradiction
  | again wrapper _ ih =>
    cases second with
    | done plain => rw [plain] at wrapper; contradiction
    | again _ later => rw [ih later]

private theorem hasWrapper_of_mem (run : Rounds entries starts settled) :
    ∀ start ∈ starts, hasWrapper start = true := by
  induction run with
  | done => exact List.forall_mem_nil _
  | again wrapper _ ih => exact List.forall_mem_cons.mpr ⟨wrapper, ih⟩

/-- Each round with a wrapper takes at least one value away. -/
theorem length_add_le (run : Rounds entries starts settled) :
    starts.length + Json.sizeEntries settled ≤ Json.sizeEntries entries := by
  induction run with
  | done => simp
  | again wrapper _ ih =>
    have := sizeEntries_round_lt wrapper
    rw [List.length_cons]
    omega

end Flatten.Rounds

namespace Flattening

variable {value flat : Json} {starts : List (Entries Json)}

/-! ## Every value has one run -/

private theorem exists_starts (value : Json) : ∃ starts, Flattening value starts value.flatten := by
  induction value using Json.flatten_induction with
  | null => rw [Json.flatten_null]; exact ⟨[], .null⟩
  | bool truth => rw [Json.flatten_bool]; exact ⟨[], .bool truth⟩
  | num number => rw [Json.flatten_num]; exact ⟨[], .num number⟩
  | str text => rw [Json.flatten_str]; exact ⟨[], .str text⟩
  | arr items ih =>
    choose! starts inside using ih
    rw [Json.flatten_arr]
    exact ⟨items.flatMap starts, .arr inside⟩
  | done entries ih plain =>
    obtain ⟨first, outside⟩ := Rounds.exists_starts entries
    choose! starts inside using ih
    rw [Json.flatten_obj_of_not_hasWrapper plain]
    exact ⟨first ++ (rounds entries).flatMap starts, .done outside inside plain⟩
  | again entries ih wrapper rest =>
    obtain ⟨first, outside⟩ := Rounds.exists_starts entries
    obtain ⟨later, rest⟩ := rest
    choose! starts inside using ih
    rw [Json.flatten_obj_of_hasWrapper wrapper]
    exact ⟨first ++ (rounds entries).flatMap starts ++ later,
      .again outside inside wrapper rest⟩

private theorem withValues_eq {entries settled : Entries Json} {flat : String × Json → Json}
    (outside : settled = rounds entries)
    (inside : ∀ entry ∈ settled, flat entry = entry.2.flatten) :
    withValues flat settled = pass entries := by
  subst outside
  exact List.map_congr_left fun entry member => by rw [inside entry member]

private theorem flat_eq (run : Flattening value starts flat) : flat = value.flatten := by
  induction run with
  | null => exact Json.flatten_null.symm
  | bool truth => exact (Json.flatten_bool truth).symm
  | num number => exact (Json.flatten_num number).symm
  | str text => exact (Json.flatten_str text).symm
  | arr _ ih => rw [Json.flatten_arr, List.map_congr_left ih]
  | done outside _ plain ih =>
    rw [withValues_eq outside.settled_eq ih] at plain ⊢
    exact (Json.flatten_obj_of_not_hasWrapper plain).symm
  | again outside _ wrapper _ ih result =>
    rw [withValues_eq outside.settled_eq ih] at wrapper result
    rw [result]
    exact (Json.flatten_obj_of_hasWrapper wrapper).symm

/-- What a pass comes to does not depend on the runs that flatten the values. -/
theorem withValues_eq_pass {entries settled : Entries Json} {first : List (Entries Json)}
    {starts : String × Json → List (Entries Json)} {flat : String × Json → Json}
    (outside : Rounds entries first settled)
    (inside : ∀ entry ∈ settled, Flattening entry.2 (starts entry) (flat entry)) :
    withValues flat settled = pass entries :=
  withValues_eq outside.settled_eq fun entry member => (inside entry member).flat_eq

private theorem starts_eq {others : List (Entries Json)} {other : Json}
    (run : Flattening value starts flat) (second : Flattening value others other) :
    others = starts := by
  induction run generalizing others other with
  | null | bool | num | str => cases second; rfl
  | arr _ ih =>
    cases second with
    | arr inside => exact List.flatMap_congr fun item member => ih item member (inside item member)
  -- after a pass both runs have the same entries, so they end or go on together
  | done outside inside plain ih =>
    rw [withValues_eq_pass outside inside] at plain
    cases second with
    | done around within _ =>
      obtain rfl := around.settled_eq.trans outside.settled_eq.symm
      rw [outside.starts_eq around,
        List.flatMap_congr fun entry member => ih entry member (within entry member)]
    | again around within wrapper _ =>
      rw [withValues_eq_pass around within, plain] at wrapper
      contradiction
  | again outside inside wrapper _ ih later =>
    rw [withValues_eq_pass outside inside] at wrapper later
    cases second with
    | done around within plain =>
      rw [withValues_eq_pass around within, wrapper] at plain
      contradiction
    | again around within _ rest =>
      rw [withValues_eq_pass around within] at rest
      obtain rfl := around.settled_eq.trans outside.settled_eq.symm
      rw [outside.starts_eq around, later rest,
        List.flatMap_congr fun entry member => ih entry member (within entry member)]

/-! ## The rounds of a run -/

private theorem hasWrapper_of_mem (run : Flattening value starts flat) :
    ∀ start ∈ starts, hasWrapper start = true := by
  induction run with
  | null | bool | num | str => exact List.forall_mem_nil _
  | arr _ ih => exact List.forall_mem_flatMap.mpr ih
  | done outside _ _ ih =>
    exact List.forall_mem_append.mpr ⟨outside.hasWrapper_of_mem, List.forall_mem_flatMap.mpr ih⟩
  | again outside _ _ _ ih later =>
    exact List.forall_mem_append.mpr ⟨List.forall_mem_append.mpr
      ⟨outside.hasWrapper_of_mem, List.forall_mem_flatMap.mpr ih⟩, later⟩

private theorem length_flatMap_add_sizeItems_le {items : List Json}
    {starts : Json → List (Entries Json)}
    {flat : Json → Json}
    (inside : ∀ item ∈ items, (starts item).length + (flat item).size ≤ item.size) :
    (items.flatMap starts).length + Json.sizeItems (items.map flat) ≤ Json.sizeItems items := by
  induction items with
  | nil => simp [Json.sizeItems]
  | cons item rest ih =>
    obtain ⟨first, later⟩ := List.forall_mem_cons.mp inside
    have := ih later
    simp only [List.flatMap_cons, List.length_append, List.map_cons, Json.sizeItems]
    omega

private theorem length_flatMap_add_sizeEntries_le {entries : Entries Json}
    {starts : String × Json → List (Entries Json)} {flat : String × Json → Json}
    (inside : ∀ entry ∈ entries, (starts entry).length + (flat entry).size ≤ entry.2.size) :
    (entries.flatMap starts).length + Json.sizeEntries (withValues flat entries) ≤
      Json.sizeEntries entries := by
  induction entries with
  | nil => simp [Json.sizeEntries, withValues]
  | cons entry rest ih =>
    obtain ⟨first, later⟩ := List.forall_mem_cons.mp inside
    have := ih later
    simp only [withValues] at this
    simp only [withValues, List.flatMap_cons, List.length_append, List.map_cons, Json.sizeEntries]
    omega

/-- Each round with a wrapper, at any depth, takes at least one value away. -/
theorem length_add_size_le (run : Flattening value starts flat) :
    starts.length + flat.size ≤ value.size := by
  induction run with
  | null | bool | num | str => simp
  | arr _ ih =>
    have := length_flatMap_add_sizeItems_le ih
    simp only [Json.size]
    omega
  | done outside _ _ ih =>
    have := outside.length_add_le
    have := length_flatMap_add_sizeEntries_le ih
    simp only [Json.size, List.length_append]
    omega
  | again outside _ _ _ ih later =>
    have := outside.length_add_le
    have := length_flatMap_add_sizeEntries_le ih
    simp only [Json.size, List.length_append] at later ⊢
    omega

end Flattening

/-! ## The passes over an object -/

/-- Passes repeat as long as they end in entries with a wrapper. -/
theorem Flatten.exists_passes (entries : Entries Json) :
    ∃ repeats, (Json.obj entries).flatten = .obj (pass^[repeats] (pass entries)) ∧
      hasWrapper (pass^[repeats] (pass entries)) = false ∧
      ∀ earlier < repeats, hasWrapper (pass^[earlier] (pass entries)) = true := by
  generalize whole : Json.obj entries = value
  induction value using Json.flatten_induction generalizing entries with
  | done others _ plain =>
    obtain rfl := Json.obj.inj whole
    exact ⟨0, Json.flatten_obj_of_not_hasWrapper plain, plain,
      fun _ below => absurd below (Nat.not_lt_zero _)⟩
  | again others _ wrapper ih =>
    obtain rfl := Json.obj.inj whole
    obtain ⟨repeats, result, plain, before⟩ := ih _ rfl
    refine ⟨repeats + 1, (Json.flatten_obj_of_hasWrapper wrapper).trans result, plain, ?_⟩
    rintro (_ | earlier) below
    · exact wrapper
    · exact before earlier (Nat.lt_of_succ_lt_succ below)
  | _ => contradiction

/-- A round over entries with a wrapper leaves fewer values in the object, and rounds over entries
end. An object is flattened by passes, which end too, and each pass but the first starts from
entries with a wrapper, so with such a round. Every value has one flattening, and of the rounds in
it fewer start from entries with a wrapper than there are values in what is flattened. -/
theorem flattening_ends :
    (∀ entries, hasWrapper entries = true →
      (Json.obj (round entries)).size < (Json.obj entries).size) ∧
    (∀ entries, ∃ starts, Rounds entries starts (rounds entries)) ∧
    (∀ entries, ∃ repeats, (Json.obj entries).flatten = .obj (pass^[repeats] (pass entries)) ∧
      hasWrapper (pass^[repeats] (pass entries)) = false ∧
      ∀ earlier < repeats, hasWrapper (pass^[earlier] (pass entries)) = true) ∧
    ∀ value, ∃ starts, Flattening value starts value.flatten ∧
      (∀ others flat, Flattening value others flat →
        others = starts ∧ flat = value.flatten) ∧
      (∀ start ∈ starts, hasWrapper start = true) ∧ starts.length < value.size := by
  refine ⟨fun entries wrapper => ?_, Rounds.exists_starts, exists_passes, fun value => ?_⟩
  · have := sizeEntries_round_lt wrapper
    simp only [Json.size]
    omega
  · obtain ⟨starts, run⟩ := Flattening.exists_starts value
    have := run.length_add_size_le
    have := value.flatten.size_pos
    exact ⟨starts, run, fun others flat second => ⟨run.starts_eq second, second.flat_eq⟩,
      run.hasWrapper_of_mem, by omega⟩

namespace Nested

/-- What is left of the wrappers here: the discriminator, with its own name as its value. -/
def remainder : Entries Json :=
  [("object_type", .str "object_type")]

/-- A wrapper that names the discriminator. -/
def second : Entries Json :=
  [("bOneOfType", .obj remainder)]

/-- A wrapper that names another one. -/
def first : Entries Json :=
  [("aOneOfType", .obj [("object_type", .str "bOneOfType"), ("bOneOfType", .obj remainder)])]

/-- An entry that is a wrapper once its value is flattened. -/
def outer : Entries Json :=
  [("kOneOfType", .obj first)]

def third : Entries Json :=
  [("kOneOfType", .obj remainder)]

private theorem flattening_first : Flattening (.obj first) [first, second] (.obj remainder) :=
  @Flattening.done first remainder [first, second] (fun _ => []) Prod.snd
    (.again (by decide +kernel) (.again (by decide +kernel) (.done (by decide +kernel))))
    (List.forall_mem_singleton.mpr (.str "object_type")) (by decide +kernel)

private theorem flattening_third : Flattening (.obj third) [third] (.obj remainder) :=
  @Flattening.done third remainder [third] (fun _ => []) Prod.snd
    (.again (by decide +kernel) (.done (by decide +kernel)))
    (List.forall_mem_singleton.mpr (.str "object_type")) (by decide +kernel)

private theorem flattening_outer :
    Flattening (.obj outer) [first, second, third] (.obj remainder) :=
  @Flattening.again outer outer [] [third] (fun _ => [first, second]) (fun _ => .obj remainder)
    (.obj remainder) (.done (by decide +kernel)) (List.forall_mem_singleton.mpr flattening_first)
    (by decide +kernel) flattening_third

end Nested

open Nested in
/-- Three rounds flatten the six values. The second leaves a discriminator for the one it found, and
the last is that of an entry which was no wrapper before its value was flattened. -/
theorem flattening_ends_nested :
    round second = remainder ∧ (Json.obj (round second)).size < (Json.obj second).size ∧
    (Json.obj outer).flatten = .obj remainder ∧
    ∀ starts flat, Flattening (.obj outer) starts flat →
      starts = [first, second, third] ∧ starts.length < (Json.obj outer).size := by
  obtain ⟨fewer, -, -, runs⟩ := flattening_ends
  obtain ⟨starts, -, unique, -, below⟩ := runs (.obj outer)
  obtain ⟨rfl, result⟩ := unique _ _ flattening_outer
  refine ⟨by decide +kernel, fewer second (by decide +kernel), result.symm, ?_⟩
  intro others flat run
  obtain ⟨rfl, -⟩ := unique _ _ run
  exact ⟨rfl, below⟩

end ToolContract
