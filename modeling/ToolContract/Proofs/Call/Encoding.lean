import ToolContract.Proofs.Call.Level

/-!
# Flattening takes oneof encodings back

A sender may write any entries of the objects in a value as wrappers, in either form of a variant:
the nested one holds the value under the name of its member, the inlined one puts the discriminator
among the entries of the value itself. `Json.Encoded` relates a value to what it may be written as,
at every depth and with both forms inside each other. Flattening takes each such encoding back to
the value, in the order of its entries (`flatten_of_encoded`).
-/

set_option autoImplicit false

namespace ToolContract

open Flatten

namespace Json

/-- The object is a wrapper's value that names the member and carries its value. -/
inductive Wraps (member : String) : Json → Json → Prop where
  /-- It has the discriminator and the value under the name of the member, in either order. -/
  | nested {value : Json} {content : Entries Json} :
      content.Perm [(discriminatorKey, .str member), (member, value)] →
      Wraps member value (.obj content)
  /-- It has the entries of the value, and the discriminator somewhere among them. -/
  | inlined {front back : Entries Json} :
      member ∉ Entries.keys (front ++ back) → discriminatorKey ∉ Entries.keys (front ++ back) →
      Wraps member (.obj (front ++ back))
        (.obj (front ++ (discriminatorKey, .str member) :: back))

/-- What may be written for an entry if its value is written as the relation says: the entry under
its own name, or a wrapper in its place. -/
inductive Placed (relation : Json → Json → Prop) : String × Json → String × Json → Prop where
  | kept {name : String} {value written : Json} :
      relation value written → Placed relation (name, value) (name, written)
  | wrapped {member group : String} {value written wrapper : Json} :
      member ≠ discriminatorKey → relation value written → Wraps member written wrapper →
      Placed relation (member, value) (group ++ oneofSuffix, wrapper)

/-- The second value is the first one with some entries of its objects, at any depth, written as
wrappers. Nothing is asked of the names of the groups. -/
inductive Encoded : Json → Json → Prop where
  | null : Encoded .null .null
  | bool (truth : Bool) : Encoded (.bool truth) (.bool truth)
  | num (number : Number) : Encoded (.num number) (.num number)
  | str (text : String) : Encoded (.str text) (.str text)
  | arr {items written : List Json} :
      List.Forall₂ Encoded items written → Encoded (.arr items) (.arr written)
  | obj {entries written : Entries Json} :
      List.Forall₂ (Placed Encoded) entries written → Encoded (.obj entries) (.obj written)

/-! ## One wrapper -/

private theorem Wraps.rewritten_eq {member : String} {value wrapper : Json}
    (wraps : Wraps member value wrapper) (different : member ≠ discriminatorKey) (group : String) :
    rewritten (group ++ oneofSuffix, wrapper) = (member, value) := by
  cases wraps with
  | @nested _ content permutation =>
    have distinct : Entries.Distinct content := by
      refine (permutation.map Prod.fst).nodup_iff.mpr ?_
      simpa using different.symm
    have tag : content.get? discriminatorKey = some (.str member) :=
      Entries.get?_of_mem distinct (permutation.mem_iff.mpr (by simp))
    have held : content.get? member = some value :=
      Entries.get?_of_mem distinct (permutation.mem_iff.mpr (by simp))
    rw [rewritten_of_wrapper (wrapperMember?_of_discriminator tag), promoted_of_some held]
  | @inlined front back noMember noTag =>
    rw [Entries.keys_append, List.mem_append, not_or] at noMember noTag
    have tag : Entries.get? discriminatorKey (front ++ (discriminatorKey, .str member) :: back) =
        some (.str member) := by
      rw [Entries.get?_append, Entries.get?_eq_none_iff.mpr noTag.1, Option.none_or,
        Entries.get?_cons, if_pos rfl]
    have absent : Entries.get? member (front ++ (discriminatorKey, .str member) :: back) = none := by
      rw [Entries.get?_append, Entries.get?_eq_none_iff.mpr noMember.1, Option.none_or,
        Entries.get?_cons, if_neg different.symm, Entries.get?_eq_none_iff.mpr noMember.2]
    have erased : Entries.erase discriminatorKey (front ++ (discriminatorKey, .str member) :: back) =
        front ++ back := by
      rw [Entries.erase_append, Entries.erase_of_not_mem noTag.1, Entries.erase_cons_self noTag.2]
    rw [rewritten_of_wrapper (wrapperMember?_of_discriminator tag), promoted_of_none absent, erased]

/-! ## One level -/

section

variable {relation : Json → Json → Prop}

/-- A round takes an entry back to its name, and to a value written as the relation says. -/
theorem Placed.rewritten_spec {entry written : String × Json}
    (placed : Placed relation entry written)
    (plain : isOneofKey entry.1 = false) :
    (rewritten written).1 = entry.1 ∧ relation entry.2 (rewritten written).2 := by
  cases placed with
  | @kept name value written encoded =>
    have same : rewritten (name, written) = (name, written) := rewritten_of_plain plain
    rw [same]
    exact ⟨rfl, encoded⟩
  | wrapped different encoded wraps =>
    rw [wraps.rewritten_eq different]
    exact ⟨rfl, encoded⟩

private theorem settled_of_placed {entries written : Entries Json}
    (placed : List.Forall₂ (Placed relation) entries written) (plain : PlainKeys entries)
    (inside : ∀ entry ∈ entries, ∀ encoded, relation entry.2 encoded → encoded.flatten = entry.2) :
    settled written = entries := by
  induction placed with
  | nil => rfl
  | @cons entry written rest writtenRest first _ ih =>
    obtain ⟨plainKey, plainKeys⟩ := List.forall_mem_cons.mp plain
    obtain ⟨insideFirst, insideRest⟩ := List.forall_mem_cons.mp inside
    obtain ⟨name, encoded⟩ := first.rewritten_spec plainKey
    have later : settled writtenRest = rest := ih plainKeys insideRest
    rw [settled, List.map_cons, ← settled, later, name, insideFirst _ encoded]

private theorem map_flatten_of_related {items written : List Json}
    (related : List.Forall₂ relation items written)
    (inside : ∀ item ∈ items, ∀ encoded, relation item encoded → encoded.flatten = item) :
    written.map flatten = items := by
  induction related with
  | nil => rfl
  | cons first _ ih =>
    obtain ⟨insideFirst, insideRest⟩ := List.forall_mem_cons.mp inside
    rw [List.map_cons, insideFirst _ first, ih insideRest]

end

end Json

/-! ## All levels -/

open Json in
/-- A value without keys of the form of a oneof property is what each of its encodings is flattened
to, in the order of its entries. -/
theorem flatten_of_encoded (value written : Json) (plain : value.Plain) (distinct : value.Distinct)
    (encoded : value.Encoded written) : written.flatten = value := by
  induction bound : value.size using Nat.strongRecOn generalizing value written with
  | ind size ih =>
    subst bound
    cases encoded with
    | null => exact flatten_null
    | bool truth => exact flatten_bool truth
    | num number => exact flatten_num number
    | str text => exact flatten_str text
    | @arr items written related =>
      rw [flatten_arr, map_flatten_of_related related]
      intro item member encodedItem encoded
      exact ih item.size (size_lt_of_mem_items member) item encodedItem
        (allObjects_arr_iff.mp plain item member) (allObjects_arr_iff.mp distinct item member)
        encoded rfl
    | @obj entries written placed =>
      obtain ⟨plainKeys, plainValues⟩ := allObjects_obj_iff.mp plain
      obtain ⟨distinctKeys, distinctValues⟩ := allObjects_obj_iff.mp distinct
      have same : settled written = entries := by
        refine settled_of_placed placed plainKeys fun entry member encodedValue encoded => ?_
        exact ih entry.2.size (size_lt_of_mem_entries member) entry.2 encodedValue
          (plainValues entry member) (distinctValues entry member) encoded rfl
      have keys : Entries.keys (written.map rewritten) = entries.keys := by
        rw [← keys_settled, same]
      rw [flatten_obj_of_rewritten, same]
      · rwa [Entries.Distinct, keys]
      · rwa [PlainKeys, keys]

/-! ### Both forms inside each other -/

namespace Parcel

open Json

def contents : Json :=
  .obj [("fragile", .bool true), ("object_type", .str "glass")]

def tags : Json :=
  .arr [.str "small", .null]

def parcel : Json :=
  .obj [("label", .str "gift"), ("box", .obj [("contents", contents), ("tags", tags)])]

/-- The contents nested in a wrapper of their own. -/
def filling : String × Json :=
  ("fillingOneOfType", .obj [("contents", contents), ("object_type", .str "contents")])

/-- The box inlined in a wrapper, with the discriminator between its entries. -/
def written : Json :=
  .obj [("label", .str "gift"),
    ("coverOneOfType", .obj [filling, ("object_type", .str "box"), ("tags", tags)])]

private theorem plain_parcel : parcel.Plain := by
  simp only [parcel, contents, tags, allObjects_obj_iff, allObjects_arr_iff, List.forall_mem_cons,
    List.not_mem_nil, false_implies, implies_true, AllObjects.str, AllObjects.bool,
    AllObjects.null, and_true, true_and]
  decide +kernel

private theorem distinct_parcel : parcel.Distinct := by
  simp [parcel, contents, tags, allObjects_obj_iff, allObjects_arr_iff, Entries.Distinct,
    AllObjects.str, AllObjects.bool, AllObjects.null]

private theorem encoded_parcel : parcel.Encoded written := by
  have sameContents : contents.Encoded contents :=
    .obj (.cons (.kept (.bool true)) (.cons (.kept (.str "glass")) .nil))
  have sameTags : tags.Encoded tags := .arr (.cons (.str "small") (.cons .null .nil))
  have nested : Placed Encoded ("contents", contents) filling :=
    @Placed.wrapped Encoded "contents" "filling" _ _ _ (by decide) sameContents
      (.nested (.swap _ _ _))
  have inlined : Wraps "box" (.obj [filling, ("tags", tags)])
      (.obj [filling, ("object_type", .str "box"), ("tags", tags)]) :=
    @Wraps.inlined "box" [filling] [("tags", tags)] (by decide) (by decide)
  have box : Placed Encoded ("box", .obj [("contents", contents), ("tags", tags)])
      ("coverOneOfType", .obj [filling, ("object_type", .str "box"), ("tags", tags)]) :=
    @Placed.wrapped Encoded "box" "cover" _ _ _ (by decide)
      (.obj (.cons nested (.cons (.kept sameTags) .nil))) inlined
  exact .obj (.cons (.kept (.str "gift")) (.cons box .nil))

end Parcel

open Parcel in
theorem flatten_written_parcel :
    parcel.Plain ∧ parcel.Distinct ∧ parcel.Encoded written ∧ written.flatten = parcel :=
  ⟨plain_parcel, distinct_parcel, encoded_parcel,
    flatten_of_encoded parcel written plain_parcel distinct_parcel encoded_parcel⟩

end ToolContract
