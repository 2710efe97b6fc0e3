import Mathlib.Data.List.Nodup
import ToolContract.Proofs.Call.Normal

/-!
# Flattening one level of an object

If no two entries of an object come to one name, and none to a name of the form of a oneof
property, then one round settles the object: each entry stays in its place, rewritten by itself
(`Json.flatten_obj_of_rewritten`). Objects without oneof properties are flattened in their values
only, and plain values not at all.
-/

set_option autoImplicit false

namespace ToolContract

namespace Flatten

/-- What a round makes of an entry whose new name no other entry has: a wrapper becomes its
member. -/
def rewritten (entry : String × Json) : String × Json :=
  match wrapperMember? entry with
  | some member => (member, promoted member entry.2)
  | none => entry

/-- The entries rewritten and flattened in their values. -/
def settled (entries : Entries Json) : Entries Json :=
  entries.map fun entry => ((rewritten entry).1, (rewritten entry).2.flatten)

theorem keys_settled (entries : Entries Json) :
    (settled entries).keys = Entries.keys (entries.map rewritten) := by
  simp [settled, Entries.keys]

theorem rewritten_of_wrapper {entry : String × Json} {member : String}
    (wrapper : wrapperMember? entry = some member) :
    rewritten entry = (member, promoted member entry.2) := by
  rw [rewritten, wrapper]

theorem rewritten_of_plain {entry : String × Json} (plain : isOneofKey entry.1 = false) :
    rewritten entry = entry := by
  rw [rewritten, wrapperMember?_of_plain plain]

/-- Steps over entries that come to new names leave each of them rewritten. -/
theorem foldl_step_eq {members : List String} {entries done : Entries Json}
    (distinct : (done.keys ++ Entries.keys (entries.map rewritten)).Nodup)
    (free : ∀ entry ∈ entries, wrapperMember? entry = none → entry.1 ∉ members) :
    entries.foldl (step members) done = (entries.map rewritten).reverse ++ done := by
  induction entries generalizing done with
  | nil => rfl
  | cons entry rest ih =>
    rw [List.map_cons, Entries.keys_cons, List.nodup_middle] at distinct
    have first : step members done entry = rewritten entry :: done := by
      cases wrapper : wrapperMember? entry with
      | some member =>
        have absent : member ∉ done.keys := by
          have new := (List.nodup_cons.mp distinct).1
          rw [rewritten_of_wrapper wrapper] at new
          exact fun old => new (List.mem_append_left _ old)
        simp only [step, wrapper, rewritten_of_wrapper wrapper, Entries.erase_of_not_mem absent]
      | none =>
        have kept := free entry List.mem_cons_self wrapper
        simp only [step, rewritten, wrapper, if_neg kept]
    have later : (Entries.keys (rewritten entry :: done) ++
        Entries.keys (rest.map rewritten)).Nodup := distinct
    rw [List.foldl_cons, first,
      ih later fun other member => free other (List.mem_cons_of_mem _ member)]
    simp

/-- A round rewrites each entry in its place if no two of them come to one name. -/
theorem round_eq_map {entries : Entries Json}
    (distinct : Entries.Distinct (entries.map rewritten)) :
    round entries = entries.map rewritten := by
  have names : (entries.map fun entry => (rewritten entry).1).Nodup := by
    simpa [Entries.Distinct, Entries.keys, Function.comp_def] using distinct
  have free : ∀ entry ∈ entries, wrapperMember? entry = none →
      entry.1 ∉ entries.filterMap wrapperMember? := by
    intro entry member plain named
    obtain ⟨wrapper, listed, found⟩ := List.mem_filterMap.mp named
    have same : (rewritten wrapper).1 = (rewritten entry).1 := by
      simp [rewritten, found, plain]
    obtain rfl := List.inj_on_of_nodup_map names listed member same
    rw [plain] at found
    contradiction
  have fresh : (Entries.keys ([] : Entries Json) ++ Entries.keys (entries.map rewritten)).Nodup :=
    distinct
  rw [round, foldl_step_eq fresh free]
  simp

end Flatten

namespace Json

open Flatten

/-- An object whose entries come to different names, none of the form of a oneof property, is
flattened entry by entry. -/
theorem flatten_obj_of_rewritten {entries : Entries Json}
    (distinct : Entries.Distinct (entries.map rewritten))
    (plain : PlainKeys (entries.map rewritten)) :
    (Json.obj entries).flatten = .obj (settled entries) := by
  have rounded : rounds entries = entries.map rewritten := by
    have last := rounds_of_not_hasWrapper (hasWrapper_of_plainKeys plain)
    cases wrapper : hasWrapper entries with
    | true => rw [rounds_of_hasWrapper wrapper, round_eq_map distinct, last]
    | false =>
      rw [rounds_of_not_hasWrapper wrapper]
      symm
      refine (List.map_congr_left fun entry member => ?_).trans (List.map_id entries)
      have none := List.any_eq_false.mp wrapper entry member
      rw [Bool.not_eq_true, Option.isSome_eq_false_iff, Option.isNone_iff_eq_none] at none
      simp only [rewritten, none, id]
  have flatPlain : PlainKeys (settled entries) := by
    rwa [PlainKeys, keys_settled]
  have flat : (entries.map rewritten).map (fun entry => (entry.1, entry.2.flatten)) =
      settled entries := List.map_map
  rw [flatten_obj, rounded]
  simp only [flat, hasWrapper_of_plainKeys flatPlain, Bool.false_eq_true, if_false]

theorem flatten_obj_of_plainKeys {entries : Entries Json} (plain : PlainKeys entries) :
    (Json.obj entries).flatten = .obj (entries.map fun entry => (entry.1, entry.2.flatten)) := by
  have flatPlain : PlainKeys (entries.map fun entry => (entry.1, entry.2.flatten)) := by
    rwa [PlainKeys, Entries.keys_map]
  rw [flatten_obj, rounds_of_not_hasWrapper (hasWrapper_of_plainKeys plain)]
  simp only [hasWrapper_of_plainKeys flatPlain, Bool.false_eq_true, if_false]

theorem Plain.flatten_eq {value : Json} (plain : value.Plain) : value.flatten = value :=
  plain.wrapperFree.flatten_eq

end Json

end ToolContract
