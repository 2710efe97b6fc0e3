import Mathlib.Data.List.Pairwise
import ToolContract.Proofs.Call.Round
import ToolContract.Proofs.Json.Reordered

/-!
# Flattening and the order of keys

A round replaces wrappers where they stand, so the order in which an object lists its entries could
decide what is left. It decides nothing as long as no two wrappers of the object name one member: the
names that entries come to are then claimed once, and a round over two objects that are the same up to
the order of keys leaves two such objects (`Json.Reordered.round`). The rounds that a flattening
performs are those over the entries it meets (`Flatten.Meets`). If in each of these a member is named
once at most, values that are the same up to the order of keys are flattened to such values
(`flatten_reordered`).
-/

set_option autoImplicit false

namespace ToolContract

open Flatten

namespace Flatten

/-! ## The rounds of a flattening -/

/-- No two wrappers of the entries name the same member. -/
def Unambiguous (entries : Entries Json) : Prop :=
  (entries.filterMap wrapperMember?).Nodup

instance (entries : Entries Json) : Decidable (Unambiguous entries) :=
  inferInstanceAs (Decidable (List.Nodup _))

private theorem Unambiguous.eq_of_named {entries : Entries Json} (unambiguous : Unambiguous entries)
    {left right : String × Json} (leftListed : left ∈ entries) (rightListed : right ∈ entries)
    {member : String} (leftNames : wrapperMember? left = some member)
    (rightNames : wrapperMember? right = some member) : left = right := by
  have apart := List.pairwise_filterMap.mp unambiguous
  have symmetric : Std.Symm fun left right : String × Json =>
      ∀ name, wrapperMember? left = some name →
        ∀ other, wrapperMember? right = some other → name ≠ other :=
    ⟨fun _ _ apart name named other otherNamed => (apart other otherNamed name named).symm⟩
  by_contra different
  exact apart.forall leftListed rightListed different member leftNames member rightNames rfl

/-- Flattening the value performs a round over these entries. An object with a wrapper is in for a
round, and flattening goes on with what the round leaves. Without a wrapper flattening goes into the
values, and if that made an entry a wrapper it goes over the object again. -/
inductive Meets : Json → Entries Json → Prop where
  | here {entries : Entries Json} : hasWrapper entries = true → Meets (.obj entries) entries
  | round {entries met : Entries Json} : hasWrapper entries = true →
      Meets (.obj (round entries)) met → Meets (.obj entries) met
  | value {entries met : Entries Json} {entry : String × Json} : hasWrapper entries = false →
      entry ∈ entries → Meets entry.2 met → Meets (.obj entries) met
  | again {entries met : Entries Json} : hasWrapper entries = false →
      hasWrapper (Json.flattenValues entries) = true →
      Meets (.obj (Json.flattenValues entries)) met → Meets (.obj entries) met
  | item {items : List Json} {met : Entries Json} {item : Json} :
      item ∈ items → Meets item met → Meets (.arr items) met

/-- Where an object has a wrapper, the first round is over its entries and the others over what that
round leaves. -/
theorem Meets.of_hasWrapper {entries met : Entries Json} (wrapper : hasWrapper entries = true)
    (meets : Meets (.obj entries) met) :
    met = entries ∨ Meets (.obj (Flatten.round entries)) met := by
  cases meets with
  | here => exact .inl rfl
  | round _ later => exact .inr later
  | value plain => simp [wrapper] at plain
  | again plain => simp [wrapper] at plain

/-- Without a wrapper in the object, rounds are performed in its values only, and over the object once
these are flattened. -/
theorem Meets.of_not_hasWrapper {entries met : Entries Json} (plain : hasWrapper entries = false)
    (meets : Meets (.obj entries) met) :
    (∃ entry ∈ entries, Meets entry.2 met) ∨
      hasWrapper (Json.flattenValues entries) = true ∧
        Meets (.obj (Json.flattenValues entries)) met := by
  cases meets with
  | here wrapper => simp [plain] at wrapper
  | round wrapper => simp [plain] at wrapper
  | value _ listed inside => exact .inl ⟨_, listed, inside⟩
  | again _ wrapper later => exact .inr ⟨wrapper, later⟩

/-- Flattening performs no round on a value free of wrappers. -/
theorem Meets.not_wrapperFree {value : Json} {met : Entries Json} (meets : Meets value met) :
    ¬ value.WrapperFree := by
  have plain {entries : Entries Json} (free : (Json.obj entries).WrapperFree) :
      hasWrapper entries = false :=
    hasWrapper_eq_false_iff.mpr (Json.allObjects_obj_iff.mp free).1
  intro free
  induction meets with
  | here wrapper => simp [plain free] at wrapper
  | round wrapper => simp [plain free] at wrapper
  | value _ listed _ ih => exact ih ((Json.allObjects_obj_iff.mp free).2 _ listed)
  | @again entries _ _ wrapper =>
    have values : Json.flattenValues entries = entries :=
      Json.map_values_eq_self fun entry listed =>
        Json.WrapperFree.flatten_eq ((Json.allObjects_obj_iff.mp free).2 entry listed)
    rw [values, plain free] at wrapper
    contradiction
  | item listed _ ih => exact ih (Json.allObjects_arr_iff.mp free _ listed)

private theorem Meets.of_rounds {entries met : Entries Json}
    (meets : Meets (.obj (rounds entries)) met) :
    Meets (.obj entries) met := by
  fun_induction rounds entries with
  | case1 entries wrapper ih => exact .round wrapper (ih meets)
  | case2 entries => exact meets

end Flatten

namespace Json

/-! ## One round -/

private theorem Reordered.wrapperMember?_eq {entry other : String × Json} (key : entry.1 = other.1)
    (same : entry.2.Reordered other.2) : wrapperMember? entry = wrapperMember? other := by
  obtain ⟨name, value⟩ := entry
  obtain ⟨_, written⟩ := other
  obtain rfl : name = _ := key
  cases same with
  | @obj content contentWritten keys values =>
    have tag := (Reordered.obj keys values).get? discriminatorKey
    simp only [wrapperMember?]
    generalize Entries.get? discriminatorKey content = left at tag ⊢
    generalize Entries.get? discriminatorKey contentWritten = right at tag ⊢
    cases tag with
    | none => rfl
    | some alike => rw [Option.bind_some, Option.bind_some, alike.text?_eq]
  | _ => rfl

private theorem Reordered.promoted {value other : Json} (same : value.Reordered other)
    (member : String) :
    (promoted member value).Reordered (promoted member other) := by
  cases same with
  | @obj content written keys values =>
    have whole := Reordered.obj keys values
    have held := whole.get? member
    simp only [ToolContract.promoted]
    generalize Entries.get? member content = left at held ⊢
    generalize Entries.get? member written = right at held ⊢
    cases held with
    | none => exact whole.erase discriminatorKey
    | some alike => exact alike
  | null => exact .null
  | bool truth => exact .bool truth
  | num number => exact .num number
  | str text => exact .str text
  | arr length items => exact .arr length items

section

variable {entries others : Entries Json} (same : Reordered (.obj entries) (.obj others))
include same

/-- Each entry has its partner, which is a wrapper of the same member if the entry is one. -/
theorem Reordered.exists_named {entry : String × Json} (listed : entry ∈ entries) :
    ∃ other ∈ others, entry.1 = other.1 ∧ wrapperMember? entry = wrapperMember? other := by
  obtain ⟨other, otherListed, key, alike⟩ := same.exists_partner listed
  exact ⟨other, otherListed, key, wrapperMember?_eq key alike⟩

private theorem Reordered.members_subset :
    entries.filterMap wrapperMember? ⊆ others.filterMap wrapperMember? := by
  intro member named
  obtain ⟨entry, listed, names⟩ := List.mem_filterMap.mp named
  obtain ⟨other, otherListed, -, equal⟩ := same.exists_named listed
  exact List.mem_filterMap.mpr ⟨other, otherListed, equal ▸ names⟩

private theorem Reordered.keys_round_subset : (round entries).keys ⊆ (round others).keys := by
  intro name
  rw [mem_keys_round_iff, mem_keys_round_iff]
  intro claimed
  obtain ⟨entry, listed, rfl⟩ := claimed
  obtain ⟨other, otherListed, key, named⟩ := same.exists_named listed
  refine ⟨other, otherListed, ?_⟩
  rw [rewritten, rewritten, ← named]
  cases wrapperMember? entry with
  | none => exact key.symm
  | some member => rfl

private theorem Reordered.hasWrapper_of (wrapper : hasWrapper entries = true) :
    hasWrapper others = true := by
  obtain ⟨entry, listed, names⟩ := List.any_eq_true.mp wrapper
  obtain ⟨other, otherListed, -, equal⟩ := same.exists_named listed
  exact List.any_eq_true.mpr ⟨other, otherListed, equal ▸ names⟩

private theorem Reordered.hasWrapper_eq : hasWrapper entries = hasWrapper others :=
  Bool.eq_iff_iff.mpr ⟨same.hasWrapper_of, same.symm.hasWrapper_of⟩

/-- A name that some wrapper names is claimed by that wrapper on one side and by its partner on the
other, and any other name by the entries that have it as their key. -/
theorem Reordered.values_round (distinct : entries.Distinct) (unambiguous : Unambiguous entries) :
    ∀ entry ∈ round entries, ∀ other ∈ round others, entry.1 = other.1 →
      entry.2.Reordered other.2 := by
  obtain ⟨-, values⟩ := reordered_obj_iff.mp same
  rintro ⟨name, value⟩ listed ⟨_, other⟩ otherListed (rfl : name = _)
  rcases wrapped_or_kept_of_mem_round distinct listed with
    ⟨wrapper, inside, names, rfl⟩ | ⟨inside, unnamed⟩ <;>
  rcases wrapped_or_kept_of_mem_round (same.distinct_entries distinct) otherListed with
    ⟨otherWrapper, otherInside, otherNames, rfl⟩ | ⟨otherInside, otherUnnamed⟩
  · obtain ⟨partner, partnerInside, key, equal⟩ := same.symm.exists_named otherInside
    obtain rfl : wrapper = partner :=
      unambiguous.eq_of_named inside partnerInside names (equal ▸ otherNames)
    exact (values wrapper inside otherWrapper otherInside key.symm).promoted name
  · have named := List.mem_filterMap.mpr ⟨wrapper, inside, names⟩
    exact absurd (same.members_subset named) otherUnnamed
  · have named := List.mem_filterMap.mpr ⟨otherWrapper, otherInside, otherNames⟩
    exact absurd (same.symm.members_subset named) unnamed
  · exact values _ inside _ otherInside rfl

theorem Reordered.round (distinct : entries.Distinct) (unambiguous : Unambiguous entries) :
    Reordered (.obj (round entries)) (.obj (round others)) := by
  have left := distinct_round distinct
  have right := distinct_round (same.distinct_entries distinct)
  apply Reordered.obj
  · refine (List.perm_ext_iff_of_nodup left right).mpr fun name => ?_
    exact ⟨fun listed => same.keys_round_subset listed,
      fun listed => same.symm.keys_round_subset listed⟩
  · exact same.values_round distinct unambiguous

end

/-! ## Rounds until no wrapper is left -/

private theorem Reordered.rounds {entries others : Entries Json}
    (same : Reordered (.obj entries) (.obj others)) (distinct : entries.Distinct)
    (unambiguous : ∀ met, Meets (.obj entries) met → Unambiguous met) :
    Reordered (.obj (rounds entries)) (.obj (rounds others)) := by
  fun_induction Flatten.rounds entries generalizing others with
  | case1 entries wrapper ih =>
    have first := same.round distinct (unambiguous entries (.here wrapper))
    rw [rounds_of_hasWrapper (same.hasWrapper_of wrapper)]
    exact ih first (distinct_round distinct) fun met meets => unambiguous met (.round wrapper meets)
  | case2 entries plain =>
    rw [rounds_of_not_hasWrapper (by rw [← same.hasWrapper_eq]; simpa using plain)]
    exact same

/-! ## Objects stay objects at every depth -/

private theorem Distinct.promoted {value : Json} (distinct : value.Distinct) (member : String) :
    (promoted member value).Distinct := by
  cases value with
  | obj content =>
    cases found : Entries.get? member content with
    | some held =>
      rw [promoted_of_some found]
      exact (allObjects_obj_iff.mp distinct).2 _ (Entries.mem_of_get? found)
    | none =>
      rw [promoted_of_none found]
      exact distinct.erase discriminatorKey
  | _ => exact distinct

private theorem Distinct.rewritten {entry : String × Json} (distinct : entry.2.Distinct) :
    (rewritten entry).2.Distinct := by
  rw [Flatten.rewritten]
  split
  · exact distinct.promoted _
  · exact distinct

private theorem Distinct.round {entries : Entries Json} (distinct : (Json.obj entries).Distinct) :
    (Json.obj (round entries)).Distinct := by
  obtain ⟨keys, values⟩ := allObjects_obj_iff.mp distinct
  refine .obj (distinct_round keys) fun entry listed => ?_
  obtain ⟨old, oldListed, rfl⟩ := mem_round listed
  exact Distinct.rewritten (values old oldListed)

private theorem Distinct.rounds {entries : Entries Json} (distinct : (Json.obj entries).Distinct) :
    (Json.obj (rounds entries)).Distinct := by
  fun_induction Flatten.rounds entries with
  | case1 entries _ ih => exact ih distinct.round
  | case2 entries => exact distinct

private theorem Distinct.flattenValues {entries : Entries Json} (distinct : entries.Distinct)
    (values : ∀ entry ∈ entries, entry.2.flatten.Distinct) :
    (Json.obj (flattenValues entries)).Distinct := by
  refine .obj ?_ (List.forall_mem_map.mpr values)
  rwa [Entries.Distinct, Json.flattenValues, Entries.keys_map]

private theorem Distinct.flattenValues_rounds {entries : Entries Json}
    (distinct : (Json.obj entries).Distinct)
    (values : ∀ entry ∈ Flatten.rounds entries, entry.2.Distinct → entry.2.flatten.Distinct) :
    (Json.obj (Json.flattenValues (Flatten.rounds entries))).Distinct := by
  obtain ⟨keys, inside⟩ := allObjects_obj_iff.mp distinct.rounds
  exact .flattenValues keys fun entry listed => values entry listed (inside entry listed)

/-- Flattening brings no key into an object twice. -/
theorem Distinct.flatten {value : Json} (distinct : value.Distinct) : value.flatten.Distinct := by
  induction value using flatten_induction with
  | arr items ih =>
    rw [flatten_arr]
    have inside := allObjects_arr_iff.mp distinct
    exact .arr (List.forall_mem_map.mpr fun item listed => ih item listed (inside item listed))
  | done entries ih settled =>
    rw [flatten_obj_of_not_hasWrapper settled]
    exact Distinct.flattenValues_rounds distinct ih
  | again entries ih wrapper later =>
    rw [flatten_obj_of_hasWrapper wrapper]
    exact later (Distinct.flattenValues_rounds distinct ih)
  | _ => simpa using distinct

/-! ## One pass over an object -/

private theorem Reordered.flattenValues {entries others : Entries Json}
    (same : Reordered (.obj entries) (.obj others))
    (values : ∀ entry ∈ entries, ∀ other, entry.2.Reordered other →
      entry.2.flatten.Reordered other.flatten) :
    Reordered (.obj (flattenValues entries)) (.obj (flattenValues others)) := by
  obtain ⟨keys, alike⟩ := reordered_obj_iff.mp same
  apply Reordered.obj
  · rwa [Json.flattenValues, Json.flattenValues, Entries.keys_map, Entries.keys_map]
  · rw [Json.flattenValues, Json.flattenValues, List.forall_mem_map]
    intro entry listed
    rw [List.forall_mem_map]
    intro other otherListed key
    exact values entry listed other.2 (alike entry listed other otherListed key)

/-- The rounds over an object and the flattening of what they leave, if the values that they leave are
flattened to values that are the same up to the order of keys. -/
theorem Reordered.flattenValues_rounds {entries others : Entries Json}
    (same : Reordered (.obj entries) (.obj others)) (distinct : (Json.obj entries).Distinct)
    (unambiguous : ∀ met, Meets (.obj entries) met → Unambiguous met)
    (values : ∀ entry ∈ Flatten.rounds entries, ∀ other, entry.2.Reordered other →
      entry.2.Distinct → (∀ met, Meets entry.2 met → Unambiguous met) →
      entry.2.flatten.Reordered other.flatten) :
    Reordered (.obj (Json.flattenValues (Flatten.rounds entries)))
      (.obj (Json.flattenValues (Flatten.rounds others))) := by
  have keys := (allObjects_obj_iff.mp distinct).1
  have inside := (allObjects_obj_iff.mp distinct.rounds).2
  apply (same.rounds keys unambiguous).flattenValues
  intro entry listed other alike
  refine values entry listed other alike (inside entry listed) fun met meets => unambiguous met ?_
  exact Meets.of_rounds (.value (hasWrapper_rounds entries) listed meets)

end Json

/-- In a value no object has a key twice. If no round performed while flattening it meets two wrappers
that name the same member, then the value and any that is the same up to the order of keys, at any
depth, are flattened to values that are the same up to the order of keys. -/
theorem flatten_reordered (value other : Json) (same : value.Reordered other)
    (distinct : value.Distinct) (unambiguous : ∀ met, Meets value met → Unambiguous met) :
    value.flatten.Reordered other.flatten := by
  -- the induction goes along the flattening of the value, and the other one follows it
  induction value using Json.flatten_induction generalizing other with
  | arr items ih =>
    cases same with
    | @arr _ others length pairs =>
      rw [Json.flatten_arr, Json.flatten_arr]
      refine .arr (by simpa using length) ?_
      rw [List.zip_map, List.forall_mem_map]
      rintro ⟨item, written⟩ listed
      have inside := (List.of_mem_zip listed).1
      exact ih item inside written (pairs _ listed) (Json.allObjects_arr_iff.mp distinct item inside)
        fun met meets => unambiguous met (.item inside meets)
  | done entries ih settled =>
    cases same with
    | @obj _ others keys alike =>
      have pass := (Json.Reordered.obj keys alike).flattenValues_rounds distinct unambiguous
        fun entry listed written same => ih entry listed written same
      rw [Json.flatten_obj_of_not_hasWrapper settled,
        Json.flatten_obj_of_not_hasWrapper (pass.hasWrapper_eq ▸ settled)]
      exact pass
  | again entries ih wrapper later =>
    cases same with
    | @obj _ others keys alike =>
      have pass := (Json.Reordered.obj keys alike).flattenValues_rounds distinct unambiguous
        fun entry listed written same => ih entry listed written same
      rw [Json.flatten_obj_of_hasWrapper wrapper,
        Json.flatten_obj_of_hasWrapper (pass.hasWrapper_of wrapper)]
      refine later _ pass ?_ fun met meets => ?_
      · exact Json.Distinct.flattenValues_rounds distinct fun _ _ inside =>
          Json.Distinct.flatten inside
      · exact unambiguous met (Meets.of_rounds (.again (hasWrapper_rounds entries) wrapper meets))
  | null => cases same; simpa using Json.Reordered.null
  | bool truth => cases same; simpa using Json.Reordered.bool truth
  | num number => cases same; simpa using Json.Reordered.num number
  | str text => cases same; simpa using Json.Reordered.str text

/-! ### Wrappers that claim a sibling's key, listed in another order -/

namespace Shuffled

open Json

def deep : Json := .obj [("object_type", .str "label"), ("label", .str "deep")]

def deepShuffled : Json := .obj [("label", .str "deep"), ("object_type", .str "label")]

def size : Json := .obj [("object_type", .str "size"), ("size", .num (.integer 3))]

/-- The only entry of the key's value becomes a discriminator, and the key a wrapper by that. -/
def late : String × Json :=
  ("kOneOfType", .obj [("tagOneOfType", .obj [("object_type", .str "object_type")])])

def box : Json := .obj [late, ("lid", .bool true)]

def boxShuffled : Json := .obj [("lid", .bool true), late]

/-- The first wrapper names the key of the second one, which names a member of its own. -/
def entries : Entries Json :=
  [("aOneOfType", .obj [("object_type", .str "bOneOfType"), ("bOneOfType", deep)]),
    ("bOneOfType", size), ("box", box)]

def shuffled : Entries Json :=
  [("box", boxShuffled), ("bOneOfType", size),
    ("aOneOfType", .obj [("bOneOfType", deepShuffled), ("object_type", .str "bOneOfType")])]

private theorem reordered_shuffled : Reordered (.obj entries) (.obj shuffled) := by
  have label : deep.Reordered deepShuffled := by
    refine .obj (.swap _ _ _) ?_
    simp [Reordered.str]
  have wrapper : Reordered (.obj [("object_type", .str "bOneOfType"), ("bOneOfType", deep)])
      (.obj [("bOneOfType", deepShuffled), ("object_type", .str "bOneOfType")]) := by
    refine .obj (.swap _ _ _) ?_
    simp [Reordered.str, label]
  have inside : box.Reordered boxShuffled := by
    refine .obj (.swap _ _ _) ?_
    simp [late, reordered_obj_iff, Reordered.str, Reordered.bool, Entries.keys]
  have plain : size.Reordered size := by
    refine .obj (.refl _) ?_
    simp [Reordered.str, Reordered.num]
  refine .obj (by decide) ?_
  simp [entries, shuffled, wrapper, inside, plain]

private theorem distinct_entries : (Json.obj entries).Distinct := by
  simp [entries, deep, size, box, late, allObjects_obj_iff, Entries.Distinct, AllObjects.str,
    AllObjects.num, AllObjects.bool]

/-- What the first round leaves. -/
def once : Entries Json := [("bOneOfType", deep), ("size", .num (.integer 3)), ("box", box)]

/-- What the second round leaves. -/
def twice : Entries Json :=
  [("label", .str "deep"), ("size", .num (.integer 3)), ("box", box)]

private theorem not_meets_of_plain {value : Json} (plain : value.Plain) (met : Entries Json) :
    ¬ Meets value met :=
  fun meets => meets.not_wrapperFree plain.wrapperFree

private theorem unambiguous_late (met : Entries Json) (meets : Meets late.2 met) :
    Unambiguous met := by
  rcases meets.of_hasWrapper (by decide +kernel) with rfl | meets
  · decide +kernel
  have settled : round [("tagOneOfType", .obj [("object_type", .str "object_type")])] =
      [("object_type", .str "object_type")] := by decide +kernel
  rw [settled] at meets
  refine absurd meets (not_meets_of_plain (.obj (by decide +kernel) ?_) met)
  simp [AllObjects.str]

/-- The values of the box are flattened first, which makes one of its entries a wrapper. -/
theorem unambiguous_box (met : Entries Json) (meets : Meets box met) : Unambiguous met := by
  rcases meets.of_not_hasWrapper (by decide +kernel) with ⟨entry, listed, meets⟩ | ⟨-, meets⟩
  · rcases List.mem_pair.mp listed with rfl | rfl
    · exact unambiguous_late met meets
    · exact absurd meets (not_meets_of_plain (.bool true) met)
  have values : flattenValues [late, ("lid", .bool true)] =
      [("kOneOfType", .obj [("object_type", .str "object_type")]), ("lid", .bool true)] := by
    decide +kernel
  rw [values] at meets
  rcases meets.of_hasWrapper (by decide +kernel) with rfl | meets
  · decide +kernel
  have settled : round
      [("kOneOfType", .obj [("object_type", .str "object_type")]), ("lid", .bool true)] =
      [("object_type", .str "object_type"), ("lid", .bool true)] := by decide +kernel
  rw [settled] at meets
  refine absurd meets (not_meets_of_plain (.obj (by decide +kernel) ?_) met)
  simp [AllObjects.str, AllObjects.bool]

private theorem unambiguous_entries (met : Entries Json) (meets : Meets (.obj entries) met) :
    Unambiguous met := by
  rcases meets.of_hasWrapper (by decide +kernel) with rfl | meets
  · decide +kernel
  have first : round entries = once := by decide +kernel
  rw [first] at meets
  rcases meets.of_hasWrapper (by decide +kernel) with rfl | meets
  · decide +kernel
  have second : round once = twice := by decide +kernel
  rw [second] at meets
  rcases meets.of_not_hasWrapper (by decide +kernel) with ⟨entry, listed, meets⟩ | ⟨wrapper, -⟩
  · simp only [twice, List.mem_cons, List.not_mem_nil, or_false] at listed
    rcases listed with rfl | rfl | rfl
    · exact absurd meets (not_meets_of_plain (.str "deep") met)
    · exact absurd meets (not_meets_of_plain (.num (.integer 3)) met)
    · exact unambiguous_box met meets
  · exact absurd wrapper (by decide +kernel)

end Shuffled

open Shuffled in
theorem flatten_reordered_shuffled :
    Json.Reordered (.obj entries) (.obj shuffled) ∧ (Json.obj entries).Distinct ∧
      (∀ met, Meets (.obj entries) met → Unambiguous met) ∧
      (Json.obj entries).flatten.Reordered (Json.obj shuffled).flatten :=
  ⟨reordered_shuffled, distinct_entries, unambiguous_entries,
    flatten_reordered (.obj entries) (.obj shuffled) reordered_shuffled distinct_entries
      unambiguous_entries⟩

/-- Of two wrappers of one member the later one is kept, so that their order matters. -/
example :
    let left : String × Json :=
      ("aOneOfType", .obj [("object_type", .str "size"), ("size", .num (.integer 1))])
    let right : String × Json :=
      ("bOneOfType", .obj [("object_type", .str "size"), ("size", .num (.integer 2))])
    Json.flatten (.obj [left, right]) = .obj [("size", .num (.integer 2))] ∧
      Json.flatten (.obj [right, left]) = .obj [("size", .num (.integer 1))] := by
  decide +kernel

end ToolContract
