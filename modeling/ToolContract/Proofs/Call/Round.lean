import Mathlib.Logic.Function.Iterate
import ToolContract.Proofs.Call.Level

/-!
# Rounds of flattening, entry by entry

A round goes through the entries of an object and builds the new object as it goes: a wrapper's
member displaces what has its name. What comes of it can be said of the list of entries at once:
each wrapper gives way to its member in place, entries whose key some wrapper names go, and of
entries that came to one key the last stays where it is (`Flatten.replaceWrappers`). The rounds of an
object are that replacement repeated until no wrapper is left (`Flatten.rounds_replaceWrappers`).
-/

set_option autoImplicit false

namespace ToolContract

namespace Entries

variable {α : Type}

/-- Of the entries with one key the last is kept, at its position. -/
def lastOfEach : Entries α → Entries α
  | [] => []
  | entry :: rest =>
    if entry.1 ∈ keys rest then lastOfEach rest else entry :: lastOfEach rest

private theorem lastOfEach_of_distinct {entries : Entries α} (distinct : entries.Distinct) :
    entries.lastOfEach = entries := by
  induction entries with
  | nil => rfl
  | cons entry rest ih =>
    have ⟨(last : entry.1 ∉ keys rest), others⟩ := List.nodup_cons.mp distinct
    rw [lastOfEach, if_neg last, ih others]

private theorem lastOfEach_sublist (entries : Entries α) : entries.lastOfEach.Sublist entries := by
  induction entries with
  | nil => exact List.Sublist.refl _
  | cons entry rest ih =>
    rw [lastOfEach]
    split
    · exact ih.cons entry
    · exact ih.cons_cons entry

/-- What stands before another entry of its key can be erased beforehand. -/
theorem lastOfEach_erase_append (entry : String × α) (left right : Entries α) :
    lastOfEach (erase entry.1 left ++ entry :: right) = lastOfEach (left ++ entry :: right) := by
  induction left with
  | nil => rfl
  | cons first rest ih =>
    by_cases same : first.1 = entry.1
    · have later : first.1 ∈ keys (rest ++ entry :: right) := by
        rw [keys_append, keys_cons, same]
        exact List.mem_append_right _ List.mem_cons_self
      have gone : erase entry.1 (first :: rest) = erase entry.1 rest :=
        List.filter_cons_of_neg (by simp [same])
      rw [gone, ih, List.cons_append, lastOfEach, if_pos later]
    · have alike : first.1 ∈ keys (erase entry.1 rest ++ entry :: right) ↔
          first.1 ∈ keys (rest ++ entry :: right) := by
        simp only [keys_append, List.mem_append, mem_keys_erase_iff, same, ne_eq,
          not_false_eq_true, and_true]
      have kept : erase entry.1 (first :: rest) = first :: erase entry.1 rest :=
        List.filter_cons_of_pos (by simp [same])
      rw [kept, List.cons_append, List.cons_append, lastOfEach, lastOfEach, ih]
      simp only [alike]

end Entries

namespace Flatten

/-! ## The entries after a round -/

private theorem step_sublist (members : List String) (done : Entries Json) (entry : String × Json) :
    (step members done entry).Sublist (rewritten entry :: done) := by
  cases wrapper : wrapperMember? entry with
  | some member =>
    simp only [step, wrapper, rewritten_of_wrapper wrapper]
    exact List.filter_sublist.cons_cons _
  | none =>
    simp only [step, rewritten, wrapper]
    split
    · exact List.sublist_cons_self _ _
    · exact List.Sublist.refl _

private theorem reverse_foldl_step_sublist (members : List String) (entries done : Entries Json) :
    (entries.foldl (step members) done).reverse.Sublist
      (done.reverse ++ entries.map rewritten) := by
  induction entries generalizing done with
  | nil => simp
  | cons entry rest ih =>
    have first : (step members done entry).reverse.Sublist (done.reverse ++ [rewritten entry]) := by
      simpa using (step_sublist members done entry).reverse
    have joined : done.reverse ++ [rewritten entry] ++ rest.map rewritten =
        done.reverse ++ (entry :: rest).map rewritten := by simp
    rw [List.foldl_cons, ← joined]
    exact (ih _).trans (first.append_right _)

/-- A round rewrites entries in their places and leaves some of them out. -/
theorem round_sublist (entries : Entries Json) :
    (round entries).Sublist (entries.map rewritten) :=
  reverse_foldl_step_sublist _ entries []

/-- Each entry after a round is what the round makes of an entry before it. -/
theorem mem_round {entries : Entries Json} {entry : String × Json}
    (member : entry ∈ round entries) :
    ∃ old ∈ entries, entry = rewritten old := by
  obtain ⟨old, listed, same⟩ := List.mem_map.mp ((round_sublist entries).subset member)
  exact ⟨old, listed, same.symm⟩

private theorem keys_step_subset (members : List String) (done : Entries Json)
    (entry : String × Json) :
    done.keys ⊆ (step members done entry).keys := by
  intro name member
  cases wrapper : wrapperMember? entry with
  | some wrapped =>
    simp only [step, wrapper, Entries.keys_cons, List.mem_cons, Entries.mem_keys_erase_iff]
    by_cases same : name = wrapped
    · exact .inl same
    · exact .inr ⟨member, same⟩
  | none =>
    simp only [step, wrapper]
    split
    · exact member
    · exact List.mem_cons_of_mem _ member

private theorem keys_subset_foldl_step (members : List String) (entries done : Entries Json) :
    done.keys ⊆ (entries.foldl (step members) done).keys := by
  induction entries generalizing done with
  | nil => exact List.Subset.refl _
  | cons entry rest ih => exact List.Subset.trans (keys_step_subset members done entry) (ih _)

private theorem mem_keys_foldl_step {members : List String} {entries : Entries Json}
    {entry : String × Json} (listed : entry ∈ entries)
    (kept : wrapperMember? entry = none → entry.1 ∉ members) (done : Entries Json) :
    (rewritten entry).1 ∈ (entries.foldl (step members) done).keys := by
  induction entries generalizing done with
  | nil => contradiction
  | cons first rest ih =>
    rcases List.mem_cons.mp listed with rfl | later
    · refine keys_subset_foldl_step members rest _ ?_
      cases wrapper : wrapperMember? entry with
      | some name => simp [step, wrapper, rewritten]
      | none =>
        simp only [step, wrapper, if_neg (kept wrapper), rewritten]
        exact List.mem_cons_self
    · exact ih later _

private theorem keys_reverse (entries : Entries Json) :
    Entries.keys entries.reverse = entries.keys.reverse := by
  simp [Entries.keys]

/-- A round gives an object the names that its entries come to. -/
theorem mem_keys_round_iff {entries : Entries Json} {name : String} :
    name ∈ (round entries).keys ↔ ∃ entry ∈ entries, (rewritten entry).1 = name := by
  constructor
  · intro member
    obtain ⟨value, found⟩ := Entries.exists_get? member
    obtain ⟨old, listed, same⟩ := mem_round (Entries.mem_of_get? found)
    exact ⟨old, listed, by rw [← same]⟩
  · rintro ⟨entry, listed, rfl⟩
    rw [round, keys_reverse, List.mem_reverse]
    by_cases dropped : wrapperMember? entry = none ∧
        entry.1 ∈ entries.filterMap wrapperMember?
    · -- the entry gives way to a wrapper that names its key
      obtain ⟨plain, named⟩ := dropped
      obtain ⟨wrapper, inside, found⟩ := List.mem_filterMap.mp named
      have same : (rewritten entry).1 = (rewritten wrapper).1 := by
        simp [rewritten, plain, found]
      rw [same]
      exact mem_keys_foldl_step inside (fun none => by simp [none] at found) []
    · exact mem_keys_foldl_step listed (fun plain named => dropped ⟨plain, named⟩) []

theorem mem_keys_round_of_plain {entries : Entries Json} {name : String}
    (plain : isOneofKey name = false) (member : name ∈ entries.keys) :
    name ∈ (round entries).keys := by
  obtain ⟨value, found⟩ := Entries.exists_get? member
  have kept : rewritten (name, value) = (name, value) := rewritten_of_plain plain
  exact mem_keys_round_iff.mpr ⟨_, Entries.mem_of_get? found, congrArg Prod.fst kept⟩

/-! ## The replacement of wrappers -/

/-- What becomes of an entry where these members are named. A wrapper gives way to the member that it
names: to what it holds under that name, or else to itself without the discriminator. An entry that is
no wrapper goes if its key is one of the members, and else stays as it is. -/
def replacement? (members : List String) (entry : String × Json) : Option (String × Json) :=
  match wrapperMember? entry, entry.2 with
  | some member, .obj content =>
    some (member,
      (Entries.get? member content).getD (.obj (Entries.erase discriminatorKey content)))
  | _, _ => if entry.1 ∈ members then none else some entry

private theorem replacement?_of_wrapper {members : List String} {entry : String × Json}
    {member : String}
    (wrapper : wrapperMember? entry = some member) :
    replacement? members entry = some (member, promoted member entry.2) := by
  obtain ⟨-, content, held, -⟩ := wrapperMember?_eq_some_iff.mp wrapper
  simp only [replacement?, wrapper, held]
  cases found : Entries.get? member content with
  | none => rw [promoted_of_none found, Option.getD_none]
  | some value => rw [promoted_of_some found, Option.getD_some]

private theorem replacement?_of_none {members : List String} {entry : String × Json}
    (plain : wrapperMember? entry = none) :
    replacement? members entry = if entry.1 ∈ members then none else some entry := by
  rw [replacement?, plain]

/-- The entries with what becomes of each in its place, and of those with one key the last. -/
def replaceWrappers (entries : Entries Json) : Entries Json :=
  Entries.lastOfEach (entries.filterMap (replacement? (entries.filterMap wrapperMember?)))

/-! ## What the steps of a round amount to -/

/-- A step appends what becomes of its entry, and erases before it what that displaces. -/
theorem lastOfEach_step (members : List String) (done : Entries Json) (entry : String × Json)
    (later : Entries Json) :
    Entries.lastOfEach ((step members done entry).reverse ++ later) =
      Entries.lastOfEach (done.reverse ++ ((replacement? members entry).toList ++ later)) := by
  cases wrapper : wrapperMember? entry with
  | some member =>
    have erased : (done.erase member).reverse = Entries.erase member done.reverse :=
      List.filter_reverse.symm
    rw [replacement?_of_wrapper wrapper]
    simp only [step, wrapper, Option.toList_some, List.reverse_cons, List.append_assoc,
      List.singleton_append, erased]
    exact Entries.lastOfEach_erase_append (member, promoted member entry.2) _ _
  | none =>
    rw [replacement?_of_none wrapper]
    simp only [step, wrapper]
    split
    · rfl
    · rw [List.reverse_cons, List.append_assoc, Option.toList_some]

private theorem lastOfEach_foldl_step (members : List String) (entries done later : Entries Json) :
    Entries.lastOfEach ((entries.foldl (step members) done).reverse ++ later) =
      Entries.lastOfEach (done.reverse ++ (entries.filterMap (replacement? members) ++ later)) := by
  induction entries generalizing done with
  | nil => rfl
  | cons entry rest ih =>
    rw [List.foldl_cons, ih, lastOfEach_step]
    cases became : replacement? members entry with
    | none => rw [List.filterMap_cons_none became, Option.toList_none, List.nil_append]
    | some new => rw [List.filterMap_cons_some became, Option.toList_some]; rfl

/-! ## Objects stay objects -/

/-- A key that steps over an entry bring in is one of the members, if it is not the entry's own. -/
theorem mem_keys_step {members : List String} {done : Entries Json} {entry : String × Json}
    (named : ∀ member, wrapperMember? entry = some member → member ∈ members) {key : String}
    (present : key ∈ (step members done entry).keys) :
    key ∈ done.keys ∨ key ∈ members ∨ key = entry.1 := by
  obtain ⟨value, found⟩ := Entries.exists_get? present
  have origin := (step_sublist members done entry).subset (Entries.mem_of_get? found)
  rcases List.mem_cons.mp origin with new | old
  case inr => exact .inl (Entries.mem_keys_of_mem old)
  case inl =>
    cases wrapper : wrapperMember? entry with
    | some member =>
      obtain ⟨rfl, -⟩ := Prod.mk.inj (new.trans (rewritten_of_wrapper wrapper))
      exact .inr (.inl (named key wrapper))
    | none =>
      rw [rewritten, wrapper] at new
      exact .inr (.inr (congrArg Prod.fst new))

private theorem distinct_step {members : List String} {done : Entries Json} {entry : String × Json}
    (distinct : done.Distinct) (fresh : entry.1 ∈ done.keys → entry.1 ∈ members) :
    (step members done entry).Distinct := by
  cases wrapper : wrapperMember? entry with
  | some member =>
    simp only [step, wrapper]
    exact List.nodup_cons.mpr
      ⟨fun kept => (Entries.mem_keys_erase_iff.mp kept).2 rfl, distinct.erase member⟩
  | none =>
    simp only [step, wrapper]
    split
    · exact distinct
    · rename_i unnamed
      exact List.nodup_cons.mpr ⟨fun present => unnamed (fresh present), distinct⟩

private theorem distinct_foldl_step {members : List String} {entries done : Entries Json}
    (named : ∀ entry ∈ entries, ∀ member, wrapperMember? entry = some member → member ∈ members)
    (distinct : entries.Distinct) (doneDistinct : done.Distinct)
    (fresh : ∀ entry ∈ entries, entry.1 ∈ done.keys → entry.1 ∈ members) :
    Entries.Distinct (entries.foldl (step members) done) := by
  induction entries generalizing done with
  | nil => exact doneDistinct
  | cons entry rest ih =>
    have ⟨(alone : entry.1 ∉ Entries.keys rest), others⟩ := List.nodup_cons.mp distinct
    rw [List.foldl_cons]
    refine ih (fun other listed => named other (List.mem_cons_of_mem _ listed)) others
      (distinct_step doneDistinct (fresh entry List.mem_cons_self)) fun other listed present => ?_
    rcases mem_keys_step (named entry List.mem_cons_self) present with old | member | same
    · exact fresh other (List.mem_cons_of_mem _ listed) old
    · exact member
    · exact absurd (same ▸ Entries.mem_keys_of_mem listed) alone

theorem distinct_round {entries : Entries Json} (distinct : entries.Distinct) :
    (round entries).Distinct := by
  have built : Entries.Distinct (entries.foldl (step (entries.filterMap wrapperMember?)) []) := by
    refine distinct_foldl_step (fun entry listed member wrapper => ?_) distinct List.nodup_nil
      fun _ _ present => absurd present List.not_mem_nil
    exact List.mem_filterMap.mpr ⟨entry, listed, wrapper⟩
  rw [Entries.Distinct, round, keys_reverse]
  exact List.nodup_reverse.mpr built

/-- On an object, a round is the replacement of its wrappers. -/
theorem round_eq_replaceWrappers {entries : Entries Json} (distinct : entries.Distinct) :
    round entries = replaceWrappers entries := by
  have same := lastOfEach_foldl_step (entries.filterMap wrapperMember?) entries [] []
  rw [List.append_nil, List.append_nil] at same
  rw [← Entries.lastOfEach_of_distinct (distinct_round distinct)]
  exact same

/-- On an object, an entry after a round is the member of a wrapper, or it was there before and no
wrapper names its key. -/
theorem wrapped_or_kept_of_mem_round {entries : Entries Json} (distinct : entries.Distinct)
    {name : String} {value : Json} (member : (name, value) ∈ round entries) :
    (∃ wrapper ∈ entries, wrapperMember? wrapper = some name ∧ value = promoted name wrapper.2) ∨
      ((name, value) ∈ entries ∧ name ∉ entries.filterMap wrapperMember?) := by
  rw [round_eq_replaceWrappers distinct] at member
  have replaced := (Entries.lastOfEach_sublist _).subset member
  obtain ⟨old, listed, became⟩ := List.mem_filterMap.mp replaced
  cases wrapper : wrapperMember? old with
  | some named =>
    rw [replacement?_of_wrapper wrapper] at became
    obtain ⟨rfl, rfl⟩ := Prod.mk.inj (Option.some.inj became)
    exact .inl ⟨old, listed, wrapper, rfl⟩
  | none =>
    rw [replacement?_of_none wrapper] at became
    split at became
    · cases became
    · rename_i unnamed
      obtain rfl := Option.some.inj became
      exact .inr ⟨listed, unnamed⟩

/-! ## All rounds -/

private theorem rounds_eq_iterate {entries : Entries Json} (distinct : entries.Distinct) :
    ∃ count, rounds entries = replaceWrappers^[count] entries ∧
      ∀ earlier < count, hasWrapper (replaceWrappers^[earlier] entries) = true := by
  fun_induction rounds entries with
  | case1 entries wrapper ih =>
    have first := round_eq_replaceWrappers distinct
    obtain ⟨count, same, before⟩ := ih (distinct_round distinct)
    refine ⟨count + 1, by rw [same, first, Function.iterate_succ_apply], fun earlier below => ?_⟩
    cases earlier with
    | zero => exact wrapper
    | succ earlier =>
      rw [Function.iterate_succ_apply, ← first]
      exact before earlier (Nat.lt_of_succ_lt_succ below)
  | case2 entries => exact ⟨0, rfl, fun _ below => absurd below (Nat.not_lt_zero _)⟩

/-- On an object one round is the replacement of its wrappers, and all rounds are that replacement
repeated until no wrapper is left. -/
theorem rounds_replaceWrappers (entries : Entries Json) (distinct : entries.Distinct) :
    round entries = replaceWrappers entries ∧
      ∃ count, rounds entries = replaceWrappers^[count] entries ∧
        hasWrapper (replaceWrappers^[count] entries) = false ∧
        ∀ earlier < count, hasWrapper (replaceWrappers^[earlier] entries) = true := by
  obtain ⟨count, same, before⟩ := rounds_eq_iterate distinct
  exact ⟨round_eq_replaceWrappers distinct, count, same, same ▸ hasWrapper_rounds entries, before⟩

/-! ### Wrappers that name each other's keys -/

namespace Crossed

/-- Three wrappers, of which one names the key of another and two name a key that precedes them. -/
def entries : Entries Json :=
  [("plain", .null), ("label", .str "old"),
    ("aOneOfType", .obj [("object_type", .str "bOneOfType"),
      ("bOneOfType", .obj [("object_type", .str "label"), ("label", .str "deep")])]),
    ("bOneOfType", .obj [("size", .num (.integer 3)), ("object_type", .str "label")]),
    ("cOneOfType", .obj [("object_type", .str "label"), ("label", .str "new")])]

/-- The wrapper that is named stands in the place of the one that names it, and of the two members
of one name the last is left. -/
def once : Entries Json :=
  [("plain", .null),
    ("bOneOfType", .obj [("object_type", .str "label"), ("label", .str "deep")]),
    ("label", .str "new")]

end Crossed

open Crossed in
theorem rounds_replaceWrappers_crossed :
    entries.Distinct ∧ round entries = once ∧ replaceWrappers entries = once ∧
      ∃ count, rounds entries = replaceWrappers^[count] entries ∧
        replaceWrappers^[count] entries = [("plain", .null), ("label", .str "deep")] := by
  have distinct : entries.Distinct := by decide
  obtain ⟨first, count, same, -, -⟩ := rounds_replaceWrappers entries distinct
  have replaced : replaceWrappers entries = once := by decide +kernel
  have settled : rounds entries = [("plain", .null), ("label", .str "deep")] := by decide +kernel
  exact ⟨distinct, first.trans replaced, replaced, count, same, same ▸ settled⟩

end Flatten

end ToolContract
