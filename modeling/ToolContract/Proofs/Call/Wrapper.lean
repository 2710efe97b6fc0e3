import ToolContract.Proofs.Json.Objects

/-!
# Wrappers

An entry is a wrapper if its key has the form of a oneof property and its value is an object with a
text under the discriminator (`Json.IsWrapper`). It names the member that flattening puts in its
place (`wrapperMember?_eq_some_iff`). A value is free of wrappers if no object in it has one.
-/

set_option autoImplicit false

namespace ToolContract

private theorem isOneofKey_iff {key : String} :
    isOneofKey key = true ↔ ∃ group, key = group ++ oneofSuffix := by
  rw [isOneofKey, List.isSuffixOf_iff_suffix]
  constructor
  · intro suffix
    obtain ⟨front, same⟩ := suffix
    refine ⟨String.ofList front, String.toList_inj.mp ?_⟩
    rw [← same, String.toList_append, String.toList_ofList]
  · rintro ⟨group, rfl⟩
    exact ⟨group.toList, String.toList_append.symm⟩

/-- The key of the entry has the form of a oneof property, and its value is an object with a text
under the discriminator. -/
def Json.IsWrapper (entry : String × Json) : Prop :=
  (∃ group, entry.1 = group ++ oneofSuffix) ∧
    ∃ (content : Entries Json) (member : String),
      entry.2 = .obj content ∧ content.get? discriminatorKey = some (.str member)

private theorem Json.text?_eq_some_iff {value : Json} {text : String} :
    value.text? = some text ↔ value = .str text := by
  cases value <;> simp [Json.text?]

theorem wrapperMember?_eq_some_iff {entry : String × Json} {member : String} :
    wrapperMember? entry = some member ↔
      (∃ group, entry.1 = group ++ oneofSuffix) ∧
        ∃ content : Entries Json, entry.2 = .obj content ∧
          content.get? discriminatorKey = some (.str member) := by
  rcases entry with ⟨key, value⟩
  rw [← isOneofKey_iff, wrapperMember?]
  cases oneof : isOneofKey key with
  | false => simp
  | true =>
    cases value with
    | obj content => simp [Option.bind_eq_some_iff, Json.text?_eq_some_iff]
    | _ => simp

theorem wrapperMember?_of_discriminator {group member : String} {content : Entries Json}
    (tag : content.get? discriminatorKey = some (.str member)) :
    wrapperMember? (group ++ oneofSuffix, .obj content) = some member :=
  wrapperMember?_eq_some_iff.mpr ⟨⟨group, rfl⟩, content, rfl, tag⟩

private theorem isSome_wrapperMember?_iff {entry : String × Json} :
    (wrapperMember? entry).isSome = true ↔ Json.IsWrapper entry := by
  rw [Option.isSome_iff_exists]
  constructor
  · intro given
    obtain ⟨member, named⟩ := given
    obtain ⟨key, content, held, tag⟩ := wrapperMember?_eq_some_iff.mp named
    exact ⟨key, content, member, held, tag⟩
  · intro given
    obtain ⟨key, content, member, held, tag⟩ := given
    exact ⟨member, wrapperMember?_eq_some_iff.mpr ⟨key, content, held, tag⟩⟩

theorem hasWrapper_eq_false_iff {entries : Entries Json} :
    hasWrapper entries = false ↔ ∀ entry ∈ entries, ¬ Json.IsWrapper entry := by
  rw [hasWrapper, List.any_eq_false]
  exact forall₂_congr fun entry _ => not_congr isSome_wrapperMember?_iff

theorem wrapperMember?_of_plain {entry : String × Json} (plain : isOneofKey entry.1 = false) :
    wrapperMember? entry = none := by
  simp [wrapperMember?, plain]

theorem hasWrapper_of_plainKeys {entries : Entries Json} (plain : Json.PlainKeys entries) :
    hasWrapper entries = false := by
  rw [hasWrapper, List.any_eq_false]
  intro entry member
  rw [wrapperMember?_of_plain (plain entry.1 (Entries.mem_keys_of_mem member))]
  exact Bool.false_ne_true

theorem promoted_of_some {member : String} {content : Entries Json} {value : Json}
    (found : content.get? member = some value) : promoted member (.obj content) = value := by
  rw [promoted, found]

theorem promoted_of_none {member : String} {content : Entries Json}
    (absent : content.get? member = none) :
    promoted member (.obj content) = .obj (content.erase discriminatorKey) := by
  rw [promoted, absent]

namespace Json

/-- No object in the value, at any depth, has an entry that is a wrapper. -/
abbrev WrapperFree (value : Json) : Prop :=
  value.AllObjects fun entries => ∀ entry ∈ entries, ¬ IsWrapper entry

theorem Plain.wrapperFree {value : Json} (plain : value.Plain) : value.WrapperFree :=
  plain.imp fun _ keys => hasWrapper_eq_false_iff.mp (hasWrapper_of_plainKeys keys)

end Json

end ToolContract
