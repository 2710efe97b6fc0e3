import ToolContract.Proofs.Call.Content
import ToolContract.Proofs.Call.Extras

/-!
# Which keys flattening brings to the root

Flattening gives an object the names of the members that its wrappers name, and keeps all names that
are not of the form of a oneof property (`Json.mem_keys_flatten_iff`). Extra properties are taken out
before that, so a wrapper of the caller can bring the name of an extra property back to the root: the
payload of a prepared call has it exactly if a wrapper at the root names it in the course of
flattening (`prepared_payload`).
-/

set_option autoImplicit false

namespace ToolContract

namespace Flatten

/-- In the course of flattening the entries, a wrapper among them names the member: at once, after a
round, or once their values are flattened. -/
inductive Promotes : Entries Json → String → Prop where
  | wrapper {entries entry member} :
      entry ∈ entries → wrapperMember? entry = some member → Promotes entries member
  | round {entries member} :
      hasWrapper entries = true → Promotes (round entries) member → Promotes entries member
  | values {entries member} :
      hasWrapper entries = false → Promotes (Json.flattenValues entries) member →
      Promotes entries member

/-! ## The names after a round -/

private theorem mem_keys_or_promotes_of_round {entries : Entries Json} {name : String}
    (member : name ∈ (round entries).keys) : name ∈ entries.keys ∨ Promotes entries name := by
  obtain ⟨entry, listed, rfl⟩ := mem_keys_round_iff.mp member
  cases wrapper : wrapperMember? entry with
  | some name =>
    rw [rewritten_of_wrapper wrapper]
    exact .inr (.wrapper listed wrapper)
  | none =>
    rw [rewritten, wrapper]
    exact .inl (Entries.mem_keys_of_mem listed)

end Flatten

namespace Json

open Flatten

private theorem keys_flattenValues (entries : Entries Json) :
    (flattenValues entries).keys = entries.keys :=
  Entries.keys_map flatten entries

/-! ## What a round leaves to flatten -/

private theorem flatten_round {entries : Entries Json} (wrapper : hasWrapper entries = true) :
    (Json.obj (round entries)).flatten = (Json.obj entries).flatten := by
  rw [flatten_obj, flatten_obj, rounds_of_hasWrapper wrapper]

private theorem flatten_flattenValues {entries : Entries Json}
    (plain : hasWrapper entries = false) :
    (Json.obj (flattenValues entries)).flatten = (Json.obj entries).flatten := by
  have start := rounds_of_not_hasWrapper plain
  -- a flattened value may make its entry a wrapper; then the object is flattened once more
  cases wrapper : hasWrapper (flattenValues entries) with
  | true =>
    rw [← start] at wrapper
    rw [flatten_obj_of_hasWrapper wrapper, start]
  | false =>
    have settled : (Json.obj entries).flatten = .obj (flattenValues entries) := by
      rw [← start] at wrapper
      rw [flatten_obj_of_not_hasWrapper wrapper, start]
    rw [← settled]
    exact (flatten_normal _).2.2

/-! ## The names at the root -/

section Root

variable {entries flat : Entries Json} {name : String}

/-- A name at the root of the flattened object was there before, or was named by a wrapper. -/
theorem mem_keys_or_promotes (flattened : (Json.obj entries).flatten = .obj flat)
    (member : name ∈ flat.keys) : name ∈ entries.keys ∨ Promotes entries name := by
  -- what later rounds promote is carried along, since each round starts from other entries
  let holds (current : Entries Json) : Prop :=
    (∀ name ∈ current.keys, name ∈ entries.keys ∨ Promotes entries name) ∧
      ∀ name, Promotes current name → Promotes entries name
  have rounded (current : Entries Json) (wrapper : hasWrapper current = true)
      (held : holds current) : holds (round current) := by
    obtain ⟨origin, promotes⟩ := held
    refine ⟨fun name member => ?_, fun name later => promotes name (.round wrapper later)⟩
    rcases mem_keys_or_promotes_of_round member with old | named
    · exact origin name old
    · exact .inr (promotes name named)
  have valued (current : Entries Json) (plain : hasWrapper current = false)
      (held : holds current) : holds (flattenValues current) := by
    obtain ⟨origin, promotes⟩ := held
    refine ⟨?_, fun name later => promotes name (.values plain later)⟩
    rwa [keys_flattenValues]
  have start : holds entries := ⟨fun _ => .inl, fun _ => id⟩
  obtain ⟨others, again, origin, -⟩ := exists_flatten_obj rounded valued start
  obtain rfl := Json.obj.inj (again.symm.trans flattened)
  exact origin name member

/-- A name that is not of the form of a oneof property stays at the root. -/
theorem mem_keys_flatten_of_mem (plain : isOneofKey name = false)
    (flattened : (Json.obj entries).flatten = .obj flat) (member : name ∈ entries.keys) :
    name ∈ flat.keys := by
  have rounded (current : Entries Json) (_ : hasWrapper current = true)
      (member : name ∈ current.keys) : name ∈ (round current).keys :=
    mem_keys_round_of_plain plain member
  have valued (current : Entries Json) (_ : hasWrapper current = false)
      (member : name ∈ current.keys) : name ∈ (flattenValues current).keys := by
    rwa [keys_flattenValues]
  obtain ⟨others, again, kept⟩ := exists_flatten_obj rounded valued member
  obtain rfl := Json.obj.inj (again.symm.trans flattened)
  exact kept

private theorem mem_keys_flatten_of_promotes (plain : isOneofKey name = false)
    (flattened : (Json.obj entries).flatten = .obj flat) (promotes : Promotes entries name) :
    name ∈ flat.keys := by
  induction promotes with
  | @wrapper entries entry name listed named =>
    rw [← flatten_round (List.any_eq_true.mpr ⟨entry, listed, by simp [named]⟩)] at flattened
    refine mem_keys_flatten_of_mem plain flattened (mem_keys_round_iff.mpr ⟨entry, listed, ?_⟩)
    rw [rewritten_of_wrapper named]
  | round wrapper _ ih => exact ih plain ((flatten_round wrapper).trans flattened)
  | values settled _ ih => exact ih plain ((flatten_flattenValues settled).trans flattened)

theorem mem_keys_flatten_iff (plain : isOneofKey name = false)
    (flattened : (Json.obj entries).flatten = .obj flat) :
    name ∈ flat.keys ↔ name ∈ entries.keys ∨ Promotes entries name := by
  refine ⟨mem_keys_or_promotes flattened, fun given => ?_⟩
  rcases given with member | promotes
  · exact mem_keys_flatten_of_mem plain flattened member
  · exact mem_keys_flatten_of_promotes plain flattened promotes

end Root

/-! ## Members that no discriminator names -/

/-- No object in the value has the member as the text of its discriminator. -/
abbrev NeverNames (value : Json) (member : String) : Prop :=
  value.AllObjects fun entries => (discriminatorKey, .str member) ∉ entries

private theorem neverNames_iff {value : Json} {member : String} :
    value.NeverNames member ↔
      ∀ entry ∈ value.entriesWithin, entry ≠ (discriminatorKey, .str member) := by
  rw [← allObjects_iff_entriesWithin]
  have same : (fun entries : Entries Json => (discriminatorKey, Json.str member) ∉ entries) =
      fun entries => ∀ entry ∈ entries, entry ≠ (discriminatorKey, .str member) := by
    funext entries
    exact propext ⟨fun untagged entry listed same => untagged (same ▸ listed),
      fun untagged listed => untagged _ listed rfl⟩
  rw [NeverNames, same]

/-- A member that no discriminator names is never promoted. -/
theorem not_promotes {entries : Entries Json} {member : String}
    (never : (Json.obj entries).NeverNames member) : ¬ Promotes entries member := by
  have kept := kept_untagged member
  rw [neverNames_iff] at never
  intro promotes
  induction promotes with
  | @wrapper entries entry member listed named =>
    obtain ⟨-, content, held, tag⟩ := wrapperMember?_eq_some_iff.mp named
    have inside : (discriminatorKey, .str member) ∈ entry.2.entriesWithin :=
      held ▸ mem_entriesWithin_obj.mpr ⟨_, Entries.mem_of_get? tag, .inl rfl⟩
    exact never _ (mem_entriesWithin_obj.mpr ⟨entry, listed, .inr inside⟩) rfl
  | round _ _ ih => exact ih (fits_round kept never) kept
  | values _ _ ih =>
    refine ih (fits_flattenValues kept never fun entry listed => ?_) kept
    exact fits_flatten kept fun inner within =>
      never inner (mem_entriesWithin_obj.mpr ⟨entry, listed, .inr within⟩)

end Json

/-! ## Prepared calls -/

namespace PreparedCall

theorem ofArguments_of_root {extras : List ExtraProperty} {arguments : Json}
    {entries : Entries Json} (found : root arguments = .ok entries) :
    ofArguments extras arguments = (Context.take extras ∅ entries).1.map fun context =>
      ⟨(Json.obj (Context.take extras ∅ entries).2).flatten, context⟩ := by
  rcases taken : Context.take extras ∅ entries with ⟨_ | context, left⟩ <;>
    simp [ofArguments, found, taken, bind, Except.bind, pure, Except.pure, Except.map]

theorem exists_call_of_isOk {extras : List ExtraProperty} {arguments : Json}
    (succeeds : (ofArguments extras arguments).isOk = true) :
    ∃ call, ofArguments extras arguments = .ok call := by
  cases prepared : ofArguments extras arguments with
  | error cause => simp [prepared, Except.isOk, Except.toBool] at succeeds
  | ok call => exact ⟨call, rfl⟩

theorem ofArguments_eq_ok {extras : List ExtraProperty} {arguments : Json} {call : PreparedCall}
    (prepared : ofArguments extras arguments = .ok call) :
    ∃ entries, root arguments = .ok entries ∧
      call.payload = (Json.obj (Context.remaining extras entries)).flatten := by
  cases found : root arguments with
  | error cause =>
    rw [ofArguments, found] at prepared
    cases prepared
  | ok entries =>
    rw [ofArguments_of_root found] at prepared
    rcases taken : Context.take extras ∅ entries with ⟨_ | context, left⟩
    · rw [taken] at prepared
      cases prepared
    · rw [taken] at prepared
      obtain rfl := Except.ok.inj prepared
      exact ⟨entries, rfl, by rw [Context.left_of_take_ok taken]⟩

private theorem root_neverNames {arguments : Json} {entries : Entries Json} {member : String}
    (found : root arguments = .ok entries) (never : arguments.NeverNames member) :
    (Json.obj entries).NeverNames member := by
  cases arguments with
  | null =>
    obtain rfl := Except.ok.inj found
    exact .obj List.not_mem_nil fun _ listed => absurd listed List.not_mem_nil
  | obj others =>
    obtain rfl := Except.ok.inj found
    exact never
  | _ => cases found

end PreparedCall

/-- The payload of a prepared call is an object without wrappers at any depth. It has the name of an
extra property at its root exactly if, in the course of flattening what is left of the arguments, a
wrapper at the root names it (for a name of the form of a oneof property, only if); so it has none if
no discriminator in the arguments has the text of such a name. -/
theorem prepared_payload (extras : List ExtraProperty) (arguments : Json) (call : PreparedCall)
    (prepared : PreparedCall.ofArguments extras arguments = .ok call) :
    ∃ entries payload : Entries Json, PreparedCall.root arguments = .ok entries ∧
      call.payload = .obj payload ∧ call.payload.WrapperFree ∧
      ∀ extra ∈ extras,
        (extra.name ∈ payload.keys →
          Flatten.Promotes (Context.remaining extras entries) extra.name) ∧
        (isOneofKey extra.name = false →
          Flatten.Promotes (Context.remaining extras entries) extra.name →
          extra.name ∈ payload.keys) ∧
        (arguments.NeverNames extra.name → extra.name ∉ payload.keys) := by
  obtain ⟨entries, found, flat⟩ := PreparedCall.ofArguments_eq_ok prepared
  obtain ⟨payload, object⟩ := Json.flatten_obj_eq_obj (Context.remaining extras entries)
  refine ⟨entries, payload, found, flat.trans object, flat ▸ Json.wrapperFree_flatten _,
    fun extra member => ?_⟩
  have promoted (present : extra.name ∈ Entries.keys payload) :
      Flatten.Promotes (Context.remaining extras entries) extra.name := by
    refine (Json.mem_keys_or_promotes object present).resolve_left fun old => ?_
    obtain ⟨value, held⟩ := Entries.exists_get? old
    exact (Context.mem_remaining_iff.mp (Entries.mem_of_get? held)).2 extra member rfl
  refine ⟨promoted, fun plain => Json.mem_keys_flatten_of_promotes plain object,
    fun never present => ?_⟩
  obtain ⟨untagged, inside⟩ := Json.allObjects_obj_iff.mp
    (PreparedCall.root_neverNames found never)
  refine Json.not_promotes (.obj (fun tagged => ?_) fun entry listed => ?_) (promoted present)
  · exact untagged (Context.mem_remaining_iff.mp tagged).1
  · exact inside entry (Context.mem_remaining_iff.mp listed).1

/-! ### A caller who names an extra property -/

namespace Smuggled

def tenant : ExtraProperty where
  name := "tenant"
  description := "The tenant of the caller."
  required := true
  contextKey := "x-tenant"

/-- Arguments with a wrapper that names the extra property, which they also supply. -/
def arguments : Json :=
  .obj [("id", .str "a1"), ("tenant", .str "t1"),
    ("kindOneOfType", .obj [("object_type", .str "tenant"), ("tenant", .str "t9")])]

/-- Arguments with a wrapper that names a field of the request. -/
def honest : Json :=
  .obj [("id", .str "a1"), ("tenant", .str "t1"),
    ("kindOneOfType", .obj [("object_type", .str "label"), ("label", .str "desk")])]

end Smuggled

open Smuggled in
/-- The extra property is taken out of the arguments; flattening puts its name back at the root. -/
theorem extra_property_returns :
    ∃ call, ∃ payload : Entries Json, PreparedCall.ofArguments [tenant] arguments = .ok call ∧
      call.payload = .obj payload ∧ payload = [("id", .str "a1"), ("tenant", .str "t9")] ∧
      tenant.name ∈ payload.keys := by
  obtain ⟨call, ran⟩ : ∃ call, PreparedCall.ofArguments [tenant] arguments = .ok call :=
    PreparedCall.exists_call_of_isOk (by decide +kernel)
  have flat : (PreparedCall.ofArguments [tenant] arguments).toOption.map PreparedCall.payload =
      some (.obj [("id", .str "a1"), ("tenant", .str "t9")]) := by decide +kernel
  rw [ran] at flat
  exact ⟨call, _, ran, Option.some.inj flat, rfl, by decide⟩

open Smuggled in
theorem prepared_payload_honest :
    ∃ call entries, PreparedCall.ofArguments [tenant] honest = .ok call ∧
      call.payload = .obj entries ∧ call.payload.WrapperFree ∧
      honest.NeverNames "tenant" ∧ "tenant" ∉ Entries.keys entries := by
  obtain ⟨call, ran⟩ : ∃ call, PreparedCall.ofArguments [tenant] honest = .ok call :=
    PreparedCall.exists_call_of_isOk (by decide +kernel)
  obtain ⟨_, entries, -, object, free, extras⟩ := prepared_payload [tenant] honest call ran
  have never : honest.NeverNames "tenant" := by
    simp [honest, Json.allObjects_obj_iff, discriminatorKey, Json.AllObjects.str]
  exact ⟨call, entries, ran, object, free, never,
    (extras tenant List.mem_cons_self).2.2 never⟩

end ToolContract
