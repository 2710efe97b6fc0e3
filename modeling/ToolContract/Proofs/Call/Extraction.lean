import ToolContract.Proofs.Call.Extras

/-!
# What extraction takes out of arguments

Extraction goes through the extra properties in their order and stops at the first one that offends.
If none offends, the context has under each key the last text supplied for it, and the arguments keep
what no extra property names; else they have lost what the properties up to the first offending one
name (`Context.extract_outcome`). Arguments that are no object supply nothing and stay as they are.
-/

set_option autoImplicit false

namespace ToolContract

/-- The entries at the root of arguments; only an object has any. -/
def Json.rootEntries : Json → Entries Json
  | .obj entries => entries
  | _ => []

namespace Context

/-- The arguments without the root entries that these extra properties name. -/
def withoutExtras (extras : List ExtraProperty) : Json → Json
  | .obj entries => .obj (remaining extras entries)
  | arguments => arguments

private theorem fst_extract (extras : List ExtraProperty) (arguments : Json) :
    (extract extras arguments).1 = (take extras ∅ arguments.rootEntries).1 := by
  cases arguments <;> rfl

/-- Extraction takes the extra properties from the root entries, whatever the arguments are. -/
theorem extract_of_take {extras named : List ExtraProperty} {arguments : Json}
    {outcome : Except CallError Context}
    (ran : take extras ∅ arguments.rootEntries = (outcome, remaining named arguments.rootEntries)) :
    extract extras arguments = (outcome, withoutExtras named arguments) := by
  cases arguments with
  | obj entries =>
    rw [Json.rootEntries] at ran
    rw [extract, ran, withoutExtras]
  | _ =>
    simp only [Json.rootEntries] at ran
    simp only [extract, ran, withoutExtras]

section

variable {extras : List ExtraProperty} {arguments : Json}

private theorem extract_of_takenFrom (names : (extras.map ExtraProperty.name).Nodup)
    (taken : ∀ extra ∈ extras, extra.TakenFrom arguments.rootEntries) :
    extract extras arguments =
      (.ok (gather extras arguments.rootEntries ∅), withoutExtras extras arguments) := by
  apply extract_of_take
  exact take_of_takenFrom names taken

private theorem extract_of_offendsIn {before after : List ExtraProperty} {extra : ExtraProperty}
    (names : ((before ++ extra :: after).map ExtraProperty.name).Nodup)
    (taken : ∀ earlier ∈ before, earlier.TakenFrom arguments.rootEntries)
    (offends : extra.OffendsIn arguments.rootEntries) :
    extract (before ++ extra :: after) arguments =
      (.error (extra.refusal arguments.rootEntries),
        withoutExtras (before ++ [extra]) arguments) := by
  apply extract_of_take
  exact take_of_offendsIn names taken offends

/-- Extraction that succeeds has met no property that offends. -/
theorem takenFrom_of_extract_ok {context : Context} {left : Json}
    (names : (extras.map ExtraProperty.name).Nodup)
    (extracted : extract extras arguments = (.ok context, left)) :
    ∀ extra ∈ extras, extra.TakenFrom arguments.rootEntries := by
  have outcome : (take extras ∅ arguments.rootEntries).1 = .ok context := by
    rw [← fst_extract, extracted]
  exact takenFrom_of_take_ok names (Prod.ext outcome rfl)

end

/-- Let the extra properties have different names. Extraction succeeds exactly if none of them
offends. Then the arguments keep the entries that none of them names, in their order, and the context
has under each key the last text that a property with that key supplies. Otherwise the first property
that offends, in the order of the list, is refused, and the arguments have lost the entries that it
and those before it name. -/
theorem extract_outcome (extras : List ExtraProperty) (arguments : Json)
    (names : (extras.map ExtraProperty.name).Nodup) :
    ((∃ context left, extract extras arguments = (.ok context, left)) ↔
      ∀ extra ∈ extras, ¬ extra.OffendsIn arguments.rootEntries) ∧
    (∀ context left, extract extras arguments = (.ok context, left) →
      left = withoutExtras extras arguments ∧
      ∀ key, context[key]? = (textsUnder extras arguments.rootEntries key).getLast?) ∧
    ∀ before extra after, extras = before ++ extra :: after →
      (∀ earlier ∈ before, ¬ earlier.OffendsIn arguments.rootEntries) →
      extra.OffendsIn arguments.rootEntries →
      extract extras arguments =
        (.error (extra.refusal arguments.rootEntries),
          withoutExtras (before ++ [extra]) arguments) := by
  simp only [ExtraProperty.not_offendsIn_iff]
  refine ⟨⟨?succeeded, ?succeeds⟩, ?result, ?failure⟩
  case succeeded =>
    rintro ⟨context, left, extracted⟩
    exact takenFrom_of_extract_ok names extracted
  case succeeds => exact fun taken => ⟨_, _, extract_of_takenFrom names taken⟩
  case result =>
    intro context left extracted
    have taken := takenFrom_of_extract_ok names extracted
    rw [extract_of_takenFrom names taken] at extracted
    obtain ⟨same, rfl⟩ := Prod.mk.inj extracted
    obtain rfl := Except.ok.inj same
    refine ⟨rfl, fun key => ?_⟩
    rw [getElem?_gather, Std.ExtTreeMap.getElem?_empty, Option.or_none]
  case failure =>
    rintro before extra after rfl taken offends
    exact extract_of_offendsIn names taken offends

/-! ### Two properties with one context key, and a third that is no text -/

namespace Handover

def tenant : ExtraProperty where
  name := "tenant"
  description := "The tenant of the caller."
  required := true
  contextKey := "x-subject"

def actor : ExtraProperty where
  name := "actor"
  description := "Who acts for the tenant."
  contextKey := "x-subject"

def locale : ExtraProperty where
  name := "locale"
  description := "The language of the answer."
  contextKey := "x-locale"

def arguments : Json :=
  .obj [("tenant", .str "t1"), ("id", .str "a1"), ("locale", .num (.integer 7)),
    ("actor", .str "u7"), ("trace", .str "abc")]

end Handover

open Handover in
/-- The later of two texts for a key stays; a number for a text ends the run, and what the properties
after it name is still there. -/
theorem extract_outcome_handover :
    (∃ context : Context, extract [tenant, actor] arguments =
        (.ok context, .obj [("id", .str "a1"), ("locale", .num (.integer 7)), ("trace", .str "abc")]) ∧
      context["x-subject"]? = some "u7" ∧ context["x-locale"]? = none) ∧
    extract [tenant, locale, actor] arguments =
      (.error (.extraNotText "locale"),
        .obj [("id", .str "a1"), ("actor", .str "u7"), ("trace", .str "abc")]) := by
  obtain ⟨succeeds, result, -⟩ := extract_outcome [tenant, actor] arguments (by decide)
  have noOffence : ∀ extra ∈ [tenant, actor], ¬ extra.OffendsIn arguments.rootEntries := by
    simp only [ExtraProperty.not_offendsIn_iff]
    exact List.forall_mem_cons.mpr ⟨.inl ⟨"t1", by decide⟩,
      List.forall_mem_singleton.mpr (.inl ⟨"u7", by decide⟩)⟩
  obtain ⟨context, left, extracted⟩ := succeeds.mpr noOffence
  obtain ⟨rfl, texts⟩ := result context left extracted
  obtain ⟨-, -, failure⟩ := extract_outcome [tenant, locale, actor] arguments (by decide)
  refine ⟨⟨context, extracted, (texts _).trans (by decide), (texts _).trans (by decide)⟩, ?_⟩
  refine failure [tenant] locale [actor] rfl (fun earlier member => ?_) (.inr ?_)
  · obtain rfl := List.mem_singleton.mp member
    exact noOffence tenant List.mem_cons_self
  · exact ⟨.num (.integer 7), by decide, by decide, nofun⟩

end Context

end ToolContract
