import Mathlib.Logic.Relation
import ToolContract.Proofs.Slots

/-!
# The graph of message types

A message refers to the message types of its fields, well-known types apart. `Reaches` closes that
relation; `Preorder` is the order in which a depth-first walk first meets the names. A walk from
one name meets exactly the names it reaches, each once and in one order (`Preorder.mem_iff_reaches`,
`Preorder.nodup`, `Preorder.unique`).
-/

set_option autoImplicit false

namespace ToolContract

/-! ## References -/

/-- The name of the message type that values of the kind are; well-known types are none. -/
def FieldKind.target? : FieldKind → Option String
  | .message name =>
    match WellKnown.ofName? name with
    | some _ => none
    | none => some (QualifiedName.strip name)
  | _ => none

def Field.target? (field : Field) : Option String :=
  field.kind.target?

/-- The message types of the fields of the slot, in order. -/
def Slot.targets (slot : Slot) : List String :=
  slot.fields.filterMap Field.target?

/-- The message types of the fields of the message: each plain field at its position, and all
members of a oneof group at the position of the first of them. -/
def Message.targets (message : Message) : List String :=
  message.openers.flatMap fun opener => (message.fieldsAt opener).filterMap Field.target?

theorem Message.targets_eq_slots (message : Message) :
    message.targets = message.slots.flatMap Slot.targets := by
  rw [slots_eq, List.flatMap_map, targets]
  refine congrArg (List.flatMap · message.openers) (funext fun opener => ?_)
  rw [Slot.targets, slot_fields]

theorem Message.mem_targets_iff {message : Message} {name : String} :
    name ∈ message.targets ↔ ∃ field ∈ message.fields, field.target? = some name := by
  simp only [Message.targets_eq_slots, Slot.targets, List.mem_flatMap, List.mem_filterMap]
  constructor
  · intro given
    obtain ⟨slot, member, field, inside, target⟩ := given
    exact ⟨field, (Message.mem_slot_fields member inside).1, target⟩
  · intro given
    obtain ⟨field, declared, target⟩ := given
    obtain ⟨slot, member, inside⟩ := Message.exists_slot declared
    exact ⟨slot, member, field, inside, target⟩

namespace Registry

theorem message?_eq_some {registry : Registry} {name : String} {message : Message}
    (found : registry.message? name = some message) :
    message.fullName = QualifiedName.strip name ∧
      registry.messages[message.fullName]? = some message := by
  obtain ⟨named, -⟩ := registry.messages_keyed _ _ found
  exact ⟨named, named ▸ found⟩

theorem mem_messageList {registry : Registry} {name : String} {message : Message}
    (registered : registry.messages[name]? = some message) : message ∈ registry.messageList :=
  List.mem_map.mpr ⟨(name, message),
    Std.ExtTreeMap.mem_toList_iff_getElem?_eq_some.mpr registered, rfl⟩

/-- The message registered as `name` has a field of the message type `next`. -/
def Refers (registry : Registry) (name next : String) : Prop :=
  ∃ message, registry.messages[name]? = some message ∧ next ∈ message.targets

/-- The message type `next` is met by following fields from the message `name`. -/
def Reaches (registry : Registry) : String → String → Prop :=
  Relation.ReflTransGen registry.Refers

/-! ## Depth-first walks -/

/-- A depth-first walk that has met the names `seen` and follows the names `todo` in order has met
`met` in the end. A name that is new is met before the names its message refers to. -/
inductive Preorder (registry : Registry) : List String → List String → List String → Prop where
  | done {seen} : Preorder registry seen [] seen
  | pass {seen met name rest} :
      name ∈ seen → Preorder registry seen rest met → Preorder registry seen (name :: rest) met
  | enter {seen inner met name rest message} :
      name ∉ seen → registry.messages[name]? = some message →
      Preorder registry (seen ++ [name]) message.targets inner →
      Preorder registry inner rest met → Preorder registry seen (name :: rest) met

namespace Preorder

variable {registry : Registry} {seen middle met todo later : List String}

theorem append (first : registry.Preorder seen todo middle)
    (second : registry.Preorder middle later met) : registry.Preorder seen (todo ++ later) met := by
  induction first with
  | done => exact second
  | pass known _ ih => exact .pass known (ih second)
  | enter new found inside _ _ ih => exact .enter new found inside (ih second)

theorem seen_prefix (walk : registry.Preorder seen todo met) : seen <+: met := by
  induction walk with
  | done => exact List.prefix_rfl
  | pass _ _ ih => exact ih
  | enter _ _ _ _ insideIH ih => exact (List.prefix_append _ _).trans (insideIH.trans ih)

private theorem seen_subset (walk : registry.Preorder seen todo met) : seen ⊆ met :=
  walk.seen_prefix.subset

theorem unique {others : List String} (walk : registry.Preorder seen todo met)
    (again : registry.Preorder seen todo others) : others = met := by
  induction walk generalizing others with
  | done => cases again with | done => rfl
  | pass known _ ih =>
    cases again with
    | pass _ rest => exact ih rest
    | enter new => exact absurd known new
  | enter new found _ _ insideIH ih =>
    cases again with
    | pass known => exact absurd known new
    | enter _ foundAgain inside rest =>
      obtain rfl := Option.some.inj (found.symm.trans foundAgain)
      obtain rfl := insideIH inside
      exact ih rest

theorem todo_subset (walk : registry.Preorder seen todo met) : todo ⊆ met := by
  induction walk with
  | done => exact fun _ member => absurd member List.not_mem_nil
  | pass known walk ih => exact List.cons_subset.mpr ⟨walk.seen_subset known, ih⟩
  | enter _ _ inside walk _ ih =>
    exact List.cons_subset.mpr ⟨walk.seen_subset (inside.seen_subset (by simp)), ih⟩

theorem eq_of_subset (walk : registry.Preorder seen todo met) (known : todo ⊆ seen) :
    met = seen := by
  induction walk with
  | done => rfl
  | pass _ _ ih => exact ih (List.cons_subset.mp known).2
  | enter new => exact absurd (List.cons_subset.mp known).1 new

theorem nodup (walk : registry.Preorder seen todo met) (distinct : seen.Nodup) : met.Nodup := by
  induction walk with
  | done => exact distinct
  | pass _ _ ih => exact ih distinct
  | enter new _ _ _ insideIH ih =>
    refine ih (insideIH ?_)
    rw [List.nodup_append]
    refine ⟨distinct, by simp, ?_⟩
    intro name member other last same
    subst same
    exact new (List.mem_singleton.mp last ▸ member)

private theorem reaches (walk : registry.Preorder seen todo met) {name : String}
    (member : name ∈ met) :
    name ∈ seen ∨ ∃ start ∈ todo, registry.Reaches start name := by
  induction walk with
  | done => exact .inl member
  | pass _ _ ih =>
    rcases ih member with old | ⟨start, listed, path⟩
    · exact .inl old
    · exact .inr ⟨start, List.mem_cons_of_mem _ listed, path⟩
  | @enter seen inner met first rest message _ found _ _ insideIH ih =>
    rcases ih member with old | ⟨start, listed, path⟩
    · rcases insideIH old with older | ⟨start, listed, path⟩
      · rcases List.mem_append.mp older with oldest | entered
        · exact .inl oldest
        · obtain rfl := List.mem_singleton.mp entered
          exact .inr ⟨name, List.mem_cons_self, .refl⟩
      · exact .inr ⟨first, List.mem_cons_self, .head ⟨message, found, listed⟩ path⟩
    · exact .inr ⟨start, List.mem_cons_of_mem _ listed, path⟩

/-- What a message refers to is met if the message was met during the walk. -/
theorem closed (walk : registry.Preorder seen todo met) {name next : String}
    (member : name ∈ met) (new : name ∉ seen) (refers : registry.Refers name next) :
    next ∈ met := by
  induction walk with
  | done => exact absurd member new
  | pass _ _ ih => exact ih member new
  | @enter seen inner met first rest message _ found inside walk insideIH ih =>
    by_cases early : name ∈ inner
    · by_cases entered : name ∈ seen ++ [first]
      · obtain rfl : name = first :=
          List.mem_singleton.mp ((List.mem_append.mp entered).resolve_left new)
        obtain ⟨held, foundAgain, listed⟩ := refers
        obtain rfl := Option.some.inj (found.symm.trans foundAgain)
        exact walk.seen_subset (inside.todo_subset listed)
      · exact walk.seen_subset (insideIH early entered)
    · exact ih member early

/-- A walk from one name meets exactly the names that it reaches. -/
theorem mem_iff_reaches {start : String} (walk : registry.Preorder [] [start] met)
    {name : String} : name ∈ met ↔ registry.Reaches start name := by
  constructor
  · intro member
    obtain old | ⟨other, listed, path⟩ := walk.reaches member
    · exact absurd old List.not_mem_nil
    · exact List.mem_singleton.mp listed ▸ path
  · intro path
    induction path with
    | refl => exact walk.todo_subset (List.mem_singleton.mpr rfl)
    | tail _ refers ih => exact walk.closed ih List.not_mem_nil refers

end Preorder

end Registry

/-! ## A graph with a cycle -/

namespace Shapes

def shape : Message where
  fullName := "draw.Shape"
  fields := [
    { name := "circle", kind := .message "draw.Circle", oneof := some "form" },
    { name := "label", kind := .scalar .string, markedRequired := true },
    { name := "group", kind := .message ".draw.Group", oneof := some "form" }]

def group : Message where
  fullName := "draw.Group"
  fields := [{ name := "shapes", kind := .message "draw.Shape", cardinality := .repeated }]

def circle : Message where
  fullName := "draw.Circle"
  fields := [{ name := "radius", kind := .scalar .double }]

def compiler : Compiler where
  registry := Registry.empty |>.addMessage shape |>.addMessage group |>.addMessage circle

end Shapes

end ToolContract
