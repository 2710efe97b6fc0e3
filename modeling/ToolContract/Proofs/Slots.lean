import Mathlib.Logic.Basic
import ToolContract.Schema.Compile

/-!
# The slots of a message

The slots of a message are those of its openers: the fields outside any group, and the first member
of each group, in their order (`Message.slots_eq`). Every field is in one of them, and the property
of a slot is that of each field in it.
-/

set_option autoImplicit false

namespace ToolContract

/-! ## The fields of a slot -/

/-- The property that stands for the field: its own, or that of its group. -/
def Field.property (field : Field) : String :=
  match field.oneof with
  | none => field.name
  | some group => group ++ oneofSuffix

def Slot.fields : Slot → List Field
  | .plain field => [field]
  | .group _ members => members

private theorem Message.mem_members_iff {message : Message} {group : String} {field : Field} :
    field ∈ message.members group ↔ field ∈ message.fields ∧ field.oneof = some group := by
  simp [Message.members]

private theorem Message.mem_slotsFrom_iff {message : Message} {slot : Slot} {met : List String}
    {fields : List Field} :
    slot ∈ message.slotsFrom met fields ↔
      (∃ field ∈ fields, field.oneof = none ∧ slot = .plain field) ∨
        ∃ group ∉ met, (∃ field ∈ fields, field.oneof = some group) ∧
          slot = .group group (message.members group) := by
  induction fields generalizing met with
  | nil => simp [Message.slotsFrom]
  | cons field rest ih =>
    cases grouped : field.oneof with
    | none => simp [Message.slotsFrom, grouped, ih, or_assoc]
    | some group =>
      by_cases known : group ∈ met
      · simp only [Message.slotsFrom, grouped, known, if_true, ih, List.mem_cons,
          exists_eq_or_imp, reduceCtorEq, false_and, false_or, Option.some.injEq]
        refine or_congr_right (exists_congr fun other => and_congr_right fun new => ?_)
        have different : group ≠ other := fun same => new (same ▸ known)
        simp [different]
      · simp only [Message.slotsFrom, grouped, known, if_false, List.mem_cons, ih,
          exists_eq_or_imp, reduceCtorEq, false_and, false_or, Option.some.injEq, not_or]
        constructor
        · rintro (rfl | plain | ⟨other, ⟨different, new⟩, member, rfl⟩)
          · exact .inr ⟨group, known, .inl rfl, rfl⟩
          · exact .inl plain
          · exact .inr ⟨other, new, .inr member, rfl⟩
        · rintro (plain | ⟨other, new, member, rfl⟩)
          · exact .inr (.inl plain)
          · by_cases same : group = other
            · subst same
              exact .inl rfl
            · exact .inr (.inr ⟨other, ⟨Ne.symm same, new⟩, member.resolve_left same, rfl⟩)

theorem Message.mem_slots_iff {message : Message} {slot : Slot} :
    slot ∈ message.slots ↔
      (∃ field ∈ message.fields, field.oneof = none ∧ slot = .plain field) ∨
        ∃ group, (∃ field ∈ message.fields, field.oneof = some group) ∧
          slot = .group group (message.members group) := by
  simp [Message.slots, Message.mem_slotsFrom_iff]

/-- A slot of a message stands for fields of the message, whose property is its own. -/
theorem Message.mem_slot_fields {message : Message} {slot : Slot} (member : slot ∈ message.slots)
    {field : Field} (inside : field ∈ slot.fields) :
    field ∈ message.fields ∧ field.property = slot.property := by
  rcases Message.mem_slots_iff.mp member with ⟨plain, declared, alone, rfl⟩ | ⟨group, -, rfl⟩
  · obtain rfl := List.mem_singleton.mp inside
    exact ⟨declared, by simp [Field.property, alone, Slot.property]⟩
  · obtain ⟨declared, grouped⟩ := Message.mem_members_iff.mp inside
    exact ⟨declared, by simp [Field.property, grouped, Slot.property]⟩

theorem Message.mem_of_mem_group {message : Message} {group : String} {members : List Field}
    (listed : .group group members ∈ message.slots) {field : Field} (inside : field ∈ members) :
    field ∈ message.fields ∧ field.oneof = some group := by
  rcases Message.mem_slots_iff.mp listed with ⟨_, _, _, same⟩ | ⟨_, _, same⟩
  · contradiction
  · obtain ⟨rfl, rfl⟩ := Slot.group.inj same
    exact Message.mem_members_iff.mp inside

theorem Message.exists_slot {message : Message} {field : Field}
    (declared : field ∈ message.fields) : ∃ slot ∈ message.slots, field ∈ slot.fields := by
  cases grouped : field.oneof with
  | none =>
    exact ⟨.plain field, Message.mem_slots_iff.mpr (.inl ⟨field, declared, grouped, rfl⟩),
      List.mem_singleton.mpr rfl⟩
  | some group =>
    exact ⟨.group group (message.members group),
      Message.mem_slots_iff.mpr (.inr ⟨group, ⟨field, declared, grouped⟩, rfl⟩),
      Message.mem_members_iff.mpr ⟨declared, grouped⟩⟩

/-! ## The openers of a message -/

namespace Message

/-- The field is outside any group, or no earlier field is a member of its group. -/
def opens (message : Message) (index : Nat) (field : Field) : Bool :=
  field.oneof = none || field.oneof ∉ (message.fields.take index).map Field.oneof

/-- The fields outside any group and the first member of each group, in their order. -/
def openers (message : Message) : List Field :=
  (message.fields.zipIdx.filter fun entry => message.opens entry.2 entry.1).map Prod.fst

/-- The slot whose property stands at the position of the opener. -/
def slot (message : Message) (opener : Field) : Slot :=
  match opener.oneof with
  | none => .plain opener
  | some group => .group group (message.members group)

theorem slot_property (message : Message) (opener : Field) :
    (message.slot opener).property = opener.property := by
  unfold slot Field.property
  cases opener.oneof <;> rfl

/-- The groups that were met are those of the fields in front. -/
theorem slotsFrom_eq {message : Message} {front rest : List Field}
    (whole : message.fields = front ++ rest) {met : List String}
    (known : ∀ group, group ∈ met ↔ some group ∈ front.map Field.oneof) :
    message.slotsFrom met rest =
      ((rest.zipIdx front.length).filter fun entry => message.opens entry.2 entry.1).map
        fun entry => message.slot entry.1 := by
  induction rest generalizing front met with
  | nil => rfl
  | cons field rest ih =>
    have wholeNext : message.fields = (front ++ [field]) ++ rest := by simp [whole]
    have front_eq : message.fields.take front.length = front := by simp [whole]
    have nextLength : (front ++ [field]).length = front.length + 1 := by simp
    rw [List.zipIdx_cons, ← nextLength]
    cases grouped : field.oneof with
    | none =>
      have opens : message.opens front.length field = true := by simp [Message.opens, grouped]
      rw [List.filter_cons, if_pos opens, List.map_cons, slotsFrom, grouped]
      refine congrArg₂ _ (by simp [slot, grouped]) (ih wholeNext fun group => ?_)
      simp [known, grouped]
    | some group =>
      by_cases seen : group ∈ met
      · have closed : message.opens front.length field = false := by
          simpa [Message.opens, grouped, front_eq] using (known group).mp seen
        rw [List.filter_cons, if_neg (ne_true_of_eq_false closed), slotsFrom, grouped]
        refine (if_pos seen).trans (ih wholeNext fun other => ?_)
        have first := (known group).mp seen
        rw [known, List.map_append, List.mem_append, List.map_singleton, List.mem_singleton, grouped]
        exact ⟨.inl, fun either => either.elim id fun same => same ▸ first⟩
      · have opens : message.opens front.length field = true := by
          simpa [Message.opens, grouped, front_eq] using mt (known group).mpr seen
        rw [List.filter_cons, if_pos opens, List.map_cons, slotsFrom, grouped]
        refine (if_neg seen).trans (congrArg₂ _ (by simp [slot, grouped])
          (ih wholeNext fun other => ?_))
        simp [known, grouped, or_comm]

theorem slots_eq (message : Message) : message.slots = message.openers.map message.slot := by
  have none : ∀ group, group ∈ ([] : List String) ↔ some group ∈ ([] : List Field).map Field.oneof :=
    fun _ => iff_of_false List.not_mem_nil List.not_mem_nil
  rw [slots, slotsFrom_eq (List.nil_append _).symm none, openers, List.map_map]
  rfl

theorem slots_property (message : Message) :
    message.slots.map Slot.property = message.openers.map Field.property := by
  rw [slots_eq, List.map_map]
  exact List.map_congr_left fun opener _ => message.slot_property opener

/-- The fields that have the property of the opener: itself, or all members of its group in
order. -/
def fieldsAt (message : Message) (opener : Field) : List Field :=
  match opener.oneof with
  | none => [opener]
  | some group => message.fields.filter fun member => member.oneof = some group

theorem slot_fields (message : Message) (opener : Field) :
    (message.slot opener).fields = message.fieldsAt opener := by
  unfold slot fieldsAt
  cases opener.oneof <;> rfl

end Message

end ToolContract
