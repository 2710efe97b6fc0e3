import ToolContract.Proofs.Table.Decided

/-!
# What was compiled before does not matter

The schema of a field is determined by the registry. That of a message is determined as well if all
its variants take over what they can, by induction on its size: what a variant takes over is smaller.
So tables that were filled in different orders and after different failures agree on the entries that
they share, and a message is compiled to the same schema on each of them
(`Compiler.session_agreement`).
-/

set_option autoImplicit false

namespace ToolContract

/-! ## Schemas that are determined -/

section

variable {registry : Registry}

private theorem KindDescribed.unique {kind : FieldKind} {left right : Schema}
    (described : KindDescribed registry kind left) (other : KindDescribed registry kind right) :
    left = right := by
  cases described with
  | scalar => cases other with | scalar => rfl
  | enumeration found =>
    cases other with
    | enumeration again =>
      obtain rfl := Option.some.inj (found.symm.trans again)
      rfl
  | wellKnown known =>
    cases other with
    | wellKnown again =>
      obtain rfl := Option.some.inj (known.symm.trans again)
      rfl
    | message plain => cases known.symm.trans plain
  | message plain =>
    cases other with
    | wellKnown known => cases known.symm.trans plain
    | message => rfl

private theorem ValueDescribed.unique {field : Field} {left right : Schema}
    (described : ValueDescribed registry field left)
    (other : ValueDescribed registry field right) : left = right := by
  cases described with
  | singular alone kind =>
    cases other with
    | singular _ again => exact kind.unique again
    | repeated many => cases alone.symm.trans many
    | map mapped => cases alone.symm.trans mapped
  | repeated many kind =>
    cases other with
    | singular alone => cases alone.symm.trans many
    | repeated _ again => rw [kind.unique again]
    | map mapped => cases many.symm.trans mapped
  | map mapped form kind =>
    cases other with
    | singular alone => cases alone.symm.trans mapped
    | repeated many => cases many.symm.trans mapped
    | map mappedAgain formAgain again =>
      obtain rfl := Cardinality.map.inj (mapped.symm.trans mappedAgain)
      obtain rfl := Option.some.inj (form.symm.trans formAgain)
      rw [kind.unique again]

private theorem FieldDescribed.unique {field : Field} {left right : Schema}
    (described : FieldDescribed registry field left)
    (other : FieldDescribed registry field right) : left = right := by
  obtain ⟨plain, value, rfl⟩ := described
  obtain ⟨again, otherValue, rfl⟩ := other
  rw [value.unique otherValue]

end

section Correspondence

variable {α β : Type} {first second : α → β → Prop} {items : List α} {lefts rights : List β}

private theorem forall₂_and (pairs : List.Forall₂ first items lefts)
    (again : List.Forall₂ second items lefts) :
    List.Forall₂ (fun item left => first item left ∧ second item left) items lefts := by
  induction pairs with
  | nil => exact .nil
  | cons pair _ ih =>
    cases again with
    | cons other rest => exact .cons ⟨pair, other⟩ (ih rest)

private theorem eq_of_forall₂ (pairs : List.Forall₂ first items lefts)
    (others : List.Forall₂ second items rights)
    (unique : ∀ item ∈ items, ∀ left ∈ lefts, ∀ right, first item left → second item right →
      left = right) : lefts = rights := by
  induction pairs generalizing rights with
  | nil => cases others; rfl
  | @cons item left restItems restLefts pair _ ih =>
    cases others with
    | cons other rest =>
      rw [unique item List.mem_cons_self left List.mem_cons_self _ pair other,
        ih rest fun item listed left inside right => unique item (List.mem_cons_of_mem _ listed)
          left (List.mem_cons_of_mem _ inside) right]

end Correspondence

section

variable {compiler : Compiler} {left right : Definitions}

/-- A table of completed entries that are described and decided. -/
structure Definitions.Determined (compiler : Compiler) (table : Definitions) : Prop where
  faithful : table.Faithful compiler
  decided : table.Decided compiler.registry

/-- Where a variant cannot take over a definition, it holds the value under the member's name. -/
theorem VariantDescribed.exists_nested (faithful : left.Faithful compiler) {member : Field}
    {variant : Schema} (described : VariantDescribed compiler.registry left member variant)
    (unfit : ∀ message, ¬ member.Inlines compiler.registry message) :
    ∃ schema, FieldDescribed compiler.registry member schema ∧
      variant = Compiler.nestedVariant member schema := by
  cases described using VariantDescribed.formCases with
  | nested value => exact ⟨_, value, rfl⟩
  | inlined kind alone plain found stored noDiscriminator noMember =>
    obtain ⟨-, registered⟩ := Registry.message?_eq_some found
    obtain ⟨message, again, described⟩ := faithful.described _ _ stored
    obtain rfl := Option.some.inj (registered.symm.trans again)
    rw [described.keys_eq] at noDiscriminator noMember
    exact absurd ⟨alone, ⟨_, kind, plain, found⟩, noDiscriminator, noMember⟩ (unfit _)

/-- The tables agree on the definitions that are smaller than the size. -/
def AgreeBelow (left right : Definitions) (size : Nat) : Prop :=
  ∀ name schema other, left.schema? name = some schema → right.schema? name = some other →
    sizeOf schema.properties < size → schema = other

private theorem VariantDescribed.unique (leftTable : left.Faithful compiler)
    (rightTable : right.Faithful compiler) {member : Field} {variant other : Schema}
    (agree : AgreeBelow left right (sizeOf variant))
    (described : VariantDescribed compiler.registry left member variant)
    (decided : VariantDecided compiler.registry left member variant)
    (otherDescribed : VariantDescribed compiler.registry right member other)
    (otherDecided : VariantDecided compiler.registry right member other) : variant = other := by
  by_cases fits : ∃ message, member.Inlines compiler.registry message
  · obtain ⟨message, inlines⟩ := fits
    obtain ⟨definition, stored, rfl⟩ := decided message inlines
    obtain ⟨otherDefinition, otherStored, rfl⟩ := otherDecided message inlines
    rw [agree _ _ _ stored otherStored (Compiler.sizeOf_lt_inlineVariant member definition)]
  · have unfit := not_exists.mp fits
    obtain ⟨schema, value, rfl⟩ := described.exists_nested leftTable unfit
    obtain ⟨again, otherValue, rfl⟩ := otherDescribed.exists_nested rightTable unfit
    rw [value.unique otherValue]

private theorem SlotDescribed.unique (leftTable : left.Faithful compiler)
    (rightTable : right.Faithful compiler) {slot : Slot} {schema other : Schema}
    (agree : AgreeBelow left right (sizeOf schema))
    (described : SlotDescribed compiler.registry left slot schema)
    (decided : SlotDecided compiler.registry left slot schema)
    (otherDescribed : SlotDescribed compiler.registry right slot other)
    (otherDecided : SlotDecided compiler.registry right slot other) : schema = other := by
  cases described with
  | plain value => cases otherDescribed with | plain otherValue => exact value.unique otherValue
  | group variants =>
    cases otherDescribed with
    | group otherVariants =>
      cases decided with
      | group decided =>
        cases otherDecided with
        | group otherDecided =>
          congr 1
          refine eq_of_forall₂ (forall₂_and variants decided)
            (forall₂_and otherVariants otherDecided) ?_
          intro member _ variant listed _ pair otherPair
          refine VariantDescribed.unique leftTable rightTable ?_ pair.1 pair.2 otherPair.1 otherPair.2
          intro name definition otherDefinition stored otherStored smaller
          refine agree name definition otherDefinition stored otherStored ?_
          have := List.sizeOf_lt_of_mem listed
          simp only [Schema.union.sizeOf_spec]
          omega

/-- Decided schemas of a message are equal if the tables agree on the smaller definitions. -/
theorem MessageDescribed.eq_of_decided (leftTable : left.Faithful compiler)
    (rightTable : right.Faithful compiler) {message : Message} {schema other : ObjectSchema}
    (agree : AgreeBelow left right (sizeOf schema.properties))
    (described : MessageDescribed compiler left message schema)
    (decided : MessageDecided compiler.registry left message schema)
    (otherDescribed : MessageDescribed compiler right message other)
    (otherDecided : MessageDecided compiler.registry right message other) : schema = other := by
  suffices properties : schema.properties = other.properties by
    have required := described.required.trans otherDescribed.required.symm
    have description := described.description.trans otherDescribed.description.symm
    cases schema
    cases other
    simp_all
  refine eq_of_forall₂ (forall₂_and described.properties decided)
    (forall₂_and otherDescribed.properties otherDecided) ?_
  rintro slot - ⟨name, inner⟩ listed ⟨otherName, otherInner⟩ ⟨property, slotDecided⟩
    ⟨otherProperty, otherSlotDecided⟩
  obtain rfl : name = slot.property := property.name
  obtain rfl : otherName = slot.property := otherProperty.name
  congr 1
  refine SlotDescribed.unique leftTable rightTable ?_ property.schema slotDecided
    otherProperty.schema otherSlotDecided
  intro next definition otherDefinition stored otherStored smaller
  refine agree next definition otherDefinition stored otherStored ?_
  have := List.sizeOf_lt_of_mem listed
  simp only [Prod.mk.sizeOf_spec] at this
  omega

private theorem MessageDescribed.unique (leftTable : left.Determined compiler)
    (rightTable : right.Determined compiler) {message : Message} {schema other : ObjectSchema}
    (agree : AgreeBelow left right (sizeOf schema.properties))
    (described : MessageDescribed compiler left message schema)
    (decided : MessageDecided compiler.registry left message schema)
    (otherDescribed : MessageDescribed compiler right message other)
    (otherDecided : MessageDecided compiler.registry right message other) : schema = other :=
  described.eq_of_decided leftTable.faithful rightTable.faithful agree decided otherDescribed
    otherDecided

/-- Two tables agree on each name that both have completed, by induction on the size of the entry. -/
theorem Definitions.Determined.unique (leftTable : left.Determined compiler)
    (rightTable : right.Determined compiler) {name : String} {schema other : ObjectSchema}
    (stored : left.schema? name = some schema) (otherStored : right.schema? name = some other) :
    schema = other := by
  obtain ⟨message, registered, described⟩ := leftTable.faithful.described _ _ stored
  obtain ⟨again, otherRegistered, otherDescribed⟩ := rightTable.faithful.described _ _ otherStored
  obtain rfl := Option.some.inj (registered.symm.trans otherRegistered)
  have agree : AgreeBelow left right (sizeOf schema.properties) :=
    fun _ _ _ inner otherInner smaller => leftTable.unique rightTable inner otherInner
  exact described.unique leftTable rightTable agree
    (leftTable.decided _ _ _ registered stored) otherDescribed
    (rightTable.decided _ _ _ registered otherStored)
termination_by sizeOf schema.properties

end

/-! ## Shared tables -/

namespace Session

variable {compiler : Compiler} {table after : Definitions}

private theorem determined (acyclic : compiler.registry.OneofAcyclic)
    (session : Session compiler compiler.registry.Holds table) : table.Determined compiler :=
  ⟨session.faithful, session.decided acyclic⟩

theorem messageSchema_described (session : Session compiler compiler.registry.Holds table)
    {message : Message} (registered : compiler.registry.Holds message) {schema : ObjectSchema}
    (ran : compiler.messageSchema message table = (.ok schema, after)) :
    MessageDescribed compiler after message schema := by
  by_cases present : message.fullName ∈ table.keys
  · have outcome := Compiler.messageSchema_outcome_of_mem session.faithful present
    exact (outcome.of_ok ran).2.2
  · have outcome := Compiler.messageSchema_outcome session.faithful registered present
    exact (outcome.of_ok ran).2.2.1

private theorem exists_completed (session : Session compiler compiler.registry.Holds table)
    {name : String}
    {entry : Definition} (found : table.get? name = some entry) :
    ∃ schema, entry = .completed schema ∧ table.schema? name = some schema := by
  obtain ⟨schema, stored⟩ := session.completed name
    (Entries.mem_keys_of_mem (Entries.mem_of_get? found))
  have same := Definitions.schema?_eq_some_iff.mp stored
  exact ⟨schema, Option.some.inj (found.symm.trans same), stored⟩

end Session

/-- Let no single oneof member have a message type from which its owner is reached. Two tables that
registered messages and any fields were compiled on, in whatever order and with whatever failures,
have the same entry for each name that is in both; and a message that can be compiled on both has
the same schema. -/
theorem Compiler.session_agreement (compiler : Compiler) (left right : Definitions)
    (acyclic : compiler.registry.OneofAcyclic)
    (leftSession : Session compiler compiler.registry.Holds left)
    (rightSession : Session compiler compiler.registry.Holds right) :
    (∀ name entry other, left.get? name = some entry → right.get? name = some other →
      entry = other) ∧
    ∀ message, compiler.registry.Holds message →
      ∀ schema other leftAfter rightAfter,
        compiler.messageSchema message left = (.ok schema, leftAfter) →
        compiler.messageSchema message right = (.ok other, rightAfter) → schema = other := by
  refine ⟨fun name entry other found otherFound => ?_,
    fun message registered schema other leftAfter rightAfter ran otherRan => ?_⟩
  · obtain ⟨schema, rfl, stored⟩ := leftSession.exists_completed found
    obtain ⟨otherSchema, rfl, otherStored⟩ := rightSession.exists_completed otherFound
    rw [(leftSession.determined acyclic).unique (rightSession.determined acyclic) stored otherStored]
  · have leftLater := leftSession.message registered
    have rightLater := rightSession.message registered
    rw [ran] at leftLater
    rw [otherRan] at rightLater
    have leftTable := leftLater.determined acyclic
    have rightTable := rightLater.determined acyclic
    exact (leftSession.messageSchema_described registered ran).unique leftTable rightTable
      (fun _ _ _ stored otherStored _ => leftTable.unique rightTable stored otherStored)
      (leftSession.messageSchema_decided acyclic registered ran)
      (rightSession.messageSchema_described registered otherRan)
      (rightSession.messageSchema_decided acyclic registered otherRan)

/-! ### Two orders of compilation -/

namespace Checkout

def card : Message where
  fullName := "a.Card"
  fields := [{ name := "number", kind := .scalar .string }]

/-- A message with a single oneof member that leads nowhere. -/
def order : Message where
  fullName := "a.Order"
  fields := [
    { name := "card", kind := .message "a.Card", oneof := some "payment" },
    { name := "voucher", kind := .scalar .string, oneof := some "payment" },
    { name := "items", kind := .message "a.Item", cardinality := .repeated }]

/-- A message that leads back to the order outside of oneof groups. -/
def item : Message where
  fullName := "a.Item"
  fields := [{ name := "order", kind := .message "a.Order" }]

/-- A message that cannot be compiled. -/
def broken : Message where
  fullName := "a.Broken"
  fields := [
    { name := "card", kind := .message "a.Card" },
    { name := "gone", kind := .message "a.Missing" }]

def compiler : Compiler where
  registry :=
    Registry.empty |>.addMessage card |>.addMessage order |>.addMessage item |>.addMessage broken

/-- The order comes first. -/
def direct : Definitions :=
  (compiler.messageSchema order []).2

/-- A failure comes first, and the order is met inside the item. -/
def indirect : Definitions :=
  (compiler.messageSchema item (compiler.messageSchema broken []).2).2

private theorem direct_session : Session compiler compiler.registry.Holds direct := by
  have held : compiler.registry.Holds order := by decide +kernel
  exact .message .start held

theorem indirect_session : Session compiler compiler.registry.Holds indirect := by
  have brokenHeld : compiler.registry.Holds broken := by decide +kernel
  have itemHeld : compiler.registry.Holds item := by decide +kernel
  exact .message (.message .start brokenHeld) itemHeld

theorem acyclic : compiler.registry.OneofAcyclic := by
  intro owner message registered member declared grouped _ target found path
  have all : ∀ message ∈ compiler.registry.messageList, ∀ member ∈ message.fields,
      member.oneof.isSome = true →
        member.target? = none ∨ member.target? = some "a.Card" ∧ message.fullName = "a.Order" := by
    decide +kernel
  rcases all message (Registry.mem_messageList registered) member declared grouped with
    none | ⟨some, named⟩
  · cases none.symm.trans found
  · obtain rfl := Option.some.inj (some.symm.trans found)
    rw [(compiler.registry.messages_keyed _ _ registered).1] at named
    rcases Relation.ReflTransGen.cases_head path with rfl | ⟨next, ⟨held, again, listed⟩, -⟩
    · contradiction
    · have stored : compiler.registry.messages["a.Card"]? = Option.some card := by decide +kernel
      obtain rfl := Option.some.inj (stored.symm.trans again)
      contradiction

theorem compiles {table : Definitions} {message : Message}
    (succeeds : (compiler.messageSchema message table).1.isOk = true) :
    ∃ schema after, compiler.messageSchema message table = (.ok schema, after) := by
  rcases ran : compiler.messageSchema message table with ⟨result, after⟩
  rw [ran] at succeeds
  cases result with
  | error cause => simp [Except.isOk, Except.toBool] at succeeds
  | ok schema => exact ⟨schema, after, rfl⟩

end Checkout

open Checkout in
/-- The tables stand in different orders and have the same order. -/
theorem Compiler.session_agreement_checkout :
    direct.keys = ["a.Order", "a.Card", "a.Item"] ∧ indirect.keys = ["a.Card", "a.Item", "a.Order"] ∧
    (∃ entry, direct.get? "a.Order" = some entry ∧ indirect.get? "a.Order" = some entry) ∧
    ∃ schema after otherAfter, compiler.messageSchema order direct = (.ok schema, after) ∧
      compiler.messageSchema order indirect = (.ok schema, otherAfter) := by
  have agreement := Compiler.session_agreement compiler direct indirect acyclic direct_session
    indirect_session
  have keys : direct.keys = ["a.Order", "a.Card", "a.Item"] := by decide +kernel
  have otherKeys : indirect.keys = ["a.Card", "a.Item", "a.Order"] := by decide +kernel
  refine ⟨keys, otherKeys, ?_, ?_⟩
  · obtain ⟨entry, found⟩ : ∃ entry, direct.get? "a.Order" = some entry :=
      Entries.exists_get? (by rw [keys]; decide)
    obtain ⟨other, otherFound⟩ : ∃ entry, indirect.get? "a.Order" = some entry :=
      Entries.exists_get? (by rw [otherKeys]; decide)
    obtain rfl := agreement.1 "a.Order" entry other found otherFound
    exact ⟨entry, found, otherFound⟩
  · have held : compiler.registry.Holds order := by decide +kernel
    obtain ⟨schema, after, ran⟩ : ∃ schema after, compiler.messageSchema order direct =
        (.ok schema, after) := compiles (by decide +kernel)
    obtain ⟨other, otherAfter, otherRan⟩ : ∃ schema after, compiler.messageSchema order indirect =
        (.ok schema, after) := compiles (by decide +kernel)
    obtain rfl := agreement.2 order held schema other after otherAfter ran otherRan
    exact ⟨schema, after, otherAfter, ran, otherRan⟩

end ToolContract
