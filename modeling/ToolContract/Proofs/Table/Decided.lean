import ToolContract.Proofs.Table.Session

/-!
# Which form a variant takes

A variant takes over the definition of its message unless the message is still being compiled or one
of its properties has a name that the variant gives itself. So where no single oneof member meets a
message that is being compiled, every variant takes over what it can (`body_decided`). What is being
compiled when a message is compiled leads to that message. So the entry of a message none of whose
single oneof members leads back to it is decided, whatever was compiled before
(`Session.decidedAcyclic`).
-/

set_option autoImplicit false

namespace ToolContract

/-! ## Decided schemas -/

/-- The member is a single message that is not well known, and no property of the message has a name
that the variant of the member gives itself. -/
structure Field.Inlines (registry : Registry) (member : Field) (message : Message) : Prop where
  single : member.cardinality = .singular
  kind : ∃ name, member.kind = .message name ∧ WellKnown.ofName? name = none ∧
    registry.message? name = some message
  untagged : discriminatorKey ∉ message.slots.map Slot.property
  unnamed : member.name ∉ message.slots.map Slot.property

/-- The variant takes over a definition if it can. -/
def VariantDecided (registry : Registry) (table : Definitions) (member : Field)
    (variant : Schema) : Prop :=
  ∀ message, member.Inlines registry message → ∃ definition,
    table.schema? message.fullName = some definition ∧
      variant = Compiler.inlineVariant member definition

inductive SlotDecided (registry : Registry) (table : Definitions) : Slot → Schema → Prop where
  | plain {field schema} : SlotDecided registry table (.plain field) schema
  | group {name members variants} :
      List.Forall₂ (VariantDecided registry table) members variants →
      SlotDecided registry table (.group name members) (.union variants)

/-- All variants of the message take over definitions if they can. -/
def MessageDecided (registry : Registry) (table : Definitions) (message : Message)
    (schema : ObjectSchema) : Prop :=
  List.Forall₂ (fun slot property => SlotDecided registry table slot property.2) message.slots
    schema.properties

/-- All completed entries are decided. -/
def Definitions.Decided (registry : Registry) (table : Definitions) : Prop :=
  ∀ name message schema, registry.messages[name]? = some message →
    table.schema? name = some schema → MessageDecided registry table message schema

/-- No single oneof member of the message has a message type from which the message is reached. -/
def Message.OneofAcyclic (registry : Registry) (message : Message) : Prop :=
  ∀ member ∈ message.fields, member.oneof.isSome = true → member.cardinality = .singular →
    ∀ target, member.target? = some target → ¬ registry.Reaches target message.fullName

/-- The completed entries of messages without oneof cycles are decided. -/
def Definitions.DecidedAcyclic (registry : Registry) (table : Definitions) : Prop :=
  ∀ name message schema, registry.messages[name]? = some message →
    table.schema? name = some schema → message.OneofAcyclic registry →
    MessageDecided registry table message schema

section Keeps

variable {registry : Registry} {before after : Definitions}

private theorem VariantDecided.keeps (kept : before.Keeps after) {member : Field} {variant : Schema}
    (decided : VariantDecided registry before member variant) :
    VariantDecided registry after member variant := by
  intro message inlines
  obtain ⟨definition, stored, same⟩ := decided message inlines
  exact ⟨definition, kept _ _ stored, same⟩

private theorem SlotDecided.keeps (kept : before.Keeps after) {slot : Slot} {schema : Schema}
    (decided : SlotDecided registry before slot schema) :
    SlotDecided registry after slot schema := by
  cases decided with
  | plain => exact .plain
  | group variants => exact .group (variants.imp fun _ _ variant => variant.keeps kept)

theorem MessageDecided.keeps (kept : before.Keeps after) {message : Message}
    {schema : ObjectSchema} (decided : MessageDecided registry before message schema) :
    MessageDecided registry after message schema :=
  decided.imp fun _ _ slot => slot.keeps kept

end Keeps

namespace Definitions

variable {registry : Registry} {table : Definitions} {name : String}

private theorem DecidedAcyclic.empty (registry : Registry) : DecidedAcyclic registry [] :=
  fun _ _ _ _ found => by simp [schema?] at found

private theorem DecidedAcyclic.reserve (decided : table.DecidedAcyclic registry) (name : String) :
    (table.reserve name).DecidedAcyclic registry := by
  have kept : table.Keeps (table.reserve name) := fun _ _ found => schema?_reserve.trans found
  exact fun other message schema registered found acyclic =>
    (decided other message schema registered (schema?_reserve.symm.trans found) acyclic).keeps kept

private theorem DecidedAcyclic.complete (decided : table.DecidedAcyclic registry)
    (reserved : table.get? name = some .reserved) {message : Message} {schema : ObjectSchema}
    (registered : registry.messages[name]? = some message)
    (new : message.OneofAcyclic registry → MessageDecided registry table message schema) :
    (table.complete name schema).DecidedAcyclic registry := by
  have kept : table.Keeps (table.complete name schema) := keeps_complete reserved
  intro other owner held ownerRegistered found acyclic
  rw [schema?_complete] at found
  split at found
  · rename_i same
    obtain rfl := Option.some.inj found
    rw [← same, registered] at ownerRegistered
    obtain rfl := Option.some.inj ownerRegistered
    exact (new acyclic).keeps kept
  · exact (decided other owner held ownerRegistered found acyclic).keeps kept

private theorem DecidedAcyclic.withdraw (decided : table.DecidedAcyclic registry)
    (reserved : table.get? name = some .reserved) :
    (table.withdraw name).DecidedAcyclic registry := by
  intro other message schema registered found acyclic
  rw [schema?_withdraw] at found
  split at found
  · contradiction
  · exact (decided other message schema registered found acyclic).keeps (keeps_withdraw reserved)

/-- What a table has reserved was reserved in each table that it extends. -/
theorem Extends.get?_reserved {before after : Definitions} (larger : before.Extends after)
    (reserved : after.get? name = some .reserved) : before.get? name = some .reserved := by
  obtain ⟨added, rfl, -, -, completed⟩ := larger
  rw [Entries.get?_append] at reserved
  cases found : before.get? name with
  | some definition =>
    rw [found, Option.some_or] at reserved
    exact reserved
  | none =>
    rw [found, Option.none_or] at reserved
    obtain ⟨schema, stored⟩ := completed _ (Entries.mem_of_get? reserved)
    contradiction

/-- A table on which a message type can be resolved: what is reserved reaches the type. -/
structure Ready (compiler : Compiler) (depth : Nat) (target : String) (table : Definitions) :
    Prop where
  faithful : table.Faithful compiler
  room : compiler.registry.unvisited table ≤ depth
  decided : table.DecidedAcyclic compiler.registry
  pending : ∀ name, table.get? name = some .reserved → compiler.registry.Reaches name target

/-- A table on which the message is compiled to a decided schema: no single oneof member has a
message type that is being compiled. -/
structure Clear (compiler : Compiler) (depth : Nat) (message : Message) (table : Definitions) :
    Prop where
  faithful : table.Faithful compiler
  room : compiler.registry.unvisited table ≤ depth
  free : ∀ member ∈ message.fields, member.oneof.isSome = true → member.cardinality = .singular →
    ∀ target, member.target? = some target → table.get? target ≠ some .reserved

private theorem Clear.extends {compiler : Compiler} {depth : Nat} {message : Message}
    {before after : Definitions} (clear : before.Clear compiler depth message)
    (larger : before.Extends after) (faithful : after.Faithful compiler) :
    after.Clear compiler depth message :=
  ⟨faithful, larger.room clear.room, fun member declared grouped single target found reserved =>
    clear.free member declared grouped single target found (larger.get?_reserved reserved)⟩

/-- What is being compiled reaches the message, and no single oneof member does. -/
theorem Ready.clear {compiler : Compiler} {depth : Nat} {message : Message}
    (ready : table.Ready compiler depth message.fullName)
    (acyclic : message.OneofAcyclic compiler.registry) : table.Clear compiler depth message :=
  ⟨ready.faithful, ready.room, fun member declared grouped single target found reserved =>
    acyclic member declared grouped single target found (ready.pending target reserved)⟩

end Definitions

/-- No single oneof member has a message type from which its owner is reached. -/
def Registry.OneofAcyclic (registry : Registry) : Prop :=
  ∀ owner message, registry.messages[owner]? = some message → ∀ member ∈ message.fields,
    member.oneof.isSome = true → member.cardinality = .singular →
    ∀ target, member.target? = some target → ¬ registry.Reaches target owner

theorem Registry.OneofAcyclic.message {registry : Registry} (acyclic : registry.OneofAcyclic)
    {name : String} {message : Message} (registered : registry.messages[name]? = some message) :
    message.OneofAcyclic registry := by
  obtain ⟨rfl, -⟩ := registry.messages_keyed _ _ registered
  exact acyclic _ message registered

/-! ## Compiling decided schemas -/

/-- References are resolved, and tables stay decided. -/
structure Decides (compiler : Compiler) (resolve : Resolver) (depth : Nat) : Prop where
  resolves : Resolves compiler resolve depth
  decided : ∀ name before, before.Ready compiler depth (QualifiedName.strip name) →
    (resolve name before).2.DecidedAcyclic compiler.registry

namespace Compiler

variable {compiler : Compiler} {resolve : Resolver} {depth : Nat} {before after : Definitions}
  {owner : String} {message : Message}

private theorem resolve_respects (decides : Decides compiler resolve depth) {target : String}
    (leads : compiler.registry.Reaches owner target) :
    resolve.Respects (Definitions.Preserves (·.Ready compiler depth owner)) target := by
  rintro name rfl before ready
  have larger := decides.resolves.extending name before
  have outcome := decides.resolves.outcome name before ready.faithful ready.room
  refine ⟨outcome.faithful, larger.room ready.room, decides.decided name before ?_, ?_⟩
  · exact ⟨ready.faithful, ready.room, ready.decided, fun other reserved =>
      (ready.pending other reserved).trans leads⟩
  · exact fun other reserved => ready.pending other (larger.get?_reserved reserved)

private theorem inlined?_of_completed (resolves : Resolves compiler resolve depth)
    (faithful : before.Faithful compiler) (room : compiler.registry.unvisited before ≤ depth)
    {member : Field}
    (free : member.cardinality = .singular → ∀ target, member.target? = some target →
      before.get? target ≠ some .reserved)
    (inlines : member.Inlines compiler.registry message) {found : Option ObjectSchema}
    (ran : inlined? resolve member before = (.ok found, after)) :
    ∃ definition, after.schema? message.fullName = some definition ∧ found = some definition := by
  obtain ⟨name, kind, plain, known⟩ := inlines.kind
  obtain ⟨named, registered⟩ := Registry.message?_eq_some known
  have target : member.target? = some message.fullName := by
    simp [Field.target?, FieldKind.target?, kind, plain, named]
  simp only [inlined?, kind, inlines.single, plain] at ran
  obtain ⟨kept, middle, resolved, rest⟩ := Step.bind_eq_ok ran
  obtain ⟨faithful, walk, same, -⟩ := (resolves.outcome name before faithful room).of_ok resolved
  have larger := resolves.extending name before
  rw [resolved] at larger
  rw [← named] at same walk
  subst same
  obtain ⟨definitions, last, looked, rest⟩ := Step.bind_eq_ok rest
  obtain ⟨rfl, rfl⟩ := Step.pure_eq_ok looked
  obtain ⟨rfl, rfl⟩ := Step.pure_eq_ok rest
  -- the resolver has left an entry; it is completed, since it was not reserved before
  obtain ⟨entry, stored⟩ := Entries.exists_get? (walk.todo_subset List.mem_cons_self)
  cases entry with
  | reserved => exact absurd (larger.get?_reserved stored) (free inlines.single _ target)
  | completed definition =>
    have completed : middle.schema? message.fullName = some definition :=
      Definitions.schema?_eq_some_iff.mpr stored
    obtain ⟨held, again, described⟩ := faithful.described _ _ completed
    obtain rfl := Option.some.inj (registered.symm.trans again)
    refine ⟨definition, completed, ?_⟩
    rw [completed, Option.filter_some, if_pos]
    simp only [Bool.and_eq_true, Bool.not_eq_true', ← Bool.not_eq_true, Entries.contains_iff,
      described.keys_eq]
    exact ⟨inlines.untagged, inlines.unnamed⟩

/-- The message of a member is completed when its variant is formed, unless it is being compiled. -/
theorem variant_decided (resolves : Resolves compiler resolve depth)
    (faithful : before.Faithful compiler) (room : compiler.registry.unvisited before ≤ depth)
    {member : Field}
    (free : member.cardinality = .singular → ∀ target, member.target? = some target →
      before.get? target ≠ some .reserved)
    {variant : Schema} (ran : compiler.variant resolve member before = (.ok variant, after)) :
    VariantDecided compiler.registry after member variant := by
  intro message inlines
  obtain ⟨found, middle, first, rest⟩ := Step.bind_eq_ok ran
  obtain ⟨definition, stored, rfl⟩ :=
    inlined?_of_completed resolves faithful room free inlines first
  obtain ⟨rfl, rfl⟩ := Step.pure_eq_ok rest
  exact ⟨definition, stored, rfl⟩

private theorem variants_decided (resolves : Resolves compiler resolve depth)
    (clear : before.Clear compiler depth message) {members : List Field}
    (declared : ∀ member ∈ members, member ∈ message.fields ∧ member.oneof.isSome = true)
    {variants : List Schema}
    (ran : compiler.variants resolve members before = (.ok variants, after)) :
    List.Forall₂ (VariantDecided compiler.registry after) members variants := by
  induction members generalizing before variants with
  | nil =>
    obtain ⟨rfl, -⟩ := Step.pure_eq_ok ran
    exact .nil
  | cons member rest ih =>
    obtain ⟨memberDeclared, grouped⟩ := declared member List.mem_cons_self
    obtain ⟨variant, middle, first, later⟩ := Step.bind_eq_ok ran
    obtain ⟨others, last, second, later⟩ := Step.bind_eq_ok later
    obtain ⟨rfl, rfl⟩ := Step.pure_eq_ok later
    have decided := variant_decided resolves clear.faithful clear.room
      (clear.free member memberDeclared grouped) first
    have faithful := (variant_outcome resolves clear.faithful clear.room member).faithful
    have extending : (compiler.variant resolve member).Extending :=
      variant_extending resolves.extending member
    have extendingRest : (compiler.variants resolve rest).Extending :=
      variants_extending resolves.extending rest
    have larger := extending before
    have largerRest := extendingRest middle
    rw [first] at larger faithful
    rw [second] at largerRest
    exact .cons (decided.keeps largerRest.keeps) (ih (clear.extends larger faithful)
      (fun other listed => declared other (List.mem_cons_of_mem _ listed)) second)

private theorem slotSchema_decided (resolves : Resolves compiler resolve depth)
    (clear : before.Clear compiler depth message) {slot : Slot} (listed : slot ∈ message.slots)
    {schema : Schema} (ran : compiler.slotSchema resolve slot before = (.ok schema, after)) :
    SlotDecided compiler.registry after slot schema := by
  cases slot with
  | plain field => exact .plain
  | group group members =>
    obtain ⟨variants, middle, first, later⟩ := Step.bind_eq_ok ran
    obtain ⟨rfl, rfl⟩ := Step.pure_eq_ok later
    refine .group (variants_decided resolves clear (fun member inside => ?_) first)
    obtain ⟨declared, grouped⟩ := Message.mem_of_mem_group listed inside
    exact ⟨declared, Option.isSome_of_eq_some grouped⟩

private theorem properties_decided (resolves : Resolves compiler resolve depth)
    (clear : before.Clear compiler depth message) {slots : List Slot}
    (listed : ∀ slot ∈ slots, slot ∈ message.slots) {name : String}
    {done properties : Entries Schema}
    (ran : compiler.properties resolve name done slots before = (.ok properties, after)) :
    ∃ added, properties = done ++ added ∧
      List.Forall₂ (fun slot property => SlotDecided compiler.registry after slot property.2) slots
        added := by
  induction slots generalizing before done with
  | nil =>
    obtain ⟨rfl, -⟩ := Step.pure_eq_ok ran
    exact ⟨[], (List.append_nil _).symm, .nil⟩
  | cons slot rest ih =>
    obtain ⟨schema, middle, first, later⟩ := Step.bind_eq_ok ran
    split at later
    · cases later
    have decided := slotSchema_decided resolves clear (listed slot List.mem_cons_self) first
    have faithful := (slotSchema_outcome resolves clear.faithful clear.room slot).faithful
    have extending : (compiler.slotSchema resolve slot).Extending :=
      slotSchema_extending resolves.extending slot
    have extendingRest : (compiler.properties resolve name (done ++ [(slot.property, schema)])
        rest).Extending := properties_extending resolves.extending _ _ _
    have larger := extending before
    have largerRest := extendingRest middle
    rw [first] at larger faithful
    rw [later] at largerRest
    obtain ⟨added, rfl, decidedRest⟩ := ih (clear.extends larger faithful)
      (fun other inside => listed other (List.mem_cons_of_mem _ inside)) later
    exact ⟨(slot.property, schema) :: added, by simp,
      .cons (decided.keeps largerRest.keeps) decidedRest⟩

theorem body_decided (resolves : Resolves compiler resolve depth)
    (clear : before.Clear compiler depth message) {schema : ObjectSchema}
    (ran : compiler.body resolve message before = (.ok schema, after)) :
    MessageDecided compiler.registry after message schema := by
  obtain ⟨properties, middle, first, later⟩ := Step.bind_eq_ok ran
  obtain ⟨rfl, rfl⟩ := Step.pure_eq_ok later
  obtain ⟨added, rfl, decided⟩ := properties_decided resolves clear (fun _ listed => listed) first
  exact decided

/-- What is reserved while a message is compiled reaches what its fields refer to. -/
theorem body_respects_ready (decides : Decides compiler resolve depth)
    (registered : compiler.registry.messages[owner]? = some message) :
    (compiler.body resolve message).Respects
      (Definitions.Preserves (·.Ready compiler depth owner)) :=
  body_respects fun _ listed => resolve_respects decides (.single ⟨message, registered, listed⟩)

/-- Compiling a message without an entry keeps the entries decided, whether it fails or not. -/
theorem messageSchemaWith_decided (decides : Decides compiler resolve depth)
    (registered : compiler.registry.messages[message.fullName]? = some message)
    (absent : message.fullName ∉ before.keys)
    (ready : before.Ready compiler (depth + 1) message.fullName) :
    (compiler.messageSchemaWith resolve message before).2.DecidedAcyclic compiler.registry := by
  have room : compiler.registry.unvisited (before.reserve message.fullName) ≤ depth := by
    have := Registry.unvisited_reserve_lt registered absent
    have := ready.room
    omega
  have inside : (before.reserve message.fullName).Ready compiler depth message.fullName := by
    refine ⟨ready.faithful.reserve _, room, ready.decided.reserve _, fun name reserved => ?_⟩
    by_cases same : name = message.fullName
    · exact same ▸ .refl
    · exact ready.pending name (Definitions.get?_reserve_of_ne same ▸ reserved)
  have later := body_respects_ready decides registered _ inside
  have extending : (compiler.body resolve message).Extending :=
    body_extending decides.resolves.extending message
  have reserved := Definitions.get?_of_reserve_extends absent (extending _)
  rcases ran : compiler.body resolve message (before.reserve message.fullName) with
    ⟨outcome, after⟩
  rw [ran] at later reserved
  rw [messageSchemaWith_of_not_mem absent ran]
  cases outcome with
  | ok schema =>
    exact later.decided.complete reserved registered fun acyclic =>
      body_decided decides.resolves (inside.clear acyclic) ran
  | error cause => exact later.decided.withdraw reserved

private theorem ensure_decides {compile : Message → Step ObjectSchema}
    (resolves : Resolves compiler (compiler.ensure compile) depth)
    (compiling : ∀ message before, before.Ready compiler depth message.fullName →
      compiler.registry.messages[message.fullName]? = some message →
      message.fullName ∉ before.keys →
      (compile message before).2.DecidedAcyclic compiler.registry) :
    Decides compiler (compiler.ensure compile) depth := by
  refine ⟨resolves, fun name before ready => ?_⟩
  cases found : compiler.registry.message? name with
  | none =>
    simp only [ensure, found]
    exact ready.decided
  | some message =>
    obtain ⟨named, registered⟩ := Registry.message?_eq_some found
    simp only [ensure, found, Entries.contains_iff]
    by_cases present : message.fullName ∈ before.keys
    · rw [if_pos present]
      exact ready.decided
    · have decided := compiling message before (named ▸ ready) registered present
      rw [if_neg present]
      split <;> rename_i ran <;> rwa [ran] at decided

private theorem resolver_decides (compiler : Compiler) (depth : Nat) :
    Decides compiler (compiler.resolver depth) depth := by
  induction depth with
  | zero => exact ensure_decides (resolver_resolves compiler 0) fun _ _ ready _ _ => ready.decided
  | succ depth ih =>
    exact ensure_decides (resolver_resolves compiler (depth + 1))
      fun message before ready registered absent =>
        messageSchemaWith_decided ih registered absent ready

private theorem resolve_decides (compiler : Compiler) :
    Decides compiler compiler.resolve compiler.registry.messages.size :=
  resolver_decides compiler _

end Compiler

/-! ## Shared tables -/

namespace Session

variable {compiler : Compiler} {table after : Definitions}

/-- Between calls nothing is reserved. -/
theorem get?_ne_reserved {admitted : Message → Prop} (session : Session compiler admitted table)
    (name : String) : table.get? name ≠ some .reserved := by
  intro reserved
  obtain ⟨schema, found⟩ := session.completed name
    (Entries.mem_keys_of_mem (Entries.mem_of_get? reserved))
  rw [Definitions.schema?_eq_some_iff, reserved] at found
  cases found

private theorem ready (session : Session compiler compiler.registry.Holds table)
    (decided : table.DecidedAcyclic compiler.registry) {depth : Nat}
    (enough : compiler.registry.messages.size ≤ depth) (target : String) :
    table.Ready compiler depth target :=
  ⟨session.faithful, Nat.le_trans (Registry.unvisited_le_size _ _) enough, decided,
    fun name reserved => absurd reserved (session.get?_ne_reserved name)⟩

private theorem clear (session : Session compiler compiler.registry.Holds table)
    (message : Message) :
    table.Clear compiler compiler.registry.messages.size message :=
  ⟨session.faithful, Registry.unvisited_le_size _ _, fun _ _ _ _ target _ =>
    session.get?_ne_reserved target⟩

private theorem fieldSchema_decided (session : Session compiler compiler.registry.Holds table)
    (decided : table.DecidedAcyclic compiler.registry) (field : Field) :
    (compiler.fieldSchema field table).2.DecidedAcyclic compiler.registry := by
  -- the only type that is resolved here is that of the field
  have respects : (compiler.fieldSchema field).Respects (Definitions.Preserves
      (·.Ready compiler compiler.registry.messages.size (field.target?.getD ""))) :=
    Compiler.fieldSchemaWith_respects fun target found =>
      Compiler.resolve_respects (Compiler.resolve_decides compiler) (by rw [found]; exact .refl)
  exact (respects table (session.ready decided (Nat.le_refl _) _)).decided

/-- Calls with registered messages and any fields leave the entries of messages without oneof cycles
decided. -/
theorem decidedAcyclic (session : Session compiler compiler.registry.Holds table) :
    table.DecidedAcyclic compiler.registry := by
  induction session with
  | start => exact .empty _
  | @message table message session registered ih =>
    have decides := Compiler.resolve_decides compiler
    by_cases present : message.fullName ∈ table.keys
    · have ready := session.ready ih (Nat.le_refl _) message.fullName
      have later := Compiler.body_respects_ready decides registered table ready
      rw [Compiler.messageSchema, Compiler.messageSchemaWith_of_mem present]
      exact later.decided
    · exact Compiler.messageSchemaWith_decided decides registered present
        (session.ready ih (Nat.le_succ _) message.fullName)
  | @field table field session ih => exact session.fieldSchema_decided ih field

theorem decided (acyclic : compiler.registry.OneofAcyclic)
    (session : Session compiler compiler.registry.Holds table) :
    table.Decided compiler.registry :=
  fun name message schema registered stored =>
    session.decidedAcyclic name message schema registered stored (acyclic.message registered)

/-- The schema of a message that has an entry is built while nothing is being compiled. -/
theorem messageSchema_decided_of_mem
    (session : Session compiler compiler.registry.Holds table) {message : Message}
    (present : message.fullName ∈ table.keys) {schema : ObjectSchema}
    (ran : compiler.messageSchema message table = (.ok schema, after)) :
    MessageDecided compiler.registry after message schema := by
  rw [Compiler.messageSchema, Compiler.messageSchemaWith_of_mem present] at ran
  exact Compiler.body_decided (Compiler.resolve_resolves compiler) (session.clear message) ran

theorem messageSchema_decided (acyclic : compiler.registry.OneofAcyclic)
    (session : Session compiler compiler.registry.Holds table) {message : Message}
    (registered : compiler.registry.Holds message) {schema : ObjectSchema}
    (ran : compiler.messageSchema message table = (.ok schema, after)) :
    MessageDecided compiler.registry after message schema := by
  by_cases present : message.fullName ∈ table.keys
  · exact session.messageSchema_decided_of_mem present ran
  · have outcome := Compiler.messageSchema_outcome session.faithful registered present
    obtain ⟨-, -, -, stored⟩ := outcome.of_ok ran
    have later := (session.message registered).decided acyclic
    rw [ran] at later
    exact later _ message schema registered stored

end Session

end ToolContract
