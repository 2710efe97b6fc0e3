import ToolContract.Proofs.Compile.Runs
import ToolContract.Proofs.Table.Agreement

/-!
# Schemas that are built again

A message that has an entry is compiled again, and the entry stays as it was. The second schema is
built while nothing is being compiled, so each of its variants takes over what it can; the entry was
built while the message itself, and whatever it was met in, was being compiled. So the two are the
same exactly if the entry is decided (`Compiler.rebuilt_schema`).
-/

set_option autoImplicit false

namespace ToolContract

/-- What asks only for message types with entries and shows no flaw succeeds and changes nothing. -/
theorem Asks.idle {compiler : Compiler} {asked : String → Prop} {flaw : Prop} {α : Type}
    {part : Resolver → Step α} {table : Definitions} (asks : Asks compiler.registry asked flaw part)
    (flawless : ¬ flaw) (present : ∀ target, asked target → target ∈ table.keys) (limit : Nat) :
    ∃ value, part (compiler.resolver limit) table = (.ok value, table) := by
  induction asks with
  | settled value => exact ⟨value, rfl⟩
  | flawed _ shown => exact absurd shown flawless
  | look => exact ⟨table, rfl⟩
  | @ask name known missing =>
    obtain ⟨message, found⟩ := Option.ne_none_iff_exists'.mp fun none => flawless (missing none)
    obtain ⟨named, -⟩ := Registry.message?_eq_some found
    exact ⟨_, Compiler.resolver_of_known found (named ▸ present _ known) limit⟩
  | bind _ _ firstIH laterIH =>
    obtain ⟨value, first⟩ := firstIH
    obtain ⟨other, later⟩ := laterIH value
    exact ⟨other, (Step.bind_of_ok first).trans later⟩

namespace Session

variable {compiler : Compiler} {table after : Definitions} {message : Message}
  {schema : ObjectSchema}

/-- A message that was compiled has entries for all the message types of its fields. -/
theorem targets_subset_keys (session : Session compiler compiler.registry.Holds table)
    (registered : compiler.registry.Holds message)
    (ran : compiler.messageSchema message table = (.ok schema, after)) :
    message.targets ⊆ after.keys := by
  by_cases present : message.fullName ∈ table.keys
  · have outcome := Compiler.messageSchema_outcome_of_mem session.faithful present
    exact (outcome.of_ok ran).2.1.todo_subset
  · have outcome := Compiler.messageSchema_outcome session.faithful registered present
    obtain ⟨-, walk, -⟩ := outcome.of_ok ran
    have entered : message.fullName ∈ after.keys := walk.todo_subset List.mem_cons_self
    exact fun target listed => walk.closed entered present ⟨message, registered, listed⟩

private theorem exists_entry (session : Session compiler compiler.registry.Holds table)
    (registered : compiler.registry.Holds message)
    (ran : compiler.messageSchema message table = (.ok schema, after)) :
    ∃ stored, after.schema? message.fullName = some stored ∧
      (message.fullName ∉ table.keys → schema = stored) ∧
      (message.fullName ∈ table.keys → table.schema? message.fullName = some stored) := by
  by_cases present : message.fullName ∈ table.keys
  · obtain ⟨stored, found⟩ := session.completed _ present
    have larger := compiler.messageSchema_extending message table
    rw [ran] at larger
    exact ⟨stored, larger.schema? found, fun absent => absurd present absent, fun _ => found⟩
  · have outcome := Compiler.messageSchema_outcome session.faithful registered present
    obtain ⟨-, -, -, stored⟩ := outcome.of_ok ran
    exact ⟨schema, stored, fun _ => rfl, fun absurdly => absurd absurdly present⟩

/-- The second compilation succeeds, and changes nothing. -/
theorem exists_again (session : Session compiler compiler.registry.Holds table)
    (registered : compiler.registry.Holds message)
    (ran : compiler.messageSchema message table = (.ok schema, after)) :
    ∃ again, compiler.messageSchema message after = (.ok again, after) := by
  have fine := (session.messageSchema_described registered ran).wellFormed
  have present := session.mem_keys_of_messageSchema registered ran
  obtain ⟨again, rebuilt⟩ := (Compiler.body_asks compiler message).idle (not_not_intro fine)
    (session.targets_subset_keys registered ran) compiler.registry.messages.size
  exact ⟨again, (Compiler.messageSchemaWith_of_mem present).trans rebuilt⟩

/-- A message without an entry is compiled while only the message itself is. -/
theorem messageSchema_decided_of_not_mem
    (session : Session compiler compiler.registry.Holds table)
    (absent : message.fullName ∉ table.keys)
    (indirect : ∀ member ∈ message.fields, member.oneof.isSome = true →
      member.cardinality = .singular → member.target? ≠ some message.fullName)
    (ran : compiler.messageSchema message table = (.ok schema, after)) :
    MessageDecided compiler.registry after message schema := by
  have resolves := Compiler.resolve_resolves compiler
  have clear : (table.reserve message.fullName).Clear compiler compiler.registry.messages.size
      message := by
    refine ⟨session.faithful.reserve _, Registry.unvisited_le_size _ _, ?_⟩
    intro member declared grouped single target found reserved
    by_cases same : target = message.fullName
    · exact indirect member declared grouped single (same ▸ found)
    · exact session.get?_ne_reserved target (Definitions.get?_reserve_of_ne same ▸ reserved)
  rcases built : compiler.body compiler.resolve message (table.reserve message.fullName) with
    ⟨outcome, middle⟩
  obtain ⟨rfl, rfl⟩ :=
    Prod.mk.inj ((Compiler.messageSchemaWith_of_not_mem absent built).symm.trans ran)
  have extending : (compiler.body compiler.resolve message).Extending :=
    Compiler.body_extending resolves.extending message
  have reserved := Definitions.get?_of_reserve_extends absent (extending _)
  rw [built] at reserved
  exact (Compiler.body_decided resolves clear built).keeps (Definitions.keeps_complete reserved)

end Session

/-- A registered message that is compiled on a shared table has a completed entry afterwards, and is
compiled again to some schema without changing the table. A first compilation stores what it yields;
a later one keeps the entry, and yields what any further one yields. That is the entry exactly if
all variants of the entry take over what they can, and so if no single oneof member has a message
type from which the message is reached, or if the message had no entry and no such member is of the
message's own type. -/
theorem Compiler.rebuilt_schema (compiler : Compiler) (table after : Definitions)
    (session : Session compiler compiler.registry.Holds table) (message : Message)
    (registered : compiler.registry.Holds message) (schema : ObjectSchema)
    (ran : compiler.messageSchema message table = (.ok schema, after)) :
    ∃ stored again, after.schema? message.fullName = some stored ∧
      compiler.messageSchema message after = (.ok again, after) ∧
      (message.fullName ∉ table.keys → schema = stored) ∧
      (message.fullName ∈ table.keys →
        table.schema? message.fullName = some stored ∧ schema = again) ∧
      (again = stored ↔ MessageDecided compiler.registry after message stored) ∧
      (message.OneofAcyclic compiler.registry → again = stored) ∧
      (message.fullName ∉ table.keys →
        (∀ member ∈ message.fields, member.oneof.isSome = true → member.cardinality = .singular →
          member.target? ≠ some message.fullName) → again = stored) := by
  obtain ⟨stored, found, first, later⟩ := session.exists_entry registered ran
  obtain ⟨again, rebuilt⟩ := session.exists_again registered ran
  have shared : Session compiler compiler.registry.Holds after := by
    have step := session.message registered
    rwa [ran] at step
  have present := session.mem_keys_of_messageSchema registered ran
  have decided := shared.messageSchema_decided_of_mem present rebuilt
  have described := shared.messageSchema_described registered rebuilt
  -- a decided schema of the message in this table is the one that is built again
  have unique (other : ObjectSchema) (otherDescribed : MessageDescribed compiler after message other)
      (otherDecided : MessageDecided compiler.registry after message other) : again = other := by
    refine described.eq_of_decided shared.faithful shared.faithful ?_ decided otherDescribed
      otherDecided
    exact fun _ _ _ held otherHeld _ => Option.some.inj (held.symm.trans otherHeld)
  obtain ⟨owner, ownerRegistered, storedDescribed⟩ := shared.faithful.described _ _ found
  obtain rfl := Option.some.inj (registered.symm.trans ownerRegistered)
  have exactly : again = stored ↔ MessageDecided compiler.registry after message stored :=
    ⟨fun same => same ▸ decided, unique stored storedDescribed⟩
  refine ⟨stored, again, found, rebuilt, first, fun known => ⟨later known, ?_⟩, exactly, ?_, ?_⟩
  · exact (unique schema (session.messageSchema_described registered ran)
      (session.messageSchema_decided_of_mem known ran)).symm
  · exact fun acyclic =>
      exactly.mpr (shared.decidedAcyclic _ message stored registered found acyclic)
  · intro absent indirect
    obtain rfl := first absent
    exact exactly.mpr (session.messageSchema_decided_of_not_mem absent indirect ran)

open Checkout in
/-- The order leads back to itself outside of its oneof group only. -/
theorem Compiler.rebuilt_schema_checkout :
    ∃ schema after, compiler.messageSchema order indirect = (.ok schema, after) ∧
      indirect.schema? "a.Order" = some schema ∧ after.schema? "a.Order" = some schema ∧
      compiler.messageSchema order after = (.ok schema, after) := by
  have held : compiler.registry.Holds order := by decide +kernel
  have known : order.fullName ∈ indirect.keys := by decide +kernel
  obtain ⟨schema, after, ran⟩ : ∃ schema after, compiler.messageSchema order indirect =
      (.ok schema, after) := compiles (by decide +kernel)
  obtain ⟨stored, again, found, rebuilt, -, later, -, same, -⟩ :=
    Compiler.rebuilt_schema compiler indirect after indirect_session order held schema ran
  obtain ⟨entry, rfl⟩ := later known
  obtain rfl := same (acyclic.message held)
  exact ⟨schema, after, ran, entry, found, rebuilt⟩

/-! ### A oneof member of the message's own type -/

namespace Formula

def expr : Message where
  fullName := "a.Expr"
  fields := [
    { name := "literal", kind := .scalar .int64, oneof := some "node" },
    { name := "negate", kind := .message "a.Expr", oneof := some "node" }]

def compiler : Compiler where
  registry := Registry.empty |>.addMessage expr

end Formula

open Formula in
/-- While the expression is compiled its member is held under its name; afterwards the member takes
over the entry. So the second schema is not the entry. -/
theorem rebuilt_schema_drifts :
    Session compiler compiler.registry.Holds [] ∧ compiler.registry.Holds expr ∧
      ∃ schema again after, compiler.messageSchema expr [] = (.ok schema, after) ∧
        after.schema? "a.Expr" = some schema ∧
        compiler.messageSchema expr after = (.ok again, after) ∧ again ≠ schema := by
  have held : compiler.registry.Holds expr := by decide +kernel
  have differ : (compiler.messageSchema expr (compiler.messageSchema expr []).2).1.toOption.map
      (·.toSchema.toJson) ≠ (compiler.messageSchema expr []).1.toOption.map (·.toSchema.toJson) := by
    decide +kernel
  have succeeds : (compiler.messageSchema expr []).1.isOk = true := by decide +kernel
  refine ⟨.start, held, ?_⟩
  rcases ran : compiler.messageSchema expr [] with ⟨result, after⟩
  rw [ran] at differ succeeds
  cases result with
  | error cause => simp [Except.isOk, Except.toBool] at succeeds
  | ok schema =>
    obtain ⟨stored, found, first, -⟩ := Session.start.exists_entry held ran
    obtain rfl := first (by simp)
    obtain ⟨again, rebuilt⟩ := Session.start.exists_again held ran
    refine ⟨schema, again, after, rfl, found, rebuilt, ?_⟩
    rintro rfl
    simp [rebuilt] at differ

end ToolContract
