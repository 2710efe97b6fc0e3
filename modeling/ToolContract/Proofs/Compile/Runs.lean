import ToolContract.Proofs.Compile.Outcome

/-!
# Runs of the compiler

The resolver goes no deeper than a number given in advance. A run follows the same recursion without
any bound, and counts: it lists the messages whose bodies it builds, in the order in which they are
begun, and says how many of them lie inside each other. Every message and every field has a run on
every table, and each run ends as the bounded compiler does (`Compiler.compilation_terminates`). The
measure is the number of registered messages without an entry: each body that is begun inside another
has just been reserved.
-/

set_option autoImplicit false

namespace ToolContract

private theorem Definitions.keys_close {before after : Definitions} {name : String}
    {schema : ObjectSchema}
    (absent : name ∉ before.keys) (larger : (before.reserve name).Extends after) :
    (after.close name (.ok schema)).keys = after.keys := by
  have reserved := Definitions.get?_of_reserve_extends absent larger
  exact Definitions.keys_complete (Entries.mem_keys_of_mem (Entries.mem_of_get? reserved))

/-- The part of the compiler, run on the table `before`, builds the bodies of the messages `built`,
at most `depth` of them inside each other. -/
inductive Run (compiler : Compiler) :
    {α : Type} → (Resolver → Step α) → (before : Definitions) → (built : List String) →
      (depth : Nat) → Except SchemaError α → (after : Definitions) → Prop where
  | settled {α : Type} {table} (outcome : Except SchemaError α) :
      Run compiler (fun _ => .ofExcept outcome) table [] 0 outcome table
  | look {table} : Run compiler (fun _ => .definitions) table [] 0 (.ok table) table
  | stop {α β : Type} {first : Resolver → Step α} {next : α → Resolver → Step β}
      {before after built depth cause} :
      Run compiler first before built depth (.error cause) after →
      Run compiler (fun resolve => first resolve >>= fun value => next value resolve) before built
        depth (.error cause) after
  | bind {α β : Type} {first : Resolver → Step α} {next : α → Resolver → Step β}
      {before middle after built others depth otherDepth value outcome} :
      Run compiler first before built depth (.ok value) middle →
      Run compiler (next value) middle others otherDepth outcome after →
      Run compiler (fun resolve => first resolve >>= fun value => next value resolve) before
        (built ++ others) (max depth otherDepth) outcome after
  | unknown {table name} :
      compiler.registry.message? name = none →
      Run compiler (fun resolve => resolve name) table [] 0 (.error (.unknownType name)) table
  | known {table name message} :
      compiler.registry.message? name = some message → message.fullName ∈ table.keys →
      Run compiler (fun resolve => resolve name) table [] 0 (.ok message.fullName) table
  | enter {name message before after built depth outcome} :
      compiler.registry.message? name = some message → message.fullName ∉ before.keys →
      Run compiler (fun resolve => compiler.body resolve message) (before.reserve message.fullName)
        built depth outcome after →
      Run compiler (fun resolve => resolve name) before (message.fullName :: built) (depth + 1)
        (outcome.map fun _ => message.fullName) (after.close message.fullName outcome)

/-- The message, compiled on the table `before`, begins with its own body: on the table itself if the
message has an entry, else under a reservation. -/
inductive MessageRun (compiler : Compiler) (message : Message) (before : Definitions) :
    (built : List String) → (depth : Nat) → Except SchemaError ObjectSchema →
      (after : Definitions) → Prop where
  | again {built depth outcome after} :
      message.fullName ∈ before.keys →
      Run compiler (fun resolve => compiler.body resolve message) before built depth outcome after →
      MessageRun compiler message before (message.fullName :: built) (depth + 1) outcome after
  | first {built depth outcome after} :
      message.fullName ∉ before.keys →
      Run compiler (fun resolve => compiler.body resolve message) (before.reserve message.fullName)
        built depth outcome after →
      MessageRun compiler message before (message.fullName :: built) (depth + 1) outcome
        (after.close message.fullName outcome)

/-! ## Each run is a bounded compilation -/

namespace Compiler

variable {compiler : Compiler} {resolve : Resolver} {message : Message} {before after : Definitions}

private theorem resolver_of_unknown {name : String}
    (missing : compiler.registry.message? name = none)
    (limit : Nat) :
    compiler.resolver limit name before = (.error (.unknownType name), before) := by
  cases limit <;> simp only [resolver, ensure, missing] <;> rfl

theorem resolver_of_known {name : String} (found : compiler.registry.message? name = some message)
    (present : message.fullName ∈ before.keys) (limit : Nat) :
    compiler.resolver limit name before = (.ok message.fullName, before) := by
  cases limit <;> simp only [resolver, ensure, found, Entries.contains_iff.mpr present, if_true]

private theorem resolver_of_new {name : String}
    (found : compiler.registry.message? name = some message)
    (absent : message.fullName ∉ before.keys) {limit : Nat}
    {outcome : Except SchemaError ObjectSchema}
    (ran : compiler.body (compiler.resolver limit) message (before.reserve message.fullName) =
      (outcome, after)) :
    compiler.resolver (limit + 1) name before =
      (outcome.map fun _ => message.fullName, after.close message.fullName outcome) := by
  simp only [resolver, ensure, found, Entries.contains_iff, absent, if_false,
    messageSchemaWith_of_not_mem absent ran]
  cases outcome <;> rfl

end Compiler

namespace Run

variable {compiler : Compiler} {α : Type} {part : Resolver → Step α} {before after : Definitions}
  {built : List String} {depth : Nat} {outcome : Except SchemaError α}

/-- A resolver that goes as deep as the run comes to the same end. -/
theorem ran (run : Run compiler part before built depth outcome after) {limit : Nat}
    (enough : depth ≤ limit) : part (compiler.resolver limit) before = (outcome, after) := by
  induction run generalizing limit with
  | settled outcome => rfl
  | look => rfl
  | stop _ ih => exact Step.bind_of_error (ih enough)
  | bind _ _ firstIH laterIH =>
    rw [Nat.max_le] at enough
    exact (Step.bind_of_ok (firstIH enough.1)).trans (laterIH enough.2)
  | unknown missing => exact Compiler.resolver_of_unknown missing limit
  | known found present => exact Compiler.resolver_of_known found present limit
  | enter found absent _ ih =>
    obtain ⟨below, rfl⟩ := Nat.exists_eq_add_of_le' (Nat.le_of_add_left_le enough)
    exact Compiler.resolver_of_new found absent (ih (Nat.le_of_succ_le_succ enough))

private theorem extends_ (run : Run compiler part before built depth outcome after) :
    before.Extends after := by
  induction run with
  | settled => exact .refl _
  | look => exact .refl _
  | stop _ ih => exact ih
  | bind _ _ firstIH laterIH => exact firstIH.trans laterIH
  | unknown => exact .refl _
  | known => exact .refl _
  | enter _ absent _ ih => exact ih.close absent _

/-- No more bodies lie inside each other than there are registered messages without an entry. -/
theorem depth_le (run : Run compiler part before built depth outcome after) :
    depth ≤ compiler.registry.unvisited before := by
  induction run with
  | settled => exact Nat.zero_le _
  | look => exact Nat.zero_le _
  | stop _ ih => exact ih
  | bind first _ firstIH laterIH =>
    refine Nat.max_le.mpr ⟨firstIH, Nat.le_trans laterIH ?_⟩
    exact Registry.unvisited_le_of_subset first.extends_.keys_subset
  | unknown => exact Nat.zero_le _
  | known => exact Nat.zero_le _
  | enter found absent _ ih =>
    obtain ⟨-, registered⟩ := Registry.message?_eq_some found
    have fewer := Registry.unvisited_reserve_lt registered absent
    omega

/-- A success leaves an entry for each body that it has built. -/
theorem keys_of_ok {value : α} (run : Run compiler part before built depth (.ok value) after) :
    after.keys = before.keys ++ built := by
  generalize ended : Except.ok value = outcome at run
  -- a part that fails ends the run, so every part of a success has succeeded
  induction run with
  | settled => exact (List.append_nil _).symm
  | look => exact (List.append_nil _).symm
  | stop => cases ended
  | bind _ _ firstIH laterIH =>
    rw [laterIH ended, firstIH rfl, List.append_assoc]
  | unknown => cases ended
  | known => exact (List.append_nil _).symm
  | @enter _ message before after _ _ outcome _ absent inner ih =>
    cases outcome with
    | error cause => cases ended
    | ok schema =>
      rw [Definitions.keys_close absent inner.extends_, ih rfl, Definitions.keys_reserve,
        List.append_assoc, List.singleton_append]

private theorem new_of_ok {value : α}
    (run : Run compiler part before built depth (.ok value) after) :
    built.Nodup ∧ ∀ name ∈ built, name ∉ before.keys := by
  obtain ⟨added, rfl, distinct, new, -⟩ := run.extends_
  have keys := run.keys_of_ok
  rw [Entries.keys_append, List.append_cancel_left_eq] at keys
  exact keys ▸ ⟨distinct, new⟩

end Run

/-! ## Every part of the compiler has a run -/

/-- What asks only for message types has a run, if the bodies of messages have runs on the tables
that leave fewer registered messages without an entry. -/
theorem Asks.exists_run {compiler : Compiler} {asked : String → Prop} {flaw : Prop} {α : Type}
    {part : Resolver → Step α} {bound : Nat} {before : Definitions}
    (asks : Asks compiler.registry asked flaw part)
    (inner : ∀ message table, compiler.registry.unvisited table < bound →
      ∃ built depth outcome after,
        Run compiler (fun resolve => compiler.body resolve message) table built depth outcome after)
    (room : compiler.registry.unvisited before ≤ bound) :
    ∃ built depth outcome after, Run compiler part before built depth outcome after := by
  induction asks generalizing before with
  | settled value => exact ⟨_, _, _, _, .settled (.ok value)⟩
  | flawed cause => exact ⟨_, _, _, _, .settled (.error cause)⟩
  | look => exact ⟨_, _, _, _, .look⟩
  | @ask name =>
    cases found : compiler.registry.message? name with
    | none => exact ⟨_, _, _, _, .unknown found⟩
    | some message =>
      by_cases present : message.fullName ∈ before.keys
      · exact ⟨_, _, _, _, .known found present⟩
      · obtain ⟨-, registered⟩ := Registry.message?_eq_some found
        have fewer := Registry.unvisited_reserve_lt registered present
        obtain ⟨built, depth, outcome, after, run⟩ :=
          inner message (before.reserve message.fullName) (Nat.lt_of_lt_of_le fewer room)
        exact ⟨_, _, _, _, .enter found present run⟩
  | bind _ _ firstIH laterIH =>
    -- the first part only adds entries, so the bound holds of the table that it leaves
    obtain ⟨built, depth, outcome, middle, first⟩ := firstIH room
    cases outcome with
    | error cause => exact ⟨_, _, _, _, .stop first⟩
    | ok value =>
      obtain ⟨others, otherDepth, outcome, after, later⟩ :=
        laterIH value (first.extends_.room room)
      exact ⟨_, _, _, _, .bind first later⟩

namespace Compiler

/-- By recursion on the number of registered messages that have no entry. -/
theorem exists_bodyRun (compiler : Compiler) (message : Message) (table : Definitions) :
    ∃ built depth outcome after,
      Run compiler (fun resolve => compiler.body resolve message) table built depth outcome after :=
  (body_asks compiler message).exists_run
    (fun other inside _ => exists_bodyRun compiler other inside) (Nat.le_refl _)
termination_by compiler.registry.unvisited table

private theorem exists_fieldRun (compiler : Compiler) (field : Field) (table : Definitions) :
    ∃ built depth outcome after,
      Run compiler (fun resolve => compiler.fieldSchemaWith resolve field) table built depth outcome
        after :=
  (fieldSchemaWith_asks (fun _ found => found) fun _ => trivial).exists_run
    (fun other inside _ => exists_bodyRun compiler other inside) (Nat.le_refl _)

private theorem exists_messageRun (compiler : Compiler) (message : Message) (table : Definitions) :
    ∃ built depth outcome after, MessageRun compiler message table built depth outcome after := by
  by_cases present : message.fullName ∈ table.keys
  · obtain ⟨built, depth, outcome, after, run⟩ := exists_bodyRun compiler message table
    exact ⟨_, _, _, _, .again present run⟩
  · obtain ⟨built, depth, outcome, after, run⟩ :=
      exists_bodyRun compiler message (table.reserve message.fullName)
    exact ⟨_, _, _, _, .first present run⟩

end Compiler

/-! ## Runs of messages -/

namespace MessageRun

variable {compiler : Compiler} {message : Message} {before after : Definitions}
  {built : List String} {depth : Nat} {outcome : Except SchemaError ObjectSchema}

/-- A resolver that goes as deep as there are registered messages comes to the end of the run. -/
theorem ran_of_le (run : MessageRun compiler message before built depth outcome after) {limit : Nat}
    (enough : compiler.registry.messages.size ≤ limit) :
    compiler.messageSchemaWith (compiler.resolver limit) message before = (outcome, after) := by
  cases run with
  | again present inner =>
    have deep := Nat.le_trans inner.depth_le (Registry.unvisited_le_size _ _)
    exact (Compiler.messageSchemaWith_of_mem present).trans (inner.ran (Nat.le_trans deep enough))
  | first absent inner =>
    have deep := Nat.le_trans inner.depth_le (Registry.unvisited_le_size _ _)
    exact Compiler.messageSchemaWith_of_not_mem absent (inner.ran (Nat.le_trans deep enough))

private theorem ran (run : MessageRun compiler message before built depth outcome after) :
    compiler.messageSchema message before = (outcome, after) :=
  run.ran_of_le (Nat.le_refl _)

private theorem depth_le (run : MessageRun compiler message before built depth outcome after) :
    depth ≤ 1 + compiler.registry.unvisited before := by
  rw [Nat.add_comm]
  cases run with
  | again _ inner => exact Nat.succ_le_succ inner.depth_le
  | first _ inner =>
    have smaller : compiler.registry.unvisited (before.reserve message.fullName) ≤
        compiler.registry.unvisited before :=
      Registry.unvisited_le_of_subset (by simp [Definitions.keys_reserve])
    exact Nat.succ_le_succ (Nat.le_trans inner.depth_le smaller)

private theorem nodup_of_ok {schema : ObjectSchema}
    (run : MessageRun compiler message before built depth (.ok schema) after) : built.Nodup := by
  cases run with
  | again present inner =>
    obtain ⟨distinct, new⟩ := inner.new_of_ok
    exact List.nodup_cons.mpr ⟨fun member => new _ member present, distinct⟩
  | first _ inner =>
    obtain ⟨distinct, new⟩ := inner.new_of_ok
    have reserved : message.fullName ∈ (before.reserve message.fullName).keys := by
      simp [Definitions.keys_reserve]
    exact List.nodup_cons.mpr ⟨fun member => new _ member reserved, distinct⟩

/-- A message without an entry is compiled to as many new entries as bodies are built. -/
theorem keys_of_ok {schema : ObjectSchema} (absent : message.fullName ∉ before.keys)
    (run : MessageRun compiler message before built depth (.ok schema) after) :
    after.keys = before.keys ++ built := by
  cases run with
  | again present => exact absurd present absent
  | first _ inner =>
    rw [Definitions.keys_close absent inner.extends_, inner.keys_of_ok, Definitions.keys_reserve,
      List.append_assoc, List.singleton_append]

end MessageRun

/-- A resolver that goes deeper than there are registered messages changes nothing. -/
theorem Compiler.messageSchemaWith_resolver (compiler : Compiler) (message : Message)
    (table : Definitions) {limit : Nat} (enough : compiler.registry.messages.size ≤ limit) :
    compiler.messageSchemaWith (compiler.resolver limit) message table =
      compiler.messageSchema message table := by
  obtain ⟨built, depth, outcome, after, run⟩ := exists_messageRun compiler message table
  rw [run.ran_of_le enough, run.ran]

/-! ## Compilations end -/

/-- Whatever the graph of message types, every message, registered or not, and every field has a run
on every table and comes to the end of that run. The bodies that lie inside each other are at most
one more than the registered messages that the table has no entry of. A message that is compiled
builds no body twice; a contract builds one body for each of its definitions, in their order. -/
theorem Compiler.compilation_terminates (compiler : Compiler) :
    (∀ message table,
      (∃ built depth outcome after, MessageRun compiler message table built depth outcome after) ∧
      ∀ built depth outcome after, MessageRun compiler message table built depth outcome after →
        compiler.messageSchema message table = (outcome, after) ∧
        depth ≤ 1 + compiler.registry.unvisited table ∧
        ∀ schema, outcome = .ok schema → built.Nodup) ∧
    (∀ field table,
      (∃ built depth outcome after, Run compiler
        (fun resolve => compiler.fieldSchemaWith resolve field) table built depth outcome after) ∧
      ∀ built depth outcome after, Run compiler
        (fun resolve => compiler.fieldSchemaWith resolve field) table built depth outcome after →
        compiler.fieldSchema field table = (outcome, after) ∧
        depth ≤ 1 + compiler.registry.unvisited table) ∧
    ∀ name contract, compiler.contract name = .ok contract →
      ∃ message built depth, compiler.registry.message? name = some message ∧
        MessageRun compiler message [] built depth (.ok contract.root) contract.definitions ∧
        built = contract.definitions.keys ∧ built.Nodup := by
  refine ⟨fun message table => ⟨exists_messageRun compiler message table, ?_⟩,
    fun field table => ⟨exists_fieldRun compiler field table, ?_⟩, fun name contract compiled => ?_⟩
  · rintro built depth outcome after run
    refine ⟨run.ran, run.depth_le, ?_⟩
    rintro schema rfl
    exact run.nodup_of_ok
  · intro built depth outcome after run
    have enough := Nat.le_trans run.depth_le (Registry.unvisited_le_size _ _)
    exact ⟨run.ran enough, Nat.le_trans run.depth_le (Nat.le_add_left _ _)⟩
  · unfold Compiler.contract at compiled
    split at compiled
    · cases compiled
    · rename_i message found
      split at compiled
      · rename_i schema definitions ended
        obtain rfl := Except.ok.inj compiled
        obtain ⟨built, depth, outcome, after, run⟩ := exists_messageRun compiler message []
        obtain ⟨rfl, rfl⟩ := Prod.mk.inj (run.ran.symm.trans ended)
        have keys := run.keys_of_ok (by simp)
        exact ⟨message, built, depth, found, run, keys.symm, run.nodup_of_ok⟩
      · cases compiled

open Shapes in
/-- A message type that is referred to from a cycle and from beside it. -/
theorem Compiler.compilation_terminates_shapes :
    ∃ depth outcome after,
      MessageRun compiler shape [] ["draw.Shape", "draw.Circle", "draw.Group"] depth outcome after ∧
      compiler.messageSchema shape [] = (outcome, after) ∧ depth ≤ 4 := by
  obtain ⟨messages, -, contracts⟩ := Compiler.compilation_terminates compiler
  have names : (compiler.contract "draw.Shape").toOption.map (·.definitions.keys) =
      some ["draw.Shape", "draw.Circle", "draw.Group"] := by decide +kernel
  have registered : compiler.registry.message? "draw.Shape" = some shape := by decide +kernel
  have unvisited : compiler.registry.unvisited [] = 3 := by decide +kernel
  cases compiled : compiler.contract "draw.Shape" with
  | error cause => simp [compiled, Except.toOption] at names
  | ok contract =>
    simp only [compiled, Except.toOption, Option.map_some, Option.some.injEq] at names
    obtain ⟨message, built, depth, found, run, keys, -⟩ := contracts _ _ compiled
    obtain rfl := Option.some.inj (registered.symm.trans found)
    obtain ⟨ended, deep, -⟩ := (messages shape []).2 _ _ _ _ run
    rw [unvisited] at deep
    exact ⟨depth, _, _, names ▸ keys ▸ run, ended, deep⟩

end ToolContract
