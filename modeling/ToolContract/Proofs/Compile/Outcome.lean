import ToolContract.Proofs.Table.Faithful

/-!
# What a compilation comes to

`Outcome` says what a step does on a faithful table: if it succeeds, it has walked depth-first to
the message types it refers to and yields a schema that describes what it was asked for; if it
fails, something it refers to is flawed. Each function of the compiler has its outcome, given that
references are resolved (`Resolves`); the resolver meets that by induction on its depth, since each
reservation leaves one registered name less to reserve. The main statements are
`messageSchema_outcome` and `fieldSchema_outcome`.
-/

set_option autoImplicit false

namespace ToolContract

def Registry.unvisited (registry : Registry) (table : Definitions) : Nat :=
  (registry.messages.keys.filter fun name => name ∉ table.keys).length

namespace Registry

variable {registry : Registry} {before after : Definitions}

theorem unvisited_le_size (registry : Registry) (table : Definitions) :
    registry.unvisited table ≤ registry.messages.size := by
  rw [← Std.ExtTreeMap.length_keys]
  exact List.length_filter_le _ _

theorem unvisited_le_of_subset (subset : before.keys ⊆ after.keys) :
    registry.unvisited after ≤ registry.unvisited before := by
  apply List.Sublist.length_le
  apply List.monotone_filter_right
  intro name new
  rw [decide_eq_true_eq] at new ⊢
  exact fun old => new (subset old)

private theorem mem_keys_of_getElem? {name : String} {message : Message}
    (registered : registry.messages[name]? = some message) : name ∈ registry.messages.keys := by
  rw [Std.ExtTreeMap.mem_keys, Std.ExtTreeMap.mem_iff_isSome_getElem?, registered]
  rfl

theorem unvisited_reserve_lt {name : String} {message : Message}
    (registered : registry.messages[name]? = some message) (absent : name ∉ before.keys) :
    registry.unvisited (before.reserve name) < registry.unvisited before := by
  have fewer : registry.messages.keys.filter (fun other => other ∉ (before.reserve name).keys) =
      (registry.messages.keys.filter fun other => other ∉ before.keys).filter
        fun other => other ≠ name := by
    rw [List.filter_filter]
    refine List.filter_congr fun other _ => ?_
    simp [Definitions.keys_reserve, and_comm]
  rw [unvisited, fewer, unvisited, List.length_filter_lt_length_iff_exists]
  exact ⟨name, List.mem_filter.mpr ⟨mem_keys_of_getElem? registered, by simpa using absent⟩,
    by simp⟩

end Registry

theorem Definitions.Extends.room {registry : Registry} {depth : Nat} {before after : Definitions}
    (larger : before.Extends after) (room : registry.unvisited before ≤ depth) :
    registry.unvisited after ≤ depth :=
  Nat.le_trans (Registry.unvisited_le_of_subset larger.keys_subset) room

/-! ## Outcomes -/

/-- What a run of the step on the table `before` comes to. A success has walked to the targets, and
its value satisfies `holds` in the table it leaves; a failure shows the flaw. Either leaves a
faithful table. -/
def Outcome {α : Type} (compiler : Compiler) (before : Definitions) (targets : List String)
    (holds : Definitions → α → Prop) (flaw : Prop) (step : Step α) : Prop :=
  match step before with
  | (.ok value, after) =>
    after.Faithful compiler ∧ compiler.registry.Preorder before.keys targets after.keys ∧
      holds after value
  | (.error _, after) => after.Faithful compiler ∧ flaw

namespace Outcome

variable {α β : Type} {compiler : Compiler} {before : Definitions} {targets rest : List String}
  {holds : Definitions → α → Prop} {result : Definitions → β → Prop} {flaw : Prop}

private theorem pure {value : α} (faithful : before.Faithful compiler) (held : holds before value) :
    Outcome compiler before [] holds flaw (Pure.pure value) :=
  ⟨faithful, .done, held⟩

private theorem fail {cause : SchemaError} (faithful : before.Faithful compiler) (flawed : flaw) :
    Outcome compiler before targets holds flaw (Step.fail cause) :=
  ⟨faithful, flawed⟩

private theorem look {function : Definitions → α} (faithful : before.Faithful compiler)
    (held : holds before (function before)) :
    Outcome compiler before [] holds flaw (do return function (← Step.definitions)) :=
  ⟨faithful, .done, held⟩

theorem faithful {step : Step α} (outcome : Outcome compiler before targets holds flaw step) :
    (step before).2.Faithful compiler := by
  unfold Outcome at outcome
  split at outcome <;> rename_i ran <;> rw [ran] <;> exact outcome.1

theorem of_ok {step : Step α} {value : α} {after : Definitions}
    (outcome : Outcome compiler before targets holds flaw step)
    (ran : step before = (.ok value, after)) :
    after.Faithful compiler ∧ compiler.registry.Preorder before.keys targets after.keys ∧
      holds after value := by
  rw [Outcome, ran] at outcome
  exact outcome

theorem of_error {step : Step α} {cause : SchemaError} {after : Definitions}
    (outcome : Outcome compiler before targets holds flaw step)
    (ran : step before = (.error cause, after)) : after.Faithful compiler ∧ flaw := by
  rw [Outcome, ran] at outcome
  exact outcome

private theorem imp {other : Definitions → α → Prop} {weaker : Prop} {step : Step α}
    (outcome : Outcome compiler before targets holds flaw step)
    (success : ∀ after value, holds after value → other after value) (failure : flaw → weaker) :
    Outcome compiler before targets other weaker step := by
  unfold Outcome at outcome ⊢
  split at outcome
  · exact ⟨outcome.1, outcome.2.1, success _ _ outcome.2.2⟩
  · exact ⟨outcome.1, failure outcome.2⟩

private theorem bind {step : Step α} {next : α → Step β}
    (first : Outcome compiler before targets holds flaw step) (extending : step.Extending)
    (later : ∀ value middle, middle.Faithful compiler → before.Extends middle →
      compiler.registry.Preorder before.keys targets middle.keys → holds middle value →
      Outcome compiler middle rest result flaw (next value)) :
    Outcome compiler before (targets ++ rest) result flaw (step >>= next) := by
  have larger := extending before
  rcases ran : step before with ⟨outcome, after⟩
  cases outcome with
  | error cause =>
    rw [Outcome, Step.bind_of_error ran]
    exact first.of_error ran
  | ok value =>
    obtain ⟨faithful, walk, held⟩ := first.of_ok ran
    rw [ran] at larger
    have second := later value after faithful larger walk held
    rw [Outcome, Step.bind_of_ok ran]
    rcases again : next value after with ⟨outcome, last⟩
    cases outcome with
    | error cause => exact second.of_error again
    | ok value =>
      obtain ⟨lastFaithful, rest, lastHeld⟩ := second.of_ok again
      exact ⟨lastFaithful, walk.append rest, lastHeld⟩

private theorem map {step : Step α} {function : α → β}
    (first : Outcome compiler before targets holds flaw step)
    (success : ∀ after value, holds after value → result after (function value)) :
    Outcome compiler before targets result flaw (do return function (← step)) := by
  rcases ran : step before with ⟨outcome, after⟩
  cases outcome with
  | error cause =>
    rw [Outcome, Step.bind_of_error ran]
    exact first.of_error ran
  | ok value =>
    obtain ⟨faithful, walk, held⟩ := first.of_ok ran
    rw [Outcome, Step.bind_of_ok ran]
    exact ⟨faithful, walk, success after value held⟩

/-- A step whose targets are all in the table leaves its names as they are. -/
theorem idle {step : Step α} (outcome : Outcome compiler before targets holds flaw step)
    (known : targets ⊆ before.keys) : Outcome compiler before [] holds flaw step := by
  unfold Outcome at outcome ⊢
  split at outcome
  · have same := outcome.2.1.eq_of_subset known
    exact ⟨outcome.1, same ▸ .done, outcome.2.2⟩
  · exact outcome

end Outcome

/-! ## The functions of the compiler -/

/-- References are resolved on every faithful table that leaves at most `depth` registered messages
without an entry. -/
structure Resolves (compiler : Compiler) (resolve : Resolver) (depth : Nat) : Prop where
  extending : ∀ name, (resolve name).Extending
  outcome : ∀ name before, before.Faithful compiler → compiler.registry.unvisited before ≤ depth →
    Outcome compiler before [QualifiedName.strip name]
      (fun _ kept => kept = QualifiedName.strip name ∧
        ∃ message, compiler.registry.message? name = some message)
      (¬ compiler.registry.Sound (QualifiedName.strip name)) (resolve name)

namespace Compiler

variable {compiler : Compiler} {resolve : Resolver} {depth : Nat} {before : Definitions}

private theorem kindSchema_outcome (resolves : Resolves compiler resolve depth)
    (faithful : before.Faithful compiler) (room : compiler.registry.unvisited before ≤ depth)
    (kind : FieldKind) :
    Outcome compiler before kind.target?.toList
      (fun _ schema => KindDescribed compiler.registry kind schema)
      (¬ kind.Compilable compiler.registry) (compiler.kindSchema resolve kind) := by
  cases kind with
  | scalar type => exact .pure faithful .scalar
  | enumeration name =>
    simp only [kindSchema, FieldKind.target?]
    split
    · rename_i found
      exact .pure faithful (.enumeration found)
    · rename_i missing
      exact .fail faithful fun fine => by simpa [FieldKind.WellFormed, missing] using fine.wellFormed
  | message name =>
    cases known : WellKnown.ofName? name with
    | some type =>
      simp only [kindSchema, FieldKind.target?, known]
      exact .pure faithful (.wellKnown known)
    | none =>
      simp only [kindSchema, FieldKind.target?, known]
      refine ((resolves.outcome name before faithful room).imp (fun _ _ held => held) ?_).map ?_
      · exact fun unsound fine => unsound (fine.target _ (by simp [FieldKind.target?, known]))
      · intro after kept given
        obtain ⟨rfl, message, found⟩ := given
        exact .message known found
  | group name => exact .fail faithful fun fine => fine.wellFormed

private theorem valueSchema_outcome (resolves : Resolves compiler resolve depth)
    (faithful : before.Faithful compiler) (room : compiler.registry.unvisited before ≤ depth)
    (field : Field) :
    Outcome compiler before field.target?.toList
      (fun _ schema => ValueDescribed compiler.registry field schema)
      (¬ field.Compilable compiler.registry) (compiler.valueSchema resolve field) := by
  have kind : Outcome compiler before field.target?.toList
      (fun _ schema => KindDescribed compiler.registry field.kind schema)
      (¬ field.Compilable compiler.registry) (compiler.kindSchema resolve field.kind) :=
    (kindSchema_outcome resolves faithful room field.kind).imp (fun _ _ described => described)
      fun flawed fine => flawed fine.kind
  unfold valueSchema
  split
  · rename_i alone
    exact kind.imp (fun _ _ described => .singular alone described) id
  · rename_i many
    exact kind.map fun _ _ described => .repeated many described
  · rename_i key mapped
    rw [← List.append_nil field.target?.toList]
    refine kind.bind (kindSchema_extending resolves.extending _) ?_
    intro values middle faithful _ _ described
    split
    · rename_i form keyed
      exact .pure faithful (.map mapped keyed described)
    · rename_i unfit
      exact .fail faithful fun fine => by simpa [unfit] using fine.key key mapped

private theorem fieldSchemaWith_outcome (resolves : Resolves compiler resolve depth)
    (faithful : before.Faithful compiler) (room : compiler.registry.unvisited before ≤ depth)
    (field : Field) :
    Outcome compiler before field.target?.toList
      (fun _ schema => FieldDescribed compiler.registry field schema)
      (¬ field.Compilable compiler.registry) (compiler.fieldSchemaWith resolve field) :=
  (valueSchema_outcome resolves faithful room field).map fun _ plain described =>
    ⟨plain, described, rfl⟩

private theorem nested_outcome (resolves : Resolves compiler resolve depth)
    (faithful : before.Faithful compiler) (room : compiler.registry.unvisited before ≤ depth)
    (member : Field) :
    Outcome compiler before member.target?.toList
      (fun after schema => VariantDescribed compiler.registry after member schema)
      (¬ member.Compilable compiler.registry)
      (do return nestedVariant member (← compiler.fieldSchemaWith resolve member)) :=
  (fieldSchemaWith_outcome resolves faithful room member).map fun _ _ described =>
    .ofNested described

/-- The variant of a plain message walks to it before its form is chosen, so that the nested form
finds it in the table. -/
theorem variant_outcome (resolves : Resolves compiler resolve depth)
    (faithful : before.Faithful compiler) (room : compiler.registry.unvisited before ≤ depth)
    (member : Field) :
    Outcome compiler before member.target?.toList
      (fun after schema => VariantDescribed compiler.registry after member schema)
      (¬ member.Compilable compiler.registry) (compiler.variant resolve member) := by
  have nested := nested_outcome resolves faithful room member
  unfold variant inlined?
  split
  · rename_i name kind alone
    split
    · exact nested
    · rename_i known
      have target : member.target? = some (QualifiedName.strip name) := by
        simp [Field.target?, FieldKind.target?, kind, known]
      have found : Outcome compiler before member.target?.toList
          (fun after (found : Option ObjectSchema) => ∀ definition, found = some definition →
            VariantDescribed compiler.registry after member (inlineVariant member definition))
          (¬ member.Compilable compiler.registry) (do
            let kept ← resolve name
            let definitions ← .definitions
            return (definitions.schema? kept).filter fun definition =>
              !definition.properties.contains discriminatorKey
                && !definition.properties.contains member.name) := by
        rw [target, ← List.append_nil (some (QualifiedName.strip name)).toList]
        refine .bind ((resolves.outcome name before faithful room).imp (fun _ _ held => held) ?_)
          (resolves.extending name) ?_
        · exact fun unsound fine => unsound (fine.kind.target _ target)
        · intro _ middle faithful _ _ given
          obtain ⟨rfl, message, found⟩ := given
          refine .look faithful fun definition chosen => ?_
          obtain ⟨stored, free⟩ := Option.filter_eq_some_iff.mp chosen
          simp only [Bool.and_eq_true, Bool.not_eq_true', ← Bool.not_eq_true,
            Entries.contains_iff] at free
          exact .inlined kind alone known found
            ((Registry.message?_eq_some found).1 ▸ stored) free.1 free.2
      rw [← List.append_nil member.target?.toList]
      have extending := inlined?_extending resolves.extending member
      simp only [inlined?, kind, alone, known] at extending
      refine found.bind extending fun value middle faithful larger walk described => ?_
      cases value with
      | some definition => exact .pure faithful (described definition rfl)
      | none =>
        have roomLater := larger.room room
        exact (nested_outcome resolves faithful roomLater member).idle walk.todo_subset
  · exact nested

private theorem variants_outcome (resolves : Resolves compiler resolve depth)
    (faithful : before.Faithful compiler) (room : compiler.registry.unvisited before ≤ depth)
    (members : List Field) :
    Outcome compiler before (members.filterMap Field.target?)
      (fun after variants =>
        List.Forall₂ (VariantDescribed compiler.registry after) members variants)
      (∃ member ∈ members, ¬ member.Compilable compiler.registry)
      (compiler.variants resolve members) := by
  induction members generalizing before with
  | nil => exact .pure faithful .nil
  | cons member rest ih =>
    have targets : (member :: rest).filterMap Field.target? =
        member.target?.toList ++ rest.filterMap Field.target? := by
      rw [List.filterMap_cons]
      cases member.target? <;> rfl
    rw [targets]
    have first := (variant_outcome resolves faithful room member).imp (fun _ _ held => held)
      fun flawed => (⟨member, List.mem_cons_self, flawed⟩ :
        ∃ other ∈ member :: rest, ¬ other.Compilable compiler.registry)
    refine first.bind (variant_extending resolves.extending member) ?_
    intro variant middle faithful larger _ described
    have roomLater := larger.room room
    rw [← List.append_nil (rest.filterMap Field.target?)]
    refine .bind ((ih faithful roomLater).imp (fun _ _ held => held) ?_)
      (variants_extending resolves.extending rest) ?_
    · exact fun ⟨other, listed, flawed⟩ => ⟨other, List.mem_cons_of_mem _ listed, flawed⟩
    · intro variants after faithful larger _ describedRest
      exact .pure faithful (.cons (described.keeps larger.keeps) describedRest)

theorem slotSchema_outcome (resolves : Resolves compiler resolve depth)
    (faithful : before.Faithful compiler) (room : compiler.registry.unvisited before ≤ depth)
    (slot : Slot) :
    Outcome compiler before slot.targets
      (fun after schema => SlotDescribed compiler.registry after slot schema)
      (∃ field ∈ slot.fields, ¬ field.Compilable compiler.registry)
      (compiler.slotSchema resolve slot) := by
  cases slot with
  | plain field =>
    have targets : (Slot.plain field).targets = field.target?.toList := by
      rw [Slot.targets, Slot.fields, List.filterMap_cons, List.filterMap_nil]
      cases field.target? <;> rfl
    rw [targets]
    exact (fieldSchemaWith_outcome resolves faithful room field).imp
      (fun _ _ described => .plain described)
      fun flawed => ⟨field, List.mem_singleton.mpr rfl, flawed⟩
  | group name members =>
    exact (variants_outcome resolves faithful room members).map fun _ _ described =>
      .group described

/-- The remaining properties come after those done, and have names of their own. -/
theorem properties_outcome (resolves : Resolves compiler resolve depth)
    (faithful : before.Faithful compiler) (room : compiler.registry.unvisited before ≤ depth)
    (owner : String) {done : Entries Schema} (distinct : done.Distinct) (slots : List Slot) :
    Outcome compiler before (slots.flatMap Slot.targets)
      (fun after properties => ∃ added, properties = done ++ added ∧ properties.Distinct ∧
        List.Forall₂ (PropertyDescribed compiler.registry after) slots added)
      ((∃ slot ∈ slots, ∃ field ∈ slot.fields, ¬ field.Compilable compiler.registry) ∨
        ¬ (done.keys ++ slots.map Slot.property).Nodup)
      (compiler.properties resolve owner done slots) := by
  induction slots generalizing before done with
  | nil => exact .pure faithful ⟨[], by simp, by simpa using distinct, .nil⟩
  | cons slot rest ih =>
    rw [List.flatMap_cons]
    refine .bind ((slotSchema_outcome resolves faithful room slot).imp (fun _ _ held => held) ?_)
      (slotSchema_extending resolves.extending slot) ?_
    · exact fun flawed => .inl ⟨slot, List.mem_cons_self, flawed⟩
    intro schema middle faithful larger _ described
    have roomLater := larger.room room
    split
    · rename_i taken
      refine .fail faithful (.inr fun nodup => ?_)
      exact (List.nodup_append.mp nodup).2.2 _ (Entries.contains_iff.mp taken) _
        (List.mem_map.mpr ⟨slot, List.mem_cons_self, rfl⟩) rfl
    · rename_i free
      rw [Entries.contains_iff] at free
      have distinctLater : (done ++ [(slot.property, schema)]).Distinct := by
        rw [Entries.Distinct, Entries.keys_append, List.nodup_append]
        refine ⟨distinct, by simp, ?_⟩
        intro name member other last same
        subst same
        obtain rfl : name = slot.property := List.mem_singleton.mp last
        exact free member
      have extending : (compiler.properties resolve owner (done ++ [(slot.property, schema)])
          rest).Extending := properties_extending resolves.extending _ _ _
      have remaining := ih faithful roomLater distinctLater
      have larger := extending middle
      rcases ran : compiler.properties resolve owner (done ++ [(slot.property, schema)]) rest
        middle with ⟨outcome, after⟩
      rw [Outcome, ran]
      cases outcome with
      | error cause =>
        obtain ⟨faithful, flaw⟩ := remaining.of_error ran
        refine ⟨faithful, flaw.imp ?_ ?_⟩
        · intro given
          obtain ⟨other, listed, flawed⟩ := given
          exact ⟨other, List.mem_cons_of_mem _ listed, flawed⟩
        · simp
      | ok properties =>
        obtain ⟨faithful, walk, added, rfl, distinct, describedRest⟩ := remaining.of_ok ran
        rw [ran] at larger
        refine ⟨faithful, walk, (slot.property, schema) :: added, by simp, distinct, ?_⟩
        exact .cons ⟨rfl, described.keeps larger.keeps⟩ describedRest

private theorem body_outcome (resolves : Resolves compiler resolve depth)
    (faithful : before.Faithful compiler) (room : compiler.registry.unvisited before ≤ depth)
    (message : Message) :
    Outcome compiler before message.targets
      (fun after schema => MessageDescribed compiler after message schema)
      (¬ message.Compilable compiler.registry) (compiler.body resolve message) := by
  have distinct : Entries.Distinct ([] : Entries Schema) := List.nodup_nil
  have properties := properties_outcome resolves faithful room message.fullName distinct
    message.slots
  rw [message.targets_eq_slots]
  refine (properties.imp (fun _ _ held => held) ?_).map ?_
  · intro given fine
    rcases given with ⟨slot, listed, field, inside, flawed⟩ | repeated
    · exact flawed (fine.fields field (Message.mem_slot_fields listed inside).1)
    · exact repeated fine.properties
  · intro after properties given
    obtain ⟨added, rfl, distinct, described⟩ := given
    exact ⟨described, distinct, rfl, rfl⟩

/-- Compiling a message again builds its schema anew, and keeps the entry that it has. -/
theorem messageSchemaWith_outcome_of_mem (resolves : Resolves compiler resolve depth)
    (faithful : before.Faithful compiler) (room : compiler.registry.unvisited before ≤ depth)
    {message : Message} (present : message.fullName ∈ before.keys) :
    Outcome compiler before message.targets
      (fun after schema => MessageDescribed compiler after message schema)
      (¬ message.Compilable compiler.registry) (compiler.messageSchemaWith resolve message) := by
  unfold Outcome
  rw [messageSchemaWith_of_mem present]
  exact body_outcome resolves faithful room message

/-- A registered message without an entry is the next name that the walk enters. -/
theorem messageSchemaWith_outcome (resolves : Resolves compiler resolve depth)
    (faithful : before.Faithful compiler)
    (room : compiler.registry.unvisited before ≤ depth + 1) {message : Message}
    (registered : compiler.registry.messages[message.fullName]? = some message)
    (absent : message.fullName ∉ before.keys) :
    Outcome compiler before [message.fullName]
      (fun after schema => MessageDescribed compiler after message schema ∧
        after.schema? message.fullName = some schema)
      (¬ compiler.registry.Sound message.fullName)
      (compiler.messageSchemaWith resolve message) := by
  have roomInside : compiler.registry.unvisited (before.reserve message.fullName) ≤ depth := by
    have := Registry.unvisited_reserve_lt registered absent
    omega
  have larger : (before.reserve message.fullName).Extends
      (compiler.body resolve message (before.reserve message.fullName)).2 :=
    body_extending resolves.extending message _
  have outcome := body_outcome resolves (faithful.reserve message.fullName) roomInside message
  have reserved := Definitions.get?_of_reserve_extends absent larger
  rcases ran : compiler.body resolve message (before.reserve message.fullName) with
    ⟨result, after⟩
  rw [ran] at reserved
  rw [Outcome, messageSchemaWith_of_not_mem absent ran]
  cases result with
  | ok schema =>
    obtain ⟨faithful, walk, described⟩ := outcome.of_ok ran
    have keys : (after.complete message.fullName schema).keys = after.keys :=
      Definitions.keys_complete (Entries.mem_keys_of_mem (Entries.mem_of_get? reserved))
    rw [Definitions.keys_reserve] at walk
    refine ⟨faithful.complete reserved registered described fun _ listed =>
      walk.todo_subset listed, ?_, described.keeps (Definitions.keeps_complete reserved), ?_⟩
    · exact keys ▸ .enter absent registered walk .done
    · rw [Definitions.close, Definitions.schema?_complete, if_pos rfl]
  | error cause =>
    obtain ⟨faithful, flawed⟩ := outcome.of_error ran
    have unsound : ¬ compiler.registry.Sound message.fullName := by
      intro sound
      obtain ⟨found, foundRegistered, fine⟩ := Registry.sound_iff.mp sound
      rw [registered] at foundRegistered
      obtain rfl := Option.some.inj foundRegistered
      exact flawed fine
    exact ⟨faithful.withdraw reserved unsound, unsound⟩

private theorem ensure_resolves {compile : Message → Step ObjectSchema}
    (extending : ∀ message, (compile message).Extending)
    (outcome : ∀ message before, before.Faithful compiler →
      compiler.registry.unvisited before ≤ depth →
      compiler.registry.messages[message.fullName]? = some message →
      message.fullName ∉ before.keys →
      Outcome compiler before [message.fullName] (fun _ _ => True)
        (¬ compiler.registry.Sound message.fullName) (compile message)) :
    Resolves compiler (compiler.ensure compile) depth := by
  refine ⟨fun name => ensure_extending extending name, fun name before faithful room => ?_⟩
  unfold ensure
  split
  · rename_i missing
    refine .fail faithful fun sound => ?_
    obtain ⟨message, found, -⟩ := sound _ .refl
    rw [Registry.message?, found] at missing
    cases missing
  · rename_i message found
    obtain ⟨named, registered⟩ := Registry.message?_eq_some found
    rw [← named]
    by_cases present : message.fullName ∈ before.keys
    · simp only [Outcome, if_pos (Entries.contains_iff.mpr present)]
      exact ⟨faithful, .pass present .done, trivial, message, found⟩
    · have compiled := outcome message before faithful room registered present
      unfold Outcome at compiled
      simp only [Outcome, Entries.contains_iff, if_neg present]
      split at compiled <;> rename_i ran <;> simp only [ran]
      · exact ⟨compiled.1, compiled.2.1, trivial, message, found⟩
      · exact compiled

/-- The resolver goes as deep as there are registered messages without an entry. -/
theorem resolver_resolves (compiler : Compiler) (depth : Nat) :
    Resolves compiler (compiler.resolver depth) depth := by
  induction depth with
  | zero =>
    refine ensure_resolves (fun _ => Step.extending_fail _) ?_
    intro message before faithful room registered absent
    have := Registry.unvisited_reserve_lt registered absent
    omega
  | succ depth ih =>
    refine ensure_resolves (fun message => messageSchemaWith_extending ih.extending message) ?_
    intro message before faithful room registered absent
    exact (messageSchemaWith_outcome ih faithful room registered absent).imp
      (fun _ _ _ => trivial) id

theorem resolve_resolves (compiler : Compiler) :
    Resolves compiler compiler.resolve compiler.registry.messages.size :=
  resolver_resolves compiler _

/-! ## Compiling messages and fields -/

/-- A registered message without an entry is compiled after a walk that enters it first. -/
theorem messageSchema_outcome (faithful : before.Faithful compiler) {message : Message}
    (registered : compiler.registry.messages[message.fullName]? = some message)
    (absent : message.fullName ∉ before.keys) :
    Outcome compiler before [message.fullName]
      (fun after schema => MessageDescribed compiler after message schema ∧
        after.schema? message.fullName = some schema)
      (¬ compiler.registry.Sound message.fullName) (compiler.messageSchema message) :=
  messageSchemaWith_outcome (resolve_resolves compiler) faithful
    (Nat.le_succ_of_le (Registry.unvisited_le_size _ _)) registered absent

theorem messageSchema_outcome_of_mem (faithful : before.Faithful compiler) {message : Message}
    (present : message.fullName ∈ before.keys) :
    Outcome compiler before message.targets
      (fun after schema => MessageDescribed compiler after message schema)
      (¬ message.Compilable compiler.registry) (compiler.messageSchema message) :=
  messageSchemaWith_outcome_of_mem (resolve_resolves compiler) faithful
    (Registry.unvisited_le_size _ _) present

theorem fieldSchema_outcome (faithful : before.Faithful compiler) (field : Field) :
    Outcome compiler before field.target?.toList
      (fun _ schema => FieldDescribed compiler.registry field schema)
      (¬ field.Compilable compiler.registry) (compiler.fieldSchema field) :=
  fieldSchemaWith_outcome (resolve_resolves compiler) faithful
    (Registry.unvisited_le_size _ _) field

end Compiler

end ToolContract
