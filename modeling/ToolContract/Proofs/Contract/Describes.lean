import ToolContract.Proofs.Compile.Outcome
import ToolContract.Proofs.References

/-!
# What a contract is made of

A contract holds one completed definition for each message type that its message reaches, in the
order in which a depth-first walk meets them (`Compiler.contract_describes`). A message has a
contract exactly if it is sound (`Compiler.exists_contract_iff`).
-/

set_option autoImplicit false

namespace ToolContract

/-! ## Tables without reservations -/

def Definitions.Completed (table : Definitions) : Prop :=
  ∀ name ∈ table.keys, ∃ schema, table.schema? name = some schema

namespace Definitions

theorem Completed.empty : Completed [] :=
  fun _ member => absurd member List.not_mem_nil

theorem Completed.extends {before after : Definitions} (completed : before.Completed)
    (larger : before.Extends after) : after.Completed := by
  intro name member
  by_cases old : name ∈ before.keys
  · obtain ⟨schema, found⟩ := completed name old
    exact ⟨schema, larger.schema? found⟩
  · obtain ⟨added, rfl, nodup, -, addedCompleted⟩ := larger
    rw [Entries.keys_append, List.mem_append] at member
    obtain ⟨entry, listed, rfl⟩ := List.mem_map.mp (member.resolve_left old)
    obtain ⟨schema, stored⟩ := addedCompleted entry listed
    have found : Entries.get? entry.1 added = some entry.2 := Entries.get?_of_mem nodup listed
    refine ⟨schema, schema?_eq_some_iff.mpr ?_⟩
    rw [Entries.get?_append, Entries.get?_eq_none_iff.mpr old, Option.none_or, found, stored]

end Definitions

/-! ## Contracts and what they describe -/

/-- The definitions of the contract are those of the message types met on a walk from the name,
and its root is the definition of the name itself. -/
structure Contract.Describes (contract : Contract) (compiler : Compiler) (name : String) : Prop where
  walk : compiler.registry.Preorder [] [name] contract.definitions.keys
  root : contract.definitions.schema? name = some contract.root
  entries : ∀ next ∈ contract.definitions.keys, ∃ message schema,
    compiler.registry.messages[next]? = some message ∧
      contract.definitions.schema? next = some schema ∧
      MessageDescribed compiler contract.definitions message schema

theorem Compiler.contract_eq_ok_iff {compiler : Compiler} {name : String} {contract : Contract} :
    compiler.contract name = .ok contract ↔
      ∃ message, compiler.registry.message? name = some message ∧
        compiler.messageSchema message [] = (.ok contract.root, contract.definitions) := by
  cases found : compiler.registry.message? name with
  | none => simp [Compiler.contract, found]
  | some message =>
    rcases ran : compiler.messageSchema message [] with ⟨outcome, after⟩
    rcases contract with ⟨root, definitions⟩
    cases outcome <;> simp [Compiler.contract, found, ran]

theorem Compiler.contract_describes {compiler : Compiler} {name : String} {contract : Contract}
    (compiled : compiler.contract name = .ok contract) :
    contract.Describes compiler (QualifiedName.strip name) := by
  obtain ⟨message, found, ran⟩ := Compiler.contract_eq_ok_iff.mp compiled
  obtain ⟨named, registered⟩ := Registry.message?_eq_some found
  have outcome := Compiler.messageSchema_outcome (Definitions.Faithful.empty compiler) registered
    List.not_mem_nil
  have larger := compiler.messageSchema_extending message []
  rw [ran] at larger
  obtain ⟨faithful, walk, described, stored⟩ := outcome.of_ok ran
  rw [← named]
  refine ⟨walk, stored, fun next member => ?_⟩
  obtain ⟨schema, held⟩ := Definitions.Completed.empty.extends larger next member
  obtain ⟨owner, ownerRegistered, ownerDescribed⟩ := faithful.described next schema held
  exact ⟨owner, schema, ownerRegistered, held, ownerDescribed⟩

namespace Contract.Describes

variable {compiler : Compiler} {name next other : String} {contract : Contract}

theorem mem_keys_iff (describes : contract.Describes compiler name) :
    next ∈ contract.definitions.keys ↔ compiler.registry.Reaches name next :=
  describes.walk.mem_iff_reaches

theorem closed (describes : contract.Describes compiler name)
    (member : next ∈ contract.definitions.keys) (refers : compiler.registry.Refers next other) :
    other ∈ contract.definitions.keys :=
  describes.walk.closed member List.not_mem_nil refers

theorem faithful (describes : contract.Describes compiler name) :
    contract.definitions.Faithful compiler := by
  refine ⟨fun next held found => ?_, fun next _ other found refers => .inl ?_⟩
  · have member := Definitions.mem_keys_of_schema? found
    obtain ⟨message, schema, registered, stored, described⟩ := describes.entries next member
    obtain rfl := Option.some.inj (stored.symm.trans found)
    exact ⟨message, registered, described⟩
  · exact describes.closed (Definitions.mem_keys_of_schema? found) refers

theorem mem_keys_of_references (describes : contract.Describes compiler name)
    {schema : ObjectSchema} (found : contract.definitions.schema? next = some schema)
    (refers : other ∈ schema.toSchema.references) : other ∈ contract.definitions.keys := by
  obtain ⟨owner, member, foreign⟩ := describes.faithful.refers found refers
  exact describes.closed member foreign

end Contract.Describes

theorem Compiler.exists_contract_iff {compiler : Compiler} {name : String} :
    (∃ contract, compiler.contract name = .ok contract) ↔
      compiler.registry.Sound (QualifiedName.strip name) := by
  constructor
  · intro given next path
    obtain ⟨contract, compiled⟩ := given
    have describes := Compiler.contract_describes compiled
    have member := describes.mem_keys_iff.mpr path
    obtain ⟨message, schema, registered, -, described⟩ := describes.entries next member
    exact ⟨message, registered, described.wellFormed⟩
  · intro sound
    obtain ⟨message, registered, -⟩ := sound _ .refl
    have found : compiler.registry.message? name = some message := registered
    obtain ⟨named, registered⟩ := Registry.message?_eq_some found
    have outcome := Compiler.messageSchema_outcome (Definitions.Faithful.empty compiler) registered
      List.not_mem_nil
    simp only [Compiler.contract, found]
    split <;> rename_i ran
    · exact ⟨_, rfl⟩
    · exact absurd (named ▸ sound) (outcome.of_error ran).2

theorem Compiler.exists_contract_of_isOk {compiler : Compiler} {name : String}
    (succeeds : (compiler.contract name).isOk = true) :
    ∃ contract, compiler.contract name = .ok contract := by
  cases compiled : compiler.contract name with
  | error cause => simp [compiled, Except.isOk, Except.toBool] at succeeds
  | ok contract => exact ⟨contract, rfl⟩

end ToolContract
