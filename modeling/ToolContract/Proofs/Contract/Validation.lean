import ToolContract.Proofs.Contract.Document
import ToolContract.Proofs.Validation.Open

/-!
# What the document of a contract accepts

A document accepts what the schema of its root accepts with the definitions of the contract, and a
reference in it accepts what the definition of its message does.
-/

set_option autoImplicit false

namespace ToolContract

open Json

namespace Contract

variable {contract : Contract} {value : Json}

theorem definitions_toJson (contract : Contract) :
    contract.toJson.definitions = contract.definitions.documents := by
  have absent := Entries.get?_eq_none_iff.mpr contract.root.toSchema.defs_notMem_keywords
  rw [Json.definitions, toJson, keyword?_obj, Entries.get?_append, absent, Option.none_or]
  rfl

theorem sameAssertions_toJson (contract : Contract) :
    SameAssertions contract.toJson contract.root.toSchema.toJson :=
  sameAssertions_append (by simp [assertions])

theorem conforms_toJson_iff :
    Conforms contract.toJson.definitions contract.toJson value ↔
      Conforms contract.definitions.documents contract.root.toSchema.toJson value := by
  rw [contract.definitions_toJson]
  exact ⟨contract.sameAssertions_toJson.conforms, contract.sameAssertions_toJson.symm.conforms⟩

namespace Describes

variable {compiler : Compiler} {name : String} {message : Message}

/-- A registered message whose name is a definition is described by it. -/
theorem exists_schema (describes : contract.Describes compiler name) {kindName : String}
    (member : QualifiedName.strip kindName ∈ contract.definitions.keys)
    (found : compiler.registry.message? kindName = some message) :
    ∃ schema, contract.definitions.schema? (QualifiedName.strip kindName) = some schema ∧
      MessageDescribed compiler contract.definitions message schema := by
  obtain ⟨held, schema, registered, stored, described⟩ := describes.entries _ member
  obtain rfl := Option.some.inj (registered.symm.trans found)
  exact ⟨schema, stored, described⟩

private theorem documents_length_pos (describes : contract.Describes compiler name) :
    0 < contract.definitions.documents.length := by
  have member := Definitions.mem_keys_of_schema? describes.root
  rw [← Definitions.keys_documents] at member
  obtain ⟨_, listed, -⟩ := List.mem_map.mp member
  exact List.length_pos_of_mem listed

theorem accepts_reference_iff (describes : contract.Describes compiler name) {next : String}
    {schema : ObjectSchema} (found : contract.definitions.schema? next = some schema) :
    Accepts contract.definitions.documents contract.definitions.documents.length
        (Schema.reference next).toJson value ↔
      Accepts contract.definitions.documents contract.definitions.documents.length
        schema.toSchema.toJson value := by
  rw [Schema.accepts_reference_iff, Definitions.get?_documents found, ObjectSchema.accepts_iff]
  simp [describes.documents_length_pos, ObjectSchema.accepts_iff]

theorem conforms_reference_iff (describes : contract.Describes compiler name) {next : String}
    {schema : ObjectSchema} (found : contract.definitions.schema? next = some schema) :
    Conforms contract.definitions.documents (Schema.reference next).toJson value ↔
      Conforms contract.definitions.documents schema.toSchema.toJson value := by
  have target := Definitions.get?_documents found
  constructor
  · intro conforms
    exact conforms.step (.reference rfl target)
      ((describes.accepts_reference_iff found).mp conforms.accepted)
  · intro conforms
    refine ⟨(describes.accepts_reference_iff found).mpr conforms.accepted, ?_⟩
    refine openPlain_of_steps ⟨fun silent => ?_, fun _ found => ?_⟩ fun _ _ leads => ?_
    · exact absurd silent (not_saysNothing (by decide : "$ref" ∈ assertions) rfl)
    · contradiction
    · cases leads with
      | reference found stored =>
        obtain rfl := definitionPath_inj.mp (Json.str.inj (Option.some.inj found))
        obtain rfl := Option.some.inj (target.symm.trans stored)
        exact conforms.plain
      | _ => contradiction

end Describes

end Contract

end ToolContract
