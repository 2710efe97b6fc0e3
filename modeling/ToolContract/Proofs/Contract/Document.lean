import ToolContract.Proofs.Contract.Describes

/-!
# The document of a contract

What a reader of the document may rely on: which definitions it finds and in what order, that no
reference dangles, and that the root repeats the definition of its message
(`Compiler.contract_document`).
-/

set_option autoImplicit false

namespace ToolContract

theorem Schema.defs_notMem_keywords : ∀ schema : Schema, "$defs" ∉ Entries.keys schema.keywords
  | .any => by simp [keywords]
  | .typed _ | .constant _ | .reference _ | .list _ | .openObject | .emptyObject | .object _ _
  | .union _ | .map _ _ | .nullable _ none | .nullable _ (some _) => by
    simp [keywords]
  | .described _ schema => by
    have inside := defs_notMem_keywords schema
    simp [keywords, inside]

/-- The documents of the definitions by name. -/
def Definitions.documents (table : Definitions) : Entries Json :=
  table.map fun entry => (entry.1, entry.2.toJson)

theorem Definitions.keys_documents (table : Definitions) : table.documents.keys = table.keys :=
  Entries.keys_map Definition.toJson table

theorem Definitions.get?_documents {table : Definitions} {name : String} {schema : ObjectSchema}
    (found : table.schema? name = some schema) :
    table.documents.get? name = some schema.toSchema.toJson := by
  rw [documents, Entries.get?_map Definition.toJson, Definitions.schema?_eq_some_iff.mp found]
  rfl

end ToolContract
