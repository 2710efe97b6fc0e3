import Mathlib.Data.List.Induction
import ToolContract.Proofs.Contract.Document
import ToolContract.Proofs.Table.Session

/-!
# What a compilation leaves in a shared table

Compilations of messages, registered or not, and of fields share one table, each with a compiler of
its own. Inside a compilation names are reserved, completed and withdrawn at any depth; between
compilations nothing of that is seen. Whether the last one failed or not, no name is reserved, every
entry is a completed object schema, the entries that were there before stand unchanged in front, and
a message that could not be compiled has left no entry of its own (`table_after_compilation`).
-/

set_option autoImplicit false

namespace ToolContract

/-- A compilation on a shared table, of a message that need not be registered or of a field. -/
inductive Compilation where
  | ofMessage (compiler : Compiler) (message : Message)
  | ofField (compiler : Compiler) (field : Field)

/-- Yields the document of the message or of the field. -/
def Compilation.step : Compilation → Step Json
  | .ofMessage compiler message => do return (← compiler.messageSchema message).toSchema.toJson
  | .ofField compiler field => do return (← compiler.fieldSchema field).toJson

namespace Definitions

/-- What the compilations make of the empty table, one after the other and whether they succeed or
fail. -/
def ofCompilations (compilations : List Compilation) : Definitions :=
  compilations.foldl (fun table compilation => (compilation.step table).2) []

private theorem ofCompilations_concat (earlier : List Compilation) (last : Compilation) :
    ofCompilations (earlier ++ [last]) = (last.step (ofCompilations earlier)).2 := by
  simp [ofCompilations]

/-- No compilation is under way. -/
structure Settled (table : Definitions) : Prop where
  /-- No name is reserved. -/
  free : ∀ name, table.isReserved name = false
  /-- The document of every entry is that of an object schema. -/
  documents : ∀ entry ∈ table.documents, ∃ schema : ObjectSchema, entry.2 = schema.toSchema.toJson
  /-- No name has two entries. -/
  distinct : table.keys.Nodup

private theorem Settled.of_extends {table : Definitions} (larger : Definitions.Extends [] table) :
    table.Settled := by
  obtain ⟨added, rfl, distinct, -, completed⟩ := larger
  refine ⟨fun name => ?_, List.forall_mem_map.mpr fun entry member => ?_, distinct⟩
  · unfold isReserved
    split
    · rename_i found
      obtain ⟨schema, stored⟩ := completed _ (Entries.mem_of_get? found)
      contradiction
    · rfl
  · obtain ⟨schema, stored⟩ := completed entry member
    exact ⟨schema, by rw [stored]; rfl⟩

private theorem Extends.isPrefix {before after : Definitions} (larger : before.Extends after) :
    before <+: after := by
  obtain ⟨added, rfl, -⟩ := larger
  exact List.prefix_append before added

end Definitions

/-! ## One compilation -/

/-- A message that cannot be compiled has an entry afterwards only if it had one before. -/
theorem Compiler.mem_keys_of_messageSchema_error {compiler : Compiler} {message : Message}
    {before after : Definitions} {cause : SchemaError}
    (failed : compiler.messageSchema message before = (.error cause, after))
    (present : message.fullName ∈ after.keys) : message.fullName ∈ before.keys := by
  by_contra absent
  rcases built : compiler.body compiler.resolve message (before.reserve message.fullName) with
    ⟨outcome, middle⟩
  obtain ⟨rfl, rfl⟩ :=
    Prod.mk.inj ((messageSchemaWith_of_not_mem absent built).symm.trans failed)
  exact (Definitions.mem_keys_withdraw.mp present).2 rfl

namespace Compilation

private theorem step_extending (compilation : Compilation) : compilation.step.Extending := by
  cases compilation with
  | ofMessage compiler message =>
    exact (compiler.messageSchema_extending message).bind fun _ => Step.extending_pure _
  | ofField compiler field =>
    exact (compiler.fieldSchema_extending field).bind fun _ => Step.extending_pure _

private theorem mem_keys_of_error {compiler : Compiler} {message : Message} {before : Definitions}
    {cause : SchemaError} (failed : ((ofMessage compiler message).step before).1 = .error cause)
    (present : message.fullName ∈ ((ofMessage compiler message).step before).2.keys) :
    message.fullName ∈ before.keys := by
  rcases ran : compiler.messageSchema message before with ⟨outcome, after⟩
  cases outcome with
  | ok schema =>
    rw [step, Step.bind_of_ok ran] at failed
    contradiction
  | error other =>
    rw [step, Step.bind_of_error ran] at present
    exact Compiler.mem_keys_of_messageSchema_error ran present

end Compilation

/-! ## Any sequence of compilations -/

private theorem Definitions.ofCompilations_extends (compilations : List Compilation) :
    Definitions.Extends [] (ofCompilations compilations) := by
  induction compilations using List.reverseRecOn with
  | nil => exact .refl []
  | append_singleton earlier last ih =>
    rw [ofCompilations_concat]
    exact ih.trans (last.step_extending _)

/-- After every compilation the table is settled and starts with the entries from before it, and a
message that could not be compiled stands in it only if it stood there before. -/
theorem table_after_compilation (earlier : List Compilation) (last : Compilation) :
    (Definitions.ofCompilations (earlier ++ [last])).Settled ∧
      Definitions.ofCompilations earlier <+: Definitions.ofCompilations (earlier ++ [last]) ∧
      ∀ compiler message cause, last = .ofMessage compiler message →
        (last.step (Definitions.ofCompilations earlier)).1 = .error cause →
        message.fullName ∈ (Definitions.ofCompilations (earlier ++ [last])).keys →
        message.fullName ∈ (Definitions.ofCompilations earlier).keys := by
  refine ⟨.of_extends (Definitions.ofCompilations_extends _), ?_, ?_⟩
  · rw [Definitions.ofCompilations_concat]
    exact (last.step_extending _).isPrefix
  · rintro compiler message cause rfl failed present
    rw [Definitions.ofCompilations_concat] at present
    exact Compilation.mem_keys_of_error failed present

/-! ### A message that fails after others were compiled -/

namespace BrokenCycle

/-- A message that is not registered, with a field of a type that can be compiled before one of an
unknown type. -/
def stray : Message where
  fullName := "b.Stray"
  fields := [
    { name := "holder", kind := .message "a.Holder" },
    { name := "gone", kind := .message "a.Missing" }]

def compileOuter : Compilation :=
  .ofMessage compiler outer

def compileStray : Compilation :=
  .ofMessage compiler stray

end BrokenCycle

open BrokenCycle Definitions in
theorem table_after_compileStray :
    (compileStray.step (ofCompilations [compileOuter])).1 = .error (.unknownType "a.Missing") ∧
      (ofCompilations [compileOuter]).keys = ["a.Inner"] ∧
      (ofCompilations ([compileOuter] ++ [compileStray])).keys = ["a.Inner", "a.Holder"] ∧
      (ofCompilations ([compileOuter] ++ [compileStray])).Settled ∧
      ofCompilations [compileOuter] <+: ofCompilations ([compileOuter] ++ [compileStray]) ∧
      stray.fullName ∉ (ofCompilations ([compileOuter] ++ [compileStray])).keys := by
  have failed : (compileStray.step (ofCompilations [compileOuter])).1 =
      .error (.unknownType "a.Missing") := by decide +kernel
  have before : (ofCompilations [compileOuter]).keys = ["a.Inner"] := by decide +kernel
  have after : (ofCompilations ([compileOuter] ++ [compileStray])).keys =
      ["a.Inner", "a.Holder"] := by decide +kernel
  obtain ⟨settled, kept, own⟩ := table_after_compilation [compileOuter] compileStray
  refine ⟨failed, before, after, settled, kept, fun present => ?_⟩
  have old := own compiler stray _ rfl failed present
  rw [before] at old
  exact absurd old (by decide)

end ToolContract
