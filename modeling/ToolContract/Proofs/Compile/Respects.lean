import Mathlib.Order.Defs.Unbundled
import ToolContract.Proofs.Compile.Asks

/-!
# What each function of the compiler respects

The functions that compile kinds, fields, variants and properties respect each preorder of tables
that the resolver respects on the message types they ask for, whether they fail or not
(`Asks.respects`). The reservation of a message, which lies outside of them, is left to each use.
-/

set_option autoImplicit false

namespace ToolContract

/-- The step relates every table to the one that it leaves, also when it fails. -/
def Step.Respects {α : Type} (related : Definitions → Definitions → Prop) (step : Step α) : Prop :=
  ∀ before, related before (step before).2

namespace Step

variable {α β : Type} {related : Definitions → Definitions → Prop} [IsPreorder Definitions related]

theorem respects_pure (value : α) : (pure value : Step α).Respects related :=
  fun before => refl before

theorem respects_fail (cause : SchemaError) : (fail cause : Step α).Respects related :=
  fun before => refl before

private theorem respects_definitions : definitions.Respects related :=
  fun before => refl before

theorem Respects.bind {step : Step α} {next : α → Step β} (first : step.Respects related)
    (later : ∀ value, (next value).Respects related) : (step >>= next).Respects related := by
  intro before
  have middle := first before
  rcases ran : step before with ⟨outcome, after⟩
  rw [ran] at middle
  cases outcome with
  | error cause => rwa [bind_of_error ran]
  | ok value =>
    rw [bind_of_ok ran]
    exact IsTrans.trans _ _ _ middle (later value after)

end Step

/-- If the invariant holds of the first table then it holds of the second. -/
def Definitions.Preserves (invariant : Definitions → Prop) (before after : Definitions) : Prop :=
  invariant before → invariant after

instance {invariant : Definitions → Prop} :
    IsPreorder Definitions (Definitions.Preserves invariant) where
  refl _ := id
  trans _ _ _ first later := later ∘ first

/-- The resolver respects the relation for the names of the message type. -/
def Resolver.Respects (related : Definitions → Definitions → Prop) (resolve : Resolver)
    (target : String) : Prop :=
  ∀ name, QualifiedName.strip name = target → (resolve name).Respects related

/-- What is asked of a resolver that respects the relation respects it. -/
theorem Asks.respects {registry : Registry} {asked : String → Prop} {flaw : Prop} {α : Type}
    {part : Resolver → Step α} {resolve : Resolver} {related : Definitions → Definitions → Prop}
    [IsPreorder Definitions related] (asks : Asks registry asked flaw part)
    (resolving : ∀ target, asked target → resolve.Respects related target) :
    (part resolve).Respects related := by
  induction asks with
  | settled value => exact Step.respects_pure value
  | flawed cause => exact Step.respects_fail cause
  | look => exact Step.respects_definitions
  | ask known => exact resolving _ known _ rfl
  | bind _ _ first later => exact first.bind later

namespace Compiler

variable {compiler : Compiler} {resolve : Resolver} {related : Definitions → Definitions → Prop}
  [IsPreorder Definitions related]

theorem fieldSchemaWith_respects {field : Field}
    (resolving : ∀ target, field.target? = some target → resolve.Respects related target) :
    (compiler.fieldSchemaWith resolve field).Respects related :=
  (fieldSchemaWith_asks (fun _ found => found) fun _ => trivial).respects resolving

theorem body_respects {message : Message}
    (resolving : ∀ target ∈ message.targets, resolve.Respects related target) :
    (compiler.body resolve message).Respects related :=
  (body_asks compiler message).respects resolving

end Compiler

end ToolContract
