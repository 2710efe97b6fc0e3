import ToolContract.Proofs.Contract.Describes

/-!
# Tables that several compilations share

A session compiles messages and fields on one table, and goes on after failures. What fails inside
a cycle leaves the inner types of the cycle behind, completed, while the name they refer to is
withdrawn: the table dangles, and a later message that meets such a type is compiled although not
all that it reaches has an entry. Whether a table dangles is decided by its names
alone: it does not exactly if each of them has a contract of its own (`session_closed_iff`).
-/

set_option autoImplicit false

namespace ToolContract

/-- The tables that calls with admitted messages and with any fields make of the empty one, whether
they succeed or fail. -/
inductive Session (compiler : Compiler) (admitted : Message → Prop) : Definitions → Prop where
  | start : Session compiler admitted []
  | message {table message} :
      Session compiler admitted table → admitted message →
      Session compiler admitted (compiler.messageSchema message table).2
  | field {table} (field : Field) :
      Session compiler admitted table → Session compiler admitted (compiler.fieldSchema field table).2

/-- No reference in the table dangles. -/
def Definitions.Closed (table : Definitions) : Prop :=
  ∀ text ∈ table.toJson.references, ∃ name ∈ table.keys, text = definitionPath name

namespace Session

variable {compiler : Compiler} {admitted : Message → Prop} {table : Definitions}

private theorem extends_nil (session : Session compiler admitted table) :
    Definitions.Extends [] table := by
  induction session with
  | start => exact .refl []
  | message _ _ ih => exact ih.trans (compiler.messageSchema_extending _ _)
  | field field _ ih => exact ih.trans (compiler.fieldSchema_extending field _)

theorem completed (session : Session compiler admitted table) : table.Completed :=
  Definitions.Completed.empty.extends session.extends_nil

private theorem distinct (session : Session compiler admitted table) : table.keys.Nodup :=
  session.extends_nil.distinct List.nodup_nil

theorem faithful (session : Session compiler compiler.registry.Holds table) :
    table.Faithful compiler := by
  induction session with
  | start => exact .empty compiler
  | @message table message _ registered ih =>
    by_cases present : message.fullName ∈ table.keys
    · exact (Compiler.messageSchema_outcome_of_mem ih present).faithful
    · exact (Compiler.messageSchema_outcome ih registered present).faithful
  | field field _ ih => exact (Compiler.fieldSchema_outcome ih field).faithful

end Session

namespace Definitions

variable {compiler : Compiler} {table : Definitions} {name next : String}

private theorem Faithful.sound (faithful : table.Faithful compiler)
    (reached : ∀ next, compiler.registry.Reaches name next →
      ∃ schema, table.schema? next = some schema) : compiler.registry.Sound name := by
  intro next path
  obtain ⟨schema, found⟩ := reached next path
  obtain ⟨message, registered, described⟩ := faithful.described next schema found
  exact ⟨message, registered, described.wellFormed⟩

private theorem Faithful.mem_keys_of_reaches (faithful : table.Faithful compiler)
    (completed : table.Completed) (member : name ∈ table.keys)
    (sound : compiler.registry.Sound name) (path : compiler.registry.Reaches name next) :
    next ∈ table.keys := by
  induction path with
  | refl => exact member
  | tail before refers ih =>
    obtain ⟨schema, found⟩ := completed _ ih
    have soundNext := sound.of_reaches (.tail before refers)
    exact (faithful.referred _ schema _ found refers).resolve_right fun broken => broken soundNext

private theorem Faithful.closed_iff (faithful : table.Faithful compiler)
    (completed : table.Completed)
    (distinct : table.keys.Nodup) :
    table.Closed ↔ ∀ name ∈ table.keys, compiler.registry.Sound name := by
  constructor
  · intro closed name member
    have within (next : String) (path : compiler.registry.Reaches name next) :
        next ∈ table.keys := by
      induction path with
      | refl => exact member
      | @tail middle next _ refers ih =>
        obtain ⟨schema, found⟩ := completed middle ih
        obtain ⟨message, registered, described⟩ := faithful.described middle schema found
        obtain ⟨_, again, target⟩ := refers
        obtain rfl := Option.some.inj (registered.symm.trans again)
        rcases described.mem_references_or_mem_keys target with refers | present
        · have pointer : definitionPath next ∈ table.toJson.references :=
            mem_references_of_schema? found refers
          obtain ⟨other, present, same⟩ := closed _ pointer
          exact definitionPath_inj.mp same ▸ present
        · exact present
    exact faithful.sound fun next path => completed next (within next path)
  · intro sound text member
    obtain ⟨⟨name, _⟩, listed, pointer⟩ := mem_references_toJson member
    obtain ⟨schema, rfl, next, refers, rfl⟩ := Definition.mem_references_toJson pointer
    have found := schema?_eq_some_iff.mpr (Entries.get?_of_mem distinct listed)
    obtain ⟨owner, present, foreign⟩ := faithful.refers found refers
    have path : compiler.registry.Reaches owner next := .single foreign
    exact ⟨next, faithful.mem_keys_of_reaches completed present (sound owner present) path, rfl⟩

end Definitions

/-! ## When a shared table is closed -/

theorem Session.mem_keys_of_messageSchema {compiler : Compiler} {table after : Definitions}
    (session : Session compiler compiler.registry.Holds table) {message : Message}
    {schema : ObjectSchema} (registered : compiler.registry.Holds message)
    (ran : compiler.messageSchema message table = (.ok schema, after)) :
    message.fullName ∈ after.keys := by
  by_cases present : message.fullName ∈ table.keys
  · have larger := compiler.messageSchema_extending message table
    rw [ran] at larger
    exact larger.keys_subset present
  · have outcome := Compiler.messageSchema_outcome session.faithful registered present
    obtain ⟨-, walk, -⟩ := outcome.of_ok ran
    exact walk.todo_subset List.mem_cons_self

/-- A table that registered messages and any fields were compiled on is closed exactly if each of
its names has a contract. A message compiled on it finds all that it reaches completed exactly if
it has a contract itself. -/
theorem session_closed_iff (compiler : Compiler) (table : Definitions)
    (session : Session compiler compiler.registry.Holds table) :
    (table.Closed ↔
      ∀ name ∈ table.keys, ∃ contract, compiler.contract name = .ok contract) ∧
    ∀ message schema after, compiler.registry.Holds message →
      compiler.messageSchema message table = (.ok schema, after) →
      ((∀ next, compiler.registry.Reaches message.fullName next →
          ∃ held, after.schema? next = some held) ↔
        ∃ contract, compiler.contract message.fullName = .ok contract) := by
  refine ⟨?_, fun message schema after registered ran => ?_⟩
  · rw [session.faithful.closed_iff session.completed session.distinct]
    refine forall₂_congr fun name member => ?_
    obtain ⟨schema, found⟩ := session.completed name member
    obtain ⟨message, registered, -⟩ := session.faithful.described name schema found
    obtain ⟨-, stripped⟩ := compiler.registry.messages_keyed _ _ registered
    rw [Compiler.exists_contract_iff, stripped]
  · have later : Session compiler compiler.registry.Holds after := by
      have step := session.message registered
      rwa [ran] at step
    have member := session.mem_keys_of_messageSchema registered ran
    rw [Compiler.exists_contract_iff, registered.strip]
    constructor
    · exact later.faithful.sound
    · intro sound next path
      exact later.completed next
        (later.faithful.mem_keys_of_reaches later.completed member sound path)

/-! ### A cycle with an unknown type -/

namespace BrokenCycle

/-- A message of the cycle with a field of an unknown type. -/
def outer : Message where
  fullName := "a.Outer"
  fields := [
    { name := "inner", kind := .message "a.Inner" },
    { name := "gone", kind := .message "a.Missing" }]

/-- The other message of the cycle. -/
def inner : Message where
  fullName := "a.Inner"
  fields := [{ name := "outer", kind := .message "a.Outer" }]

/-- A message that refers to the cycle. -/
def holder : Message where
  fullName := "a.Holder"
  fields := [{ name := "inner", kind := .message "a.Inner" }]

/-- The compiler of the three messages. -/
def compiler : Compiler where
  registry := Registry.empty |>.addMessage outer |>.addMessage inner |>.addMessage holder

/-- The table after the message with the unknown type has failed. -/
def table : Definitions :=
  (compiler.messageSchema outer []).2

private theorem outer_held : compiler.registry.Holds outer := by decide +kernel

private theorem holder_held : compiler.registry.Holds holder := by decide +kernel

private theorem compiles_holder :
    ∃ schema after, compiler.messageSchema holder table = (.ok schema, after) ∧
      after.keys = ["a.Inner", "a.Holder"] := by
  have succeeds : (compiler.messageSchema holder table).1.isOk = true := by decide +kernel
  have keys : (compiler.messageSchema holder table).2.keys = ["a.Inner", "a.Holder"] := by
    decide +kernel
  rcases ran : compiler.messageSchema holder table with ⟨result, after⟩
  rw [ran] at succeeds keys
  cases result with
  | error cause => simp [Except.isOk, Except.toBool] at succeeds
  | ok schema => exact ⟨schema, after, rfl, keys⟩

end BrokenCycle

open BrokenCycle in
/-- After a failure the inner message of a cycle refers to a withdrawn name, and a message that
refers to it is compiled although a type that it reaches has no entry. -/
theorem session_dangles :
    Session compiler compiler.registry.Holds table ∧ ¬ table.Closed ∧
      compiler.registry.Holds holder ∧
      ∃ schema after, compiler.messageSchema holder table = (.ok schema, after) ∧
        compiler.registry.Reaches "a.Holder" "a.Outer" ∧ after.schema? "a.Outer" = none := by
  refine ⟨.message .start outer_held, fun closed => ?_, holder_held, ?_⟩
  · have pointer : definitionPath "a.Outer" ∈ table.toJson.references := by decide +kernel
    obtain ⟨name, member, same⟩ := closed _ pointer
    obtain rfl := definitionPath_inj.mp same
    have absent : "a.Outer" ∉ table.keys := by decide +kernel
    exact absent member
  · obtain ⟨schema, after, ran, keys⟩ := compiles_holder
    have innerHeld : compiler.registry.Holds inner := by decide +kernel
    refine ⟨schema, after, ran, ?_, ?_⟩
    · exact .tail (.single ⟨holder, holder_held, by decide +kernel⟩)
        ⟨inner, innerHeld, by decide +kernel⟩
    · have absent : after.get? "a.Outer" = none := by
        rw [Entries.get?_eq_none_iff, keys]
        decide
      rw [Definitions.schema?, absent]

open BrokenCycle in
theorem session_closed_iff_brokenCycle :
    ∃ schema after, compiler.messageSchema holder table = (.ok schema, after) ∧
      (table.Closed ↔ ∀ name ∈ table.keys, ∃ contract, compiler.contract name = .ok contract) ∧
      ((∀ next, compiler.registry.Reaches "a.Holder" next →
          ∃ held, after.schema? next = some held) ↔
        ∃ contract, compiler.contract "a.Holder" = .ok contract) := by
  obtain ⟨schema, after, ran, -⟩ := compiles_holder
  have settled := session_closed_iff compiler table (.message .start outer_held)
  exact ⟨schema, after, ran, settled.1, settled.2 holder schema after holder_held ran⟩

end ToolContract
