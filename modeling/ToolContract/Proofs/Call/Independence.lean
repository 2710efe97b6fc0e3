import ToolContract.Proofs.Call.Promotion

/-!
# Extra values and payload are independent

Extra properties are taken out before anything is rewritten. So what a call finds in its context, or
why it is refused, depends on the root entries that extra properties name and on nothing else, and its
payload depends on the other entries alone (`PreparedCall.ofArguments_independent`).
-/

set_option autoImplicit false

namespace ToolContract

namespace Context

/-- Entries that agree on what the extra properties name lead to one outcome. -/
theorem fst_take_congr {extras : List ExtraProperty} {left right : Entries Json}
    (agree : ∀ extra ∈ extras, left.get? extra.name = right.get? extra.name) (context : Context) :
    (take extras context left).1 = (take extras context right).1 := by
  induction extras generalizing context left right with
  | nil => rfl
  | cons extra rest ih =>
    obtain ⟨here, later⟩ := List.forall_mem_cons.mp agree
    by_cases offends : extra.OffendsIn left
    · have offendsRight := (ExtraProperty.offendsIn_congr here).mp offends
      rw [take_cons_of_offendsIn offends, take_cons_of_offendsIn offendsRight,
        ExtraProperty.refusal_congr here]
    · have taken := ExtraProperty.not_offendsIn_iff.mp offends
      have takenRight := (ExtraProperty.takenFrom_congr here).mp taken
      rw [take_cons_of_takenFrom taken, take_cons_of_takenFrom takenRight,
        ExtraProperty.supply_congr here]
      apply ih
      intro other member
      rw [Entries.get?_erase, Entries.get?_erase, later other member]

end Context

namespace PreparedCall

/-- Arguments that agree on the root entries of the extra properties are both prepared, with one
context, or both refused for one reason, whatever else they contain. And what is prepared from
arguments that agree on all other root entries has one payload. -/
theorem ofArguments_independent (extras : List ExtraProperty) (left right : Entries Json) :
    ((∀ extra ∈ extras, left.get? extra.name = right.get? extra.name) →
      (∃ leftCall rightCall, ofArguments extras (.obj left) = .ok leftCall ∧
        ofArguments extras (.obj right) = .ok rightCall ∧ leftCall.context = rightCall.context) ∨
      ∃ cause, ofArguments extras (.obj left) = .error cause ∧
        ofArguments extras (.obj right) = .error cause) ∧
    (Context.remaining extras left = Context.remaining extras right →
      ∀ leftCall rightCall, ofArguments extras (.obj left) = .ok leftCall →
        ofArguments extras (.obj right) = .ok rightCall → leftCall.payload = rightCall.payload) := by
  constructor
  · intro agree
    rw [ofArguments_of_root rfl, ofArguments_of_root rfl, ← Context.fst_take_congr agree]
    cases (Context.take extras ∅ left).1 with
    | error cause =>
      right
      exact ⟨cause, rfl, rfl⟩
    | ok context =>
      left
      exact ⟨_, _, rfl, rfl, rfl⟩
  · intro same leftCall rightCall leftPrepared rightPrepared
    obtain ⟨leftEntries, leftRoot, leftPayload⟩ := ofArguments_eq_ok leftPrepared
    obtain ⟨rightEntries, rightRoot, rightPayload⟩ := ofArguments_eq_ok rightPrepared
    obtain rfl := Except.ok.inj leftRoot
    obtain rfl := Except.ok.inj rightRoot
    rw [leftPayload, rightPayload, same]

/-! ### Wrappers that name the extra property -/

namespace Reclaiming

def wrapper : String × Json :=
  ("kindOneOfType", .obj [("object_type", .str "tenant"), ("tenant", .str "t9")])

def plain : Entries Json := [("id", .str "a1"), ("tenant", .str "t1")]

def wrapped : Entries Json := [wrapper, ("tenant", .str "t1"), ("id", .num (.integer 4))]

/-- The other entries of `wrapped`, with another tenant at another place. -/
def moved : Entries Json := [wrapper, ("id", .num (.integer 4)), ("tenant", .str "t2")]

end Reclaiming

open Smuggled Reclaiming in
/-- A wrapper that names the extra property changes nothing in the context, and the value of the extra
property nothing in the payload. -/
theorem ofArguments_independent_crossing :
    (∃ plainCall wrappedCall, ofArguments [tenant] (.obj plain) = .ok plainCall ∧
      ofArguments [tenant] (.obj wrapped) = .ok wrappedCall ∧
      plainCall.context = wrappedCall.context) ∧
    ∃ wrappedCall movedCall, ofArguments [tenant] (.obj wrapped) = .ok wrappedCall ∧
      ofArguments [tenant] (.obj moved) = .ok movedCall ∧
      wrappedCall.payload = movedCall.payload := by
  have agree : ∀ extra ∈ [tenant], plain.get? extra.name = wrapped.get? extra.name := by
    decide +kernel
  have same : Context.remaining [tenant] wrapped = Context.remaining [tenant] moved := by
    decide +kernel
  obtain ⟨plainCall, plainRan⟩ : ∃ call, ofArguments [tenant] (.obj plain) = .ok call :=
    exists_call_of_isOk (by decide +kernel)
  obtain ⟨wrappedCall, wrappedRan⟩ : ∃ call, ofArguments [tenant] (.obj wrapped) = .ok call :=
    exists_call_of_isOk (by decide +kernel)
  obtain ⟨movedCall, movedRan⟩ : ∃ call, ofArguments [tenant] (.obj moved) = .ok call :=
    exists_call_of_isOk (by decide +kernel)
  constructor
  · obtain ⟨contexts, -⟩ := ofArguments_independent [tenant] plain wrapped
    refine (contexts agree).resolve_right ?_
    rintro ⟨cause, refused, -⟩
    cases plainRan.symm.trans refused
  · obtain ⟨-, payloads⟩ := ofArguments_independent [tenant] wrapped moved
    exact ⟨wrappedCall, movedCall, wrappedRan, movedRan,
      payloads same wrappedCall movedCall wrappedRan movedRan⟩

end PreparedCall

end ToolContract
