/-!
# Extra properties

A property of a tool that belongs to no field of the request: the caller supplies its text beside
the request, and the server finds it under a key of its own choice.
-/

set_option autoImplicit false

namespace ToolContract

structure ExtraProperty where
  name : String
  description : String
  required : Bool := false
  contextKey : String
  deriving DecidableEq, Repr, Inhabited

def firstRepeated? : List String → Option String :=
  go []
where
  go (seen : List String) : List String → Option String
    | [] => none
    | text :: rest => if text ∈ seen then some text else go (text :: seen) rest

private theorem firstRepeated?_go_eq_none_iff (seen texts : List String) :
    firstRepeated?.go seen texts = none ↔ texts.Nodup ∧ ∀ text ∈ texts, text ∉ seen := by
  induction texts generalizing seen with
  | nil => simp [firstRepeated?.go]
  | cons text rest ih =>
    by_cases known : text ∈ seen
    · simp [firstRepeated?.go, known]
    · simp only [firstRepeated?.go, known, if_false, ih, List.nodup_cons, List.mem_cons, not_or,
        forall_eq_or_imp]
      constructor
      · intro ⟨distinct, new⟩
        exact ⟨⟨fun member => (new text member).1 rfl, distinct⟩, not_false,
          fun other member => (new other member).2⟩
      · intro ⟨⟨absent, distinct⟩, _, new⟩
        exact ⟨distinct, fun other member =>
          ⟨fun same => absent (same ▸ member), new other member⟩⟩

theorem firstRepeated?_eq_none_iff (texts : List String) :
    firstRepeated? texts = none ↔ texts.Nodup := by
  simp [firstRepeated?, firstRepeated?_go_eq_none_iff]

end ToolContract
