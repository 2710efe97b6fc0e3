/-!
# Qualified names

A type is named by its dotted path from the root package, `pkg.Outer.Inner`. A reference may carry
leading dots, which mark it as absolute and never belong to the name.
-/

set_option autoImplicit false

namespace ToolContract.QualifiedName

def strip (name : String) : String :=
  String.ofList (name.toList.dropWhile (· = '.'))

def short (fullName : String) : String :=
  String.ofList (fullName.toList.reverse.takeWhile (· ≠ '.')).reverse

/-- The name declared as `name` inside `scope`; the empty scope adds nothing. -/
def join (scope name : String) : String :=
  if scope = "" then name else scope ++ "." ++ name

private theorem dropWhile_dropWhile {α : Type} (test : α → Bool) (items : List α) :
    (items.dropWhile test).dropWhile test = items.dropWhile test := by
  induction items with
  | nil => rfl
  | cons item rest ih =>
    by_cases passes : test item = true <;> simp [passes, ih]

@[simp] theorem strip_strip (name : String) : strip (strip name) = strip name := by
  simp [strip, dropWhile_dropWhile]

end ToolContract.QualifiedName
