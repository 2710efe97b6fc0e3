import ToolContract.Json
import ToolContract.Reader

/-!
# TOML values

The values of a TOML document, and the reasons for which a text is none.
-/

set_option autoImplicit false

namespace ToolContract.Toml

/-- A value in a document. Floats and dates are told apart but not kept, since no setting is one. An
integer whose characters stand for no number is refused only where it is used as a setting. -/
inductive Value where
  | string (text : String)
  /-- An integer, or a word that begins as one but stands for no number. -/
  | integer (value : Option Int)
  | float
  | boolean (value : Bool)
  | dateTime
  | array (items : List Value)
  | table (entries : List (String × Value))
  deriving Repr, Inhabited

mutual

/-- The value as JSON. A float, a date or an integer that is no number becomes `null`, which no
setting accepts either. -/
def Value.toJson : Value → Json
  | .string text => .str text
  | .integer (some value) => .num (.integer value)
  | .integer none => .null
  | .float => .null
  | .boolean value => .bool value
  | .dateTime => .null
  | .array items => .arr (itemsToJson items)
  | .table entries => .obj (entriesToJson entries)

def itemsToJson : List Value → List Json
  | [] => []
  | value :: rest => value.toJson :: itemsToJson rest

def entriesToJson : List (String × Value) → List (String × Json)
  | [] => []
  | (key, value) :: rest => (key, value.toJson) :: entriesToJson rest

end

inductive Error where
  | unexpected
  | unclosed
  | badEscape
  | badWord
  | repeatedKey
  | closedValue
  /-- Arrays and inline tables are nested too deeply, or a dotted key has too many keys. -/
  | tooDeep
  deriving DecidableEq, Repr

abbrev TextReader := Reader Char Error

def isGap (char : Char) : Bool :=
  char = ' ' || char = '\t'

/-- Whether a character may stand in a comment: a tab, or any that is no control character. -/
def isCommentChar (char : Char) : Bool :=
  char = '\t' || (' ' ≤ char && char ≠ '\x7f')

theorem length_dropWhile_le {α : Type} (test : α → Bool) (items : List α) :
    (items.dropWhile test).length ≤ items.length :=
  (List.dropWhile_sublist test).length_le

theorem length_dropWhile_lt_of_takeWhile_ne_nil {α : Type} {test : α → Bool} {items : List α}
    (taken : items.takeWhile test ≠ []) : (items.dropWhile test).length < items.length := by
  cases items with
  | nil => simp at taken
  | cons item rest =>
    by_cases passes : test item = true
    · rw [List.dropWhile_cons_of_pos passes]
      exact Nat.lt_succ_of_le (length_dropWhile_le test rest)
    · exact absurd (List.takeWhile_cons_of_neg passes) taken

end ToolContract.Toml
