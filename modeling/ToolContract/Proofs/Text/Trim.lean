import Mathlib.Data.List.TakeWhile
import ToolContract.Text.Blank

/-!
# Trimmed text

A text is trimmed to the part of it between the blank characters at its ends, which neither begins
nor ends with one (`Text.trims_trim`).
-/

set_option autoImplicit false

namespace ToolContract

namespace Text

/-- The second text is the first one without the blank characters at its ends. -/
structure Trims (text trimmed : String) : Prop where
  around : ∃ left right, text.toList = left ++ trimmed.toList ++ right ∧
    ∀ char ∈ left ++ right, isBlank char = true
  first : ∀ char ∈ trimmed.toList.head?, isBlank char = false
  last : ∀ char ∈ trimmed.toList.getLast?, isBlank char = false

private theorem not_isBlank_of_head?_dropWhile {chars : List Char} {char : Char}
    (first : char ∈ (chars.dropWhile isBlank).head?) : isBlank char = false := by
  have found := List.head?_dropWhile_not isBlank chars
  rwa [Option.mem_def.mp first] at found

private theorem exists_trimChars (chars : List Char) :
    ∃ right, chars.dropWhile isBlank = trimChars chars ++ right ∧
      ∀ char ∈ right, isBlank char = true := by
  let front := chars.dropWhile isBlank
  refine ⟨(front.reverse.takeWhile isBlank).reverse, ?_, fun char listed => ?_⟩
  · rw [trimChars, ← List.reverse_append, List.takeWhile_append_dropWhile, List.reverse_reverse]
  · exact List.mem_takeWhile_imp (List.mem_reverse.mp listed)

theorem trims_trim (text : String) : Trims text (trim text) := by
  obtain ⟨right, front, blank⟩ := exists_trimChars text.toList
  have chars : (trim text).toList = trimChars text.toList := String.toList_ofList
  constructor
  case around =>
    refine ⟨text.toList.takeWhile isBlank, right, ?_, fun char listed => ?_⟩
    · rw [chars, List.append_assoc, ← front, List.takeWhile_append_dropWhile]
    · rcases List.mem_append.mp listed with before | after
      · exact List.mem_takeWhile_imp before
      · exact blank char after
  case first =>
    intro char first
    rw [chars] at first
    refine @not_isBlank_of_head?_dropWhile text.toList char ?_
    rw [front, List.head?_append, Option.mem_def.mp first]
    rfl
  case last =>
    intro char last
    rw [chars, trimChars, List.getLast?_reverse] at last
    exact not_isBlank_of_head?_dropWhile last

end Text

end ToolContract
