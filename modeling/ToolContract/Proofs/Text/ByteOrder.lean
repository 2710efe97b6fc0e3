import Mathlib.Data.String.Basic

/-!
# The order of texts is the order of their bytes

A larger character has the larger UTF-8 code, and no code is the beginning of another one, so texts
stand in the order of their bytes.
-/

set_option autoImplicit false

namespace ToolContract

private theorem utf8EncodeChar_append_lt {left right : Char} (less : left < right)
    (leftRest rightRest : List UInt8) :
    String.utf8EncodeChar left ++ leftRest < String.utf8EncodeChar right ++ rightRest := by
  have codes : left.val.toNat < right.val.toNat := less
  have bound : right.val.toNat < 1114112 := by
    have valid := right.valid
    simp only [UInt32.isValidChar, Nat.isValidChar] at valid
    omega
  simp only [String.utf8EncodeChar]
  generalize left.val.toNat = low at *
  generalize right.val.toNat = high at *
  -- codes of different lengths differ in their first byte, codes of one length in their first
  -- different digit to the base 64
  split_ifs <;>
    simp (disch := omega) only [List.cons_append, List.nil_append, List.cons_lt_cons_iff,
      UInt8.lt_iff_toNat_lt, ← UInt8.toNat_inj, UInt8.toNat_ofNat', Nat.reducePow,
      Nat.mod_eq_of_lt] <;>
    omega

/-- The bytes of a text in UTF-8. -/
def textBytes (text : String) : List UInt8 :=
  text.toUTF8.data.toList

private theorem textBytes_eq (text : String) :
    textBytes text = text.toList.flatMap String.utf8EncodeChar := by
  conv_lhs => rw [← String.ofList_toList (s := text)]
  exact List.toList_data_toByteArray

/-- A text that precedes another one precedes it byte by byte. -/
theorem textBytes_lt {left right : String} (less : left < right) :
    textBytes left < textBytes right := by
  rw [textBytes_eq, textBytes_eq]
  have chars : List.Lex (· < ·) left.toList right.toList := String.lt_iff.mp less
  generalize left.toList = lefts at chars
  generalize right.toList = rights at chars
  induction chars with
  | @nil first rest =>
    obtain ⟨byte, bytes, code⟩ := List.exists_cons_of_ne_nil (@String.utf8EncodeChar_ne_nil first)
    rw [List.flatMap_cons, code]
    exact List.nil_lt_cons byte _
  | rel smaller => exact utf8EncodeChar_append_lt smaller _ _
  | cons _ ih => exact List.append_left_lt ih

end ToolContract
