import Mathlib.Data.String.Basic
import ToolContract.Tool.Name

/-!
# Names of tools fit their limit

A fitted name takes at most as many bytes as the limit allows: digits of a digest take one byte each,
and a tail is dropped character by character until it fits.
-/

set_option autoImplicit false

namespace ToolContract.ToolName

theorem utf8ByteSize_ofList (chars : List Char) :
    (String.ofList chars).utf8ByteSize = byteLength chars := by
  rw [String.utf8ByteSize_ofList]
  induction chars with
  | nil => rfl
  | cons char rest ih => rw [String.utf8Len_cons, ih, byteLength, Nat.add_comm]

theorem byteLength_toList (name : String) : byteLength name.toList = name.utf8ByteSize := by
  rw [← utf8ByteSize_ofList, String.ofList_toList]

theorem byteLength_append (left right : List Char) :
    byteLength (left ++ right) = byteLength left + byteLength right := by
  induction left with
  | nil => simp [byteLength]
  | cons char rest ih => rw [List.cons_append, byteLength, ih, byteLength, Nat.add_assoc]

theorem byteLength_eq_length {chars : List Char} (small : ∀ char ∈ chars, char.utf8Size = 1) :
    byteLength chars = chars.length := by
  induction chars with
  | nil => rfl
  | cons char rest ih =>
    obtain ⟨first, later⟩ := List.forall_mem_cons.mp small
    rw [byteLength, first, ih later, List.length_cons, Nat.add_comm]

/-- A tail that is dropped to the limit fits it. -/
theorem byteLength_dropToFit_le (limit : Nat) (chars : List Char) :
    byteLength (dropToFit limit (byteLength chars) chars) ≤ limit := by
  induction chars with
  | nil => exact Nat.zero_le limit
  | cons char rest ih =>
    rw [dropToFit]
    split
    · assumption
    · rwa [byteLength, Nat.add_sub_cancel_left]

private theorem utf8Size_hexDigit : ∀ digit < 16, (hexDigit digit).utf8Size = 1 := by
  decide

theorem utf8Size_of_mem_hex {bytes : List UInt8} {char : Char} (member : char ∈ hex bytes) :
    char.utf8Size = 1 := by
  obtain ⟨byte, -, digit⟩ := List.mem_flatMap.mp member
  have small := byte.toNat_lt
  simp only [List.mem_cons, List.not_mem_nil, or_false] at digit
  rcases digit with rfl | rfl <;> exact utf8Size_hexDigit _ (by omega)

theorem utf8Size_of_mem_digestHead {name : String} {char : Char}
    (member : char ∈ digestHead name) : char.utf8Size = 1 :=
  utf8Size_of_mem_hex (List.mem_of_mem_take member)

private theorem byteLength_take_digestHead_le (name : String) (limit : Nat) :
    byteLength ((digestHead name).take limit) ≤ min limit digestDigits := by
  rw [byteLength_eq_length fun char member =>
    utf8Size_of_mem_digestHead (List.mem_of_mem_take member), digestHead, List.take_take]
  exact List.length_take_le _ _

/-- A fitted name takes at most as many bytes as the limit. -/
theorem utf8ByteSize_fit_le (name : String) (limit : Nat) :
    (fit name limit).utf8ByteSize ≤ limit := by
  unfold fit
  split
  · assumption
  · split
    · rw [utf8ByteSize_ofList]
      exact Nat.le_trans (byteLength_take_digestHead_le name limit) (Nat.min_le_left _ _)
    · have head := byteLength_take_digestHead_le name (digestHead name).length
      rw [List.take_length] at head
      have tail : byteLength (tail (limit - digestDigits - 1) name) ≤ limit - digestDigits - 1 := by
        rw [ToolName.tail, ← byteLength_toList]
        exact byteLength_dropToFit_le _ _
      rw [utf8ByteSize_ofList, byteLength_append, byteLength]
      have separator : ('_' : Char).utf8Size = 1 := by decide
      omega

end ToolContract.ToolName
