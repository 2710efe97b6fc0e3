import ToolContract.Toml.Basic
import ToolContract.Toml.Word

/-!
# Quoted texts

A text stands between double quotes, where escapes are understood, or between single quotes, where
every character means itself. Three quotes on each side let a text go over several lines; a line
break right after the opening is not part of it, and up to two quotes may stand right before the
closing.
-/

set_option autoImplicit false

namespace ToolContract.Toml

open Reader

/-! ## Escapes -/

def escapedChar (digits : List Char) : Except Error Char :=
  if digits.all isHexDigit then
    let code := runValue 16 digits
    if code < 0xD800 ∨ (0xE000 ≤ code ∧ code < 0x110000) then .ok (Char.ofNat code)
    else .error .badEscape
  else .error .badEscape

def codePoint (count : Nat) : TextReader Char := fun chars =>
  let digits := chars.take count
  if digits.length < count then .error .badEscape
  else
    match escapedChar digits with
    | .ok char => .ok (char, chars.drop count)
    | .error cause => .error cause

def escape : TextReader Char
  | 'b' :: rest => .ok ('\x08', rest)
  | 't' :: rest => .ok ('\t', rest)
  | 'n' :: rest => .ok ('\n', rest)
  | 'f' :: rest => .ok ('\x0c', rest)
  | 'r' :: rest => .ok ('\r', rest)
  | 'e' :: rest => .ok ('\x1b', rest)
  | '"' :: rest => .ok ('"', rest)
  | '\\' :: rest => .ok ('\\', rest)
  | 'x' :: rest => codePoint 2 rest
  | 'u' :: rest => codePoint 4 rest
  | 'U' :: rest => codePoint 8 rest
  | _ => .error .badEscape

private theorem keeps_codePoint (count : Nat) : Keeps (codePoint count) := by
  intro chars char rest read
  simp only [codePoint] at read
  split at read
  · cases read
  · split at read
    · cases read
      simp only [List.length_drop]
      omega
    · cases read

private theorem consumes_escape : Consumes escape := by
  intro chars char rest read
  unfold escape at read
  split at read
  case h_9 => exact Nat.lt_succ_of_le (keeps_codePoint 2 read)
  case h_10 => exact Nat.lt_succ_of_le (keeps_codePoint 4 read)
  case h_11 => exact Nat.lt_succ_of_le (keeps_codePoint 8 read)
  case h_12 => cases read
  all_goals
    cases read
    exact Nat.lt_succ_self _

/-! ## Texts on one line -/

/-- Reads the rest of a text between double quotes after the characters done, in reverse order. -/
def basicRest (done : List Char) : TextReader String := fun chars =>
  match chars with
  | [] => .error .unclosed
  | '"' :: rest => .ok (String.ofList done.reverse, rest)
  | '\\' :: rest =>
    match _read : escape rest with
    | .ok (char, after) => basicRest (char :: done) after
    | .error cause => .error cause
  | char :: rest => if isCommentChar char then basicRest (char :: done) rest else .error .unexpected
termination_by chars => chars.length
decreasing_by
  · exact Nat.lt_trans (consumes_escape _read) (Nat.lt_succ_self _)
  · exact Nat.lt_succ_self _

/-- Reads the rest of a text between single quotes after the characters done, in reverse order. -/
def literalRest (done : List Char) : TextReader String
  | [] => .error .unclosed
  | '\'' :: rest => .ok (String.ofList done.reverse, rest)
  | char :: rest =>
    if isCommentChar char then literalRest (char :: done) rest else .error .unexpected

private theorem consumes_basicRest (done : List Char) : Consumes (basicRest done) := by
  intro chars text rest read
  fun_induction basicRest done chars with
  | case1 => cases read
  | case2 =>
    cases read
    exact Nat.lt_succ_self _
  | case3 =>
    rename_i escaped ih
    exact Nat.lt_succ_of_lt (Nat.lt_trans (ih read) (consumes_escape escaped))
  | case4 => cases read
  | case5 =>
    rename_i ih
    exact Nat.lt_succ_of_lt (ih read)
  | case6 => cases read

private theorem consumes_literalRest (done : List Char) : Consumes (literalRest done) := by
  intro chars text rest read
  fun_induction literalRest done chars with
  | case1 => cases read
  | case2 =>
    cases read
    exact Nat.lt_succ_self _
  | case3 =>
    rename_i ih
    exact Nat.lt_succ_of_lt (ih read)
  | case4 => cases read

/-! ## Texts over several lines -/

def dropBreak : List Char → List Char
  | '\n' :: rest => rest
  | '\r' :: '\n' :: rest => rest
  | chars => chars

def dropBlankLines : List Char → List Char
  | ' ' :: rest => dropBlankLines rest
  | '\t' :: rest => dropBlankLines rest
  | '\n' :: rest => dropBlankLines rest
  | '\r' :: '\n' :: rest => dropBlankLines rest
  | chars => chars

/-- What is left after the backslash that ends a line was taken: the text goes on at the next
character that is neither a blank nor a line break. -/
def continuedLine? (chars : List Char) : Option (List Char) :=
  match chars.dropWhile isGap with
  | '\n' :: rest => some (dropBlankLines rest)
  | '\r' :: '\n' :: rest => some (dropBlankLines rest)
  | _ => none

private theorem length_dropBlankLines_le (chars : List Char) :
    (dropBlankLines chars).length ≤ chars.length := by
  fun_induction dropBlankLines chars with
  | case1 rest ih => exact Nat.le_succ_of_le ih
  | case2 rest ih => exact Nat.le_succ_of_le ih
  | case3 rest ih => exact Nat.le_succ_of_le ih
  | case4 rest ih => exact Nat.le_succ_of_le (Nat.le_succ_of_le ih)
  | case5 => exact Nat.le_refl _

private theorem length_continuedLine_lt {chars rest : List Char}
    (continued : continuedLine? chars = some rest) : rest.length < chars.length := by
  have gap := length_dropWhile_le isGap chars
  simp only [continuedLine?] at continued
  split at continued
  · rename_i after shape
    have := length_dropBlankLines_le after
    cases continued
    rw [shape] at gap
    simp only [List.length_cons] at gap
    omega
  · rename_i after shape
    have := length_dropBlankLines_le after
    cases continued
    rw [shape] at gap
    simp only [List.length_cons] at gap
    omega
  · cases continued

/-- The text of the characters done, in reverse order, without the three quotes that close it. -/
def closeText (done : List Char) : String :=
  String.ofList (done.drop 3).reverse

/-- Reads the rest of a text between three double quotes. The characters done, in reverse order,
begin with so many quotes that may belong to the closing. -/
def longBasicRest (done : List Char) (quotes : Nat) : TextReader String := fun chars =>
  match chars with
  | [] => if 3 ≤ quotes then .ok (closeText done, []) else .error .unclosed
  | '"' :: rest =>
    if quotes = 4 then .ok (closeText ('"' :: done), rest)
    else longBasicRest ('"' :: done) (quotes + 1) rest
  | char :: rest =>
    if 3 ≤ quotes then .ok (closeText done, char :: rest)
    else if char = '\\' then
      match _continued : continuedLine? rest with
      | some after => longBasicRest done 0 after
      | none =>
        match _read : escape rest with
        | .ok (char, after) => longBasicRest (char :: done) 0 after
        | .error cause => .error cause
    else if isCommentChar char || char = '\n' then longBasicRest (char :: done) 0 rest
    else if char = '\r' ∧ rest.head? = some '\n' then longBasicRest (char :: done) 0 rest
    else .error .unexpected
termination_by chars => chars.length
decreasing_by
  · exact Nat.lt_succ_self _
  · exact Nat.lt_succ_of_lt (length_continuedLine_lt _continued)
  · exact Nat.lt_succ_of_lt (consumes_escape _read)
  · exact Nat.lt_succ_self _
  · exact Nat.lt_succ_self _

/-- Reads the rest of a text between three single quotes. The characters done, in reverse order,
begin with so many quotes that may belong to the closing. -/
def longLiteralRest (done : List Char) (quotes : Nat) : TextReader String
  | [] => if 3 ≤ quotes then .ok (closeText done, []) else .error .unclosed
  | '\'' :: rest =>
    if quotes = 4 then .ok (closeText ('\'' :: done), rest)
    else longLiteralRest ('\'' :: done) (quotes + 1) rest
  | char :: rest =>
    if 3 ≤ quotes then .ok (closeText done, char :: rest)
    else if isCommentChar char || char = '\n' then longLiteralRest (char :: done) 0 rest
    else if char = '\r' ∧ rest.head? = some '\n' then longLiteralRest (char :: done) 0 rest
    else .error .unexpected

private theorem keeps_longBasicRest (done : List Char) (quotes : Nat) :
    Keeps (longBasicRest done quotes) := by
  intro chars text rest read
  fun_induction longBasicRest done quotes chars with
  | case1 =>
    cases read
    exact Nat.le_refl _
  | case2 => cases read
  | case3 =>
    cases read
    exact Nat.le_succ _
  | case4 =>
    rename_i ih
    exact Nat.le_succ_of_le (ih read)
  | case5 =>
    cases read
    exact Nat.le_refl _
  | case6 =>
    rename_i continued _ ih
    exact Nat.le_succ_of_le
      (Nat.le_trans (ih read) (Nat.le_of_lt (length_continuedLine_lt continued)))
  | case7 =>
    rename_i escaped _ ih
    exact Nat.le_succ_of_le (Nat.le_trans (ih read) (Nat.le_of_lt (consumes_escape escaped)))
  | case8 => cases read
  | case9 =>
    rename_i ih
    exact Nat.le_succ_of_le (ih read)
  | case10 =>
    rename_i ih
    exact Nat.le_succ_of_le (ih read)
  | case11 => cases read

private theorem keeps_longLiteralRest (done : List Char) (quotes : Nat) :
    Keeps (longLiteralRest done quotes) := by
  intro chars text rest read
  fun_induction longLiteralRest done quotes chars with
  | case1 =>
    cases read
    exact Nat.le_refl _
  | case2 => cases read
  | case3 =>
    cases read
    exact Nat.le_succ _
  | case4 =>
    rename_i ih
    exact Nat.le_succ_of_le (ih read)
  | case5 =>
    cases read
    exact Nat.le_refl _
  | case6 =>
    rename_i ih
    exact Nat.le_succ_of_le (ih read)
  | case7 =>
    rename_i ih
    exact Nat.le_succ_of_le (ih read)
  | case8 => cases read

/-! ## Any quoted text -/

def lineText : TextReader String
  | '"' :: rest => basicRest [] rest
  | '\'' :: rest => literalRest [] rest
  | _ => .error .unexpected

def quoted : TextReader String
  | '"' :: '"' :: '"' :: rest => longBasicRest [] 0 (dropBreak rest)
  | '\'' :: '\'' :: '\'' :: rest => longLiteralRest [] 0 (dropBreak rest)
  | chars => lineText chars

theorem consumes_lineText : Consumes lineText := by
  intro chars text rest read
  unfold lineText at read
  split at read
  · exact Nat.lt_succ_of_lt (consumes_basicRest [] read)
  · exact Nat.lt_succ_of_lt (consumes_literalRest [] read)
  · cases read

private theorem length_dropBreak_le (chars : List Char) :
    (dropBreak chars).length ≤ chars.length := by
  unfold dropBreak
  split
  · exact Nat.le_succ _
  · exact Nat.le_succ_of_le (Nat.le_succ _)
  · exact Nat.le_refl _

theorem consumes_quoted : Consumes quoted := by
  intro chars text rest read
  unfold quoted at read
  split at read
  · rename_i after
    have := keeps_longBasicRest [] 0 read
    have := length_dropBreak_le after
    simp only [List.length_cons]
    omega
  · rename_i after
    have := keeps_longLiteralRest [] 0 read
    have := length_dropBreak_le after
    simp only [List.length_cons]
    omega
  · exact consumes_lineText read

end ToolContract.Toml
