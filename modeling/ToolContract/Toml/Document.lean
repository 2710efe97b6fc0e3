import ToolContract.Toml.Quoted
import ToolContract.Toml.Table

/-!
# Reading documents

A document is a run of lines, each of which is blank, a header or an assignment, and may end in a
comment. Inside an array and an inline table, line breaks and comments may stand between any two
parts, on both sides of an equals sign too, and a comma after the last part. A dotted key stays on
one line everywhere. Nesting is limited, by brackets and by dotted keys.
-/

set_option autoImplicit false

namespace ToolContract.Toml

open Reader

/-! ## Keys -/

def isKeyChar (char : Char) : Bool :=
  char.isAlphanum || char = '_' || char = '-'

def simpleKey : TextReader String := fun chars =>
  let bare := chars.takeWhile isKeyChar
  if bare.isEmpty then lineText chars
  else .ok (String.ofList bare, chars.dropWhile isKeyChar)

private theorem consumes_simpleKey : Consumes simpleKey := by
  intro chars key rest read
  simp only [simpleKey] at read
  split at read
  · exact consumes_lineText read
  · rename_i filled
    cases read
    exact length_dropWhile_lt_of_takeWhile_ne_nil (by simpa using filled)

/-- Reads the rest of a dotted key after the keys done, in reverse order, with the blanks after
it. -/
def keyPathRest (done : List String) : TextReader KeyPath := fun chars =>
  match _read : simpleKey chars with
  | .error cause => .error cause
  | .ok (key, rest) =>
    match _gap : rest.dropWhile isGap with
    | '.' :: after => keyPathRest (key :: done) (after.dropWhile isGap)
    | after => .ok (⟨done.reverse, key⟩, after)
termination_by chars => chars.length
decreasing_by
  have := consumes_simpleKey _read
  have gap := length_dropWhile_le isGap rest
  have := length_dropWhile_le isGap after
  rw [_gap] at gap
  simp only [List.length_cons] at gap
  omega

private theorem consumes_keyPathRest (done : List String) : Consumes (keyPathRest done) := by
  intro chars path rest read
  fun_induction keyPathRest done chars with
  | case1 => cases read
  | case2 done chars key after found more gap ih =>
    have := consumes_simpleKey found
    have gapped := length_dropWhile_le isGap after
    have := length_dropWhile_le isGap more
    have := ih read
    rw [gap] at gapped
    simp only [List.length_cons] at gapped
    omega
  | case3 done chars key after found =>
    have := consumes_simpleKey found
    have := length_dropWhile_le isGap after
    cases read
    omega

/-- How deeply arrays and inline tables may be nested, and how many keys a dotted key may have. -/
def nestingLimit : Nat := 80

def keyPath : TextReader KeyPath := fun chars =>
  match keyPathRest [] chars with
  | .error cause => .error cause
  | .ok (path, rest) =>
    if path.tables.length < nestingLimit then .ok (path, rest) else .error .tooDeep

private theorem consumes_keyPath : Consumes keyPath := by
  intro chars path rest read
  simp only [keyPath] at read
  split at read
  · cases read
  · rename_i found
    split at read
    · cases read
      exact consumes_keyPathRest [] found
    · cases read

/-! ## Spacing -/

/-- What is left after blanks, line breaks and comments. A character that no comment may hold is
left where it stands. -/
def dropFiller (inComment : Bool) : List Char → List Char
  | [] => []
  | '\n' :: rest => dropFiller false rest
  | '\r' :: '\n' :: rest => dropFiller false rest
  | char :: rest =>
    if inComment then
      if isCommentChar char then dropFiller true rest else char :: rest
    else if isGap char then dropFiller false rest
    else if char = '#' then dropFiller true rest
    else char :: rest

private theorem length_dropFiller_le (inComment : Bool) (chars : List Char) :
    (dropFiller inComment chars).length ≤ chars.length := by
  fun_induction dropFiller inComment chars with
  | case1 => exact Nat.le_refl _
  | case2 _ rest ih => exact Nat.le_succ_of_le ih
  | case3 _ rest ih => exact Nat.le_succ_of_le (Nat.le_succ_of_le ih)
  | case4 =>
    rename_i ih
    exact Nat.le_succ_of_le ih
  | case5 => exact Nat.le_refl _
  | case6 =>
    rename_i ih
    exact Nat.le_succ_of_le ih
  | case7 =>
    rename_i ih
    exact Nat.le_succ_of_le ih
  | case8 => exact Nat.le_refl _

private theorem length_lt_of_dropFiller {inComment : Bool} {chars rest : List Char} {char : Char}
    (left : dropFiller inComment chars = char :: rest) : rest.length < chars.length := by
  have := length_dropFiller_le inComment chars
  rw [left] at this
  exact this

inductive Spacing where
  | inLine
  /-- Over several lines, with line breaks and comments between the parts as well. -/
  | acrossLines
  deriving DecidableEq, Repr

def Spacing.drop : Spacing → List Char → List Char
  | .inLine => List.dropWhile isGap
  | .acrossLines => dropFiller false

private theorem Spacing.length_drop_le (spacing : Spacing) (chars : List Char) :
    (spacing.drop chars).length ≤ chars.length := by
  cases spacing with
  | inLine => exact length_dropWhile_le isGap chars
  | acrossLines => exact length_dropFiller_le false chars

/-! ## Values -/

/-- Reads the rest of a run of items, separated by commas, up to a closing character. -/
def separatedRest {α : Type} (close : Char) (item : TextReader α) (consumes : Consumes item)
    (done : List α) : TextReader (List α) := fun chars =>
  match _start : dropFiller false chars with
  | [] => .error .unclosed
  | char :: rest =>
    if char = close then .ok (done.reverse, rest)
    else
      match _read : item (char :: rest) with
      | .error cause => .error cause
      | .ok (value, after) =>
        match _next : dropFiller false after with
        | ',' :: more => separatedRest close item consumes (value :: done) more
        | char :: more =>
          if char = close then .ok ((value :: done).reverse, more) else .error .unexpected
        | [] => .error .unclosed
termination_by chars => chars.length
decreasing_by
  have := length_lt_of_dropFiller _start
  have := length_lt_of_dropFiller _next
  have short := consumes _read
  simp only [List.length_cons] at short
  omega

private theorem consumes_separatedRest {α : Type} (close : Char) (item : TextReader α)
    (consumes : Consumes item) (done : List α) :
    Consumes (separatedRest close item consumes done) := by
  intro chars values rest read
  fun_induction separatedRest close item consumes done chars with
  | case1 => cases read
  | case2 =>
    rename_i start
    have := length_lt_of_dropFiller start
    cases read
    assumption
  | case3 => cases read
  | case4 =>
    rename_i start _ _ _ found _ next ih
    have := length_lt_of_dropFiller start
    have := length_lt_of_dropFiller next
    have := ih read
    have short := consumes found
    simp only [List.length_cons] at short
    omega
  | case5 =>
    rename_i start _ _ _ found _ _ next
    have := length_lt_of_dropFiller start
    have := length_lt_of_dropFiller next
    have short := consumes found
    cases read
    simp only [List.length_cons] at short
    omega
  | case6 => cases read
  | case7 => cases read

def assignment (spacing : Spacing) (value : TextReader Value) : TextReader Assignment :=
  fun chars =>
    match keyPath chars with
    | .error cause => .error cause
    | .ok (path, rest) =>
      match spacing.drop rest with
      | '=' :: rest =>
        match value (spacing.drop rest) with
        | .ok (value, after) => .ok (⟨path, value⟩, after)
        | .error cause => .error cause
      | _ => .error .unexpected

private theorem consumes_assignment {spacing : Spacing} {value : TextReader Value}
    (keeps : Keeps value) :
    Consumes (assignment spacing value) := by
  intro chars result after read
  simp only [assignment] at read
  split at read
  · cases read
  · rename_i path rest found
    have := consumes_keyPath found
    have before := spacing.length_drop_le rest
    split at read
    · rename_i more shape
      have := spacing.length_drop_le more
      rw [shape] at before
      simp only [List.length_cons] at before
      split at read
      · rename_i given
        have := keeps given
        cases read
        omega
      · cases read
    · cases read

def scalar : TextReader Value
  | '"' :: rest =>
    match quoted ('"' :: rest) with
    | .ok (text, after) => .ok (.string text, after)
    | .error cause => .error cause
  | '\'' :: rest =>
    match quoted ('\'' :: rest) with
    | .ok (text, after) => .ok (.string text, after)
    | .error cause => .error cause
  | chars => word chars

private theorem consumes_scalar : Consumes scalar := by
  intro chars value rest read
  unfold scalar at read
  split at read
  · split at read
    · rename_i found
      cases read
      exact consumes_quoted found
    · cases read
  · split at read
    · rename_i found
      cases read
      exact consumes_quoted found
    · cases read
  · exact consumes_word read

/-- Reads a value where no array or inline table may be opened, be it empty. -/
def unnested : TextReader Value
  | '[' :: _ => .error .tooDeep
  | '{' :: _ => .error .tooDeep
  | chars => scalar chars

private theorem consumes_unnested : Consumes unnested := by
  intro chars value rest read
  unfold unnested at read
  split at read
  · cases read
  · cases read
  · exact consumes_scalar read

def nested (inner : TextReader Value) (consumes : Consumes inner) : TextReader Value
  | '[' :: rest =>
    match separatedRest ']' inner consumes [] rest with
    | .ok (items, after) => .ok (.array items, after)
    | .error cause => .error cause
  | '{' :: rest =>
    match separatedRest '}' (assignment .acrossLines inner) (consumes_assignment consumes.keeps)
        [] rest with
    | .ok (assignments, after) =>
      match inlineTable assignments with
      | .ok table => .ok (table, after)
      | .error cause => .error cause
    | .error cause => .error cause
  | chars => scalar chars

private theorem consumes_nested (inner : TextReader Value) (consumes : Consumes inner) :
    Consumes (nested inner consumes) := by
  intro chars value rest read
  unfold nested at read
  split at read
  · split at read
    · rename_i found
      cases read
      exact Nat.lt_succ_of_lt (consumes_separatedRest _ _ _ _ found)
    · cases read
  · split at read
    · rename_i found
      split at read
      · cases read
        exact Nat.lt_succ_of_lt (consumes_separatedRest _ _ _ _ found)
      · cases read
    · cases read
  · exact consumes_scalar read

/-- Reads a value in which arrays and inline tables are nested to at most `depth` levels. -/
def valueAt : Nat → { reader : TextReader Value // Consumes reader }
  | 0 => ⟨unnested, consumes_unnested⟩
  | depth + 1 => ⟨nested (valueAt depth).val (valueAt depth).property, consumes_nested _ _⟩

def value : TextReader Value :=
  (valueAt nestingLimit).val

/-! ## Lines -/

inductive Line where
  | blank
  | header (isItem : Bool) (target : KeyPath)
  | assignment (assignment : Assignment)
  deriving Repr, Inhabited

def lineContent : TextReader Line := fun chars =>
  match chars.dropWhile isGap with
  | [] => .ok (.blank, [])
  | '[' :: '[' :: rest =>
    match keyPath (rest.dropWhile isGap) with
    | .ok (target, ']' :: ']' :: after) => .ok (.header true target, after)
    | .ok _ => .error .unexpected
    | .error cause => .error cause
  | '[' :: rest =>
    match keyPath (rest.dropWhile isGap) with
    | .ok (target, ']' :: after) => .ok (.header false target, after)
    | .ok _ => .error .unexpected
    | .error cause => .error cause
  | char :: rest =>
    if char = '#' || char = '\n' || char = '\r' then .ok (.blank, char :: rest)
    else
      match assignment .inLine value (char :: rest) with
      | .ok (assignment, after) => .ok (.assignment assignment, after)
      | .error cause => .error cause

def dropComment (chars : List Char) : List Char :=
  match chars.dropWhile isGap with
  | '#' :: rest => rest.dropWhile isCommentChar
  | rest => rest

private theorem keeps_lineContent : Keeps lineContent := by
  intro chars line rest read
  have gap := length_dropWhile_le isGap chars
  simp only [lineContent] at read
  split at read
  · cases read
    exact Nat.zero_le _
  · rename_i more shape
    have := length_dropWhile_le isGap more
    rw [shape] at gap
    split at read
    · rename_i found
      have short := consumes_keyPath found
      cases read
      simp only [List.length_cons] at gap short
      omega
    · cases read
    · cases read
  · rename_i more _ shape
    have := length_dropWhile_le isGap more
    rw [shape] at gap
    split at read
    · rename_i found
      have short := consumes_keyPath found
      cases read
      simp only [List.length_cons] at gap short
      omega
    · cases read
    · cases read
  · rename_i char more _ _ shape
    rw [shape] at gap
    split at read
    · cases read
      exact gap
    · split at read
      · rename_i found
        have := consumes_assignment (valueAt nestingLimit).property.keeps found
        cases read
        omega
      · cases read

private theorem length_dropComment_le (chars : List Char) :
    (dropComment chars).length ≤ chars.length := by
  have gap := length_dropWhile_le isGap chars
  unfold dropComment
  split
  · rename_i rest shape
    have := length_dropWhile_le isCommentChar rest
    rw [shape] at gap
    simp only [List.length_cons] at gap
    omega
  · exact gap

/-- The lines of a document after those done, which stand in reverse order. -/
def linesAfter (done : List Line) (chars : List Char) : Except Error (List Line) :=
  match _read : lineContent chars with
  | .error cause => .error cause
  | .ok (line, rest) =>
    match _ends : dropComment rest with
    | [] => .ok (line :: done).reverse
    | '\n' :: more => linesAfter (line :: done) more
    | '\r' :: '\n' :: more => linesAfter (line :: done) more
    | _ => .error .unexpected
termination_by chars.length
decreasing_by
  all_goals
    have := keeps_lineContent _read
    have ending := length_dropComment_le rest
    rw [_ends] at ending
    simp only [List.length_cons] at ending
    omega

/-! ## Documents -/

def splitSections (lines : List Line) : List Assignment × List Section :=
  lines.foldr
    (fun line (assignments, sections) =>
      match line with
      | .blank => (assignments, sections)
      | .assignment assignment => (assignment :: assignments, sections)
      | .header isItem target => ([], ⟨isItem, target, assignments⟩ :: sections))
    ([], [])

def dropByteOrderMark : List Char → List Char
  | '\uFEFF' :: rest => rest
  | chars => chars

def ofText (text : String) : Except Error Value := do
  let lines ← linesAfter [] (dropByteOrderMark text.toList)
  let (assignments, sections) := splitSections lines
  let document ← assignAll [] assignments
  return .table (nodeEntries (← addSections document sections))

end ToolContract.Toml
