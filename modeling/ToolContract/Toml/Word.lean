import ToolContract.Toml.Basic

/-!
# Bare words

The values that are written without quotes or brackets: truth values, integers in four bases,
floats, dates and times. A word goes on over blanks, so that a date takes the time after it along.
Digits may be grouped by single underscores, each between two digits, and a decimal number has no
leading zeros. A word is an integer by its first digits and underscores; whether it stands for a
number is told by its other characters, and one that does not is a value all the same.
-/

set_option autoImplicit false

namespace ToolContract.Toml

/-! ## Digits -/

def digitValue (char : Char) : Nat :=
  if char.isDigit then char.toNat - '0'.toNat
  else if 'a' ≤ char then char.toNat - 'a'.toNat + 10
  else char.toNat - 'A'.toNat + 10

/-- Where numbers are no longer told apart: no setting and no code point is this large. -/
def valueLimit : Nat := Nat.pow 2 64

/-- The number that a run of digits stands for, or the limit if it is larger. -/
def runValue (base : Nat) (chars : List Char) : Nat :=
  (chars.filter (· ≠ '_')).foldl
    (fun value char => min valueLimit (value * base + digitValue char)) 0

def isHexDigit (char : Char) : Bool :=
  char.isDigit || ('a' ≤ char && char ≤ 'f') || ('A' ≤ char && char ≤ 'F')

def isRunChar (char : Char) : Bool :=
  char.isDigit || char = '_'

/-- Whether every underscore stands between two digits, if the characters come after a digit or not.
What is no underscore is not looked at. -/
def isGrouped (isDigit : Char → Bool) (afterDigit : Bool) : List Char → Bool
  | [] => true
  | '_' :: rest => afterDigit && rest.head?.any isDigit && isGrouped isDigit false rest
  | char :: rest => isGrouped isDigit (isDigit char) rest

/-! ## Numbers -/

def isSign (char : Char) : Bool :=
  char = '+' || char = '-'

def dropSign : List Char → List Char
  | [] => []
  | char :: rest => if isSign char then rest else char :: rest

def hasLeadingZero : List Char → Bool
  | '0' :: next :: _ => isRunChar next
  | _ => false

/-- The integer of digits in a base that was written before them. Without any digit it is no
number. -/
def ofBased? (base : Nat) (isDigit : Char → Bool) (digits : List Char) : Option Value :=
  if digits.all (fun char => isDigit char || char = '_') && isGrouped isDigit false digits then
    some (.integer (if digits.isEmpty then none else some (runValue base digits)))
  else none

/-- Whether a word is a decimal integer as far as its first digits show: nothing or an underscore
follows them, with no space in what remains. Its underscores stand between digits of any base. -/
def isInteger (word : List Char) : Bool :=
  let digits := dropSign word
  !digits.isEmpty && (digits.dropWhile Char.isDigit).head?.all (· = '_') &&
    !word.contains ' ' && !hasLeadingZero digits && isGrouped isHexDigit false digits

/-- The number that a decimal integer stands for: none if there is more than digits and
underscores after its sign. -/
def integerValue? (word : List Char) : Option Int :=
  let digits := dropSign word
  if digits.all isRunChar then
    let magnitude : Int := runValue 10 digits
    some (if word.head? = some '-' then -magnitude else magnitude)
  else none

def afterRun? (chars : List Char) : Option (List Char) :=
  if (chars.takeWhile isRunChar).any Char.isDigit then some (chars.dropWhile isRunChar) else none

def afterFraction? : List Char → Option (List Char)
  | '.' :: rest => afterRun? rest
  | chars => some chars

def afterExponent? : List Char → Option (List Char)
  | 'e' :: rest => afterRun? (dropSign rest)
  | 'E' :: rest => afterRun? (dropSign rest)
  | chars => some chars

/-- Whether the characters are a whole part with a fraction, an exponent, both or none. -/
def isFloat (word : List Char) : Bool :=
  let digits := dropSign word
  !hasLeadingZero digits && isGrouped Char.isDigit false digits &&
    ((afterRun? digits).bind afterFraction?).bind afterExponent? = some []

def isFloatMark (char : Char) : Bool :=
  char = '.' || char = 'e' || char = 'E'

/-! ## Dates and times -/

def twoDigits? : List Char → Option (Nat × List Char)
  | tens :: ones :: rest =>
    if tens.isDigit && ones.isDigit then some (digitValue tens * 10 + digitValue ones, rest)
    else none
  | _ => none

/-- The number of days of a month, February having one more in a leap year. -/
def daysIn (year month : Nat) : Nat :=
  if month = 2 then
    if year % 4 = 0 ∧ (year % 100 ≠ 0 ∨ year % 400 = 0) then 29 else 28
  else if month = 4 ∨ month = 6 ∨ month = 9 ∨ month = 11 then 30
  else 31

def afterDate? (chars : List Char) : Option (List Char) := do
  let (century, chars) ← twoDigits? chars
  let (years, chars) ← twoDigits? chars
  let '-' :: chars := chars | none
  let (month, chars) ← twoDigits? chars
  let '-' :: chars := chars | none
  let (day, chars) ← twoDigits? chars
  if 1 ≤ month ∧ month ≤ 12 ∧ 1 ≤ day ∧ day ≤ daysIn (century * 100 + years) month then
    some chars
  else none

def afterMinutes? (chars : List Char) : Option (List Char) := do
  let (hours, chars) ← twoDigits? chars
  let ':' :: chars := chars | none
  let (minutes, chars) ← twoDigits? chars
  if hours ≤ 23 ∧ minutes ≤ 59 then some chars else none

/-- What follows a time of the day; its seconds may be left out or have a fraction. -/
def afterTime? (chars : List Char) : Option (List Char) := do
  let chars ← afterMinutes? chars
  match chars with
  | ':' :: chars =>
    let (seconds, chars) ← twoDigits? chars
    if 60 < seconds then none
    else
      match chars with
      | '.' :: chars =>
        if (chars.head?.map Char.isDigit).getD false then some (chars.dropWhile Char.isDigit)
        else none
      | chars => some chars
  | chars => some chars

def isOffset : List Char → Bool
  | [] => true
  | ['Z'] => true
  | ['z'] => true
  | '+' :: chars => afterMinutes? chars = some []
  | '-' :: chars => afterMinutes? chars = some []
  | _ => false

def isDateTime (chars : List Char) : Bool :=
  match afterDate? chars with
  | none => afterTime? chars = some []
  | some [] => true
  | some (separator :: chars) =>
    (separator = 'T' || separator = 't' || separator = ' ') &&
      match afterTime? chars with
      | some offset => isOffset offset
      | none => false

/-! ## Kinds of words -/

/-- The value of a word that begins with digits, after a sign or not. What follows the digits tells
a date or a time, a float and an integer apart. -/
def ofNumber? (word : List Char) : Option Value :=
  let rest := (dropSign word).dropWhile Char.isDigit
  if rest.head?.any fun char => char = '-' || char = ':' then
    if isDateTime word then some .dateTime else none
  else if rest.any isFloatMark then
    if isFloat word then some .float else none
  else if isInteger word then some (.integer (integerValue? word))
  else none

def isSpecialFloat (word : List Char) : Bool :=
  dropSign word = "inf".toList || dropSign word = "nan".toList

def ofWord? (word : List Char) : Option Value :=
  if word = "true".toList then some (.boolean true)
  else if word = "false".toList then some (.boolean false)
  else if isSpecialFloat word then some .float
  else
    match word with
    | '0' :: 'x' :: digits => ofBased? 16 isHexDigit digits
    | '0' :: 'o' :: digits => ofBased? 8 (fun char => '0' ≤ char && char ≤ '7') digits
    | '0' :: 'b' :: digits => ofBased? 2 (fun char => char = '0' || char = '1') digits
    | word => ofNumber? word

/-! ## Reading a word -/

/-- The characters that end a bare word wherever they stand: line breaks, and the marks that
separate or enclose values. -/
def wordEnds : List Char :=
  ['\r', '\n', '#', '=', ',', '[', ']', '{', '}']

def isWordChar (char : Char) : Bool :=
  !isGap char && !wordEnds.contains char

def resumesWord (char : Char) : Bool :=
  isWordChar char && char ≠ '.' && char ≠ '"' && char ≠ '\''

/-- The characters of a word and what follows it. Of the word, `done` is read already, and the
blanks in `gap` after it, both in reverse order; they belong to the word only if it goes on. -/
def splitWord (done gap : List Char) : List Char → List Char × List Char
  | [] => (done.reverse, gap.reverse)
  | char :: rest =>
    if isGap char then splitWord done (char :: gap) rest
    else if resumesWord char || gap.isEmpty && isWordChar char then
      splitWord (char :: (gap ++ done)) [] rest
    else (done.reverse, gap.reverse ++ char :: rest)

def word : TextReader Value
  | [] => .error .unexpected
  | char :: rest =>
    if isWordChar char then
      let (word, after) := splitWord [char] [] rest
      match ofWord? word with
      | some value => .ok (value, after)
      | none => .error .badWord
    else .error .unexpected

private theorem length_splitWord_le (done gap chars : List Char) :
    (splitWord done gap chars).2.length ≤ gap.length + chars.length := by
  fun_induction splitWord done gap chars with
  | case1 => simp
  | case2 =>
    rename_i ih
    simp only [List.length_cons] at ih ⊢
    omega
  | case3 =>
    rename_i ih
    simp only [List.length_cons, List.length_nil] at ih ⊢
    omega
  | case4 => simp

theorem consumes_word : Reader.Consumes word := by
  intro chars value after read
  unfold word at read
  split at read
  · cases read
  · rename_i char rest
    split at read
    · have short := length_splitWord_le [char] [] rest
      simp only at read
      split at read
      · cases read
        simp only [List.length_nil, List.length_cons] at short ⊢
        omega
      · cases read
    · cases read

end ToolContract.Toml
