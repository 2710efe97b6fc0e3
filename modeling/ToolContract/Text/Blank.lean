/-!
# Blank text

The characters with the Unicode property White_Space, and text without them at its ends.
-/

set_option autoImplicit false

namespace ToolContract

def whiteSpaceRanges : List (Nat × Nat) :=
  [(0x9, 0xD), (0x20, 0x20), (0x85, 0x85), (0xA0, 0xA0), (0x1680, 0x1680), (0x2000, 0x200A),
    (0x2028, 0x2029), (0x202F, 0x202F), (0x205F, 0x205F), (0x3000, 0x3000)]

def isBlank (char : Char) : Bool :=
  whiteSpaceRanges.any fun (first, last) => first ≤ char.toNat && char.toNat ≤ last

namespace Text

def trimChars (chars : List Char) : List Char :=
  ((chars.dropWhile isBlank).reverse.dropWhile isBlank).reverse

def trim (text : String) : String :=
  String.ofList (trimChars text.toList)

/-- The lines that line feeds separate; there is one more line than line feeds. -/
def lines (chars : List Char) : List (List Char) :=
  chars.foldr
    (fun char lines =>
      if char = '\n' then [] :: lines
      else
        match lines with
        | [] => [[char]]
        | line :: rest => (char :: line) :: rest)
    [[]]

def unlines (lines : List (List Char)) : List Char :=
  List.intercalate ['\n'] lines

def trimLines (text : String) : String :=
  String.ofList (trimChars (unlines ((lines text.toList).map trimChars)))

end Text

end ToolContract
