import ToolContract.Descriptor.Name
import ToolContract.Digest.Sha256

/-!
# Names of tools

A tool is named after its method, with underscores for the dots of the qualified name. Clients cap
the length of a name, counted in UTF-8 bytes. A name over the limit keeps its tail, which tells the
service and the method, behind the head of a digest of the whole name, so that different long names
stay different unless those digests agree.
-/

set_option autoImplicit false

namespace ToolContract

def defaultNameLimit : Nat := 64

namespace ToolName

def ofMethod (fullName : String) : String :=
  String.ofList
    ((QualifiedName.strip fullName).toList.map fun char => if char = '.' then '_' else char)

def hexDigit (digit : Nat) : Char :=
  if digit < 10 then Char.ofNat ('0'.toNat + digit) else Char.ofNat ('a'.toNat + (digit - 10))

def hex (bytes : List UInt8) : List Char :=
  bytes.flatMap fun byte => [hexDigit (byte.toNat / 16), hexDigit (byte.toNat % 16)]

/-- How many digits of the digest stand for the head of a name. -/
def digestDigits : Nat := 10

def digestHead (name : String) : List Char :=
  (hex (Sha256.digest name.toUTF8.toList)).take digestDigits

def byteLength : List Char → Nat
  | [] => 0
  | char :: rest => char.utf8Size + byteLength rest

/-- Drops characters from the front until at most `limit` bytes are left, where `size` is the byte
length of all. -/
def dropToFit (limit : Nat) : Nat → List Char → List Char
  | _, [] => []
  | size, char :: rest =>
    if size ≤ limit then char :: rest else dropToFit limit (size - char.utf8Size) rest

/-- The longest tail of a name that takes at most `limit` bytes and cuts no character. -/
def tail (limit : Nat) (name : String) : List Char :=
  dropToFit limit name.utf8ByteSize name.toList

/-- The name within `limit` bytes: as it is if it fits, else the digest, a separator and as much of
the tail as there is room for. Where there is no room for a tail the digest stands alone, cut to
the limit. -/
def fit (name : String) (limit : Nat) : String :=
  if name.utf8ByteSize ≤ limit then name
  else if limit ≤ digestDigits + 1 then String.ofList ((digestHead name).take limit)
  else String.ofList (digestHead name ++ '_' :: tail (limit - digestDigits - 1) name)

end ToolName

end ToolContract
