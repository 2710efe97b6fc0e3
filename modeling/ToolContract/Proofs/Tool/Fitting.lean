import ToolContract.Proofs.Tool.Name

/-!
# Names cut to their limit

Over its limit a name is cut by counting bytes: lengths are subtracted, the cut moves on to where a
character begins, and texts are split at byte offsets. Each of these steps can go wrong, and here
none does (`fitByBytes?`): what they come to is the digits of the digest, one for each half of a
byte, and the longest tail that fits behind them (`ToolName.fitted_name`).
-/

set_option autoImplicit false

namespace ToolContract.ToolName

/-! ## Splitting a text at a byte offset -/

/-- The parts of a text before and behind a byte offset, which must not lie inside a character. -/
def cutAt? (text : String) (offset : Nat) : Option (String × String) :=
  if valid : (⟨offset⟩ : String.Pos.Raw).IsValid text then
    some ((text.sliceTo (text.pos ⟨offset⟩ valid)).copy,
      (text.sliceFrom (text.pos ⟨offset⟩ valid)).copy)
  else none

private theorem isValid_of_append {text front back : String} (split : text = front ++ back) :
    (⟨front.utf8ByteSize⟩ : String.Pos.Raw).IsValid text :=
  String.Pos.Raw.isValid_iff_exists_append.mpr ⟨front, back, split, rfl⟩

private theorem cutAt?_append {text front back : String} (split : text = front ++ back) :
    cutAt? text front.utf8ByteSize = some (front, back) := by
  have valid := isValid_of_append split
  have cut := (text.pos _ valid).splits
  have given : (text.pos _ valid).Splits front back := ⟨split, rfl⟩
  rw [cutAt?, dif_pos valid, cut.eq_left given, cut.eq_right given]

/-- A text has one split at an offset. -/
theorem parts_unique {text front back otherFront otherBack : String} (split : text = front ++ back)
    (otherSplit : text = otherFront ++ otherBack)
    (sizes : front.utf8ByteSize = otherFront.utf8ByteSize) :
    front = otherFront ∧ back = otherBack := by
  have cut := cutAt?_append split
  rw [sizes, cutAt?_append otherSplit] at cut
  exact Prod.mk.inj (Option.some.inj cut.symm)

private theorem exists_cut {text : String} {offset : Nat}
    (valid : (⟨offset⟩ : String.Pos.Raw).IsValid text) :
    ∃ front back, text = front ++ back ∧ front.utf8ByteSize = offset ∧
      cutAt? text offset = some (front, back) := by
  obtain ⟨front, back, split, position⟩ := String.Pos.Raw.isValid_iff_exists_append.mp valid
  obtain rfl : offset = front.utf8ByteSize := congrArg String.Pos.Raw.byteIdx position
  exact ⟨front, back, split, rfl, cutAt?_append split⟩

/-! ## The longest tail -/

/-- Of the texts that the name ends in and that take at most `room` bytes, the longest. -/
structure LongestTail (room : Nat) (name tail : String) : Prop where
  ends : ∃ front, name = front ++ tail
  fits : tail.utf8ByteSize ≤ room
  longest : ∀ front other, name = front ++ other → other.utf8ByteSize ≤ room →
    other.utf8ByteSize ≤ tail.utf8ByteSize

private theorem LongestTail.unique {room : Nat} {name left right : String}
    (leftLongest : LongestTail room name left) (rightLongest : LongestTail room name right) :
    left = right := by
  obtain ⟨leftFront, leftSplit⟩ := leftLongest.ends
  obtain ⟨rightFront, rightSplit⟩ := rightLongest.ends
  have tails : left.utf8ByteSize = right.utf8ByteSize := by
    apply Nat.le_antisymm
    · exact rightLongest.longest leftFront left leftSplit leftLongest.fits
    · exact leftLongest.longest rightFront right rightSplit rightLongest.fits
  have fronts : leftFront.utf8ByteSize = rightFront.utf8ByteSize := by
    have sizes := congrArg String.utf8ByteSize (leftSplit.symm.trans rightSplit)
    rw [String.utf8ByteSize_append, String.utf8ByteSize_append] at sizes
    omega
  exact (parts_unique leftSplit rightSplit fronts).2

/-! ### The tail that characters are dropped for -/

private theorem dropToFit_suffix (limit size : Nat) (chars : List Char) :
    dropToFit limit size chars <:+ chars := by
  induction chars generalizing size with
  | nil => exact List.suffix_rfl
  | cons char rest ih =>
    rw [dropToFit]
    split
    · exact List.suffix_rfl
    · exact (ih _).trans (List.suffix_cons char rest)

private theorem byteLength_le_of_suffix {left right : List Char} (suffix : left <:+ right) :
    byteLength left ≤ byteLength right := by
  obtain ⟨front, rfl⟩ := suffix
  rw [byteLength_append]
  exact Nat.le_add_left _ _

/-- Every tail that fits is a tail of what characters are dropped for. -/
theorem byteLength_le_dropToFit {limit : Nat} {chars other : List Char} (suffix : other <:+ chars)
    (fits : byteLength other ≤ limit) :
    byteLength other ≤ byteLength (dropToFit limit (byteLength chars) chars) := by
  induction chars with
  | nil => exact byteLength_le_of_suffix suffix
  | cons char rest ih =>
    rw [dropToFit]
    split
    · exact byteLength_le_of_suffix suffix
    · rename_i longer
      rcases List.suffix_cons_iff.mp suffix with whole | inside
      · rw [whole] at fits
        contradiction
      · rw [byteLength, Nat.add_sub_cancel_left]
        exact ih inside

private theorem longestTail_tail (room : Nat) (name : String) :
    LongestTail room name (String.ofList (tail room name)) := by
  have dropped : tail room name = dropToFit room (byteLength name.toList) name.toList := by
    rw [tail, byteLength_toList]
  refine ⟨?_, ?_, ?_⟩
  · obtain ⟨front, split⟩ := dropToFit_suffix room (byteLength name.toList) name.toList
    refine ⟨String.ofList front, ?_⟩
    rw [dropped, ← String.ofList_append, split, String.ofList_toList]
  · rw [utf8ByteSize_ofList, dropped]
    exact byteLength_dropToFit_le room name.toList
  · rintro front other rfl fits
    rw [← byteLength_toList] at fits ⊢
    rw [utf8ByteSize_ofList, dropped]
    apply byteLength_le_dropToFit _ fits
    rw [String.toList_append]
    exact List.suffix_append _ _

/-! ### The tail that the bytes are scanned for -/

/-- The first offset from `offset` on at which a character begins or the text ends. -/
def boundaryFrom? (text : String) (offset : Nat) : Option Nat :=
  if (⟨offset⟩ : String.Pos.Raw).IsValid text then some offset
  else if offset < text.utf8ByteSize then boundaryFrom? text (offset + 1) else none
termination_by text.utf8ByteSize - offset

private theorem boundaryFrom?_of_le {text : String} {offset : Nat}
    (inside : offset ≤ text.utf8ByteSize) :
    ∃ boundary, boundaryFrom? text offset = some boundary ∧ offset ≤ boundary ∧
      (⟨boundary⟩ : String.Pos.Raw).IsValid text ∧
      ∀ other, offset ≤ other → (⟨other⟩ : String.Pos.Raw).IsValid text → boundary ≤ other := by
  fun_induction boundaryFrom? text offset with
  | case1 offset valid => exact ⟨offset, rfl, Nat.le_refl _, valid, fun _ later _ => later⟩
  | case2 offset invalid before ih =>
    obtain ⟨boundary, found, after, valid, first⟩ := ih before
    refine ⟨boundary, found, Nat.le_of_succ_le after, valid, fun other later otherValid => ?_⟩
    apply first other _ otherValid
    apply Nat.lt_of_le_of_ne later
    rintro rfl
    exact invalid otherValid
  | case3 offset invalid beyond =>
    -- the end of the text is a boundary
    obtain rfl : offset = text.utf8ByteSize := by omega
    exact absurd String.Pos.Raw.isValid_rawEndPos invalid

/-- The scan starts where as many bytes are left as there is room for, and ends at the longest
tail. -/
theorem exists_scanned_tail {room : Nat} {name : String} (enough : room ≤ name.utf8ByteSize) :
    ∃ boundary front tail, boundaryFrom? name (name.utf8ByteSize - room) = some boundary ∧
      cutAt? name boundary = some (front, tail) ∧ LongestTail room name tail := by
  obtain ⟨boundary, found, after, valid, first⟩ :=
    boundaryFrom?_of_le (Nat.sub_le name.utf8ByteSize room)
  obtain ⟨front, tail, split, rfl, cut⟩ := exists_cut valid
  have size := congrArg String.utf8ByteSize split
  rw [String.utf8ByteSize_append] at size
  refine ⟨_, front, tail, found, cut, ⟨front, split⟩, by omega, ?_⟩
  intro otherFront other otherSplit fits
  have otherSize := congrArg String.utf8ByteSize otherSplit
  rw [String.utf8ByteSize_append] at otherSize
  have order := first otherFront.utf8ByteSize (by omega) (isValid_of_append otherSplit)
  omega

/-! ## The digits of the digest -/

/-- The digits to the base sixteen, in the order of their values. -/
def hexAlphabet : List Char :=
  "0123456789abcdef".toList

/-- The value of half a byte at the index, where each byte has its higher half first. -/
def halfByte? (bytes : List UInt8) (index : Nat) : Option Nat :=
  bytes[index / 2]?.map fun byte => if index % 2 = 0 then byte.toNat / 16 else byte.toNat % 16

def nameDigest (name : String) : List UInt8 :=
  Sha256.digest name.toUTF8.toList

/-- The text writes the first `count` half bytes of the digest of the name, with one digit for
each. -/
structure WritesDigest (name : String) (count : Nat) (text : String) : Prop where
  length : text.toList.length = count
  digit : ∀ index < count, ∃ half, halfByte? (nameDigest name) index = some half ∧
    text.toList[index]? = hexAlphabet[half]?

private theorem WritesDigest.unique {name left right : String} {count : Nat}
    (leftWrites : WritesDigest name count left) (rightWrites : WritesDigest name count right) :
    left = right := by
  refine String.toList_injective (List.ext_getElem? fun index => ?_)
  by_cases inside : index < count
  · obtain ⟨half, atIndex, leftDigit⟩ := leftWrites.digit index inside
    obtain ⟨again, same, rightDigit⟩ := rightWrites.digit index inside
    obtain rfl := Option.some.inj (same.symm.trans atIndex)
    rw [leftDigit, rightDigit]
  · rw [Nat.not_lt] at inside
    rw [List.getElem?_eq_none (leftWrites.length.trans_le inside),
      List.getElem?_eq_none (rightWrites.length.trans_le inside)]

/-- Different halves have different digits. -/
theorem WritesDigest.halfByte?_eq {name other text : String} {count : Nat}
    (writes : WritesDigest name count text) (otherWrites : WritesDigest other count text) :
    ∀ index < count, halfByte? (nameDigest name) index = halfByte? (nameDigest other) index := by
  intro index inside
  obtain ⟨half, atIndex, digit⟩ := writes.digit index inside
  obtain ⟨otherHalf, otherAtIndex, otherDigit⟩ := otherWrites.digit index inside
  have distinct : hexAlphabet.Nodup := by decide
  have written : index < text.toList.length := writes.length ▸ inside
  have shown : hexAlphabet[half]? = some text.toList[index] :=
    digit.symm.trans (List.getElem?_eq_getElem written)
  obtain ⟨listed, -⟩ := List.getElem?_eq_some_iff.mp shown
  rw [atIndex, otherAtIndex, (List.getElem?_inj listed distinct).mp (digit.symm.trans otherDigit)]

/-- The first `count` digits of the digest of a name. -/
def digits (name : String) (count : Nat) : String :=
  String.ofList ((hex (nameDigest name)).take count)

private theorem length_hex (bytes : List UInt8) : (hex bytes).length = 2 * bytes.length := by
  simp [hex, List.length_flatMap, Nat.mul_comm]

private theorem hexDigit_eq : ∀ half < 16, some (hexDigit half) = hexAlphabet[half]? := by
  decide

/-- What is written of bytes has the digit of each half byte at its index. -/
theorem getElem?_hex (bytes : List UInt8) (index : Nat) :
    (hex bytes)[index]? = (halfByte? bytes index).bind fun half => hexAlphabet[half]? := by
  induction bytes generalizing index with
  | nil => rfl
  | cons byte rest ih =>
    have small := byte.toNat_lt
    rcases index with _ | _ | index
    · exact hexDigit_eq (byte.toNat / 16) (by omega)
    · exact hexDigit_eq (byte.toNat % 16) (by omega)
    · have later : halfByte? (byte :: rest) (index + 2) = halfByte? rest index := by
        rw [halfByte?, halfByte?, Nat.add_div_right index (by decide), Nat.add_mod_right]
        rfl
      rw [later]
      exact ih index

/-- There are two half bytes for each byte. -/
theorem exists_halfByte {bytes : List UInt8} {index : Nat} (inside : index < 2 * bytes.length) :
    ∃ half, halfByte? bytes index = some half := by
  have listed : index / 2 < bytes.length := by omega
  rw [halfByte?, List.getElem?_eq_getElem listed]
  exact ⟨_, rfl⟩

private theorem writesDigest_digits (name : String) {count : Nat} (small : count ≤ 64) :
    WritesDigest name count (digits name count) := by
  have size : (nameDigest name).length = 32 := Sha256.length_digest _
  constructor
  case length =>
    rw [digits, String.toList_ofList, List.length_take, length_hex, size]
    omega
  case digit =>
    intro index inside
    obtain ⟨half, atIndex⟩ : ∃ half, halfByte? (nameDigest name) index = some half :=
      exists_halfByte (by omega)
    refine ⟨half, atIndex, ?_⟩
    rw [digits, String.toList_ofList, List.getElem?_take_of_lt inside, getElem?_hex, atIndex,
      Option.bind_some]

private theorem length_digestHead (name : String) : (digestHead name).length = digestDigits := by
  rw [digestHead, List.length_take, length_hex, Sha256.length_digest]
  rfl

private theorem utf8ByteSize_ofList_of_small {chars : List Char}
    (small : ∀ char ∈ chars, char.utf8Size = 1) :
    (String.ofList chars).utf8ByteSize = chars.length := by
  rw [utf8ByteSize_ofList, byteLength_eq_length small]

/-- The text cut to at most `size` bytes, where the cut must not lie inside a character. -/
def truncate? (text : String) (size : Nat) : Option String :=
  if size ≤ text.utf8ByteSize then (cutAt? text size).map Prod.fst else some text

/-- Characters of one byte can be cut anywhere. -/
theorem truncate?_ofList {chars : List Char} (small : ∀ char ∈ chars, char.utf8Size = 1)
    (size : Nat) : truncate? (String.ofList chars) size = some (String.ofList (chars.take size)) := by
  rw [truncate?, utf8ByteSize_ofList_of_small small]
  split
  · rename_i inside
    have split : String.ofList chars =
        String.ofList (chars.take size) ++ String.ofList (chars.drop size) := by
      rw [← String.ofList_append, List.take_append_drop]
    have front : (String.ofList (chars.take size)).utf8ByteSize = size := by
      rw [utf8ByteSize_ofList_of_small fun char member => small char (List.mem_of_mem_take member),
        List.length_take, Nat.min_eq_left inside]
    have cut := cutAt?_append split
    rw [front] at cut
    rw [cut, Option.map_some]
  · rename_i beyond
    rw [List.take_of_length_le (Nat.le_of_not_le beyond)]

/-! ## Fitting by bytes -/

/-- The halves of the bytes by a shift and a mask of each. -/
def halfBytes (bytes : List UInt8) : List UInt8 :=
  bytes.flatMap fun byte : UInt8 => [byte >>> 4, byte &&& 0x0f]

/-- The digits of the bytes, looked up in the alphabet; none if there is no digit of an index. -/
def hexByTable? (bytes : List UInt8) : Option (List Char) :=
  (halfBytes bytes).mapM fun half => hexAlphabet[half.toNat]?

/-- Every half byte has a digit. -/
theorem hexByTable?_eq (bytes : List UInt8) : hexByTable? bytes = some (hex bytes) := by
  induction bytes with
  | nil => rfl
  | cons byte rest ih =>
    have small := byte.toNat_lt
    have high : hexAlphabet[(byte >>> 4).toNat]? = some (hexDigit (byte.toNat / 16)) := by
      rw [hexDigit_eq _ (by omega)]
      simp [Nat.shiftRight_eq_div_pow]
    have low : hexAlphabet[(byte &&& 0x0f).toNat]? = some (hexDigit (byte.toNat % 16)) := by
      rw [hexDigit_eq _ (by omega), UInt8.toNat_and]
      exact congrArg (hexAlphabet[·]?) (Nat.and_two_pow_sub_one_eq_mod byte.toNat 4)
    have halves : halfBytes (byte :: rest) = (byte >>> 4) :: (byte &&& 0x0f) :: halfBytes rest := rfl
    rw [hexByTable?] at ih
    rw [hexByTable?, halves, List.mapM_cons, List.mapM_cons, high, low, ih]
    rfl

/-- The difference of two lengths, of which the second must not be the larger one. -/
def subtract? (left right : Nat) : Option Nat :=
  if right ≤ left then some (left - right) else none

private theorem subtract?_of_le {left right : Nat} (le : right ≤ left) :
    subtract? left right = some (left - right) :=
  if_pos le

/-- The name within the limit, with every step in bytes; none if a half byte has no digit, a length
gets below zero, a scan runs past the end, or a cut lies inside a character. -/
def fitByBytes? (name : String) (limit : Nat) : Option String :=
  if name.utf8ByteSize ≤ limit then some name
  else do
    let written ← hexByTable? (nameDigest name)
    let head ← truncate? (String.ofList written) digestDigits
    if limit ≤ digestDigits + 1 then truncate? head limit
    else
      let behindHead ← subtract? limit digestDigits
      let room ← subtract? behindHead 1
      let start ← subtract? name.utf8ByteSize room
      let boundary ← boundaryFrom? name start
      let (_, tail) ← cutAt? name boundary
      return head ++ "_" ++ tail

private theorem fit_of_le {name : String} {limit : Nat} (fits : name.utf8ByteSize ≤ limit) :
    fit name limit = name :=
  if_pos fits

private theorem fit_of_small_limit {name : String} {limit : Nat}
    (longer : limit < name.utf8ByteSize)
    (small : limit ≤ digestDigits + 1) :
    fit name limit = String.ofList ((digestHead name).take limit) := by
  rw [fit, if_neg (Nat.not_le_of_lt longer), if_pos small]

private theorem fit_of_longer {name : String} {limit : Nat} (longer : limit < name.utf8ByteSize)
    (large : digestDigits + 1 < limit) :
    fit name limit = digits name digestDigits ++ "_" ++
      String.ofList (tail (limit - digestDigits - 1) name) := by
  have separated (chars : List Char) : String.ofList ('_' :: chars) = "_" ++ String.ofList chars := by
    rw [← List.singleton_append, String.ofList_append]
  rw [fit, if_neg (Nat.not_le_of_lt longer), if_neg (Nat.not_le_of_lt large), String.ofList_append,
    separated, String.append_assoc]
  rfl

/-- Fitting by bytes never goes wrong. -/
theorem fitByBytes?_eq (name : String) (limit : Nat) :
    fitByBytes? name limit = some (fit name limit) := by
  rw [fitByBytes?]
  split
  · rename_i fits
    rw [fit_of_le fits]
  · rename_i longer
    rw [Nat.not_le] at longer
    have head : truncate? (String.ofList (hex (nameDigest name))) digestDigits =
        some (digits name digestDigits) := truncate?_ofList (fun _ => utf8Size_of_mem_hex) _
    simp only [hexByTable?_eq, head, Option.bind_eq_bind, Option.bind_some]
    split
    · rename_i small
      rw [fit_of_small_limit longer small]
      exact truncate?_ofList (fun _ => utf8Size_of_mem_digestHead) limit
    · rename_i large
      rw [Nat.not_le] at large
      have room : limit - digestDigits - 1 ≤ name.utf8ByteSize := by omega
      have first := subtract?_of_le (Nat.le_of_lt (Nat.lt_of_succ_lt large))
      have second : subtract? (limit - digestDigits) 1 = some (limit - digestDigits - 1) :=
        subtract?_of_le (by omega)
      have third : subtract? name.utf8ByteSize (limit - digestDigits - 1) =
          some (name.utf8ByteSize - (limit - digestDigits - 1)) := subtract?_of_le room
      obtain ⟨boundary, front, tail, found, cut, longest⟩ := exists_scanned_tail room
      simp only [first, second, third, found, cut, Option.bind_some]
      rw [fit_of_longer longer large, longest.unique (longestTail_tail _ name)]
      rfl

private theorem utf8ByteSize_digits (name : String) :
    (digits name digestDigits).utf8ByteSize = digestDigits := by
  have small : ∀ char ∈ digestHead name, char.utf8Size = 1 := fun _ => utf8Size_of_mem_digestHead
  exact (utf8ByteSize_ofList_of_small small).trans (length_digestHead name)

/-! ## Fitted names -/

/-- A fitted name takes at most as many bytes as the limit, and fitting it by bytes never goes
wrong. It is the name itself exactly if that is within the limit, so fitting twice is fitting once.
Over a limit of at most eleven bytes it is digits of the digest only, ten or as many as the limit
allows. Over a larger limit it is ten digits, a separator and the longest tail of the name for which
there is room; so two such names are fitted alike only if their digests agree in the half bytes of
ten digits. -/
theorem fitted_name (name : String) (limit : Nat) :
    (fit name limit).utf8ByteSize ≤ limit ∧
    fitByBytes? name limit = some (fit name limit) ∧
    (fit name limit = name ↔ name.utf8ByteSize ≤ limit) ∧
    fit (fit name limit) limit = fit name limit ∧
    (limit < name.utf8ByteSize → limit ≤ 11 →
      WritesDigest name (min limit 10) (fit name limit)) ∧
    (limit < name.utf8ByteSize → 12 ≤ limit → ∃ head tail, WritesDigest name 10 head ∧
      LongestTail (limit - 11) name tail ∧ fit name limit = head ++ "_" ++ tail) ∧
    ∀ other, limit < name.utf8ByteSize → limit < other.utf8ByteSize → 12 ≤ limit →
      fit name limit = fit other limit →
      ∀ index < 10, halfByte? (nameDigest name) index = halfByte? (nameDigest other) index := by
  have within := utf8ByteSize_fit_le name limit
  refine ⟨within, fitByBytes?_eq name limit, ⟨fun same => same ▸ within, fit_of_le⟩, fit_of_le within,
    ?digitsOnly, ?withTail, ?alike⟩
  case digitsOnly =>
    intro longer small
    have head : fit name limit = digits name (min limit 10) := by
      rw [fit_of_small_limit longer small, digestHead, List.take_take]
      rfl
    rw [head]
    exact writesDigest_digits name (by omega)
  case withTail =>
    intro longer large
    exact ⟨_, _, writesDigest_digits name (by decide), longestTail_tail (limit - 11) name,
      fit_of_longer longer large⟩
  case alike =>
    intro other longer otherLonger large same
    rw [fit_of_longer longer large, fit_of_longer otherLonger large, String.append_assoc,
      String.append_assoc] at same
    -- the digits of both names take ten bytes, and a text has one split there
    have sizes := (utf8ByteSize_digits name).trans (utf8ByteSize_digits other).symm
    have heads : digits name 10 = digits other 10 := (parts_unique rfl same sizes).1
    have writes : WritesDigest name 10 (digits name 10) := writesDigest_digits name (by decide)
    refine writes.halfByte?_eq ?_
    rw [heads]
    exact writesDigest_digits other (by decide)

/-! ### A cut inside a character -/

namespace Accented

/-- A name whose ninth byte from the end is the second one of a character. -/
def name : String := String.ofList (List.replicate 70 'z') ++ "é_Method"

def bytes : List UInt8 :=
  List.replicate 70 0x7a ++ [0xc3, 0xa9, 0x5f, 0x4d, 0x65, 0x74, 0x68, 0x6f, 0x64]

private theorem digits_name : digits name 10 = "73c1b8bf94" := by
  have encoded : name.toUTF8.toList = bytes := by decide +kernel
  rw [digits, nameDigest, encoded]
  decide +kernel

end Accented

/-- Of nineteen bytes eighteen are used, since the tail would begin inside a character. -/
theorem fitted_name_accented :
    19 < Accented.name.utf8ByteSize ∧ fit Accented.name 19 = "73c1b8bf94__Method" ∧
      fitByBytes? Accented.name 19 = some "73c1b8bf94__Method" ∧
      WritesDigest Accented.name 10 "73c1b8bf94" ∧ LongestTail 8 Accented.name "_Method" := by
  have longer : 19 < Accented.name.utf8ByteSize := by decide +kernel
  obtain ⟨-, byBytes, -, -, -, withTail, -⟩ := fitted_name Accented.name 19
  obtain ⟨head, tail, writes, longest, same⟩ := withTail longer (by decide)
  obtain rfl : head = "73c1b8bf94" := by
    rw [← Accented.digits_name]
    exact writes.unique (writesDigest_digits Accented.name (by decide))
  have cut : ToolName.tail 8 Accented.name = "_Method".toList := by decide +kernel
  obtain rfl : tail = "_Method" := by
    rw [longest.unique (longestTail_tail 8 Accented.name), cut, String.ofList_toList]
  have whole : fit Accented.name 19 = "73c1b8bf94__Method" := same
  exact ⟨longer, whole, whole ▸ byBytes, writes, longest⟩

end ToolContract.ToolName
