import ToolContract.Reader

/-!
# Reading the wire format

The wire format writes a message as a run of fields, each a key and a value. Fields that are not
known are passed over by their wire types alone.
-/

set_option autoImplicit false

namespace ToolContract

inductive WireError where
  | truncated
  | varintTooLong
  | keyTooLarge
  | fieldZero
  | unknownWireType (code : Nat)
  | wrongWireType (field : Nat)
  | notUtf8
  /-- A group ends that was not begun, or one ends inside another. -/
  | unmatchedGroup
  | tooDeep
  deriving DecidableEq, Repr

abbrev WireReader := Reader UInt8 WireError

namespace WireReader

open Reader

/-! ## Values -/

/-- Reads a varint of which `position` bytes that make up `value` have been read. Each byte carries
seven bits, the lowest first, and all but the last byte are 128 or more. The tenth byte can carry
only the last of 64 bits. -/
def varintFrom (position value : Nat) : WireReader Nat
  | [] => .error .truncated
  | byte :: rest =>
    let total := value + byte.toNat % 128 * Nat.pow 128 position
    if position = 9 ∧ 1 < byte.toNat then .error .varintTooLong
    else if byte.toNat < 128 then .ok (total, rest)
    else varintFrom (position + 1) total rest

def varint : WireReader Nat :=
  varintFrom 0 0

def exactly (count : Nat) : WireReader (List UInt8) := fun bytes =>
  let (taken, rest) := bytes.splitAt count
  if taken.length = count then .ok (taken, rest) else .error .truncated

def delimited : WireReader (List UInt8) := do
  exactly (← varint)

private theorem consumes_varintFrom (position value : Nat) :
    Consumes (varintFrom position value) := by
  intro bytes total rest read
  induction bytes generalizing position value with
  | nil => cases read
  | cons byte bytes ih =>
    simp only [varintFrom] at read
    split at read
    · cases read
    · split at read
      · cases read
        exact Nat.lt_succ_self _
      · exact Nat.lt_succ_of_lt (ih _ _ read)

theorem consumes_varint : Consumes varint :=
  consumes_varintFrom 0 0

private theorem length_of_exactly {count : Nat} {bytes taken rest : List UInt8}
    (read : exactly count bytes = .ok (taken, rest)) : rest.length + count = bytes.length := by
  simp only [exactly, List.splitAt_eq] at read
  split at read
  · rename_i enough
    cases read
    simp only [List.length_take, List.length_drop] at enough ⊢
    omega
  · cases read

theorem keeps_exactly (count : Nat) : Keeps (exactly count) := by
  intro _ _ _ read
  have := length_of_exactly read
  omega

theorem consumes_exactly {count : Nat} (positive : 0 < count) : Consumes (exactly count) := by
  intro _ _ _ read
  have := length_of_exactly read
  omega

theorem consumes_delimited : Consumes delimited :=
  consumes_varint.bind keeps_exactly

/-! ## Keys -/

inductive WireType where
  | varint
  | fixed64
  | delimited
  | startGroup
  | endGroup
  | fixed32
  deriving DecidableEq, Repr

def WireType.ofCode? : Nat → Option WireType
  | 0 => some .varint
  | 1 => some .fixed64
  | 2 => some .delimited
  | 3 => some .startGroup
  | 4 => some .endGroup
  | 5 => some .fixed32
  | _ => none

def ofKey (key : Nat) : Except WireError (Nat × WireType) :=
  if Nat.pow 2 32 ≤ key then .error .keyTooLarge
  else
    match WireType.ofCode? (key % 8) with
    | none => .error (.unknownWireType (key % 8))
    | some type => if key / 8 = 0 then .error .fieldZero else .ok (key / 8, type)

def key : WireReader (Nat × WireType) := do
  ofExcept (ofKey (← varint))

theorem consumes_key : Consumes key :=
  consumes_varint.bind fun value => keeps_ofExcept (ofKey value)

/-! ## Fields that are passed over -/

def skipValue : WireType → WireReader Unit
  | .varint => do let _ ← varint
  | .fixed64 => do let _ ← exactly 8
  | .fixed32 => do let _ ← exactly 4
  | .delimited => do let _ ← delimited
  | .startGroup | .endGroup => fail .unmatchedGroup

private theorem consumes_skipValue (type : WireType) : Consumes (skipValue type) := by
  cases type with
  | varint => exact consumes_varint.bind fun _ => keeps_pure ()
  | fixed64 => exact (consumes_exactly (by decide)).bind fun _ => keeps_pure ()
  | fixed32 => exact (consumes_exactly (by decide)).bind fun _ => keeps_pure ()
  | delimited => exact consumes_delimited.bind fun _ => keeps_pure ()
  | startGroup => exact consumes_fail _
  | endGroup => exact consumes_fail _

/-- Passes over the rest of the groups that are open, the innermost first. Each field inside them
takes one of the `depth` levels for each group that it is in. -/
def skipGroups (depth : Nat) (groups : List Nat) : WireReader Unit := fun bytes =>
  match groups with
  | [] => .ok ((), bytes)
  | group :: outer =>
    match _foundKey : key bytes with
    | .error cause => .error cause
    | .ok ((number, type), rest) =>
      if type = .endGroup then
        if number = group then skipGroups depth outer rest else .error .unmatchedGroup
      else if depth ≤ outer.length + 1 then .error .tooDeep
      else if type = .startGroup then skipGroups depth (number :: group :: outer) rest
      else
        match _skipped : skipValue type rest with
        | .error cause => .error cause
        | .ok ((), after) => skipGroups depth (group :: outer) after
termination_by bytes => bytes.length
decreasing_by
  · exact consumes_key _foundKey
  · exact consumes_key _foundKey
  · exact Nat.lt_trans (consumes_skipValue type _skipped) (consumes_key _foundKey)

theorem keeps_skipGroups (depth : Nat) (groups : List Nat) : Keeps (skipGroups depth groups) := by
  intro bytes value rest read
  fun_induction skipGroups depth groups bytes with
  | case1 =>
    cases read
    exact Nat.le_refl _
  | case2 => cases read
  | case3 =>
    rename_i ih
    exact Nat.le_trans (ih read) (Nat.le_of_lt (consumes_key (by assumption)))
  | case4 => cases read
  | case5 => cases read
  | case6 =>
    rename_i ih
    exact Nat.le_trans (ih read) (Nat.le_of_lt (consumes_key (by assumption)))
  | case7 => cases read
  | case8 =>
    rename_i skipped ih
    exact Nat.le_trans (ih read)
      (Nat.le_of_lt (Nat.lt_trans (consumes_skipValue _ skipped) (consumes_key (by assumption))))

/-- Passes over the value of a field of that number, with `depth` levels left. -/
def skipField (depth : Nat) (number : Nat) (type : WireType) : WireReader Unit :=
  if depth = 0 then fail .tooDeep
  else if type = .startGroup then skipGroups depth [number]
  else skipValue type

theorem keeps_skipField (depth number : Nat) (type : WireType) :
    Keeps (skipField depth number type) := by
  unfold skipField
  by_cases spent : depth = 0
  · rw [if_pos spent]
    exact (consumes_fail _).keeps
  · rw [if_neg spent]
    by_cases starts : type = .startGroup
    · rw [if_pos starts]
      exact keeps_skipGroups depth [number]
    · rw [if_neg starts]
      exact (consumes_skipValue type).keeps

end WireReader

end ToolContract
