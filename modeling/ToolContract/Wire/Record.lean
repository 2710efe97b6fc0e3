import ToolContract.Wire.Basic

/-!
# Decoding records

A grammar says which fields each type of record has and how their values are written. Decoding
yields the known fields in the order in which they were written; a field that is written several
times is there several times. Nesting is limited by a number of levels, of which every record
entered takes one, and every group that is passed over.
-/

set_option autoImplicit false

namespace ToolContract

inductive FieldType (τ : Type) where
  | int32
  | int64
  | uint64
  | bool
  | double
  | text
  | bytes
  | record (type : τ)
  deriving DecidableEq, Repr

structure FieldRule (τ : Type) where
  type : FieldType τ
  repeated : Bool := false
  deriving DecidableEq, Repr

abbrev Grammar (τ : Type) := τ → Nat → Option (FieldRule τ)

inductive WireValue where
  | int (value : Int)
  | text (text : String)
  | bytes (bytes : List UInt8)
  | record (fields : List (Nat × WireValue))
  deriving Repr

abbrev WireRecord := List (Nat × WireValue)

namespace FieldType

/-- The number that a varint stands for in a type of number; other types have none. -/
def number? {τ : Type} (varint : Nat) : FieldType τ → Option Int
  | .int32 => some (Int.bmod varint (Nat.pow 2 32))
  | .int64 => some (Int.bmod varint (Nat.pow 2 64))
  | .uint64 => some varint
  | .bool => some (if varint = 0 then 0 else 1)
  | _ => none

end FieldType

namespace WireReader

open Reader

def utf8 (bytes : List UInt8) : Except WireError String :=
  match String.fromUTF8? ⟨bytes.toArray⟩ with
  | some text => .ok text
  | none => .error .notUtf8

/-- Reads the values of a number field: one varint, or if the field holds a list also a run of
varints with its length before it. -/
def numbers (number : Nat) (repeated : Bool) (type : WireType) (convert : Nat → Int) :
    WireReader (List WireValue) :=
  if type = .varint then do return [.int (convert (← varint))]
  else if repeated ∧ type = .delimited then do
    let packed ← delimited
    let values ← ofExcept (many varint consumes_varint packed)
    return values.map fun value => .int (convert value)
  else fail (.wrongWireType number)

def values {τ : Type} (enter : τ → List UInt8 → Except WireError WireRecord) (number : Nat)
    (rule : FieldRule τ) (type : WireType) : WireReader (List WireValue) :=
  match rule.type with
  | .int32 | .int64 | .uint64 | .bool =>
    numbers number rule.repeated type fun value => (rule.type.number? value).getD 0
  | .double =>
    if type = .fixed64 then do return [.bytes (← exactly 8)] else fail (.wrongWireType number)
  | .text =>
    if type = .delimited then do return [.text (← ofExcept (utf8 (← delimited)))]
    else fail (.wrongWireType number)
  | .bytes =>
    if type = .delimited then do return [.bytes (← delimited)] else fail (.wrongWireType number)
  | .record inner =>
    if type = .delimited then do return [.record (← ofExcept (enter inner (← delimited)))]
    else fail (.wrongWireType number)

/-- Reads a field of a record: the values if it is known, none if it is passed over. -/
def field {τ : Type} (grammar : Grammar τ) (depth : Nat)
    (enter : τ → List UInt8 → Except WireError WireRecord) (type : τ) : WireReader WireRecord := do
  let (number, wireType) ← key
  match grammar type number with
  | some rule => return (← values enter number rule wireType).map fun value => (number, value)
  | none => do
    skipField depth number wireType
    return []

private theorem keeps_numbers (number : Nat) (repeated : Bool) (type : WireType)
    (convert : Nat → Int) :
    Keeps (numbers number repeated type convert) := by
  simp only [numbers]
  split
  · exact (consumes_varint.bind fun _ => keeps_pure _).keeps
  · split
    · exact (consumes_delimited.bind fun _ =>
        (keeps_ofExcept _).bind fun _ => keeps_pure _).keeps
    · exact (consumes_fail _).keeps

private theorem keeps_values {τ : Type} (enter : τ → List UInt8 → Except WireError WireRecord)
    (number : Nat) (rule : FieldRule τ) (type : WireType) :
    Keeps (values enter number rule type) := by
  simp only [values]
  split
  case h_5 =>
    split
    · exact ((consumes_exactly (by decide)).bind fun _ => keeps_pure _).keeps
    · exact (consumes_fail _).keeps
  case h_6 =>
    split
    · exact (consumes_delimited.bind fun _ =>
        (keeps_ofExcept _).bind fun _ => keeps_pure _).keeps
    · exact (consumes_fail _).keeps
  case h_7 =>
    split
    · exact (consumes_delimited.bind fun _ => keeps_pure _).keeps
    · exact (consumes_fail _).keeps
  case h_8 =>
    split
    · exact (consumes_delimited.bind fun _ =>
        (keeps_ofExcept _).bind fun _ => keeps_pure _).keeps
    · exact (consumes_fail _).keeps
  all_goals exact keeps_numbers _ _ _ _

theorem consumes_field {τ : Type} (grammar : Grammar τ) (depth : Nat)
    (enter : τ → List UInt8 → Except WireError WireRecord) (type : τ) :
    Consumes (field grammar depth enter type) := by
  refine consumes_key.bind fun (number, wireType) => ?_
  dsimp only
  split
  · exact (keeps_values _ _ _ _).bind fun _ => keeps_pure _
  · exact (keeps_skipField _ _ _).bind fun _ => keeps_pure _

end WireReader

namespace Grammar

/-- The fields of a record with `depth` levels below it, records in it decoded by `enter`. -/
def decodeWith {τ : Type} (grammar : Grammar τ) (depth : Nat)
    (enter : τ → List UInt8 → Except WireError WireRecord) (type : τ) (bytes : List UInt8) :
    Except WireError WireRecord :=
  match Reader.many (WireReader.field grammar depth enter type)
      (WireReader.consumes_field grammar depth enter type) bytes with
  | .ok fields => .ok fields.flatten
  | .error cause => .error cause

def decodeAt {τ : Type} (grammar : Grammar τ) :
    Nat → τ → List UInt8 → Except WireError WireRecord
  | 0 => grammar.decodeWith 0 fun _ _ => .error .tooDeep
  | depth + 1 => grammar.decodeWith (depth + 1) (grammar.decodeAt depth)

def levels : Nat := 100

def decode {τ : Type} (grammar : Grammar τ) (type : τ) (bytes : List UInt8) :
    Except WireError WireRecord :=
  grammar.decodeAt levels type bytes

end Grammar

namespace WireRecord

def values (record : WireRecord) (number : Nat) : List WireValue :=
  record.filterMap fun field => if field.1 = number then some field.2 else none

def int? (record : WireRecord) (number : Nat) : Option Int :=
  (record.values number).reverse.findSome? fun
    | .int value => some value
    | _ => none

def ints (record : WireRecord) (number : Nat) : List Int :=
  (record.values number).filterMap fun
    | .int value => some value
    | _ => none

def text? (record : WireRecord) (number : Nat) : Option String :=
  (record.values number).reverse.findSome? fun
    | .text text => some text
    | _ => none

def text (record : WireRecord) (number : Nat) : String :=
  (record.text? number).getD ""

def flag (record : WireRecord) (number : Nat) : Bool :=
  record.int? number = some 1

def records (record : WireRecord) (number : Nat) : List WireRecord :=
  (record.values number).filterMap fun
    | .record fields => some fields
    | _ => none

/-- The record of a field that holds only one. One that is written several times is merged: its
later fields follow its earlier ones. -/
def merged (record : WireRecord) (number : Nat) : WireRecord :=
  (record.records number).flatten

theorem sizeOf_lt_of_mem_records {record inner : WireRecord} {number : Nat}
    (member : inner ∈ record.records number) : sizeOf inner < sizeOf record := by
  simp only [records, values, List.filterMap_filterMap, List.mem_filterMap] at member
  obtain ⟨⟨_, value⟩, found, chosen⟩ := member
  have smaller := List.sizeOf_lt_of_mem found
  simp only [Option.bind_eq_some_iff] at chosen
  obtain ⟨kept, selected, shape⟩ := chosen
  split at selected
  · simp only [Option.some.injEq] at selected
    subst selected
    split at shape
    · simp only [Option.some.injEq] at shape
      subst shape
      simp only [Prod.mk.sizeOf_spec, WireValue.record.sizeOf_spec] at smaller
      omega
    · simp at shape
  · simp at selected

end WireRecord

end ToolContract
