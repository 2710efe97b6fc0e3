import Mathlib.Data.List.Forall2
import ToolContract.Wire.Record

/-!
# Records without a grammar

Bytes are split into fields by their keys and wire types alone. A record that is decoded by some
grammar has its known fields from the fields of the split, at the same positions, and passes over
the others; so what two grammars find in the same bytes can be compared (`Grammar.Decodes.records`,
`Grammar.Decodes.ints`).
-/

set_option autoImplicit false

namespace ToolContract

/-- The value of a field as it is written. -/
inductive RawValue where
  | varint (value : Nat)
  | delimited (bytes : List UInt8)
  /-- A number of fixed width or a group. -/
  | other
  deriving DecidableEq, Repr

abbrev RawRecord := List (Nat × RawValue)

namespace WireReader

open Reader

/-- Reads a value of the wire type, groups as deeply as any record may hold them. -/
def rawValue (number : Nat) : WireType → WireReader RawValue
  | .varint => do return .varint (← varint)
  | .delimited => do return .delimited (← delimited)
  | .fixed64 => do
    let _ ← exactly 8
    return .other
  | .fixed32 => do
    let _ ← exactly 4
    return .other
  | .startGroup => do
    let _ ← skipGroups Grammar.levels [number]
    return .other
  | .endGroup => fail .unmatchedGroup

def rawField : WireReader (Nat × RawValue) := do
  let (number, type) ← key
  return (number, ← rawValue number type)

private theorem keeps_rawValue (number : Nat) (type : WireType) : Keeps (rawValue number type) := by
  cases type with
  | varint => exact (consumes_varint.bind fun _ => keeps_pure _).keeps
  | delimited => exact (consumes_delimited.bind fun _ => keeps_pure _).keeps
  | fixed64 => exact (keeps_exactly 8).bind fun _ => keeps_pure _
  | fixed32 => exact (keeps_exactly 4).bind fun _ => keeps_pure _
  | startGroup => exact (keeps_skipGroups _ _).bind fun _ => keeps_pure _
  | endGroup => exact (consumes_fail _).keeps

private theorem consumes_rawField : Consumes rawField :=
  consumes_key.bind fun (number, type) => (keeps_rawValue number type).bind fun _ => keeps_pure _

end WireReader

namespace RawRecord

/-- The fields in the bytes of a record, none if the bytes are malformed. -/
def ofBytes (bytes : List UInt8) : RawRecord :=
  match Reader.many WireReader.rawField WireReader.consumes_rawField bytes with
  | .ok fields => fields
  | .error _ => []

/-- The bytes of the delimited values of a number. -/
def payloads (record : RawRecord) (number : Nat) : List (List UInt8) :=
  record.filterMap fun field =>
    match field.2 with
    | .delimited bytes => if field.1 = number then some bytes else none
    | _ => none

end RawRecord

def int32OfVarint (value : Nat) : Int :=
  Int.bmod value (Nat.pow 2 32)

private theorem FieldType.number?_int32 {τ : Type} (value : Nat) :
    (FieldType.int32 : FieldType τ).number? value = some (int32OfVarint value) := by
  unfold FieldType.number? int32OfVarint
  rfl

/-- The integers that a value stands for in a list of them: a varint is one, and a delimited value is
a run of varints. -/
def RawValue.ints : RawValue → List Int
  | .varint value => [int32OfVarint value]
  | .delimited packed =>
    match Reader.many WireReader.varint WireReader.consumes_varint packed with
    | .ok values => values.map int32OfVarint
    | .error _ => []
  | .other => []

/-- The integers of a number, each on its own or packed. -/
def RawRecord.ints (record : RawRecord) (number : Nat) : List Int :=
  record.flatMap fun field => if field.1 = number then field.2.ints else []

/-! ## Reading the same bytes -/

namespace WireReader

open Reader

theorem bind_of_ok {α β : Type} {first : WireReader α} {next : α → WireReader β}
    {bytes between : List UInt8} {value : α} (read : first bytes = .ok (value, between)) :
    (first >>= next) bytes = next value between := by
  simp only [bind, read]

private theorem bind_of_error {α β : Type} {first : WireReader α} {next : α → WireReader β}
    {bytes : List UInt8} {cause : WireError} (read : first bytes = .error cause) :
    (first >>= next) bytes = .error cause := by
  simp only [bind, read]

/-- Passing over one field inside the innermost group, or over its end. -/
theorem skipGroups_cons (depth group : Nat) (outer : List Nat) (bytes : List UInt8) :
    skipGroups depth (group :: outer) bytes = (key >>= fun found =>
      if found.2 = .endGroup then
        if found.1 = group then skipGroups depth outer else fail .unmatchedGroup
      else if depth ≤ outer.length + 1 then fail .tooDeep
      else if found.2 = .startGroup then skipGroups depth (found.1 :: group :: outer)
      else skipValue found.2 >>= fun _ => skipGroups depth (group :: outer)) bytes := by
  rw [skipGroups]
  split
  · rename_i cause found
    rw [bind_of_error found]
  · rename_i number type rest found
    rw [bind_of_ok found]
    by_cases ends : type = .endGroup
    · rw [if_pos ends, if_pos ends]
      by_cases same : number = group
      · rw [if_pos same, if_pos same]
      · rw [if_neg same, if_neg same]
        rfl
    rw [if_neg ends, if_neg ends]
    by_cases deep : depth ≤ outer.length + 1
    · rw [if_pos deep, if_pos deep]
      rfl
    rw [if_neg deep, if_neg deep]
    by_cases starts : type = .startGroup
    · rw [if_pos starts, if_pos starts]
    · rw [if_neg starts, if_neg starts]
      split
      · rename_i cause skipped
        rw [bind_of_error skipped]
      · rename_i after skipped
        rw [bind_of_ok skipped]

/-- What is passed over with few levels left is passed over with more. -/
theorem skipGroups_mono {depth more : Nat} (enough : depth ≤ more) {groups : List Nat}
    {bytes rest : List UInt8} (read : skipGroups depth groups bytes = .ok ((), rest)) :
    skipGroups more groups bytes = .ok ((), rest) := by
  fun_induction skipGroups depth groups bytes with
  | case1 bytes =>
    rw [skipGroups]
    exact read
  | case2 => cases read
  | case3 bytes outer number after found ih =>
    rw [skipGroups_cons, bind_of_ok found, if_pos rfl, if_pos rfl]
    exact ih read
  | case4 => cases read
  | case5 => cases read
  | case6 bytes group outer number after shallow found notEnd ih =>
    have shallower : ¬ more ≤ outer.length + 1 := by omega
    rw [skipGroups_cons, bind_of_ok found, if_neg notEnd, if_neg shallower, if_pos rfl]
    exact ih read
  | case7 => cases read
  | case8 bytes group outer number type after found notEnd shallow notStart later skipped ih =>
    have shallower : ¬ more ≤ outer.length + 1 := by omega
    rw [skipGroups_cons, bind_of_ok found, if_neg notEnd, if_neg shallower, if_neg notStart,
      bind_of_ok skipped]
    exact ih read

private theorem rawValue_of_skipField {depth number : Nat} {type : WireType}
    {bytes rest : List UInt8}
    (enough : depth ≤ Grammar.levels)
    (read : skipField depth number type bytes = .ok ((), rest)) :
    ∃ value, rawValue number type bytes = .ok (value, rest) := by
  unfold skipField at read
  split at read
  · cases read
  split at read
  · rename_i starts
    subst starts
    exact ⟨.other, bind_of_ok (skipGroups_mono enough read)⟩
  · cases type with
    | varint =>
      obtain ⟨value, middle, found, last⟩ := bind_eq_ok read
      cases last
      exact ⟨.varint value, bind_of_ok found⟩
    | delimited =>
      obtain ⟨payload, middle, found, last⟩ := bind_eq_ok read
      cases last
      exact ⟨.delimited payload, bind_of_ok found⟩
    | fixed64 | fixed32 =>
      obtain ⟨value, middle, found, last⟩ := bind_eq_ok read
      cases last
      exact ⟨.other, bind_of_ok found⟩
    | startGroup | endGroup => cases read

private theorem ofExcept_eq_ok {α : Type} {result : Except WireError α} {bytes rest : List UInt8}
    {value : α}
    (read : (ofExcept result : WireReader α) bytes = .ok (value, rest)) :
    result = .ok value ∧ rest = bytes := by
  cases result with
  | ok held =>
    cases read
    exact ⟨rfl, rfl⟩
  | error cause => cases read

/-- Converting what was read takes no more bytes. -/
theorem ofExcept_map_eq_ok {α β : Type} {result : Except WireError α} {convert : α → β}
    {bytes rest : List UInt8} {value : β}
    (read : (ofExcept result >>= fun held => pure (convert held) : WireReader β) bytes =
      .ok (value, rest)) :
    ∃ held, result = .ok held ∧ value = convert held ∧ rest = bytes := by
  obtain ⟨held, middle, run, last⟩ := bind_eq_ok read
  obtain ⟨found, rfl⟩ := ofExcept_eq_ok run
  cases last
  exact ⟨held, found, rfl, rfl⟩

private theorem rawValue_of_delimited {α : Type} {number : Nat} {type : WireType}
    {next : List UInt8 → WireReader α} {cause : WireError} {bytes rest : List UInt8} {value : α}
    (read : (if type = .delimited then delimited >>= next else fail cause) bytes =
      .ok (value, rest)) :
    ∃ payload middle, rawValue number type bytes = .ok (.delimited payload, middle) ∧
      next payload middle = .ok (value, rest) := by
  split at read
  · rename_i same
    subst same
    obtain ⟨payload, middle, found, later⟩ := bind_eq_ok read
    exact ⟨payload, middle, bind_of_ok found, later⟩
  · cases read

private theorem rawValue_of_numbers {number : Nat} {repeated : Bool} {type : WireType}
    {convert : Nat → Int} {bytes rest : List UInt8} {values : List WireValue}
    (read : numbers number repeated type convert bytes = .ok (values, rest)) :
    ∃ value, rawValue number type bytes = .ok (value, rest) ∧
      ((∀ held, convert held = int32OfVarint held) → values = value.ints.map .int) := by
  unfold numbers at read
  split at read
  · rename_i single
    subst single
    obtain ⟨value, middle, found, last⟩ := bind_eq_ok read
    cases last
    exact ⟨.varint value, bind_of_ok found, fun same => by simp [RawValue.ints, same]⟩
  split at read
  · rename_i packed
    obtain ⟨-, rfl⟩ := packed
    obtain ⟨payload, middle, found, later⟩ := bind_eq_ok read
    obtain ⟨held, split, rfl, rfl⟩ := ofExcept_map_eq_ok later
    exact ⟨.delimited payload, bind_of_ok found, fun same => by simp [RawValue.ints, split, same]⟩
  · cases read

/-- What is read as a value of a known field is what the field has without the grammar. -/
theorem rawValue_of_values {τ : Type} {enter : τ → List UInt8 → Except WireError WireRecord}
    {number : Nat} {rule : FieldRule τ} {type : WireType} {bytes rest : List UInt8}
    {values : List WireValue}
    (read : WireReader.values enter number rule type bytes = .ok (values, rest)) :
    ∃ value, rawValue number type bytes = .ok (value, rest) ∧
      (∀ inner, rule.type = .record inner → ∃ payload content,
        value = .delimited payload ∧ enter inner payload = .ok content ∧
          values = [.record content]) ∧
      (rule.type = .int32 → values = value.ints.map .int) := by
  obtain ⟨kind, repeated⟩ := rule
  cases kind with
  | int32 =>
    simp only [WireReader.values] at read
    obtain ⟨value, found, ints⟩ := rawValue_of_numbers read
    exact ⟨value, found, by simp, fun _ => ints fun held => by
      rw [FieldType.number?_int32, Option.getD_some]⟩
  | int64 | uint64 | bool =>
    obtain ⟨value, found, -⟩ := rawValue_of_numbers read
    exact ⟨value, found, by simp, by simp⟩
  | double =>
    simp only [WireReader.values] at read
    split at read
    · rename_i fixed
      subst fixed
      obtain ⟨taken, middle, found, last⟩ := bind_eq_ok read
      cases last
      exact ⟨.other, bind_of_ok found, by simp, by simp⟩
    · cases read
  | text =>
    obtain ⟨payload, middle, found, later⟩ := rawValue_of_delimited read
    obtain ⟨text, -, rfl, rfl⟩ := ofExcept_map_eq_ok later
    exact ⟨.delimited payload, found, by simp, by simp⟩
  | bytes =>
    obtain ⟨payload, middle, found, later⟩ := rawValue_of_delimited read
    cases later
    exact ⟨.delimited payload, found, by simp, by simp⟩
  | record inner =>
    obtain ⟨payload, middle, found, later⟩ := rawValue_of_delimited read
    obtain ⟨content, entered, rfl, rfl⟩ := ofExcept_map_eq_ok later
    refine ⟨.delimited payload, found, ?_, by simp⟩
    intro other same
    obtain rfl := FieldType.record.inj same
    exact ⟨payload, content, rfl, entered, rfl⟩

/-- What a decoder makes of a field: entries of its number, one for a record and those of the list
for integers. -/
structure Yields {τ : Type} (grammar : Grammar τ) (decodes : τ → List UInt8 → WireRecord → Prop)
    (type : τ) (field : Nat × RawValue) (fields : WireRecord) : Prop where
  numbered : ∀ entry ∈ fields, entry.1 = field.1
  record : ∀ inner repeated, grammar type field.1 = some ⟨.record inner, repeated⟩ →
    ∃ payload content, field.2 = .delimited payload ∧ decodes inner payload content ∧
      fields = [(field.1, .record content)]
  ints : ∀ repeated, grammar type field.1 = some ⟨.int32, repeated⟩ →
    fields = field.2.ints.map fun value => (field.1, .int value)

private theorem rawField_of_field {τ : Type} {grammar : Grammar τ} {depth : Nat}
    {enter : τ → List UInt8 → Except WireError WireRecord} {type : τ} {bytes rest : List UInt8}
    {fields : WireRecord} (enough : depth ≤ Grammar.levels)
    (read : WireReader.field grammar depth enter type bytes = .ok (fields, rest)) :
    ∃ raw, rawField bytes = .ok (raw, rest) ∧
      Yields grammar (fun inner payload content => enter inner payload = .ok content) type raw
        fields := by
  obtain ⟨⟨number, wireType⟩, middle, found, later⟩ := bind_eq_ok read
  simp only at later
  cases known : grammar type number with
  | some rule =>
    simp only [known] at later
    obtain ⟨values, between, valued, last⟩ := bind_eq_ok later
    cases last
    obtain ⟨value, raw, record, ints⟩ := rawValue_of_values valued
    refine ⟨(number, value), (bind_of_ok found).trans (bind_of_ok raw), ?_, ?_, ?_⟩
    · simp
    · rintro inner repeated same
      obtain rfl := Option.some.inj (known.symm.trans same)
      obtain ⟨payload, content, delimited, entered, rfl⟩ := record inner rfl
      exact ⟨payload, content, delimited, entered, rfl⟩
    · rintro repeated same
      obtain rfl := Option.some.inj (known.symm.trans same)
      rw [ints rfl, List.map_map]
      rfl
  | none =>
    simp only [known] at later
    obtain ⟨_, between, skipped, last⟩ := bind_eq_ok later
    cases last
    obtain ⟨value, raw⟩ := rawValue_of_skipField enough skipped
    refine ⟨(number, value), (bind_of_ok found).trans (bind_of_ok raw), ?_, ?_, ?_⟩
    · simp
    · intro inner repeated same
      cases known.symm.trans same
    · intro repeated same
      cases known.symm.trans same

end WireReader

/-! ## Repeating readers -/

namespace Reader

variable {σ ε α β : Type} {tokens : List σ}

theorem manyAfter_of_ok {reader : Reader σ ε α} (consumes : Consumes reader) {done : List α}
    {value : α} {rest : List σ} (read : reader tokens = .ok (value, rest)) :
    manyAfter reader consumes done tokens = manyAfter reader consumes (value :: done) rest := by
  rw [manyAfter, if_neg]
  · split
    · rename_i found
      obtain ⟨rfl, rfl⟩ := Prod.mk.inj (Except.ok.inj (read.symm.trans found))
      rfl
    · rename_i found
      cases read.symm.trans found
  · rw [List.isEmpty_iff]
    rintro rfl
    exact absurd (consumes read) (Nat.not_lt_zero _)

section Related

variable {related : α → β → Prop} {coarse : Reader σ ε α} {fine : Reader σ ε β}
  (coarseConsumes : Consumes coarse) (fineConsumes : Consumes fine)
  (each : ∀ tokens value rest, fine tokens = .ok (value, rest) →
    ∃ other, coarse tokens = .ok (other, rest) ∧ related other value)

include each

private theorem manyAfter_related {before : List α} {done values : List β}
    (pairs : List.Forall₂ related before done)
    (read : manyAfter fine fineConsumes done tokens = .ok values) :
    ∃ others, manyAfter coarse coarseConsumes before tokens = .ok others ∧
      List.Forall₂ related others values := by
  fun_induction manyAfter fine fineConsumes done tokens generalizing before with
  | case1 done tokens empty =>
    cases read
    exact ⟨before.reverse, by rw [manyAfter, if_pos empty], List.rel_reverse pairs⟩
  | case2 done tokens nonempty value rest found ih =>
    obtain ⟨other, again, pair⟩ := each _ _ _ found
    rw [manyAfter_of_ok coarseConsumes again]
    exact ih (.cons pair pairs) read
  | case3 => cases read

/-- If each value that one reader takes is related to one that another takes of the same tokens,
then so are the lists of all of them. -/
theorem many_related {values : List β} (read : many fine fineConsumes tokens = .ok values) :
    ∃ others, many coarse coarseConsumes tokens = .ok others ∧
      List.Forall₂ related others values :=
  manyAfter_related coarseConsumes fineConsumes each .nil read

end Related

end Reader

/-! ## Records and integers of a number -/

namespace WireRecord

variable {left right record : WireRecord} {number : Nat}

private theorem values_append :
    (left ++ right).values number = left.values number ++ right.values number :=
  List.filterMap_append

theorem records_append :
    (left ++ right).records number = left.records number ++ right.records number := by
  rw [records, values_append, List.filterMap_append]
  rfl

private theorem ints_append :
    (left ++ right).ints number = left.ints number ++ right.ints number := by
  rw [ints, values_append, List.filterMap_append]
  rfl

private theorem values_eq_nil (numbered : ∀ field ∈ record, field.1 ≠ number) :
    record.values number = [] := by
  rw [values, List.filterMap_eq_nil_iff]
  exact fun field listed => if_neg (numbered field listed)

private theorem records_eq_nil (numbered : ∀ field ∈ record, field.1 ≠ number) :
    record.records number = [] := by
  rw [records, values_eq_nil numbered]
  rfl

private theorem ints_eq_nil (numbered : ∀ field ∈ record, field.1 ≠ number) :
    record.ints number = [] := by
  rw [ints, values_eq_nil numbered]
  rfl

private theorem ints_map (values : List Int) :
    WireRecord.ints (values.map fun value => (number, .int value)) number = values := by
  induction values with
  | nil => rfl
  | cons value rest ih =>
    rw [List.map_cons, ← List.singleton_append, ints_append, ih]
    simp [ints, WireRecord.values]

theorem ints_flatten (records : List WireRecord) :
    WireRecord.ints records.flatten number = records.flatMap fun record => record.ints number := by
  induction records with
  | nil => rfl
  | cons record rest ih => rw [List.flatten_cons, ints_append, ih, List.flatMap_cons]

end WireRecord

namespace Grammar

variable {τ : Type} {grammar : Grammar τ} {type inner : τ} {bytes : List UInt8}
  {record : WireRecord} {number : Nat} {repeated : Bool}

/-- The bytes are decoded to the record, with some number of the levels left. -/
def Decodes (grammar : Grammar τ) (type : τ) (bytes : List UInt8) (record : WireRecord) : Prop :=
  ∃ depth ≤ levels, grammar.decodeAt depth type bytes = .ok record

/-- A record is decoded from the fields that its bytes have without the grammar, one after the
other. -/
theorem Decodes.exists_pieces (decodes : grammar.Decodes type bytes record) :
    ∃ pieces, record = pieces.flatten ∧
      List.Forall₂ (WireReader.Yields grammar grammar.Decodes type) (RawRecord.ofBytes bytes)
        pieces := by
  obtain ⟨depth, enough, decoded⟩ := decodes
  have inside (enter : τ → List UInt8 → Except WireError WireRecord)
      (decoded : grammar.decodeWith depth enter type bytes = .ok record)
      (entered : ∀ inner payload content, enter inner payload = .ok content →
        grammar.Decodes inner payload content) : ∃ pieces, record = pieces.flatten ∧
      List.Forall₂ (WireReader.Yields grammar grammar.Decodes type) (RawRecord.ofBytes bytes)
        pieces := by
    unfold decodeWith at decoded
    split at decoded <;> rename_i read
    · cases decoded
      obtain ⟨fields, split, pairs⟩ := Reader.many_related WireReader.consumes_rawField _
        (fun _ _ _ found => WireReader.rawField_of_field enough found) read
      refine ⟨_, rfl, ?_⟩
      rw [RawRecord.ofBytes, split]
      refine pairs.imp fun field fields yields => ⟨yields.numbered, ?_, yields.ints⟩
      intro inner repeated rule
      obtain ⟨payload, content, delimited, decoded, same⟩ := yields.record inner repeated rule
      exact ⟨payload, content, delimited, entered inner payload content decoded, same⟩
    · cases decoded
  cases depth with
  | zero => exact inside _ decoded fun _ _ _ impossible => nomatch impossible
  | succ depth =>
    exact inside _ decoded fun _ _ _ decoded => ⟨depth, Nat.le_of_succ_le enough, decoded⟩

/-- The records of a number are decoded from the delimited values of that number, in order. -/
theorem Decodes.records (decodes : grammar.Decodes type bytes record)
    (rule : grammar type number = some ⟨.record inner, repeated⟩) :
    List.Forall₂ (grammar.Decodes inner) ((RawRecord.ofBytes bytes).payloads number)
      (record.records number) := by
  obtain ⟨pieces, rfl, pairs⟩ := decodes.exists_pieces
  clear decodes
  generalize RawRecord.ofBytes bytes = fields at pairs
  induction pairs with
  | nil => exact .nil
  | @cons field piece fields pieces yields _ ih =>
    obtain ⟨key, value⟩ := field
    rw [List.flatten_cons, WireRecord.records_append]
    by_cases same : key = number
    · subst same
      obtain ⟨payload, content, delimited, decoded, rfl⟩ := yields.record inner repeated rule
      obtain rfl : value = .delimited payload := delimited
      have taken : RawRecord.payloads ((key, .delimited payload) :: fields) key =
          payload :: RawRecord.payloads fields key := by
        simp [RawRecord.payloads]
      have one : WireRecord.records [(key, .record content)] key = [content] := by
        simp [WireRecord.records, WireRecord.values]
      rw [taken, one]
      exact .cons decoded ih
    · have none : WireRecord.records piece number = [] :=
        WireRecord.records_eq_nil fun entry listed equal =>
          same ((yields.numbered entry listed).symm.trans equal)
      have skipped : RawRecord.payloads ((key, value) :: fields) number =
          RawRecord.payloads fields number := by
        cases value <;> simp [RawRecord.payloads, same]
      rwa [none, skipped]

/-- The integers of a number in a list of them are those of the values of that number. -/
theorem Decodes.ints (decodes : grammar.Decodes type bytes record)
    (rule : grammar type number = some ⟨.int32, repeated⟩) :
    record.ints number = (RawRecord.ofBytes bytes).ints number := by
  obtain ⟨pieces, rfl, pairs⟩ := decodes.exists_pieces
  clear decodes
  generalize RawRecord.ofBytes bytes = fields at pairs
  induction pairs with
  | nil => rfl
  | @cons field piece fields pieces yields _ ih =>
    obtain ⟨key, value⟩ := field
    rw [List.flatten_cons, WireRecord.ints_append, ih, RawRecord.ints, RawRecord.ints,
      List.flatMap_cons]
    congr 1
    by_cases same : key = number
    · subst same
      rw [if_pos rfl, yields.ints repeated rule, WireRecord.ints_map]
    · rw [if_neg same]
      exact WireRecord.ints_eq_nil fun entry listed equal =>
        same ((yields.numbered entry listed).symm.trans equal)

end Grammar

end ToolContract
