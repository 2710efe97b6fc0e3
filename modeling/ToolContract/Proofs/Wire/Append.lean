import ToolContract.Proofs.Wire.Raw

/-!
# Reading bytes that are joined

A reader of the wire format takes the same bytes whatever follows them, so bytes that can be decoded
one by one can be decoded joined, to the records of the parts joined (`Grammar.decode_append`).
-/

set_option autoImplicit false

namespace ToolContract

namespace Reader

variable {σ ε α β : Type}

/-- A reader that takes from the front of its tokens what it takes without those behind. -/
def Frontal (reader : Reader σ ε α) : Prop :=
  ∀ ⦃tokens value rest⦄, reader tokens = .ok (value, rest) →
    ∀ more, reader (tokens ++ more) = .ok (value, rest ++ more)

private theorem frontal_pure (value : α) : Frontal (pure value : Reader σ ε α) := by
  intro tokens _ rest read more
  cases read
  rfl

private theorem frontal_fail (cause : ε) : Frontal (fail cause : Reader σ ε α) := by
  intro _ _ _ read
  cases read

private theorem frontal_ofExcept (result : Except ε α) :
    Frontal (ofExcept result : Reader σ ε α) := by
  cases result with
  | ok value => exact frontal_pure value
  | error cause => exact frontal_fail cause

private theorem Frontal.bind {first : Reader σ ε α} {next : α → Reader σ ε β}
    (frontal : Frontal first)
    (later : ∀ value, Frontal (next value)) : Frontal (first >>= next) := by
  intro tokens value rest read more
  obtain ⟨middle, between, found, continued⟩ := bind_eq_ok read
  have joined := frontal found more
  simp only [Bind.bind, joined]
  exact later middle continued more

/-- What is done already stands before what is read. -/
theorem manyAfter_eq (reader : Reader σ ε α) (consumes : Consumes reader) (done : List α)
    (tokens : List σ) :
    manyAfter reader consumes done tokens =
      (many reader consumes tokens).map (done.reverse ++ ·) := by
  rw [many]
  suffices general : ∀ before : List α,
      manyAfter reader consumes (before ++ done) tokens =
        (manyAfter reader consumes before tokens).map (done.reverse ++ ·) from general []
  intro before
  fun_induction manyAfter reader consumes before tokens with
  | case1 before tokens empty =>
    rw [manyAfter, if_pos empty, List.reverse_append]
    rfl
  | case2 before tokens _ value rest read ih =>
    rw [manyAfter_of_ok consumes read]
    exact ih
  | case3 before tokens nonempty cause read =>
    rw [manyAfter, if_neg nonempty]
    split <;> rename_i found <;> cases read.symm.trans found
    rfl

/-- Tokens that are used up after the values done, and more tokens that are used up, are used up
joined. -/
theorem manyAfter_append {reader : Reader σ ε α} (consumes : Consumes reader)
    (frontal : Frontal reader) {done values others : List α} {left right : List σ}
    (first : manyAfter reader consumes done left = .ok values)
    (second : many reader consumes right = .ok others) :
    manyAfter reader consumes done (left ++ right) = .ok (values ++ others) := by
  fun_induction manyAfter reader consumes done left with
  | case1 done tokens empty =>
    obtain rfl := List.isEmpty_iff.mp empty
    cases first
    rw [List.nil_append, manyAfter_eq, second]
    rfl
  | case2 done tokens _ value rest found ih =>
    rw [manyAfter_of_ok consumes (frontal found right)]
    exact ih first
  | case3 => cases first

end Reader

namespace WireReader

open Reader

private theorem frontal_varintFrom (position value : Nat) :
    Frontal (varintFrom position value) := by
  intro bytes total rest read more
  induction bytes generalizing position value with
  | nil => cases read
  | cons byte bytes ih =>
    rw [List.cons_append]
    simp only [varintFrom] at read ⊢
    split at read
    · cases read
    · rename_i fits
      rw [if_neg fits]
      split at read
      · rename_i last
        rw [if_pos last]
        cases read
        rfl
      · rename_i more
        rw [if_neg more]
        exact ih _ _ read

private theorem frontal_varint : Frontal varint :=
  frontal_varintFrom 0 0

private theorem frontal_exactly (count : Nat) : Frontal (exactly count) := by
  intro bytes taken rest read more
  simp only [exactly, List.splitAt_eq] at read ⊢
  split at read
  · rename_i enough
    cases read
    have inside : count ≤ bytes.length := by
      rw [List.length_take] at enough
      omega
    rw [List.take_append_of_le_length inside, List.drop_append_of_le_length inside, if_pos enough]
  · cases read

private theorem frontal_delimited : Frontal delimited :=
  frontal_varint.bind frontal_exactly

private theorem frontal_key : Frontal key :=
  frontal_varint.bind fun value => frontal_ofExcept (ofKey value)

private theorem frontal_skipValue (type : WireType) : Frontal (skipValue type) := by
  cases type with
  | varint => exact frontal_varint.bind fun _ => frontal_pure ()
  | fixed64 => exact (frontal_exactly 8).bind fun _ => frontal_pure ()
  | fixed32 => exact (frontal_exactly 4).bind fun _ => frontal_pure ()
  | delimited => exact frontal_delimited.bind fun _ => frontal_pure ()
  | startGroup | endGroup => exact frontal_fail _

private theorem frontal_skipGroups (depth : Nat) (groups : List Nat) :
    Frontal (skipGroups depth groups) := by
  intro bytes _ rest read more
  fun_induction skipGroups depth groups bytes with
  | case1 bytes =>
    cases read
    rw [skipGroups]
  | case2 => cases read
  | case3 bytes outer number after found ih =>
    rw [skipGroups_cons, bind_of_ok (frontal_key found more), if_pos rfl, if_pos rfl]
    exact ih read
  | case4 => cases read
  | case5 => cases read
  | case6 bytes group outer number after shallow found notEnd ih =>
    rw [skipGroups_cons, bind_of_ok (frontal_key found more), if_neg notEnd, if_neg shallow,
      if_pos rfl]
    exact ih read
  | case7 => cases read
  | case8 bytes group outer number type after found notEnd shallow notStart later skipped ih =>
    rw [skipGroups_cons, bind_of_ok (frontal_key found more), if_neg notEnd, if_neg shallow,
      if_neg notStart, bind_of_ok (frontal_skipValue _ skipped more)]
    exact ih read

private theorem frontal_skipField (depth number : Nat) (type : WireType) :
    Frontal (skipField depth number type) := by
  unfold skipField
  split
  · exact frontal_fail _
  · split
    · exact frontal_skipGroups depth [number]
    · exact frontal_skipValue type

private theorem frontal_numbers (number : Nat) (repeated : Bool) (type : WireType)
    (convert : Nat → Int) : Frontal (numbers number repeated type convert) := by
  unfold numbers
  split
  · exact frontal_varint.bind fun _ => frontal_pure _
  · split
    · exact frontal_delimited.bind fun _ => (frontal_ofExcept _).bind fun _ => frontal_pure _
    · exact frontal_fail _

/-- A reader of delimited values, which fails on other wire types. -/
theorem frontal_of_delimited {α : Type} (type : WireType) {next : List UInt8 → WireReader α}
    (frontal : ∀ payload, Frontal (next payload)) (cause : WireError) :
    Frontal (if type = .delimited then delimited >>= next else fail cause) := by
  split
  · exact frontal_delimited.bind frontal
  · exact frontal_fail cause

private theorem frontal_values {τ : Type} (enter : τ → List UInt8 → Except WireError WireRecord)
    (number : Nat) (rule : FieldRule τ) (type : WireType) :
    Frontal (values enter number rule type) := by
  obtain ⟨kind, repeated⟩ := rule
  cases kind with
  | int32 | int64 | uint64 | bool => exact frontal_numbers _ _ _ _
  | double =>
    simp only [values]
    split
    · exact (frontal_exactly 8).bind fun _ => frontal_pure _
    · exact frontal_fail _
  | text | record =>
    exact frontal_of_delimited type
      (fun _ => (frontal_ofExcept _).bind fun _ => frontal_pure _) _
  | bytes => exact frontal_of_delimited type (fun _ => frontal_pure _) _

private theorem frontal_field {τ : Type} (grammar : Grammar τ) (depth : Nat)
    (enter : τ → List UInt8 → Except WireError WireRecord) (type : τ) :
    Frontal (field grammar depth enter type) := by
  refine frontal_key.bind fun (number, wireType) => ?_
  dsimp only
  split
  · exact (frontal_values _ _ _ _).bind fun _ => frontal_pure _
  · exact (frontal_skipField _ _ _).bind fun _ => frontal_pure _

end WireReader

namespace Grammar

variable {τ : Type} {grammar : Grammar τ} {type : τ} {left right : List UInt8}
  {first second : WireRecord}

private theorem decodeWith_eq_ok_iff {depth : Nat}
    {enter : τ → List UInt8 → Except WireError WireRecord} {bytes : List UInt8}
    {record : WireRecord} :
    grammar.decodeWith depth enter type bytes = .ok record ↔
      ∃ fields, Reader.many (WireReader.field grammar depth enter type)
        (WireReader.consumes_field grammar depth enter type) bytes = .ok fields ∧
          record = fields.flatten := by
  unfold decodeWith
  split <;> rename_i read <;> simp [read, eq_comm]

private theorem decodeWith_append {depth : Nat}
    {enter : τ → List UInt8 → Except WireError WireRecord}
    (readLeft : grammar.decodeWith depth enter type left = .ok first)
    (readRight : grammar.decodeWith depth enter type right = .ok second) :
    grammar.decodeWith depth enter type (left ++ right) = .ok (first ++ second) := by
  obtain ⟨fields, split, rfl⟩ := decodeWith_eq_ok_iff.mp readLeft
  obtain ⟨others, splitOthers, rfl⟩ := decodeWith_eq_ok_iff.mp readRight
  have joined := Reader.manyAfter_append _ (WireReader.frontal_field grammar depth enter type)
    split splitOthers
  exact decodeWith_eq_ok_iff.mpr ⟨_, joined, List.flatten_append.symm⟩

/-- Records whose bytes are joined are decoded to the fields of the one and then of the other. -/
theorem decode_append (readLeft : grammar.decode type left = .ok first)
    (readRight : grammar.decode type right = .ok second) :
    grammar.decode type (left ++ right) = .ok (first ++ second) :=
  decodeWith_append readLeft readRight

end Grammar

end ToolContract
