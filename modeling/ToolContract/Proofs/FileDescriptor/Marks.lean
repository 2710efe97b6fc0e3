import ToolContract.FileDescriptor.Decode
import ToolContract.Proofs.Correspondence
import ToolContract.Proofs.Wire.Raw

/-!
# Where marks are

The marks of required fields are read by a grammar of their own and handed on as source paths. Below
the path of a message they are exactly the places of the fields whose options, as they stand in the
bytes of the message, hold the mark (`mem_requiredPathsOf_iff`).
-/

set_option autoImplicit false

namespace ToolContract

/-! ## Marks in the bytes -/

/-- The values of the extension in the options of a field, over all occurrences of the options. -/
def behaviorsOf (field : List UInt8) : List Int :=
  ((RawRecord.ofBytes field).payloads 8).flatMap fun options =>
    (RawRecord.ofBytes options).ints fieldBehaviorNumber

/-- The options in the bytes of the field hold the mark. -/
def IsMarked (field : List UInt8) : Prop :=
  requiredMark ∈ behaviorsOf field

/-- The path leads from the message in the bytes to a field whose options hold the mark. -/
inductive MarkedAt : List UInt8 → SourcePath → Prop where
  | field {message field : List UInt8} {index : Nat} :
      ((RawRecord.ofBytes message).payloads 2)[index]? = some field → IsMarked field →
      MarkedAt message [2, (index : Int)]
  | nested {message inner : List UInt8} {index : Nat} {rest : SourcePath} :
      ((RawRecord.ofBytes message).payloads 3)[index]? = some inner → MarkedAt inner rest →
      MarkedAt message (3 :: (index : Int) :: rest)

/-! ## Marks as they are collected -/

private theorem contains_requiredMark_iff {bytes : List UInt8} {field : WireRecord}
    (decodes : MarkElement.grammar.Decodes .field bytes field) :
    ((field.merged 8).ints fieldBehaviorNumber).contains requiredMark = true ↔ IsMarked bytes := by
  have rule : MarkElement.grammar .field 8 = some ⟨.record .fieldOptions, false⟩ := rfl
  have marks : MarkElement.grammar .fieldOptions fieldBehaviorNumber = some ⟨.int32, true⟩ := rfl
  have behaviors : behaviorsOf bytes = (field.merged 8).ints fieldBehaviorNumber := by
    rw [WireRecord.merged, WireRecord.ints_flatten, behaviorsOf]
    exact flatMap_eq_of_forall₂ (decodes.records rule) fun _ _ options => (options.ints marks).symm
  rw [IsMarked, behaviors, List.contains_iff_mem]

/-- Options that are written twice, first with one value and then with a packed list. -/
example : behaviorsOf [66, 3, 224, 65, 1, 66, 4, 226, 65, 1, 2] = [1, 2] := by decide +kernel

private theorem requiredPathsOf_eq (path : SourcePath) (message : WireRecord) :
    requiredPathsOf path message =
      ((message.records 2).zipIdx.filterMap fun (field, index) =>
        if ((field.merged 8).ints fieldBehaviorNumber).contains requiredMark
        then some (path.child 2 index) else none) ++
      (message.records 3).zipIdx.flatMap fun (nested, index) =>
        requiredPathsOf (path.child 3 index) nested := by
  rw [requiredPathsOf]
  congr 1
  conv_rhs => rw [← List.attach_map_subtype_val (message.records 3), List.zipIdx_map]
  rw [List.flatMap_map]
  rfl

/-- Below a message the collected paths are those that lead to a marked field. -/
theorem mem_requiredPathsOf_iff {bytes : List UInt8} {message : WireRecord}
    (decodes : MarkElement.grammar.Decodes .message bytes message) {path place : SourcePath} :
    place ∈ requiredPathsOf path message ↔
      ∃ suffix, place = path ++ suffix ∧ MarkedAt bytes suffix := by
  have fieldRule : MarkElement.grammar .message 2 = some ⟨.record .field, true⟩ := rfl
  have nestedRule : MarkElement.grammar .message 3 = some ⟨.record .message, true⟩ := rfl
  have fields := decodes.records fieldRule
  have nested := decodes.records nestedRule
  -- the two parts of the collected paths are the two ways to a mark
  rw [requiredPathsOf_eq, List.mem_append, List.mem_filterMap, List.mem_flatMap]
  constructor
  · rintro (⟨⟨field, index⟩, listed, chosen⟩ | ⟨⟨inner, index⟩, listed, below⟩)
    · obtain ⟨fieldBytes, found, field⟩ :=
        exists_left_getElem? fields (List.mem_zipIdx_iff_getElem?.mp listed)
      simp only [Option.ite_none_right_eq_some, Option.some.injEq] at chosen
      obtain ⟨marked, rfl⟩ := chosen
      exact ⟨_, rfl, .field found ((contains_requiredMark_iff field).mp marked)⟩
    · have stored : (message.records 3)[index]? = some inner := List.mem_zipIdx_iff_getElem?.mp listed
      have member := List.mem_of_getElem? stored
      obtain ⟨innerBytes, found, innerDecodes⟩ := exists_left_getElem? nested stored
      obtain ⟨suffix, rfl, marked⟩ := (mem_requiredPathsOf_iff innerDecodes).mp below
      exact ⟨_, List.append_assoc _ _ _, .nested found marked⟩
  · rintro ⟨suffix, rfl, marked⟩
    cases marked with
    | @field _ fieldBytes index found marked =>
      obtain ⟨field, stored, fieldDecodes⟩ := exists_right_getElem? fields found
      exact .inl ⟨(field, index), List.mem_zipIdx_iff_getElem?.mpr stored,
        if_pos ((contains_requiredMark_iff fieldDecodes).mpr marked)⟩
    | @nested _ innerBytes index rest found marked =>
      obtain ⟨inner, stored, innerDecodes⟩ := exists_right_getElem? nested found
      have member := List.mem_of_getElem? stored
      refine .inr ⟨(inner, index), List.mem_zipIdx_iff_getElem?.mpr stored, ?_⟩
      exact (mem_requiredPathsOf_iff innerDecodes).mpr
        ⟨rest, by simp [SourcePath.child], marked⟩
termination_by sizeOf message
decreasing_by all_goals exact WireRecord.sizeOf_lt_of_mem_records member

theorem markedAt_field_iff {message : List UInt8} {index : Nat} :
    MarkedAt message [2, (index : Int)] ↔
      ∃ field, ((RawRecord.ofBytes message).payloads 2)[index]? = some field ∧ IsMarked field := by
  constructor
  · intro marked
    generalize same : ([2, (index : Int)] : SourcePath) = path at marked
    cases marked with
    | field found marked =>
      obtain ⟨-, position⟩ := List.cons.inj same
      obtain rfl := Int.ofNat.inj (List.cons.inj position).1
      exact ⟨_, found, marked⟩
    | nested => exact absurd (List.cons.inj same).1 (by decide)
  · rintro ⟨field, found, marked⟩
    exact .field found marked

theorem markedAt_nested_iff {message : List UInt8} {index : Nat} {rest : SourcePath} :
    MarkedAt message (3 :: (index : Int) :: rest) ↔
      ∃ inner, ((RawRecord.ofBytes message).payloads 3)[index]? = some inner ∧
        MarkedAt inner rest := by
  constructor
  · intro marked
    generalize same : (3 :: (index : Int) :: rest : SourcePath) = path at marked
    cases marked with
    | field => exact absurd (List.cons.inj same).1 (by decide)
    | nested found marked =>
      obtain ⟨position, rfl⟩ := List.cons.inj (List.cons.inj same).2
      obtain rfl := Int.ofNat.inj position
      exact ⟨_, found, marked⟩
  · rintro ⟨inner, found, marked⟩
    exact .nested found marked

/-- The collected paths of a file lead to the marked fields of its messages. -/
theorem mem_requiredPathsOfFile_iff {bytes : List UInt8} {file : WireRecord}
    (decodes : MarkElement.grammar.Decodes .file bytes file) {index : Nat} {suffix : SourcePath} :
    SourcePath.child [] 4 index ++ suffix ∈ requiredPathsOfFile file ↔
      ∃ message, ((RawRecord.ofBytes bytes).payloads 4)[index]? = some message ∧
        MarkedAt message suffix := by
  have rule : MarkElement.grammar .file 4 = some ⟨.record .message, true⟩ := rfl
  have messages := decodes.records rule
  rw [requiredPathsOfFile, List.mem_flatMap]
  constructor
  · rintro ⟨⟨message, position⟩, listed, below⟩
    obtain ⟨messageBytes, found, messageDecodes⟩ :=
      exists_left_getElem? messages (List.mem_zipIdx_iff_getElem?.mp listed)
    obtain ⟨rest, same, marked⟩ := (mem_requiredPathsOf_iff messageDecodes).mp below
    simp only [SourcePath.child, List.nil_append, List.cons_append, List.cons.injEq, true_and,
      Int.natCast_inj] at same
    obtain ⟨rfl, rfl⟩ := same
    exact ⟨messageBytes, found, marked⟩
  · rintro ⟨messageBytes, found, marked⟩
    obtain ⟨message, stored, messageDecodes⟩ := exists_right_getElem? messages found
    exact ⟨(message, index), List.mem_zipIdx_iff_getElem?.mpr stored,
      (mem_requiredPathsOf_iff messageDecodes).mpr ⟨suffix, rfl, marked⟩⟩

end ToolContract
