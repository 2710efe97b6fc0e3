import ToolContract.Wire.Record

/-!
# The grammar of descriptor files

The fields of the records in which interface files are handed on. `DescriptorElement.grammar` knows
all of them. `MarkElement.grammar` knows only the way to the extension that marks a field required,
which the full grammar passes over as a field it does not know.
-/

set_option autoImplicit false

namespace ToolContract

namespace FieldRule

variable {τ : Type}

def text : FieldRule τ := ⟨.text, false⟩

def texts : FieldRule τ := ⟨.text, true⟩

def int : FieldRule τ := ⟨.int32, false⟩

def ints : FieldRule τ := ⟨.int32, true⟩

def bool : FieldRule τ := ⟨.bool, false⟩

def one (type : τ) : FieldRule τ := ⟨.record type, false⟩

def list (type : τ) : FieldRule τ := ⟨.record type, true⟩

end FieldRule

inductive DescriptorElement where
  | fileSet
  | file
  | message
  | extensionRange
  | numberRange
  | extensionRangeOptions
  | field
  | oneof
  | enumeration
  | enumValue
  | service
  | method
  | fileOptions
  | messageOptions
  | fieldOptions
  | oneofOptions
  | enumOptions
  | enumValueOptions
  | serviceOptions
  | methodOptions
  | customOption
  | customOptionName
  | sourceInfo
  | location
  deriving DecidableEq, Repr

def DescriptorElement.fields : DescriptorElement → List (Nat × FieldRule DescriptorElement)
  | .fileSet => [(1, .list .file)]
  | .file =>
    [(1, .text), (2, .text), (3, .texts), (10, .ints), (11, .ints), (4, .list .message),
      (5, .list .enumeration), (6, .list .service), (7, .list .field), (8, .one .fileOptions),
      (9, .one .sourceInfo), (12, .text)]
  | .message =>
    [(1, .text), (2, .list .field), (6, .list .field), (3, .list .message),
      (4, .list .enumeration), (5, .list .extensionRange), (8, .list .oneof),
      (7, .one .messageOptions), (9, .list .numberRange), (10, .texts)]
  | .extensionRange => [(1, .int), (2, .int), (3, .one .extensionRangeOptions)]
  | .numberRange => [(1, .int), (2, .int)]
  | .extensionRangeOptions => [(999, .list .customOption)]
  | .field =>
    [(1, .text), (3, .int), (4, .int), (5, .int), (6, .text), (2, .text), (7, .text), (9, .int),
      (10, .text), (8, .one .fieldOptions), (17, .bool)]
  | .oneof => [(1, .text), (2, .one .oneofOptions)]
  | .enumeration =>
    [(1, .text), (2, .list .enumValue), (3, .one .enumOptions), (4, .list .numberRange),
      (5, .texts)]
  | .enumValue => [(1, .text), (2, .int), (3, .one .enumValueOptions)]
  | .service => [(1, .text), (2, .list .method), (3, .one .serviceOptions)]
  | .method =>
    [(1, .text), (2, .text), (3, .text), (4, .one .methodOptions), (5, .bool), (6, .bool)]
  | .fileOptions =>
    [(1, .text), (8, .text), (10, .bool), (20, .bool), (27, .bool), (9, .int), (11, .text),
      (16, .bool), (17, .bool), (18, .bool), (42, .bool), (23, .bool), (31, .bool), (36, .text),
      (37, .text), (39, .text), (40, .text), (41, .text), (44, .text), (45, .text),
      (999, .list .customOption)]
  | .messageOptions =>
    [(1, .bool), (2, .bool), (3, .bool), (7, .bool), (999, .list .customOption)]
  | .fieldOptions =>
    [(1, .int), (2, .bool), (6, .int), (5, .bool), (3, .bool), (10, .bool),
      (999, .list .customOption)]
  | .oneofOptions => [(999, .list .customOption)]
  | .enumOptions => [(2, .bool), (3, .bool), (999, .list .customOption)]
  | .enumValueOptions => [(1, .bool), (999, .list .customOption)]
  | .serviceOptions => [(33, .bool), (999, .list .customOption)]
  | .methodOptions => [(33, .bool), (34, .int), (999, .list .customOption)]
  | .customOption =>
    [(2, .list .customOptionName), (3, .text), (4, ⟨.uint64, false⟩), (5, ⟨.int64, false⟩),
      (6, ⟨.double, false⟩), (7, ⟨.bytes, false⟩), (8, .text)]
  | .customOptionName => [(1, .text), (2, .bool)]
  | .sourceInfo => [(1, .list .location)]
  | .location => [(1, .ints), (2, .ints), (3, .text), (4, .text), (6, .texts)]

def DescriptorElement.grammar : Grammar DescriptorElement := fun type number =>
  type.fields.lookup number

inductive MarkElement where
  | fileSet
  | file
  | message
  | field
  | fieldOptions
  deriving DecidableEq, Repr

def fieldBehaviorNumber : Nat := 1052

def MarkElement.fields : MarkElement → List (Nat × FieldRule MarkElement)
  | .fileSet => [(1, .list .file)]
  | .file => [(4, .list .message)]
  | .message => [(2, .list .field), (3, .list .message)]
  | .field => [(8, .one .fieldOptions)]
  | .fieldOptions => [(fieldBehaviorNumber, .ints)]

def MarkElement.grammar : Grammar MarkElement := fun type number =>
  type.fields.lookup number

end ToolContract
