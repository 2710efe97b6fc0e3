import ToolContract.Schema.Basic

/-!
# Well-known types

Messages of the package `google.protobuf` whose JSON form is not that of a message: a timestamp is
a string, a wrapper is its bare value or `null`. They are told by their qualified names, and every
other message of that package is treated as any message.
-/

set_option autoImplicit false

namespace ToolContract

inductive WellKnown where
  | struct
  | value
  | listValue
  | timestamp
  | duration
  | empty
  | fieldMask
  | doubleValue
  | floatValue
  | int64Value
  | uint64Value
  | int32Value
  | uint32Value
  | boolValue
  | stringValue
  | bytesValue
  deriving DecidableEq, Repr

namespace WellKnown

def all : List WellKnown :=
  [.struct, .value, .listValue, .timestamp, .duration, .empty, .fieldMask, .doubleValue,
    .floatValue, .int64Value, .uint64Value, .int32Value, .uint32Value, .boolValue, .stringValue,
    .bytesValue]

def fullName : WellKnown → String
  | .struct => "google.protobuf.Struct"
  | .value => "google.protobuf.Value"
  | .listValue => "google.protobuf.ListValue"
  | .timestamp => "google.protobuf.Timestamp"
  | .duration => "google.protobuf.Duration"
  | .empty => "google.protobuf.Empty"
  | .fieldMask => "google.protobuf.FieldMask"
  | .doubleValue => "google.protobuf.DoubleValue"
  | .floatValue => "google.protobuf.FloatValue"
  | .int64Value => "google.protobuf.Int64Value"
  | .uint64Value => "google.protobuf.UInt64Value"
  | .int32Value => "google.protobuf.Int32Value"
  | .uint32Value => "google.protobuf.UInt32Value"
  | .boolValue => "google.protobuf.BoolValue"
  | .stringValue => "google.protobuf.StringValue"
  | .bytesValue => "google.protobuf.BytesValue"

def ofName? (name : String) : Option WellKnown :=
  all.find? fun type => type.fullName = QualifiedName.strip name

def schema : WellKnown → Schema
  | .struct => .openObject
  | .value =>
    .described
      "Accepts any dynamic JSON value: object, array, string, number, boolean, or null." .any
  | .listValue =>
    .described "A JSON array whose elements may be any dynamic JSON value." (.list .any)
  | .timestamp => .nullable .string (some "date-time")
  | .duration =>
    .described "Duration in seconds with an \"s\" suffix, for example \"1.5s\"." (.typed .string)
  | .empty => .emptyObject
  | .fieldMask => .described "Comma-separated field paths in lowerCamelCase." (.typed .string)
  | .doubleValue | .floatValue => .nullable .number none
  | .int64Value | .uint64Value | .stringValue | .bytesValue => .nullable .string none
  | .int32Value | .uint32Value => .nullable .integer none
  | .boolValue => .nullable .boolean none

theorem mem_all (type : WellKnown) : type ∈ all := by
  cases type <;> decide

end WellKnown

end ToolContract
