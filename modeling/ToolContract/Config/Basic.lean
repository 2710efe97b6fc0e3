import ToolContract.Record
import ToolContract.Schema.Presence
import ToolContract.Text.Blank
import ToolContract.Tool.Catalog

/-!
# Configurations

The settings of a tool generator, and when they are valid. Limits are checked first, then the extra
properties in order: a name is an identifier, a context key is not blank, and no two extra
properties share a name or a context key, white space around context keys not counted.
-/

set_option autoImplicit false

namespace ToolContract

structure Config where
  options : Options := {}
  nameLimit : Nat := defaultNameLimit
  extras : List ExtraProperty := []
  deriving DecidableEq, Repr, Inhabited

inductive ConfigError where
  | unreadable
  | malformed
  | longPath
  | longText
  | notUtf8
  | nameLimit
  | manyExtras
  | emptyName
  | longName
  | badName (name : String)
  | blankKey (name : String)
  | longKey (name : String)
  | repeatedName (name : String)
  | repeatedKey (key : String)
  deriving DecidableEq, Repr

def maxConfigSize : Nat := 1024 * 1024

def minNameLimit : Nat := 16

def maxNameLimit : Nat := 256

def maxExtras : Nat := 32

/-- The greatest length of the name and of the context key of an extra property, in bytes. -/
def maxExtraNameLength : Nat := 128

/-- What is wrong with a configuration that was read; none if none could be read. -/
def ConfigError.detail? : ConfigError → Option String
  | .unreadable | .malformed => none
  | .longPath => some "config path exceeds max length"
  | .longText => some "config file exceeds size limit"
  | .notUtf8 => some "config file must be utf-8"
  | .nameLimit =>
    some ("naming.max_tool_name_len must be between " ++ toString minNameLimit ++ " and "
      ++ toString maxNameLimit)
  | .manyExtras => some ("extra_properties exceeds max entries (" ++ toString maxExtras ++ ")")
  | .emptyName => some "extra_properties.name must be non-empty"
  | .longName => some "extra_properties.name exceeds max length"
  | .badName name => some ("extra_properties.name must be an identifier: " ++ name)
  | .blankKey name => some ("extra_properties.context_key for " ++ name ++ " must be non-empty")
  | .longKey name => some ("extra_properties.context_key for " ++ name ++ " exceeds max length")
  | .repeatedName name => some ("duplicate extra property name: " ++ name)
  | .repeatedKey key => some ("duplicate extra property context_key: " ++ key)

def ConfigError.message? (error : ConfigError) : Option String :=
  error.detail?.map fun detail => "invalid config: " ++ detail

/-! ## Reading and writing -/

def Config.form : RecordForm :=
  ⟨["schema", "naming", "extra_properties"], false⟩

def Options.form : RecordForm :=
  ⟨["optional_keyword_support"], false⟩

def nameLimitForm : RecordForm :=
  ⟨["max_tool_name_len"], false⟩

def Options.read? (surplus : Surplus) (value : Json) : Option Options := do
  let fields ← Options.form.fields? surplus value
  return ⟨← fields.fieldOr? "optional_keyword_support" false Json.bool?⟩

def readNameLimit? (surplus : Surplus) (value : Json) : Option Nat := do
  let fields ← nameLimitForm.fields? surplus value
  fields.fieldOr? "max_tool_name_len" defaultNameLimit Json.size?

def Config.read? (surplus : Surplus) (value : Json) : Option Config := do
  let fields ← Config.form.fields? surplus value
  return {
    options := ← fields.fieldOr? "schema" {} (Options.read? surplus)
    nameLimit := ← fields.fieldOr? "naming" defaultNameLimit (readNameLimit? surplus)
    extras := ← fields.fieldOr? "extra_properties" []
      (Json.list? (ExtraProperty.read? surplus)) }

def Config.toJson (config : Config) : Json :=
  .obj [
    ("schema", .obj [("optional_keyword_support", .bool config.options.honourOptional)]),
    ("naming", .obj [("max_tool_name_len", .num (.integer config.nameLimit))]),
    ("extra_properties", .arr (config.extras.map ExtraProperty.toJson))]

/-! ## Validity -/

def isIdentifierStart (char : Char) : Bool :=
  char.isAlpha || char = '_'

def isIdentifierPart (char : Char) : Bool :=
  char.isAlphanum || char = '_'

/-- Whether the characters are an identifier of ASCII letters, digits and underscores. -/
def isIdentifier : List Char → Bool
  | [] => false
  | first :: rest => isIdentifierStart first && rest.all isIdentifierPart

namespace Config

def validateName (name : String) : Except ConfigError Unit :=
  if name = "" then .error .emptyName
  else if maxExtraNameLength < name.utf8ByteSize then .error .longName
  else if isIdentifier name.toList then .ok ()
  else .error (.badName name)

/-- Checks an extra property after those with the given names and trimmed context keys. -/
def validateExtra (names keys : List String) (extra : ExtraProperty) : Except ConfigError Unit :=
  let key := Text.trim extra.contextKey
  match validateName extra.name with
  | .error cause => .error cause
  | .ok () =>
    if key = "" then .error (.blankKey extra.name)
    else if maxExtraNameLength < key.utf8ByteSize then .error (.longKey extra.name)
    else if extra.name ∈ names then .error (.repeatedName extra.name)
    else if key ∈ keys then .error (.repeatedKey key)
    else .ok ()

/-- Checks extra properties in order, after those with the given names and trimmed context keys. -/
def validateExtras : List String → List String → List ExtraProperty → Except ConfigError Unit
  | _, _, [] => .ok ()
  | names, keys, extra :: rest =>
    match validateExtra names keys extra with
    | .error cause => .error cause
    | .ok () => validateExtras (extra.name :: names) (Text.trim extra.contextKey :: keys) rest

def validate (config : Config) : Except ConfigError Unit :=
  if config.nameLimit < minNameLimit ∨ maxNameLimit < config.nameLimit then .error .nameLimit
  else if maxExtras < config.extras.length then .error .manyExtras
  else validateExtras [] [] config.extras

def catalog (config : Config) (registry : Registry) : Catalog where
  compiler := ⟨registry, config.options⟩
  extras := config.extras
  nameLimit := config.nameLimit

end Config

end ToolContract
