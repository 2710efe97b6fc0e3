import ToolContract.Config.Load
import ToolContract.Proofs.Config.Validity
import ToolContract.Proofs.Text.Trim

/-!
# The rules of a configuration

The rules are listed in the order in which they are checked, those of the limits before those of the
extra properties one by one, where the later ones may not repeat what the earlier ones have. A
configuration is valid if it breaks none of them, every configuration that was loaded is, and the
message about any other is that of the first rule it breaks (`Config.validate_outcome`).
-/

set_option autoImplicit false

namespace ToolContract

/-! ## Rules in order -/

/-- When the rule is broken, and what is said then. -/
structure Rule where
  IsBroken : Prop
  text : String

/-- The text is that of the first rule that is broken. -/
inductive FirstBroken : List Rule → String → Prop where
  | here {rule : Rule} {rest : List Rule} : rule.IsBroken → FirstBroken (rule :: rest) rule.text
  | later {rule : Rule} {rest : List Rule} {text : String} :
      ¬ rule.IsBroken → FirstBroken rest text → FirstBroken (rule :: rest) text

/-- Checks go through the rules in order and end at the first that is broken. -/
inductive Follows : Except ConfigError Unit → List Rule → Prop where
  | kept {rules : List Rule} : (∀ rule ∈ rules, ¬ rule.IsBroken) → Follows (.ok ()) rules
  | broken {rules : List Rule} {cause : ConfigError} {text : String} :
      FirstBroken rules text → cause.message? = some ("invalid config: " ++ text) →
      Follows (.error cause) rules

private theorem FirstBroken.append {left : List Rule} {text : String}
    (first : FirstBroken left text)
    (right : List Rule) : FirstBroken (left ++ right) text := by
  induction first with
  | here broken => exact .here broken
  | later kept _ ih => exact .later kept ih

private theorem FirstBroken.append_of_kept {left right : List Rule} {text : String}
    (kept : ∀ rule ∈ left, ¬ rule.IsBroken) (first : FirstBroken right text) :
    FirstBroken (left ++ right) text := by
  induction left with
  | nil => exact first
  | cons rule rest ih =>
    obtain ⟨here, later⟩ := List.forall_mem_cons.mp kept
    exact .later here (ih later)

namespace Follows

variable {rules later : List Rule} {next : Except ConfigError Unit}

/-- A check for one rule before others. -/
theorem check {isBroken : Prop} [Decidable isBroken] {text : String} {cause : ConfigError}
    (said : cause.message? = some ("invalid config: " ++ text)) (follows : Follows next rules) :
    Follows (if isBroken then .error cause else next) (⟨isBroken, text⟩ :: rules) := by
  by_cases broken : isBroken
  · rw [if_pos broken]
    exact .broken (.here broken) said
  · rw [if_neg broken]
    cases follows with
    | kept all => exact .kept (List.forall_mem_cons.mpr ⟨broken, all⟩)
    | broken first message => exact .broken (.later broken first) message

private theorem none : Follows (.ok ()) [] :=
  .kept fun _ listed => absurd listed List.not_mem_nil

/-- Checks after others that succeeded. -/
theorem append {outcome : Except ConfigError Unit} :
    Follows outcome rules → Follows next later →
      Follows
        (match outcome with
          | .error cause => .error cause
          | .ok () => next) (rules ++ later) := by
  intro first second
  cases first with
  | broken found message => exact .broken (found.append later) message
  | kept all =>
    cases second with
    | kept others => exact .kept (List.forall_mem_append.mpr ⟨all, others⟩)
    | broken found message => exact .broken (.append_of_kept all found) message

end Follows

/-! ## Identifiers -/

def IsAsciiLetter (char : Char) : Prop :=
  'A' ≤ char ∧ char ≤ 'Z' ∨ 'a' ≤ char ∧ char ≤ 'z'

def IsAsciiDigit (char : Char) : Prop :=
  '0' ≤ char ∧ char ≤ '9'

/-- A letter or an underscore, and then letters, digits and underscores. -/
def IsAsciiIdentifier (text : String) : Prop :=
  ∃ first rest, text.toList = first :: rest ∧ (IsAsciiLetter first ∨ first = '_') ∧
    ∀ char ∈ rest, IsAsciiLetter char ∨ IsAsciiDigit char ∨ char = '_'

private theorem isAlpha_iff {char : Char} : char.isAlpha = true ↔ IsAsciiLetter char := by
  have upper : char.isUpper = true ↔ 'A' ≤ char ∧ char ≤ 'Z' := decide_eq_true_iff
  have lower : char.isLower = true ↔ 'a' ≤ char ∧ char ≤ 'z' :=
    Bool.and_eq_true_iff.trans (and_congr decide_eq_true_iff decide_eq_true_iff)
  exact Bool.or_eq_true_iff.trans (or_congr upper lower)

private theorem isAlphanum_iff {char : Char} :
    char.isAlphanum = true ↔ IsAsciiLetter char ∨ IsAsciiDigit char := by
  simp [Char.isAlphanum, isAlpha_iff, Char.isDigit, IsAsciiDigit, Char.le_def]

private theorem isIdentifier_iff {text : String} :
    isIdentifier text.toList = true ↔ IsAsciiIdentifier text := by
  rw [IsAsciiIdentifier]
  cases text.toList with
  | nil => simp [isIdentifier]
  | cons first rest =>
    have checked : isIdentifier (first :: rest) = true ↔ (IsAsciiLetter first ∨ first = '_') ∧
        ∀ char ∈ rest, IsAsciiLetter char ∨ IsAsciiDigit char ∨ char = '_' := by
      simp [isIdentifier, isIdentifierStart, isIdentifierPart, isAlpha_iff, isAlphanum_iff,
        or_assoc]
    rw [checked]
    constructor
    · exact fun form => ⟨first, rest, rfl, form⟩
    · rintro ⟨_, _, same, form⟩
      obtain ⟨rfl, rfl⟩ := List.cons.inj same
      exact form

/-! ## The rules -/

namespace ExtraProperty

def nameRules (name : String) : List Rule :=
  [⟨name = "", "extra_properties.name must be non-empty"⟩,
    ⟨128 < name.utf8ByteSize, "extra_properties.name exceeds max length"⟩,
    ⟨¬ IsAsciiIdentifier name, "extra_properties.name must be an identifier: " ++ name⟩]

/-- The rules for an extra property that comes after others: those for its name, those for its context
key, and that it repeats neither. -/
def rules (before : List ExtraProperty) (extra : ExtraProperty) : List Rule :=
  nameRules extra.name ++
  [⟨extra.trimmedKey = "",
      "extra_properties.context_key for " ++ extra.name ++ " must be non-empty"⟩,
    ⟨128 < extra.trimmedKey.utf8ByteSize,
      "extra_properties.context_key for " ++ extra.name ++ " exceeds max length"⟩,
    ⟨∃ earlier ∈ before, earlier.name = extra.name,
      "duplicate extra property name: " ++ extra.name⟩,
    ⟨∃ earlier ∈ before, earlier.trimmedKey = extra.trimmedKey,
      "duplicate extra property context_key: " ++ extra.trimmedKey⟩]

/-- The rules for extra properties in order, after others. -/
def rulesAfter (before : List ExtraProperty) : List ExtraProperty → List Rule
  | [] => []
  | extra :: rest => extra.rules before ++ rulesAfter (extra :: before) rest

end ExtraProperty

namespace Config

/-- All rules in the order in which they are checked. -/
def rules (config : Config) : List Rule :=
  ⟨¬ (16 ≤ config.nameLimit ∧ config.nameLimit ≤ 256),
    "naming.max_tool_name_len must be between 16 and 256"⟩ ::
  ⟨32 < config.extras.length, "extra_properties exceeds max entries (32)"⟩ ::
  ExtraProperty.rulesAfter [] config.extras

/-! ## The checks follow the rules -/

private theorem validateName_follows (name : String) :
    Follows (validateName name) (ExtraProperty.nameRules name) := by
  unfold validateName
  refine .check rfl (.check rfl ?_)
  by_cases identifier : isIdentifier name.toList = true
  · rw [if_pos identifier]
    refine .kept (List.forall_mem_singleton.mpr ?_)
    exact not_not_intro (isIdentifier_iff.mp identifier)
  · rw [if_neg identifier]
    exact .broken (.here (mt isIdentifier_iff.mpr identifier)) rfl

private theorem validateExtra_follows (before : List ExtraProperty) (extra : ExtraProperty) :
    Follows
      (validateExtra (before.map ExtraProperty.name) (before.map ExtraProperty.trimmedKey) extra)
      (extra.rules before) := by
  unfold validateExtra
  refine (validateName_follows extra.name).append ?_
  refine .check rfl (.check rfl ?_)
  simp only [List.mem_map]
  exact .check rfl (.check rfl .none)

/-- The names and trimmed keys of the extra properties that were checked go along. -/
theorem validateExtras_follows (before extras : List ExtraProperty) :
    Follows
      (validateExtras (before.map ExtraProperty.name) (before.map ExtraProperty.trimmedKey) extras)
      (ExtraProperty.rulesAfter before extras) := by
  induction extras generalizing before with
  | nil => exact .none
  | cons extra rest ih => exact (validateExtra_follows before extra).append (ih (extra :: before))

private theorem validate_follows (config : Config) : Follows config.validate config.rules := by
  unfold validate
  have limits : (config.nameLimit < minNameLimit ∨ maxNameLimit < config.nameLimit) ↔
      ¬ (16 ≤ config.nameLimit ∧ config.nameLimit ≤ 256) := by
    rw [minNameLimit, maxNameLimit]
    omega
  simp only [limits]
  exact .check (by decide) (.check (by decide) (validateExtras_follows [] config.extras))

/-! ## Loaded configurations -/

variable {config : Config}

private theorem validate_of_ofToml {text : String} (read : ofToml text = .ok config) :
    config.validate = .ok () := by
  unfold ofToml at read
  split at read
  · cases read
  · split at read
    · cases read
    · split at read
      · cases read
      · split at read
        · rename_i valid
          obtain rfl := Except.ok.inj read
          exact valid
        · cases read

private theorem validate_of_ofFile {content : ByteArray} (read : ofFile content = .ok config) :
    config.validate = .ok () := by
  unfold ofFile at read
  split at read
  · cases read
  · split at read
    · exact validate_of_ofToml read
    · cases read

private theorem validate_of_load {given : Option String} {environment? : Option ByteArray}
    {readFile? : String → Option ByteArray}
    (loaded : load given environment? readFile? = .ok config) : config.validate = .ok () := by
  unfold load at loaded
  split at loaded
  · cases loaded
  · split at loaded
    · exact validate_of_ofFile loaded
    · cases loaded

end Config

/-! ## Valid configurations in numbers -/

private theorem one_le_utf8ByteSize_iff {text : String} : 1 ≤ text.utf8ByteSize ↔ text ≠ "" := by
  rw [Nat.one_le_iff_ne_zero, ne_eq, String.utf8ByteSize_eq_zero_iff]

private theorem ExtraProperty.valid_iff {extra : ExtraProperty} :
    extra.Valid ↔
      (1 ≤ extra.name.utf8ByteSize ∧ extra.name.utf8ByteSize ≤ 128) ∧
        IsAsciiIdentifier extra.name ∧
        1 ≤ extra.trimmedKey.utf8ByteSize ∧ extra.trimmedKey.utf8ByteSize ≤ 128 := by
  rw [one_le_utf8ByteSize_iff, one_le_utf8ByteSize_iff, ← isIdentifier_iff]
  constructor
  · rintro ⟨named, shortName, identifier, keyed, shortKey⟩
    exact ⟨⟨named, shortName⟩, identifier, keyed, shortKey⟩
  · rintro ⟨⟨named, shortName⟩, identifier, keyed, shortKey⟩
    exact ⟨named, shortName, identifier, keyed, shortKey⟩

private theorem Config.valid_iff {config : Config} :
    config.Valid ↔
      (16 ≤ config.nameLimit ∧ config.nameLimit ≤ 256) ∧ config.extras.length ≤ 32 ∧
        (∀ extra ∈ config.extras, extra.Valid) ∧
        (config.extras.map ExtraProperty.name).Nodup ∧
        (config.extras.map ExtraProperty.trimmedKey).Nodup := by
  constructor
  · rintro ⟨low, high, count, extras, names, keys⟩
    exact ⟨⟨low, high⟩, count, extras, names, keys⟩
  · rintro ⟨⟨low, high⟩, count, extras, names, keys⟩
    exact ⟨low, high, count, extras, names, keys⟩

/-- A configuration passes the checks exactly if the limit of names is in its range, there are at most
32 extra properties, each of them has an identifier of at most 128 bytes for a name and a context key
that has 1 to 128 bytes once trimmed, and no two share a name or a trimmed context key. Every
configuration that is read from a text or loaded passes. Where one does not, the message is that of
the first of the rules that it breaks. -/
theorem Config.validate_outcome (config : Config) :
    (config.validate = .ok () ↔
      (16 ≤ config.nameLimit ∧ config.nameLimit ≤ 256) ∧ config.extras.length ≤ 32 ∧
      (∀ extra ∈ config.extras,
        (1 ≤ extra.name.utf8ByteSize ∧ extra.name.utf8ByteSize ≤ 128) ∧
        IsAsciiIdentifier extra.name ∧
        1 ≤ extra.trimmedKey.utf8ByteSize ∧ extra.trimmedKey.utf8ByteSize ≤ 128) ∧
      (config.extras.map ExtraProperty.name).Nodup ∧
      (config.extras.map ExtraProperty.trimmedKey).Nodup) ∧
    (∀ extra ∈ config.extras, Text.Trims extra.contextKey extra.trimmedKey) ∧
    (∀ text, ofToml text = .ok config → config.validate = .ok ()) ∧
    (∀ given environment? readFile?,
      load given environment? readFile? = .ok config → config.validate = .ok ()) ∧
    ∀ cause, config.validate = .error cause →
      ∃ text, cause.message? = some ("invalid config: " ++ text) ∧
        FirstBroken config.rules text := by
  refine ⟨?_, fun extra _ => Text.trims_trim extra.contextKey, fun _ => validate_of_ofToml,
    fun _ _ _ => validate_of_load, fun cause failed => ?_⟩
  · simp only [validate_eq_ok_iff, valid_iff, ExtraProperty.valid_iff]
  · have follows := config.validate_follows
    rw [failed] at follows
    cases follows with
    | broken first message => exact ⟨_, message, first⟩

namespace Owners

def tenant : ExtraProperty where
  name := "tenant"
  description := "Who is asking."
  contextKey := " x-tenant"

/-- Its context key differs from that of the tenant in white space only. -/
def owner : ExtraProperty where
  name := "owner"
  description := "Who is paying."
  contextKey := "x-tenant\u00a0"

def config : Config where
  extras := [tenant, owner]

end Owners

/-- The trimmed context key of the second property is that of the first. The configuration of the
empty text is valid. -/
theorem Config.validate_outcome_owners :
    Owners.config.validate = .error (.repeatedKey "x-tenant") ∧
    FirstBroken Owners.config.rules "duplicate extra property context_key: x-tenant" ∧
    ofToml "" = .ok {} ∧ ({} : Config).validate = .ok () := by
  have repeated : Owners.config.validate = .error (.repeatedKey "x-tenant") := by decide +kernel
  have empty : ofToml "" = .ok {} := by decide +kernel
  obtain ⟨-, -, -, -, broken⟩ := Config.validate_outcome Owners.config
  obtain ⟨text, message, first⟩ := broken _ repeated
  have said : "duplicate extra property context_key: x-tenant" = text :=
    (String.append_right_inj _).mp (Option.some.inj message)
  exact ⟨repeated, said ▸ first, empty, (Config.validate_outcome {}).2.2.1 "" empty⟩

end ToolContract
