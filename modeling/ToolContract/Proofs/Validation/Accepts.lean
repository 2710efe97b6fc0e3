import Mathlib.Algebra.Group.Int.Defs
import Mathlib.Logic.ExistsUnique
import ToolContract.Proofs.Json.Objects
import ToolContract.Schema.Basic

/-!
# Validation by JSON Schema documents

Which values a document accepts, by the 2020-12 meaning of the keywords that contracts are written
in; every other keyword is an annotation. A reference is looked up in the definitions of the
document by the name after `#/$defs/`. References that lead to references are followed as often as
there are definitions: a longer chain has come back to a definition and accepts nothing.
-/

set_option autoImplicit false

namespace ToolContract

/-- Whether the number is an integer, however it is written. -/
def Number.isWhole : Number → Bool
  | .integer _ => true
  | .decimal mantissa places => mantissa % 10 ^ places = 0

namespace Json

/-- Whether the value is of the type that a word of the keyword `type` stands for. -/
def isOfType : Json → String → Bool
  | .null, type => type = "null"
  | .bool _, type => type = "boolean"
  | .num number, type => type = "number" || type = "integer" && number.isWhole
  | .str _, type => type = "string"
  | .arr _, type => type = "array"
  | .obj _, type => type = "object"

/-- The words of the keyword `type`, which is one text or a list of texts. -/
def typeWords : Json → List String
  | .str word => [word]
  | .arr words => words.filterMap text?
  | _ => []

/-- The operand of a keyword of a schema. -/
def keyword? (schema : Json) (name : String) : Option Json :=
  schema.entries?.bind (Entries.get? name)

/-- The names that the keyword `properties` says something about. -/
def declaredNames (schema : Json) : List String :=
  match (schema.keyword? "properties").bind entries? with
  | some properties => properties.keys
  | none => []

theorem size_lt_of_items? {value item : Json} {items : List Json}
    (shape : value.items? = some items) (member : item ∈ items) : item.size < value.size := by
  cases value with
  | arr inner =>
    obtain rfl := Option.some.inj shape
    exact size_lt_of_mem_items member
  | _ => contradiction

theorem size_lt_of_entries? {value : Json} {entry : String × Json} {entries : Entries Json}
    (shape : value.entries? = some entries) (member : entry ∈ entries) :
    entry.2.size < value.size := by
  cases value with
  | obj inner =>
    obtain rfl := Option.some.inj shape
    exact size_lt_of_mem_entries member
  | _ => contradiction

private theorem size_str_lt_of_entries? {value : Json} {entry : String × Json}
    {entries : Entries Json}
    (shape : value.entries? = some entries) (member : entry ∈ entries) (text : String) :
    (Json.str text).size < value.size :=
  Nat.lt_of_le_of_lt entry.2.size_pos (size_lt_of_entries? shape member)

private theorem size_lt_of_keyword? {schema operand : Json} {name : String}
    (found : schema.keyword? name = some operand) : operand.size < schema.size := by
  obtain ⟨entries, shape, held⟩ := Option.bind_eq_some_iff.mp found
  exact size_lt_of_entries? shape (Entries.mem_of_get? held)

@[simp] theorem entries?_obj (entries : Entries Json) : (Json.obj entries).entries? = some entries :=
  rfl

@[simp] theorem items?_arr (items : List Json) : (Json.arr items).items? = some items := rfl

@[simp] theorem keyword?_obj (keywords : Entries Json) (name : String) :
    (Json.obj keywords).keyword? name = Entries.get? name keywords := rfl

@[simp] theorem keyword?_bool (truth : Bool) (name : String) :
    (Json.bool truth).keyword? name = none := rfl

/-- The schema accepts the value, where references are looked up in the definitions and `hops` of
them may follow each other without a step into the value. -/
def Accepts (definitions : Entries Json) (hops : Nat) (schema value : Json) : Prop :=
  (schema = .bool true ∨ schema.entries?.isSome = true) ∧
  (∀ operand, schema.keyword? "type" = some operand →
    ∃ word ∈ operand.typeWords, value.isOfType word = true) ∧
  (∀ operand, schema.keyword? "const" = some operand → value = operand) ∧
  (∀ operand, schema.keyword? "$ref" = some operand →
    ∃ name target, operand = .str (definitionPath name) ∧ definitions.get? name = some target ∧
      ∃ _ : 0 < hops, Accepts definitions (hops - 1) target value) ∧
  (∀ operand, (_ : schema.keyword? "oneOf" = some operand) →
    ∀ variants, (_ : operand.items? = some variants) →
    ∃! index : Fin variants.length, Accepts definitions hops (variants.get index) value) ∧
  (∀ operand, schema.keyword? "items" = some operand →
    ∀ items, (_ : value.items? = some items) → ∀ item, (_ : item ∈ items) →
      Accepts definitions definitions.length operand item) ∧
  (∀ operand, schema.keyword? "required" = some operand →
    ∀ names, operand.items? = some names → ∀ entries, value.entries? = some entries →
    ∀ name, .str name ∈ names → name ∈ entries.keys) ∧
  (∀ operand, schema.keyword? "properties" = some operand →
    ∀ properties, operand.entries? = some properties →
    ∀ entries, (_ : value.entries? = some entries) → ∀ entry, (_ : entry ∈ entries) →
    ∀ inner, properties.get? entry.1 = some inner →
      Accepts definitions definitions.length inner entry.2) ∧
  (∀ operand, schema.keyword? "additionalProperties" = some operand →
    ∀ entries, (_ : value.entries? = some entries) → ∀ entry, (_ : entry ∈ entries) →
      entry.1 ∉ schema.declaredNames → Accepts definitions definitions.length operand entry.2) ∧
  (∀ operand, schema.keyword? "propertyNames" = some operand →
    ∀ entries, (_ : value.entries? = some entries) → ∀ entry, (_ : entry ∈ entries) →
      Accepts definitions definitions.length operand (.str entry.1))
termination_by (value.size, hops, schema.size)
decreasing_by
  · exact .right _ (.left _ _ (by omega))
  · rename_i found listed
    have inside := size_lt_of_items? listed (List.getElem_mem index.isLt)
    exact .right _ (.right _ (Nat.lt_trans inside (size_lt_of_keyword? found)))
  · rename_i shape member
    exact .left _ _ (size_lt_of_items? shape member)
  · rename_i shape member _
    exact .left _ _ (size_lt_of_entries? shape member)
  · rename_i shape member _
    exact .left _ _ (size_lt_of_entries? shape member)
  · rename_i shape member
    exact .left _ _ (size_str_lt_of_entries? shape member _)

/-! ## Documents with the same assertions -/

/-- The keywords that validation looks at. -/
def assertions : List String :=
  ["type", "const", "$ref", "oneOf", "items", "required", "properties", "additionalProperties",
    "propertyNames"]

/-- The two schemas differ in annotations only. -/
structure SameAssertions (left right : Json) : Prop where
  left_object : left.entries?.isSome = true
  right_object : right.entries?.isSome = true
  keyword? : ∀ name ∈ assertions, left.keyword? name = right.keyword? name

theorem SameAssertions.symm {left right : Json} (same : SameAssertions left right) :
    SameAssertions right left :=
  ⟨same.right_object, same.left_object, fun name member => (same.keyword? name member).symm⟩

theorem SameAssertions.declaredNames {left right : Json} (same : SameAssertions left right) :
    left.declaredNames = right.declaredNames := by
  rw [Json.declaredNames, Json.declaredNames, same.keyword? "properties" (by decide)]

theorem sameAssertions_append {keywords annotations : Entries Json}
    (silent : ∀ name ∈ assertions, name ∉ annotations.keys) :
    SameAssertions (.obj (keywords ++ annotations)) (.obj keywords) := by
  refine ⟨rfl, rfl, fun name member => ?_⟩
  have absent := Entries.get?_eq_none_iff.mpr (silent name member)
  have found := Entries.get?_append name keywords annotations
  rw [absent, Option.or_none] at found
  exact found

theorem SameAssertions.accepts_iff {left right value : Json} (same : SameAssertions left right)
    {definitions : Entries Json} {hops : Nat} :
    Accepts definitions hops left value ↔ Accepts definitions hops right value := by
  have keyword? := same.keyword?
  simp only [assertions, List.mem_cons, List.not_mem_nil, or_false, forall_eq_or_imp,
    forall_eq] at keyword?
  obtain ⟨type, const, reference, oneOf, items, required, properties, additional, names⟩ := keyword?
  rw [Accepts, Accepts]
  simp only [type, const, reference, oneOf, items, required, properties, additional, names,
    same.declaredNames, same.left_object, same.right_object, or_true]

/-! ## Documents -/

/-- The definitions that a document carries. -/
def definitions (document : Json) : Entries Json :=
  ((document.keyword? "$defs").bind entries?).getD []

/-- The document accepts the value. -/
def Admits (document value : Json) : Prop :=
  Accepts document.definitions document.definitions.length document value

end Json

end ToolContract
