import ToolContract.Toml.Basic

/-!
# Building tables

A document defines its tables piece by piece: by headers, by the headers of tables inside them, and
by dotted keys. What may follow depends on how a table came to be. A table that has its own header
takes no dotted key from outside; one that a dotted key made takes no header; one that was only
implied by longer headers may get its own header once. A value, an inline table and an array that
was written out take nothing more.
-/

set_option autoImplicit false

namespace ToolContract.Toml

inductive Origin where
  | header
  | implied
  | dotted
  deriving DecidableEq, Repr

/-- What stands under a key while a document is being read. -/
inductive Node where
  | value (value : Value)
  | table (origin : Origin) (entries : List (String × Node))
  | tables (latestFirst : List Node)
  deriving Repr, Inhabited

mutual

def Node.toValue : Node → Value
  | .value value => value
  | .table _ entries => .table (nodeEntries entries)
  | .tables latestFirst => .array (nodeValues latestFirst).reverse

def nodeEntries : List (String × Node) → List (String × Value)
  | [] => []
  | (key, node) :: rest => (key, node.toValue) :: nodeEntries rest

def nodeValues : List Node → List Value
  | [] => []
  | node :: rest => node.toValue :: nodeValues rest

end

structure KeyPath where
  tables : List String
  key : String
  deriving DecidableEq, Repr, Inhabited

/-- Changes the table at a path from the table with these entries, making the tables that are
missing on the way. -/
def atPath (isDotted : Bool)
    (change : Origin → Entries Node → Except Error (Entries Node)) :
    List String → Origin → Entries Node → Except Error (Entries Node)
  | [], origin, entries => change origin entries
  | key :: path, _, entries =>
    match entries.get? key with
    | none => do
      let origin := if isDotted then .dotted else .implied
      let inner ← atPath isDotted change path origin []
      return entries.put key (.table origin inner)
    | some (.table origin inner) =>
      if isDotted && origin = .header then .error .repeatedKey
      else do
        let inner ← atPath isDotted change path origin inner
        return entries.put key (.table origin inner)
    | some (.tables (.table origin inner :: earlier)) => do
      let inner ← atPath isDotted change path origin inner
      return entries.put key (.tables (.table origin inner :: earlier))
    | some _ => .error .closedValue

structure Assignment where
  target : KeyPath
  value : Value
  deriving Repr, Inhabited

/-- Enters a value into a table. A dotted key enters it only into a table that dotted keys made. -/
def assign (entries : Entries Node) (assignment : Assignment) : Except Error (Entries Node) :=
  let isDotted := !assignment.target.tables.isEmpty
  atPath isDotted
    (fun origin inner =>
      if isDotted && origin ≠ .dotted then .error .repeatedKey
      else if inner.contains assignment.target.key then .error .repeatedKey
      else .ok (inner ++ [(assignment.target.key, .value assignment.value)]))
    assignment.target.tables .header entries

def assignAll : Entries Node → List Assignment → Except Error (Entries Node)
  | entries, [] => .ok entries
  | entries, assignment :: rest => do assignAll (← assign entries assignment) rest

def inlineTable (assignments : List Assignment) : Except Error Value := do
  return .table (nodeEntries (← assignAll [] assignments))

structure Section where
  isItem : Bool
  target : KeyPath
  assignments : List Assignment
  deriving Repr, Inhabited

def addSection (document : Entries Node) (part : Section) : Except Error (Entries Node) :=
  atPath false
    (fun _ parent =>
      let key := part.target.key
      if part.isItem then do
        let table ← assignAll [] part.assignments
        match parent.get? key with
        | none => return parent.put key (.tables [.table .header table])
        | some (.tables earlier) => return parent.put key (.tables (.table .header table :: earlier))
        | some _ => .error .closedValue
      else
        match parent.get? key with
        | none => do return parent.put key (.table .header (← assignAll [] part.assignments))
        | some (.table .implied entries) => do
          return parent.put key (.table .header (← assignAll entries part.assignments))
        | some _ => .error .repeatedKey)
    part.target.tables .header document

def addSections : Entries Node → List Section → Except Error (Entries Node)
  | document, [] => .ok document
  | document, part :: rest => do addSections (← addSection document part) rest

end ToolContract.Toml
