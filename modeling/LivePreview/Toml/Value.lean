import LivePreview.Assoc

/-! Values of configuration text.

A document is one table of tables. How a table came about decides who may add to it: keys with dots only go through
tables that no header has named, and a header names a table once. -/
namespace LivePreview.Toml

/-- How a table came about. -/
inductive Origin where
  /-- It is written in braces. -/
  | inline
  /-- A header names it, or it is the document. -/
  | header
  /-- A header names a table inside it. -/
  | passed
  /-- A key with dots goes through it. -/
  | dotted
deriving BEq, DecidableEq, Repr

/-- Whether a key with dots may go through a table. -/
def Origin.isOpen : Origin → Bool
  | passed | dotted => true
  | inline | header => false

inductive Value where
  | text (s : String)
  | whole (n : Int)
  | float
  | truth (b : Bool)
  | date
  | list (items : List Value)
  | table (origin : Origin) (entries : List (String × Value))
  /-- Tables that a header adds to one by one. -/
  | tables (items : List Value)
deriving Inhabited

abbrev Entries := List (String × Value)

/-- Changes the table at the end of a path, and makes the tables that are missing on the way. Among tables of one
header the way goes through the last. -/
def changeAt? (made : Origin) (change : Origin → Entries → Option Entries) :
    List String → Origin → Entries → Option Entries
  | [], origin, entries => change origin entries
  | key :: path, _, entries => do
    let inside (v : Value) : Option Value :=
      match v with
      | .table origin entries =>
        if origin == .inline || (made == .dotted && !origin.isOpen) then none
        else (changeAt? made change path origin entries).map (.table origin)
      | _ => none
    let new ← match (entries.lookup key).getD (.table made []) with
      | .tables items => do
        let last ← match items.getLast? with
          | some (.table origin entries) => (changeAt? made change path origin entries).map (.table origin)
          | _ => none
        some (.tables (items.dropLast ++ [last]))
      | v => inside v
    some (Assoc.insert key new entries)

/-- Adds a value under a key that is new, to a table that is not yet closed for such keys. A plain key and a key with
dots do not add to the same table. -/
def addNew? (isDotted : Bool) (key : String) (v : Value) (origin : Origin) (entries : Entries) : Option Entries :=
  if (origin == .dotted) != isDotted || (entries.lookup key).isSome then none else some (entries ++ [(key, v)])

/-- Adds a value under a key with dots. -/
def add? (path : List String) (key : String) (v : Value) (origin : Origin) (entries : Entries) : Option Entries :=
  changeAt? .dotted (addNew? (!path.isEmpty) key v) path origin entries

/-- Names a table by its header. -/
def open? (path : List String) (key : String) (entries : Entries) : Option Entries :=
  changeAt? .passed (fun _ entries =>
    match entries.lookup key with
    | none => some (Assoc.insert key (.table .header []) entries)
    | some (.table .passed inner) => some (Assoc.insert key (.table .header inner) entries)
    | some _ => none) path .header entries

/-- Adds a table to the tables of a header. -/
def openNext? (path : List String) (key : String) (entries : Entries) : Option Entries :=
  changeAt? .passed (fun _ entries =>
    match entries.lookup key with
    | none => some (Assoc.insert key (.tables [.table .header []]) entries)
    | some (.tables items) => some (Assoc.insert key (.tables (items ++ [.table .header []])) entries)
    | some _ => none) path .header entries

/-- Adds a value under a key with dots to the table that a header has opened. -/
def addUnder? (header path : List String) (key : String) (v : Value) (entries : Entries) : Option Entries :=
  changeAt? .passed (add? path key v) header .header entries

end LivePreview.Toml
