import LivePreview.Script.Argument

/-! Elements as component scripts make them: tables with a mark, a type and properties. -/
namespace LivePreview.Element
open Script

/-- The field that marks a table as an element. -/
def mark : String := "$$element"

/-- The type of an element that stands for its children. -/
def fragment : String := "$$fragment"

/-- The properties of a new element: those given, and its children under their own name. A single child is kept
as it is. -/
def properties (given : Table) (children : List Value) (child? : Option Value) : Table :=
  let copied := given.entries.foldl (fun t e => t.set e.1 e.2) ({} : Table)
  match children, child? with
  | [], _ => copied
  | [child], _ => copied.setName "children" child
  | _, some list => copied.setName "children" list
  | _, none => copied

/-- Makes an element from a type, properties or nothing, and children. -/
def create (args : List Value) : Run (List Value) := do
  let given ← match ← Run.optionalTable args 2 with
    | some place => Run.readTable place
    | none => pure {}
  let children := args.drop 2
  let list? ← if 2 ≤ children.length then some <$> Run.newTable (Table.ofSequence children) else pure none
  let own ← Run.newTable (properties given children list?)
  let table := ((({} : Table).setName mark (.bool true)).setName "type" (Run.argument args 1)).setName "props" own
  return [← Run.newTable table]

def isElement (t : Table) : Bool :=
  match t.getName mark with
  | .bool b => b
  | _ => false

end LivePreview.Element
