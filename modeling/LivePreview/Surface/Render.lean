import LivePreview.Component
import LivePreview.Json.Value
import LivePreview.Markup.Node

/-! One render pass: from what a component function gives to nodes.

Each component instance has a key, made of the place of its element in the tree and of its function. The place of
a child is its index, or its key where it has one. -/
namespace LivePreview
open Script

/-- Why a component does not render. -/
inductive RenderError where
  | script (fault : HostFault)
  | invalidChild (found : String)
  | invalidElementType (found : String)
  | tooManyRerenders (limit : Nat)
  | depthExceeded (limit : Nat)
  | panic (text : String)
deriving DecidableEq, Repr

namespace RenderError

def message : RenderError → String
  | script fault => fault.message
  | invalidChild found => "Objects of type " ++ found ++ " are not valid as a child"
  | invalidElementType found =>
    "Element type is invalid: expected a tag name or a component function, found " ++ found
  | tooManyRerenders limit =>
    "Too many re-renders (" ++ toString limit ++ "); a component keeps updating state while rendering"
  | depthExceeded limit => "Maximum render depth of " ++ toString limit ++ " exceeded"
  | panic text => "Host callback panicked: " ++ text

/-- What a fault in a script is to the pass. -/
def ofFault (e : Fault) : RenderError :=
  match Run.hostFault e with
  | .panic text => panic text
  | fault => script fault

def isPanic : RenderError → Bool
  | panic _ => true
  | _ => false

end RenderError

/-! ### Values of the host as values of a script -/

/-- A number as a script has it. -/
def Json.toFloat? : Json → Option Float
  | .int n => some (if n < 0 then -(Decimal.toFloat ⟨n.natAbs, 0⟩) else Decimal.toFloat ⟨n.natAbs, 0⟩)
  | .num x => some x
  | _ => none

mutual

/-- A JSON value as a script has it. Null is nil: it leaves a hole in a sequence and no entry in an object. -/
def Json.toValue : Json → Run Value
  | .null => return .nil
  | .bool b => return .bool b
  | .int n => return .num (((Json.int n).toFloat?).getD 0)
  | .num x => return .num x
  | .str s => Run.newString s.toUTF8
  | .arr items => do Run.newTable (Table.ofSequence (← Json.toValues items))
  | .obj members => do Run.newTable (← Json.toTable {} members)

def Json.toValues : List Json → Run (List Value)
  | [] => return []
  | j :: js => do
    let v ← Json.toValue j
    return v :: (← Json.toValues js)

def Json.toTable (t : Table) : List (String × Json) → Run Table
  | [] => return t
  | (name, j) :: r => do
    let v ← Json.toValue j
    Json.toTable (t.setName name v) r

end

/-- Properties: those of an object, and none for every other value. -/
def Json.toProps (j : Json) : Run Value :=
  match j with
  | .obj _ => j.toValue
  | _ => Run.newTable {}

/-! ### Text of values in output -/

namespace Surface

/-- A number in output: never with an exponent. -/
def numberText (x : Float) : String :=
  match wholeNumber? x with
  | some n => toString n
  | none =>
    if x.isNaN then "NaN"
    else if x.isInf then if x < 0 then "-inf" else "inf"
    else if x == 0 then "0"
    else String.ofList ((if x < 0 then ['-'] else []) ++ Decimal.plain (Decimal.shortest x))

/-- The text of a string or number; other values have none. -/
def plainText? : Value → Option String
  | .str s => some (Text.decodeLossy s)
  | .num x => some (numberText x)
  | _ => none

/-- A style name in output: each capital letter is a hyphen and its small letter. -/
def kebabCase (name : String) : String :=
  String.ofList (name.toList.flatMap fun c => if 'A' ≤ c && c ≤ 'Z' then ['-', c.toLower] else [c])

/-- The rules of a style table under their written names, in the order of these. -/
def styleRules : List (Value × Value) → Except HostFault (List (String × String))
  | [] => .ok []
  | entries =>
    entries.foldlM (fun rules (key, v) =>
      match key.hostText with
      | .error why => .error (.conversion why)
      | .ok name =>
        match plainText? v with
        | some text => .ok (Node.insertEntry (kebabCase name) text rules)
        | none => .ok rules) []

def styleText (rules : List (String × String)) : String :=
  "; ".intercalate (rules.map fun (name, v) => name ++ ": " ++ v)

/-! ### The pass -/

/-- A render pass: the machine goes through it, and the handlers of the elements made so far are collected. -/
abbrev Pass := StateT (Array Value) (EStateM RenderError Machine)

/-- Elements nest at most this deep. -/
def maxDepth : Nat := 256

namespace Pass

def ofRun (r : Run α) : Pass α := fun handlers m =>
  match r m with
  | .ok a m => .ok (a, handlers) m
  | .error e m => .error (.ofFault e) m

def ofExcept (r : Except HostFault α) : Pass α :=
  match r with
  | .ok a => return a
  | .error fault => throw (.script fault)

/-- The place of an element's properties, if it has any. -/
def props? (element : Table) : Pass (Option Nat) :=
  match element.getName "props" with
  | .nil => return none
  | .table place => return some place
  | v => throw (.script (.conversion (conversionText v "table")))

/-- What one property adds to an element: nothing, an attribute or a handler. -/
inductive Property where
  | attribute (text : String)
  | handler
  | style (place : Nat)
  | ignored

/-- Properties that are not for the output. -/
def reserved : List String := ["children", "key", "ref"]

def Property.of (name : String) (v : Value) : Property :=
  if reserved.contains name then .ignored
  else
    match v with
    | .func _ => .handler
    | .bool true => .attribute ""
    | .table place => if name == "style" then .style place else .ignored
    | v => match plainText? v with
      | some text => .attribute text
      | none => .ignored

/-- The attributes and the handlers that properties add to those collected. -/
def readProps : List (Value × Value) → List (String × String) → List (String × Value) →
    Pass (List (String × String) × List (String × Value))
  | [], attributes, handlers => return (attributes, handlers)
  | (.str s, v) :: r, attributes, handlers => do
    let name := Text.decodeLossy s
    match Property.of name v with
    | .ignored => readProps r attributes handlers
    | .attribute text => readProps r (Node.insertEntry name text attributes) handlers
    | .style place => do
      let rules ← ofExcept (styleRules (← ofRun (Run.readTable place)).entries)
      readProps r (Node.insertEntry name (styleText rules) attributes) handlers
    | .handler => readProps r attributes (Node.insertEntry name v handlers)
  | _ :: r, attributes, handlers => readProps r attributes handlers

/-- Gives the handlers of an element the next ids, in the order of their names. -/
def deal (handlers : List (String × Value)) : Pass (List (String × Nat)) := do
  let first := (← get).size
  modify fun all => all ++ (handlers.map (·.2)).toArray
  return (handlers.zipIdx first).map fun (e, id) => (e.1, id)

/-- The text of an element's key, if it has one. -/
def keyText? (child : Value) : Pass (Option String) := do
  match child with
  | .table place =>
    let t ← ofRun (Run.readTable place)
    if !Element.isElement t then return none
    match ← props? t with
    | none => return none
    | some place => return plainText? ((← ofRun (Run.readTable place)).getName "key")
  | _ => return none

/-- The place of a child in the tree. -/
def childPath (parent : String) (index : Nat) (key? : Option String) : String :=
  match key? with
  | some key => parent ++ ".#" ++ key
  | none => parent ++ "." ++ toString index

/-- The key of the instance at a place that a function renders. -/
def instanceKey (path : String) (place : Nat) : Hook.Key := path ++ "@" ++ toString place

/-- The place of what an instance renders. -/
def innerPath (key : Hook.Key) : String := key ++ ">"

/-- Calls a component function as the body of an instance. A panic of the host leaves the body open. -/
def callBody (invoke : Invoke) (key : Hook.Key) (place : Nat) (props : Value) : Pass Value := fun handlers m =>
  match Run.first (invoke Trail.host (.func place) [props]) { m with hooks := m.hooks.enter key } with
  | .ok v m => .ok (v, handlers) { m with hooks := m.hooks.exit }
  | .error e m => .error (.ofFault e) (if e.isPanic then m else { m with hooks := m.hooks.exit })

/-- The item of a list at an index, as the list is now. -/
def item? (place index : Nat) : Pass (Option Value) := do
  return (← ofRun (Run.readTable place)).item? index

/-- How many items of a list are rendered at most: all that it has, and as many more as steps are left. -/
def reach (t : Table) : Pass Nat := do
  let m ← ofRun get
  return t.items.size + m.steps.getD m.allowance

/-- Goes along a list that may change on the way: each item is looked up when its turn comes, and the first index
without one is the end. After so many items the list is too long. -/
def along {p : Type → Type} [Monad p] (look : Nat → p (Option Value)) (visit : Nat → Value → p (List α))
    (tooLong : p (List α)) : Nat → Nat → p (List α)
  | 0, index => do
    match ← look index with
    | none => return []
    | some _ => tooLong
  | more + 1, index => do
    match ← look index with
    | none => return []
    | some child => return (← visit index child) ++ (← along look visit tooLong more (index + 1))

/-- Renders an element: a tag with its attributes and children, the children alone for a fragment, or an instance
of a component. -/
def elementBy (component : Nat → Value → String → Pass (List Node)) (value : Value → String → Pass (List Node))
    (t : Table) (path : String) : Pass (List Node) := do
  let own? ← props? t
  match t.getName "type" with
  | .str s =>
    let tag := Text.decodeLossy s
    let own ← match own? with
      | some place => ofRun (Run.readTable place)
      | none => pure {}
    let children := own.getName "children"
    if tag == Element.fragment then value children path
    else
      let (attributes, handlers) ← readProps own.entries [] []
      let handlers ← deal handlers
      return [.element tag attributes handlers (← value children path)]
  | .func place =>
    let props := match own? with
      | some place => .table place
      | none => .nil
    component place props path
  | v => throw (.invalidElementType v.hostTypeName)

/-- Renders an item of a list at a place of its own. -/
def inPlace (value : Value → String → Pass (List Node)) (path : String) (index : Nat) (child : Value) :
    Pass (List Node) := do
  value child (childPath path index (← keyText? child))

/-- Renders the items of a list from an index on. A component that is called for one of them may change what is behind
it. -/
def each (value : Value → String → Pass (List Node)) (place : Nat) (path : String) (more index : Nat) :
    Pass (List Node) :=
  along (item? place) (inPlace value path) (throw (.script Run.overtime)) more index

mutual

/-- Renders an instance of a component; at most so many levels may still be entered. -/
def component (invoke : Invoke) : Nat → Nat → Value → String → Pass (List Node)
  | 0, _, _, _ => throw (.depthExceeded maxDepth)
  | left + 1, place, props, path => do
    let key := instanceKey path place
    let v ← callBody invoke key place props
    value invoke left v (innerPath key)

/-- Renders a value at a place. -/
def value (invoke : Invoke) : Nat → Value → String → Pass (List Node)
  | 0, _, _ => throw (.depthExceeded maxDepth)
  | left + 1, v, path => do
    match v with
    | .nil | .bool _ | .null => return []
    | .table place =>
      let t ← ofRun (Run.readTable place)
      if Element.isElement t then elementBy (component invoke left) (value invoke left) t path
      else if t.length == 0 && !t.entries.isEmpty then throw (.invalidChild "object")
      else
        each (value invoke left) place path (← reach t) 0
    | v =>
      match plainText? v with
      | some text => return [.text text]
      | none => throw (.invalidChild v.hostTypeName)

end

/-- Renders a component at the root. -/
def root (invoke : Invoke) (render : Value) (props : Value) : Pass (List Node) :=
  match render with
  | .func place => component invoke (maxDepth + 1) place props "root"
  | v => throw (.invalidElementType v.hostTypeName)

end Pass
end Surface
end LivePreview
