import LivePreview.Script.Numeral
import LivePreview.Script.Syntax
import LivePreview.Text.Utf8

/-! Values of component scripts.

Tables and functions are known by their place in the heap, so two of them are the same exactly when they have the
same place. -/
namespace LivePreview.Script

/-- What goes wrong inside the host while a script runs. -/
inductive HostFault where
  | runtime (text : String)
  /-- A host function was given an argument of the wrong type. -/
  | argument (position : Nat) (cause : String)
  | conversion (text : String)
  | memory
  | panic (text : String)
deriving DecidableEq, Repr

def HostFault.message : HostFault → String
  | .runtime text => "runtime error: " ++ text
  | .argument position cause => "bad argument #" ++ toString position ++ ": " ++ cause
  | .conversion text => text
  | .memory => "memory error: not enough memory"
  | .panic text => text

inductive Value where
  | nil
  | bool (b : Bool)
  | num (x : Float)
  | str (s : ByteArray)
  | table (place : Nat)
  | func (place : Nat)
  /-- The one value that is neither of the script nor nil. -/
  | null
  /-- A fault of the host that a script has caught. -/
  | failure (fault : HostFault)
deriving Inhabited

namespace Value

def ofString (s : String) : Value := .str s.toUTF8

def ofNat (n : Nat) : Value := .num n.toFloat

def isNil : Value → Bool
  | nil => true
  | _ => false

/-- Whether a condition takes the value as true. -/
def isTrue : Value → Bool
  | nil | bool false => false
  | _ => true

/-- Equality: by value for numbers, strings and truth values, by identity for tables and functions. -/
def same : Value → Value → Bool
  | nil, nil => true
  | bool a, bool b => a == b
  | num x, num y => x == y
  | str s, str t => s == t
  | table i, table j => i == j
  | func i, func j => i == j
  | null, null => true
  | failure f, failure g => f == g
  | _, _ => false

/-- The type as a script sees it. -/
def typeName : Value → String
  | nil => "nil"
  | bool _ => "boolean"
  | num _ => "number"
  | str _ => "string"
  | table _ => "table"
  | func _ => "function"
  | null | failure _ => "userdata"

/-- The type as the host sees it. -/
def hostTypeName : Value → String
  | num x => if (wholeNumber? x).isSome then "integer" else "number"
  | null => "lightuserdata"
  | failure _ => "error"
  | v => v.typeName

/-- A number, or the number that a string spells. -/
def asNumber? : Value → Option Float
  | num x => some x
  | str s => numberOfText? (Text.decodeLossy s).toList
  | _ => none

/-- A string, or the text of a number. -/
def asBytes? : Value → Option ByteArray
  | str s => some s
  | num x => some (String.ofList (numberText x)).toUTF8
  | _ => none

/-- The sixteen hexadecimal digits of a place. -/
def address (n : Nat) : String :=
  let digits := Nat.toDigits 16 n
  "0x" ++ String.ofList (List.replicate (16 - digits.length) '0' ++ digits)

/-- The text of any value. -/
def bytes : Value → ByteArray
  | nil => "nil".toUTF8
  | bool b => (if b then "true" else "false").toUTF8
  | num x => (String.ofList (numberText x)).toUTF8
  | str s => s
  | table i => ("table: " ++ address (16 * i + 16)).toUTF8
  | func i => ("function: " ++ address (16 * i + 16)).toUTF8
  | null => ("userdata: " ++ address 0).toUTF8
  | failure f => f.message.toUTF8

/-- The text of any value as characters. -/
def text (v : Value) : String := Text.decodeLossy v.bytes

end Value

/-! ### Tables -/

/-- A table: a sequence of items from 1 on, everything else, and what a call of it calls. -/
structure Table where
  items : Array Value := #[]
  fields : List (Value × Value) := []
  call : Option Value := none
deriving Inhabited

namespace Table

/-- The place in a sequence that a key names, counted from 0. -/
def place? (key : Value) : Option Nat :=
  match key with
  | .num x =>
    let n := x.toUInt64
    if n != 0 && n.toFloat == x then some (n.toNat - 1) else none
  | _ => none

def field (t : Table) (key : Value) : Value :=
  match t.fields.find? fun e => e.1.same key with
  | some (_, v) => v
  | none => .nil

/-- The value under a key, nil when there is none. -/
def get (t : Table) (key : Value) : Value :=
  match place? key with
  | some i => if h : i < t.items.size then t.items[i] else t.field key
  | none => t.field key

/-- The entries with a value under a key, in its place or at the end. -/
def putField (key v : Value) : List (Value × Value) → List (Value × Value)
  | [] => if v.isNil then [] else [(key, v)]
  | e :: r => if e.1.same key then (e.1, v) :: r else e :: putField key v r

/-- Moves the values that continue the sequence into it; at most `fuel` of them. -/
def extend (fuel : Nat) (t : Table) : Table :=
  match fuel with
  | 0 => t
  | fuel + 1 =>
    let key := Value.ofNat (t.items.size + 1)
    let v := t.field key
    if v.isNil then t
    else extend fuel { t with items := t.items.push v, fields := t.fields.filter fun e => !e.1.same key }

/-- Puts a value under a key; nil takes away what was there. -/
def set (t : Table) (key v : Value) : Table :=
  match place? key with
  | some i =>
    if i < t.items.size then { t with items := t.items.set! i v }
    else if i == t.items.size && !v.isNil then
      match t.fields with
      | [] => { t with items := t.items.push v }
      | fields =>
        extend fields.length { t with items := t.items.push v, fields := fields.filter fun e => !e.1.same key }
    else { t with fields := putField key v t.fields }
  | none => { t with fields := putField key v t.fields }

def setName (t : Table) (name : String) (v : Value) : Table := t.set (.ofString name) v

def getName (t : Table) (name : String) : Value := t.get (.ofString name)

/-- The last place before a nil, searched by halves among the first `n` items after `base` . -/
def border (items : Array Value) : Nat → Nat → Nat → Nat
  | 0, base, _ => base
  | fuel + 1, base, n =>
    let half := n / 2
    if half == 0 then if (items.getD base .nil).isNil then base else base + 1
    else border items fuel (if (items.getD (base + half) .nil).isNil then base else base + half) (n - half)

/-- The length of the sequence: a place with a value that is followed by one without. -/
def length (t : Table) : Nat :=
  let n := t.items.size
  if n == 0 || !(t.items.getD (n - 1) .nil).isNil then n else border t.items (n + 1) 0 n

/-- All entries, the sequence first. -/
def entries (t : Table) : List (Value × Value) :=
  (t.items.toList.zipIdx.filterMap fun (v, i) => if v.isNil then none else some (Value.ofNat (i + 1), v)) ++
    t.fields.filter fun e => !e.2.isNil

/-- The sequence up to the first nil. -/
def sequence (t : Table) : List Value := t.items.toList.takeWhile fun v => !v.isNil

/-- The item of the sequence at an index, counted from 0. -/
def item? (t : Table) (index : Nat) : Option Value := t.items[index]?.filter fun v => !v.isNil

/-- The table of a list of values. A nil leaves a hole. -/
def ofSequence (vs : List Value) : Table := { items := vs.toArray }

/-- The first item with a value from a place on, as an entry. -/
def itemFrom? (t : Table) (i : Nat) : Option (Value × Value) :=
  match ((t.items.toList.drop i).zipIdx i).find? fun e => !e.1.isNil with
  | some (v, j) => some (Value.ofNat (j + 1), v)
  | none => none

/-- The entry after a key, the first one after nil; none for a key that is not there. -/
def entryAfter? (t : Table) (key : Value) : Option (Option (Value × Value)) :=
  let fieldFrom (fields : List (Value × Value)) : Option (Value × Value) := fields.find? fun e => !e.2.isNil
  let itemFrom (i : Nat) : Option (Value × Value) :=
    if h : i < t.items.size then
      if t.items[i].isNil then (t.itemFrom? i).or (fieldFrom t.fields) else some (Value.ofNat (i + 1), t.items[i])
    else fieldFrom t.fields
  let inFields : Option (Option (Value × Value)) :=
    match t.fields.dropWhile fun e => !e.1.same key with
    | [] => none
    | _ :: r => some (fieldFrom r)
  match key with
  | .nil => some (itemFrom 0)
  | key =>
    match place? key with
    | some i => if i < t.items.size then some (itemFrom (i + 1)) else inFields
    | none => inFields

end Table

/-! ### Functions -/

/-- The functions of the standard library. -/
inductive Builtin where
  | assert | error | ipairs | inext | next | pairs | pcall | select | tonumber | tostring | type | unpack
  | repeated | upper | byte | format | sub
  | concat | insert
  | floor | max
  | char
deriving DecidableEq, Repr

/-- The hook functions. -/
inductive HookCall where
  | state | reducer | ref | memo | callback | effect
deriving DecidableEq, Repr

inductive Func where
  /-- A function of the script with the cells of the variables around it. -/
  | closure (body : FuncBody) (scope : List Nat)
  | builtin (b : Builtin)
  | hook (h : HookCall)
  /-- Sets the state of a hook call. -/
  | setter (key : String) (index : Nat)
  /-- Gives an action to the reducer of a hook call. -/
  | dispatcher (key : String) (index : Nat)
  | createElement
  /-- Calls a value with its first argument. -/
  | component (target : Value)
  /-- Calls a function with the arguments after the first one. -/
  | behind (target : Value)
  | log
  | stash
  | callable
  | panic

end LivePreview.Script
