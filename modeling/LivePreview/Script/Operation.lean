import LivePreview.Script.Value

/-! Operators on values. An operator that has no meaning for its operands gives the message to fail with. -/
namespace LivePreview.Script

/-- The name of an arithmetic operator in messages. -/
def BinaryOp.word : BinaryOp → String
  | .add => "add"
  | .sub => "sub"
  | .mul => "mul"
  | .div => "div"
  | .floorDiv => "idiv"
  | .mod => "mod"
  | .pow => "pow"
  | .concat => "concat"
  | .eq | .ne => "eq"
  | .lt | .gt => "lt"
  | .le | .ge => "le"

namespace Value

/-- Arithmetic on numbers; division and remainder round down. -/
def compute (op : BinaryOp) (x y : Float) : Float :=
  match op with
  | .add => x + y
  | .sub => x - y
  | .mul => x * y
  | .div => x / y
  | .floorDiv => (x / y).floor
  | .mod => x - (x / y).floor * y
  | .pow => if y == 2 then x * x else x.pow y
  | _ => 0

def arithmetic (op : BinaryOp) (a b : Value) : Except String Value :=
  match a.asNumber?, b.asNumber? with
  | some x, some y => .ok (.num (compute op x y))
  | _, _ =>
    let types := if a.typeName == b.typeName then a.typeName else a.typeName ++ " and " ++ b.typeName
    .error ("attempt to perform arithmetic (" ++ op.word ++ ") on " ++ types)

def negate (a : Value) : Except String Value :=
  match a.asNumber? with
  | some x => .ok (.num (-x))
  | none => .error ("attempt to perform arithmetic (unm) on " ++ a.typeName)

/-- The order of strings, byte by byte. -/
def bytesLess : List UInt8 → List UInt8 → Bool
  | _, [] => false
  | [], _ :: _ => true
  | a :: r, b :: s => a < b || (a == b && bytesLess r s)

/-- Order of numbers and of strings. -/
def less (orEqual : Bool) (a b : Value) : Except String Bool :=
  match a, b with
  | .num x, .num y => .ok (if orEqual then x ≤ y else x < y)
  | .str s, .str t => .ok (if orEqual then !bytesLess t.toList s.toList else bytesLess s.toList t.toList)
  | _, _ =>
    .error ("attempt to compare " ++ a.typeName ++ (if orEqual then " <= " else " < ") ++ b.typeName)

def concatenate (a b : Value) : Except String ByteArray :=
  match a.asBytes?, b.asBytes? with
  | some s, some t => .ok (s ++ t)
  | _, _ => .error ("attempt to concatenate " ++ a.typeName ++ " with " ++ b.typeName)

/-- What to say when a value has no entries to look up or to change. -/
def indexMessage (a key : Value) : String :=
  "attempt to index " ++ a.typeName ++ " with " ++
    match key with
    | .str s => "'" ++ Text.decodeLossy s ++ "'"
    | key => key.typeName

/-- What to say when a value cannot be a key; none when it can. -/
def keyComplaint? : Value → Option String
  | .nil => some "table index is nil"
  | .num x => if x.isNaN then some "table index is NaN" else none
  | _ => none

def callMessage (a : Value) : String := "attempt to call a " ++ a.typeName ++ " value"

end Value
end LivePreview.Script
