import LivePreview.Script.Format
import LivePreview.Script.Machine
import LivePreview.Script.Operation

/-! The standard library of scripts: what is left of it in a sandbox. -/
namespace LivePreview.Script

def Builtin.name : Builtin → String
  | .assert => "assert"
  | .error => "error"
  | .ipairs => "ipairs"
  | .inext => "ipairs"
  | .next => "next"
  | .pairs => "pairs"
  | .pcall => "pcall"
  | .select => "select"
  | .tonumber => "tonumber"
  | .tostring => "tostring"
  | .type => "type"
  | .unpack => "unpack"
  | .repeated => "rep"
  | .upper => "upper"
  | .byte => "byte"
  | .format => "format"
  | .sub => "sub"
  | .concat => "concat"
  | .insert => "insert"
  | .floor => "floor"
  | .max => "max"
  | .char => "char"

def Builtin.all : List Builtin :=
  [.assert, .error, .ipairs, .inext, .next, .pairs, .pcall, .select, .tonumber, .tostring, .type, .unpack, .repeated,
    .upper, .byte, .format, .sub, .concat, .insert, .floor, .max, .char]

/-- The place of a library function in every heap. -/
def Builtin.place (b : Builtin) : Nat := all.idxOf b

/-- A call of a library function: the function, where it is called and the arguments. -/
structure LibraryCall where
  builtin : Builtin
  trail : Trail
  args : List Value

namespace LibraryCall
variable (c : LibraryCall)

def site : Option Site := c.trail.headD none

def fail (message : String) : Run α := Run.fail c.site message

/-- The argument with a number, counted from 1. -/
def arg? (i : Nat) : Option Value := c.args[i - 1]?

def arg (i : Nat) : Value := (c.arg? i).getD .nil

def wrong (i : Nat) (why : String) : Run α :=
  c.fail ("invalid argument #" ++ toString i ++ " to '" ++ c.builtin.name ++ "' (" ++ why ++ ")")

def wrongType (i : Nat) (expected : String) : Run α :=
  match c.arg? i with
  | some v => c.wrong i (expected ++ " expected, got " ++ v.typeName)
  | none =>
    c.fail ("missing argument #" ++ toString i ++ " to '" ++ c.builtin.name ++ "' (" ++ expected ++ " expected)")

/-- Any value, which may be nil but must be there. -/
def any (i : Nat) : Run Value :=
  match c.arg? i with
  | some v => return v
  | none => c.fail ("missing argument #" ++ toString i)

def table (i : Nat) : Run Nat :=
  match c.arg i with
  | .table place => return place
  | _ => c.wrongType i "table"

def number (i : Nat) : Run Float :=
  match (c.arg i).asNumber? with
  | some x => return x
  | none => c.wrongType i "number"

/-- A float cut to a whole number. -/
def truncate (x : Float) : Int :=
  if x.isNaN then 0 else if x < 0 then -(x.abs.toUInt64.toNat : Int) else x.toUInt64.toNat

def whole (i : Nat) : Run Int := do return truncate (← c.number i)

def wholeOr (i : Nat) (other : Int) : Run Int :=
  if (c.arg i).isNil then return other else c.whole i

def bytes (i : Nat) : Run ByteArray :=
  match (c.arg i).asBytes? with
  | some s => return s
  | none => c.wrongType i "string"

/-! ### Basic functions -/

def assert : Run (List Value) := do
  let v ← c.any 1
  if v.isTrue then return c.args
  if (c.arg 2).isNil then c.fail "assertion failed!"
  c.fail (Text.decodeLossy (← c.bytes 2))

/-- Raises a value; a message starts with where the caller of the given level stands. -/
def error : Run (List Value) := do
  let level ← c.wholeOr 2 1
  let v := c.arg 1
  match v.asBytes? with
  | some s =>
    if 0 < level then
      let site := (c.trail[(level - 1).toNat]?).getD none
      Run.raise (.str ((Run.position site).toUTF8 ++ s))
    else Run.raise v
  | none => Run.raise v

def next : Run (List Value) := do
  let place ← c.table 1
  match (← Run.readTable place).entryAfter? (c.arg 2) with
  | some (some (k, v)) => return [k, v]
  | some none => return [.nil]
  | none => Run.fail none "invalid key to 'next'"

/-- The item after the one with a number. -/
def inext : Run (List Value) := do
  let i ← c.whole 2
  let place ← c.table 1
  let key := Value.num (Float.ofInt (i + 1))
  match (← Run.readTable place).get key with
  | .nil => return []
  | v => return [key, v]

def select : Run (List Value) := do
  match c.arg 1 with
  | .str s =>
    if s.toList.head? == some 35 then return [.ofNat (c.args.length - 1)]
  | _ => pure ()
  let i ← c.whole 1
  let n : Int := c.args.length
  let i := if i < 0 then n + i else if i > n then n else i
  if i < 1 then c.wrong 1 "index out of range"
  return c.args.drop i.toNat

/-- A whole number in a base, as 64 bits without a sign: a negative one counts down from `2 ^ 64` . -/
def wrapped? (base : Nat) (s : List Char) : Option Nat :=
  let s := ((s.dropWhile isGap).reverse.dropWhile isGap).reverse
  let (negative, s) := match s with
    | '-' :: r => (true, r)
    | '+' :: r => (false, r)
    | r => (false, r)
  let digits := match base, s with
    | 16, '0' :: 'x' :: r => r
    | 16, '0' :: 'X' :: r => r
    | _, r => r
  (wholeIn? base digits).map fun n =>
    if Nat.pow 2 64 ≤ n then Nat.pow 2 64 - 1 else if negative then (Nat.pow 2 64 - n) % Nat.pow 2 64 else n

def tonumber : Run (List Value) := do
  let base ← c.wholeOr 2 10
  if base == 10 then
    match (← c.any 1).asNumber? with
    | some x => return [.num x]
    | none => return [.nil]
  let s ← c.bytes 1
  if base < 2 || 36 < base then c.wrong 2 "base out of range"
  match wrapped? base.toNat ((Text.decodeLossy s).toList.takeWhile (· != '\x00')) with
  | some n => return [.num (Decimal.toFloat ⟨n, 0⟩)]
  | none => return [.nil]

def unpack : Run (List Value) := do
  let t ← Run.readTable (← c.table 1)
  let i ← c.wholeOr 2 1
  let e ← c.wholeOr 3 t.length
  let n := (e + 1 - i).toNat
  if 8000 ≤ n then c.fail "too many results to unpack"
  return (List.range n).map fun (k : Nat) => t.get (.num (Float.ofInt (i + k)))

/-! ### Strings -/

/-- A place in a string of `n` bytes: a negative one counts from the end. -/
def fromEnd (n : Nat) (i : Int) : Int := if i < 0 then max 0 (i + n + 1) else i

def repeated : Run (List Value) := do
  let s ← c.bytes 1
  let n ← c.whole 2
  if n ≤ 0 || s.size == 0 then return [.str .empty]
  if Nat.pow 2 30 / n.toNat < s.size then c.fail "resulting string too large"
  let size := s.size * n.toNat
  if Run.smallString ≤ size then Run.charge size
  let double (n : Nat) : ByteArray :=
    (List.range 31).reverse.foldl (fun t k => let t := t ++ t; if n.testBit k then t ++ s else t) .empty
  return [.str (double n.toNat)]

def upper : Run (List Value) := do
  let s ← c.bytes 1
  let up (b : UInt8) : UInt8 := if 97 ≤ b && b ≤ 122 then b - 32 else b
  return [.str ⟨s.data.map up⟩]

def byte : Run (List Value) := do
  let s ← c.bytes 1
  let i := fromEnd s.size (← c.wholeOr 2 1)
  let e := fromEnd s.size (← c.wholeOr 3 i)
  let i := max 1 i
  let e := min (s.size : Int) e
  return ((s.toList.drop (i - 1).toNat).take (e + 1 - i).toNat).map fun b => .ofNat b.toNat

def sub : Run (List Value) := do
  let s ← c.bytes 1
  let i := max 1 (fromEnd s.size (← c.whole 2))
  let e := min (s.size : Int) (fromEnd s.size (← c.wholeOr 3 (-1)))
  return [← Run.newString (s.extract (i - 1).toNat (max 0 e).toNat)]

/-- The text of one directive and the argument with a number. -/
def directive (d : Directive) (i : Nat) : Run ByteArray := do
  let ofChars (s : List Char) : ByteArray := (String.ofList s).toUTF8
  let cut (s : ByteArray) : ByteArray :=
    let s := match d.precision with
      | some p => s.extract 0 p
      | none => s
    let missing := ByteArray.mk (Array.replicate (d.width - s.size) 32)
    if d.left then s ++ missing else missing ++ s
  match d.letter with
  | 'c' => return cut (ByteArray.mk #[(truncate (← c.number i)).toNat.toUInt8])
  | 'd' | 'i' => return ofChars (d.whole (truncate (← c.number i)))
  | 'o' | 'u' | 'x' | 'X' => return ofChars (d.unsigned (truncate (← c.number i) % Int.pow 2 64).toNat)
  | 'e' | 'E' | 'f' | 'g' | 'G' => return ofChars (d.float (← c.number i))
  | 'q' => return ByteArray.mk (quote (← c.bytes i).toList).toArray
  | 's' => return cut (← c.bytes i)
  | letter => c.fail ("invalid option '%" ++ letter.toString ++ "' to 'format'")

/-- The text of a format whose next argument has a number; at most `fuel` characters and directives. -/
def formatFrom (i : Nat) (done : ByteArray) : Nat → List Char → Run ByteArray
  | 0, _ => return done
  | fuel + 1, s =>
    match s with
    | [] => return done
    | '%' :: '%' :: r => formatFrom i (done.push 37) fuel r
    | '%' :: r => do
      match c.arg? i with
      | none => c.fail ("missing argument #" ++ toString i)
      | some v =>
        match r with
        | '*' :: r => formatFrom (i + 1) (done ++ v.bytes) fuel r
        | r =>
          match Directive.read r with
          | .error message => c.fail message
          | .ok (d, r) => formatFrom (i + 1) (done ++ (← c.directive d i)) fuel r
    | ch :: r => formatFrom i (done ++ ch.toString.toUTF8) fuel r

def format : Run (List Value) := do
  let s := (Text.decodeLossy (← c.bytes 1)).toList
  return [← Run.newString (← c.formatFrom 2 .empty (s.length + 1) s)]

/-- The bytes of a character, also of half of a surrogate pair. -/
def charBytes (n : Nat) : List UInt8 :=
  let tail (k : Nat) : UInt8 := (0x80 + n / Nat.pow 64 k % 64).toUInt8
  if n < 0x80 then [n.toUInt8]
  else if n < 0x800 then [(0xC0 + n / 64).toUInt8, tail 0]
  else if n < 0x10000 then [(0xE0 + n / 4096).toUInt8, tail 1, tail 0]
  else [(0xF0 + n / 262144).toUInt8, tail 2, tail 1, tail 0]

def char : Run (List Value) := do
  let chars ← (List.range c.args.length).mapM fun k => do
    let n ← c.whole (k + 1)
    if n < 0 || 0x10FFFF < n then c.wrong (k + 1) "value out of range"
    return charBytes n.toNat
  return [.str (ByteArray.mk chars.flatten.toArray)]

/-! ### Tables -/

def concat : Run (List Value) := do
  let t ← Run.readTable (← c.table 1)
  let separator ← if (c.arg 2).isNil then pure ByteArray.empty else c.bytes 2
  let i ← c.wholeOr 3 1
  let e ← c.wholeOr 4 t.length
  let parts ← (List.range (e + 1 - i).toNat).mapM fun (k : Nat) => do
    let v := t.get (.num (Float.ofInt (i + k)))
    match v.asBytes? with
    | some s => return if k == 0 then s else separator ++ s
    | none =>
      c.fail ("invalid value (" ++ v.typeName ++ ") at index " ++ toString (i + k) ++ " in table for 'concat'")
  return [← Run.newString (parts.foldl (· ++ ·) .empty)]

def insert : Run (List Value) := do
  let place ← c.table 1
  let n := (← Run.readTable place).length
  match c.args with
  | [_, v] =>
    Run.writeTable place (.ofNat (n + 1)) v
    return []
  | [_, _, v] =>
    let start ← c.whole 2
    if 1 ≤ start && start ≤ n then
      for k in List.range (n + 1 - start.toNat) do
        Run.writeTable place (.ofNat (n - k + 1)) ((← Run.readTable place).get (.ofNat (n - k)))
    Run.writeTable place (.num (Float.ofInt start)) v
    return []
  | _ => c.fail "wrong number of arguments to 'insert'"

/-! ### Numbers -/

def greatest : Run (List Value) := do
  let first ← c.number 1
  let rest ← (List.range (c.args.length - 1)).mapM fun k => c.number (k + 2)
  return [.num (rest.foldl (fun m x => if m < x then x else m) first)]

/-- Runs the call. A protected call gives what went wrong as a value. -/
def run (invoke : Invoke) : Run (List Value) :=
  match c.builtin with
  | .assert => c.assert
  | .error => c.error
  | .ipairs => do
    let _ ← c.table 1
    return [.func Builtin.inext.place, c.arg 1, .num 0]
  | .inext => c.inext
  | .next => c.next
  | .pairs => do
    let _ ← c.table 1
    return [.func Builtin.next.place, c.arg 1, .nil]
  | .pcall => do
    let f ← c.any 1
    fun m =>
      match invoke (none :: c.trail) f (c.args.drop 1) m with
      | .ok vs m => .ok (.bool true :: vs) m
      | .error (.raised v) m => .ok [.bool false, v] m
      | .error .memory m => .ok [.bool false, .ofString "not enough memory"] m
  | .select => c.select
  | .tonumber => c.tonumber
  | .tostring => do return [.str (← c.any 1).bytes]
  | .type => do return [.ofString (← c.any 1).typeName]
  | .unpack => c.unpack
  | .repeated => c.repeated
  | .upper => c.upper
  | .byte => c.byte
  | .format => c.format
  | .sub => c.sub
  | .concat => c.concat
  | .insert => c.insert
  | .floor => do return [.num (← c.number 1).floor]
  | .max => c.greatest
  | .char => c.char

end LibraryCall
end LivePreview.Script
