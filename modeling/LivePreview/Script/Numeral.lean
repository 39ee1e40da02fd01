import LivePreview.Decimal.Shortest
import LivePreview.Text.Space

/-! Numbers in scripts: reading numerals and writing numbers.

A number is written in as few digits as read back. Between a millionth and `10 ^ 21` it stands without an
exponent. -/
namespace LivePreview.Script

def digitOf? (base : Nat) (c : Char) : Option Nat :=
  let n :=
    if Text.isDigit c then c.toNat - '0'.toNat
    else if 'a' ≤ c && c ≤ 'z' then c.toNat - 'a'.toNat + 10
    else if 'A' ≤ c && c ≤ 'Z' then c.toNat - 'A'.toNat + 10
    else base
  if n < base then some n else none

/-- The number that all the characters spell in a base, at least one. -/
def wholeIn? (base : Nat) (s : List Char) : Option Nat :=
  if s.isEmpty then none
  else s.foldl (fun n c => do some ((← n) * base + (← digitOf? base c))) (some 0)

/-- A decimal numeral: digits, perhaps a point and an exponent. -/
def decimal? (s : List Char) : Option Float :=
  let whole := s.takeWhile Text.isDigit
  let (fraction, r) := match s.dropWhile Text.isDigit with
    | '.' :: t => (t.takeWhile Text.isDigit, t.dropWhile Text.isDigit)
    | t => ([], t)
  let digits := whole ++ fraction
  let power? : Option Int := match r with
    | [] => some 0
    | c :: t =>
      if c != 'e' && c != 'E' then none
      else match t with
        | '-' :: u => (wholeIn? 10 u).map fun n => -(n : Int)
        | '+' :: u => (wholeIn? 10 u).map fun n => (n : Int)
        | u => (wholeIn? 10 u).map fun n => (n : Int)
  if digits.isEmpty then none
  else do
    let power ← power?
    let n ← wholeIn? 10 digits
    some (Decimal.toFloat ⟨n, power - fraction.length⟩)

/-- A numeral of a script: decimal, or in base 16 after `0x`, or in base 2 after `0b`. -/
def numeral? : List Char → Option Float
  | '0' :: c :: r =>
    if c == 'x' || c == 'X' then (wholeIn? 16 r).map fun n => Decimal.toFloat ⟨n, 0⟩
    else if c == 'b' || c == 'B' then (wholeIn? 2 r).map fun n => Decimal.toFloat ⟨n, 0⟩
    else decimal? ('0' :: c :: r)
  | s => decimal? s

/-- A number in base 16: digits, perhaps a point, and perhaps an exponent, which is a power of two. -/
def hexadecimal? (s : List Char) : Option Float :=
  let isHex (c : Char) : Bool := (digitOf? 16 c).isSome
  let whole := s.takeWhile isHex
  let (fraction, r) := match s.dropWhile isHex with
    | '.' :: t => (t.takeWhile isHex, t.dropWhile isHex)
    | t => ([], t)
  let power? : Option Int := match r with
    | [] => some 0
    | c :: t =>
      if c != 'p' && c != 'P' then none
      else match t with
        | '-' :: u => (wholeIn? 10 u).map fun n => -(n : Int)
        | '+' :: u => (wholeIn? 10 u).map fun n => (n : Int)
        | u => (wholeIn? 10 u).map fun n => (n : Int)
  do
    let power ← power?
    let n ← wholeIn? 16 (whole ++ fraction)
    some (Decimal.ofBinary n (power - 4 * fraction.length))

/-- White space around numbers. -/
def isGap (c : Char) : Bool := c == ' ' || (9 ≤ c.toNat && c.toNat ≤ 13)

/-- A text as a number: a sign and white space around it are allowed, and so are the names of the special
values. The zero character ends the text. -/
def numberOfText? (s : List Char) : Option Float :=
  let s := s.takeWhile (· != '\x00')
  let s := ((s.dropWhile isGap).reverse.dropWhile isGap).reverse
  match s with
  | '-' :: r => (unsigned? r).map (-·)
  | '+' :: r => unsigned? r
  | r => unsigned? r
where
  unsigned? (s : List Char) : Option Float :=
    match String.ofList (Text.lower s) with
    | "inf" | "infinity" => some (1.0 / 0.0)
    | "nan" => some (0.0 / 0.0)
    | _ => match s with
      | '0' :: c :: r => if c == 'x' || c == 'X' then hexadecimal? r else decimal? s
      | _ => decimal? s

def isNegative (x : Float) : Bool := x.toBits >>> 63 == 1

/-- The text of a number. A whole number below `2 ^ 53` needs all its digits. -/
def numberText (x : Float) : List Char :=
  if x.isNaN then "nan".toList
  else
    let sign : List Char := if isNegative x then ['-'] else []
    if x.isInf then sign ++ "inf".toList
    else if x.floor == x && x.abs < 9007199254740992 then sign ++ Decimal.digitText x.abs.toUInt64.toNat
    else
      let d := Decimal.shortest x
      sign ++ if -5 ≤ d.point && d.point ≤ 21 then Decimal.plain d else Decimal.scientific d

/-- The whole number a float is, when it fits into 64 bits with a sign and is not the negative zero. -/
def wholeNumber? (x : Float) : Option Int :=
  if x.isNaN || x.isInf || x.floor != x then none
  else if x == 0 then if isNegative x then none else some 0
  else
    let b := Decimal.Binary.ofFloat x
    let n : Int :=
      if b.exponent ≥ 0 then Int.ofNat (b.mantissa * Nat.pow 2 b.exponent.toNat)
      else Int.ofNat (b.mantissa / Nat.pow 2 (-b.exponent).toNat)
    let n := if isNegative x then -n else n
    if -Int.pow 2 63 ≤ n && n < Int.pow 2 63 then some n else none

end LivePreview.Script
