import LivePreview.Decimal.Shortest
import LivePreview.Script.Numeral

/-! Formats: the directives of a format string and the text each of them gives. -/
namespace LivePreview.Script

/-- A directive: its flags, the least width, the precision, and the letter that says what to write. -/
structure Directive where
  left : Bool := false
  plus : Bool := false
  space : Bool := false
  alternative : Bool := false
  zero : Bool := false
  width : Nat := 0
  precision : Option Nat := none
  letter : Char

namespace Directive

/-- A directive, read after its percent sign, with the rest; or what is wrong with it. -/
def read (s : List Char) : Except String (Directive × List Char) :=
  let flags := s.takeWhile "-+ #0".toList.contains
  let r := s.drop flags.length
  let width := (r.take 2).takeWhile Text.isDigit
  let r := r.drop width.length
  let (precision, r) := match r with
    | '.' :: t =>
      let digits := (t.take 2).takeWhile Text.isDigit
      (some ((wholeIn? 10 digits).getD 0), t.drop digits.length)
    | t => (none, t)
  if 6 ≤ flags.length then .error "invalid format (repeated flags)"
  else
    match r with
    | [] => .error "invalid option '%"
    | '*' :: _ => .error "'%*' does not take a form"
    | c :: r =>
      if Text.isDigit c then .error "invalid format (width or precision too long)"
      else
        .ok (⟨flags.contains '-', flags.contains '+', flags.contains ' ', flags.contains '#', flags.contains '0',
          (wholeIn? 10 width).getD 0, precision, c⟩, r)

/-- Fills up to the width: with zeros after the sign where `zeros` says so, else with spaces. -/
def pad (d : Directive) (zeros : Bool) (sign body : List Char) : List Char :=
  let missing := d.width - (sign.length + body.length)
  if d.left then sign ++ body ++ List.replicate missing ' '
  else if zeros && d.zero then sign ++ List.replicate missing '0' ++ body
  else List.replicate missing ' ' ++ sign ++ body

def signText (d : Directive) (negative : Bool) : List Char :=
  if negative then ['-'] else if d.plus then ['+'] else if d.space then [' '] else []

/-- The digits of a whole number with at least as many as the precision asks for. -/
def wholeDigits (d : Directive) (base n : Nat) : List Char :=
  let digits := if n == 0 && d.precision == some 0 then [] else Nat.toDigits base n
  List.replicate (d.precision.getD 0 - digits.length) '0' ++ digits

def whole (d : Directive) (n : Int) : List Char :=
  d.pad d.precision.isNone (d.signText (n < 0)) (d.wholeDigits 10 n.natAbs)

/-- A whole number without a sign in base 8, 10 or 16. -/
def unsigned (d : Directive) (n : Nat) : List Char :=
  let base := match d.letter with
    | 'o' => 8
    | 'x' | 'X' => 16
    | _ => 10
  let body := d.wholeDigits base n
  let mark := if d.alternative && base == 16 && n != 0 then "0x".toList else []
  let text := d.pad d.precision.isNone mark body
  if d.letter == 'X' then Text.upper text else text

/-- Digits with an exponent, with `places` of them after the point. -/
def scientificText (x : Float) (places : Nat) (keepPoint : Bool) : List Char :=
  let digits := Decimal.significant x (places + 1)
  let text := Decimal.digitText digits.digits
  let text := text ++ List.replicate (places + 1 - text.length) '0'
  let power := if digits.digits == 0 then 0 else digits.exponent + places
  let size := Decimal.digitText power.natAbs
  text.take 1 ++ (if places == 0 && !keepPoint then [] else '.' :: text.drop 1) ++
    ['e', if power < 0 then '-' else '+'] ++ (if size.length < 2 then '0' :: size else size)

/-- Takes off zeros at the end of a fraction, and a point with nothing after it. -/
def trimFraction (s : List Char) : List Char :=
  let mantissa := s.takeWhile (· != 'e')
  let power := s.dropWhile (· != 'e')
  if mantissa.contains '.' then
    let kept := mantissa.reverse.dropWhile (· == '0')
    (if kept.head? == some '.' then kept.drop 1 else kept).reverse ++ power
  else s

/-- A number in the shorter of two forms: without an exponent when that is small. -/
def generalText (x : Float) (precision : Nat) (alternative : Bool) : List Char :=
  let n := if precision == 0 then 1 else precision
  let digits := Decimal.significant x n
  let power : Int := if digits.digits == 0 then 0 else digits.exponent + n - 1
  let text :=
    if -4 ≤ power && power < n then
      Decimal.fixed x (n - 1 - power).toNat ++ (if alternative && n - 1 - power == 0 then ['.'] else [])
    else scientificText x (n - 1) alternative
  if alternative then text else trimFraction text

def float (d : Directive) (x : Float) : List Char :=
  let sign := d.signText (isNegative x && !x.isNaN)
  let precision := d.precision.getD 6
  let text :=
    if x.isNaN then d.pad false sign "nan".toList
    else if x.isInf then d.pad false sign "inf".toList
    else
      let body := match d.letter with
        | 'f' | 'F' => Decimal.fixed x precision ++ (if d.alternative && precision == 0 then ['.'] else [])
        | 'e' | 'E' => scientificText x precision d.alternative
        | _ => generalText x precision d.alternative
      d.pad true sign body
  if d.letter.isUpper then Text.upper text else text

end Directive

/-- A string as a script writes it. -/
def quote (s : List UInt8) : List UInt8 :=
  let rec inner : List UInt8 → List UInt8
    | [] => []
    | c :: r =>
      let text : List UInt8 :=
        if c == 34 || c == 92 || c == 10 then [92, c]
        else if c == 13 then "\\r".toUTF8.toList
        else if c == 0 then "\\000".toUTF8.toList
        else [c]
      text ++ inner r
  34 :: inner s ++ [34]

end LivePreview.Script
