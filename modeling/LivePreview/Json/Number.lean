import LivePreview.Json.Value
import LivePreview.Text.Space

/-! Numbers in JSON text.

A number without a point and an exponent that fits into 64 bits is whole. Any other number is read as the digits
that fit into 64 bits, scaled by a power of ten in floating point; `-0` is the negative zero. A number too large
for a float has no value. -/
namespace LivePreview.Json

/-- The greatest number of 64 bits. -/
def maxWord : Nat := Nat.pow 2 64 - 1

/-- Ten to a power, as the nearest float. -/
def tenTo (n : Nat) : Float := Float.ofScientific 1 false n

/-- A significand times a power of ten, by one rounded multiplication or division for each power up to 308. -/
def scaled? (f : Float) (exponent : Int) : Option Float :=
  if exponent ≥ 0 then
    if exponent > 308 then if f == 0 then some f else none
    else
      let g := f * tenTo exponent.toNat
      if g.isInf then none else some g
  else if exponent ≥ -308 then some (f / tenTo (-exponent).toNat)
  else if f == 0 then some f
  else scaled? (f / tenTo 308) (exponent + 308)
termination_by (-exponent).toNat
decreasing_by omega

def digitValue (c : Char) : Nat := c.toNat - '0'.toNat

/-- Reads digits into a significand while it fits into 64 bits; gives it with the number of digits read into
it, the number of those left out and the rest of the text. -/
def takeDigits (significand taken skipped : Nat) : List Char → Nat × Nat × Nat × List Char
  | [] => (significand, taken, skipped, [])
  | c :: r =>
    if Text.isDigit c then
      let next := significand * 10 + digitValue c
      if skipped == 0 && next ≤ maxWord then takeDigits next (taken + 1) 0 r
      else takeDigits significand taken (skipped + 1) r
    else (significand, taken, skipped, c :: r)

/-- The exponent part of a number, if there is one: its value and the rest of the text. -/
def exponent? : List Char → Option (Option Int × List Char)
  | c :: r =>
    if c == 'e' || c == 'E' then
      let (negative, r) := match r with
        | '-' :: t => (true, t)
        | '+' :: t => (false, t)
        | t => (false, t)
      let digits := r.takeWhile Text.isDigit
      if digits.isEmpty then none
      else
        let n : Int := digits.foldl (fun n d => n * 10 + digitValue d) 0
        some (some (if negative then -n else n), r.dropWhile Text.isDigit)
    else some (none, c :: r)
  | [] => some (none, [])

/-- A number that begins after its sign, with the rest of the text. -/
def unsigned? (negative : Bool) (s : List Char) : Option (Json × List Char) :=
  match s with
  | '0' :: c :: _ => if Text.isDigit c then none else read s
  | c :: _ => if Text.isDigit c then read s else none
  | [] => none
where
  read (s : List Char) : Option (Json × List Char) := do
    let (significand, _, skipped, r) := takeDigits 0 0 0 s
    let (significand, exponent, r, fraction) ←
      match r with
      | '.' :: t =>
        let (whole, taken, dropped, rest) :=
          if skipped == 0 then takeDigits significand 0 0 t
          else (significand, 0, (t.takeWhile Text.isDigit).length, t.dropWhile Text.isDigit)
        if taken + dropped == 0 then none
        else some (whole, (skipped : Int) - taken, rest, true)
      | t => some (significand, (skipped : Int), t, false)
    let (power, r) ← exponent? r
    let sign (x : Float) : Float := if negative then -x else x
    if !fraction && power.isNone && skipped == 0 && (!negative || (0 < significand && significand ≤ Nat.pow 2 63)) then
      some (.int (if negative then -significand else significand), r)
    else
      let x ← scaled? significand.toUInt64.toFloat (exponent + power.getD 0)
      some (.num (sign x), r)

/-- A number with the rest of the text. -/
def number? : List Char → Option (Json × List Char)
  | '-' :: r => unsigned? true r
  | s => unsigned? false s

end LivePreview.Json
