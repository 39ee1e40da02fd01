/-! The fewest digits that read back.

A positive finite float is a whole number times a power of two, and the reals that round to it form an
interval around it. Its shortest decimal is the one with the fewest digits inside that interval, the nearest to
the float among those with as many digits, and the one with an even last digit when two are equally near. -/
namespace LivePreview.Decimal

/-- A float's bits as `mantissa * 2 ^ exponent`; `closer` says that the next float below is only half as far
away as the next one above. -/
structure Binary where
  mantissa : Nat
  exponent : Int
  closer : Bool

/-- The binary value of a finite float without its sign. -/
def Binary.ofFloat (x : Float) : Binary :=
  let bits := x.toBits.toNat
  let fraction : Nat := bits % Nat.pow 2 52
  let biased : Nat := bits / Nat.pow 2 52 % Nat.pow 2 11
  if biased = 0 then ⟨fraction, -1074, false⟩
  else ⟨fraction + Nat.pow 2 52, Int.ofNat biased - 1075, fraction == 0 && decide (1 < biased)⟩

/-- A number of digits scaled by a power of ten. -/
structure Digits where
  digits : Nat
  exponent : Int
deriving DecidableEq, Repr

/-- The sizes of `n * 10 ^ k` and of `m * 2 ^ q` on one common scale. -/
def onScale (k q : Int) (n m : Nat) : Nat × Nat :=
  (n * Nat.pow 10 k.toNat * Nat.pow 2 (-q).toNat, m * Nat.pow 2 q.toNat * Nat.pow 10 (-k).toNat)

/-- The decimals of the grid `10 ^ k` next to `mantissa * 2 ^ exponent` that round to it, nearest first. -/
def candidate? (b : Binary) (k : Int) : Option Digits :=
  let q := b.exponent - 2
  let (unit, value) := onScale k q 1 (4 * b.mantissa)
  let (_, low) := onScale k q 1 (4 * b.mantissa - if b.closer then 1 else 2)
  let (_, high) := onScale k q 1 (4 * b.mantissa + 2)
  let inside (n : Nat) : Bool :=
    if b.mantissa % 2 == 0 then low ≤ n * unit && n * unit ≤ high else low < n * unit && n * unit < high
  let n := value / unit
  let below := value - n * unit
  let above := (n + 1) * unit - value
  let down := if 0 < n && inside n then some n else none
  let up := if inside (n + 1) then some (n + 1) else none
  match down, up with
  | some a, some c =>
    if below < above || (below == above && a % 2 == 0) then some ⟨a, k⟩ else some ⟨c, k⟩
  | some a, none => some ⟨a, k⟩
  | none, some c => some ⟨c, k⟩
  | none, none => none

/-- The number of digits of a number, none for zero. -/
def digitCount (n : Nat) : Nat := if n == 0 then 0 else (Nat.toDigits 10 n).length

/-- An exponent with `10 ^ e` near the value, at most one too small. -/
def magnitude (b : Binary) : Int :=
  if b.exponent ≥ 0 then Int.ofNat (digitCount (b.mantissa * Nat.pow 2 b.exponent.toNat)) - 1
  else
    let scale : Nat := 400
    Int.ofNat (digitCount (b.mantissa * Nat.pow 10 scale / Nat.pow 2 (-b.exponent).toNat)) - 1 - scale

/-- The first grid, from coarse to fine, that has a decimal for the value; `n` grids are left. -/
def search (b : Binary) : Nat → Int → Digits
  | 0, k => ⟨0, k⟩
  | n + 1, k => (candidate? b k).getD (search b n (k - 1))

/-- Drops zeros at the end of the digits. -/
def dropZeros (fuel : Nat) (d : Digits) : Digits :=
  match fuel with
  | 0 => d
  | fuel + 1 =>
    if d.digits != 0 && d.digits % 10 == 0 then dropZeros fuel ⟨d.digits / 10, d.exponent + 1⟩ else d

/-- The shortest decimal of a finite float other than zero, without its sign. -/
def shortest (x : Float) : Digits :=
  let b := Binary.ofFloat x
  dropZeros 20 (search b 20 (magnitude b + 1))

/-- The digits of a number as text. -/
def digitText (n : Nat) : List Char := Nat.toDigits 10 n

/-- Digits without an exponent: zeros fill the places up to the point or after it. -/
def plain (d : Digits) : List Char :=
  let text := digitText d.digits
  if d.exponent ≥ 0 then text ++ List.replicate d.exponent.toNat '0'
  else
    let places := (-d.exponent).toNat
    if places < text.length then text.take (text.length - places) ++ '.' :: text.drop (text.length - places)
    else "0.".toList ++ List.replicate (places - text.length) '0' ++ text

/-- Digits with one of them before the point and an exponent of at least two digits. -/
def scientific (d : Digits) : List Char :=
  let text := digitText d.digits
  let power := d.exponent + text.length - 1
  let tail := if text.length ≤ 1 then [] else '.' :: text.drop 1
  let size := digitText power.natAbs
  text.take 1 ++ tail ++ ['e', if power < 0 then '-' else '+'] ++
    (if size.length < 2 then '0' :: size else size)

/-- The place of the point: the number of digits before it, which may be negative. -/
def Digits.point (d : Digits) : Int := (digitText d.digits).length + d.exponent

/-- Half of a denominator decides: the nearest whole quotient, a tie to the even one. -/
def roundDiv (n m : Nat) : Nat :=
  let q := n / m
  let r := n % m
  if 2 * r < m || (2 * r == m && q % 2 == 0) then q else q + 1

/-- A finite float, without its sign, with a fixed number of digits after the point. -/
def fixed (x : Float) (places : Nat) : List Char :=
  let b := Binary.ofFloat x
  let n :=
    if b.exponent ≥ 0 then b.mantissa * Nat.pow 2 b.exponent.toNat * Nat.pow 10 places
    else roundDiv (b.mantissa * Nat.pow 10 places) (Nat.pow 2 (-b.exponent).toNat)
  if places == 0 then digitText n
  else
    let text := digitText n
    let padded := List.replicate (places + 1 - text.length) '0' ++ text
    padded.take (padded.length - places) ++ '.' :: padded.drop (padded.length - places)

/-- A finite float, without its sign, as `n` significant digits; a tie goes to the even digit. -/
def significant (x : Float) (n : Nat) : Digits :=
  let b := Binary.ofFloat x
  let on (k : Int) : Nat :=
    let (unit, value) := onScale k b.exponent 1 b.mantissa
    roundDiv value unit
  if b.mantissa == 0 then ⟨0, 1 - n⟩
  else
    let k := magnitude b - n + 1
    if on k < Nat.pow 10 n then ⟨on k, k⟩
    else if on (k + 1) < Nat.pow 10 n then ⟨on (k + 1), k + 1⟩
    else ⟨Nat.pow 10 (n - 1), k + 2⟩

/-- The float nearest to `digits * 10 ^ exponent`. -/
def toFloat (d : Digits) : Float :=
  let size := Int.ofNat (digitCount d.digits) + d.exponent
  if d.digits == 0 || size < -400 then 0.0
  else if size > 400 then 1.0 / 0.0
  else if d.exponent ≥ 0 then Float.ofScientific d.digits false d.exponent.toNat
  else Float.ofScientific d.digits true (-d.exponent).toNat

/-- The float nearest to `n * 2 ^ power`. -/
def ofBinary (n : Nat) (power : Int) : Float :=
  let size := Int.ofNat n.log2 + power
  if n == 0 || size < -1200 then 0.0
  else if size > 1200 then 1.0 / 0.0
  else if power ≥ 0 then Float.ofScientific (n * Nat.pow 2 power.toNat) false 0
  else Float.ofScientific (n * Nat.pow 5 (-power).toNat) true (-power).toNat

end LivePreview.Decimal
