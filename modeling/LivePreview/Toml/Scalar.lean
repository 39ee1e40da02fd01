import LivePreview.Text.Digits
import LivePreview.Toml.Value

/-! Single values of configuration text: strings, numbers, truth values and dates. -/
namespace LivePreview.Toml
open Text

/-- A character that may stand in a comment and in a string. -/
def isPrintable (c : Char) : Bool := c == '\t' || (0x20 ≤ c.toNat && c.toNat != 0x7F)

/-- The rest after the end of a line. -/
def lineEnd? : List Char → Option (List Char)
  | '\n' :: r => some r
  | '\r' :: '\n' :: r => some r
  | _ => none

/-! ### Strings -/

/-- A character by its number in hexadecimal digits. -/
def numbered? (digits : List Char) : Option Char := do
  let n ← number? 16 digits
  if n.isValidChar then some (Char.ofNat n) else none

/-- The character of an escape, read after its backslash, with the rest. -/
def escape? : List Char → Option (Char × List Char)
  | 'b' :: r => some ('\x08', r)
  | 't' :: r => some ('\t', r)
  | 'n' :: r => some ('\n', r)
  | 'f' :: r => some ('\x0c', r)
  | 'r' :: r => some ('\r', r)
  | '"' :: r => some ('"', r)
  | '\\' :: r => some ('\\', r)
  | 'u' :: r => if 4 ≤ r.length then (numbered? (r.take 4)).map (·, r.drop 4) else none
  | 'U' :: r => if 8 ≤ r.length then (numbered? (r.take 8)).map (·, r.drop 8) else none
  | _ => none

/-- A string on one line, read after its opening quote; `fuel` is at least its length. -/
def quoted? : Nat → List Char → Option (List Char × List Char)
  | 0, _ | _, [] => none
  | fuel + 1, c :: r =>
    if c == '"' then some ([], r)
    else if c == '\\' then do
      let (c, r) ← escape? r
      (quoted? fuel r).map fun (t, rest) => (c :: t, rest)
    else if isPrintable c then (quoted? fuel r).map fun (t, rest) => (c :: t, rest)
    else none

/-- A string on one line without escapes, read after its opening quote. -/
def literal? : List Char → Option (List Char × List Char)
  | [] => none
  | c :: r =>
    if c == '\'' then some ([], r)
    else if isPrintable c then (literal? r).map fun (t, rest) => (c :: t, rest)
    else none

/-- The rest after the end of a line and all white space behind it. -/
def fold? (s : List Char) : Option (List Char) := do
  let r ← lineEnd? (s.dropWhile isBlank)
  let rec skip : List Char → List Char
    | '\r' :: '\n' :: r => skip r
    | c :: r => if c == '\n' || isBlank c then skip r else c :: r
    | [] => []
  some (skip r)

/-- The quotes that a string of several lines ends with, if it ends here: those in excess of three belong to it. -/
def closing? (quote : Char) (s : List Char) : Option (List Char × List Char) :=
  let n := min 5 (s.takeWhile (· == quote)).length
  if n < 3 then none else some (List.replicate (n - 3) quote, s.drop n)

/-- A string of several lines; `fuel` is at least its length. With escapes a backslash takes away the line end
after it. -/
def block? (quote : Char) (escapes : Bool) : Nat → List Char → Option (List Char × List Char)
  | 0, _ | _, [] => none
  | fuel + 1, c :: r =>
    match closing? quote (c :: r) with
    | some found => some found
    | none =>
      match lineEnd? (c :: r) with
      | some r => (block? quote escapes fuel r).map fun (t, rest) => ('\n' :: t, rest)
      | none =>
        if escapes && c == '\\' then
          match fold? r with
          | some r => block? quote escapes fuel r
          | none => do
            let (c, r) ← escape? r
            (block? quote escapes fuel r).map fun (t, rest) => (c :: t, rest)
        else if isPrintable c then (block? quote escapes fuel r).map fun (t, rest) => (c :: t, rest)
        else none

/-- A string of any kind. A line end right after three opening quotes does not belong to it. -/
def string? (s : List Char) : Option (List Char × List Char) :=
  let block (quote : Char) (r : List Char) := block? quote (quote == '"') s.length ((lineEnd? r).getD r)
  match s with
  | '"' :: '"' :: '"' :: r => block '"' r
  | '\'' :: '\'' :: '\'' :: r => block '\'' r
  | '"' :: r => quoted? s.length r
  | '\'' :: r => literal? r
  | _ => none

/-! ### Numbers -/

/-- The whole number of digits that fill a text, single underscores between them allowed. -/
def allDigits? (base : Nat) (isDigit : Char → Bool) (s : List Char) : Option Nat := do
  if (← digits? isDigit s).isEmpty then number? base (s.filter (· != '_')) else none

/-- Digits that fill a text, with no zero before others. -/
def decimal? (s : List Char) : Option Nat :=
  if 1 < s.length && s.head? == some '0' then none else allDigits? 10 isDigit s

def maxWhole : Nat := Nat.pow 2 63 - 1

/-- A whole number of 64 bits. -/
def whole? (s : List Char) : Option Int :=
  let upTo (limit : Nat) (n : Nat) : Option Nat := if n ≤ limit then some n else none
  match s with
  | '0' :: 'x' :: r => ((allDigits? 16 isHexDigit r).bind (upTo maxWhole)).map Int.ofNat
  | '0' :: 'o' :: r => ((allDigits? 8 isOctalDigit r).bind (upTo maxWhole)).map Int.ofNat
  | '0' :: 'b' :: r => ((allDigits? 2 isBinaryDigit r).bind (upTo maxWhole)).map Int.ofNat
  | '-' :: r => ((decimal? r).bind (upTo (maxWhole + 1))).map fun n => -Int.ofNat n
  | '+' :: r => ((decimal? r).bind (upTo maxWhole)).map Int.ofNat
  | _ => ((decimal? s).bind (upTo maxWhole)).map Int.ofNat

/-- Whether a decimal number `m` times ten to a power is nearer to infinity than to any float. -/
def isHuge (m : Nat) (power : Int) : Bool :=
  let bound := Nat.pow 2 1024 - Nat.pow 2 970
  if m == 0 then false
  else if 400 < power then true
  else if 0 ≤ power then bound ≤ m * Nat.pow 10 power.toNat
  else if 400 + (Nat.toDigits 10 m).length < power.natAbs then false
  else bound * Nat.pow 10 power.natAbs ≤ m

/-- Whether a text without sign is a number with a fraction or a power of ten, and not too large. -/
def isFloat (negative : Bool) (s : List Char) : Bool :=
  let isMark (c : Char) : Bool := c == 'e' || c == 'E'
  let mantissa := s.takeWhile (!isMark ·)
  let before := mantissa.takeWhile (· != '.')
  let fraction := (mantissa.dropWhile (· != '.')).drop 1
  let hasPoint := mantissa.contains '.'
  let powerText := (s.dropWhile (!isMark ·)).drop 1
  let hasPower := s.any isMark
  let (down, powerDigits) := match powerText with
    | '-' :: r => (true, r)
    | '+' :: r => (false, r)
    | r => (false, r)
  let power? : Option Nat := if hasPower then allDigits? 10 isDigit powerDigits else some 0
  let fraction? : Option Nat := if hasPoint then allDigits? 10 isDigit fraction else some 0
  match decimal? before, fraction?, power? with
  | some n, some f, some p =>
    let width := (fraction.filter (· != '_')).length
    let scale : Int := (if down then -(p : Int) else (p : Int)) - width
    (hasPoint || hasPower) && (negative || !isHuge (n * Nat.pow 10 width + f) scale)
  | _, _, _ => false

/-- A number that is not whole, or none at all. -/
def float? (s : List Char) : Option Unit :=
  let (negative, r) := match s with
    | '-' :: r => (true, r)
    | '+' :: r => (false, r)
    | r => (false, r)
  if r == "inf".toList || r == "nan".toList || isFloat negative r then some () else none

/-! ### Dates -/

/-- Two digits between two bounds. -/
def pair? (low high : Nat) : List Char → Option (List Char)
  | a :: b :: r =>
    match number? 10 [a, b] with
    | some n => if isDigit a && isDigit b && low ≤ n && n ≤ high then some r else none
    | none => none
  | _ => none

def mark? (mark : Char) : List Char → Option (List Char)
  | c :: r => if c == mark then some r else none
  | [] => none

/-- The days of a month. -/
def daysIn (year month : Nat) : Nat :=
  if month == 2 then if year % 4 == 0 && (year % 100 != 0 || year % 400 == 0) then 29 else 28
  else if [4, 6, 9, 11].contains month then 30 else 31

/-- A day of a year, with the rest. -/
def day? (s : List Char) : Option (List Char) := do
  if !(s.take 4).all isDigit then none
  let year ← number? 10 (s.take 4)
  let r ← mark? '-' (s.drop 4)
  let rest ← pair? 1 12 r
  let month ← number? 10 (r.take 2)
  pair? 1 (daysIn year month) (← mark? '-' rest)

/-- A time of a day, with the rest. -/
def time? (s : List Char) : Option (List Char) := do
  let r ← pair? 0 59 (← mark? ':' (← pair? 0 23 s))
  let r ← pair? 0 60 (← mark? ':' r)
  match r with
  | '.' :: f => if (f.takeWhile isDigit).isEmpty then none else some (f.dropWhile isDigit)
  | r => some r

/-- What stands after a time: nothing, or how far its zone is from the common one. -/
def isZone : List Char → Bool
  | [] | ['Z'] | ['z'] => true
  | c :: r => (c == '+' || c == '-') && ((pair? 0 23 r).bind (mark? ':')).bind (pair? 0 59) == some []

/-- A time with or without its zone. -/
def isZonedTime (s : List Char) : Bool := (time? s).any isZone

/-- A day, a time, or both. -/
def isDate (s : List Char) : Bool :=
  match day? s with
  | some [] => true
  | some (c :: r) => (c == 'T' || c == 't' || c == ' ') && isZonedTime r
  | none => time? s == some []

/-- The values that are written in one word. -/
def word? (s : List Char) : Option Value :=
  if s == "true".toList then some (.truth true)
  else if s == "false".toList then some (.truth false)
  else if isDate s then some .date
  else match whole? s with
    | some n => some (.whole n)
    | none => (float? s).map fun _ => .float

end LivePreview.Toml
