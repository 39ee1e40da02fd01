import LivePreview.Text.Space

/-! Digits of numbers, in any base. -/
namespace LivePreview.Text

def hexValue? (c : Char) : Option Nat :=
  if isDigit c then some (c.toNat - '0'.toNat)
  else if 'a' ≤ c && c ≤ 'f' then some (c.toNat - 'a'.toNat + 10)
  else if 'A' ≤ c && c ≤ 'F' then some (c.toNat - 'A'.toNat + 10)
  else none

def isHexDigit (c : Char) : Bool := (hexValue? c).isSome

def isOctalDigit (c : Char) : Bool := '0' ≤ c && c ≤ '7'

def isBinaryDigit (c : Char) : Bool := c == '0' || c == '1'

/-- The number that digits spell in a base up to sixteen; none when there are none. -/
def number? (base : Nat) (s : List Char) : Option Nat :=
  if s.isEmpty then none else s.foldlM (fun n c => (hexValue? c).map (base * n + ·)) 0

/-- The rest after further digits of a number, single underscores before digits allowed. -/
def moreDigits? (isDigit : Char → Bool) : List Char → Option (List Char)
  | '_' :: c :: r => if isDigit c then moreDigits? isDigit r else none
  | c :: r => if isDigit c then moreDigits? isDigit r else if c == '_' then none else some (c :: r)
  | [] => some []

/-- The rest after digits, single underscores between them allowed. -/
def digits? (isDigit : Char → Bool) : List Char → Option (List Char)
  | c :: r => if isDigit c then moreDigits? isDigit r else none
  | [] => none

end LivePreview.Text
