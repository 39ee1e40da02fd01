import LivePreview.Json.Value

/-! Writing JSON text without white space.

Quotes, backslashes and control characters are escaped, five of the latter by a letter; every other character
stands for itself. -/
namespace LivePreview.Json

def hexDigit (n : Nat) : Char := if n < 10 then Char.ofNat (48 + n) else Char.ofNat (87 + n)

/-- A character inside a string. -/
def escapeChar (c : Char) : List Char :=
  match c with
  | '"' => ['\\', '"']
  | '\\' => ['\\', '\\']
  | '\x08' => ['\\', 'b']
  | '\x0c' => ['\\', 'f']
  | '\n' => ['\\', 'n']
  | '\r' => ['\\', 'r']
  | '\t' => ['\\', 't']
  | c =>
    if c.toNat < 0x20 then ['\\', 'u', '0', '0', hexDigit (c.toNat / 16), hexDigit (c.toNat % 16)] else [c]

/-- A text as a string value. -/
def quote (s : List Char) : List Char := '"' :: s.flatMap escapeChar ++ ['"']

/-- Pieces between brackets, with commas. -/
def bracket (opening closing : Char) (pieces : List (List Char)) : List Char :=
  opening :: [','].intercalate pieces ++ [closing]

mutual
/-- The text of a value. A number that is not whole is written as the program that reads it needs it: here only
whole numbers are ever written, so others are `null`. -/
def render : Json → List Char
  | .null => "null".toList
  | .bool true => "true".toList
  | .bool false => "false".toList
  | .int n => (toString n).toList
  | .num _ => "null".toList
  | .str s => quote s.toList
  | .arr items => bracket '[' ']' (renderItems items)
  | .obj members => bracket '{' '}' (renderMembers members)
def renderItems : List Json → List (List Char)
  | [] => []
  | j :: r => render j :: renderItems r
def renderMembers : List (String × Json) → List (List Char)
  | [] => []
  | (name, j) :: r => (quote name.toList ++ ':' :: render j) :: renderMembers r
end

/-- The text of a value as a string. -/
def compact (j : Json) : String := String.ofList (render j)

end LivePreview.Json
