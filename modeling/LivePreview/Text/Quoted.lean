/-! Texts in quotes, as journals show them: on one line, with escapes for what would not stand on it. -/
namespace LivePreview.Text

/-- The escape of a character without a sign of its own: its number in braces. -/
def numberEscape (c : Char) : List Char := "\\u\x7b".toList ++ Nat.toDigits 16 c.toNat ++ "\x7d".toList

/-- A character between quotes. -/
def quotedChar (c : Char) : List Char :=
  match c with
  | '"' => ['\\', '"']
  | '\\' => ['\\', '\\']
  | '\n' => ['\\', 'n']
  | '\r' => ['\\', 'r']
  | '\t' => ['\\', 't']
  | '\x00' => ['\\', '0']
  | c => if c.toNat < 0x20 || (0x7F ≤ c.toNat && c.toNat < 0xA0) then numberEscape c else [c]

def quoted (s : String) : String := String.ofList ('"' :: s.toList.flatMap quotedChar ++ ['"'])

end LivePreview.Text
