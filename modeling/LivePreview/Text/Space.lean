/-! White space and trimming.

Texts are lists of characters. White space is the Unicode property `White_Space`; blanks are the two
characters that can stand at the side of a line without ending it. -/
namespace LivePreview.Text

/-- The Unicode property `White_Space`. -/
def isSpace (c : Char) : Bool :=
  let n := c.toNat
  (9 ≤ n && n ≤ 13) || n == 0x20 || n == 0x85 || n == 0xA0 || n == 0x1680 ||
    (0x2000 ≤ n && n ≤ 0x200A) || n == 0x2028 || n == 0x2029 || n == 0x202F || n == 0x205F || n == 0x3000

/-- A space or a tab. -/
def isBlank (c : Char) : Bool := c == ' ' || c == '\t'

/-- A letter of the Latin alphabet, in either case. -/
def isLatin (c : Char) : Bool := ('a' ≤ c && c ≤ 'z') || ('A' ≤ c && c ≤ 'Z')

/-- A decimal digit. -/
def isDigit (c : Char) : Bool := '0' ≤ c && c ≤ '9'

def trimStart (s : List Char) : List Char := s.dropWhile isSpace

def trimEnd (s : List Char) : List Char := (s.reverse.dropWhile isSpace).reverse

def trim (s : List Char) : List Char := trimEnd (trimStart s)

/-- White space and nothing else. -/
def isBlankText (s : List Char) : Bool := s.all isSpace

/-- The first piece between white space, empty when there is none. -/
def firstWord (s : List Char) : List Char := (trimStart s).takeWhile (!isSpace ·)

/-- Latin capitals in lower case; every other character stays. -/
def lower (s : List Char) : List Char :=
  s.map fun c => if 'A' ≤ c && c ≤ 'Z' then Char.ofNat (c.toNat + 32) else c

/-- Latin small letters as capitals; every other character stays. -/
def upper (s : List Char) : List Char :=
  s.map fun c => if 'a' ≤ c && c ≤ 'z' then Char.ofNat (c.toNat - 32) else c

/-- What follows the first occurrence of `mark`, with what stands before it. -/
def splitAt? (mark : List Char) : List Char → Option (List Char × List Char)
  | [] => if mark.isEmpty then some ([], []) else none
  | c :: r =>
    if mark.isPrefixOf (c :: r) then some ([], (c :: r).drop mark.length)
    else (splitAt? mark r).map fun (a, b) => (c :: a, b)

/-- Whether `mark` occurs in the text. -/
def contains (mark s : List Char) : Bool := (splitAt? mark s).isSome

end LivePreview.Text
