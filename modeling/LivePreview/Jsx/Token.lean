import LivePreview.Json.Parser
import LivePreview.Text.Identifier

/-! Tokens of markup scripts.

A token is read where it is wanted, because the same characters are a quotient, a regular expression or the
text of an element, according to what stands before them. -/
namespace LivePreview.Jsx
open Text

inductive Lexeme where
  /-- An identifier or a keyword, with its escapes resolved, and whether there were any. -/
  | word (s : String) (escaped : Bool)
  /-- A name that starts with `#` . -/
  | secret (s : String)
  | sign (s : String)
  | num
  | str (s : String)
  | done
  /-- Characters that start no token. -/
  | bad
deriving BEq

/-- The signs, longer ones before those they start with. A `>` always stands alone, for it ends a tag whatever
follows. -/
def signs : List String :=
  ["...", "===", "!==", "**=", "<<=", "&&=", "||=", "??=", "=>", "==", "!=", "**", "<<", "<=", "&&", "||", "??", "?.",
    "++", "--", "+=", "-=", "*=", "/=", "%=", "&=", "|=", "^=", "\x7b", "\x7d", "(", ")", "[", "]", ";", ",", "<", ">",
    "+", "-", "*", "/", "%", "&", "|", "^", "!", "~", "?", ":", "=", ".", "@", "`"]

/-- Words that cannot be names of variables. -/
def reserved : List String :=
  ["break", "case", "catch", "class", "const", "continue", "debugger", "default", "delete", "do", "else", "enum",
    "export", "extends", "false", "finally", "for", "function", "if", "import", "in", "instanceof", "new", "null",
    "return", "super", "switch", "this", "throw", "true", "try", "typeof", "var", "void", "while", "with"]

def isLineEnd (c : Char) : Bool := c == '\n' || c == '\r' || c == '\u2028' || c == '\u2029'

/-- White space within a line. -/
def isBlank (c : Char) : Bool :=
  let n := c.toNat
  c == ' ' || c == '\t' || n == 0xB || n == 0xC || n == 0x85 || n == 0xA0 || n == 0x1680 ||
    (0x2000 ≤ n && n ≤ 0x200B) || n == 0x202F || n == 0x205F || n == 0x3000 || n == 0xFEFF

/-- What the characters before the next token belong to. -/
inductive Gap where
  | space
  | lineComment
  | blockComment

/-- The rest from the next token on, and whether a line ends before it; none when a comment is not closed. -/
def skipGap : Gap → Bool → List Char → Option (Bool × List Char)
  | .space, newline, '/' :: '/' :: r => skipGap .lineComment newline r
  | .space, newline, '/' :: '*' :: r => skipGap .blockComment newline r
  | .space, newline, c :: r =>
    if isLineEnd c then skipGap .space true r
    else if isBlank c then skipGap .space newline r
    else some (newline, c :: r)
  | .lineComment, newline, c :: r =>
    if isLineEnd c then skipGap .space true r else skipGap .lineComment newline r
  | .blockComment, newline, '*' :: '/' :: r => skipGap .space newline r
  | .blockComment, newline, c :: r => skipGap .blockComment (newline || isLineEnd c) r
  | .blockComment, _, [] => none
  | _, newline, [] => some (newline, [])

/-! ### Escapes -/

/-- The character number after `\u` , with the rest. -/
def unicodeEscape? : List Char → Option (Nat × List Char)
  | '{' :: r => do
    let n ← number? 16 (r.takeWhile (· != '}'))
    match r.dropWhile (· != '}') with
    | '}' :: rest => if n ≤ 0x10FFFF then some (n, rest) else none
    | _ => none
  | r => Json.hexWord? r

/-- What an escape in a string stands for, read after its backslash, with the rest. -/
def escape? : List Char → Option (List Char × List Char)
  | [] => none
  | 'u' :: r => (unicodeEscape? r).map fun (n, rest) => ([Char.ofNat n], rest)
  | 'x' :: r => do
    let n ← number? 16 (r.take 2)
    if (r.take 2).length = 2 then some ([Char.ofNat n], r.drop 2) else none
  | '\r' :: '\n' :: r => some ([], r)
  | 'n' :: r => some (['\n'], r)
  | 't' :: r => some (['\t'], r)
  | 'r' :: r => some (['\r'], r)
  | 'b' :: r => some (['\x08'], r)
  | 'v' :: r => some (['\x0b'], r)
  | 'f' :: r => some (['\x0c'], r)
  | c :: r => some (if isLineEnd c then [] else [c], r)

/-! ### Words, numbers and strings -/

/-- The characters of a word after the first `n` of them, whether one is escaped, and the rest; `fuel` is at least
their number. -/
def wordRest? (first : Bool) : Nat → List Char → Option (List Char × Bool × List Char)
  | 0, s => some ([], false, s)
  | _, [] => some ([], false, [])
  | fuel + 1, '\\' :: 'u' :: r => do
    let (n, rest) ← unicodeEscape? r
    let c := Char.ofNat n
    if if first then startsIdentifier c else continuesIdentifier c then
      let (s, _, rest) ← wordRest? false fuel rest
      some (c :: s, true, rest)
    else none
  | fuel + 1, c :: r =>
    if c == '\\' then none
    else if if first then startsIdentifier c else continuesIdentifier c then
      (wordRest? false fuel r).map fun (s, escaped, rest) => (c :: s, escaped, rest)
    else some ([], false, c :: r)

/-- A word with its rest; none when there is none or one of its escapes is wrong. -/
def Lexeme.word? (s : List Char) : Option (List Char × Bool × List Char) := do
  let (w, escaped, rest) ← wordRest? true s.length s
  if w.isEmpty then none else some (w, escaped, rest)

/-- The rest after the exponent of a number, if there is one. -/
def exponent? : List Char → Option (List Char)
  | e :: r =>
    if e == 'e' || e == 'E' then
      match r with
      | '+' :: r => digits? isDigit r
      | '-' :: r => digits? isDigit r
      | r => digits? isDigit r
    else some (e :: r)
  | [] => some []

/-- The rest after the fraction and the exponent of a number, if there are any. -/
def fraction? : List Char → Option (List Char)
  | '.' :: c :: r => if isDigit c then (digits? isDigit (c :: r)).bind exponent? else exponent? (c :: r)
  | '.' :: r => exponent? r
  | s => exponent? s

/-- The rest after the digits of a whole number in another base, or after the mark of a large one. -/
def inBase? (isDigit : Char → Bool) (s : List Char) : Option (List Char) := do
  match ← digits? isDigit s with
  | 'n' :: r => some r
  | r => some r

/-- The rest after a number. -/
def numberRest? : List Char → Option (List Char)
  | '0' :: 'x' :: r | '0' :: 'X' :: r => inBase? isHexDigit r
  | '0' :: 'o' :: r | '0' :: 'O' :: r => inBase? isOctalDigit r
  | '0' :: 'b' :: r | '0' :: 'B' :: r => inBase? isBinaryDigit r
  | '0' :: 'n' :: r => some r
  | '0' :: c :: r =>
    if isDigit c then
      let rest := (c :: r).dropWhile isDigit
      if ((c :: r).takeWhile isDigit).all isOctalDigit then some rest else fraction? rest
    else fraction? (c :: r)
  | '.' :: r => (digits? isDigit r).bind exponent?
  | s => do
    match ← digits? isDigit s with
    | 'n' :: r => some r
    | r => fraction? r

/-- The rest after a number, which no word and no digit follows directly. -/
def wholeNumber? (s : List Char) : Option (List Char) := do
  match ← numberRest? s with
  | [] => some []
  | c :: r => if startsIdentifier c || isDigit c then none else some (c :: r)

/-- What a string says, read after its opening quote, with the rest; `fuel` is at least the length of it. -/
def string? (quote : Char) : Nat → List Char → Option (List Char × List Char)
  | 0, _ => none
  | _, [] => none
  | fuel + 1, c :: r =>
    if c == quote then some ([], r)
    else if c == '\n' || c == '\r' then none
    else if c == '\\' then do
      let (t, rest) ← escape? r
      (string? quote fuel rest).map fun (u, rest) => (t ++ u, rest)
    else (string? quote fuel r).map fun (u, rest) => (c :: u, rest)

/-! ### Templates and regular expressions -/

/-- A piece of a template: whether all its escapes are sound, whether the template ends with it or goes on with an
expression, and the rest. -/
structure TemplatePiece where
  sound : Bool
  last : Bool
  rest : List Char

/-- Whether an escape of a template, read after its backslash, stands for something. -/
def isSoundEscape : List Char → Bool
  | '0' :: c :: _ => !isDigit c
  | ['0'] => true
  | s => match s with
    | c :: _ => !isDigit c && (escape? s).isSome
    | [] => false

/-- The next piece of a template; none when the template does not end. -/
def templatePiece? : List Char → Option TemplatePiece
  | '$' :: '{' :: r => some ⟨true, false, r⟩
  | '\\' :: c :: r =>
    (templatePiece? r).map fun p => { p with sound := isSoundEscape (c :: r) && p.sound }
  | c :: r => if c == '\x60' then some ⟨true, true, r⟩ else templatePiece? r
  | [] => none

/-- The rest after the body of a regular expression, read after its opening slash. -/
def patternRest? (inClass : Bool) : List Char → Option (List Char)
  | '\\' :: c :: r => if isLineEnd c then none else patternRest? inClass r
  | c :: r =>
    if isLineEnd c then none
    else if c == '[' then patternRest? true r
    else if c == ']' then patternRest? false r
    else if c == '/' && !inClass then some r
    else patternRest? inClass r
  | [] => none

/-- The rest after a regular expression with its flags, read after its opening slash; each flag is known and stands
once. -/
def regex? (s : List Char) : Option (List Char) := do
  let rest ← patternRest? false s
  let isFlag (c : Char) : Bool := c.toNat < 128 && continuesIdentifier c
  let flags := rest.takeWhile isFlag
  if flags.all "dgimsuvy".toList.contains && flags.eraseDups.length = flags.length then
    some (rest.dropWhile isFlag)
  else none

/-! ### The next token -/

/-- The sign that a text starts with. A question mark before a number is not joined with its point. -/
def Lexeme.sign? (s : List Char) : Option (String × List Char) :=
  match s with
  | '?' :: '.' :: c :: r =>
    if isDigit c then some ("?", '.' :: c :: r) else some ("?.", c :: r)
  | _ =>
    match signs.find? (·.toList.isPrefixOf s) with
    | some g => some (g, s.drop g.length)
    | none => none

/-- The token that a text starts with, with the rest. -/
def Lexeme.read (s : List Char) : Lexeme × List Char :=
  match s with
  | [] => (.done, [])
  | c :: r =>
    if c == '"' || c == '\'' then
      match string? c r.length r with
      | some (t, rest) => (.str (String.ofList t), rest)
      | none => (.bad, s)
    else if isDigit c || (c == '.' && (r.head?.map isDigit).getD false) then
      match wholeNumber? s with
      | some rest => (.num, rest)
      | none => (.bad, s)
    else if c == '#' then
      match word? r with
      | some (w, _, rest) => (.secret (String.ofList w), rest)
      | none => (.bad, s)
    else
      match sign? s with
      | some (g, rest) => (.sign g, rest)
      | none =>
        match word? s with
        | some (w, escaped, rest) => (.word (String.ofList w) escaped, rest)
        | none => (.bad, s)

end LivePreview.Jsx
