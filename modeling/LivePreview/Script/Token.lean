import LivePreview.Script.Numeral
import LivePreview.Text.Word

/-! Tokens of component scripts. -/
namespace LivePreview.Script

inductive Lexeme where
  | name (s : String)
  /-- A word that cannot be a name. -/
  | word (s : String)
  | sign (s : String)
  | num (x : Float)
  | str (s : ByteArray)
  | done

/-- A lexeme and the line it starts on. -/
structure Token where
  lexeme : Lexeme
  line : Nat

namespace Token

def reserved : List String :=
  ["and", "break", "do", "else", "elseif", "end", "false", "for", "function", "if", "in", "local", "nil", "not",
    "or", "repeat", "return", "then", "true", "until", "while"]

/-- The signs, longer ones before those they start with. -/
def signs : List String :=
  ["...", "..", "==", "~=", "<=", ">=", "//", "::", "->", "+", "-", "*", "/", "%", "^", "#", "<", ">", "=", "(", ")",
    "\x7b", "\x7d", "[", "]", ";", ":", ",", "."]

/-- The level of a long bracket, read after its first `[` : the number of equals signs, with the rest after the
second `[`. -/
def longLevel? (s : List Char) : Option (Nat × List Char) :=
  match s.dropWhile (· == '=') with
  | '[' :: r => some ((s.takeWhile (· == '=')).length, r)
  | _ => none

/-- The text of a long bracket of a level, with the rest after it. -/
def longText? (level : Nat) : List Char → Option (List Char × List Char)
  | [] => none
  | c :: r =>
    let mark := ']' :: List.replicate level '=' ++ [']']
    if mark.isPrefixOf (c :: r) then some ([], (c :: r).drop mark.length)
    else (longText? level r).map fun (t, rest) => (c :: t, rest)

/-- The text of a long bracket as a string holds it: without a line break at its start, and with plain line
breaks. -/
def longString (s : List Char) : List Char :=
  let rec plain : List Char → List Char
    | '\r' :: '\n' :: r => '\n' :: plain r
    | c :: r => c :: plain r
    | [] => []
  match plain s with
  | '\n' :: r => r
  | r => r

def newlines (s : List Char) : Nat := s.count '\n'

def pushChar (bytes : ByteArray) (c : Char) : ByteArray := bytes ++ c.toString.toUTF8

/-- The character that a letter after a backslash stands for. -/
def plainEscape (c : Char) : Char :=
  match c with
  | 'a' => '\x07'
  | 'b' => '\x08'
  | 'f' => '\x0c'
  | 'n' => '\n'
  | 'r' => '\r'
  | 't' => '\t'
  | 'v' => '\x0b'
  | c => c

/-- The bytes of a quoted string, read after its quote, with the rest; at most `fuel` characters and escapes. -/
def quoted? (quote : Char) : Nat → ByteArray → List Char → Option (ByteArray × List Char)
  | 0, _, _ => none
  | fuel + 1, bytes, s =>
    match s with
    | [] => none
    | '\\' :: 'x' :: a :: b :: r => do
      let n ← wholeIn? 16 [a, b]
      quoted? quote fuel (bytes.push n.toUInt8) r
    | '\\' :: 'z' :: r =>
      quoted? quote fuel bytes (r.dropWhile fun c => c == ' ' || (9 ≤ c.toNat && c.toNat ≤ 13))
    | '\\' :: 'u' :: '{' :: r => do
      let digits := r.takeWhile (· != '}')
      let n ← wholeIn? 16 digits
      if 0x10FFFF < n then none
      else quoted? quote fuel (pushChar bytes (Char.ofNat n)) (r.drop (digits.length + 1))
    | '\\' :: '\r' :: '\n' :: r => quoted? quote fuel (bytes.push 10) r
    | '\\' :: c :: r =>
      if Text.isDigit c then
        let digits := (c :: r).take 3 |>.takeWhile Text.isDigit
        let n := (wholeIn? 10 digits).getD 256
        if 255 < n then none else quoted? quote fuel (bytes.push n.toUInt8) ((c :: r).drop digits.length)
      else if c == 'x' || c == 'u' then none
      else quoted? quote fuel (pushChar bytes (plainEscape c)) r
    | c :: r =>
      if c == quote then some (bytes, r)
      else if c == '\n' || c == '\r' then none
      else quoted? quote fuel (pushChar bytes c) r

/-- The characters of something that looks like a number, with the rest. -/
def numberShape (s : List Char) : List Char × List Char :=
  let dotted (c : Char) : Bool := Text.isDigit c || c == '.' || c == '_'
  let wordy (c : Char) : Bool := Text.isPlainName c
  let head := s.takeWhile dotted
  let r := s.dropWhile dotted
  let (power, r) := match r with
    | c :: d :: t =>
      if c == 'e' || c == 'E' then if d == '+' || d == '-' then ([c, d], t) else ([c], d :: t) else ([], r)
    | r => ([], r)
  (head ++ power ++ r.takeWhile wordy, r.dropWhile wordy)

/-- The tokens of a text that starts on a line; at most `fuel` of them, comments and spaces included. -/
def readAll? : Nat → Nat → List Char → Option (List Token)
  | 0, _, _ => none
  | fuel + 1, line, s =>
    match s with
    | [] => some [⟨.done, line⟩]
    | '\n' :: r => readAll? fuel (line + 1) r
    | '-' :: '-' :: '[' :: r =>
      match longLevel? r with
      | some (level, t) => do
        let (text, rest) ← longText? level t
        readAll? fuel (line + newlines text) rest
      | none => readAll? fuel line (r.dropWhile (· != '\n'))
    | '-' :: '-' :: r => readAll? fuel line (r.dropWhile (· != '\n'))
    | '[' :: r =>
      match longLevel? r with
      | some (level, t) => do
        let (text, rest) ← longText? level t
        let more ← readAll? fuel (line + newlines text) rest
        some (⟨.str (String.ofList (longString text)).toUTF8, line⟩ :: more)
      | none => if r.head? == some '=' then none else do some (⟨.sign "[", line⟩ :: (← readAll? fuel line r))
    | c :: r =>
      if c == ' ' || (9 ≤ c.toNat && c.toNat ≤ 13) then readAll? fuel line r
      else if c == '"' || c == '\'' then do
        let (bytes, rest) ← quoted? c (r.length + 1) .empty r
        let taken := r.take (r.length - rest.length)
        some (⟨.str bytes, line⟩ :: (← readAll? fuel (line + newlines taken) rest))
      else if Text.isDigit c || (c == '.' && r.head?.any Text.isDigit) then do
        let (text, rest) := numberShape s
        let x ← numeral? (text.filter (· != '_'))
        some (⟨.num x, line⟩ :: (← readAll? fuel line rest))
      else if Text.isLatin c || c == '_' then do
        let text := String.ofList (s.takeWhile Text.isPlainName)
        let rest := s.dropWhile Text.isPlainName
        let lexeme := if reserved.contains text then Lexeme.word text else .name text
        some (⟨lexeme, line⟩ :: (← readAll? fuel line rest))
      else do
        let text ← signs.find? fun t => t.toList.isPrefixOf s
        some (⟨.sign text, line⟩ :: (← readAll? fuel line (s.drop text.length)))

/-- The tokens of a script, the last of which marks its end; none when it is not made of tokens. -/
def ofScript? (script : String) : Option (List Token) :=
  readAll? (script.length + 1) 1 script.toList

end Token
end LivePreview.Script
