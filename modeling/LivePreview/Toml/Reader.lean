import LivePreview.Toml.Scalar

/-! Reading configuration text.

A document is read line by line into one table. Lists and tables in braces nest less than eighty levels, and a key
has less than eighty parts. -/
namespace LivePreview.Toml
open Text

def skipBlanks (s : List Char) : List Char := s.dropWhile isBlank

/-- The rest after a comment, if there is one. -/
def skipComment (s : List Char) : List Char :=
  match s with
  | '#' :: r => r.dropWhile isPrintable
  | _ => s

/-- The rest after white space, line ends and comments; at most `fuel` lines of them. -/
def skipLines : Nat → List Char → List Char
  | 0, s => s
  | fuel + 1, s =>
    match lineEnd? (skipComment (skipBlanks s)) with
    | some r => skipLines fuel r
    | none => skipBlanks s

/-! ### Keys -/

def isBare (c : Char) : Bool := isLatin c || isDigit c || c == '_' || c == '-'

/-- One part of a key. -/
def part? (s : List Char) : Option (String × List Char) :=
  match s with
  | '"' :: r => (quoted? s.length r).map fun (t, rest) => (String.ofList t, rest)
  | '\'' :: r => (literal? r).map fun (t, rest) => (String.ofList t, rest)
  | _ =>
    let t := s.takeWhile isBare
    if t.isEmpty then none else some (String.ofList t, s.dropWhile isBare)

/-- A key with white space around it: the parts before its last one, and the last one; it has at most `fuel` parts. -/
def key? : Nat → List Char → Option (List String × String × List Char)
  | 0, _ => none
  | fuel + 1, s => do
    let (first, r) ← part? (skipBlanks s)
    match skipBlanks r with
    | '.' :: r =>
      let (path, last, r) ← key? fuel r
      some (first :: path, last, r)
    | r => some ([], first, r)

/-- The most parts of a key, and one more than the levels that lists and tables may nest. -/
def maxDepth : Nat := 79

/-- A key, and the text after its equals sign. -/
def keyOf? (s : List Char) : Option (List String × String × List Char) := do
  let (path, key, r) ← key? maxDepth s
  let r ← mark? '=' r
  some (path, key, skipBlanks r)

/-! ### Values -/

abbrev ValueReader := List Char → Option (Value × List Char)

/-- The values of a list up to its closing bracket; `fuel` is more than their number. -/
def listItems? (value : ValueReader) : Nat → List Char → Option (List Value × List Char)
  | 0, _ => none
  | fuel + 1, s => do
    let skip (s : List Char) : List Char := skipLines s.length s
    match skip s with
    | ']' :: r => some ([], r)
    | s =>
      let (v, r) ← value s
      match skip r with
      | ',' :: r => (listItems? value fuel r).map fun (vs, rest) => (v :: vs, rest)
      | ']' :: r => some ([v], r)
      | _ => none

/-- The entries of a table in braces from a key on, up to the closing brace; `fuel` is at least their number. -/
def inlineEntries? (value : ValueReader) : Nat → Entries → List Char → Option (Entries × List Char)
  | 0, _, _ => none
  | fuel + 1, entries, s => do
    let (path, key, r) ← keyOf? s
    let (v, r) ← value r
    let entries ← add? path key v .inline entries
    match skipBlanks r with
    | ',' :: r => inlineEntries? value fuel entries r
    | '}' :: r => some (entries, r)
    | _ => none

/-- A table in braces, read after the first one. -/
def inlineTable? (value : ValueReader) (s : List Char) : Option (Value × List Char) :=
  match skipBlanks s with
  | '}' :: r => some (.table .inline [], r)
  | s => (inlineEntries? value s.length [] s).map fun (entries, rest) => (.table .inline entries, rest)

/-- A character of a value that is written in one word. -/
def isWordChar (c : Char) : Bool := isLatin c || isDigit c || ['+', '-', '_', '.', ':'].contains c

/-- A value in one word. A day and a time may have a space between them. -/
def wordValue? (s : List Char) : Option (Value × List Char) :=
  let word := s.takeWhile isWordChar
  let rest := s.dropWhile isWordChar
  let later := (rest.drop 1).takeWhile isWordChar
  if rest.head? == some ' ' && day? word == some [] && isZonedTime later then
    some (.date, (rest.drop 1).dropWhile isWordChar)
  else (word? word).map (·, rest)

/-- A value whose lists and tables nest at most `depth` levels. -/
def value? : Nat → List Char → Option (Value × List Char)
  | depth, s =>
    match s with
    | '[' :: r =>
      match depth with
      | 0 => none
      | depth + 1 => (listItems? (value? depth) (s.length + 1) r).map fun (vs, rest) => (.list vs, rest)
    | '{' :: r =>
      match depth with
      | 0 => none
      | depth + 1 => inlineTable? (value? depth) r
    | _ =>
      match string? s with
      | some (t, rest) => some (.text (String.ofList t), rest)
      | none => wordValue? s

/-! ### Documents -/

/-- What has been read of a document: its entries, and the header at work. -/
structure Draft where
  header : List String := []
  entries : Entries := []

/-- A header: the table it names, with the rest after its brackets. -/
def Draft.header? (d : Draft) (isNext : Bool) (s : List Char) : Option (Draft × List Char) := do
  let (path, key, r) ← key? maxDepth s
  let r ← mark? ']' r
  let entries ← if isNext then openNext? path key d.entries else open? path key d.entries
  some ({ d with header := path ++ [key], entries }, ← if isNext then mark? ']' r else some r)

/-- A key with its value, with the rest after them. -/
def Draft.entry? (d : Draft) (s : List Char) : Option (Draft × List Char) := do
  let (path, key, r) ← keyOf? s
  let (v, r) ← value? maxDepth r
  some ({ d with entries := ← addUnder? d.header path key v d.entries }, r)

/-- The rest of a document; `fuel` is more than the number of its lines. -/
def Draft.read? : Nat → Draft → List Char → Option Draft
  | 0, _, _ => none
  | fuel + 1, d, s => do
    let (d, r) ← match skipBlanks s with
      | '[' :: '[' :: r => d.header? true r
      | '[' :: r => d.header? false r
      | s => if s.isEmpty || s.head? == some '#' || (lineEnd? s).isSome then some (d, s) else d.entry? s
    let r := skipComment (skipBlanks r)
    if r.isEmpty then some d else d.read? fuel (← lineEnd? r)

/-- The entries of a document. -/
def parse? (text : List Char) : Option Entries :=
  let s := match text with
    | '\uFEFF' :: r => r
    | s => s
  ((({} : Draft).read? (s.length + 1) s)).map (·.entries)

end LivePreview.Toml
