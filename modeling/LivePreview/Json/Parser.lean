import LivePreview.Json.Number
import LivePreview.Text.Digits

/-! Reading JSON text.

The reader takes exactly one value, with white space around it. Values nest at most 127 levels. A value that
nobody asked for is skipped with less care: its nesting has no limit, its numbers may be of any size and its
strings may name half of a surrogate pair. -/
namespace LivePreview.Json

/-- The four characters that may stand between tokens. -/
def isJsonSpace (c : Char) : Bool := c == ' ' || c == '\n' || c == '\t' || c == '\r'

def skipSpace (s : List Char) : List Char := s.dropWhile isJsonSpace

/-- The number that four hexadecimal digits spell. -/
def hexWord? : List Char → Option (Nat × List Char)
  | a :: b :: c :: d :: r => do
    let a ← Text.hexValue? a
    let b ← Text.hexValue? b
    let c ← Text.hexValue? c
    let d ← Text.hexValue? d
    some (((a * 16 + b) * 16 + c) * 16 + d, r)
  | _ => none

/-- The character of an escape, read after its backslash. A careful reader refuses half a surrogate pair; the
other one takes a replacement character for it. -/
def escape? (careful : Bool) : List Char → Option (Char × List Char)
  | '"' :: r => some ('"', r)
  | '\\' :: r => some ('\\', r)
  | '/' :: r => some ('/', r)
  | 'b' :: r => some ('\x08', r)
  | 'f' :: r => some ('\x0c', r)
  | 'n' :: r => some ('\n', r)
  | 'r' :: r => some ('\r', r)
  | 't' :: r => some ('\t', r)
  | 'u' :: r => do
    let (n, r) ← hexWord? r
    if !careful then some (if n < 0xD800 || 0xDFFF < n then Char.ofNat n else '\uFFFD', r)
    else if n < 0xD800 || 0xDFFF < n then some (Char.ofNat n, r)
    else if 0xDC00 ≤ n then none
    else match r with
      | '\\' :: 'u' :: r => do
        let (m, r) ← hexWord? r
        if 0xDC00 ≤ m && m ≤ 0xDFFF then some (Char.ofNat (0x10000 + (n - 0xD800) * 0x400 + (m - 0xDC00)), r)
        else none
      | _ => none
  | _ => none

/-- The characters of a string up to its closing quote, at most `fuel` of them, and the rest. -/
def stringTail? (careful : Bool) : Nat → List Char → Option (List Char × List Char)
  | 0, _ => none
  | fuel + 1, s =>
    match s with
    | [] => none
    | '"' :: r => some ([], r)
    | '\\' :: r => do
      let (c, r) ← escape? careful r
      let (cs, r) ← stringTail? careful fuel r
      some (c :: cs, r)
    | c :: r =>
      if c.toNat < 0x20 then none
      else do
        let (cs, r) ← stringTail? careful fuel r
        some (c :: cs, r)

/-- A string with the rest of the text. -/
def string? (careful : Bool) : List Char → Option (String × List Char)
  | '"' :: r => (stringTail? careful (r.length + 1) r).map fun (cs, r) => (String.ofList cs, r)
  | _ => none

/-- The shape of a number, whatever its size, with the rest of the text. -/
def skipNumber? (s : List Char) : Option (List Char) :=
  let s := match s with
    | '-' :: r => r
    | r => r
  let digits := s.takeWhile Text.isDigit
  let s := s.dropWhile Text.isDigit
  if digits.isEmpty || (digits.head? == some '0' && 1 < digits.length) then none
  else
    let fraction? := match s with
      | '.' :: r => if (r.takeWhile Text.isDigit).isEmpty then none else some (r.dropWhile Text.isDigit)
      | r => some r
    fraction?.bind fun r => (exponent? r).map (·.2)

/-- A text without the word it starts with. -/
def word? (w : String) (s : List Char) : Option (List Char) :=
  if w.toList.isPrefixOf s then some (s.drop w.length) else none

/-- Items with commas between them up to `close`, each read by `item`; at most `fuel` of them. -/
def series? {α : Type} (close : Char) (item : List Char → Option (α × List Char)) :
    Nat → List Char → Option (List α × List Char)
  | 0, _ => none
  | fuel + 1, s => do
    let (a, s) ← item (skipSpace s)
    match skipSpace s with
    | ',' :: r => do
      let (as, r) ← series? close item fuel r
      some (a :: as, r)
    | c :: r => if c == close then some ([a], r) else none
    | [] => none

/-- Items between brackets, read after the opening one. -/
def bracketed? {α : Type} (close : Char) (item : List Char → Option (α × List Char)) (s : List Char) :
    Option (List α × List Char) :=
  match skipSpace s with
  | c :: r => if c == close then some ([], r) else series? close item s.length (c :: r)
  | [] => none

/-- A member of an object: its name, a colon and its value. -/
def member? {α : Type} (careful : Bool) (value : List Char → Option (α × List Char)) (s : List Char) :
    Option ((String × α) × List Char) := do
  let (name, s) ← string? careful s
  match skipSpace s with
  | ':' :: r => do
    let (v, r) ← value (skipSpace r)
    some ((name, v), r)
  | _ => none

/-- A value whose brackets nest less than `depth` levels, with the rest of the text. -/
def value? (careful : Bool) : Nat → List Char → Option (Json × List Char)
  | 0, _ => none
  | depth + 1, s =>
    match s with
    | '[' :: r =>
      if depth == 0 then none
      else (bracketed? ']' (value? careful depth) r).map fun (items, r) => (.arr items, r)
    | '{' :: r =>
      if depth == 0 then none
      else (bracketed? '}' (member? careful (value? careful depth)) r).map fun (ms, r) => (.obj ms, r)
    | '"' :: _ => (string? careful s).map fun (t, r) => (.str t, r)
    | 'n' :: _ => (word? "null" s).map fun r => (.null, r)
    | 't' :: _ => (word? "true" s).map fun r => (.bool true, r)
    | 'f' :: _ => (word? "false" s).map fun r => (.bool false, r)
    | _ => if careful then number? s else (skipNumber? s).map fun r => (.null, r)

/-- The number of levels at which a text is refused. -/
def maxDepth : Nat := 128

/-- The text after a value that is not looked at. -/
def skipValue? (s : List Char) : Option (List Char) := (value? false (s.length + 2) s).map (·.2)

/-- The value of a text. -/
def parse? (text : String) : Option Json := do
  let (v, r) ← value? true maxDepth (skipSpace text.toList)
  if (skipSpace r).isEmpty then some v else none

end LivePreview.Json
