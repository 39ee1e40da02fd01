import LivePreview.Text.Space

/-! Lines and what they start with.

A line may begin with white space and with marks of the containers it stands in: quotes and list items. Tabs
reach to the next multiple of four columns, and a mark may take only a part of one. -/
namespace LivePreview.Markdown

/-- White space within a line. -/
def isLineSpace (c : Char) : Bool := c == ' ' || c == '\t' || c == '\x0b' || c == '\x0c'

/-- White space of any kind, in the narrow sense. -/
def isPlainSpace (c : Char) : Bool := c == ' ' || (9 ≤ c.toNat && c.toNat ≤ 13)

/-- The text after a line end, where one stands; the end of the text is one. -/
def lineEnd? : List Char → Option (List Char)
  | [] => some []
  | '\n' :: r => some r
  | '\r' :: '\n' :: r => some r
  | '\r' :: r => some r
  | _ => none

/-- The text after the line, when there is nothing left on it. -/
def blankLine? (s : List Char) : Option (List Char) := lineEnd? (s.dropWhile isLineSpace)

def isLineEnd (s : List Char) : Bool := (lineEnd? s).isSome

/-- The text after the line. -/
def nextLine : List Char → List Char
  | [] => []
  | '\n' :: r => r
  | '\r' :: '\n' :: r => r
  | '\r' :: r => r
  | _ :: r => nextLine r

/-- A line up to its line feed, and the text after it. -/
def rawLine : List Char → List Char × List Char
  | [] => ([], [])
  | '\n' :: r => (['\n'], r)
  | c :: r =>
    let (line, rest) := rawLine r
    (c :: line, rest)

/-- The start of a line: what is left of it, the columns since the last tab, and the columns of a tab that were
not taken. -/
structure Lead where
  rest : List Char
  column : Nat := 0
  owed : Nat := 0

namespace Lead

/-- Takes columns of white space from the characters; the first part says how many there were too few. -/
def takeFrom : List Char → Nat → Nat → Nat × Lead
  | s, column, 0 => (0, ⟨s, column, 0⟩)
  | ' ' :: r, column, n + 1 => takeFrom r (column + 1) n
  | '\t' :: r, column, n + 1 =>
    let width := 4 - column % 4
    if width ≤ n + 1 then takeFrom r 0 (n + 1 - width) else (0, ⟨r, 0, width - (n + 1)⟩)
  | s, column, n + 1 => (n + 1, ⟨s, column, 0⟩)

/-- Takes up to `n` columns of white space; the first part says how many there were too few. -/
def take (l : Lead) (n : Nat) : Nat × Lead :=
  if n ≤ l.owed then (0, { l with owed := l.owed - n })
  else takeFrom l.rest l.column (n - l.owed)

/-- All white space up to the next character. -/
def skip (l : Lead) : List Char := l.rest.dropWhile Text.isBlank

def atEnd (l : Lead) : Bool := isLineEnd l.rest

/-- The mark of a quote, with one column of white space after it. -/
def quote? (l : Lead) : Option Lead :=
  match l.rest with
  | '>' :: r => some (Lead.take ⟨r, l.column + 1, l.owed⟩ 1).2
  | _ => none

end Lead

/-- A line of nothing but three or more of one of `*`, `-` and `_`, with blanks between them. -/
def isRule (s : List Char) : Bool :=
  match s with
  | c :: _ =>
    let line := s.takeWhile fun d => d != '\n' && d != '\r'
    (c == '*' || c == '-' || c == '_') && line.all (fun d => d == c || Text.isBlank d) && 3 ≤ line.count c
  | [] => false

/-- The rest of a mark of a list item: the column where its text starts, counted from `indent`, and the text. The
mark alone on its line counts one column of white space, and so does a mark before code. -/
def itemText? (indent : Nat) (l : Lead) : Option (Nat × Lead) :=
  let (missing, after) := l.take 1
  if missing == 0 || after.atEnd then
    if (blankLine? after.rest).isSome then some (indent + 1, after)
    else
      let (few, text) := after.take 4
      if few == 0 then some (indent + 1, after) else some (indent + 1 + (4 - few), text)
  else none

/-- The number of digits and the mark of an ordered list item, and the text after it. -/
def ordinal? (s : List Char) : Option (Nat × List Char) :=
  let digits := s.takeWhile Text.isDigit
  match s.dropWhile Text.isDigit with
  | c :: r => if 0 < digits.length && digits.length ≤ 9 && (c == '.' || c == ')') then some (digits.length, r) else none
  | [] => none

/-- The mark of a list item that stands `indent` columns from its container: the column where its text starts,
and the text. -/
def itemMark? (indent : Nat) (l : Lead) : Option (Nat × Lead) :=
  match l.rest with
  | c :: r =>
    if c == '-' || c == '+' || c == '*' then
      if isRule l.rest then none else itemText? (indent + 1) ⟨r, l.column + 1, l.owed⟩
    else
      match ordinal? l.rest with
      | some (n, r) => itemText? (indent + n + 1) ⟨r, l.column + n + 1, l.owed⟩
      | none => none
  | [] => none

/-! ### Containers -/

/-- How far a list item has come. -/
inductive ItemState where
  /-- Nothing but its mark was there. -/
  | begun
  | running
  /-- A blank line followed the mark: nothing more belongs to it. -/
  | closed
deriving DecidableEq, Repr

/-- What lines may stand in. The text of an item starts at a column. -/
inductive Container where
  | quote
  | item (column : Nat) (state : ItemState)
deriving DecidableEq, Repr

/-- The line within a container, when the line goes on with it. -/
def Container.continue? (l : Lead) : Container → Option Lead
  | .quote => (l.take 3).2.quote?
  | .item _ .closed => if (blankLine? l.rest).isSome then some l else none
  | .item column _ =>
    let (missing, inner) := l.take column
    if missing == 0 || inner.atEnd then some inner else none

/-- The containers that a line goes on with, outermost first, and the line within them. -/
def goOn (l : Lead) : List Container → List Container × Lead
  | [] => ([], l)
  | c :: cs =>
    match c.continue? l with
    | some l =>
      let (kept, l) := goOn l cs
      (c :: kept, l)
    | none => ([], l)

end LivePreview.Markdown
