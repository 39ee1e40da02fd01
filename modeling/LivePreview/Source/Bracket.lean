import LivePreview.Text.Space

/-! Bracket matching by depth.

These scans know brackets only: strings and markup are not told apart from code, so callers leave alone what
may hold either. Places are numbers of characters from the start of the text. -/
namespace LivePreview.Source

/-- The number of characters up to and including the one where `close` has met as many `opens` as came
before, scanning from depth `depth`. -/
def closeAfter (opens close : Char) : Nat → List Char → Option Nat
  | _, [] => none
  | depth, c :: r =>
    if c == opens then (closeAfter opens close (depth + 1) r).map (· + 1)
    else if c == close then
      if depth ≤ 1 then some 1 else (closeAfter opens close (depth - 1) r).map (· + 1)
    else (closeAfter opens close depth r).map (· + 1)

/-- The place of the `)` that closes the `(` at `start`. -/
def closingParen? (s : List Char) (start : Nat) : Option Nat :=
  match s.drop start with
  | '(' :: r => (closeAfter '(' ')' 1 r).map (start + ·)
  | _ => none

/-- The place of the `(` that the `)` at `stop` closes. -/
def openingParen? (s : List Char) (stop : Nat) : Option Nat :=
  match s.drop stop with
  | ')' :: _ => (closeAfter ')' '(' 1 (s.take stop).reverse).map (stop - ·)
  | _ => none

/-- The number of characters up to the end of a list of type arguments, read after its `<`. The `>` of an arrow
closes nothing, and a semicolon ends the search. -/
def typeArgumentsAfter (prev : Char) : Nat → List Char → Option Nat
  | _, [] => none
  | depth, c :: r =>
    if c == '<' then (typeArgumentsAfter c (depth + 1) r).map (· + 1)
    else if c == '>' && prev != '=' then
      if depth ≤ 1 then some 1 else (typeArgumentsAfter c (depth - 1) r).map (· + 1)
    else if c == ';' then none
    else (typeArgumentsAfter c depth r).map (· + 1)

/-- The place after the list of type arguments that the `<` at `start` opens. -/
def typeArgumentsEnd? (s : List Char) (start : Nat) : Option Nat :=
  match s.drop start with
  | '<' :: r => (typeArgumentsAfter '<' 1 r).map (start + 1 + ·)
  | _ => none

/-- What a bracket adds to the depth. -/
def depthStep (c : Char) : Int :=
  if c == '(' || c == '[' || c == '{' then 1 else if c == ')' || c == ']' || c == '}' then -1 else 0

/-- The pieces of a text between the commas at depth zero, scanning from depth `depth`. -/
def splitCommas (depth : Int) : List Char → List (List Char)
  | [] => [[]]
  | c :: r =>
    if c == ',' && depth == 0 then [] :: splitCommas depth r
    else match splitCommas (depth + depthStep c) r with
      | [] => [[c]]
      | p :: ps => (c :: p) :: ps

/-- Cuts a text before the first character at depth zero that `stops`; `stops` sees what follows, too. -/
def cutAt (stops : Char → List Char → Bool) (depth : Int) : List Char → Option (List Char × List Char)
  | [] => none
  | c :: r =>
    if depth == 0 && depthStep c == 0 && stops c r then some ([], c :: r)
    else (cutAt stops (depth + depthStep c) r).map fun (a, b) => (c :: a, b)

end LivePreview.Source
