import LivePreview.Text.Space

/-! Shell scripts: simple commands one after another.

A script is read line by line. A command may take its input from the lines below it, up to a mark, and send what it
writes elsewhere. Variables and substitutions are not part of these scripts: their signs stand for themselves. -/
namespace LivePreview.Shell
open Text

/-- Where a command writes. -/
inductive Sink where
  | output
  | errors
  | nowhere
deriving BEq, DecidableEq, Repr

/-- When a command runs, by how the one before it ended. -/
inductive Condition where
  | always
  | afterSuccess
  | afterFailure
deriving BEq, DecidableEq, Repr

structure Command where
  condition : Condition := .always
  words : List String := []
  /-- The lines below that it reads instead of the script's input. -/
  input : Option String := none
  output : Sink := .output
  errors : Sink := .errors
  line : Nat := 1
deriving DecidableEq, Repr

/-! ### Tokens of a line -/

inductive Token where
  | word (s : String)
  /-- The end of a command, with the condition of the next one. -/
  | next (condition : Condition)
  /-- Sends what is written to a stream by its number to a place by its name. -/
  | send (stream : Nat) (target : String)
  /-- Takes the lines below up to a mark for input; `stripTabs` takes away the tabs before each. -/
  | here (mark : String) (stripTabs : Bool)
deriving DecidableEq, Repr

/-- A character that ends a word. -/
def endsWord (c : Char) : Bool := isBlank c || [';', '&', '|', '<', '>', '\n', '(', ')'].contains c

/-- The rest of a word, its quotes resolved; `quote` is the quote that is open, and `fuel` at least the length. -/
def wordRest? (quote : Option Char) : Nat → List Char → Option (List Char × List Char)
  | 0, s => if quote.isNone then some ([], s) else none
  | _, [] => if quote.isNone then some ([], []) else none
  | fuel + 1, c :: r =>
    let push (c : Char) (quote : Option Char) (r : List Char) :=
      (wordRest? quote fuel r).map fun (t, rest) => (c :: t, rest)
    match quote with
    | some q =>
      if c == q then wordRest? none fuel r
      else if c == '\\' && q == '"' then
        match r with
        | '\n' :: r => wordRest? quote fuel r
        | d :: r => if ['"', '\\', '$', '\x60'].contains d then push d quote r else push c quote (d :: r)
        | [] => none
      else push c quote r
    | none =>
      if c == '\'' || c == '"' then wordRest? (some c) fuel r
      else if c == '\\' then
        match r with
        | '\n' :: r => wordRest? none fuel r
        | d :: r => push d none r
        | [] => some (['\\'], [])
      else if endsWord c then some ([], c :: r)
      else push c none r

/-- A word, with the rest. -/
def word? (s : List Char) : Option (String × List Char) := do
  let s := s.dropWhile isBlank
  match s with
  | [] => none
  | c :: _ =>
    if endsWord c then none
    else
      let (t, rest) ← wordRest? none (s.length + 1) s
      some (String.ofList t, rest)

/-- What stands behind a stream that is sent elsewhere. -/
def send? (stream : Nat) (r : List Char) : Option (Token × List Char) :=
  match r with
  | '&' :: r => (word? r).map fun (w, rest) => (.send stream ("&" ++ w), rest)
  | '>' :: r => (word? r).map fun (w, rest) => (.send stream w, rest)
  | r => (word? r).map fun (w, rest) => (.send stream w, rest)

/-- The next token of a line that goes on. -/
def token? (s : List Char) : Option (Token × List Char) :=
  match s with
  | '&' :: '&' :: r => some (.next .afterSuccess, r)
  | '|' :: '|' :: r => some (.next .afterFailure, r)
  | ';' :: r => some (.next .always, r)
  | '<' :: '<' :: '-' :: r => (word? r).map fun (w, rest) => (.here w true, rest)
  | '<' :: '<' :: r => (word? r).map fun (w, rest) => (.here w false, rest)
  | '>' :: r => send? 1 r
  | '1' :: '>' :: r => send? 1 r
  | '2' :: '>' :: r => send? 2 r
  | s => (word? s).map fun (w, rest) => (.word w, rest)

/-- The tokens up to the end of a line, with the text below it; `fuel` is more than the length. -/
def tokens? : Nat → List Char → Option (List Token × List Char)
  | 0, _ => none
  | fuel + 1, s =>
    match s.dropWhile isBlank with
    | [] => some ([], [])
    | '\n' :: r => some ([], r)
    | '#' :: r => some ([], (r.dropWhile (· != '\n')).drop 1)
    | s => do
      let (t, r) ← token? s
      let (ts, rest) ← tokens? fuel r
      some (t :: ts, rest)

/-! ### Commands -/

/-- The lines up to a mark, with the text below it; without the mark all of them count. -/
def linesUpTo (mark : List Char) (stripTabs : Bool) : Nat → List Char → List Char × List Char
  | 0, s => ([], s)
  | _, [] => ([], [])
  | fuel + 1, s =>
    let full := s.takeWhile (· != '\n')
    let line := if stripTabs then full.dropWhile (· == '\t') else full
    let rest := s.drop (full.length + 1)
    if line == mark then ([], rest)
    else
      let (text, rest) := linesUpTo mark stripTabs fuel rest
      (line ++ '\n' :: text, rest)

/-- The place that a name stands for, given where the streams of a command go. -/
def Command.sink (c : Command) (target : String) : Sink :=
  match target with
  | "&1" => c.output
  | "&2" => c.errors
  | _ => .nowhere

/-- The commands of the tokens of a line, given the one at work and the text below. -/
def commands (c : Command) : List Token → List Char → List Command × List Char
  | [], below => ([c], below)
  | t :: ts, below =>
    match t with
    | .word w => commands { c with words := c.words ++ [w] } ts below
    | .next condition =>
      let (cs, below) := commands { condition, line := c.line } ts below
      (c :: cs, below)
    | .send 2 target => commands { c with errors := c.sink target } ts below
    | .send _ target => commands { c with output := c.sink target } ts below
    | .here mark stripTabs =>
      let (text, below) := linesUpTo mark.toList stripTabs below.length below
      commands { c with input := some (String.ofList text) } ts below

/-- The commands of a script from a line on; none when a line is not well formed. -/
def script? : Nat → Nat → List Char → Option (List Command)
  | 0, _, _ => none
  | _, _, [] => some []
  | fuel + 1, line, s => do
    let (ts, below) ← tokens? (s.length + 1) s
    let (cs, rest) := commands { line } ts below
    let read := (s.take (s.length - rest.length)).count '\n'
    some (cs ++ (← script? fuel (line + read) rest))

/-- The commands of a script. -/
def parse? (text : String) : Option (List Command) := script? (text.length + 1) 1 text.toList

end LivePreview.Shell
