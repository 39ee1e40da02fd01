import LivePreview.Text.Word

/-! String contents and markup text in a source.

A small lexer follows a source through code, tags and the text between tags. Its spans are the contents of
strings, without their quotes, and the runs of markup text that are not blank. Braces inside markup lead back to
code, and an apostrophe in markup text is text. -/
namespace LivePreview.Source

/-- What the lexer is reading. -/
inductive Mode where
  /-- Script, with the number of braces opened since it began. -/
  | code (braces : Nat)
  /-- The inside of a tag, which is a closing tag or not. -/
  | tag (closing : Bool)
  /-- The text between an opening tag and its closing tag. -/
  | children
deriving DecidableEq, Repr

/-- A range of places in a text, its end excluded. -/
structure Span where
  start : Nat
  stop : Nat
deriving DecidableEq, Repr

/-- The number of characters before the end of a string: its quote, the line end for a string that has to end on
its line, or the end of the text. A backslash hides the character after it. -/
def stringLength (quote : Char) : List Char → Nat
  | [] => 0
  | ['\\'] => 1
  | '\\' :: _ :: r => stringLength quote r + 2
  | c :: r => if c == quote || (c == '\n' && quote != '`') then 0 else stringLength quote r + 1

/-- The number of characters up to the end of a block comment, read after its opening. -/
def commentLength : List Char → Nat
  | [] => 0
  | '*' :: '/' :: _ => 2
  | _ :: r => commentLength r + 1

/-- A character that the lexer takes for part of a word. -/
def isScriptWord (c : Char) : Bool := Text.isPlainName c || c == '$'

/-- White space in ASCII, without the vertical tab. -/
def isAsciiSpace (c : Char) : Bool := c == ' ' || c == '\t' || c == '\n' || c == '\x0c' || c == '\r'

/-- Words after which an operand follows, so that `<` cannot be a comparison. -/
def operandWords : List String := ["return", "yield", "await", "default", "case"]

/-- Whether `<` opens an element, where `before` precedes it, last character first, and `rest` follows. -/
def opensElement (before rest : List Char) : Bool :=
  rest.head?.any (fun c => Text.isLatin c || c == '>') &&
    match before.dropWhile isAsciiSpace with
    | [] => true
    | c :: r =>
      if c == ')' || c == ']' then false
      else if isScriptWord c then
        operandWords.contains (String.ofList ((c :: r).takeWhile isScriptWord).reverse)
      else true

/-- One step of the lexer: how many characters it reads, the modes after it, and the part of those characters
that is a string's content. -/
structure LexStep where
  width : Nat
  modes : List Mode
  content : Option Span := none

/-- The step over a string whose content is `n` characters long. -/
def LexStep.string (n : Nat) (modes : List Mode) : LexStep := ⟨n + 2, modes, some ⟨1, n + 1⟩⟩

/-- The step at `c`, where `before` precedes it, last character first, and `rest` follows it. -/
def lexStep (mode : Mode) (below : List Mode) (before : List Char) (c : Char) (rest : List Char) : LexStep :=
  match mode with
  | .code braces =>
    if c == '\'' || c == '"' || c == '`' then .string (stringLength c rest) (mode :: below)
    else if c == '/' && rest.head? == some '/' then
      ⟨1 + (rest.takeWhile (· != '\n')).length, mode :: below, none⟩
    else if c == '/' && rest.head? == some '*' then ⟨2 + commentLength rest.tail, mode :: below, none⟩
    else if c == '{' then ⟨1, .code (braces + 1) :: below, none⟩
    else if c == '}' then
      if 0 < braces then ⟨1, .code (braces - 1) :: below, none⟩
      else ⟨1, if below.isEmpty then [mode] else below, none⟩
    else if c == '<' && opensElement before rest then ⟨1, .tag false :: mode :: below, none⟩
    else ⟨1, mode :: below, none⟩
  | .tag closing =>
    if c == '\'' || c == '"' then .string (stringLength c rest) (mode :: below)
    else if c == '{' then ⟨1, .code 0 :: mode :: below, none⟩
    else if c == '/' && rest.head? == some '>' then ⟨2, below, none⟩
    else if c == '>' then ⟨1, if closing then below else .children :: below, none⟩
    else ⟨1, mode :: below, none⟩
  | .children =>
    if c == '{' then ⟨1, .code 0 :: mode :: below, none⟩
    else if c == '<' then
      if rest.head? == some '/' then ⟨2, .tag true :: below, none⟩ else ⟨1, .tag false :: mode :: below, none⟩
    else ⟨1, mode :: below, none⟩

/-- A run of markup text in progress: where it began and whether it is more than white space. -/
structure TextRun where
  start : Nat
  inked : Bool

/-- The span of a run that ends at `pos`. -/
def TextRun.spans (pos : Nat) : Option TextRun → List Span
  | some ⟨start, true⟩ => [⟨start, pos⟩]
  | _ => []

/-- The run with the character `c` at `pos` added. -/
def TextRun.add (pos : Nat) (c : Char) : Option TextRun → TextRun
  | some run => ⟨run.start, run.inked || !Text.isSpace c⟩
  | none => ⟨pos, !Text.isSpace c⟩

/-- The spans from here on, with the modes, the text read so far, last character first, its length and the run
of markup text in progress. -/
def spansFrom (modes : List Mode) (before : List Char) (pos : Nat) (run : Option TextRun) :
    List Char → List Span
  | [] => TextRun.spans pos run
  | c :: r =>
    match modes with
    | [] => []
    | mode :: below =>
      if mode = .children ∧ c ≠ '{' ∧ c ≠ '<' then
        spansFrom modes (c :: before) (pos + 1) (some (TextRun.add pos c run)) r
      else
        let s := lexStep mode below before c r
        let content := match s.content with
          | some t => if t.start < t.stop then [⟨pos + t.start, pos + t.stop⟩] else []
          | none => []
        let after := s.width - 1
        TextRun.spans pos run ++ content ++
          spansFrom s.modes ((r.take after).reverse ++ c :: before) (pos + s.width) none (r.drop after)
termination_by s => s.length
decreasing_by all_goals simp only [List.length_cons, List.length_drop]; omega

/-- The spans of string contents and markup text, in order. -/
def literalSpans (s : List Char) : List Span := spansFrom [.code 0] [] 0 none s

end LivePreview.Source
