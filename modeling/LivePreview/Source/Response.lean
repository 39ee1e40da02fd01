import LivePreview.Markdown.Entity
import LivePreview.Markdown.Fenced
import LivePreview.Source.Fence
import LivePreview.Text.Digits

/-! Code in a generator's answer: its fenced blocks, and the one to take as the source. -/
namespace LivePreview.Source

/-! ### Info texts -/

def isPunctuation (c : Char) : Bool :=
  let n := c.toNat
  (0x21 ≤ n && n ≤ 0x2F) || (0x3A ≤ n && n ≤ 0x40) || (0x5B ≤ n && n ≤ 0x60) || (0x7B ≤ n && n ≤ 0x7E)

/-- The character with a number; zero and numbers out of range stand for none of their own. -/
def charOfNumber? (n : Nat) : Option Char :=
  if n == 0 then some '\uFFFD' else if n < 0xD800 || (0xDFFF < n && n ≤ 0x10FFFF) then some (Char.ofNat n) else none

/-- The number of digits at the start of a text, at most `limit` of them, and the character they stand for. -/
def numbered? (limit base : Nat) (isDigit : Char → Bool) (s : List Char) : Option (List Char × List Char) :=
  let digits := (s.take limit).takeWhile isDigit
  match digits, s.drop digits.length with
  | digits, ';' :: r => ((Text.number? base digits).bind charOfNumber?).map fun c => ([c], r)
  | _, _ => none

/-- The characters of a reference, read after its ampersand, and the text after it. -/
def reference? (s : List Char) : Option (List Char × List Char) :=
  match s with
  | '#' :: c :: r =>
    if c == 'x' || c == 'X' then numbered? 6 16 Text.isHexDigit r else numbered? 7 10 Text.isDigit (c :: r)
  | s =>
    let name := s.takeWhile Markdown.isLetterOrDigit
    match s.drop name.length with
    | ';' :: r => (Markdown.entity? name).map fun chars => (chars, r)
    | _ => none

/-- An info text with its escapes and references replaced; at most `fuel` of its characters. -/
def decodeInfo : Nat → List Char → List Char
  | 0, s => s
  | fuel + 1, s =>
    match s with
    | [] => []
    | '\\' :: c :: r => if isPunctuation c then c :: decodeInfo fuel r else '\\' :: decodeInfo fuel (c :: r)
    | '&' :: r =>
      match reference? r with
      | some (chars, rest) => chars ++ decodeInfo fuel rest
      | none => '&' :: decodeInfo fuel r
    | '\r' :: r => decodeInfo fuel r
    | c :: r => c :: decodeInfo fuel r

/-- The name of a file that an info text gives: in quotes after `filename=`, or as a word after `file=`. -/
def filename? (info : List Char) : Option (List Char) :=
  let quoted? := do
    let (_, r) ← Text.splitAt? "filename=\"".toList info
    let (name, _) ← Text.splitAt? ['"'] r
    some name
  match quoted? with
  | some name => some name
  | none => do
    let (_, r) ← Text.splitAt? "file=".toList info
    let word := (r.takeWhile (!Text.isSpace ·)).dropWhile (· == '"')
    let name := (word.reverse.dropWhile (· == '"')).reverse
    if name.isEmpty then none else some name

/-! ### Blocks -/

/-- A fenced block of an answer. -/
structure CodeBlock where
  dialect : Dialect
  body : List Char
  filename : Option (List Char)
deriving DecidableEq, Repr

def CodeBlock.ofText (info body : List Char) : CodeBlock :=
  ⟨Dialect.ofInfo (String.ofList info), body, filename? info⟩

/-- What has been gathered of a row of events: the blocks that have ended, and the info text and body of the one that
has begun. -/
structure Gathered where
  blocks : List CodeBlock := []
  current : Option (List Char × List Char) := none

/-- Text counts for the block that has begun, and so does the end of a block of code. A fence begins a new one, even
where another one has not ended. -/
def Gathered.add (g : Gathered) : Markdown.Event → Gathered
  | .fenced info => { g with current := some (info, []) }
  | .text s =>
    match g.current with
    | some (info, body) => { g with current := some (info, body ++ s) }
    | none => g
  | .endCode =>
    match g.current with
    | some (info, body) => ⟨g.blocks ++ [.ofText info body], none⟩
    | none => g
  | .other => g

/-- The fenced blocks in a row of events. One that does not end is not there. -/
def blocksOf (events : List Markdown.Event) : List CodeBlock := (events.foldl Gathered.add {}).blocks

section Reader
variable (read : List Char → List Markdown.Event)

/-- The fenced blocks of an answer in order, as a reader of markdown comes upon them. -/
def codeBlocksBy (s : List Char) : List CodeBlock := blocksOf (read s)

/-- The source in an answer: its first block in a script dialect, else its first block, else all of it. -/
def unwrapBy (s : List Char) : List Char :=
  if !Text.contains "```".toList s && !Text.contains "~~~".toList s then s
  else
    let blocks := codeBlocksBy read s
    match blocks.find? (·.dialect.isScript) with
    | some b => b.body
    | none =>
      match blocks with
      | b :: _ => b.body
      | [] => s

end Reader

/-- What a reader of markdown reports of the fenced blocks of a text. -/
def events (s : List Char) : List Markdown.Event :=
  (Markdown.fencedBlocks s).flatMap fun b => [.fenced (decodeInfo b.info.length b.info), .text b.body, .endCode]

def codeBlocks : List Char → List CodeBlock := codeBlocksBy events

def unwrap : List Char → List Char := unwrapBy events

end LivePreview.Source
