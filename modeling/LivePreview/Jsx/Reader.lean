import LivePreview.Jsx.Token

/-! Readers of markup scripts.

A reader stands at a token and knows the text it starts and the text after it, so that a construct can read these
characters anew in its own way. -/
namespace LivePreview.Jsx
open Text

/-- The token at hand, the text it starts, whether a line ends before it, the text after it, and the names exported
so far. -/
structure Cursor where
  start : List Char
  lexeme : Lexeme
  newline : Bool
  after : List Char
  exported : List String

/-- The token that a text leads to. -/
def Cursor.moveTo (c : Cursor) (text : List Char) : Cursor :=
  match skipGap .space false text with
  | none => { c with start := [], lexeme := .bad, newline := false, after := [] }
  | some (newline, start) =>
    let (t, after) := Lexeme.read start
    { c with start := start, lexeme := t, newline := newline, after := after }

def Cursor.ofText (text : List Char) : Cursor := Cursor.moveTo ⟨[], .done, false, [], []⟩ text

/-- A reader of one construct; none when the text does not have it. -/
abbrev Reader := StateT Cursor Option

namespace Reader

def lexeme : Reader Lexeme := do return (← get).lexeme

/-- Whether a line ends before the token at hand. -/
def newline : Reader Bool := do return (← get).newline

def moveTo (text : List Char) : Reader Unit := modify (·.moveTo text)

/-- Leaves the token at hand. -/
def advance : Reader Unit := do moveTo (← get).after

/-- Goes on only if it holds. -/
def require (ok : Bool) : Reader Unit := if ok then pure () else failure

/-- Reads a construct if it is there, and stays if it is not. -/
def attempt (r : Reader Unit) : Reader Bool := (do r; return true) <|> return false

def atSign (s : String) : Reader Bool := do return (← lexeme) == .sign s

/-- Whether the token at hand is this word, written plainly. -/
def atWord (w : String) : Reader Bool := do return (← lexeme) == .word w false

/-- Takes the token at hand if it is this sign. -/
def sign? (s : String) : Reader Bool := do
  if ← atSign s then
    advance
    return true
  else return false

/-- Takes the token at hand if it is this word. -/
def word? (w : String) : Reader Bool := do
  if ← atWord w then
    advance
    return true
  else return false

def sign (s : String) : Reader Unit := do require (← sign? s)

def word (w : String) : Reader Unit := do require (← word? w)

/-- The token after the one at hand, and whether a line ends before it. -/
def next : Reader (Lexeme × Bool) := do
  let c ← get
  let n := c.moveTo c.after
  return (n.lexeme, n.newline)

/-- Whether a statement ends here without a semicolon. -/
def atBreak : Reader Bool := do
  return (← newline) || (← lexeme) == .done || (← atSign "\x7d")

/-- The end of a statement. -/
def semicolon : Reader Unit := do
  unless ← sign? ";" do require (← atBreak)

/-- A string. -/
def str : Reader String := do
  match ← lexeme with
  | .str s =>
    advance
    return s
  | _ => failure

/-- A name that may be any word. -/
def anyWord : Reader String := do
  match ← lexeme with
  | .word s _ =>
    advance
    return s
  | _ => failure

/-- Reads on as long as the step asks for it; at most `n` times. -/
def loop (step : Reader Bool) : Nat → Reader Unit
  | 0 => failure
  | n + 1 => do if ← step then loop step n

/-- Everything that a step answers until it answers nothing; at most `n` times. -/
def collect (step : Reader (Option α)) : Nat → Reader (List α)
  | 0 => failure
  | n + 1 => do
    match ← step with
    | none => return []
    | some a => return a :: (← collect step n)

/-- Items with commas between them up to a closing sign, and whether a comma stands before that; at most `n`. -/
def items (close : String) (item : Reader α) : Nat → Reader (List α × Bool)
  | 0 => failure
  | n + 1 => do
    if ← sign? close then return ([], false)
    let a ← item
    if ← sign? close then return ([a], false)
    sign ","
    if ← sign? close then return ([a], true)
    let (rest, trailing) ← items close item n
    return (a :: rest, trailing)

end Reader

/-! ### What constructs are made of -/

/-- What the place around a construct allows. -/
structure Context where
  awaits : Bool
  yields : Bool
  returns : Bool
  /-- Whether `in` is an operator here. -/
  hasIn : Bool

/-- The top level of a script may wait, but has nothing to return to. -/
def Context.top : Context := ⟨true, false, false, true⟩

/-- The constructs that occur inside each other. -/
inductive Goal where
  | expression
  | assignment
  /-- An expression of operators that hold tighter than a level. -/
  | binary (level : Nat)
  | unary
  /-- A value with the members and calls behind it. -/
  | operand
  /-- What `new` makes an object of: a value with members, but no calls. -/
  | callee
  /-- What stands before a class or a member: a value with members that are named, and calls. -/
  | decorator
  | binding
  /-- A statement; one that stands alone is the body of another, and declares nothing. -/
  | statement (alone : Bool)
  /-- An element, read up to the `>` it ends with. -/
  | element

/-- How a construct may be used. -/
structure Shape where
  /-- It can stand for a value. -/
  isValue : Bool := true
  /-- It is the name of a variable. -/
  isName : Bool := false
  /-- It is a variable or a member. -/
  isPlace : Bool := false
  /-- It can be assigned to: a place, or a list or an object that assigns its parts. -/
  isTarget : Bool := false
  /-- It can be assigned to as a part of a list or an object, perhaps with a default. -/
  isPart : Bool := false
  /-- It is `&&` or `||` of two values. -/
  isChoice : Bool := false
  /-- It starts with an operator. -/
  isPrefixed : Bool := false
  /-- The variables it declares. -/
  names : List String := []

namespace Shape

def ofPlace (place : Bool) : Shape := { isPlace := place, isTarget := place, isPart := place }

def ofName : Shape := { ofPlace true with isName := true }

/-- A construct in parentheses: still a place if it is one, but no list or object to assign to. -/
def enclosed (s : Shape) : Shape := ofPlace s.isPlace

end Shape

/-- The readers of all constructs at a place, and how often a construct may repeat. -/
structure Grammar where
  limit : Nat
  context : Context
  readIn : Context → Goal → Reader Shape

namespace Grammar

def read (g : Grammar) (goal : Goal) : Reader Shape := g.readIn g.context goal

/-- The same constructs at a place inside. -/
def within (g : Grammar) (context : Context) : Grammar := { g with context := context }

/-- The same place with `in` as an operator, or without. -/
def withIn (g : Grammar) (hasIn : Bool) : Grammar := g.within { g.context with hasIn := hasIn }

/-- An expression without commas, for its value. -/
def value (g : Grammar) : Reader Unit := do Reader.require (← g.read .assignment).isValue

/-- An expression for its value. -/
def expression (g : Grammar) : Reader Unit := do Reader.require (← g.read .expression).isValue

/-- Whether a token can name a variable here. -/
def isVariable (g : Grammar) : Lexeme → Bool
  | .word w _ => !reserved.contains w && !(g.context.awaits && w == "await") && !(g.context.yields && w == "yield")
  | _ => false

/-- The name of a variable. -/
def name (g : Grammar) : Reader String := do
  Reader.require (g.isVariable (← Reader.lexeme))
  Reader.anyWord

/-- A pattern that declares variables. -/
def binding (g : Grammar) : Reader Shape := g.read .binding

/-- Statements up to the end of a block. -/
def block (g : Grammar) : Reader Unit := do
  Reader.sign "\x7b"
  let g := g.withIn true
  Reader.loop (do
    if ← Reader.sign? "\x7d" then return false
    let _ ← g.read (.statement false)
    return true) g.limit

end Grammar

end LivePreview.Jsx
