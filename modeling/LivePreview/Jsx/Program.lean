import LivePreview.Jsx.Element
import LivePreview.Jsx.Statement

/-! Markup scripts as a whole.

The constructs are tied together by fuel: each one stands inside another that has more. Between two of them that
start at the same character stand at most seven others, so eight times the length of a text is enough. -/
namespace LivePreview.Jsx

/-- The reader of a construct, with the readers of the constructs inside it. -/
def construct (g : Grammar) : Goal → Reader Shape
  | .expression => Jsx.expression g
  | .assignment => assignment g
  | .binary level => binary g level
  | .unary => unary g
  | .operand => operand g true true
  | .callee => operand g false true
  | .decorator => operand g true false
  | .binding => bindingPattern g
  | .statement alone => statement g alone
  | .element => element g

/-- The reader of a construct that holds others up to `fuel` deep. -/
def constructIn (limit : Nat) : Nat → Context → Goal → Reader Shape
  | 0, _, _ => failure
  | fuel + 1, context, goal => construct ⟨limit, context, constructIn limit fuel⟩ goal

/-- The grammar of a text of this length, at its top. -/
def Grammar.ofLength (n : Nat) : Grammar := ⟨n + 2, .top, constructIn (n + 2) (8 * n + 16)⟩

/-- The text without a first line that says what runs it. -/
def withoutRunner : List Char → List Char
  | '#' :: '!' :: r => r.dropWhile (!isLineEnd ·)
  | s => s

/-- A whole script. -/
def script (g : Grammar) : Reader Unit :=
  Reader.loop (do
    if (← Reader.lexeme) == .done then return false
    moduleItem g
    return true) g.limit

/-- Whether a text is a module of plain scripts with markup. A name is handed out once only. -/
def isValid (text : List Char) : Bool :=
  match (script (.ofLength text.length)).run (.ofText (withoutRunner text)) with
  | some ((), c) => c.exported.eraseDups.length = c.exported.length
  | none => false

end LivePreview.Jsx
