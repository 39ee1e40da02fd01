import LivePreview.Pattern.Basic

/-! Code fences around a source.

A generator's answer often wraps its code in fence lines. The opening fence may name a dialect; either fence is
taken off on its own, so that an answer cut short is unwrapped as well. -/
namespace LivePreview

/-- The language a fence names. -/
inductive Dialect where
  | tsx
  | jsx
  | typeScript
  | javaScript
  | unknown
deriving DecidableEq, Repr

namespace Dialect

/-- The dialect named by the first word of a fence's info text, in any case of its letters. -/
def ofInfo (info : String) : Dialect :=
  match String.ofList (Text.lower (Text.firstWord info.toList)) with
  | "tsx" => tsx
  | "jsx" => jsx
  | "ts" | "typescript" => typeScript
  | "js" | "javascript" => javaScript
  | _ => unknown

/-- Whether a block in this dialect can hold a component. -/
def isScript (d : Dialect) : Bool := d != unknown

end Dialect

namespace Source
open Pattern

/-- Three backticks or three tildes. -/
def fenceMark : Pattern := lit "```" ||| lit "~~~"

/-- The first line of a text, after white space, when it starts with a fence. -/
def openingFence : Pattern :=
  .at .textStart ++ spaces ++ fenceMark ++ .many (fun c => Text.isPlainName c || among "+.-" c) true ++
    .many (· != '\n') true ++ lit "\n"

/-- A fence followed by white space up to the end of the text, with the line break and the blanks before it. -/
def closingFence : Pattern :=
  opt (lit "\n") ++ blanks ++ fenceMark ++ blanks ++ spaces ++ .at .textEnd

/-- A source without the fence line it starts with and the fence it ends with. -/
def stripFences (s : List Char) : List Char := closingFence.removeFirst (openingFence.removeFirst s)

end Source
end LivePreview
