import LivePreview.Text.Space

/-! What is handed in for a preview: a text and the runtime it is written for. -/
namespace LivePreview.Preview

inductive Target where
  | react
  | unsupported (tag : String)
deriving DecidableEq, Repr, Inhabited

namespace Target

/-- The target that a tag names, in letters of either case and with white space around it. -/
def ofTag (tag : String) : Target :=
  let word := String.ofList (Text.lower (Text.trim tag.toList))
  if word == "react" || word == "tsx" || word == "jsx" then .react else .unsupported tag

def isSupported : Target → Bool
  | react => true
  | unsupported _ => false

/-- The target as text: the tag as it was given, when it is not supported. -/
def display : Target → String
  | react => "react"
  | unsupported tag => tag

end Target

structure Submission where
  text : String
  target : Target := .react
deriving DecidableEq, Repr

end LivePreview.Preview
