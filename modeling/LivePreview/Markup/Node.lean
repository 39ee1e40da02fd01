import LivePreview.Text.Space

/-! Rendered output: a tree of elements and texts, and its two written forms. -/
namespace LivePreview

/-- A piece of rendered output. Attributes and handlers stand in the order of their names. -/
inductive Node where
  | text (s : String)
  | element (tag : String) (attributes : List (String × String)) (handlers : List (String × Nat))
      (children : List Node)
deriving Inhabited

namespace Node

/-- A list of entries with distinct names in order, with one entry more or changed. -/
def insertEntry (name : String) (v : α) : List (String × α) → List (String × α)
  | [] => [(name, v)]
  | e :: r =>
    if e.1 == name then (name, v) :: r
    else if name < e.1 then (name, v) :: e :: r
    else e :: insertEntry name v r

/-- The text of one character between tags. -/
def escapeChar : Char → List Char
  | '&' => "&amp;".toList
  | '<' => "&lt;".toList
  | '>' => "&gt;".toList
  | '"' => "&quot;".toList
  | c => [c]

def escape (s : String) : List Char := s.toList.flatMap escapeChar

/-- Elements that have no end tag when they have no children. -/
def voidTags : List String :=
  ["area", "base", "br", "col", "embed", "hr", "img", "input", "link", "meta", "source", "track", "wbr"]

/-- The name of an attribute in markup. -/
def markupName : String → String
  | "className" => "class"
  | "htmlFor" => "for"
  | name => name

/-- An attribute in markup. One without a value is its name alone. -/
def attributeMarkup (a : String × String) : List Char :=
  ' ' :: (markupName a.1).toList ++ if a.2.isEmpty then [] else "=\"".toList ++ escape a.2 ++ ['"']

mutual

/-- The markup of a node. -/
def markup : Node → List Char
  | text s => escape s
  | element tag attributes _ children =>
    let start := '<' :: tag.toList ++ attributes.flatMap attributeMarkup
    if voidTags.contains tag && children.isEmpty then start ++ " />".toList
    else start ++ '>' :: markupAll children ++ "</".toList ++ tag.toList ++ ['>']

def markupAll : List Node → List Char
  | [] => []
  | n :: ns => markup n ++ markupAll ns

end

mutual

/-- The texts of a node, one after another. -/
def content : Node → List Char
  | text s => s.toList
  | element _ _ _ children => contentAll children

def contentAll : List Node → List Char
  | [] => []
  | n :: ns => content n ++ contentAll ns

end

mutual

/-- The handler of an event at the first element that has one, an element before its children. -/
def handler? (event : String) : Node → Option Nat
  | text _ => none
  | element _ _ handlers children => (handlers.lookup event).or (handlerIn? event children)

def handlerIn? (event : String) : List Node → Option Nat
  | [] => none
  | n :: ns => (handler? event n).or (handlerIn? event ns)

end

end Node
end LivePreview
