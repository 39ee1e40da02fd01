import LivePreview.Jsx.Reader

/-! Elements of markup scripts.

The text between tags is no sequence of tokens, so an element is read up to the `>` of its last tag and not beyond:
whoever reads it knows what the characters after it are. -/
namespace LivePreview.Jsx
open Text Reader

/-- A word of markup, which may have hyphens inside. -/
def markupWord : Reader String := do
  match ← lexeme with
  | .word s false =>
    let after := (← get).after
    let isPart (c : Char) : Bool := c == '-' || continuesIdentifier c
    moveTo (after.dropWhile isPart)
    return s ++ String.ofList (after.takeWhile isPart)
  | _ => failure

/-- The name of an element, in its parts: a word, a word of a namespace, or a member of members, none with a
hyphen. -/
def elementName (limit : Nat) : Reader (List String) := do
  let first ← markupWord
  if ← sign? ":" then return [first, ":", ← markupWord]
  if ← atSign "." then
    require (!first.contains '-')
    let rest ← collect (do
      if ← sign? "." then
        let w ← markupWord
        require (!w.contains '-')
        return some [".", w]
      else return none) limit
    return first :: rest.flatten
  return [first]

/-- A value in braces, which is not empty. -/
def bracedValue (g : Grammar) : Reader Unit := do
  sign "\x7b"
  (g.withIn true).expression

/-- The value of an attribute, from the equals sign on. A string that follows directly runs to its own quote. -/
def attributeValue (g : Grammar) : Reader Unit := do
  match (← get).after with
  | c :: r =>
    if c == '"' || c == '\'' then
      match r.dropWhile (· != c) with
      | _ :: rest => moveTo rest
      | [] => failure
    else
      advance
      match ← lexeme with
      | .str _ => advance
      | .sign "<" =>
        let _ ← g.read .element
        advance
      | _ =>
        bracedValue g
        sign "\x7d"
  | [] => failure

/-- An attribute of a tag, or nothing at its end. -/
def attribute? (g : Grammar) : Reader Bool := do
  match ← lexeme with
  | .sign "\x7b" =>
    advance
    sign "..."
    (g.withIn true).value
    sign "\x7d"
    return true
  | .word _ _ =>
    let _ ← markupWord
    if ← sign? ":" then
      let _ ← markupWord
    if ← atSign "=" then attributeValue g
    return true
  | _ => return false

/-- Text up to a brace or a tag; an end of either stands in no text. -/
def childText? : List Char → Option (List Char)
  | [] => none
  | c :: r =>
    if c == '{' || c == '<' then some (c :: r) else if c == '}' || c == '>' then none else childText? r

/-- A child of an element: text with a brace or an element after it, up to the last sign of that. It answers whether
there was one, and after the slash of the closing tag that there was none. -/
def child? (g : Grammar) : Reader Bool := do
  match childText? (← get).after with
  | some ('{' :: r) =>
    moveTo r
    if ← atSign "\x7d" then return true
    let _ ← sign? "..."
    (g.withIn true).expression
    require (← atSign "\x7d")
    return true
  | some (c :: r) =>
    modify fun s => { s with start := c :: r, lexeme := .sign "<", after := r }
    if (← next).1 == .sign "/" then
      advance
      advance
      return false
    let _ ← g.read .element
    return true
  | _ => failure

/-- What follows the first tag of an element: its children and its closing tag. -/
def childrenOf (g : Grammar) (name : List String) : Reader Unit := do
  loop (child? g) g.limit
  let closing ← if ← atSign ">" then pure [] else elementName g.limit
  require (closing == name)

/-- An element or a fragment, up to its last sign. -/
def element (g : Grammar) : Reader Shape := do
  sign "<"
  if ← atSign ">" then childrenOf g []
  else
    let name ← elementName g.limit
    loop (attribute? g) g.limit
    unless ← sign? "/" do
      require (← atSign ">")
      childrenOf g name
  require (← atSign ">")
  return {}

end LivePreview.Jsx
