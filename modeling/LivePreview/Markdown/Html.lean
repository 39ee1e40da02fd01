import LivePreview.Markdown.Line

/-! Lines that start a block of markup tags, which hides fences up to its end. -/
namespace LivePreview.Markdown

def isLetterOrDigit (c : Char) : Bool := Text.isLatin c || Text.isDigit c

/-- The text that ends a block, for a line that starts with a tag, comment or declaration of its own kind; the
line is read after its angle bracket. -/
def closingText? (s : List Char) : Option (List Char) :=
  let named (name : String) : Bool :=
    let head := s.take name.length
    let after := s.drop name.length
    Text.lower head == name.toList && (after.head?.all fun c => isPlainSpace c || c == '>')
  if named "pre" then some "</pre>".toList
  else if named "style" then some "</style>".toList
  else if named "script" then some "</script>".toList
  else if named "textarea" then some "</textarea>".toList
  else if "!--".toList.isPrefixOf s then some "-->".toList
  else if "?".toList.isPrefixOf s then some "?>".toList
  else if "![CDATA[".toList.isPrefixOf s then some "]]>".toList
  else
    match s with
    | '!' :: c :: _ => if Text.isLatin c then some ">".toList else none
    | _ => none

/-- Names of elements that start a block wherever they stand. -/
def blockNames : List String :=
  ["address", "article", "aside", "base", "basefont", "blockquote", "body", "caption", "center", "col", "colgroup",
    "dd", "details", "dialog", "dir", "div", "dl", "dt", "fieldset", "figcaption", "figure", "footer", "form",
    "frame", "frameset", "h1", "h2", "h3", "h4", "h5", "h6", "head", "header", "hr", "html", "iframe", "legend",
    "li", "link", "main", "menu", "menuitem", "nav", "noframes", "ol", "optgroup", "option", "p", "param", "search",
    "section", "summary", "table", "tbody", "td", "tfoot", "th", "thead", "title", "tr", "track", "ul"]

/-- Whether a line starts with a tag of one of these elements; it is read after its angle bracket. -/
def startsBlockTag (s : List Char) : Bool :=
  let s := match s with
    | '/' :: r => r
    | s => s
  let name := s.takeWhile isLetterOrDigit
  let after := s.dropWhile isLetterOrDigit
  blockNames.contains (String.ofList (Text.lower name)) &&
    (after.head?.all (fun c => isPlainSpace c || c == '>') || "/>".toList.isPrefixOf after)

/-! ### A line with one whole tag -/

/-- The text after the name of an attribute. -/
def attributeName? : List Char → Option (List Char)
  | c :: r =>
    if Text.isLatin c || c == '_' || c == ':' then
      some (r.dropWhile fun c => isLetterOrDigit c || c == '_' || c == '.' || c == ':' || c == '-')
    else none
  | [] => none

/-- The text after a quoted value, read after its quote; a value stays on its line. -/
def quotedValue? (quote : Char) : List Char → Option (List Char)
  | [] => none
  | c :: r => if c == quote then some r else if c == '\n' || c == '\r' then none else quotedValue? quote r

/-- The text after the value of an attribute. -/
def attributeValue? (s : List Char) : Option (List Char) :=
  match s with
  | '"' :: r => quotedValue? '"' r
  | '\'' :: r => quotedValue? '\'' r
  | c :: _ =>
    if " =><`\n\r".toList.contains c then none
    else some (s.dropWhile fun c => !("\t\n\x0c\r \"'=><`".toList.contains c))
  | [] => none

/-- The text after an attribute. White space around its equals sign stays on the line. -/
def attribute? (s : List Char) : Option (List Char) := do
  let after ← attributeName? s
  let next := after.dropWhile isLineSpace
  if isLineEnd next then none
  else
    match next with
    | '=' :: r =>
      let value := r.dropWhile isLineSpace
      if isLineEnd value then none else attributeValue? value
    | _ => some after

/-- The text after the attributes of a tag, at most `fuel` of them. -/
def attributes? : Nat → List Char → Option (List Char)
  | 0, _ => none
  | fuel + 1, s =>
    let next := s.dropWhile isLineSpace
    if isLineEnd next then none
    else if next.head? == some '/' || next.head? == some '>' then some next
    else if next.length == s.length then none
    else (attribute? next).bind (attributes? fuel)

/-- Whether a line is one whole tag with nothing after it; it is read after its angle bracket. -/
def isWholeTag (s : List Char) : Bool :=
  let (closes, s) := match s with
    | '/' :: r => (true, r)
    | s => (false, s)
  match s with
  | c :: r =>
    if !Text.isLatin c then false
    else
      let s := r.dropWhile fun c => isLetterOrDigit c || c == '-'
      let inner? := if closes then some s else attributes? (s.length + 1) s
      match inner? with
      | none => false
      | some s =>
        let s := s.dropWhile isLineSpace
        let s := match closes, s with
          | false, '/' :: r => r
          | _, s => s
        match s with
        | '>' :: r => (blankLine? r).isSome
        | _ => false
  | [] => false

end LivePreview.Markdown
