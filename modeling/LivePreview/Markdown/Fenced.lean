import LivePreview.Markdown.Html

/-! The fenced blocks of a markdown text.

The text is read line by line, with the containers that are open. What is not a fenced block matters only for
where it ends: a paragraph goes on over lines that start nothing new, even outside its containers, and a block of
tags hides everything up to its end. -/
namespace LivePreview.Markdown

/-- A fenced block: the text after its opening fence, as written, and its body. -/
structure Fenced where
  info : List Char
  body : List Char
deriving DecidableEq, Repr

/-- What a reader reports on its way through a text, as far as code goes. -/
inductive Event where
  /-- A fenced block begins, with its info text. -/
  | fenced (info : List Char)
  | text (s : List Char)
  /-- A block of code ends, fenced or indented. -/
  | endCode
  | other
deriving DecidableEq, Repr

/-! ### Fences -/

/-- The length and the character of the fence that a line starts with. A fence of backticks has none of them
after it on its line. -/
def fence? (s : List Char) : Option (Nat × Char) :=
  match s with
  | c :: _ =>
    let n := (s.takeWhile (· == c)).length
    if (c == '`' || c == '~') && 3 ≤ n then
      if c == '`' && (rawLine (s.drop n)).1.contains '`' then none else some (n, c)
    else none
  | [] => none

/-- The text after a closing fence, with nothing but spaces after it on its line. The end of the text closes
every fence. -/
def closingFence? (c : Char) (n : Nat) (s : List Char) : Option (List Char) :=
  if s.isEmpty then some []
  else
    let marks := s.takeWhile (· == c)
    if marks.length < n then none else lineEnd? ((s.drop marks.length).dropWhile (· == ' '))

/-- A line of a body, with a plain line feed at its end. -/
def bodyLine (s : List Char) : List Char :=
  match s.reverse with
  | last :: '\r' :: r => if last.toNat < 0x80 then (last :: r).reverse else s
  | _ => s

/-- The body of a fenced block up to the end of its containers or to its closing fence, and the text after it; at
most `fuel` lines. -/
def fencedBody (containers : List Container) (indent : Nat) (c : Char) (n : Nat) :
    Nat → List Char → List Char × List Char
  | 0, s => ([], s)
  | fuel + 1, s =>
    let (kept, l) := goOn ⟨s, 0, 0⟩ containers
    if kept.length < containers.length then ([], s)
    else
      let (_, l) := l.take indent
      let (few, closing) := l.take (4 - indent)
      let closed? := if few == 0 then none else closingFence? c n closing.rest
      match closed? with
      | some after => ([], after)
      | none =>
        let (line, after) := rawLine l.rest
        let (body, rest) := fencedBody containers indent c n fuel after
        (List.replicate l.owed ' ' ++ bodyLine line ++ body, rest)

/-! ### Paragraphs -/

/-- A line of equals signs or of hyphens, which makes a heading of the paragraph before it: the text after it. -/
def underline? (s : List Char) : Option (List Char) :=
  match s with
  | '=' :: r => blankLine? (r.dropWhile (· == '='))
  | '-' :: r => blankLine? (r.dropWhile (· == '-'))
  | _ => none

/-- Whether a line starts with the mark of a heading. -/
def isHeading (s : List Char) : Bool :=
  let level := (s.takeWhile (· == '#')).length
  1 ≤ level && level ≤ 6 && ((s.drop level).head?.all isPlainSpace)

/-- Whether a line starts with the mark of a list item that may end a paragraph: within the same containers it
must be unordered or the first of its list, and not be followed by two empty lines. -/
def itemInterrupts (sameContainer : Bool) (s : List Char) : Bool :=
  let after? : Option (Bool × List Char) := match s with
    | c :: r =>
      if c == '-' || c == '+' || c == '*' then some (true, r)
      else
        match ordinal? s with
        | some (n, r) => some ((s.take n).dropWhile (· == '0') == ['1'], r)
        | none => none
    | [] => none
  match after? with
  | none => false
  | some (first, r) =>
    let spaced := r.head?.all (fun c => Text.isBlank c || c == '\n' || c == '\r')
    let empty := ((blankLine? r).bind blankLine?).isSome
    spaced && (!sameContainer || (first && !empty))

/-- Whether a line ends the paragraph before it. -/
def interrupts (sameContainer : Bool) (s : List Char) : Bool :=
  isLineEnd s || isRule s || isHeading s || (fence? s).isSome || s.head? == some '>' ||
    itemInterrupts sameContainer s ||
    match s with
    | '<' :: r => (closingText? r).isSome || startsBlockTag r
    | _ => false

/-- The text after a paragraph, read from within its first line; at most `fuel` lines. -/
def afterParagraph (containers : List Container) : Nat → List Char → List Char
  | 0, s => s
  | fuel + 1, s =>
    let s := nextLine s
    let (kept, l) := goOn ⟨s, 0, 0⟩ containers
    let same := kept.length == containers.length
    let (few, inner) := l.take 4
    let heading? := if few != 0 && same then underline? inner.rest else none
    match heading? with
    | some after => after
    | none =>
      if few != 0 && interrupts same inner.rest then s
      else
        let rest := inner.skip
        if isLineEnd rest then s else afterParagraph containers fuel rest

/-! ### Blocks of tags -/

/-- The text after a block of tags, read from within one of its lines; at most `fuel` lines. A block with a text
that ends it goes on to the line that has it, every other one to a blank line. -/
def afterTags (containers : List Container) (closing? : Option (List Char)) : Nat → List Char → List Char
  | 0, s => s
  | fuel + 1, s =>
    let (line, after) := rawLine s
    let (kept, l) := goOn ⟨after, 0, 0⟩ containers
    if kept.length < containers.length then after
    else
      match closing? with
      | some closing =>
        if Text.contains closing line || l.rest.isEmpty then after else afterTags containers closing? fuel l.rest
      | none => if (blankLine? l.rest).isSome then after else afterTags containers closing? fuel l.rest

/-- Whether a line starts a block of tags; the text that ends it is there if it has one of its own. -/
def tags? (s : List Char) : Option (Option (List Char)) :=
  match s with
  | '<' :: r =>
    match closingText? r with
    | some closing => some (some closing)
    | none => if startsBlockTag r || isWholeTag r then some none else none
  | _ => none

/-! ### Blocks -/

/-- The open containers after a line with text. -/
def afterText (containers : List Container) : List Container :=
  containers.map fun c => match c with
    | .item column .begun => .item column .running
    | c => c

/-- Opens the containers whose marks a line starts with, at most `fuel` of them, within those that are open. The
last part is the line after them; none when an item has nothing after its mark, where the text after the line is
given instead. -/
def openContainers : Nat → List Container → Lead → List Container × (Lead ⊕ List Char)
  | 0, containers, l => (containers, .inl l)
  | fuel + 1, containers, l =>
    let (few, inner) := l.take 4
    if few == 0 then (containers, .inl l)
    else
      match itemMark? (4 - few) inner with
      | some (column, text) =>
        match blankLine? text.rest with
        | some after => (afterText containers ++ [.item column .begun], .inr after)
        | none => openContainers fuel (afterText containers ++ [.item column .running]) text
      | none =>
        match inner.quote? with
        | some text => openContainers fuel (afterText containers ++ [.quote]) text
        | none => (containers, .inl l)

/-- The open containers after a blank line: an item that had nothing yet is closed. -/
def afterBlank (containers : List Container) : List Container :=
  match containers.reverse with
  | .item column .begun :: r => (Container.item column .closed :: r).reverse
  | _ => containers

/-- Reads one block from the start of a line: the containers open after it, the text after it, and the block if
it is a fenced one. -/
def block (containers : List Container) (s : List Char) : List Container × List Char × Option Fenced :=
  let fuel := s.length + 1
  let (kept, l) := goOn ⟨s, 0, 0⟩ containers
  match openContainers fuel kept l with
  | (containers, .inr after) => (containers, after, none)
  | (containers, .inl l) =>
    match blankLine? l.rest with
    | some after => (afterBlank containers, after, none)
    | none =>
      let containers := afterText containers
      let (few, inner) := l.take 4
      if few == 0 then (containers, (rawLine inner.rest).2, none)
      else
        let s := inner.rest
        match tags? s with
        | some closing? => (containers, afterTags containers closing? fuel s, none)
        | none =>
          if isRule s || isHeading s then (containers, nextLine s, none)
          else
            match fence? s with
            | some (n, c) =>
              let (line, after) := rawLine ((s.drop n).dropWhile isLineSpace)
              let info := (line.reverse.dropWhile isPlainSpace).reverse
              let (body, rest) := fencedBody containers (4 - few) c n fuel after
              (containers, rest, some ⟨info, body⟩)
            | none => (containers, afterParagraph containers fuel s, none)

/-- The fenced blocks of a text within open containers, in at most `fuel` blocks of any kind. -/
def fencedFrom (containers : List Container) : Nat → List Char → List Fenced
  | 0, _ => []
  | fuel + 1, s =>
    if s.isEmpty then []
    else
      let (containers, rest, found?) := block containers s
      found?.toList ++ fencedFrom containers fuel rest

/-- The fenced blocks of a text, in order. -/
def fencedBlocks (s : List Char) : List Fenced := fencedFrom [] (s.length + 1) s

end LivePreview.Markdown
