import LivePreview.Text.Word

/-! Patterns over texts.

A pattern is matched from a cursor, the place between the last character read and the rest of the text. Of
several ways to match, the first one counts: the left side of an alternative before the right one, one more
round of a greedy repetition before none, none before one more of a lazy one. The first place where a
pattern matches is taken, and the search for the next match starts where this one ended. -/
namespace LivePreview

/-- A place in a text: the character before it, what follows it, and the groups read so far. A group is
kept as what follows its first and its last place. -/
structure Cursor where
  prev : Option Char
  rest : List Char
  groups : List (Nat × List Char × List Char) := []

/-- A condition on a place that reads nothing. -/
inductive Edge where
  | textStart
  | lineStart
  | textEnd
  | wordEdge

/-- Whether the place between `prev` and `rest` is such an edge. A line starts at the start of the text and
after each newline; at a word edge exactly one side is a word character. -/
def Edge.holds (e : Edge) (prev : Option Char) (rest : List Char) : Bool :=
  match e with
  | .textStart => prev.isNone
  | .lineStart => match prev with
    | none => true
    | some c => c == '\n'
  | .textEnd => rest.isEmpty
  | .wordEdge => prev.any Text.isWord != rest.head?.any Text.isWord

inductive Pattern where
  /-- The empty text. -/
  | empty
  /-- One character of a class. -/
  | one (ok : Char → Bool)
  /-- Any number of characters of a class. -/
  | many (ok : Char → Bool) (greedy : Bool)
  /-- One pattern after another. -/
  | seq (p q : Pattern)
  /-- One pattern or, failing that, another. -/
  | alt (p q : Pattern)
  /-- Any number of rounds of a pattern, each of which reads something. -/
  | star (p : Pattern) (greedy : Bool)
  /-- An edge. -/
  | at (e : Edge)
  /-- A numbered group. -/
  | group (i : Nat) (p : Pattern)

namespace Pattern

instance : Append Pattern := ⟨.seq⟩
instance : OrOp Pattern := ⟨.alt⟩

/-- The characters of `s`, one after another. -/
def lit (s : String) : Pattern := s.toList.foldr (fun c p => .seq (.one (· == c)) p) .empty

/-- One of the texts, in this order. -/
def words : List String → Pattern
  | [] => .empty
  | [s] => lit s
  | s :: r => .alt (lit s) (words r)

/-- The pattern, or nothing. -/
def opt (p : Pattern) : Pattern := .alt p .empty

/-- One or more characters of a class. -/
def several (ok : Char → Bool) (greedy : Bool) : Pattern := .seq (.one ok) (.many ok greedy)

/-- A character that is one of those of `s`. -/
def among (s : String) (c : Char) : Bool := s.toList.contains c

/-- A character that is none of those of `s`. -/
def except (s : String) (c : Char) : Bool := !among s c

/-- White space, if any. -/
def spaces : Pattern := .many Text.isSpace true

/-- White space, at least one character. -/
def gap : Pattern := several Text.isSpace true

/-- Blanks, if any. -/
def blanks : Pattern := .many Text.isBlank true

/-- The end of a line with its line break, or the end of the text. -/
def lineEnd : Pattern := (opt (lit "\r") ++ lit "\n") ||| .at .textEnd

/-- An identifier. -/
def name : Pattern := .one Text.isNameStart ++ .many Text.isNameChar true

/-! ### Matching -/

variable {α : Type}

/-- Rounds over a class of characters, then `k`. -/
def manyRun (ok : Char → Bool) (greedy : Bool) (groups : List (Nat × List Char × List Char))
    (k : Cursor → Option α) (prev : Option Char) : List Char → Option α
  | [] => k ⟨prev, [], groups⟩
  | c :: r =>
    if greedy then
      if ok c then
        match manyRun ok greedy groups k (.some c) r with
        | .some a => .some a
        | none => k ⟨prev, c :: r, groups⟩
      else k ⟨prev, c :: r, groups⟩
    else
      match k ⟨prev, c :: r, groups⟩ with
      | .some a => .some a
      | none => if ok c then manyRun ok greedy groups k (.some c) r else none

/-- Rounds of `round`, each of which shortens the rest, then `k`. -/
def starRun (round : Cursor → (Cursor → Option α) → Option α) (greedy : Bool) (k : Cursor → Option α)
    (c : Cursor) : Option α :=
  if greedy then
    match round c fun d => if _h : d.rest.length < c.rest.length then starRun round greedy k d else none with
    | .some a => .some a
    | none => k c
  else
    match k c with
    | .some a => .some a
    | none => round c fun d => if _h : d.rest.length < c.rest.length then starRun round greedy k d else none
termination_by c.rest.length

/-- The first way to match the pattern from a cursor after which `k` succeeds. -/
def run : Pattern → Cursor → (Cursor → Option α) → Option α
  | .empty, c, k => k c
  | .one ok, c, k =>
    match c.rest with
    | [] => none
    | x :: r => if ok x then k ⟨.some x, r, c.groups⟩ else none
  | .many ok greedy, c, k => manyRun ok greedy c.groups k c.prev c.rest
  | .seq p q, c, k => p.run c fun d => q.run d k
  | .alt p q, c, k =>
    match p.run c k with
    | .some a => .some a
    | none => q.run c k
  | .star p greedy, c, k => starRun (fun d j => p.run d j) greedy k c
  | .at e, c, k => if e.holds c.prev c.rest then k c else none
  | .group i p, c, k => p.run c fun d => k ⟨d.prev, d.rest, (i, c.rest, d.rest) :: d.groups⟩

/-- The end of the first way to match from here. -/
def endFrom (p : Pattern) (prev : Option Char) (rest : List Char) : Option Cursor :=
  p.run ⟨prev, rest, []⟩ .some

end Pattern

/-- What is left of `s` before its end `stop`. -/
def Text.upTo (s stop : List Char) : List Char := s.take (s.length - stop.length)

/-- A match: how many characters stand before it, the text from its start on, and the cursor at its end. -/
structure Match where
  start : Nat
  source : List Char
  last : Cursor

namespace Match

/-- The number of characters matched. -/
def length (m : Match) : Nat := m.source.length - m.last.rest.length

/-- The number of characters before the end of the match. -/
def stop (m : Match) : Nat := m.start + m.length

/-- The text of a group, empty when it took no part in the match. -/
def group (m : Match) (i : Nat) : List Char :=
  match m.last.groups.lookup i with
  | some (s, stop) => Text.upTo s stop
  | none => []

/-- Whether a group took part in the match. -/
def hasGroup (m : Match) (i : Nat) : Bool := (m.last.groups.lookup i).isSome

end Match

namespace Pattern

/-- The first match from here on, where `pos` characters stand before `rest`. -/
def findFrom (p : Pattern) (pos : Nat) (prev : Option Char) (rest : List Char) : Option Match :=
  match p.endFrom prev rest with
  | .some c => .some ⟨pos, rest, c⟩
  | none => match rest with
    | [] => none
    | x :: r => findFrom p (pos + 1) (.some x) r

/-- The first match in a text. -/
def find? (p : Pattern) (s : List Char) : Option Match := p.findFrom 0 none s

/-- All matches from here on, none of which begins before the end of the one before it. Only matches that read
something count. -/
def findAllFrom (p : Pattern) (pos : Nat) (prev : Option Char) (rest : List Char) : List Match :=
  match p.endFrom prev rest with
  | .some c =>
    if _h : c.rest.length < rest.length then
      ⟨pos, rest, c⟩ :: findAllFrom p (pos + (rest.length - c.rest.length)) c.prev c.rest
    else match rest with
      | [] => []
      | x :: r => findAllFrom p (pos + 1) (.some x) r
  | none => match rest with
    | [] => []
    | x :: r => findAllFrom p (pos + 1) (.some x) r
termination_by rest.length

/-- All matches in a text. -/
def findAll (p : Pattern) (s : List Char) : List Match := p.findAllFrom 0 none s

/-- The text from here on with `f m` in the place of each match `m`. -/
def replaceFrom (p : Pattern) (f : Match → List Char) (prev : Option Char) (rest : List Char) : List Char :=
  match p.endFrom prev rest with
  | .some c =>
    if _h : c.rest.length < rest.length then f ⟨0, rest, c⟩ ++ replaceFrom p f c.prev c.rest
    else match rest with
      | [] => []
      | x :: r => x :: replaceFrom p f (.some x) r
  | none => match rest with
    | [] => []
    | x :: r => x :: replaceFrom p f (.some x) r
termination_by rest.length

/-- The text with `f m` in the place of each match `m`. -/
def replaceAll (p : Pattern) (f : Match → List Char) (s : List Char) : List Char := p.replaceFrom f none s

/-- The text without the matches. -/
def removeAll (p : Pattern) (s : List Char) : List Char := p.replaceAll (fun _ => []) s

/-- The text without the first match. -/
def removeFirst (p : Pattern) (s : List Char) : List Char :=
  match p.find? s with
  | .some m => s.take m.start ++ m.last.rest
  | none => s

end Pattern
end LivePreview
