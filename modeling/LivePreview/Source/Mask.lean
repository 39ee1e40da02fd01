import LivePreview.Source.Literal

/-! Rewriting code while its literals are hidden.

The content of each literal is replaced by a placeholder: two private-use characters with the literal's number
between them, and its line breaks, so that patterns which stop at a line end still do. A rewrite of the masked
text keeps the literals it keeps the placeholders of, whatever they hold. -/
namespace LivePreview.Source

/-- The character a placeholder starts with. -/
def hideOpen : Char := '\uE000'

/-- The character a placeholder ends with. -/
def hideClose : Char := '\uE001'

def isHideMark (c : Char) : Bool := c == hideOpen || c == hideClose

/-- The placeholder of the literal with number `i`. -/
def placeholder (i : Nat) (literal : List Char) : List Char :=
  hideOpen :: (toString i).toList ++ literal.filter (· == '\n') ++ [hideClose]

/-- A text with placeholders and what they stand for. -/
structure Masked where
  text : List Char
  hidden : Array (List Char)

/-- Hides the spans, which are in order, in `rest`, which begins at `pos`; `i` literals are hidden already. -/
def hideFrom (i pos : Nat) (rest : List Char) : List Span → List Char × List (List Char)
  | [] => (rest, [])
  | t :: spans =>
    let kept := rest.take (t.start - pos)
    let literal := (rest.drop (t.start - pos)).take (t.stop - t.start)
    let (text, hidden) := hideFrom (i + 1) t.stop (rest.drop (t.stop - pos)) spans
    (kept ++ placeholder i literal ++ text, literal :: hidden)

/-- The text with its literals hidden. -/
def mask (s : List Char) : Masked :=
  let (text, hidden) := hideFrom 0 0 s (literalSpans s)
  ⟨text, hidden.toArray⟩

/-- The number a placeholder holds, read between its two marks. -/
def placeholderIndex? (inner : List Char) : Option Nat :=
  let digits := (inner.reverse.dropWhile (· == '\n')).reverse
  if digits.isEmpty || !digits.all Text.isDigit then none
  else some (digits.foldl (fun n c => n * 10 + (c.toNat - '0'.toNat)) 0)

/-- The text with the literals back in the place of their placeholders. A placeholder without a number of a
literal stays as it is. -/
def restore (hidden : Array (List Char)) : List Char → List Char
  | [] => []
  | c :: r =>
    if c == hideOpen then
      let inner := r.takeWhile (· != hideClose)
      let rest := r.dropWhile (· != hideClose)
      if rest.isEmpty then c :: r
      else
        (((placeholderIndex? inner).bind (hidden[·]?)).getD (c :: inner ++ [hideClose])) ++
          restore hidden (r.drop (inner.length + 1))
    else c :: restore hidden r
termination_by s => s.length
decreasing_by all_goals simp only [List.length_cons, List.length_drop]; omega

/-- Rewrites the code of a text and leaves its literals as they are. A text that holds a character of the
placeholders is rewritten as it stands. -/
def outsideLiterals (rewrite : List Char → List Char) (s : List Char) : List Char :=
  if s.any isHideMark then rewrite s
  else
    let m := mask s
    restore m.hidden (rewrite m.text)

end LivePreview.Source
