import LivePreview.Proofs.Source.Track

/-! The lines of a text that begin an import.

Whether a line begins with the word `import` is read one character at a time. White space does not count before the
word, and neither do the words that rewriting may take off the start of a line. No cut makes a line begin an import
when what is cut out ends a word (`Breaks`) and what is kept behind it does so, too (`Halts`). -/
namespace LivePreview.Source

/-! ### Reading a line -/

def importWord : List Char := "import".toList

/-- The words that rewriting may take off the start of a line. -/
def peeledWords : List (List Char) := ["export".toList, "default".toList, "as".toList, "const".toList]

/-- What has been read of a line. -/
inductive Spot where
  /-- White space, words that may be taken off, and the word that is being read. -/
  | lead (word : List Char)
  /-- The word `import` and blanks behind it. -/
  | pending
  /-- Something else. -/
  | inside
deriving DecidableEq

namespace Spot

/-- The line begins an import, unless it is a call or an access. -/
def due : Spot → Bool
  | lead w => w == importWord
  | pending => true
  | inside => false

/-- The character shows that the line begins an import. -/
def settles : Spot → Char → Bool
  | lead w, c => w == importWord && !Text.isWord c && !Text.isBlank c && c != '(' && c != '.'
  | pending, c => !Text.isBlank c && c != '(' && c != '.'
  | inside, _ => false

def next : Spot → Char → Spot
  | lead w, c =>
    if Text.isWord c then lead (w ++ [c])
    else if c == '\n' then lead []
    else if w == importWord then if Text.isBlank c then pending else inside
    else if Text.isSpace c && (w.isEmpty || peeledWords.contains w) then lead []
    else inside
  | pending, c => if c == '\n' then lead [] else if Text.isBlank c then pending else inside
  | inside, c => if c == '\n' then lead [] else inside

/-- The number of lines that begin an import, from here on. -/
def imports (σ : Spot) : List Char → Nat
  | [] => σ.due.toNat
  | c :: r => (σ.settles c).toNat + (σ.next c).imports r

variable {σ : Spot} {c : Char} {a q s w : List Char}

/-! ### Words -/

theorem ne_newline_of_mem_importWord {c : Char} (hc : c ∈ importWord) : c ≠ '\n' := by
  rintro rfl
  exact absurd hc (by decide)

@[simp] theorem importWord_ne_nil : importWord ≠ [] := by decide

end Spot

/-- The texts behind the line breaks of a text. -/
def laterLines : List Char → List (List Char)
  | [] => []
  | c :: r => if c == '\n' then r :: laterLines r else laterLines r

/-- The text from the start of each line on. -/
def lineStarts (s : List Char) : List (List Char) := s :: laterLines s

variable {σ : Spot} {s t : List Char}

theorem laterLines_append (s t : List Char) : laterLines (s ++ t) = (laterLines s).map (· ++ t) ++ laterLines t := by
  induction s with
  | nil => rfl
  | cons c s ih =>
    rw [List.cons_append, laterLines, laterLines]
    split <;> simp [ih]

theorem laterLines_of_line (hs : ∀ c ∈ s, c ≠ '\n') : laterLines s = [] := by
  induction s with
  | nil => rfl
  | cons c s ih =>
    have hc : (c == '\n') = false := beq_false_of_ne (hs c List.mem_cons_self)
    rw [laterLines, hc]
    exact ih fun x hx => hs x (List.mem_cons_of_mem c hx)

end LivePreview.Source
