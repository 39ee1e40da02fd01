import LivePreview.Proofs.Pattern.Finds
import LivePreview.Proofs.Source.Line

/-! Patterns that match whole lines.

Such a pattern begins at the start of a line and ends behind a line break or at the end of the text. What its removal
leaves are lines of the text: no line changes, so what holds of a line that stays held of it before. -/
namespace LivePreview.Source
open Pattern

/-- A line starts behind this character. -/
def AtLine (prev : Option Char) : Prop := prev = none ∨ prev = some '\n'

instance (prev : Option Char) : Decidable (AtLine prev) := inferInstanceAs (Decidable (_ ∨ _))

/-- Every match starts where a line does. -/
def StartsLine (p : Pattern) : Prop := ∀ c d, p.Reads c d → AtLine c.prev

/-- Every match ends where a line does. -/
def StopsLine (p : Pattern) : Prop := ∀ c d, p.Reads c d → d.prev = some '\n' ∨ d.rest = []

/-- Every match is made of whole lines. -/
structure WholeLines (p : Pattern) : Prop where
  starts : StartsLine p
  stops : StopsLine p

variable {p q : Pattern} {c d : Cursor} {prev : Option Char} {rest s l r : List Char} {f : Match → List Char}

/-! ### Parts of patterns -/

theorem lineStart_holds : Edge.lineStart.holds prev rest = true ↔ AtLine prev := by
  cases prev <;> simp [Edge.holds, AtLine]

theorem startsLine_left (h : StartsLine p) (q : Pattern) : StartsLine (p ++ q) := by
  rintro c d (_ | _ | _ | _ | ⟨hp, -⟩)
  exact h _ _ hp

theorem startsLine_lineHead : StartsLine lineHead := startsLine_left (fun c d h => by
  cases h with
  | «at» he => exact lineStart_holds.1 he) _

theorem stopsLine_right (p : Pattern) (h : StopsLine q) : StopsLine (p ++ q) := by
  rintro c d (_ | _ | _ | _ | ⟨-, hq⟩)
  exact h _ _ hq

theorem stopsLine_lineEnd : StopsLine lineEnd := by
  intro c d h
  cases h with
  | left h =>
    cases h with
    | seq _ h =>
      cases h with
      | seq hline hnil =>
        cases hnil
        cases hline with
        | one hx => exact .inl (congrArg some (beq_iff_eq.1 hx))
  | right h =>
    cases h with
    | «at» he => exact .inr (List.isEmpty_iff.1 he)

theorem stopsLine_statementEnd : StopsLine statementEnd := stopsLine_right _ stopsLine_lineEnd

theorem wholeLines_statement (h : StartsLine p) : WholeLines (p ++ statementEnd) :=
  ⟨startsLine_left h _, stopsLine_right _ stopsLine_statementEnd⟩

theorem wholeLines_namedImport : WholeLines namedImport := wholeLines_statement (by
  repeat' first | exact startsLine_lineHead | apply startsLine_left)

/-- The text from the start of each line on, where a text goes on behind `prev`. -/
def startsFrom (prev : Option Char) (s : List Char) : List (List Char) :=
  if AtLine prev then lineStarts s else laterLines s

theorem startsFrom_cons (prev : Option Char) (x : Char) (s : List Char) :
    startsFrom prev (x :: s) = (if AtLine prev then [x :: s] else []) ++ startsFrom (some x) s := by
  have hlater : laterLines (x :: s) = startsFrom (some x) s := by
    by_cases hx : x = '\n' <;> simp [laterLines, startsFrom, lineStarts, AtLine, hx]
  rw [← hlater, startsFrom]
  split <;> rfl

theorem replaceFrom_empty (p : Pattern) (f : Match → List Char) (prev : Option Char) : p.replaceFrom f prev [] = [] :=
  replaceFrom_nil fun ⟨_, h⟩ => absurd h.2 (Nat.not_lt_zero _)

end LivePreview.Source
