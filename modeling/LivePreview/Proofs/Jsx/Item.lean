import LivePreview.Jsx.Program

/-! What the items of a module declare. -/
namespace LivePreview.Jsx
open Reader

variable {α β : Type} {c d e : Cursor} {g : Grammar}

/-! ### Running readers -/

/-- The place at the next token. -/
def Cursor.follow (c : Cursor) : Cursor := c.moveTo c.after

namespace Reader

theorem run_bind {r : Reader α} {f : α → Reader β} {b : β} (h : (r >>= f).run c = some (b, d)) :
    ∃ a e, r.run c = some (a, e) ∧ (f a).run e = some (b, d) := by
  cases hr : r.run c with
  | none => simp [StateT.run_bind, hr] at h
  | some p => exact ⟨p.1, p.2, rfl, by simpa [StateT.run_bind, hr] using h⟩

@[simp] theorem run_lexeme : lexeme.run c = some (c.lexeme, c) := by
  rfl

@[simp] theorem run_advance : advance.run c = some ((), c.follow) := by
  rfl

@[simp] theorem run_atSign (s : String) : (atSign s).run c = some (c.lexeme == .sign s, c) := by
  rfl

@[simp] theorem run_atWord (w : String) : (atWord w).run c = some (c.lexeme == .word w false, c) := by
  rfl

@[simp] theorem run_next : next.run c = some ((c.follow.lexeme, c.follow.newline), c) := by
  rfl

@[simp] theorem run_require (ok : Bool) : (require ok).run c = if ok then some ((), c) else none := by
  cases ok <;> rfl

@[simp] theorem run_sign? (s : String) :
    (sign? s).run c = some (if c.lexeme == .sign s then (true, c.follow) else (false, c)) := by
  unfold sign?
  cases h : c.lexeme == .sign s <;> simp [StateT.run_bind, h]

@[simp] theorem run_word? (w : String) :
    (word? w).run c = some (if c.lexeme == .word w false then (true, c.follow) else (false, c)) := by
  unfold word?
  cases h : c.lexeme == .word w false <;> simp [StateT.run_bind, h]

end Reader

@[simp] theorem word_beq (s t : String) (a b : Bool) : (Lexeme.word s a == .word t b) = (s == t && a == b) := by
  rfl

@[simp] theorem word_beq_sign (s t : String) (a : Bool) : (Lexeme.word s a == .sign t) = false := by
  rfl

@[simp] theorem sign_beq (s t : String) : (Lexeme.sign s == .sign t) = (s == t) := by
  rfl

/-! ### Names -/

theorem run_name {n : String} {b : Bool} (hc : c.lexeme = .word n b) :
    g.name.run c = if g.isVariable (.word n b) then some (n, c.follow) else none := by
  cases h : g.isVariable (.word n b) <;> simp [Grammar.name, StateT.run_bind, h, anyWord, hc]

variable {n : String} {b : Bool}

@[simp] theorem run_atAsyncFunction : atAsyncFunction.run c =
    some (c.lexeme == .word "async" false && (c.follow.lexeme == .word "function" false && c.follow.newline == false),
      c) := by
  rfl

/-- The word `function` stands here, or behind an `async` that does. -/
inductive AtFunction (c : Cursor) : Cursor → Prop
  | here (hc : c.lexeme = .word "function" false) : AtFunction c c
  | async (hc : c.lexeme = .word "async" false) (hnext : c.follow.lexeme = .word "function" false)
      (hline : c.follow.newline = false) : AtFunction c c.follow

/-- A name stands behind this token, or behind a star that does. -/
inductive Names (c : Cursor) (n : String) : Prop
  | next (b : Bool) (h : c.follow.lexeme = .word n b)
  | star (b : Bool) (hstar : c.follow.lexeme = .sign "*") (h : c.follow.follow.lexeme = .word n b)

/-- An item of a module as a parser has it: the text from its beginning on, and the names that it declares at the top
level. -/
structure ModuleItem where
  rest : List Char
  names : List String

variable {inner : Grammar}

@[simp] theorem follow_exported (c : Cursor) (names : List String) :
    ({ c with exported := names } : Cursor).follow = { c.follow with exported := names } := by
  unfold Cursor.follow Cursor.moveTo
  cases skipGap .space false c.after <;> rfl

theorem AtFunction.exported (h : AtFunction c d) (names : List String) :
    AtFunction { c with exported := names } { d with exported := names } := by
  cases h with
  | here hc => exact .here hc
  | async hc hnext hline =>
    rw [← follow_exported]
    exact .async hc (by simpa using hnext) (by simpa using hline)

theorem Names.exported (h : Names c n) (names : List String) : Names { c with exported := names } n := by
  cases h with
  | next b hb => exact .next b (by simpa using hb)
  | star b hstar hb => exact .star b (by simpa using hstar) (by simpa using hb)

/-- Where a function stands, no class does. -/
theorem AtFunction.run (h : AtFunction c d) (ofClass ofFunction other : Reader α) :
    (do
      if (← atWord "class") || (← atSign "@") then ofClass
      else if (← atWord "function") || (← atAsyncFunction) then ofFunction
      else other : Reader α).run c = ofFunction.run c := by
  cases h with
  | here hc => simp [StateT.run_bind, hc]
  | async hc hnext hline => simp [StateT.run_bind, hc, hnext, hline]

variable {text : List Char}

/-- The first word of a declaration stands here, or behind the word that hands it out. -/
inductive Opens (c : Cursor) : Cursor → Prop
  | plain : Opens c c
  | exported (hc : c.lexeme = .word "export" false) : Opens c c.follow

/-- The first word of a function stands here, or behind the words that hand it out. -/
inductive OpensFunction (c : Cursor) : Cursor → Prop
  | plain {d : Cursor} (h : Opens c d) : OpensFunction c d
  | byDefault (hc : c.lexeme = .word "export" false) (hdefault : c.follow.lexeme = .word "default" false) :
    OpensFunction c c.follow.follow

end LivePreview.Jsx
