import LivePreview.Proofs.Source.Reading

/-! Two texts read side by side.

Two readings agree when they are at the same point of the same markup and nothing ahead tells them apart. What both
read next keeps them so. So does code that only one of them reads, or that each reads its own of, when it opens no
tag, ends in the mode in which it began and leaves the same operands behind. -/
namespace LivePreview.Source.Reading

variable {σ τ : Reading} {s t rest old new : List Char}

/-! ### Readings that agree -/

/-- Whether each `<` ahead can open an element behind the one text just when it can behind the other. -/
def SameOperands (before before' : List Char) : List Char → Prop
  | [] => True
  | c :: rest =>
    (c = '<' → operandNext before = operandNext before') ∧ SameOperands (c :: before) (c :: before') rest

def decideSameOperands (before before' : List Char) : (rest : List Char) → Decidable (SameOperands before before' rest)
  | [] => .isTrue True.intro
  | c :: rest =>
    have := decideSameOperands (c :: before) (c :: before') rest
    inferInstanceAs (Decidable ((c = '<' → operandNext before = operandNext before') ∧ _))

instance (before before' rest : List Char) : Decidable (SameOperands before before' rest) :=
  decideSameOperands before before' rest

theorem SameOperands.refl (before rest : List Char) : SameOperands before before rest := by
  induction rest generalizing before with
  | nil => exact True.intro
  | cons c rest ih => exact ⟨fun _ => rfl, ih (c :: before)⟩

/-- Both readings are in the same modes, with the same begun, and what follows tells them not apart. -/
def Meets (σ τ : Reading) (rest : List Char) : Prop :=
  σ.modes = τ.modes ∧ σ.token = τ.token ∧ SameOperands σ.before τ.before rest

instance : Decidable (σ.Meets τ rest) := inferInstanceAs (Decidable (_ ∧ _))

/-- Both readings meet, with the same markup so far. -/
structure Agrees (σ τ : Reading) (rest : List Char) : Prop where
  meets : σ.Meets τ rest
  text : σ.text = τ.text
  done : σ.done = τ.done

theorem Agrees.refl (σ : Reading) (rest : List Char) : Agrees σ σ rest :=
  ⟨⟨rfl, rfl, .refl _ _⟩, rfl, rfl⟩

theorem begin_of_ne {operand operand' : Bool} {mode : Mode} {below : List Mode} {c : Char} (hc : c ≠ '<') :
    begin operand mode below c = begin operand' mode below c := by
  cases mode <;> simp [begin, hc]

theorem advance_of_ne {operand operand' : Bool} {modes : List Mode} {token : Token} {c : Char} (hc : c ≠ '<') :
    advance operand modes token c = advance operand' modes token c := by
  have hbegin (mode : Mode) (below : List Mode) : begin operand mode below c = begin operand' mode below c :=
    begin_of_ne hc
  cases modes <;> cases token <;> simp [advance, hbegin]

theorem Agrees.next {c : Char} (h : Agrees σ τ (c :: rest)) : Agrees (σ.next c) (τ.next c) rest := by
  obtain ⟨⟨hmodes, htoken, hoperand, hrest⟩, htext, hdone⟩ := h
  have hadvance :
      advance (operandNext σ.before) σ.modes σ.token c = advance (operandNext τ.before) τ.modes τ.token c := by
    rw [hmodes, htoken]
    by_cases hc : c = '<'
    · rw [hoperand hc]
    · exact advance_of_ne hc
  obtain ⟨modes, token, before, text, done⟩ := σ
  obtain ⟨modes', token', before', text', done'⟩ := τ
  subst hmodes htoken htext hdone
  dsimp only at hadvance hrest
  unfold Reading.next
  dsimp only
  rw [hadvance]
  split
  · split <;> exact ⟨⟨rfl, rfl, hrest⟩, rfl, rfl⟩
  · split <;> exact ⟨⟨rfl, rfl, hrest⟩, rfl, rfl⟩
  · exact ⟨⟨rfl, rfl, hrest⟩, rfl, rfl⟩

theorem Agrees.read (h : Agrees σ τ (s ++ rest)) : Agrees (σ.read s) (τ.read s) rest := by
  induction s generalizing σ τ with
  | nil => exact h
  | cons c s ih => exact ih h.next

theorem Agrees.markup (h : Agrees σ τ rest) : σ.markup = τ.markup := by
  obtain ⟨⟨hmodes, htoken, -⟩, htext, hdone⟩ := h
  rw [Reading.markup, Reading.markup, hmodes, htoken, htext, hdone]

/-! ### Code -/

/-- The lexer is in code, perhaps in a string or a comment of it. -/
def InCode (σ : Reading) : Prop := σ.modes.head?.any Mode.isCode = true

instance : Decidable σ.InCode := inferInstanceAs (Decidable (_ = true))

/-- The lexer is in code from here to the end of the text. -/
def StaysInCode (σ : Reading) : List Char → Prop
  | [] => σ.InCode
  | c :: s => σ.InCode ∧ (σ.next c).StaysInCode s

def decideStaysInCode (σ : Reading) : (s : List Char) → Decidable (σ.StaysInCode s)
  | [] => inferInstanceAs (Decidable σ.InCode)
  | c :: s =>
    have := decideStaysInCode (σ.next c) s
    inferInstanceAs (Decidable (σ.InCode ∧ _))

instance : Decidable (σ.StaysInCode s) := decideStaysInCode σ s

theorem inCode_iff : σ.InCode ↔ ∃ braces below, σ.modes = .code braces :: below := by
  unfold InCode
  rcases σ.modes with - | ⟨mode, below⟩
  · simp
  · cases mode <;> simp [Mode.isCode]

/-- Code adds nothing to the markup. -/
theorem InCode.next (h : σ.InCode) (c : Char) : (σ.next c).text = σ.text ∧ (σ.next c).done = σ.done := by
  obtain ⟨braces, below, hmodes⟩ := inCode_iff.1 h
  unfold Reading.next
  simp [hmodes]

theorem StaysInCode.read (h : σ.StaysInCode s) : (σ.read s).text = σ.text ∧ (σ.read s).done = σ.done := by
  induction s generalizing σ with
  | nil => exact ⟨rfl, rfl⟩
  | cons c s ih =>
    obtain ⟨htext, hdone⟩ := ih h.2
    obtain ⟨htext', hdone'⟩ := h.1.next c
    exact ⟨htext.trans htext', hdone.trans hdone'⟩

/-- One reading reads `old` and the other `new`, both all code, and meet behind it. -/
def CodeForCode (σ τ : Reading) (old new rest : List Char) : Prop :=
  σ.StaysInCode old ∧ τ.StaysInCode new ∧ (σ.read old).Meets (τ.read new) rest

instance : Decidable (CodeForCode σ τ old new rest) := inferInstanceAs (Decidable (_ ∧ _))

/-- **Code for code keeps readings in agreement.** -/
theorem Agrees.replace {ahead : List Char} (h : Agrees σ τ ahead) (hcode : CodeForCode σ τ old new rest) :
    Agrees (σ.read old) (τ.read new) rest := by
  obtain ⟨hold, hnew, hmeets⟩ := hcode
  obtain ⟨htext, hdone⟩ := hold.read
  obtain ⟨htext', hdone'⟩ := hnew.read
  exact ⟨hmeets, by rw [htext, htext', h.text], by rw [hdone, hdone', h.done]⟩

/-- The lexer is outside of code from here to the end of the text. -/
def StaysOutside (σ : Reading) : List Char → Prop
  | [] => ¬ σ.InCode
  | c :: s => ¬ σ.InCode ∧ (σ.next c).StaysOutside s

theorem StaysOutside.of_append (h : σ.StaysOutside (s ++ t)) : ¬ (σ.read s).InCode := by
  induction s generalizing σ with
  | nil => cases t with
    | nil => exact h
    | cons c t => exact h.1
  | cons c s ih => exact ih h.2

theorem StaysInCode.of_append (h : σ.StaysInCode (s ++ t)) : (σ.read s).InCode := by
  induction s generalizing σ with
  | nil => cases t with
    | nil => exact h
    | cons c t => exact h.1
  | cons c s ih => exact ih h.2

theorem StaysOutside.read (h : σ.StaysOutside s) : ¬ (σ.read s).InCode := by
  rw [← List.append_nil s] at h
  exact h.of_append

theorem StaysOutside.not_inCode (h : σ.StaysOutside s) : ¬ σ.InCode := h.of_append (s := [])

theorem StaysInCode.inCode (h : σ.StaysInCode s) : σ.InCode := h.of_append (s := [])

theorem Agrees.inCode {rest : List Char} (h : Agrees σ τ rest) : σ.InCode ↔ τ.InCode := by
  rw [InCode, InCode, h.meets.1]

theorem Agrees.staysOutside (h : Agrees σ τ (s ++ t)) (hs : τ.StaysOutside s) : σ.StaysOutside s := by
  induction s generalizing σ τ with
  | nil => exact fun hc => hs (h.inCode.1 hc)
  | cons c s ih => exact ⟨fun hc => hs.1 (h.inCode.1 hc), ih h.next hs.2⟩

end LivePreview.Source.Reading
