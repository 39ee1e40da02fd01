import LivePreview.Proofs.Source.Alongside
import LivePreview.Proofs.Source.Mass

/-! White space and markup.

White space in code ends lines and some strings and comments, and nothing else: two line breaks and any white space
leave the same behind as any other two. White space outside of code leads back to no code. -/
namespace LivePreview.Source.Reading

variable {σ τ : Reading} {c : Char} {s rest : List Char}

/-! ### One character -/

theorem ne_of_isSpace {d : Char} (h : Text.isSpace c = true) (hd : Text.isSpace d = false) : c ≠ d := by
  rintro rfl
  rw [h] at hd
  exact nomatch hd

theorem isLatin_of_isSpace (h : Text.isSpace c = true) : Text.isLatin c = false := by
  have ha : 'a'.toNat = 97 ∧ 'z'.toNat = 122 ∧ 'A'.toNat = 65 ∧ 'Z'.toNat = 90 := by decide
  have hle (d e : Char) : (decide (d ≤ e) : Bool) = decide (d.toNat ≤ e.toNat) := rfl
  simp only [Text.isSpace, Bool.or_eq_true, Bool.and_eq_true, decide_eq_true_eq, beq_iff_eq] at h
  simp only [Text.isLatin, hle, ha, Bool.or_eq_false_iff, Bool.and_eq_false_iff, decide_eq_false_iff_not]
  omega

theorem isDigit_of_isSpace (h : Text.isSpace c = true) : Text.isDigit c = false := by
  have ha : '0'.toNat = 48 ∧ '9'.toNat = 57 := by decide
  have hle (d e : Char) : (decide (d ≤ e) : Bool) = decide (d.toNat ≤ e.toNat) := rfl
  simp only [Text.isSpace, Bool.or_eq_true, Bool.and_eq_true, decide_eq_true_eq, beq_iff_eq] at h
  simp only [Text.isDigit, hle, ha, Bool.and_eq_false_iff, decide_eq_false_iff_not]
  omega

theorem isScriptWord_of_isSpace (h : Text.isSpace c = true) : isScriptWord c = false := by
  simp [isScriptWord, Text.isPlainName, isLatin_of_isSpace h, isDigit_of_isSpace h, ne_of_isSpace (d := '_') h rfl,
    ne_of_isSpace (d := '$') h rfl]

theorem begin_space (h : Text.isSpace c = true) (operand : Bool) (mode : Mode) (below : List Mode) :
    begin operand mode below c = (mode :: below, .plain) := by
  have h₁ := ne_of_isSpace (d := '\'') h rfl
  have h₂ := ne_of_isSpace (d := '"') h rfl
  have h₃ := ne_of_isSpace (d := '`') h rfl
  have h₄ := ne_of_isSpace (d := '/') h rfl
  have h₅ := ne_of_isSpace (d := '{') h rfl
  have h₆ := ne_of_isSpace (d := '}') h rfl
  have h₇ := ne_of_isSpace (d := '<') h rfl
  have h₈ := ne_of_isSpace (d := '>') h rfl
  cases mode <;> simp [begin, h₁, h₂, h₃, h₄, h₅, h₆, h₇, h₈]

/-- What has been begun and white space does not end. -/
def rested : Token → Token
  | .string '`' _ => .string '`' false
  | .blockComment _ => .blockComment false
  | _ => .plain

theorem rested_string {quote : Char} (h : quote ≠ '`') (escaped : Bool) : rested (.string quote escaped) = .plain := by
  unfold rested
  split <;> simp_all

/-- In code white space changes no mode, and ends only what it ends in the end. -/
theorem advance_code_space (h : Text.isSpace c = true) (operand : Bool) (braces : Nat) (below : List Mode)
    (token : Token) :
    (advance operand (.code braces :: below) token c).1 = .code braces :: below ∧
      rested (advance operand (.code braces :: below) token c).2 = rested token := by
  have hbegin := begin_space h
  have hslash := ne_of_isSpace (d := '/') h rfl
  have hangle := ne_of_isSpace (d := '>') h rfl
  have hquote := ne_of_isSpace (d := '`') h rfl
  cases token with
  | plain => simp [advance, hbegin, rested]
  | slash => simp [advance, hbegin, rested, Mode.isCode, hslash, ne_of_isSpace (d := '*') h rfl]
  | angle => simp [advance, hbegin, rested, Mode.isCode, isLatin_of_isSpace h, hangle]
  | lineComment =>
    simp only [advance]
    split <;> simp [rested]
  | blockComment star => simp [advance, rested, hslash]
  | string quote escaped =>
    by_cases hq : quote = '`'
    · subst hq
      simp [advance, endsString, hquote, rested]
    · simp only [advance, rested_string hq]
      split
      case isTrue => exact ⟨True.intro, rfl⟩
      case isFalse => exact ⟨True.intro, rested_string hq _⟩

/-- What has been begun is at rest, or a string that a line break will end. -/
def Settled (token : Token) : Prop := token = rested token ∨ ∃ quote, token = .string quote false

variable {operand : Bool} {braces : Nat} {below : List Mode} {token : Token}

theorem advance_rested (h : Text.isSpace c = true) (htoken : token = rested token) :
    (advance operand (.code braces :: below) token c).2 = token := by
  have hstar := ne_of_isSpace (d := '*') h rfl
  have hescape := ne_of_isSpace (d := '\\') h rfl
  have hquote := ne_of_isSpace (d := '`') h rfl
  rw [htoken]
  unfold rested
  split
  · simp [advance, endsString, hquote, hescape]
  · simp [advance, hstar]
  · simp [advance, begin_space h]

theorem settled_break (operand : Bool) (braces : Nat) (below : List Mode) (token : Token) :
    Settled (advance operand (.code braces :: below) token '\n').2 := by
  cases token with
  | plain => exact .inl rfl
  | slash => exact .inl rfl
  | angle => exact .inl rfl
  | lineComment => exact .inl rfl
  | blockComment star => cases star <;> exact .inl rfl
  | string quote escaped =>
    simp only [advance]
    split
    case isTrue => exact .inl rfl
    case isFalse => exact .inr ⟨quote, by simp⟩

theorem Settled.space (hs : Settled token) (h : Text.isSpace c = true) :
    Settled (advance operand (.code braces :: below) token c).2 := by
  have hescape := ne_of_isSpace (d := '\\') h rfl
  rcases hs with hs | ⟨quote, rfl⟩
  · rw [advance_rested h hs]
    exact .inl hs
  · simp only [advance]
    split
    case isTrue => exact .inl rfl
    case isFalse => exact .inr ⟨quote, by simp [hescape]⟩

theorem Settled.break (hs : Settled token) :
    (advance operand (.code braces :: below) token '\n').2 =
      rested (advance operand (.code braces :: below) token '\n').2 := by
  rcases hs with hs | ⟨quote, rfl⟩
  · rw [advance_rested rfl hs]
    exact hs
  · by_cases hq : quote = '`'
    · subst hq
      rfl
    · simp [advance, endsString, hq, rested]

/-! ### White space in code -/

theorem next_modes (σ : Reading) (c : Char) :
    (σ.next c).modes = (advance (operandNext σ.before) σ.modes σ.token c).1 ∧
      (σ.next c).token = (advance (operandNext σ.before) σ.modes σ.token c).2 ∧ (σ.next c).before = c :: σ.before := by
  unfold next
  dsimp only
  split
  · split <;> exact ⟨rfl, rfl, rfl⟩
  · split <;> exact ⟨rfl, rfl, rfl⟩
  · exact ⟨rfl, rfl, rfl⟩

theorem InCode.space (h : σ.InCode) (hc : Text.isSpace c = true) :
    (σ.next c).modes = σ.modes ∧ rested (σ.next c).token = rested σ.token := by
  obtain ⟨braces, below, hmodes⟩ := inCode_iff.1 h
  rw [(next_modes σ c).1, (next_modes σ c).2.1, hmodes]
  exact advance_code_space hc _ braces below σ.token

theorem InCode.next_space (h : σ.InCode) (hc : Text.isSpace c = true) : (σ.next c).InCode := by
  rw [InCode, (h.space hc).1]
  exact h

/-- White space in code stays in code. -/
theorem InCode.blank (h : σ.InCode) (hs : Blank s) : σ.StaysInCode s := by
  induction s generalizing σ with
  | nil => exact h
  | cons c s ih =>
    exact ⟨h, ih (h.next_space (hs c List.mem_cons_self)) fun d hd => hs d (List.mem_cons_of_mem c hd)⟩

theorem InCode.read_blank (h : σ.InCode) (hs : Blank s) :
    (σ.read s).modes = σ.modes ∧ rested (σ.read s).token = rested σ.token := by
  induction s generalizing σ with
  | nil => exact ⟨rfl, rfl⟩
  | cons c s ih =>
    have hc := hs c List.mem_cons_self
    obtain ⟨hmodes, htoken⟩ := ih (h.next_space hc) fun d hd => hs d (List.mem_cons_of_mem c hd)
    exact ⟨hmodes.trans (h.space hc).1, htoken.trans (h.space hc).2⟩

/-- White space in code leaves alone what is at rest. -/
theorem token_rested (h : σ.InCode) (hσ : σ.token = rested σ.token) (hs : Blank s) :
    (σ.read s).token = rested (σ.read s).token := by
  induction s generalizing σ with
  | nil => exact hσ
  | cons c s ih =>
    obtain ⟨braces, below, hmodes⟩ := inCode_iff.1 h
    have hc := hs c List.mem_cons_self
    refine ih (h.next_space hc) ?_ fun d hd => hs d (List.mem_cons_of_mem c hd)
    rw [(next_modes σ c).2.1, hmodes, advance_rested hc hσ]
    exact hσ

/-- Two line breaks bring what has been begun to rest. -/
theorem token_blank (h : σ.InCode) (hs : Blank s) (hbreak : '\n' ∈ s) :
    (σ.read ('\n' :: s)).token = rested σ.token := by
  have hsettles {σ : Reading} (h : σ.InCode) (hσ : Settled σ.token) {s : List Char} (hs : Blank s)
      (hbreak : '\n' ∈ s) : (σ.read s).token = rested (σ.read s).token := by
    induction s generalizing σ with
    | nil => exact nomatch hbreak
    | cons c s ih =>
      obtain ⟨braces, below, hmodes⟩ := inCode_iff.1 h
      have hc := hs c List.mem_cons_self
      have hs' : Blank s := fun d hd => hs d (List.mem_cons_of_mem c hd)
      rcases List.mem_cons.1 hbreak with rfl | hbreak
      · refine token_rested (s := s) (h.next_space hc) ?_ hs'
        rw [(next_modes σ _).2.1, hmodes]
        exact hσ.break
      · refine ih (h.next_space hc) ?_ hs' hbreak
        rw [(next_modes σ c).2.1, hmodes]
        exact hσ.space hc
  have hfirst : Settled (σ.next '\n').token := by
    obtain ⟨braces, below, hmodes⟩ := inCode_iff.1 h
    rw [(next_modes σ '\n').2.1, hmodes]
    exact settled_break _ _ _ _
  have hbreak' : Text.isSpace '\n' = true := rfl
  have hnext := h.next_space hbreak'
  rw [read_cons, hsettles hnext hfirst hs hbreak, (hnext.read_blank hs).2, (h.space hbreak').2]

/-! ### Operands behind white space -/

theorem before_read (σ : Reading) (s : List Char) : (σ.read s).before = s.reverse ++ σ.before := by
  induction s generalizing σ with
  | nil => rfl
  | cons c s ih =>
    rw [read_cons, ih, (next_modes σ c).2.2]
    simp

theorem isSpace_of_isAsciiSpace (h : isAsciiSpace c = true) : Text.isSpace c = true := by
  simp only [isAsciiSpace, Bool.or_eq_true, beq_iff_eq] at h
  rcases h with (((rfl | rfl) | rfl) | rfl) | rfl <;> rfl

theorem operandNext_ascii {v : List Char} (hs : ∀ c ∈ s, isAsciiSpace c = true) :
    operandNext (s ++ v) = operandNext v := by
  rw [operandNext, List.dropWhile_append_of_pos hs]
  rfl

/-- Two texts behind which an operand is due alike, neither of which ends in a word. -/
theorem operandNext_append {v w : List Char} (h : operandNext v = operandNext w)
    (hv : v.head?.all (!isScriptWord ·) = true) (hw : w.head?.all (!isScriptWord ·) = true) (x : List Char) :
    operandNext (x ++ v) = operandNext (x ++ w) := by
  have htake {v : List Char} (hv : v.head?.all (!isScriptWord ·) = true) (x : List Char) :
      (x ++ v).takeWhile isScriptWord = x.takeWhile isScriptWord := by
    induction x with
    | nil => cases v <;> simp_all
    | cons c x ih => simp only [List.cons_append, List.takeWhile_cons, ih]
  induction x with
  | nil => exact h
  | cons c x ih =>
    by_cases hc : isAsciiSpace c = true
    · have hcons (u : List Char) : operandNext (c :: u) = operandNext u :=
        operandNext_ascii (s := [c]) (by simpa using hc)
      rw [List.cons_append, List.cons_append, hcons, hcons, ih]
    · have hv' := htake hv (c :: x)
      have hw' := htake hw (c :: x)
      rw [List.cons_append] at hv' hw'
      have hdrop (u : List Char) : (c :: u).dropWhile isAsciiSpace = c :: u := List.dropWhile_cons_of_neg hc
      rw [operandNext, operandNext, List.cons_append, List.cons_append, hdrop, hdrop]
      simp only [hv', hw']

theorem SameOperands.of_append {v w : List Char} (h : ∀ x, operandNext (x ++ v) = operandNext (x ++ w))
    (rest : List Char) : SameOperands v w rest := by
  induction rest generalizing v w with
  | nil => exact True.intro
  | cons c rest ih => exact ⟨fun _ => h [], ih fun x => by simpa using h (x ++ [c])⟩

theorem SameOperands.trans {u v w : List Char} (h : SameOperands u v rest) (h' : SameOperands v w rest) :
    SameOperands u w rest := by
  induction rest generalizing u v w with
  | nil => exact True.intro
  | cons c rest ih => exact ⟨fun hc => (h.1 hc).trans (h'.1 hc), ih h.2 h'.2⟩

/-- What stands before white space is followed by the same whatever the white space. -/
theorem sameOperands_ascii {v w : List Char} {c : Char} (hs : ∀ d ∈ c :: s, isAsciiSpace d = true)
    (hw : ∀ d ∈ c :: w, isAsciiSpace d = true) (rest : List Char) :
    SameOperands (c :: s ++ v) (c :: w ++ v) rest := by
  have hword : (!isScriptWord c) = true := by
    rw [isScriptWord_of_isSpace (isSpace_of_isAsciiSpace (hs c List.mem_cons_self))]
    rfl
  refine .of_append (operandNext_append ?_ (by simpa using hword) (by simpa using hword)) rest
  rw [operandNext_ascii hs, operandNext_ascii hw]

/-! ### Runs of blank lines -/

/-- A line break, white space and another line break do in code what three line breaks do. -/
theorem codeForCode_blank (h : Agrees σ τ ('\n' :: s ++ ['\n'] ++ rest)) (hin : σ.InCode)
    (hs : ∀ c ∈ s, isAsciiSpace c = true) :
    CodeForCode σ τ ('\n' :: s ++ ['\n']) ['\n', '\n', '\n'] rest := by
  have hascii : ∀ c ∈ s ++ ['\n'], isAsciiSpace c = true := by
    simp only [List.mem_append, List.mem_singleton]
    rintro c (hc | rfl)
    · exact hs c hc
    · rfl
  have hbreaks : ∀ c ∈ ['\n', '\n'], isAsciiSpace c = true := by simp [isAsciiSpace]
  have hblank {s : List Char} (hs : ∀ c ∈ s, isAsciiSpace c = true) : Blank s := fun c hc =>
    isSpace_of_isAsciiSpace (hs c hc)
  have hline {s : List Char} (hs : Blank s) : Blank ('\n' :: s) := List.forall_mem_cons.2 ⟨rfl, hs⟩
  have hin' : τ.InCode := h.inCode.1 hin
  have hold := hline (hblank hascii)
  have hnew := hline (hblank hbreaks)
  refine ⟨hin.blank hold, hin'.blank hnew, ?_, ?_, ?_⟩
  · exact (hin.read_blank hold).1.trans (h.meets.1.trans (hin'.read_blank hnew).1.symm)
  · have htokens : rested σ.token = rested τ.token := by rw [h.meets.2.1]
    exact (token_blank hin (hblank hascii) (by simp)).trans
      (htokens.trans (token_blank hin' (hblank hbreaks) (by simp)).symm)
  · have hsame := h.read.meets.2.2
    rw [before_read, before_read] at hsame
    rw [before_read, before_read]
    refine hsame.trans ?_
    simpa using sameOperands_ascii (s := s.reverse ++ ['\n']) (w := ['\n', '\n']) (v := τ.before) (c := '\n')
      (fun d hd => hascii d (by grind)) (by simp [isAsciiSpace]) rest

/-! ### White space outside of code -/

theorem not_inCode_next (h : ¬ σ.InCode) (hc : Text.isSpace c = true) : ¬ (σ.next c).InCode := by
  have hbegin := begin_space hc
  have hslash := ne_of_isSpace (d := '/') hc rfl
  have hangle := ne_of_isSpace (d := '>') hc rfl
  rw [InCode] at h ⊢
  rw [(next_modes σ c).1]
  rcases hmodes : σ.modes with - | ⟨mode, below⟩
  · simp [advance]
  · rw [hmodes] at h
    have hmode : mode.isCode = false := by simpa using h
    have htag : (Mode.tag false).isCode = false := rfl
    cases σ.token <;> simp [advance, hbegin, hmode, hslash, hangle, htag]

/-- White space outside of code stays outside. -/
theorem staysOutside_blank (h : ¬ σ.InCode) (hs : Blank s) : σ.StaysOutside s := by
  induction s generalizing σ with
  | nil => exact h
  | cons c s ih =>
    exact ⟨h, ih (not_inCode_next h (hs c List.mem_cons_self)) fun d hd => hs d (List.mem_cons_of_mem c hd)⟩

/-! ### White space at the ends -/

theorem operandNext_blank (hs : Blank s) : operandNext s = true := by
  have hd := fun c hc => hs c (List.dropWhile_sublist isAsciiSpace |>.subset hc)
  rw [operandNext]
  split
  case h_1 => rfl
  case h_2 c r hcons =>
    have hc : Text.isSpace c = true := hd c (by simp [hcons])
    simp [isScriptWord_of_isSpace hc, ne_of_isSpace (d := ')') hc rfl, ne_of_isSpace (d := ']') hc rfl]

theorem head_not_word (hs : Blank s) : s.head?.all (!isScriptWord ·) = true := by
  cases s with
  | nil => rfl
  | cons c s => simpa using isScriptWord_of_isSpace (hs c List.mem_cons_self)

/-- What is read behind white space is read as if nothing stood there. -/
theorem agrees_blank (hs : Blank s) (rest : List Char) : Agrees (read {} s) {} rest := by
  have hin : InCode {} := rfl
  have hreverse : Blank s.reverse := fun c hc => hs c (List.mem_reverse.1 hc)
  obtain ⟨hmodes, htoken⟩ := hin.read_blank hs
  obtain ⟨htext, hdone⟩ := (hin.blank hs).read
  refine ⟨⟨hmodes, (token_rested hin rfl hs).trans htoken, ?_⟩, htext, hdone⟩
  rw [before_read, List.append_nil]
  exact .of_append (operandNext_append (operandNext_blank hreverse) (head_not_word hreverse) rfl) rest

theorem InCode.markup (h : σ.InCode) : σ.markup = σ.done := by
  obtain ⟨braces, below, hmodes⟩ := inCode_iff.1 h
  rw [Reading.markup, hmodes]

theorem inCode_of_append {w : List Char} (h : (σ.read (s ++ w)).InCode) (hw : Blank w) : (σ.read s).InCode := by
  rw [read_append] at h
  exact Classical.byContradiction fun hout => (staysOutside_blank hout hw).read h

/-- White space at the end of code is no markup. -/
theorem InCode.markup_blank {w : List Char} (h : (σ.read (s ++ w)).InCode) (hw : Blank w) :
    (σ.read (s ++ w)).markup = (σ.read s).markup := by
  have hin := inCode_of_append h hw
  rw [h.markup, hin.markup, read_append]
  exact (hin.blank hw).read.2

end LivePreview.Source.Reading
