import LivePreview.Proofs.Jsx.Item
import LivePreview.Proofs.Source.Track

/-! Names of components as tokens.

A name of Latin letters is read as one word, wherever white space comes before it and nothing behind it that would
carry a word on. -/
namespace LivePreview.Jsx
open Text
open Source (Blank IsName isCapital isNamePart isNamePart_of_isCapital isSpace_wide not_inRanges_of_solid
  solid_wordRanges)

variable {c : Char} {m n r s : List Char}

/-! ### White space -/

theorem isLineEnd_or_isBlank (hc : isSpace c = true) : isLineEnd c = true ∨ Jsx.isBlank c = true := by
  simp only [isSpace, isLineEnd, Jsx.isBlank, Bool.or_eq_true, Bool.and_eq_true, decide_eq_true_eq, beq_iff_eq,
    ← Char.toNat_inj] at hc ⊢
  have hline : '\n'.toNat = 10 ∧ '\r'.toNat = 13 ∧ '\u2028'.toNat = 0x2028 ∧ '\u2029'.toNat = 0x2029 ∧
    ' '.toNat = 32 ∧ '\t'.toNat = 9 := by decide
  omega

theorem ne_slash_of_isSpace (hc : isSpace c = true) : c ≠ '/' := by
  rintro rfl
  exact absurd hc (by decide)

theorem skipGap_cons (hc : c ≠ '/') (b : Bool) : skipGap .space b (c :: r) =
    if isLineEnd c then skipGap .space true r
    else if Jsx.isBlank c then skipGap .space b r
    else some (b, c :: r) := by
  rw [skipGap] <;> simp [hc]

/-- White space before a token is left out. -/
theorem skipGap_blank (hs : Blank s) (b : Bool) : ∃ b', skipGap .space b (s ++ r) = skipGap .space b' r := by
  induction s generalizing b with
  | nil => exact ⟨b, rfl⟩
  | cons c s ih =>
    obtain ⟨hc, hs⟩ := List.forall_mem_cons.1 hs
    rw [List.cons_append, skipGap_cons (ne_slash_of_isSpace hc)]
    split
    case isTrue => exact ih hs true
    case isFalse hline =>
      rw [if_pos ((isLineEnd_or_isBlank hc).resolve_left hline)]
      exact ih hs b

/-- Whether a token begins with the character, and no gap does. -/
def opensToken (c : Char) : Bool := c != '/' && !isLineEnd c && !Jsx.isBlank c

theorem skipGap_token (hs : Blank s) (hc : opensToken c = true) (b : Bool) :
    ∃ b', skipGap .space b (s ++ c :: r) = some (b', c :: r) := by
  simp only [opensToken, Bool.and_eq_true, bne_iff_ne, Bool.not_eq_true'] at hc
  obtain ⟨b', h⟩ := skipGap_blank (r := c :: r) hs b
  exact ⟨b', by rw [h, skipGap_cons hc.1.1, hc.1.2, hc.2]; rfl⟩

/-- White space within a line ends none. -/
theorem skipGap_inline (hs : Blank s) (hline : ∀ c ∈ s, isLineEnd c = false) (b : Bool) :
    skipGap .space b (s ++ r) = skipGap .space b r := by
  induction s with
  | nil => rfl
  | cons c s ih =>
    obtain ⟨hc, hs⟩ := List.forall_mem_cons.1 hs
    obtain ⟨hl, hline⟩ := List.forall_mem_cons.1 hline
    rw [List.cons_append, skipGap_cons (ne_slash_of_isSpace hc), hl, if_neg Bool.false_ne_true,
      if_pos ((isLineEnd_or_isBlank hc).resolve_left (by simp [hl]))]
    exact ih hs hline

/-- Behind white space stands the token that the rest begins with. -/
theorem Cursor.follow_of {d : Cursor} (hd : d.after = s ++ c :: r) (hs : Blank s) (hc : opensToken c = true) :
    d.follow.lexeme = (Lexeme.read (c :: r)).1 ∧ d.follow.after = (Lexeme.read (c :: r)).2 := by
  obtain ⟨b, h⟩ := skipGap_token (r := r) hs hc false
  simp [follow, moveTo, hd, h]

theorem Cursor.follow_newline {d : Cursor} (hd : d.after = s ++ c :: r) (hs : Blank s)
    (hline : ∀ c ∈ s, isLineEnd c = false) (hc : opensToken c = true) : d.follow.newline = false := by
  simp only [opensToken, Bool.and_eq_true, bne_iff_ne, Bool.not_eq_true'] at hc
  have hgap : skipGap .space false (s ++ c :: r) = some (false, c :: r) := by
    rw [skipGap_inline hs hline, skipGap_cons hc.1.1, hc.1.2, hc.2]
    rfl
  simp [follow, moveTo, hd, hgap]

/-! ### The characters of words -/

theorem ascii_of_isNamePart (hc : isNamePart c = true) : c.toNat < 128 := by
  have hle (a b : Char) : a ≤ b ↔ a.toNat ≤ b.toNat := Iff.rfl
  simp [isNamePart, isPlainName, isLatin, isDigit, hle, ← Char.toNat_inj] at hc
  omega

theorem continuesIdentifier_of_isNamePart (hc : isNamePart c = true) : continuesIdentifier c = true := by
  rw [continuesIdentifier, if_pos (ascii_of_isNamePart hc)]
  exact hc

theorem isNamePart_of_isLatin (hc : isLatin c = true) : isNamePart c = true := by
  simp [isNamePart, isPlainName, hc]

theorem startsIdentifier_of_isLatin (hc : isLatin c = true) : startsIdentifier c = true := by
  rw [startsIdentifier, if_pos (ascii_of_isNamePart (isNamePart_of_isLatin hc))]
  simp [isNameStart, hc]

theorem not_isDigit_of_isLatin (hc : isLatin c = true) : isDigit c = false := by
  have hle (a b : Char) : a ≤ b ↔ a.toNat ≤ b.toNat := Iff.rfl
  simp [isLatin, isDigit, hle] at hc ⊢
  omega

theorem not_continuesIdentifier_of_isSpace (hc : isSpace c = true) : continuesIdentifier c = false := by
  unfold continuesIdentifier
  split
  case isTrue =>
    simp [Source.Reading.isLatin_of_isSpace hc, Source.Reading.isDigit_of_isSpace hc,
      Source.Reading.ne_of_isSpace (d := '_') hc rfl, Source.Reading.ne_of_isSpace (d := '$') hc rfl]
  case isFalse hwide =>
    have hwide := isSpace_wide hc hwide
    have hsigns : inRanges signRanges c.toNat = false := not_inRanges_of_solid (by decide) hwide
    have hdots : inRanges dotRanges c.toNat = false := not_inRanges_of_solid (by decide) hwide
    simp [not_inRanges_of_solid solid_wordRanges hwide, hsigns, hdots]

/-! ### Words -/

/-- Nothing here carries a word on, plain or escaped. -/
def EndsWord (rest : List Char) : Prop := ∀ c ∈ rest.head?, continuesIdentifier c = false ∧ c ≠ '\\'

theorem wordRest?_cons (hc : c ≠ '\\') (first : Bool) (fuel : Nat) : wordRest? first (fuel + 1) (c :: r) =
    if if first then startsIdentifier c else continuesIdentifier c then
      (wordRest? false fuel r).map fun (s, escaped, rest) => (c :: s, escaped, rest)
    else some ([], false, c :: r) := by
  rw [wordRest?] <;> simp [hc]

theorem ne_backslash_of_isNamePart (hc : isNamePart c = true) : c ≠ '\\' := by
  rintro rfl
  exact absurd hc (by decide)

/-- The characters of a name are read to the last one. -/
theorem wordRest?_name (hm : ∀ c ∈ m, isNamePart c = true) (hr : EndsWord r) {fuel : Nat} (hfuel : m.length ≤ fuel) :
    wordRest? false fuel (m ++ r) = some (m, false, r) := by
  induction m generalizing fuel with
  | nil =>
    cases fuel with
    | zero => cases r <;> rfl
    | succ fuel =>
      cases r with
      | nil => rfl
      | cons c r =>
        obtain ⟨hc, hescape⟩ := hr c rfl
        rw [List.nil_append, wordRest?_cons hescape, if_neg Bool.false_ne_true, hc, if_neg Bool.false_ne_true]
  | cons c m ih =>
    obtain ⟨hc, hm⟩ := List.forall_mem_cons.1 hm
    cases fuel with
    | zero => exact absurd hfuel (Nat.not_succ_le_zero _)
    | succ fuel =>
      rw [List.cons_append, wordRest?_cons (ne_backslash_of_isNamePart hc), if_neg Bool.false_ne_true,
        continuesIdentifier_of_isNamePart hc, if_pos rfl, ih hm (Nat.le_of_succ_le_succ hfuel)]
      rfl

/-- A word that begins with a Latin letter and has no other signs than names have. -/
def IsPlainWord (w : List Char) : Prop := ∃ c m, w = c :: m ∧ isLatin c = true ∧ ∀ c ∈ m, isNamePart c = true

theorem isPlainWord_of_isName (hn : IsName n) : IsPlainWord n := by
  obtain ⟨c, m, rfl, hc, hm⟩ := hn
  exact ⟨c, m, rfl, Bool.or_eq_true_iff.2 (.inr hc), hm⟩

theorem isPlainWord_of_letters {w : List Char} (h : (!w.isEmpty && w.all isLatin) = true) : IsPlainWord w := by
  cases w with
  | nil => exact nomatch h
  | cons c w =>
    simp only [List.isEmpty_cons, Bool.not_false, Bool.true_and, List.all_cons, Bool.and_eq_true,
      List.all_eq_true] at h
    exact ⟨c, w, rfl, h.1, fun x hx => isNamePart_of_isLatin (h.2 x hx)⟩

theorem word?_plain (hn : IsPlainWord n) (hr : EndsWord r) : Lexeme.word? (n ++ r) = some (n, false, r) := by
  obtain ⟨c, m, rfl, hc, hm⟩ := hn
  have hfuel : m.length ≤ (m ++ r).length := by simp
  have hrest := wordRest?_name hm hr hfuel
  rw [Lexeme.word?, List.cons_append, List.length_cons,
    wordRest?_cons (ne_backslash_of_isNamePart (isNamePart_of_isLatin hc)), if_pos rfl,
    startsIdentifier_of_isLatin hc, if_pos rfl, hrest]
  rfl

/-- No sign begins with a letter. -/
theorem sign?_latin (hc : isLatin c = true) : Lexeme.sign? (c :: r) = none := by
  have hsigns : signs.all (fun g => g.toList.head?.any (!isLatin ·)) = true := by decide
  have hnone : signs.find? (·.toList.isPrefixOf (c :: r)) = none := by
    refine List.find?_eq_none.2 fun g hg hbegins => ?_
    have hhead := List.all_eq_true.1 hsigns g hg
    cases hl : g.toList with
    | nil => simp [hl] at hhead
    | cons x l =>
      simp only [hl, List.isPrefixOf, Bool.and_eq_true, beq_iff_eq] at hbegins
      simp [hl, hbegins.1, hc] at hhead
  unfold Lexeme.sign?
  split
  case h_1 heq =>
    obtain ⟨rfl, -⟩ := List.cons_eq_cons.1 heq
    exact absurd hc (by decide)
  case h_2 => rw [hnone]

/-- **A plain word is read as one.** -/
theorem read_plain (hn : IsPlainWord n) (hr : EndsWord r) :
    Lexeme.read (n ++ r) = (.word (String.ofList n) false, r) := by
  have hword := word?_plain hn hr
  obtain ⟨c, m, rfl, hc, hm⟩ := hn
  have hother (d : Char) (hd : isLatin d = false) : (c == d) = false :=
    beq_eq_false_iff_ne.2 fun h => by simp [← h, hc] at hd
  rw [List.cons_append, Lexeme.read, ← List.cons_append, hother '"' rfl, hother '\'' rfl, hother '.' rfl,
    hother '#' rfl,
    not_isDigit_of_isLatin hc, List.cons_append, sign?_latin hc, ← List.cons_append, hword]
  rfl

theorem read_star (hr : ∀ c ∈ r.head?, c ≠ '*' ∧ c ≠ '=') : Lexeme.read ('*' :: r) = (.sign "*", r) := by
  have hfind : signs.find? (·.toList.isPrefixOf ('*' :: r)) = some "*" := by
    cases r with
    | nil => decide
    | cons c r =>
      obtain ⟨hstar, hequal⟩ := hr c rfl
      simp [signs, Ne.symm hstar, Ne.symm hequal]
  have hsign : Lexeme.sign? ('*' :: r) = some ("*", r) := by
    unfold Lexeme.sign?
    rw [hfind]
    rfl
  rw [Lexeme.read, hsign]
  rfl

/-! ### Names behind a keyword -/

variable {d : Cursor} {g g' : List Char}

theorem opensToken_of_isLatin (hc : isLatin c = true) : opensToken c = true := by
  have hle (a b : Char) : a ≤ b ↔ a.toNat ≤ b.toNat := Iff.rfl
  simp [isLatin, hle] at hc
  simp [opensToken, isLineEnd, Jsx.isBlank, ← Char.toNat_inj]
  omega

/-- The word behind white space is the next token. -/
theorem follow_plain (hd : d.after = g ++ (n ++ r)) (hg : Blank g) (hn : IsPlainWord n) (hr : EndsWord r) :
    d.follow.lexeme = .word (String.ofList n) false ∧ d.follow.after = r := by
  have hread := read_plain hn hr
  obtain ⟨c, m, rfl, hc, -⟩ := hn
  obtain ⟨hlexeme, hafter⟩ := Cursor.follow_of hd hg (opensToken_of_isLatin hc)
  exact ⟨hlexeme.trans (congrArg Prod.fst hread), hafter.trans (congrArg Prod.snd hread)⟩

/-- The token at hand is the one that a text begins with. -/
def Stands (c : Cursor) (s : List Char) : Prop := Lexeme.read s = (c.lexeme, c.after)

theorem Stands.plain {w : List Char} (h : Stands d (w ++ r)) (hw : IsPlainWord w) (hr : EndsWord r) :
    d.lexeme = .word (String.ofList w) false ∧ d.after = r := by
  have hread := (read_plain hw hr).symm.trans h
  exact ⟨(congrArg Prod.fst hread).symm, (congrArg Prod.snd hread).symm⟩

theorem endsWord_blank (hg : Blank g) (hne : g ≠ []) (r : List Char) : EndsWord (g ++ r) := by
  intro c hc
  cases g with
  | nil => exact absurd rfl hne
  | cons x g =>
    obtain rfl : x = c := Option.some.inj hc
    have hx := hg x List.mem_cons_self
    exact ⟨not_continuesIdentifier_of_isSpace hx, Source.Reading.ne_of_isSpace hx rfl⟩

/-- Behind a word and white space stands the next token. -/
theorem Stands.follow {w : List Char} (h : Stands d (w ++ (g ++ c :: r))) (hw : IsPlainWord w) (hg : Blank g)
    (hne : g ≠ []) (hc : opensToken c = true) :
    d.lexeme = .word (String.ofList w) false ∧ Stands d.follow (c :: r) ∧
      ((∀ c ∈ g, isLineEnd c = false) → d.follow.newline = false) := by
  obtain ⟨hlexeme, hafter⟩ := h.plain hw (endsWord_blank hg hne _)
  obtain ⟨hnext, hrest⟩ := Cursor.follow_of hafter hg hc
  exact ⟨hlexeme, Prod.ext hnext.symm hrest.symm, fun hline => Cursor.follow_newline hafter hg hline hc⟩

theorem follow_name (hd : d.after = g ++ (n ++ r)) (hg : Blank g) (hn : IsName n) (hr : EndsWord r) :
    d.follow.lexeme = .word (String.ofList n) false := (follow_plain hd hg (isPlainWord_of_isName hn) hr).1

theorem follow_star (hd : d.after = g ++ '*' :: (g' ++ (n ++ r))) (hg : Blank g) (hg' : Blank g') (hn : IsName n)
    (hr : EndsWord r) : Names d (String.ofList n) := by
  have hhead : ∀ c ∈ (g' ++ (n ++ r)).head?, c ≠ '*' ∧ c ≠ '=' := by
    intro c hc
    cases g' with
    | nil =>
      obtain ⟨x, m, rfl, hx, -⟩ := hn
      obtain rfl : x = c := Option.some.inj hc
      exact ⟨fun h => absurd (h ▸ hx) (by decide), fun h => absurd (h ▸ hx) (by decide)⟩
    | cons x g' =>
      obtain rfl : x = c := Option.some.inj hc
      have hx := hg' x List.mem_cons_self
      exact ⟨Source.Reading.ne_of_isSpace hx rfl, Source.Reading.ne_of_isSpace hx rfl⟩
  obtain ⟨hlexeme, hafter⟩ := Cursor.follow_of hd hg (by decide)
  rw [read_star hhead] at hlexeme hafter
  exact .star false hlexeme (follow_name hafter hg' hn hr)

end LivePreview.Jsx
