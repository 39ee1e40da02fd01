import LivePreview.Proofs.Source.Lexing

/-! Texts in other spellings, and as bytes.

The lexer compares what it reads with marks, letters and digits of ASCII only. So it finds the same when every other
character is spelled by some characters beyond ASCII, as by its bytes in UTF-8. White space beyond ASCII is the one
exception: a run that is blank as a text need not be blank in its spelling. -/
namespace LivePreview.Source

/-- A spelling that leaves ASCII alone. -/
structure Spelling (f : Char → List Char) : Prop where
  ascii : ∀ c : Char, c.toNat < 128 → f c = [c]
  beyond : ∀ c : Char, 128 ≤ c.toNat → ∀ d ∈ f c, 128 ≤ d.toNat
  /-- No character is spelled by white space alone, or by nothing. -/
  inked : ∀ c : Char, 128 ≤ c.toNat → ∃ d ∈ f c, Text.isSpace d = false

/-- The text in a spelling. -/
def spell (f : Char → List Char) (s : List Char) : List Char := s.flatMap f

/-- The text in a spelling, where both stand with the last character first. -/
def spellBack (f : Char → List Char) (s : List Char) : List Char := s.flatMap fun c => (f c).reverse

section Spelling
variable {f : Char → List Char} {c x : Char} {r s before : List Char}

@[simp] theorem spell_nil : spell f [] = [] := rfl

@[simp] theorem spell_cons : spell f (c :: s) = f c ++ spell f s := rfl

@[simp] theorem spell_append (s t : List Char) : spell f (s ++ t) = spell f s ++ spell f t := List.flatMap_append

theorem spellBack_eq (s : List Char) : spellBack f s = (spell f s.reverse).reverse := by
  induction s with
  | nil => rfl
  | cons c s ih =>
    rw [spellBack, List.flatMap_cons, ← spellBack, ih, List.reverse_cons, spell_append, List.reverse_append]
    simp [spell]

theorem spell_take_append_drop (s : List Char) (n : Nat) : spell f (s.take n) ++ spell f (s.drop n) = spell f s := by
  rw [← spell_append, List.take_append_drop]

theorem drop_spell (s : List Char) (n : Nat) : (spell f s).drop (spell f (s.take n)).length = spell f (s.drop n) := by
  rw [← spell_take_append_drop s n, List.drop_left]

theorem take_spell (s : List Char) (n : Nat) : (spell f s).take (spell f (s.take n)).length = spell f (s.take n) := by
  rw [← spell_take_append_drop s n, List.take_left]

namespace Spelling
variable (h : Spelling f)
include h

theorem ne_nil (c : Char) : f c ≠ [] := by
  rcases Nat.lt_or_ge c.toNat 128 with hc | hc
  · simp [h.ascii c hc]
  · obtain ⟨d, hd, -⟩ := h.inked c hc
    exact List.ne_nil_of_mem hd

/-- No other character is spelled with a mark of ASCII. -/
theorem ne_of_mem (hx : x.toNat < 128) (hc : c ≠ x) : ∀ d ∈ f c, d ≠ x := by
  rintro d hd rfl
  rcases Nat.lt_or_ge c.toNat 128 with hlt | hge
  · rw [h.ascii c hlt, List.mem_singleton] at hd
    exact hc hd.symm
  · exact absurd (h.beyond c hge d hd) (Nat.not_le_of_lt hx)

theorem exists_inked (hc : Text.isSpace c = false) : ∃ d ∈ f c, Text.isSpace d = false := by
  rcases Nat.lt_or_ge c.toNat 128 with hlt | hge
  · exact ⟨c, by simp [h.ascii c hlt], hc⟩
  · exact h.inked c hge

theorem back : Spelling fun c => (f c).reverse where
  ascii c hc := by rw [h.ascii c hc]; rfl
  beyond c hc d hd := h.beyond c hc d (List.mem_reverse.1 hd)
  inked c hc := by
    obtain ⟨d, hd, hink⟩ := h.inked c hc
    exact ⟨d, List.mem_reverse.2 hd, hink⟩

/-- The first character of a spelling is that of the text, or neither is in ASCII. -/
theorem head?_any (ok : Char → Bool) (hok : ∀ d : Char, 128 ≤ d.toNat → ok d = false) (s : List Char) :
    (spell f s).head?.any ok = s.head?.any ok := by
  cases s with
  | nil => rfl
  | cons c s =>
    obtain ⟨d, k, hd⟩ := List.exists_cons_of_ne_nil (h.ne_nil c)
    rw [spell_cons, hd]
    rcases Nat.lt_or_ge c.toNat 128 with hlt | hge
    · rw [h.ascii c hlt] at hd
      obtain ⟨rfl, -⟩ := List.cons.inj hd
      rfl
    · have hbeyond := h.beyond c hge d (by simp [hd])
      simp [hok d hbeyond, hok c hge]

theorem head?_beq (hx : x.toNat < 128) (s : List Char) : ((spell f s).head? == some x) = (s.head? == some x) := by
  have hany (o : Option Char) : (o == some x) = o.any (· == x) := by cases o <;> rfl
  rw [hany, hany, h.head?_any (· == x) fun d hd => beq_false_of_ne fun heq => by subst heq; omega]

/-- A run of characters of ASCII is spelled by itself. -/
theorem takeWhile_ascii {ok : Char → Bool} (hok : ∀ d : Char, 128 ≤ d.toNat → ok d = false) (s : List Char) :
    (spell f s).takeWhile ok = s.takeWhile ok := by
  induction s with
  | nil => rfl
  | cons c s ih =>
    rcases Nat.lt_or_ge c.toNat 128 with hlt | hge
    · rw [spell_cons, h.ascii c hlt, List.singleton_append, List.takeWhile_cons, List.takeWhile_cons, ih]
    · obtain ⟨d, k, hd⟩ := List.exists_cons_of_ne_nil (h.ne_nil c)
      have hbeyond := h.beyond c hge d (by simp [hd])
      rw [spell_cons, hd, List.cons_append, List.takeWhile_cons, List.takeWhile_cons, hok d hbeyond, hok c hge]
      rfl

theorem dropWhile_ascii {ok : Char → Bool} (hok : ∀ d : Char, 128 ≤ d.toNat → ok d = false) (s : List Char) :
    (spell f s).dropWhile ok = spell f (s.dropWhile ok) := by
  induction s with
  | nil => rfl
  | cons c s ih =>
    rcases Nat.lt_or_ge c.toNat 128 with hlt | hge
    · rw [spell_cons, h.ascii c hlt, List.singleton_append, List.dropWhile_cons, List.dropWhile_cons]
      split
      · exact ih
      · rw [spell_cons, h.ascii c hlt]
        rfl
    · obtain ⟨d, k, hd⟩ := List.exists_cons_of_ne_nil (h.ne_nil c)
      have hbeyond := h.beyond c hge d (by simp [hd])
      rw [List.dropWhile_cons, hok c hge, spell_cons, hd, List.cons_append, List.dropWhile_cons, hok d hbeyond]
      simp [hd]

/-- A run up to a mark of ASCII is spelled by the run up to it. -/
theorem takeWhile_ne (hx : x.toNat < 128) (s : List Char) :
    (spell f s).takeWhile (· != x) = spell f (s.takeWhile (· != x)) := by
  induction s with
  | nil => rfl
  | cons c s ih =>
    by_cases hc : c = x
    · subst hc
      simp [h.ascii c hx]
    · have hpass : ∀ d ∈ f c, (d != x) = true := fun d hd => bne_iff_ne.2 (h.ne_of_mem hx hc d hd)
      rw [spell_cons, List.takeWhile_append_of_pos hpass, ih, List.takeWhile_cons, if_pos (bne_iff_ne.2 hc), spell_cons]

/-- As much as some characters of the text are spelled with. -/
theorem length_spell_pos {n : Nat} (hn : 0 < n) (hle : n ≤ r.length) : 0 < (spell f (r.take n)).length := by
  obtain ⟨c, r, rfl⟩ := List.exists_cons_of_ne_nil (List.ne_nil_of_length_pos (Nat.lt_of_lt_of_le hn hle))
  obtain ⟨n, rfl⟩ := Nat.exists_eq_succ_of_ne_zero (Nat.ne_of_gt hn)
  have hpos := List.length_pos_iff.2 (h.ne_nil c)
  rw [List.take_succ_cons, spell_cons, List.length_append]
  omega

end Spelling

/-! ### Scans in a spelling -/

theorem isLatin_beyond (hd : 128 ≤ c.toNat) : Text.isLatin c = false := by
  have hlatin (x y : Char) (hy : y.toNat < 128) : (decide (x ≤ c) && decide (c ≤ y)) = false := by
    have hle : ¬ c ≤ y := fun hle => by
      have : c.toNat ≤ y.toNat := hle
      omega
    simp [hle]
  simp [Text.isLatin, hlatin]

theorem beq_beyond (hd : 128 ≤ c.toNat) (hx : x.toNat < 128) : (c == x) = false :=
  beq_false_of_ne fun heq => by subst heq; omega

theorem isAsciiSpace_beyond (hd : 128 ≤ c.toNat) : isAsciiSpace c = false := by
  simp [isAsciiSpace, beq_beyond hd]

theorem isScriptWord_beyond (hd : 128 ≤ c.toNat) : isScriptWord c = false := by
  have hdigit : Text.isDigit c = false := by
    have hle : ¬ c ≤ '9' := fun hle => by
      have : c.toNat ≤ '9'.toNat := hle
      have : '9'.toNat = 57 := rfl
      omega
    simp [Text.isDigit, hle]
  simp [isScriptWord, Text.isPlainName, isLatin_beyond hd, hdigit, beq_beyond hd]

theorem commentLength_cons (hc : c = '*' → s.head? ≠ some '/') : commentLength (c :: s) = commentLength s + 1 := by
  rw [commentLength.eq_def]
  split <;> simp_all

/-- Characters beyond ASCII are counted, whatever they are. -/
theorem stringLength_beyond {quote : Char} (hq : quote.toNat < 128) {k : List Char} (hk : ∀ d ∈ k, 128 ≤ d.toNat)
    (s : List Char) : stringLength quote (k ++ s) = k.length + stringLength quote s := by
  induction k with
  | nil => simp
  | cons d k ih =>
    obtain ⟨hd, hk⟩ := List.forall_mem_cons.1 hk
    have hescape : d ≠ '\\' := fun heq => by subst heq; exact absurd hd (by decide)
    rw [List.cons_append, stringLength_cons hescape, beq_beyond hd hq, beq_beyond hd (by decide), ih hk]
    simp only [Bool.false_and, Bool.or_self, Bool.false_eq_true, if_false, List.length_cons]
    omega

theorem commentLength_beyond {k : List Char} (hk : ∀ d ∈ k, 128 ≤ d.toNat) (s : List Char) :
    commentLength (k ++ s) = k.length + commentLength s := by
  induction k with
  | nil => simp
  | cons d k ih =>
    obtain ⟨hd, hk⟩ := List.forall_mem_cons.1 hk
    have hstar : d ≠ '*' := fun heq => by subst heq; exact absurd hd (by decide)
    rw [List.cons_append, commentLength_cons fun heq => absurd heq hstar, ih hk, List.length_cons]
    omega

namespace Spelling
variable (h : Spelling f)
include h

theorem stringLength_spell {quote : Char} (hq : quote.toNat < 128) (s : List Char) :
    stringLength quote (spell f s) = (spell f (s.take (stringLength quote s))).length := by
  have hescape : f '\\' = ['\\'] := h.ascii _ (by decide)
  fun_induction stringLength quote s with
  | case1 => rfl
  | case2 => simp [hescape, stringLength]
  | case3 d s ih =>
    -- Of the character behind a backslash the first part is hidden, and the others are no marks.
    obtain ⟨e, k, hd⟩ := List.exists_cons_of_ne_nil (h.ne_nil d)
    have hk : stringLength quote (k ++ spell f s) = k.length + stringLength quote (spell f s) := by
      rcases Nat.lt_or_ge d.toNat 128 with hlt | hge
      · rw [h.ascii d hlt] at hd
        obtain ⟨-, rfl⟩ := List.cons.inj hd
        simp
      · exact stringLength_beyond hq (fun x hx => h.beyond d hge x (by simp [hd, hx])) _
    have htext (t : List Char) : spell f ('\\' :: d :: t) = '\\' :: e :: (k ++ spell f t) := by simp [hescape, hd]
    have htwo : stringLength quote ('\\' :: e :: (k ++ spell f s)) = stringLength quote (k ++ spell f s) + 2 := rfl
    rw [List.take_succ_cons, List.take_succ_cons, htext, htext, htwo, hk, ih]
    simp only [List.length_cons, List.length_append]
  | case4 c s hlast hpair hend =>
    have hc : c ≠ '\\' := fun hc => by cases s <;> simp_all
    have hascii : c.toNat < 128 := by
      simp only [Bool.or_eq_true, beq_iff_eq, Bool.and_eq_true] at hend
      rcases hend with rfl | ⟨rfl, -⟩
      · exact hq
      · decide
    simp [h.ascii c hascii, stringLength_cons hc, hend]
  | case5 c s hlast hpair hend ih =>
    have hc : c ≠ '\\' := fun hc => by cases s <;> simp_all
    rw [List.take_succ_cons, spell_cons, spell_cons, List.length_append, ← ih]
    rcases Nat.lt_or_ge c.toNat 128 with hlt | hge
    · rw [h.ascii c hlt, List.singleton_append, stringLength_cons hc, if_neg hend, List.length_singleton, Nat.add_comm]
    · exact stringLength_beyond hq (h.beyond c hge) _

theorem commentLength_spell (s : List Char) :
    commentLength (spell f s) = (spell f (s.take (commentLength s))).length := by
  fun_induction commentLength s with
  | case1 => rfl
  | case2 s =>
    have hstar : f '*' = ['*'] := h.ascii _ (by decide)
    have hslash : f '/' = ['/'] := h.ascii _ (by decide)
    simp [hstar, hslash, commentLength]
  | case3 c s hno ih =>
    rw [List.take_succ_cons, spell_cons, spell_cons, List.length_append, ← ih]
    rcases Nat.lt_or_ge c.toNat 128 with hlt | hge
    · have hnext : c = '*' → (spell f s).head? ≠ some '/' := fun hc hnext => by
        have hhead := h.head?_beq (x := '/') (by decide) s
        rw [hnext, beq_self_eq_true] at hhead
        obtain ⟨r, rfl⟩ := List.head?_eq_some_iff.1 (beq_iff_eq.1 hhead.symm)
        exact hno r hc rfl
      rw [h.ascii c hlt, List.singleton_append, commentLength_cons hnext, List.length_singleton, Nat.add_comm]
    · exact commentLength_beyond (h.beyond c hge) _

theorem operandNext_spell (before : List Char) : operandNext (spellBack f before) = operandNext before := by
  have hback : spellBack f before = spell (fun c => (f c).reverse) before := rfl
  unfold operandNext
  rw [hback, h.back.dropWhile_ascii fun d => isAsciiSpace_beyond]
  cases before.dropWhile isAsciiSpace with
  | nil => rfl
  | cons c r =>
    rcases Nat.lt_or_ge c.toNat 128 with hlt | hge
    · have hword := h.back.takeWhile_ascii (fun d => isScriptWord_beyond) (c :: r)
      rw [spell_cons, h.back.ascii c hlt, List.singleton_append] at hword ⊢
      simp only [hword]
    · obtain ⟨d, k, hd⟩ := List.exists_cons_of_ne_nil (h.back.ne_nil c)
      have hbeyond := h.back.beyond c hge d (by simp [hd])
      rw [spell_cons, hd]
      simp [beq_beyond hge, beq_beyond hbeyond, isScriptWord_beyond hge, isScriptWord_beyond hbeyond]

theorem opensElement_spell (before rest : List Char) :
    opensElement (spellBack f before) (spell f rest) = opensElement before rest := by
  rw [opensElement_eq, opensElement_eq, h.operandNext_spell, h.head?_any _ fun d hd => by
    simp [isLatin_beyond hd, beq_beyond hd]]

end Spelling

/-! ### One step in a spelling -/

/-- A step in front of `r` and the step in front of its spelling: they go on in the same modes and over as much of the
text, or both past its end, and with the same content. -/
structure Respells (f : Char → List Char) (r : List Char) (t u : LexStep) : Prop where
  modes : u.modes = t.modes
  width : t.width ≤ r.length + 1 ∧ u.width = (spell f (r.take (t.width - 1))).length + 1 ∨
    r.length + 1 < t.width ∧ (spell f r).length + 1 < u.width
  content : t.content = none ∧ u.content = none ∨ ∃ n ≤ r.length,
    t.content = some ⟨1, n + 1⟩ ∧ u.content = some ⟨1, (spell f (r.take n)).length + 1⟩

/-- A string that does not end with the text ends with its quote or a line end. -/
theorem exists_end_of_stringLength_lt {quote : Char} (hlt : stringLength quote s < s.length) :
    ∃ x r, s.drop (stringLength quote s) = x :: r ∧ (x = quote ∨ x = '\n') := by
  fun_induction stringLength quote s with
  | case1 => exact absurd hlt (Nat.lt_irrefl 0)
  | case2 => exact absurd hlt (Nat.lt_irrefl 1)
  | case3 d s ih => exact ih (by simpa using hlt)
  | case4 c s hlast hpair hend =>
    refine ⟨c, s, rfl, ?_⟩
    simp only [Bool.or_eq_true, beq_iff_eq, Bool.and_eq_true] at hend
    exact hend.imp_right And.left
  | case5 c s hlast hpair hend ih => exact ih (by simpa using hlt)

namespace Respells
variable {mode : Mode} {below modes : List Mode}

theorem one (modes : List Mode) : Respells f r ⟨1, modes, none⟩ ⟨1, modes, none⟩ :=
  ⟨rfl, .inl ⟨by simp, by simp⟩, .inl ⟨rfl, rfl⟩⟩

theorem two (h : Spelling f) (hx : x.toNat < 128) (hr : r.head? = some x) (modes : List Mode) :
    Respells f r ⟨2, modes, none⟩ ⟨2, modes, none⟩ := by
  obtain ⟨r, rfl⟩ := List.head?_eq_some_iff.1 hr
  exact ⟨rfl, .inl ⟨by simp, by simp [h.ascii x hx]⟩, .inl ⟨rfl, rfl⟩⟩

theorem string (h : Spelling f) {quote : Char} (hq : quote.toNat < 128) (modes : List Mode) :
    Respells f r (.string (stringLength quote r) modes) (.string (stringLength quote (spell f r)) modes) := by
  have hle := stringLength_le quote r
  refine ⟨rfl, ?_, .inr ⟨_, hle, rfl, by rw [h.stringLength_spell hq]; rfl⟩⟩
  simp only [LexStep.string, h.stringLength_spell hq]
  rcases Nat.lt_or_ge (stringLength quote r) r.length with hlt | hge
  · -- What ends the string is in ASCII.
    obtain ⟨x, r', hx, hend⟩ := exists_end_of_stringLength_lt hlt
    have hascii : x.toNat < 128 := by
      rcases hend with rfl | rfl
      · exact hq
      · decide
    have htake : r.take (stringLength quote r + 1) = r.take (stringLength quote r) ++ [x] := by
      rw [List.take_add, hx]
      rfl
    refine .inl ⟨by omega, ?_⟩
    rw [show stringLength quote r + 2 - 1 = stringLength quote r + 1 from rfl, htake, spell_append, List.length_append,
      spell_cons, h.ascii x hascii]
    simp
  · refine .inr ⟨by omega, ?_⟩
    rw [List.take_of_length_le hge]
    omega

theorem lineComment (h : Spelling f) (modes : List Mode) :
    Respells f r ⟨1 + (r.takeWhile (· != '\n')).length, modes, none⟩
      ⟨1 + ((spell f r).takeWhile (· != '\n')).length, modes, none⟩ := by
  have hle : (r.takeWhile (· != '\n')).length ≤ r.length := (List.takeWhile_prefix _).length_le
  have htake : r.take (1 + (r.takeWhile (· != '\n')).length - 1) = r.takeWhile (· != '\n') := by
    rw [Nat.add_sub_cancel_left]
    exact (List.prefix_iff_eq_take.1 (List.takeWhile_prefix _)).symm
  exact ⟨rfl, .inl ⟨by simp only; omega, by rw [htake, h.takeWhile_ne (by decide), Nat.add_comm]⟩, .inl ⟨rfl, rfl⟩⟩

theorem blockComment (h : Spelling f) (hr : r.head? = some '*') (modes : List Mode) :
    Respells f r ⟨2 + commentLength r.tail, modes, none⟩ ⟨2 + commentLength (spell f r).tail, modes, none⟩ := by
  obtain ⟨r, rfl⟩ := List.head?_eq_some_iff.1 hr
  have hstar : f '*' = ['*'] := h.ascii _ (by decide)
  have hle : commentLength r ≤ r.length := by
    fun_induction commentLength r <;> simp_all
  refine ⟨rfl, .inl ⟨by simp only [List.tail_cons, List.length_cons]; omega, ?_⟩, .inl ⟨rfl, rfl⟩⟩
  have htwo : 2 + commentLength r - 1 = commentLength r + 1 := by omega
  simp only [List.tail_cons, htwo, List.take_succ_cons, spell_cons, hstar, List.singleton_append,
    h.commentLength_spell r, List.length_cons]
  omega

end Respells

/-- **A character of ASCII begins the same step in every spelling of what is before and behind it.** -/
theorem respells_step (h : Spelling f) (hc : c.toNat < 128) (mode : Mode) (below : List Mode) :
    Respells f r (lexStep mode below before c r) (lexStep mode below (spellBack f before) c (spell f r)) := by
  have hslash := h.head?_beq (x := '/') (by decide) r
  have hstar := h.head?_beq (x := '*') (by decide) r
  have hclose := h.head?_beq (x := '>') (by decide) r
  cases mode with
  | code braces =>
    simp only [lexStep, hslash, hstar, h.opensElement_spell]
    split_ifs with hquote hline hblock
    · exact .string h hc _
    · exact .lineComment h _
    · exact .blockComment h (by simpa using (Bool.and_eq_true_iff.1 hblock).2) _
    all_goals exact .one _
  | tag closing =>
    simp only [lexStep, hclose]
    split_ifs with hquote hopen hend
    · exact .string h hc _
    · exact .one _
    · exact .two (x := '>') h (by decide) (by simpa using (Bool.and_eq_true_iff.1 hend).2) _
    all_goals exact .one _
  | children =>
    simp only [lexStep, hslash]
    split_ifs with hopen htag hend
    · exact .one _
    · exact .two (x := '/') h (by decide) (by simpa using hend) _
    all_goals exact .one _

/-- In code and in tags a character beyond ASCII means nothing. -/
theorem lexStep_beyond {mode : Mode} (hmode : mode ≠ .children) (hc : 128 ≤ c.toNat) (below : List Mode) :
    lexStep mode below before c r = ⟨1, mode :: below, none⟩ := by
  cases mode with
  | code braces => simp [lexStep, beq_beyond hc]
  | tag closing => simp [lexStep, beq_beyond hc]
  | children => exact absurd rfl hmode

/-! ### Spans in a spelling -/

/-- A place of the text in its spelling. -/
def place (f : Char → List Char) (s : List Char) (i : Nat) : Nat := (spell f (s.take i)).length

/-- A span of the text in its spelling. -/
def Span.spelled (f : Char → List Char) (s : List Char) (t : Span) : Span := ⟨place f s t.start, place f s t.stop⟩

/-- Spans of a text and spans of its spelling: these are the former and perhaps some that are blank in the text. -/
inductive Carries (f : Char → List Char) (s : List Char) : List Span → List Span → Prop
  | nil : Carries f s [] []
  | span (t : Span) {ts us : List Span} (rest : Carries f s ts us) : Carries f s (t :: ts) (t.spelled f s :: us)
  | blank (t : Span) {ts us : List Span} (blank : Blank (t.text s)) (rest : Carries f s ts us) :
      Carries f s ts (t.spelled f s :: us)

namespace Carries
variable {ts us ts' us' : List Span}

theorem append (h : Carries f s ts us) (h' : Carries f s ts' us') : Carries f s (ts ++ ts') (us ++ us') := by
  induction h with
  | nil => exact h'
  | span t _ ih => exact ih.span t
  | blank t hblank _ ih => exact ih.blank t hblank

theorem sublist (h : Carries f s ts us) : (ts.map (·.spelled f s)).Sublist us := by
  induction h with
  | nil => exact .slnil
  | span t _ ih => exact ih.cons_cons _
  | blank t _ _ ih => exact ih.cons _

theorem exists_of_mem (h : Carries f s ts us) :
    ∀ u ∈ us, ∃ t : Span, u = t.spelled f s ∧ (t ∈ ts ∨ Blank (t.text s)) := by
  induction h with
  | nil => exact fun _ hu => absurd hu List.not_mem_nil
  | span t _ ih =>
    refine List.forall_mem_cons.2 ⟨⟨t, rfl, .inl List.mem_cons_self⟩, fun u hu => ?_⟩
    obtain ⟨t', ht', hin⟩ := ih u hu
    exact ⟨t', ht', hin.imp_left (List.mem_cons_of_mem _)⟩
  | blank t hblank _ ih => exact List.forall_mem_cons.2 ⟨⟨t, rfl, .inr hblank⟩, ih⟩

end Carries

theorem place_append {n : Nat} (hn : n ≤ s.length) (r : List Char) : place f (s ++ r) n = place f s n := by
  rw [place, List.take_append_of_le_length hn, place]

theorem place_length_append (s r : List Char) (n : Nat) :
    place f (s ++ r) (s.length + n) = (spell f s).length + place f r n := by
  rw [place, List.take_length_add_append, spell_append, List.length_append, place]

/-- A run of the text and the run of its spelling. Behind these characters the former is blank as far as it is not
inked, and the latter may be inked. -/
inductive SameRun (f : Char → List Char) (before : List Char) : Option TextRun → Option TextRun → Prop
  | idle : SameRun f before none none
  | going {a : Nat} {i j : Bool} (hle : a ≤ before.length) (inked : i = true → j = true)
      (blank : i = false → Blank (before.reverse.drop a)) :
      SameRun f before (some ⟨a, i⟩) (some ⟨place f before.reverse a, j⟩)

theorem SameRun.carries {run run' : Option TextRun} (h : SameRun f before run run') (rest : List Char) :
    Carries f (before.reverse ++ rest) (TextRun.spans before.length run)
      (TextRun.spans (spell f before.reverse).length run') := by
  cases h with
  | idle => exact .nil
  | @going a i j hle inked blank =>
    have hspelled : (⟨place f before.reverse a, (spell f before.reverse).length⟩ : Span) =
        Span.spelled f (before.reverse ++ rest) ⟨a, before.length⟩ := by
      have hstop := place_length_append (f := f) before.reverse rest 0
      rw [List.length_reverse] at hstop
      rw [Span.spelled, place_append (by simpa using hle), show before.length = before.length + 0 from rfl, hstop]
      rfl
    cases i with
    | true =>
      rw [inked rfl]
      simp only [TextRun.spans, hspelled]
      exact Carries.nil.span _
    | false =>
      cases j with
      | false => exact .nil
      | true =>
        simp only [TextRun.spans, hspelled]
        refine Carries.nil.blank _ ?_
        simpa [Span.text] using blank rfl

/-- The run with the characters `ds` at `pos` and behind it added. -/
def TextRun.addAll (pos : Nat) (ds : List Char) (run : Option TextRun) : TextRun :=
  ⟨(run.map (·.start)).getD pos, run.any (·.inked) || ds.any (!Text.isSpace ·)⟩

section Passing
variable {mode : Mode} {below : List Mode} {pos : Nat} {run : Option TextRun} {ds : List Char}

/-- Markup text is passed as one part of a run. -/
theorem spansFrom_addAll (hne : ds ≠ []) (hmarks : ∀ d ∈ ds, d ≠ '{' ∧ d ≠ '<') :
    spansFrom (.children :: below) before pos run (ds ++ r) =
      spansFrom (.children :: below) (ds.reverse ++ before) (pos + ds.length) (some (TextRun.addAll pos ds run)) r := by
  obtain ⟨d, ds, rfl⟩ := List.exists_cons_of_ne_nil hne
  obtain ⟨hd, hmarks⟩ := List.forall_mem_cons.1 hmarks
  have hrun : TextRun.add pos d run = ⟨(run.map (·.start)).getD pos, run.any (·.inked) || !Text.isSpace d⟩ := by
    cases run <;> rfl
  rw [List.cons_append, spansFrom, if_pos ⟨rfl, hd⟩, hrun, spansFrom_run hmarks]
  simp [TextRun.addAll, Bool.or_assoc, Nat.add_assoc, Nat.add_comm 1]

/-- In code and in tags characters beyond ASCII are passed one by one. -/
theorem spansFrom_beyond (hmode : mode ≠ .children) (hne : ds ≠ []) (hds : ∀ d ∈ ds, 128 ≤ d.toNat) :
    spansFrom (mode :: below) before pos run (ds ++ r) =
      TextRun.spans pos run ++ spansFrom (mode :: below) (ds.reverse ++ before) (pos + ds.length) none r := by
  induction ds generalizing before pos run with
  | nil => exact absurd rfl hne
  | cons d ds ih =>
    obtain ⟨hd, hds⟩ := List.forall_mem_cons.1 hds
    rw [List.cons_append, spansFrom, if_neg fun hin => hmode hin.1, lexStep_beyond hmode hd]
    cases ds with
    | nil => simp
    | cons e ds =>
      have hrest := @ih (d :: before) (pos + 1) none (List.cons_ne_nil e ds) hds
      simp only [Nat.sub_self, List.take_zero, List.drop_zero, List.reverse_nil, List.nil_append, List.append_nil,
        hrest]
      simp [TextRun.spans, Nat.add_assoc, Nat.add_comm 1]

end Passing

theorem SameRun.text {run run' : Option TextRun} (h : Spelling f) (hrun : SameRun f before run run') (c : Char) :
    SameRun f (c :: before) (some (TextRun.addAll before.length [c] run))
      (some (TextRun.addAll (spell f before.reverse).length (f c) run')) := by
  have hinked (hc : (!Text.isSpace c) = true) : (f c).any (!Text.isSpace ·) = true := by
    obtain ⟨d, hd, hink⟩ := h.exists_inked (c := c) (by simpa using hc)
    exact List.any_eq_true.2 ⟨d, hd, by simp [hink]⟩
  have hplace {a : Nat} (hle : a ≤ before.length) : place f (c :: before).reverse a = place f before.reverse a := by
    rw [List.reverse_cons, place_append (by simpa using hle)]
  cases hrun with
  | idle =>
    have hstart : (spell f before.reverse).length = place f (c :: before).reverse before.length := by
      rw [hplace (Nat.le_refl _), place, List.take_of_length_le (by simp)]
    simp only [TextRun.addAll, Option.map_none, Option.getD_none, Option.any_none, Bool.false_or, List.any_cons,
      List.any_nil, Bool.or_false]
    rw [hstart]
    refine .going (Nat.le_succ _) hinked fun hc d hd => ?_
    have hlast : d = c := by simpa using hd
    rw [hlast]
    simpa using hc
  | @going a i j hle inked blank =>
    simp only [TextRun.addAll, Option.map_some, Option.getD_some, Option.any_some, List.any_cons, List.any_nil,
      Bool.or_false]
    rw [← hplace hle]
    refine .going (Nat.le_succ_of_le hle) (fun hi => ?_) fun hi => ?_
    · rcases Bool.or_eq_true_iff.1 hi with hi | hc
      · simp [inked hi]
      · simp [hinked hc]
    · obtain ⟨hi, hc⟩ := Bool.or_eq_false_iff.1 hi
      rw [List.reverse_cons, List.drop_append_of_le_length (by simpa using hle)]
      exact (blank hi).append fun d hd => by
        rw [List.mem_singleton.1 hd]
        simpa using hc

/-- The content of a step in its place. -/
theorem Respells.carries {t u : LexStep} (h : Spelling f) (hstep : Respells f r t u) (hc : c.toNat < 128) :
    Carries f (before.reverse ++ c :: r) (t.spans before.length) (u.spans (spell f before.reverse).length) := by
  rcases hstep.content with ⟨ht, hu⟩ | ⟨n, hn, ht, hu⟩
  · simp only [LexStep.spans, ht, hu]
    exact .nil
  · simp only [LexStep.spans, ht, hu]
    rcases Nat.eq_zero_or_pos n with rfl | hpos
    · simpa using Carries.nil
    · have hlength := h.length_spell_pos hpos hn
      rw [if_pos (by omega), if_pos (by omega)]
      have hplace (k : Nat) : place f (before.reverse ++ c :: r) (before.length + (k + 1)) =
          (spell f before.reverse).length + ((spell f (r.take k)).length + 1) := by
        have hrest := place_length_append (f := f) before.reverse (c :: r) (k + 1)
        rw [List.length_reverse] at hrest
        rw [hrest, place, List.take_succ_cons, spell_cons, h.ascii c hc, List.length_append, List.length_singleton,
          Nat.add_comm 1]
      have hspan : Span.spelled f (before.reverse ++ c :: r) ⟨before.length + 1, before.length + (n + 1)⟩ =
          ⟨(spell f before.reverse).length + 1,
            (spell f before.reverse).length + ((spell f (r.take n)).length + 1)⟩ := by
        rw [Span.spelled, hplace n, show before.length + 1 = before.length + (0 + 1) from rfl, hplace 0]
        rfl
      rw [← hspan]
      exact Carries.nil.span _

/-- Where the lexer stands in a text and in its spelling: at the same place with the same run, or at the end of both. -/
inductive Meets (f : Char → List Char) (before rest : List Char) : Nat → Option TextRun → Nat → Option TextRun → Prop
  | here {run run' : Option TextRun} (hrun : SameRun f before run run') :
      Meets f before rest before.length run (spell f before.reverse).length run'
  | atEnd {pos pos' : Nat} (hrest : rest = []) : Meets f before rest pos none pos' none

/-- The two steps read the same. -/
theorem Respells.reads {t u : LexStep} (hstep : Respells f r t u) :
    (spell f r).take (u.width - 1) = spell f (r.take (t.width - 1)) ∧
      (spell f r).drop (u.width - 1) = spell f (r.drop (t.width - 1)) := by
  rcases hstep.width with ⟨-, hu⟩ | ⟨ht, hu⟩
  · rw [hu, Nat.add_sub_cancel, take_spell, drop_spell]
    exact ⟨rfl, rfl⟩
  · rw [List.take_of_length_le (by omega), List.take_of_length_le (by omega), List.drop_eq_nil_of_le (by omega),
      List.drop_eq_nil_of_le (by omega)]
    exact ⟨rfl, rfl⟩

theorem Respells.meets {t u : LexStep} (before : List Char) (h : Spelling f) (hstep : Respells f r t u)
    (hc : c.toNat < 128) (hpos : 0 < t.width) :
    Meets f ((r.take (t.width - 1)).reverse ++ c :: before) (r.drop (t.width - 1)) (before.length + t.width) none
      ((spell f before.reverse).length + u.width) none := by
  rcases hstep.width with ⟨ht, hu⟩ | ⟨ht, -⟩
  · have hlength : before.length + t.width = ((r.take (t.width - 1)).reverse ++ c :: before).length := by
      simp only [List.length_append, List.length_reverse, List.length_take, List.length_cons]
      omega
    have hspelled : (spell f before.reverse).length + u.width =
        (spell f ((r.take (t.width - 1)).reverse ++ c :: before).reverse).length := by
      simp [hu, h.ascii c hc, Nat.add_comm]
    rw [hlength, hspelled]
    exact .here .idle
  · exact .atEnd (List.drop_eq_nil_of_le (by omega))

/-- From places that meet, behind and in front of these texts, the lexer finds the same spans. -/
def CarriesOn (f : Char → List Char) (before rest : List Char) : Prop :=
  ∀ (modes : List Mode) {pos pos' : Nat} {run run' : Option TextRun}, Meets f before rest pos run pos' run' →
    Carries f (before.reverse ++ rest) (spansFrom modes before pos run rest)
      (spansFrom modes (spellBack f before) pos' run' (spell f rest))

section CarriesOn
variable {mode : Mode} {below : List Mode} {run run' : Option TextRun}
  (h : Spelling f) (hrun : SameRun f before run run')
include h hrun

theorem carries_text (hgo : CarriesOn f (c :: before) r) (hc : c ≠ '{' ∧ c ≠ '<') :
    Carries f (before.reverse ++ c :: r) (spansFrom (.children :: below) before before.length run (c :: r))
      (spansFrom (.children :: below) (spellBack f before) (spell f before.reverse).length run'
        (f c ++ spell f r)) := by
  have hmarks : ∀ d ∈ f c, d ≠ '{' ∧ d ≠ '<' := fun d hd =>
    ⟨h.ne_of_mem (by decide) hc.1 d hd, h.ne_of_mem (by decide) hc.2 d hd⟩
  have hone : spansFrom (.children :: below) before before.length run ([c] ++ r) = _ :=
    spansFrom_addAll (List.cons_ne_nil c []) (by simpa using hc)
  have hrest := hgo (.children :: below) (.here (hrun.text h c))
  rw [List.singleton_append] at hone
  rw [hone, spansFrom_addAll (h.ne_nil c) hmarks]
  simpa [spellBack] using hrest

theorem carries_beyond (hgo : CarriesOn f (c :: before) r) (hmode : mode ≠ .children) (hc : 128 ≤ c.toNat) :
    Carries f (before.reverse ++ c :: r) (spansFrom (mode :: below) before before.length run (c :: r))
      (spansFrom (mode :: below) (spellBack f before) (spell f before.reverse).length run' (f c ++ spell f r)) := by
  have hone : spansFrom (mode :: below) before before.length run ([c] ++ r) = _ :=
    spansFrom_beyond hmode (List.cons_ne_nil c []) (by simpa using hc)
  have hrest := hgo (mode :: below) (.here .idle)
  rw [List.singleton_append] at hone
  rw [hone, spansFrom_beyond hmode (h.ne_nil c) (h.beyond c hc)]
  refine (hrun.carries (c :: r)).append ?_
  simpa [spellBack] using hrest

theorem carries_step (hc : c.toNat < 128) (htext : ¬(mode = .children ∧ c ≠ '{' ∧ c ≠ '<'))
    (hgo : ∀ n, CarriesOn f ((r.take n).reverse ++ c :: before) (r.drop n)) :
    Carries f (before.reverse ++ c :: r) (spansFrom (mode :: below) before before.length run (c :: r))
      (spansFrom (mode :: below) (spellBack f before) (spell f before.reverse).length run' (f c ++ spell f r)) := by
  have hstep : Respells f r (lexStep mode below before c r) (lexStep mode below (spellBack f before) c (spell f r)) :=
    respells_step h hc mode below
  have hturn := Turn.spans (l := ⟨mode :: below, before, before.length, run, c :: r⟩) (.step htext rfl)
  have hturn' := Turn.spans
    (l := ⟨mode :: below, spellBack f before, (spell f before.reverse).length, run', c :: spell f r⟩) (.step htext rfl)
  simp only [Stand.spans] at hturn hturn'
  rw [h.ascii c hc, List.singleton_append, hturn, hturn', hstep.modes]
  refine ((hrun.carries (c :: r)).append (hstep.carries h hc)).append ?_
  have hmeets := hstep.meets before h hc lexStep_width_pos
  obtain ⟨htake, hdrop⟩ := hstep.reads
  rw [htake, hdrop]
  generalize lexStep mode below before c r = t at *
  have hrest := hgo (t.width - 1) t.modes hmeets
  simpa [spellBack_eq, h.ascii c hc] using hrest

end CarriesOn

/-- **From places that meet, the lexer finds the same spans in a text and in its spelling**, but for text that is
blank. -/
theorem carries_spansFrom (h : Spelling f) (before rest : List Char) : CarriesOn f before rest := by
  -- on the length of what is to come, as a step may read many characters
  induction hn : rest.length using Nat.strongRecOn generalizing before rest with
  | ind n ih =>
    intro modes pos pos' run run' hmeets
    cases rest with
    | nil =>
      rw [spell_nil, spansFrom, spansFrom]
      cases hmeets with
      | here hrun => exact hrun.carries []
      | atEnd => exact .nil
    | cons c r =>
      rw [List.length_cons] at hn
      have hgo (k : Nat) : CarriesOn f ((r.take k).reverse ++ c :: before) (r.drop k) :=
        ih _ (by rw [← hn, List.length_drop]; omega) _ _ rfl
      cases hmeets with
      | atEnd hrest => exact absurd hrest (List.cons_ne_nil c r)
      | here hrun =>
        cases modes with
        | nil =>
          obtain ⟨d, k, hd⟩ := List.exists_cons_of_ne_nil (h.ne_nil c)
          rw [spell_cons, hd, List.cons_append, spansFrom, spansFrom]
          exact .nil
        | cons mode below =>
          by_cases htext : mode = .children ∧ c ≠ '{' ∧ c ≠ '<'
          · obtain ⟨rfl, hc⟩ := htext
            exact carries_text h hrun (hgo 0) hc
          · rcases Nat.lt_or_ge c.toNat 128 with hc | hc
            · exact carries_step h hrun hc htext hgo
            · have hmode : mode ≠ .children := by
                rintro rfl
                refine htext ⟨rfl, ?_, ?_⟩ <;> rintro rfl <;> exact absurd hc (by decide)
              exact carries_beyond h hrun (hgo 0) hmode hc

/-- **The lexer finds the spans of a text in every spelling of it**, but for text that is blank. -/
theorem carries_literalSpans (h : Spelling f) (s : List Char) :
    Carries f s (literalSpans s) (literalSpans (spell f s)) := by
  have hmeets : Meets f [] s 0 none 0 none := .here .idle
  exact carries_spansFrom h [] s _ hmeets

end Spelling

/-! ### Bytes -/

/-- The bytes of a character, each as the character of its number. -/
def octets (c : Char) : List Char := (String.utf8EncodeChar c).map fun b => Char.ofNat b.toNat

theorem toNat_octet (b : UInt8) : (Char.ofNat b.toNat).toNat = b.toNat := by
  have hlt := b.toNat_lt
  rw [Char.ofNat, dif_pos (.inl (by omega))]
  rfl

/-- The bytes that begin a character beyond ASCII are no white space. -/
theorem not_isSpace_leading (hlow : 0xC0 ≤ c.toNat) (hhigh : c.toNat < 256) : Text.isSpace c = false := by
  simp only [Text.isSpace, Bool.or_eq_false_iff, Bool.and_eq_false_iff, decide_eq_false_iff_not, beq_eq_false_iff_ne]
  omega

/-- **The bytes of UTF-8 are a spelling.** -/
theorem spelling_octets : Spelling octets where
  ascii c hc := by
    have hv : c.val.toNat ≤ 0x7f := Nat.le_of_lt_succ hc
    simp only [octets, String.utf8EncodeChar, hv, if_true, List.map_cons, List.map_nil]
    rw [UInt8.toNat_ofNat_of_lt' (show c.val.toNat < UInt8.size from Nat.lt_of_lt_of_le hc (by decide))]
    exact congrArg ([·]) (Char.ofNat_toNat c)
  beyond c hc d hd := by
    have hv : ¬ c.val.toNat ≤ 0x7f := Nat.not_le_of_lt hc
    obtain ⟨b, hb, rfl⟩ := List.mem_map.1 hd
    rw [toNat_octet]
    simp only [String.utf8EncodeChar, hv, if_false] at hb
    split_ifs at hb <;> simp only [List.mem_cons, List.not_mem_nil, or_false] at hb <;>
      rcases hb with rfl | rfl | rfl | rfl
    all_goals
      rw [UInt8.toNat_ofNat']
      omega
  inked c hc := by
    have hv : ¬ c.val.toNat ≤ 0x7f := Nat.not_le_of_lt hc
    have hleading (n : Nat) (hn : 0xC0 ≤ n) (hlt : n < 256) :
        Text.isSpace (Char.ofNat (UInt8.ofNat n).toNat) = false := by
      have hnat : (Char.ofNat (UInt8.ofNat n).toNat).toNat = n := by rw [toNat_octet, UInt8.toNat_ofNat_of_lt' hlt]
      exact not_isSpace_leading (by omega) (by omega)
    simp only [octets, String.utf8EncodeChar, hv, if_false]
    split_ifs
    all_goals exact ⟨_, List.mem_cons_self, hleading _ (by omega) (by omega)⟩

theorem length_spell_octets (s : List Char) : (spell octets s).length = (String.ofList s).utf8ByteSize := by
  rw [← String.size_toByteArray, String.toByteArray_ofList, List.utf8Encode, List.size_toByteArray, spell,
    List.length_flatMap, List.length_flatMap]
  simp [octets]

/-- A range of bytes of a text that is not empty, with its ends between characters. -/
structure Cuts (s : List Char) (u : Span) : Prop where
  ne_empty : u.start < u.stop
  within : u.stop ≤ (String.ofList s).utf8ByteSize
  start_valid : (⟨u.start⟩ : String.Pos.Raw).IsValid (String.ofList s)
  stop_valid : (⟨u.stop⟩ : String.Pos.Raw).IsValid (String.ofList s)

theorem isValid_place (s : List Char) (i : Nat) : (⟨place octets s i⟩ : String.Pos.Raw).IsValid (String.ofList s) :=
  String.Pos.Raw.isValid_ofList.2 ⟨i, length_spell_octets _⟩

/-- **The lexer cuts no character**: what it finds in the bytes of a text begins and ends between characters. -/
theorem cuts_octets (s : List Char) : ∀ u ∈ literalSpans (spell octets s), Cuts s u := by
  intro u hu
  obtain ⟨t, rfl, -⟩ := (carries_literalSpans spelling_octets s).exists_of_mem u hu
  have hwithin := within_literalSpans _ _ hu
  rw [Within, length_spell_octets] at hwithin
  exact ⟨((inOrder_literalSpans _).bounds _ hu).2, hwithin, isValid_place s _, isValid_place s _⟩

end LivePreview.Source
