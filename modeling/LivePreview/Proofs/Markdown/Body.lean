import Mathlib.Data.List.TakeWhile
import LivePreview.Markdown.Fenced

/-! The body of a fenced block.

Between its fences a block is read line by line, and a line is looked at for one thing only: whether it closes the
block. What a line would mean elsewhere has no say in it, so that a body of lines that do not close it comes out as it
was put in. -/
namespace LivePreview.Markdown

/-! ### Lines -/

/-- Lines with a line feed at the end of each. -/
def joinLines (lines : List (List Char)) : List Char := lines.flatMap (· ++ ['\n'])

@[simp]
theorem joinLines_nil : joinLines [] = [] := rfl

@[simp]
theorem joinLines_cons (line : List Char) (lines : List (List Char)) :
    joinLines (line :: lines) = line ++ '\n' :: joinLines lines := by
  simp [joinLines, List.append_assoc]

theorem length_le_joinLines (lines : List (List Char)) : lines.length ≤ (joinLines lines).length := by
  induction lines with
  | nil => exact Nat.zero_le _
  | cons line lines ih => simp only [joinLines_cons, List.length_append, List.length_cons]; omega

/-- A text that is empty or ends with a line feed is made of lines. -/
theorem exists_joinLines {s : List Char} (h : s = [] ∨ s.getLast? = some '\n') :
    ∃ lines, joinLines lines = s ∧ s.splitOn '\n' = lines ++ [[]] ∧ ∀ line ∈ lines, '\n' ∉ line := by
  induction s with
  | nil => exact ⟨[], rfl, List.splitOn_nil _, by simp⟩
  | cons c s ih =>
    replace h : (c :: s).getLast? = some '\n' := h.resolve_left (List.cons_ne_nil c s)
    have hs : s = [] ∨ s.getLast? = some '\n' := by
      cases s with
      | nil => exact .inl rfl
      | cons d s => exact .inr (List.getLast?_cons_cons.symm.trans h)
    obtain ⟨lines, hjoin, hsplit, hlines⟩ := ih hs
    rw [List.splitOn_cons_eq_if_modifyHead, hsplit]
    by_cases hc : c = '\n'
    · subst hc
      exact ⟨[] :: lines, by simp [hjoin], by simp, by simpa using hlines⟩
    · cases lines with
      | nil =>
        subst hjoin
        exact absurd (Option.some.inj h) hc
      | cons line lines =>
        rw [if_neg (by simpa using hc)]
        exact ⟨(c :: line) :: lines, by simp [← hjoin], rfl,
          by simpa [eq_comm (a := '\n'), hc] using hlines⟩

theorem rawLine_append {line : List Char} (h : '\n' ∉ line) (r : List Char) :
    rawLine (line ++ '\n' :: r) = (line ++ ['\n'], r) := by
  induction line with
  | nil => rfl
  | cons c line ih =>
    obtain ⟨hc, hline⟩ := not_or.1 (mt List.mem_cons.2 h)
    rw [List.cons_append, rawLine, ih hline]
    · rfl
    · exact fun hn => hc hn.symm

/-- Without carriage returns a line stays as it is. -/
theorem bodyLine_eq {s : List Char} (h : '\r' ∉ s) : bodyLine s = s := by
  unfold bodyLine
  split
  · next last r hs => exact absurd (List.mem_reverse.1 (hs ▸ by simp)) h
  · rfl

/-! ### Columns -/

/-- White space up to the next multiple of four columns: when it falls short it is of spaces. -/
theorem takeFrom_eq {n : Nat} (hn : n ≤ 4) (s : List Char) : (Lead.takeFrom s (4 - n) n).1 = 0 ∨
    ∃ k < n, s = List.replicate k ' ' ++ (Lead.takeFrom s (4 - n) n).2.rest := by
  induction n generalizing s with
  | zero => exact .inl (by rw [Lead.takeFrom])
  | succ n ih =>
    have hcolumn : 4 - (n + 1) + 1 = 4 - n := by omega
    rw [Lead.takeFrom.eq_def]
    split
    · simp_all
    · next r m hm =>
      obtain rfl : m = n := by omega
      rw [hcolumn]
      refine (ih (by omega) r).imp_right fun ⟨k, hk, hr⟩ => ⟨k + 1, by omega, ?_⟩
      rw [List.replicate_succ, List.cons_append, ← hr]
    · next r m hm =>
      -- A tab fills up all that is left.
      obtain rfl : m = n := by omega
      have hwidth : 4 - (4 - (m + 1)) % 4 = m + 1 := by omega
      refine .inl ?_
      show (if 4 - (4 - (m + 1)) % 4 ≤ m + 1 then Lead.takeFrom r 0 (m + 1 - (4 - (4 - (m + 1)) % 4)) else _).1 = 0
      rw [hwidth, if_pos (Nat.le_refl _), Nat.sub_self, Lead.takeFrom]
    · exact .inr ⟨0, by omega, rfl⟩

/-! ### Closing lines -/

/-- A line that starts, after at most three spaces, with three backticks. -/
def Closes (line : List Char) : Prop := ∃ n ≤ 3, List.replicate n ' ' ++ "```".toList <+: line

instance (line : List Char) : Decidable (Closes line) :=
  inferInstanceAs (Decidable (∃ n ≤ 3, List.replicate n ' ' ++ "```".toList <+: line))

/-- The text of a closing fence on a line of its own. -/
def closingLine : List Char := "```\n".toList

theorem three_marks {s : List Char} (h : 3 ≤ (s.takeWhile (· == '`')).length) : "```".toList <+: s := by
  have hmarks : s.takeWhile (· == '`') = List.replicate (s.takeWhile (· == '`')).length '`' :=
    List.eq_replicate_of_mem fun c hc => by simpa using List.mem_takeWhile_imp hc
  refine .trans ?_ (List.takeWhile_prefix (· == '`'))
  rw [hmarks]
  exact ⟨List.replicate ((s.takeWhile (· == '`')).length - 3) '`', by
    rw [show "```".toList = List.replicate 3 '`' from rfl, List.replicate_append_replicate]; congr 1; omega⟩

/-- A closing fence is found on no line but one that closes. -/
theorem closingFence?_line {line r s : List Char} (hopen : ¬ Closes line) {k : Nat} (hk : k < 4)
    (hs : line ++ '\n' :: r = List.replicate k ' ' ++ s) : closingFence? '`' 3 s = none := by
  have hne : s ≠ [] := fun h => by
    have hmem : '\n' ∈ List.replicate k ' ' ++ s := hs ▸ by simp
    simp [h] at hmem
  have hfew : (s.takeWhile (· == '`')).length < 3 := by
    refine Nat.lt_of_not_le fun hmarks => hopen ⟨k, by omega, ?_⟩
    have hprefix : List.replicate k ' ' ++ "```".toList <+: line ++ '\n' :: r :=
      hs ▸ (List.prefix_append_right_inj _).2 (three_marks hmarks)
    have hmarks : '\n' ∉ List.replicate k ' ' ++ "```".toList := by simp
    rcases List.prefix_or_prefix_of_prefix hprefix (show line ++ ['\n'] <+: line ++ '\n' :: r by simp) with hp | hp
    · exact (List.prefix_concat_iff.1 hp).resolve_left fun he => hmarks (he ▸ by simp)
    · exact absurd (hp.subset (by simp)) hmarks
  rw [closingFence?, if_neg (by simpa using hne)]
  simp only [hfew, ↓reduceIte]

theorem fencedBody_closingLine (fuel : Nat) (r : List Char) :
    fencedBody [] 0 '`' 3 (fuel + 1) (closingLine ++ r) = ([], r) := rfl

/-- A line that does not close the block is a line of its body. -/
theorem fencedBody_line {line : List Char} (hline : '\n' ∉ line) (hplain : '\r' ∉ line) (hopen : ¬ Closes line)
    (fuel : Nat) (r : List Char) : fencedBody [] 0 '`' 3 (fuel + 1) (line ++ '\n' :: r) =
      (line ++ '\n' :: (fencedBody [] 0 '`' 3 fuel r).1, (fencedBody [] 0 '`' 3 fuel r).2) := by
  have hclosed : (if (Lead.takeFrom (line ++ '\n' :: r) 0 4).1 == 0 then none
      else closingFence? '`' 3 (Lead.takeFrom (line ++ '\n' :: r) 0 4).2.rest) = none := by
    rcases takeFrom_eq (Nat.le_refl 4) (line ++ '\n' :: r) with hzero | ⟨k, hk, hs⟩
    · exact if_pos (beq_iff_eq.2 hzero)
    · rw [closingFence?_line hopen hk hs, ite_self]
  have hbody : bodyLine (line ++ ['\n']) = line ++ ['\n'] := bodyLine_eq (by simp [hplain])
  have hstart : goOn ⟨line ++ '\n' :: r, 0, 0⟩ [] = ([], ⟨line ++ '\n' :: r, 0, 0⟩) := rfl
  have hindent : Lead.take ⟨line ++ '\n' :: r, 0, 0⟩ 0 = (0, ⟨line ++ '\n' :: r, 0, 0⟩) := rfl
  have hclosing : Lead.take ⟨line ++ '\n' :: r, 0, 0⟩ (4 - 0) = Lead.takeFrom (line ++ '\n' :: r) 0 4 := rfl
  rw [fencedBody]
  simp only [hstart, hindent, hclosing, hclosed, rawLine_append hline, hbody]
  simp

/-- **A body of lines that do not close it is read as it stands**, up to its closing fence. -/
theorem fencedBody_joinLines {lines : List (List Char)}
    (h : ∀ line ∈ lines, '\n' ∉ line ∧ '\r' ∉ line ∧ ¬ Closes line) {fuel : Nat} (hfuel : lines.length < fuel)
    (r : List Char) :
    fencedBody [] 0 '`' 3 fuel (joinLines lines ++ (closingLine ++ r)) = (joinLines lines, r) := by
  induction lines generalizing fuel with
  | nil =>
    obtain ⟨fuel, rfl⟩ := Nat.exists_eq_add_of_lt hfuel
    exact fencedBody_closingLine _ r
  | cons line lines ih =>
    obtain ⟨fuel, rfl⟩ : ∃ m, fuel = m + 1 := ⟨fuel - 1, by simp only [List.length_cons] at hfuel; omega⟩
    obtain ⟨⟨hline, hplain, hopen⟩, hlines⟩ := List.forall_mem_cons.1 h
    rw [joinLines_cons, List.append_assoc, List.cons_append, fencedBody_line hline hplain hopen,
      ih hlines (Nat.lt_of_succ_lt_succ hfuel)]

end LivePreview.Markdown
