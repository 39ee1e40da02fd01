import LivePreview.Proofs.Markdown.Body
import LivePreview.Proofs.Pattern.Search
import LivePreview.Proofs.Source.Markup
import LivePreview.Proofs.Source.Untyped
import LivePreview.Proofs.Source.TypeArguments
import LivePreview.Proofs.Source.Vacant
import LivePreview.Proofs.Source.Wrapping

/-! What becomes of the blank lines of a text.

A match of three or more blank lines begins at the line break before them and takes all that follow, so it goes over one
whole run of vacant inner lines (`hits_longBlank`). Replacing the matches therefore shortens the runs among the inner
lines (`replaceAll_longBlank`). Trimming takes off whole lines and white space at the sides of lines that are not
vacant, so it comes to the same before and after. -/
namespace LivePreview.Source
open Pattern
open Markdown (joinLines joinLines_cons joinLines_nil)

variable {line l first s t r : List Char} {lines run before behind : List (List Char)} {c : Char}
  {prev : Option Char} {d e : Cursor}

/-! ### Lines of a text -/

/-- Lines, each behind a line break. -/
def broken (lines : List (List Char)) : List Char := lines.flatMap ('\n' :: ·)

@[simp]
theorem broken_nil : broken [] = [] := rfl

@[simp]
theorem broken_cons (line : List Char) (lines : List (List Char)) :
    broken (line :: lines) = '\n' :: (line ++ broken lines) := rfl

@[simp]
theorem broken_append (lines rest : List (List Char)) : broken (lines ++ rest) = broken lines ++ broken rest :=
  List.flatMap_append

/-- A line break before each line is one behind each, but for the first and the last. -/
theorem broken_eq_joinLines (run : List (List Char)) (line : List Char) (rest : List (List Char)) :
    broken (run ++ line :: rest) = '\n' :: (joinLines run ++ (line ++ broken rest)) := by
  induction run with
  | nil => rfl
  | cons l run ih => rw [List.cons_append, broken_cons, ih, joinLines_cons, List.append_assoc, List.cons_append]

theorem intercalate_eq (first : List Char) (later : List (List Char)) :
    ['\n'].intercalate (first :: later) = first ++ broken later := by
  induction later generalizing first with
  | nil => rw [List.intercalate_singleton, broken_nil, List.append_nil]
  | cons l later ih => rw [List.intercalate_cons_cons, ih, broken_cons, List.append_assoc, List.singleton_append]

theorem join_lines (s : List Char) : ['\n'].intercalate (s.splitOn '\n') = s := List.intercalate_splitOn '\n'

theorem newline_not_mem_line {s : List Char} : ∀ l ∈ s.splitOn '\n', '\n' ∉ l := by
  induction s with
  | nil => simp [List.splitOn_nil]
  | cons c s ih =>
    rw [List.splitOn_cons_eq_if_modifyHead]
    split
    case isTrue => exact List.forall_mem_cons.2 ⟨List.not_mem_nil, ih⟩
    case isFalse hc =>
      cases hlines : s.splitOn '\n' with
      | nil => simp
      | cons l lines =>
        obtain ⟨hl, hmore⟩ := List.forall_mem_cons.1 (hlines ▸ ih)
        refine List.forall_mem_cons.2 ⟨List.not_mem_cons_of_ne_of_not_mem ?_ hl, hmore⟩
        exact fun he => hc (beq_iff_eq.2 he.symm)

theorem exists_lines (s : List Char) :
    ∃ first later, s.splitOn '\n' = first :: later ∧ s = first ++ broken later := by
  obtain ⟨first, later, hlines⟩ := List.exists_cons_of_ne_nil (List.splitOn_ne_nil '\n' s)
  refine ⟨first, later, hlines, ?_⟩
  rw [← intercalate_eq, ← hlines, join_lines]

/-- The last line of a text goes on with the first one of what follows it. -/
theorem splitOn_append (hs : s.splitOn '\n' = before ++ [l]) (ht : t.splitOn '\n' = first :: behind) :
    (s ++ t).splitOn '\n' = before ++ (l ++ first) :: behind := by
  have hjoin : ['\n'].intercalate (before ++ (l ++ first) :: behind) = s ++ t := by
    rw [← join_lines s, ← join_lines t, hs, ht]
    cases before with
    | nil => simp [intercalate_eq, List.append_assoc]
    | cons f before => simp [intercalate_eq, List.append_assoc]
  have hno₁ : ∀ k ∈ before ++ [l], '\n' ∉ k := hs ▸ newline_not_mem_line
  have hno₂ : ∀ k ∈ first :: behind, '\n' ∉ k := ht ▸ newline_not_mem_line
  rw [← hjoin]
  refine List.splitOn_intercalate '\n' ?_ (by simp)
  simp only [List.forall_mem_append, List.forall_mem_cons] at hno₁ hno₂ ⊢
  exact ⟨hno₁.1, by simp [hno₁.2.1, hno₂.1], hno₂.2⟩

/-! ### Matches -/

theorem newline_not_mem_of_isVacant (h : isVacant line = true) : '\n' ∉ line := by
  obtain ⟨b, hb, hline⟩ := isVacant_iff.1 h
  have hno : '\n' ∉ b := fun hn => Bool.false_ne_true (hb _ hn)
  rcases hline with rfl | rfl <;> simp [hno]

/-- A blank line of a match is a vacant line with its line break. -/
theorem blankLine_reads (h : blankLine.Reads d e) : ∃ l, isVacant l = true ∧ d.rest = l ++ '\n' :: e.rest := by
  obtain ⟨l, hl, b, hb, rfl | rfl⟩ := every_isBlankLine d e h
  · exact ⟨b, isVacant_iff.2 ⟨b, hb, .inl rfl⟩, by simpa using hl⟩
  · exact ⟨b ++ ['\r'], isVacant_iff.2 ⟨b, hb, .inr rfl⟩, by simpa using hl⟩

theorem canRead_blankLine (h : isVacant l = true) : blankLine.CanRead (l ++ ['\n']) := by
  obtain ⟨b, hb, hline⟩ := isVacant_iff.1 h
  have hblanks : blanks.CanRead b := .many hb
  rcases hline with rfl | rfl
  · have hread := (hblanks.seq (CanRead.empty.right (p := lit "\r"))).seq (.lit "\n")
    rwa [List.append_nil] at hread
  · exact (hblanks.seq (CanRead.lit "\r").left).seq (.lit "\n")

/-- No vacant line and its line break stand at the start of the text. -/
def EndsRun (t : List Char) : Prop := ∀ l r, isVacant l = true → t ≠ l ++ '\n' :: r

theorem endsRun_of_not_mem (h : '\n' ∉ t) : EndsRun t := by
  rintro l r - rfl
  simp at h

theorem endsRun_line (h : isVacant line = false) (hno : '\n' ∉ line) (r : List Char) : EndsRun (line ++ '\n' :: r) := by
  intro l r' hl heq
  obtain ⟨rfl, -⟩ := cut_line hno (newline_not_mem_of_isVacant hl) heq
  rw [h] at hl
  cases hl

/-- Vacant lines at the start of a text are the first ones of its run. -/
theorem exists_more (hlines : ∀ l ∈ lines, isVacant l = true) (hrun : ∀ l ∈ run, isVacant l = true) (ht : EndsRun t)
    (h : joinLines run ++ t = joinLines lines ++ r) : ∃ more, run = lines ++ more ∧ r = joinLines more ++ t := by
  induction lines generalizing run with
  | nil => exact ⟨run, rfl, h.symm⟩
  | cons l lines ih =>
    obtain ⟨hl, hlater⟩ := List.forall_mem_cons.1 hlines
    rw [joinLines_cons, List.append_assoc, List.cons_append] at h
    cases run with
    | nil => exact absurd h (ht l _ hl)
    | cons k run =>
      obtain ⟨hk, hbehind⟩ := List.forall_mem_cons.1 hrun
      rw [joinLines_cons, List.append_assoc, List.cons_append] at h
      obtain ⟨rfl, hrest⟩ := cut_line (newline_not_mem_of_isVacant hk) (newline_not_mem_of_isVacant hl) h
      obtain ⟨more, rfl, hr⟩ := ih hlater hbehind hrest
      exact ⟨more, rfl, hr⟩

/-- A line break and three blank lines, the least that is shortened. -/
def threeBlank : Pattern := lit "\n" ++ blankLine ++ blankLine ++ blankLine

theorem threeBlank_reads (h : threeBlank.Reads d e) :
    ∃ lines, lines.length = 3 ∧ (∀ l ∈ lines, isVacant l = true) ∧ d.rest = '\n' :: (joinLines lines ++ e.rest) := by
  cases h with
  | seq h h₃ =>
    cases h with
    | seq h h₂ =>
      cases h with
      | seq h₀ h₁ =>
        obtain ⟨n, hn, rfl⟩ := Every.lit "\n" _ _ h₀
        obtain ⟨l₁, hl₁, hrest₁⟩ := blankLine_reads h₁
        obtain ⟨l₂, hl₂, hrest₂⟩ := blankLine_reads h₂
        obtain ⟨l₃, hl₃, hrest₃⟩ := blankLine_reads h₃
        refine ⟨[l₁, l₂, l₃], rfl, by simp [hl₁, hl₂, hl₃], ?_⟩
        rw [hn, hrest₁, hrest₂, hrest₃]
        simp

theorem canRead_threeBlank (h₃ : lines.length = 3) (hlines : ∀ l ∈ lines, isVacant l = true) :
    threeBlank.CanRead ('\n' :: joinLines lines) := by
  obtain ⟨l₁, l₂, l₃, rfl⟩ := List.length_eq_three.1 h₃
  simp only [List.forall_mem_cons] at hlines
  have hread := (((CanRead.lit "\n").seq (canRead_blankLine hlines.1)).seq (canRead_blankLine hlines.2.1)).seq
    (canRead_blankLine hlines.2.2.1)
  simpa [threeBlank] using hread

theorem moreBlank_reads (h : (Pattern.star blankLine true).Reads d e) :
    ∃ lines, (∀ l ∈ lines, isVacant l = true) ∧ d.rest = joinLines lines ++ e.rest := by
  generalize hp : Pattern.star blankLine true = p at h
  induction h with
  | starNone => exact ⟨[], by simp, rfl⟩
  | starMore hline _ _ ih =>
    cases hp
    obtain ⟨l, hl, hrest⟩ := blankLine_reads hline
    obtain ⟨lines, hlines, hmore⟩ := ih rfl
    exact ⟨l :: lines, List.forall_mem_cons.2 ⟨hl, hlines⟩, by rw [hrest, hmore]; simp⟩
  | _ => cases hp

/-- A match is a line break and three or more vacant lines, behind which there is no further one. -/
theorem exists_of_endFrom (h : longBlank.endFrom prev s = some e) :
    ∃ lines, 3 ≤ lines.length ∧ (∀ l ∈ lines, isVacant l = true) ∧ s = '\n' :: (joinLines lines ++ e.rest) ∧
      EndsRun e.rest := by
  obtain ⟨d, hd, hmore⟩ := run_reads (show threeBlank.run ⟨prev, s, []⟩
    (fun d => (Pattern.star blankLine true).run d some) = some e from h)
  obtain ⟨lines, hlength, hlines, hrest⟩ := threeBlank_reads hd
  obtain ⟨e', hread, he⟩ := run_reads hmore
  obtain rfl := Option.some.inj he
  obtain ⟨more, hvacant, hbehind⟩ := moreBlank_reads hread
  refine ⟨lines ++ more, by rw [List.length_append]; omega, List.forall_mem_append.2 ⟨hlines, hvacant⟩, ?_, ?_⟩
  · rw [show s = _ from hrest, hbehind]
    simp [joinLines]
  · intro l r hl heq
    have hblank := canRead_blankLine hl e'.prev r e'.groups
    rw [List.append_assoc, List.singleton_append, ← heq] at hblank
    exact star_exhausts rfl hmore ⟨_, hblank⟩

/-- A match takes a whole run of three or more vacant lines. -/
theorem hits_longBlank (prev : Option Char) (hrun : ∀ l ∈ run, isVacant l = true) (ht : EndsRun t)
    (h₃ : 3 ≤ run.length) : ∃ e, longBlank.Hits prev ('\n' :: (joinLines run ++ t)) e ∧ e.rest = t := by
  have hfirst : ∀ l ∈ run.take 3, isVacant l = true := fun l hl => hrun l (List.mem_of_mem_take hl)
  have hsplit : '\n' :: joinLines (run.take 3) ++ (joinLines (run.drop 3) ++ t) = '\n' :: (joinLines run ++ t) := by
    rw [List.cons_append, ← List.append_assoc, joinLines, joinLines, ← List.flatMap_append, List.take_append_drop]
    rfl
  have hread := canRead_threeBlank (by rw [List.length_take, Nat.min_eq_left h₃]) hfirst prev
    (joinLines (run.drop 3) ++ t) []
  rw [hsplit] at hread
  obtain ⟨e, he⟩ := exists_hits_of_productive (p := longBlank) (.seq hread .starNone) rfl fun d hd => hd.length_lt rfl
  obtain ⟨lines, -, hlines, hrest, hends⟩ := exists_of_endFrom he.1
  obtain ⟨more, rfl, hbehind⟩ := exists_more hlines hrun ht (List.cons.inj hrest).2
  cases more with
  | nil => exact ⟨e, he, hbehind⟩
  | cons l more =>
    rw [joinLines_cons, List.append_assoc, List.cons_append] at hbehind
    exact absurd hbehind (hends l _ (hrun l (by simp)))

theorem not_hits_longBlank (prev : Option Char) (hrun : ∀ l ∈ run, isVacant l = true) (ht : EndsRun t)
    (h₃ : run.length < 3) : ¬ ∃ e, longBlank.Hits prev ('\n' :: (joinLines run ++ t)) e := by
  rintro ⟨e, he, -⟩
  obtain ⟨lines, hlength, hlines, hrest, -⟩ := exists_of_endFrom he
  obtain ⟨more, rfl, -⟩ := exists_more hlines hrun ht (List.cons.inj hrest).2
  rw [List.length_append] at h₃
  omega

/-- A match begins with a line break. -/
theorem misses_line (h : '\n' ∉ line) (r : List Char) (prev : Option Char) : longBlank.Misses r prev line := by
  have hbreak : longBlank.Every (·.head?.any (· == '\n') = true) := by
    intro c d hread
    cases hread with
    | seq hthree hmore =>
      obtain ⟨lines, -, -, hrest⟩ := threeBlank_reads hthree
      obtain ⟨more, hmore⟩ := hmore.text
      exact ⟨'\n' :: (joinLines lines ++ more), by rw [hrest, hmore]; simp, rfl⟩
  exact misses_of_first hbreak fun c hc => beq_false_of_ne fun he => h (he ▸ hc)

/-! ### Replacing -/

/-- What a match is replaced by. -/
def twoEmpty (_ : Match) : List Char := "\n\n\n".toList

theorem replaceFrom_line (h : '\n' ∉ line) (prev : Option Char) (r : List Char) :
    longBlank.replaceFrom twoEmpty prev (line ++ r) = line ++ longBlank.replaceFrom twoEmpty (lastOf prev line) r :=
  (misses_line h r prev).replaceFrom

theorem replaceFrom_lastLine (h : '\n' ∉ line) (prev : Option Char) :
    longBlank.replaceFrom twoEmpty prev line = line := by
  have hline := replaceFrom_line h prev []
  rwa [List.append_nil, replaceFrom_empty, List.append_nil] at hline

/-- A run that is not long stays. -/
theorem replaceFrom_short (prev : Option Char) (hrun : ∀ l ∈ run, isVacant l = true) (ht : EndsRun t)
    (h₃ : run.length < 3) : ∃ prev', longBlank.replaceFrom twoEmpty prev ('\n' :: (joinLines run ++ t)) =
      '\n' :: (joinLines run ++ longBlank.replaceFrom twoEmpty prev' t) := by
  induction run generalizing prev with
  | nil => exact ⟨some '\n', replaceFrom_cons (not_hits_longBlank prev hrun ht h₃)⟩
  | cons l run ih =>
    have hno := not_hits_longBlank prev hrun ht h₃
    obtain ⟨hl, hrun⟩ := List.forall_mem_cons.1 hrun
    obtain ⟨prev', hrest⟩ := ih (lastOf (some '\n') l) hrun (Nat.lt_of_succ_lt h₃)
    refine ⟨prev', ?_⟩
    rw [replaceFrom_cons hno, joinLines_cons, List.append_assoc, List.cons_append,
      replaceFrom_line (newline_not_mem_of_isVacant hl), hrest, List.append_assoc, List.cons_append]

/-- One run of vacant lines is shortened. -/
theorem replaceFrom_run (prev : Option Char) (hrun : ∀ l ∈ run, isVacant l = true) (ht : EndsRun t) :
    ∃ prev', longBlank.replaceFrom twoEmpty prev ('\n' :: (joinLines run ++ t)) =
      '\n' :: (joinLines (shortenRun run) ++ longBlank.replaceFrom twoEmpty prev' t) := by
  rcases Nat.lt_or_ge run.length 3 with hshort | hlong
  · rw [shortenRun_of_length_lt hshort]
    exact replaceFrom_short prev hrun ht hshort
  · obtain ⟨e, he, hrest⟩ := hits_longBlank prev hrun ht hlong
    have hall : run.all isVacant = true := List.all_eq_true.2 hrun
    refine ⟨e.prev, ?_⟩
    rw [replaceFrom_of_hits he, hrest, shortenRun, if_pos (by simp [hall, hlong])]
    rfl

/-- The runs among all lines but the last are shortened. -/
theorem replaceFrom_broken (last : List Char) (prev : Option Char) (hlines : ∀ l ∈ lines ++ [last], '\n' ∉ l) :
    longBlank.replaceFrom twoEmpty prev (broken (lines ++ [last])) = broken (shortenRuns lines ++ [last]) := by
  induction lines using vacant_induction generalizing prev with
  | all run hrun =>
    have hlast : '\n' ∉ last := hlines last (by simp)
    obtain ⟨prev', h⟩ := replaceFrom_run prev hrun (endsRun_of_not_mem hlast)
    rw [broken_eq_joinLines, broken_nil, List.append_nil, h, replaceFrom_lastLine hlast, shortenRuns_vacant hrun,
      broken_eq_joinLines, broken_nil, List.append_nil]
  | more run line rest hrun hline ih =>
    rw [List.append_assoc, List.cons_append] at hlines ⊢
    obtain ⟨hno, hrest⟩ := List.forall_mem_cons.1 (List.forall_mem_append.1 hlines).2
    have hends : EndsRun (line ++ broken (rest ++ [last])) := by
      rw [broken_eq_joinLines rest]
      exact endsRun_line hline hno _
    obtain ⟨prev', h⟩ := replaceFrom_run prev hrun hends
    rw [broken_eq_joinLines, h, replaceFrom_line hno, ih _ hrest, shortenRuns_run hrun hline, List.append_assoc,
      List.cons_append, broken_eq_joinLines (shortenRun run)]

/-- A text with the long runs among its inner lines shortened. -/
def shortenLines (s : List Char) : List Char := ['\n'].intercalate (shortenInner (s.splitOn '\n'))

theorem replaceAll_longBlank (s : List Char) : longBlank.replaceAll twoEmpty s = shortenLines s := by
  obtain ⟨first, later, hlines, hs⟩ := exists_lines s
  have hno : ∀ l ∈ first :: later, '\n' ∉ l := hlines ▸ newline_not_mem_line
  obtain ⟨hfirst, hlater⟩ := List.forall_mem_cons.1 hno
  rw [shortenLines, hlines, shortenInner, intercalate_eq, hs, Pattern.replaceAll]
  rcases List.eq_nil_or_concat later with rfl | ⟨inner, last, rfl⟩
  · rw [broken_nil, List.append_nil, replaceFrom_lastLine hfirst]
    exact (List.append_nil _).symm
  · rw [List.concat_eq_append] at hlater ⊢
    rw [replaceFrom_line hfirst, replaceFrom_broken last _ hlater, shortenLater_concat]

/-! ### Trimming -/

/-- No white space at either end. -/
structure Trimmed (s : List Char) : Prop where
  first : ∀ c ∈ s.head?, Text.isSpace c = false
  last : ∀ c ∈ s.getLast?, Text.isSpace c = false

theorem exists_trim (s : List Char) : ∃ w v, s = w ++ (Text.trim s ++ v) ∧ Blank w ∧ Blank v := by
  obtain ⟨v, hend, hv⟩ := exists_trimEnd_blank (Text.trimStart s)
  refine ⟨s.takeWhile Text.isSpace, v, ?_, blank_takeWhile s, hv⟩
  rw [Text.trim, ← hend]
  exact List.takeWhile_append_dropWhile.symm

theorem trimmed_trim (s : List Char) : Trimmed (Text.trim s) where
  last := last_trimEnd (Text.trimStart s)
  first := fun c hc => by
    obtain ⟨v, hend, -⟩ := exists_trimEnd_blank (Text.trimStart s)
    have hhead := List.head?_dropWhile_not Text.isSpace s
    rw [show s.dropWhile Text.isSpace = _ from hend, List.head?_append,
      show (Text.trimEnd _).head? = _ from hc] at hhead
    exact hhead

theorem Trimmed.trim (h : Trimmed r) {w v : List Char} (hw : Blank w) (hv : Blank v) :
    Text.trim (w ++ (r ++ v)) = r := by
  rw [Text.trim, Text.trimStart, List.dropWhile_append_of_pos hw]
  cases r with
  | nil => rw [List.nil_append, List.dropWhile_eq_nil_iff.2 hv]; rfl
  | cons c r =>
    rw [List.cons_append, List.dropWhile_cons_of_neg (by simp [h.first c rfl]), ← List.cons_append,
      trimEnd_append_blank h.last hv]

/-- What becomes of the lines before one that parts the runs, with the line break behind each. -/
def leading : List (List Char) → List Char
  | [] => []
  | first :: later => first ++ (broken (shortenRuns later) ++ ['\n'])

/-- A text is shortened in two parts at a line that is not vacant. -/
theorem shortenLines_between (hs : s.splitOn '\n' = before ++ line :: behind) (hline : isVacant line = false) :
    shortenLines s = leading before ++ (line ++ broken (shortenLater behind)) := by
  rw [shortenLines, hs]
  cases before with
  | nil => exact intercalate_eq line _
  | cons p before =>
    rw [List.cons_append, shortenInner, shortenLater_between hline, intercalate_eq, leading, broken_append, broken_cons]
    simp [List.append_assoc]

theorem shortenLines_first (hs : s.splitOn '\n' = line :: behind) :
    shortenLines s = line ++ broken (shortenLater behind) := by
  rw [shortenLines, hs, shortenInner, intercalate_eq]

theorem splitOn_shortenLines (s : List Char) : (shortenLines s).splitOn '\n' = shortenInner (s.splitOn '\n') := by
  obtain ⟨first, later, hlines, -⟩ := exists_lines s
  refine List.splitOn_intercalate '\n' (fun l hl => ?_) (by rw [hlines]; exact List.cons_ne_nil _ _)
  rcases mem_shortenInner hl with rfl | hl
  · exact List.not_mem_nil
  · exact newline_not_mem_line l hl

theorem shortenLines_shortenLines (s : List Char) : shortenLines (shortenLines s) = shortenLines s := by
  rw [shortenLines, splitOn_shortenLines, shortenInner_shortenInner, ← shortenLines]

theorem blank_of_mem_splitOn (h : Blank s) (hl : l ∈ s.splitOn '\n') : Blank l := by
  obtain ⟨first, later, hlines, hs⟩ := exists_lines s
  rw [hs] at h
  rcases List.mem_cons.1 (hlines ▸ hl) with rfl | hl
  · exact fun c hc => h c (List.mem_append_left _ hc)
  · exact fun c hc => h c (List.mem_append_right _ (List.mem_flatMap.2 ⟨l, hl, List.mem_cons_of_mem _ hc⟩))

theorem blank_broken (h : ∀ l ∈ lines, Blank l) : Blank (broken lines) := by
  intro c hc
  obtain ⟨l, hl, hc⟩ := List.mem_flatMap.1 hc
  rcases List.mem_cons.1 hc with rfl | hc
  · rfl
  · exact h l hl c hc

theorem blank_leading (h : ∀ l ∈ before, Blank l) : Blank (leading before) := by
  cases before with
  | nil => exact Blank.nil
  | cons first later =>
    obtain ⟨hfirst, hlater⟩ := List.forall_mem_cons.1 h
    refine hfirst.append ((blank_broken fun l hl => ?_).append (List.forall_mem_singleton.2 rfl))
    rcases mem_shortenRuns hl with rfl | hl
    · exact Blank.nil
    · exact hlater l hl

theorem blank_shortenLines (h : Blank s) : Blank (shortenLines s) := by
  obtain ⟨first, later, hlines, -⟩ := exists_lines s
  have hall : ∀ l ∈ shortenInner (s.splitOn '\n'), Blank l := fun l hl => by
    rcases mem_shortenInner hl with rfl | hl
    · exact Blank.nil
    · exact blank_of_mem_splitOn h hl
  rw [hlines, shortenInner] at hall
  rw [shortenLines, hlines, shortenInner, intercalate_eq]
  obtain ⟨hfirst, hlater⟩ := List.forall_mem_cons.1 hall
  exact hfirst.append (blank_broken hlater)

/-- A line with a character that is no white space is not vacant. -/
theorem isVacant_eq_false (hspace : Text.isSpace c = false) (hc : c ∈ line) : isVacant line = false := by
  rw [Bool.eq_false_iff]
  intro h
  rw [blank_of_isVacant h c hc] at hspace
  cases hspace

/-- The first line of a text begins as the text does, unless that is with white space. -/
theorem exists_first (hc : Text.isSpace c = false) (r : List Char) :
    ∃ l behind, (c :: r).splitOn '\n' = (c :: l) :: behind := by
  obtain ⟨first, later, hlines, hs⟩ := exists_lines (c :: r)
  cases first with
  | cons x l =>
    obtain ⟨rfl, -⟩ := List.cons.inj hs
    exact ⟨l, later, hlines⟩
  | nil =>
    cases later with
    | nil => cases hs
    | cons l later =>
      obtain ⟨rfl, -⟩ := List.cons.inj hs
      cases hc

/-- The last line of a text ends as the text does, unless that is with white space. -/
theorem exists_last (hc : Text.isSpace c = false) (r : List Char) :
    ∃ before l, (r ++ [c]).splitOn '\n' = before ++ [l ++ [c]] := by
  obtain ⟨before, l, hlines⟩ := (List.eq_nil_or_concat (r.splitOn '\n')).resolve_left (List.splitOn_ne_nil _ _)
  have hline : '\n' ∉ [c] := fun h => by
    rw [← List.mem_singleton.1 h] at hc
    cases hc
  exact ⟨before, l, splitOn_append (by rw [hlines, List.concat_eq_append]) (List.splitOn_eq_singleton hline)⟩

/-- White space before a text comes to white space. -/
theorem shortenLines_blank_left {w : List Char} (hw : Blank w) (hc : Text.isSpace c = false) (r : List Char) :
    ∃ w', Blank w' ∧ shortenLines (w ++ c :: r) = w' ++ shortenLines (c :: r) := by
  obtain ⟨before, l, hlines⟩ := (List.eq_nil_or_concat (w.splitOn '\n')).resolve_left (List.splitOn_ne_nil _ _)
  rw [List.concat_eq_append] at hlines
  have hblank : ∀ k ∈ before ++ [l], Blank k := fun k hk => blank_of_mem_splitOn hw (hlines ▸ hk)
  obtain ⟨hbefore, hl⟩ := List.forall_mem_append.1 hblank
  obtain ⟨m, behind, hfirst⟩ := exists_first hc r
  have hvacant : isVacant (l ++ c :: m) = false := isVacant_eq_false hc (by simp)
  refine ⟨leading before ++ l, (blank_leading hbefore).append (List.forall_mem_singleton.1 hl), ?_⟩
  rw [shortenLines_between (splitOn_append hlines hfirst) hvacant, shortenLines_first hfirst]
  simp

/-- White space behind a text comes to white space. -/
theorem shortenLines_blank_right {v : List Char} (hv : Blank v) (hc : Text.isSpace c = false) (r : List Char) :
    ∃ v', Blank v' ∧ shortenLines ((r ++ [c]) ++ v) = shortenLines (r ++ [c]) ++ v' := by
  obtain ⟨before, l, hlast⟩ := exists_last hc r
  obtain ⟨first, behind, hlines, -⟩ := exists_lines v
  have hblank : ∀ k ∈ first :: behind, Blank k := fun k hk => blank_of_mem_splitOn hv (hlines ▸ hk)
  obtain ⟨hfirst, hbehind⟩ := List.forall_mem_cons.1 hblank
  refine ⟨first ++ broken (shortenLater behind), hfirst.append (blank_broken fun l hl => ?_), ?_⟩
  · rcases mem_shortenLater hl with rfl | hl
    · exact Blank.nil
    · exact hbehind l hl
  · rw [shortenLines_between (splitOn_append hlast hlines) (isVacant_eq_false hc (by simp)),
      shortenLines_between hlast (isVacant_eq_false hc (by simp))]
    simp [shortenLater, shortenRuns]

theorem trimmed_shortenLines (h : Trimmed s) : Trimmed (shortenLines s) where
  first := by
    cases s with
    | nil => exact fun c hc => nomatch hc
    | cons c r =>
      have hc := h.first c rfl
      obtain ⟨l, behind, hlines⟩ := exists_first hc r
      rw [shortenLines_first hlines]
      simpa using hc
  last := by
    rcases List.eq_nil_or_concat s with rfl | ⟨r, c, rfl⟩
    · exact fun c hc => nomatch hc
    · rw [List.concat_eq_append] at h ⊢
      have hc := h.last c (by simp)
      obtain ⟨before, l, hlines⟩ := exists_last hc r
      rw [shortenLines_between hlines (isVacant_eq_false hc (by simp))]
      simpa [shortenLater, shortenRuns] using hc

/-- Trimming and shortening may change places. -/
theorem trim_shortenLines (s : List Char) : Text.trim (shortenLines s) = shortenLines (Text.trim s) := by
  obtain ⟨w, v, hs, hw, hv⟩ := exists_trim s
  have htrimmed := trimmed_trim s
  cases htrim : Text.trim s with
  | nil =>
    rw [htrim, List.nil_append] at hs
    have hblank : Blank (shortenLines s) := blank_shortenLines (hs ▸ hw.append hv)
    have h := Trimmed.trim (htrim ▸ htrimmed) hblank Blank.nil
    rw [List.append_nil, List.append_nil] at h
    exact h
  | cons c r =>
    rw [htrim] at hs htrimmed
    obtain ⟨w', hw', hstart⟩ := shortenLines_blank_left hw (htrimmed.first c rfl) (r ++ v)
    obtain ⟨a, x, hlast⟩ := (List.eq_nil_or_concat (c :: r)).resolve_left (List.cons_ne_nil c r)
    rw [List.concat_eq_append] at hlast
    obtain ⟨v', hv', hend⟩ := shortenLines_blank_right hv (htrimmed.last x (by simp [hlast])) a
    rw [hs, List.cons_append, hstart, ← List.cons_append, hlast, hend]
    exact (trimmed_shortenLines (hlast ▸ htrimmed)).trim hw' hv'

/-- The first and the last line of a trimmed text are not vacant, and no long run is left between them. -/
theorem not_hasLongRun_shortenLines (h : Trimmed s) : ¬ HasLongRun ((shortenLines s).splitOn '\n') := by
  rw [splitOn_shortenLines]
  intro hrun
  rcases List.eq_nil_or_concat s with rfl | ⟨a, x, hs⟩
  · exact absurd hrun.length (by decide)
  · obtain ⟨c, r, rfl⟩ := List.exists_cons_of_ne_nil (show s ≠ [] by simp [hs])
    rw [List.concat_eq_append] at hs
    have hc := h.first c rfl
    have hx := h.last x (by simp [hs])
    obtain ⟨l, behind, hfirst⟩ := exists_first hc r
    obtain ⟨before, k, hlast⟩ := exists_last hx a
    rw [← hs, hfirst] at hlast
    rw [hfirst, hlast] at hrun
    cases before with
    | nil => exact absurd hrun.length (by simp [shortenInner, shortenLater, shortenRuns])
    | cons p before =>
      obtain ⟨rfl, -⟩ := List.cons.inj hlast
      rw [List.cons_append, shortenInner, shortenLater_concat] at hrun
      rw [← List.nil_append (_ :: _)] at hrun
      rcases hrun.between (isVacant_eq_false hc (by simp)) with hrun | hrun
      · exact absurd hrun.length (by decide)
      · rcases hrun.between (isVacant_eq_false hx (by simp)) with hrun | hrun
        · exact not_hasLongRun_shortenRuns before hrun
        · exact absurd hrun.length (by decide)

theorem collapseBlankLines_eq_trim (s : List Char) : collapseBlankLines s = Text.trim (shortenLines s) :=
  congrArg Text.trim (replaceAll_longBlank s)

/-- **Blank lines are shortened exactly.** In the lines of a text, each longest run of three or more vacant ones among
the inner lines becomes two empty ones, and all other lines stay as they are and in order. Whether the ends are trimmed
before or after that makes no difference. So nothing changes the second time, and in what normalization leaves, no
three vacant lines follow one another. -/
theorem collapseBlankLines_lines (s : List Char) :
    collapseBlankLines s = Text.trim (shortenLines s) ∧
    collapseBlankLines s = shortenLines (Text.trim s) ∧
    collapseBlankLines (collapseBlankLines s) = collapseBlankLines s ∧
    ¬ HasLongRun ((normalize s).splitOn '\n') := by
  have hboth (s : List Char) : collapseBlankLines s = shortenLines (Text.trim s) :=
    (collapseBlankLines_eq_trim s).trans (trim_shortenLines s)
  refine ⟨collapseBlankLines_eq_trim s, hboth s, ?_, ?_⟩
  · rw [collapseBlankLines_eq_trim (collapseBlankLines s), hboth s, shortenLines_shortenLines, ← hboth s,
      collapseBlankLines_eq_trim]
    simpa using (trimmed_trim (shortenLines s)).trim Blank.nil Blank.nil
  · rw [normalize_eq, hboth]
    exact not_hasLongRun_shortenLines (trimmed_trim _)

example : shortenLines "a\n\n \n\t\r\n\nb\n\nc".toList = "a\n\n\nb\n\nc".toList := by decide

end LivePreview.Source
