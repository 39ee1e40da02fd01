import Mathlib.Data.List.SplitBy
import Mathlib.Data.List.TakeWhile
import LivePreview.Proofs.Source.Mass

/-! Runs of vacant lines.

The lines of a text come in runs of vacant lines and of others. A line that is not vacant parts the runs around it
(`shortenRuns_between`), so that the lines before it are shortened without a look at those behind it, and the first and
the last line of a text can be left out. What is shortened has no long run left. -/
namespace LivePreview.Source

/-- Nothing but blanks, and perhaps a carriage return behind them. -/
def isVacant (line : List Char) : Bool :=
  line.dropWhile Text.isBlank == [] || line.dropWhile Text.isBlank == ['\r']

/-- A run of three or more vacant lines becomes two empty lines. -/
def shortenRun (run : List (List Char)) : List (List Char) :=
  if 3 ≤ run.length && run.all isVacant then [[], []] else run

/-- Lines with each longest run of lines that are all vacant, or all not vacant, shortened. -/
def shortenRuns (lines : List (List Char)) : List (List Char) :=
  (lines.splitBy fun a b => isVacant a == isVacant b).flatMap shortenRun

/-- The lines behind the first one, the last of which is left as it is. -/
def shortenLater (lines : List (List Char)) : List (List Char) :=
  shortenRuns lines.dropLast ++ lines.getLast?.toList

/-- The lines of a text with the runs among the inner ones shortened. -/
def shortenInner : List (List Char) → List (List Char)
  | [] => []
  | first :: later => first :: shortenLater later

variable {line : List Char} {lines run before behind : List (List Char)} {v : Bool}

/-! ### Vacant lines -/

theorem isVacant_iff : isVacant line = true ↔
    ∃ b, (∀ c ∈ b, Text.isBlank c = true) ∧ (line = b ∨ line = b ++ ['\r']) := by
  unfold isVacant
  rw [Bool.or_eq_true, beq_iff_eq, beq_iff_eq]
  refine ⟨fun h => ⟨line.takeWhile Text.isBlank, List.all_eq_true.1 List.all_takeWhile, ?_⟩, fun ⟨b, hb, h⟩ => ?_⟩
  · have hsplit := List.takeWhile_append_dropWhile (p := Text.isBlank) (l := line)
    rcases h with h | h <;> rw [h] at hsplit
    · exact .inl (by simpa using hsplit.symm)
    · exact .inr hsplit.symm
  · rcases h with rfl | rfl
    · exact .inl (List.dropWhile_eq_nil_iff.2 hb)
    · exact .inr (List.dropWhile_append_of_pos hb)

theorem blank_of_isVacant (h : isVacant line = true) : Blank line := by
  obtain ⟨b, hb, hline⟩ := isVacant_iff.1 h
  have hblank : Blank b := fun c hc => isSpace_of_isBlank (hb c hc)
  rcases hline with rfl | rfl
  · exact hblank
  · exact hblank.append (List.forall_mem_singleton.2 rfl)

/-! ### Shortening -/

/-- Vacant lines, then either the end or a line that is not vacant and more. -/
theorem vacant_induction {motive : List (List Char) → Prop}
    (all : ∀ run, (∀ l ∈ run, isVacant l = true) → motive run)
    (more : ∀ run line rest, (∀ l ∈ run, isVacant l = true) → isVacant line = false → motive rest →
      motive (run ++ line :: rest)) (lines : List (List Char)) : motive lines := by
  induction hn : lines.length using Nat.strongRecOn generalizing lines with
  | ind n ih =>
    have hrun : ∀ l ∈ lines.takeWhile isVacant, isVacant l = true := List.all_eq_true.1 List.all_takeWhile
    rw [← List.takeWhile_append_dropWhile (p := isVacant) (l := lines)]
    cases hrest : lines.dropWhile isVacant with
    | nil =>
      rw [List.append_nil]
      exact all _ hrun
    | cons line rest =>
      have hline : isVacant line = false := by
        have := List.head?_dropWhile_not isVacant lines
        rw [hrest] at this
        simpa using this
      have hlength : rest.length < n := by
        have := (List.dropWhile_suffix (l := lines) isVacant).length_le
        rw [hrest, List.length_cons] at this
        omega
      exact more _ line rest hrun hline (ih _ hlength rest rfl)

/-- Lines of one kind are one run, when the next line is of the other. -/
theorem shortenRuns_append (hrun : ∀ l ∈ run, isVacant l = v) (hnext : ∀ l ∈ lines.head?, isVacant l ≠ v) :
    shortenRuns (run ++ lines) = shortenRun run ++ shortenRuns lines := by
  rcases List.eq_nil_or_concat run with rfl | ⟨r, x, hr⟩
  · rfl
  · have hne : run ≠ [] := by simp [hr]
    have hchain : run.IsChain fun a b => (isVacant a == isVacant b) = true :=
      List.Pairwise.isChain (List.pairwise_of_forall_mem_list fun a ha b hb => by simp [hrun a ha, hrun b hb])
    have hends : ∀ a ∈ run.getLast?, ∀ b ∈ lines.head?, (isVacant a == isVacant b) = false := fun a ha b hb => by
      have hb := hnext b hb
      rw [← hrun a (List.mem_of_getLast? ha)] at hb
      simpa using hb.symm
    rw [shortenRuns, List.splitBy_append hends, List.splitBy_of_isChain hne hchain, List.flatMap_append,
      List.flatMap_singleton]
    rfl

theorem shortenRuns_vacant (hrun : ∀ l ∈ run, isVacant l = true) : shortenRuns run = shortenRun run := by
  have h : shortenRuns (run ++ []) = shortenRun run ++ shortenRuns [] := shortenRuns_append hrun (by simp)
  rwa [List.append_nil, show shortenRuns [] = [] from rfl, List.append_nil] at h

theorem shortenRun_other (hrun : ∀ l ∈ run, isVacant l = false) : shortenRun run = run := by
  unfold shortenRun
  split
  case isTrue h =>
    obtain ⟨hlength, hall⟩ := Bool.and_eq_true_iff.1 h
    cases run with
    | nil => simp at hlength
    | cons x run => simp [hrun x List.mem_cons_self] at hall
  case isFalse => rfl

theorem shortenRuns_cons (h : isVacant line = false) (lines : List (List Char)) :
    shortenRuns (line :: lines) = line :: shortenRuns lines := by
  have hothers : ∀ l ∈ lines.takeWhile (!isVacant ·), isVacant l = false := fun l hl => by
    simpa using List.all_eq_true.1 (List.all_takeWhile (l := lines) (p := (!isVacant ·))) l hl
  have hnext : ∀ l ∈ (lines.dropWhile (!isVacant ·)).head?, isVacant l ≠ false := fun l hl => by
    have := List.head?_dropWhile_not (!isVacant ·) lines
    rw [Option.mem_def.1 hl] at this
    simpa using this
  have hfirst : ∀ l ∈ line :: lines.takeWhile (!isVacant ·), isVacant l = false := List.forall_mem_cons.2 ⟨h, hothers⟩
  have hlines := shortenRuns_append hothers hnext
  have hall := shortenRuns_append hfirst hnext
  rw [shortenRun_other hothers, List.takeWhile_append_dropWhile] at hlines
  rw [shortenRun_other hfirst, List.cons_append, List.takeWhile_append_dropWhile, List.cons_append] at hall
  rw [hall, hlines]

theorem shortenRuns_run (hrun : ∀ l ∈ run, isVacant l = true) (h : isVacant line = false)
    (lines : List (List Char)) : shortenRuns (run ++ line :: lines) = shortenRun run ++ line :: shortenRuns lines := by
  rw [shortenRuns_append hrun (by simp [h]), shortenRuns_cons h]

/-- A line that is not vacant parts the lines before it from those behind it. -/
theorem shortenRuns_between (h : isVacant line = false) (before behind : List (List Char)) :
    shortenRuns (before ++ line :: behind) = shortenRuns before ++ line :: shortenRuns behind := by
  induction before using vacant_induction with
  | all run hrun => rw [shortenRuns_run hrun h, shortenRuns_vacant hrun]
  | more run other rest hrun hother ih =>
    rw [List.append_assoc, List.cons_append, shortenRuns_run hrun hother, ih, shortenRuns_run hrun hother,
      List.append_assoc, List.cons_append]

theorem shortenLater_concat (lines : List (List Char)) (last : List Char) :
    shortenLater (lines ++ [last]) = shortenRuns lines ++ [last] := by simp [shortenLater]

theorem shortenLater_between (h : isVacant line = false) (before behind : List (List Char)) :
    shortenLater (before ++ line :: behind) = shortenRuns before ++ line :: shortenLater behind := by
  rcases List.eq_nil_or_concat behind with rfl | ⟨inner, last, rfl⟩
  · exact shortenLater_concat before line
  · rw [List.concat_eq_append, shortenLater_concat, ← List.cons_append, ← List.append_assoc, shortenLater_concat,
      shortenRuns_between h, List.append_assoc, List.cons_append]

/-! ### What is left -/

theorem shortenRun_vacant (hrun : ∀ l ∈ run, isVacant l = true) :
    (∀ l ∈ shortenRun run, isVacant l = true) ∧ (shortenRun run).length < 3 := by
  unfold shortenRun
  split
  case isTrue => exact ⟨by simp [isVacant], by decide⟩
  case isFalse h =>
    have hall : run.all isVacant = true := List.all_eq_true.2 hrun
    rw [hall, Bool.and_true, decide_eq_true_eq] at h
    exact ⟨hrun, Nat.lt_of_not_le h⟩

theorem shortenRun_of_length_lt (h : run.length < 3) : shortenRun run = run := by
  unfold shortenRun
  rw [if_neg]
  simp [Nat.not_le.2 h]

/-- Each line is one of the old ones, or an empty one. -/
theorem mem_shortenRuns (h : line ∈ shortenRuns lines) : line = [] ∨ line ∈ lines := by
  obtain ⟨run, hrun, hline⟩ := List.mem_flatMap.1 h
  unfold shortenRun at hline
  split at hline
  case isTrue => exact .inl (by simpa using hline)
  case isFalse =>
    rw [← List.flatten_splitBy (fun a b => isVacant a == isVacant b) lines]
    exact .inr (List.mem_flatten_of_mem hrun hline)

theorem mem_shortenLater (h : line ∈ shortenLater lines) : line = [] ∨ line ∈ lines := by
  rcases List.eq_nil_or_concat lines with rfl | ⟨inner, last, rfl⟩
  · exact .inr h
  · rw [List.concat_eq_append, shortenLater_concat] at h
    rcases List.mem_append.1 h with h | h
    · exact (mem_shortenRuns h).imp id fun h => by simp [h]
    · exact .inr (by simp [List.mem_singleton.1 h])

theorem mem_shortenInner (h : line ∈ shortenInner lines) : line = [] ∨ line ∈ lines := by
  cases lines with
  | nil => exact .inr h
  | cons first later =>
    rcases List.mem_cons.1 h with rfl | h
    · exact .inr List.mem_cons_self
    · exact (mem_shortenLater h).imp id (List.mem_cons_of_mem first)

theorem shortenRuns_shortenRuns (lines : List (List Char)) : shortenRuns (shortenRuns lines) = shortenRuns lines := by
  induction lines using vacant_induction with
  | all run hrun =>
    obtain ⟨hvacant, hlength⟩ := shortenRun_vacant hrun
    rw [shortenRuns_vacant hrun, shortenRuns_vacant hvacant, shortenRun_of_length_lt hlength]
  | more run line rest hrun hline ih =>
    obtain ⟨hvacant, hlength⟩ := shortenRun_vacant hrun
    rw [shortenRuns_run hrun hline, shortenRuns_run hvacant hline, ih, shortenRun_of_length_lt hlength]

theorem shortenInner_shortenInner (lines : List (List Char)) :
    shortenInner (shortenInner lines) = shortenInner lines := by
  cases lines with
  | nil => rfl
  | cons first later =>
    rcases List.eq_nil_or_concat later with rfl | ⟨inner, last, rfl⟩
    · rfl
    · rw [List.concat_eq_append, shortenInner, shortenLater_concat, shortenInner, shortenLater_concat,
        shortenRuns_shortenRuns]

/-- The line at a place is there, and vacant. -/
def VacantAt (lines : List (List Char)) (i : Nat) : Prop := ∃ l, lines[i]? = some l ∧ isVacant l = true

/-- Three vacant lines follow one another. -/
def HasLongRun (lines : List (List Char)) : Prop :=
  ∃ i, VacantAt lines i ∧ VacantAt lines (i + 1) ∧ VacantAt lines (i + 2)

theorem HasLongRun.length (h : HasLongRun lines) : 3 ≤ lines.length := by
  obtain ⟨i, -, -, l, hl, -⟩ := h
  have := (List.getElem?_eq_some_iff.1 hl).1
  omega

/-- No long run goes over a line that is not vacant. -/
theorem HasLongRun.between (hline : isVacant line = false) (h : HasLongRun (before ++ line :: behind)) :
    HasLongRun before ∨ HasLongRun behind := by
  obtain ⟨i, h₀, h₁, h₂⟩ := h
  have hne {j : Nat} (h : VacantAt (before ++ line :: behind) j) : j ≠ before.length := by
    rintro rfl
    obtain ⟨l, hl, hvacant⟩ := h
    rw [List.getElem?_append_right (Nat.le_refl _), Nat.sub_self] at hl
    rw [← Option.some.inj hl, hline] at hvacant
    cases hvacant
  have hleft {j : Nat} (hj : j < before.length) (h : VacantAt (before ++ line :: behind) j) : VacantAt before j := by
    obtain ⟨l, hl, hvacant⟩ := h
    exact ⟨l, by rwa [List.getElem?_append_left hj] at hl, hvacant⟩
  have hright {j : Nat} (h : VacantAt (before ++ line :: behind) (before.length + 1 + j)) : VacantAt behind j := by
    obtain ⟨l, hl, hvacant⟩ := h
    refine ⟨l, ?_, hvacant⟩
    rwa [List.getElem?_append_right (by omega), show before.length + 1 + j - before.length = j + 1 by omega,
      List.getElem?_cons_succ] at hl
  have h₀' := hne h₀
  have h₁' := hne h₁
  have h₂' := hne h₂
  rcases Nat.lt_or_ge i before.length with hlt | hge
  · exact .inl ⟨i, hleft hlt h₀, hleft (by omega) h₁, hleft (by omega) h₂⟩
  · obtain ⟨j, rfl⟩ := Nat.exists_eq_add_of_le (show before.length + 1 ≤ i by omega)
    exact .inr ⟨j, hright h₀, hright h₁, hright h₂⟩

theorem not_hasLongRun_shortenRuns (lines : List (List Char)) : ¬ HasLongRun (shortenRuns lines) := by
  induction lines using vacant_induction with
  | all run hrun =>
    rw [shortenRuns_vacant hrun]
    exact fun h => absurd h.length (Nat.not_le.2 (shortenRun_vacant hrun).2)
  | more run line rest hrun hline ih =>
    rw [shortenRuns_run hrun hline]
    intro h
    rcases h.between hline with h | h
    · exact absurd h.length (Nat.not_le.2 (shortenRun_vacant hrun).2)
    · exact ih h

end LivePreview.Source
