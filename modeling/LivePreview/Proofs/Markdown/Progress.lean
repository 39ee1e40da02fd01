import Mathlib.Data.List.TakeWhile
import LivePreview.Markdown.Fenced

/-! Every block takes up some of the text.

A reader of markdown goes from block to block, and each of them ends behind where it began (`block_length`), since no
part of a line is looked at twice and every kind of block reads to the end of its first line at least. So a number of
blocks that exceeds the length of the text is not a bound (`fencedFrom_of_lt`). -/
namespace LivePreview.Markdown
variable {s r : List Char} {l m : Lead}

/-! ### Lines -/

theorem lineEnd?_length (h : lineEnd? s = some r) : r.length ≤ s.length - 1 := by
  unfold lineEnd? at h
  split at h <;> cases h <;> simp

theorem blankLine?_length (h : blankLine? s = some r) : r.length ≤ s.length - 1 := by
  have hskip := (List.dropWhile_sublist (l := s) isLineSpace).length_le
  have := lineEnd?_length h
  omega

theorem nextLine_length (s : List Char) : (nextLine s).length ≤ s.length - 1 := by
  fun_induction nextLine s with
  | case5 c r _ _ _ ih => exact Nat.le_trans ih (Nat.sub_le ..)
  | _ => simp

theorem rawLine_length (s : List Char) : (rawLine s).2.length ≤ s.length - 1 := by
  fun_induction rawLine s with
  | case3 c r _ line rest hr ih =>
    rw [hr] at ih
    exact Nat.le_trans ih (Nat.sub_le ..)
  | _ => simp

/-! ### Marks -/

theorem takeFrom_length (s : List Char) (column n : Nat) : (Lead.takeFrom s column n).2.rest.length ≤ s.length := by
  fun_induction Lead.takeFrom s column n <;> simp_all <;> omega

theorem take_length (l : Lead) (n : Nat) : (l.take n).2.rest.length ≤ l.rest.length := by
  unfold Lead.take
  split
  · exact Nat.le_refl _
  · exact takeFrom_length ..

theorem quote?_length (h : l.quote? = some m) : m.rest.length < l.rest.length := by
  unfold Lead.quote? at h
  split at h
  · next r hr =>
    cases h
    rw [hr]
    exact Nat.lt_succ_of_le (take_length ⟨r, l.column + 1, l.owed⟩ 1)
  · exact nomatch h

theorem itemText?_length {indent column : Nat} (h : itemText? indent l = some (column, m)) :
    m.rest.length ≤ l.rest.length := by
  have hone := take_length l 1
  have hmore := take_length (l.take 1).2 4
  unfold itemText? at h
  dsimp only at h
  split at h
  · split at h
    · cases h
      exact hone
    · split at h
      · cases h
        exact hone
      · cases h
        exact Nat.le_trans hmore hone
  · exact nomatch h

theorem ordinal?_length {n : Nat} (h : ordinal? s = some (n, r)) : r.length < s.length := by
  have hskip := (List.dropWhile_sublist (l := s) Text.isDigit).length_le
  unfold ordinal? at h
  dsimp only at h
  split at h
  · next c r hr =>
    split at h
    · cases h
      rw [hr] at hskip
      exact hskip
    · exact nomatch h
  · exact nomatch h

theorem itemMark?_length {indent column : Nat} (h : itemMark? indent l = some (column, m)) :
    m.rest.length < l.rest.length := by
  unfold itemMark? at h
  split at h
  · next c r hr =>
    split at h
    · split at h
      · exact nomatch h
      · rw [hr]
        exact Nat.lt_succ_of_le (itemText?_length h)
    · split at h
      · next n r ho => exact Nat.lt_of_le_of_lt (itemText?_length h) (ordinal?_length ho)
      · exact nomatch h
  · exact nomatch h

/-! ### Containers -/

theorem continue?_length {c : Container} (h : c.continue? l = some m) : m.rest.length ≤ l.rest.length := by
  unfold Container.continue? at h
  split at h
  · exact Nat.le_trans (Nat.le_of_lt (quote?_length h)) (take_length l 3)
  · split at h
    · cases h
      exact Nat.le_refl _
    · exact nomatch h
  · dsimp only at h
    split at h
    · cases h
      exact take_length ..
    · exact nomatch h

theorem goOn_length (l : Lead) (containers : List Container) :
    (goOn l containers).2.rest.length ≤ l.rest.length := by
  induction containers generalizing l with
  | nil => exact Nat.le_refl _
  | cons c containers ih =>
    unfold goOn
    split
    · next m hm => exact Nat.le_trans (ih m) (continue?_length hm)
    · exact Nat.le_refl _

/-- How much is left to read: the line, or what follows on the line that has ended. -/
def remaining : Lead ⊕ List Char → Nat
  | .inl l => l.rest.length
  | .inr after => after.length + 1

theorem openContainers_length (fuel : Nat) (containers : List Container) (l : Lead) :
    remaining (openContainers fuel containers l).2 ≤ l.rest.length := by
  induction fuel generalizing containers l with
  | zero => exact Nat.le_refl _
  | succ fuel ih =>
    have hinner := take_length l 4
    have further (containers : List Container) {text : Lead} (ht : text.rest.length < (l.take 4).2.rest.length) :
        remaining (openContainers fuel containers text).2 ≤ l.rest.length :=
      Nat.le_trans (ih containers text) (by omega)
    unfold openContainers
    dsimp only
    split
    · exact Nat.le_refl _
    · cases hmark : itemMark? (4 - (l.take 4).1) (l.take 4).2 with
      | some mark =>
        have ht := itemMark?_length hmark
        dsimp only
        cases hafter : blankLine? mark.2.rest with
        | some after =>
          have := blankLine?_length hafter
          exact Nat.succ_le_of_lt (by omega)
        | none => exact further _ ht
      | none =>
        dsimp only
        cases hq : (l.take 4).2.quote? with
        | some text => exact further _ (quote?_length hq)
        | none => exact Nat.le_refl _

/-! ### Blocks -/

theorem closingFence?_length {c : Char} {n : Nat} (h : closingFence? c n s = some r) : r.length ≤ s.length := by
  unfold closingFence? at h
  split at h
  · cases h
    exact Nat.zero_le _
  · dsimp only at h
    split at h
    · exact nomatch h
    · have hskip := (List.dropWhile_sublist (l := s.drop (s.takeWhile (· == c)).length) (· == ' ')).length_le
      have := lineEnd?_length h
      have := List.length_drop (l := s) (i := (s.takeWhile (· == c)).length)
      omega

theorem fencedBody_length (containers : List Container) (indent : Nat) (c : Char) (n fuel : Nat) (s : List Char) :
    (fencedBody containers indent c n fuel s).2.length ≤ s.length := by
  induction fuel generalizing s with
  | zero => exact Nat.le_refl _
  | succ fuel ih =>
    have hgo := goOn_length ⟨s, 0, 0⟩ containers
    have hindent := take_length (goOn ⟨s, 0, 0⟩ containers).2 indent
    have hclosing := take_length ((goOn ⟨s, 0, 0⟩ containers).2.take indent).2 (4 - indent)
    unfold fencedBody
    dsimp only at hgo ⊢
    split
    · exact Nat.le_refl _
    · split
      · next after hafter =>
        split at hafter
        · exact nomatch hafter
        · have := closingFence?_length hafter
          dsimp only
          omega
      · have := ih (rawLine ((goOn ⟨s, 0, 0⟩ containers).2.take indent).2.rest).2
        have := rawLine_length ((goOn ⟨s, 0, 0⟩ containers).2.take indent).2.rest
        dsimp only
        omega

theorem underline?_length (h : underline? s = some r) : r.length ≤ s.length := by
  have dropped {p : Char → Bool} {c : Char} {s : List Char} (h : blankLine? (s.dropWhile p) = some r) :
      r.length ≤ (c :: s).length := by
    have := blankLine?_length h
    have := (List.dropWhile_sublist (l := s) p).length_le
    simp only [List.length_cons]
    omega
  unfold underline? at h
  split at h
  · exact dropped h
  · exact dropped h
  · exact nomatch h

section Rest
variable (containers : List Container)

theorem afterParagraph_succ {fuel : Nat} (below : ∀ r, (afterParagraph containers fuel r).length ≤ r.length)
    (s : List Char) : (afterParagraph containers (fuel + 1) s).length ≤ s.length - 1 := by
  have hnext := nextLine_length s
  have hgo := goOn_length ⟨nextLine s, 0, 0⟩ containers
  have hinner := take_length (goOn ⟨nextLine s, 0, 0⟩ containers).2 4
  have hskip := (List.dropWhile_sublist (l := ((goOn ⟨nextLine s, 0, 0⟩ containers).2.take 4).2.rest)
    Text.isBlank).length_le
  unfold afterParagraph
  dsimp only at hgo ⊢
  split
  · next after hafter =>
    split at hafter
    · have := underline?_length hafter
      omega
    · exact nomatch hafter
  · split
    · exact hnext
    · split
      · exact hnext
      · exact Nat.le_trans (below _) (by unfold Lead.skip; omega)

/-- A paragraph reads to the end of its first line at least. -/
theorem afterParagraph_length (fuel : Nat) (s : List Char) :
    (afterParagraph containers (fuel + 1) s).length ≤ s.length - 1 := by
  refine afterParagraph_succ containers (fun r => ?_) s
  induction fuel generalizing r with
  | zero => exact Nat.le_refl _
  | succ fuel ih => exact Nat.le_trans (afterParagraph_succ containers ih r) (Nat.sub_le ..)

theorem afterTags_succ (closing? : Option (List Char)) {fuel : Nat}
    (below : ∀ r, (afterTags containers closing? fuel r).length ≤ r.length) (s : List Char) :
    (afterTags containers closing? (fuel + 1) s).length ≤ s.length - 1 := by
  have hline := rawLine_length s
  have hgo := goOn_length ⟨(rawLine s).2, 0, 0⟩ containers
  have hbelow := below (goOn ⟨(rawLine s).2, 0, 0⟩ containers).2.rest
  unfold afterTags
  dsimp only at hgo ⊢
  split
  · exact hline
  · cases closing? <;> dsimp only <;> split <;> omega

/-- So does a block of tags. -/
theorem afterTags_length (closing? : Option (List Char)) (fuel : Nat) (s : List Char) :
    (afterTags containers closing? (fuel + 1) s).length ≤ s.length - 1 := by
  refine afterTags_succ containers closing? (fun r => ?_) s
  induction fuel generalizing r with
  | zero => exact Nat.le_refl _
  | succ fuel ih => exact Nat.le_trans (afterTags_succ containers closing? ih r) (Nat.sub_le ..)

/-- **Every block takes up some of the text.** -/
theorem block_length (s : List Char) : (block containers s).2.1.length ≤ s.length - 1 := by
  have hgo := goOn_length ⟨s, 0, 0⟩ containers
  have hopen := openContainers_length (s.length + 1) (goOn ⟨s, 0, 0⟩ containers).1 (goOn ⟨s, 0, 0⟩ containers).2
  unfold block
  dsimp only at hgo ⊢
  generalize openContainers (s.length + 1) (goOn ⟨s, 0, 0⟩ containers).1 (goOn ⟨s, 0, 0⟩ containers).2 = opened at hopen
  obtain ⟨inside, l | after⟩ := opened
  · have hl : l.rest.length ≤ s.length := Nat.le_trans hopen hgo
    have hinner : (l.take 4).2.rest.length ≤ l.rest.length := take_length l 4
    dsimp only
    cases hblank : blankLine? l.rest with
    | some after => exact Nat.le_trans (blankLine?_length hblank) (Nat.sub_le_sub_right hl 1)
    | none =>
      dsimp only
      generalize (l.take 4).2.rest = line at hinner ⊢
      have further {n : Nat} (h : n ≤ line.length - 1) : n ≤ s.length - 1 :=
        Nat.le_trans h (Nat.sub_le_sub_right (Nat.le_trans hinner hl) 1)
      split
      · exact further (rawLine_length line)
      · split
        · exact further (afterTags_length ..)
        · split
          · exact further (nextLine_length line)
          · split
            · next n c _ =>
              refine further (Nat.le_trans (fencedBody_length ..) (Nat.le_trans (rawLine_length _) ?_))
              have := (List.dropWhile_sublist (l := line.drop n) isLineSpace).length_le
              have := List.length_drop (l := line) (i := n)
              omega
            · exact further (afterParagraph_length ..)
  · exact Nat.le_sub_one_of_lt (Nat.lt_of_succ_le (Nat.le_trans hopen hgo))

end Rest

/-- **A text is read to its end**: any number of blocks that exceeds its length will do. -/
theorem fencedFrom_of_lt {fuel more : Nat} (hf : s.length < fuel) (hm : s.length < more)
    (containers : List Container) : fencedFrom containers fuel s = fencedFrom containers more s := by
  induction fuel generalizing more s containers with
  | zero => exact absurd hf (Nat.not_lt_zero _)
  | succ fuel ih =>
    obtain ⟨more, rfl⟩ : ∃ k, more = k + 1 := ⟨more - 1, by omega⟩
    unfold fencedFrom
    split
    · rfl
    · next hne =>
      have hs : 0 < s.length := List.length_pos_iff.2 (by simpa using hne)
      have hb := block_length containers s
      generalize block containers s = b at hb
      obtain ⟨containers, rest, found?⟩ := b
      dsimp only at hb
      exact congrArg (found?.toList ++ ·) (ih (by omega) (by omega) containers)

end LivePreview.Markdown
