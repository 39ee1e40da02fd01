import LivePreview.Proofs.Preview.Transition
import Mathlib.Algebra.Group.Nat.Defs
import Mathlib.Data.Fintype.Card

/-! How submissions are numbered while the board is mounted.

While a board is mounted the generations that submissions have taken are exactly the numbers from one up to the
generation of the board, and no two submissions share one (`Numbered`). It follows that a generation that may not
write will never write again (`stale_step`): the two looks that a run takes at its generation can only go from
live to stale. Counting stays below the word size as long as there are fewer submissions than words. -/
namespace LivePreview.Preview.Board
variable {H : Type}

/-- The generation that submission `i` has taken. -/
def generationAt? (b : Board H) (i : Nat) : Option Nat := b.entries[i]?.bind (·.progress.generation?)

theorem generationAt?_eq {b : Board H} {i : Nat} {s : Submission} {p : Progress H}
    (h : b.entries[i]? = some ⟨s, p⟩) : b.generationAt? i = p.generation? := by simp [generationAt?, h]

/-! ### Taking a generation -/

theorem generation?_afterReply (g : Nat) (name : String) (r : Compile.Reply) :
    (afterReply g name r : Progress H).generation? = some g := by
  unfold afterReply
  split
  · rfl
  · split <;> rfl

/-- A submission keeps its generation; it takes one in the step that numbers it. -/
theorem Rule.generation? {b : Board H} {s : Submission} {i : Nat} {h h' : Heard H} {st : Step H}
    {p q : Progress H} (rule : Rule b s i h st p q h') :
    q.generation? = p.generation? ∨
      st = .number i ∧ p = .admitted ∧ q = .numbered (nextGeneration b.generation) := by
  cases rule with
  | number => exact .inr ⟨rfl, rfl, rfl⟩
  | reply r => exact .inl (generation?_afterReply ..)
  | _ => exact .inl rfl

theorem counts_number {b : Board H} {i : Nat} : b.counts (.number i) = true ↔ b.progress? i = some .admitted := by
  simp only [counts]
  split <;> simp_all

theorem generationAt?_number {b : Board H} {i : Nat} (h : b.progress? i = some .admitted) :
    (b.step (.number i)).generationAt? i = some (nextGeneration b.generation) := by
  obtain ⟨s, he⟩ := entry_of_progress? h
  have hm := entries_move_self he (.numbered (nextGeneration b.generation))
  simp only [step, h]
  exact generationAt?_eq hm

/-- Every other submission keeps the generation it has, or has none still. -/
theorem generationAt?_step {b : Board H} {st : Step H} {i : Nat}
    (h : ¬ (st = .number i ∧ b.progress? i = some .admitted)) :
    (b.step st).generationAt? i = b.generationAt? i := by
  have hc := entry_step b st i {}
  simp only [progress?] at h
  unfold generationAt?
  generalize hear i b st {} = h' at hc
  generalize (b.step st).entries[i]? = e' at hc ⊢
  generalize b.entries[i]? = e at hc h ⊢
  cases hc with
  | same e => rfl
  | handedIn s => rfl
  | moved rule =>
    obtain hq | ⟨hst, rfl, -⟩ := rule.generation?
    · simpa using hq
    · exact absurd ⟨hst, rfl⟩ h

theorem size_step (b : Board H) (st : Step H) : b.entries.size ≤ (b.step st).entries.size := by
  by_contra hlt
  have hc := entry_step b st (b.step st).entries.size {}
  have hnone : (b.step st).entries[(b.step st).entries.size]? = none := Array.getElem?_eq_none (Nat.le_refl _)
  have hsome := Array.getElem?_eq_getElem (Nat.lt_of_not_le hlt)
  rw [hnone, hsome] at hc
  generalize hear _ b st {} = h' at hc
  generalize b.entries[(b.step st).entries.size] = e at hc
  cases hc

theorem size_run (b : Board H) (steps : List (Step H)) : b.entries.size ≤ (b.run steps).entries.size := by
  induction steps generalizing b with
  | nil => exact Nat.le_refl _
  | cons st rest ih => exact Nat.le_trans (size_step b st) (ih _)

/-! ### The numbering -/

/-- The generations that submissions have taken are the numbers up to that of the board, each taken once. -/
structure Numbered (b : Board H) : Prop where
  bounds : ∀ {i g}, b.generationAt? i = some g → 0 < g ∧ g ≤ b.generation
  distinct : ∀ {i j g}, b.generationAt? i = some g → b.generationAt? j = some g → i = j
  taken : ∀ {g}, 0 < g → g ≤ b.generation → ∃ i, b.generationAt? i = some g

/-- A submission without a generation leaves room for one more. -/
theorem Numbered.generation_lt {b : Board H} (h : Numbered b) {i : Nat} (hi : i < b.entries.size)
    (hg : b.generationAt? i = none) : b.generation < b.entries.size := by
  have hplace : ∀ k : Fin b.generation, ∃ j : Fin b.entries.size, b.generationAt? j = some (k.val + 1) := by
    intro k
    obtain ⟨j, hj⟩ := h.taken (Nat.succ_pos k) k.isLt
    have hlt : j < b.entries.size := by
      by_contra hle
      simp [generationAt?, Array.getElem?_eq_none (Nat.le_of_not_lt hle)] at hj
    exact ⟨⟨j, hlt⟩, hj⟩
  choose place hspec using hplace
  have hinj : Function.Injective place := by
    intro k l hkl
    have hk := hspec k
    rw [hkl, hspec l] at hk
    exact Fin.ext (by simpa using hk.symm)
  have hfree : (⟨i, hi⟩ : Fin b.entries.size) ∉ Set.range place := by
    rintro ⟨k, hk⟩
    have := hspec k
    rw [hk, hg] at this
    cases this
  simpa using Fintype.card_lt_of_injective_of_notMem place hinj hfree

/-- While it is mounted a board has no closing under way, and its submissions are numbered. -/
def WellNumbered (b : Board H) : Prop := b.mounted = true → b.closing = 0 ∧ Numbered b

theorem wellNumbered_init : WellNumbered ({} : Board H) :=
  fun _ => ⟨rfl, by simp [generationAt?], by simp [generationAt?], fun h hle => absurd h (by simpa using hle)⟩

theorem nextGeneration_eq {g : Nat} (h : g + 1 < 2 ^ 64) : nextGeneration g = g + 1 := Nat.mod_eq_of_lt h

/-- While the board is mounted a step that counts is one that numbers a submission. -/
theorem number_of_counts {b : Board H} {st : Step H} (hc : b.closing = 0) (h : b.counts st = true) :
    ∃ i, st = .number i ∧ b.progress? i = some .admitted := by
  cases st with
  | number i => exact ⟨i, rfl, counts_number.mp h⟩
  | retire => simp [counts, hc] at h
  | _ => cases h

/-- The number after the last one goes to the submission that is numbered. -/
theorem Numbered.number {b : Board H} (h : Numbered b) (hn : b.entries.size < 2 ^ 64) {i : Nat}
    (hi : b.progress? i = some .admitted) : Numbered (b.step (.number i)) ∧
      (b.step (.number i)).generation = b.generation + 1 := by
  obtain ⟨s, he⟩ := entry_of_progress? hi
  have hnone : b.generationAt? i = none := generationAt?_eq he
  have hi' : i < b.entries.size := by
    by_contra hle
    simp [Array.getElem?_eq_none (Nat.le_of_not_lt hle)] at he
  have hroom := h.generation_lt hi' hnone
  have hnext : nextGeneration b.generation = b.generation + 1 := nextGeneration_eq (by omega)
  have hgen : (b.step (.number i)).generation = b.generation + 1 := by
    rw [generation_step, if_pos (counts_number.mpr hi), hnext]
  have hself : (b.step (.number i)).generationAt? i = some (b.generation + 1) := by
    rw [generationAt?_number hi, hnext]
  have hother : ∀ j, j ≠ i → (b.step (.number i)).generationAt? j = b.generationAt? j :=
    fun j hj => generationAt?_step (by rintro ⟨hst, -⟩; cases hst; exact hj rfl)
  -- A generation after the step is the new one or one from before, which is smaller.
  have hold : ∀ {j g}, j ≠ i → (b.step (.number i)).generationAt? j = some g → 0 < g ∧ g ≤ b.generation := by
    intro j g hj hg
    rw [hother j hj] at hg
    exact h.bounds hg
  refine ⟨⟨?_, ?_, ?_⟩, hgen⟩
  · intro j g hg
    rw [hgen]
    by_cases hj : j = i
    · subst hj
      rw [hself] at hg
      cases hg
      omega
    · have := hold hj hg
      omega
  · intro j k g hj hk
    by_cases hji : j = i <;> by_cases hki : k = i
    · rw [hji, hki]
    · subst hji
      rw [hself] at hj
      cases hj
      have := hold hki hk
      omega
    · subst hki
      rw [hself] at hk
      cases hk
      have := hold hji hj
      omega
    · rw [hother j hji] at hj
      rw [hother k hki] at hk
      exact h.distinct hj hk
  · intro g hpos hle
    rw [hgen] at hle
    by_cases hg : g = b.generation + 1
    · exact ⟨i, hg ▸ hself⟩
    · obtain ⟨j, hj⟩ := h.taken hpos (by omega)
      have hji : j ≠ i := by
        rintro rfl
        rw [hnone] at hj
        cases hj
      exact ⟨j, by rw [hother j hji, hj]⟩

/-- While the board stays mounted its generation stays or becomes the next number. -/
theorem WellNumbered.step {b : Board H} (h : WellNumbered b) (hn : b.entries.size < 2 ^ 64) (st : Step H) :
    WellNumbered (b.step st) ∧ ((b.step st).mounted = true → b.generation ≤ (b.step st).generation) := by
  rw [WellNumbered, ← imp_and]
  intro hm'
  have hm := mounted_of_step hm'
  obtain ⟨hc, hnum⟩ := h hm
  have hclosing : (b.step st).closing = 0 := by
    rw [closing_step]
    rw [mounted_step] at hm'
    cases st <;> simp_all
  by_cases hcount : b.counts st = true
  · obtain ⟨i, rfl, hi⟩ := number_of_counts hc hcount
    obtain ⟨hnum', hgen⟩ := hnum.number hn hi
    exact ⟨⟨hclosing, hnum'⟩, by omega⟩
  · have hgen : (b.step st).generation = b.generation := by rw [generation_step, if_neg hcount]
    have hat : ∀ i, (b.step st).generationAt? i = b.generationAt? i := by
      intro i
      refine generationAt?_step ?_
      rintro ⟨rfl, hi⟩
      exact hcount (counts_number.mpr hi)
    refine ⟨⟨hclosing, ?_, ?_, ?_⟩, by omega⟩
    · intro i g hg
      rw [hgen]
      exact hnum.bounds (hat i ▸ hg)
    · intro i j g hi hj
      exact hnum.distinct (hat i ▸ hi) (hat j ▸ hj)
    · intro g hpos hle
      rw [hgen] at hle
      obtain ⟨i, hi⟩ := hnum.taken hpos hle
      exact ⟨i, by rw [hat, hi]⟩

theorem wellNumbered_run {b : Board H} (h : WellNumbered b) (steps : List (Step H))
    (hn : (b.run steps).entries.size < 2 ^ 64) : WellNumbered (b.run steps) := by
  induction steps generalizing b with
  | nil => exact h
  | cons st rest ih =>
    have hsize := Nat.le_trans (size_step b st) (size_run (b.step st) rest)
    exact ih (h.step (Nat.lt_of_le_of_lt hsize hn) st).1 hn

/-! ### Staleness -/

theorem isLive_iff {b : Board H} {g : Nat} : b.isLive g = true ↔ b.mounted = true ∧ b.generation = g := by
  simp [isLive]

/-- **A generation that may not write will never write again.** -/
theorem stale_step {b : Board H} (h : WellNumbered b) (hn : b.entries.size < 2 ^ 64) (st : Step H) {i g : Nat}
    (hi : b.generationAt? i = some g) (hl : b.isLive g = false) : (b.step st).isLive g = false := by
  rw [← Bool.not_eq_true, isLive_iff]
  rintro ⟨hm', hg⟩
  have hm := mounted_of_step hm'
  have hle := ((h hm).2.bounds hi).2
  have hmono := (h.step hn st).2 hm'
  have : b.isLive g = true := isLive_iff.mpr ⟨hm, by omega⟩
  rw [hl] at this
  cases this

end LivePreview.Preview.Board
