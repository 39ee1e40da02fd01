import LivePreview.Proofs.Source.ParameterList

/-! Why the edits of parameter lists never collide.

Edits are found from arrows backwards and from the heads of functions and callbacks forwards, and each is made between
partners. So the edits that are applied are apart, and an edit that is skipped is inside of an applied one
(`edits_apart_or_nested`). -/
namespace LivePreview.Source

variable {s : List Char} {o : Nat}

namespace ParameterEdit

/-- The parentheses of `e` stand between those of `f`. -/
def Inside (e f : ParameterEdit) : Prop := f.start < e.start ∧ e.stop < f.stop

instance (e f : ParameterEdit) : Decidable (e.Inside f) := inferInstanceAs (Decidable (_ ∧ _))

/-- The parentheses of `e` stand before those of `f`. -/
def Ahead (e f : ParameterEdit) : Prop := e.stop < f.start

/-- What an edit puts between its parentheses, as a cut. -/
def cut (e : ParameterEdit) : Cut := ⟨e.start + 1, e.stop, e.replacement⟩

end ParameterEdit
open ParameterEdit

variable {e f : ParameterEdit}

/-- Edits of one list are one edit; of others, one is ahead of the other or inside. -/
theorem ParameterEdit.Fits.cases (he : e.Fits s) (hf : f.Fits s) :
    e = f ∨ e.Ahead f ∨ f.Ahead e ∨ e.Inside f ∨ f.Inside e := by
  rcases Nat.lt_trichotomy e.start f.start with hlt | heq | hlt
  · rcases he.pair.nested_or_behind hf.pair hlt with h | h
    · exact .inr (.inl h)
    · exact .inr (.inr (.inr (.inr ⟨hlt, h⟩)))
  · obtain ⟨start, stop, replacement⟩ := e
    obtain ⟨start', stop', replacement'⟩ := f
    obtain rfl : start = start' := heq
    obtain rfl : stop = stop' := he.pair.stop_unique hf.pair
    obtain rfl : replacement = replacement' := Option.some.inj (he.list.symm.trans hf.list)
    exact .inl rfl
  · rcases hf.pair.nested_or_behind he.pair hlt with h | h
    · exact .inr (.inr (.inl h))
    · exact .inr (.inr (.inr (.inl ⟨hlt, h⟩)))

/-- The edits that are made, of edits in order from `pos` on: those that begin behind the ones made before. -/
def madeEdits (pos : Nat) : List ParameterEdit → List ParameterEdit
  | [] => []
  | e :: edits => if e.start < pos then madeEdits pos edits else e :: madeEdits e.stop edits

/-- The edits that the stripping of parameter lists makes. -/
def appliedEdits (s : List Char) : List ParameterEdit := madeEdits 0 ((parameterEdits s).mergeSort ParameterEdit.before)

variable {edits : List ParameterEdit}

theorem madeEdits_sublist (pos : Nat) (edits : List ParameterEdit) : (madeEdits pos edits).Sublist edits := by
  induction edits generalizing pos with
  | nil => exact .slnil
  | cons e edits ih =>
    rw [madeEdits]
    split
    case isTrue => exact (ih pos).cons e
    case isFalse => exact (ih e.stop).cons_cons e

theorem editCuts_eq (pos : Nat) (edits : List ParameterEdit) : editCuts pos edits = (madeEdits pos edits).map cut := by
  induction edits generalizing pos with
  | nil => rfl
  | cons e edits ih =>
    rw [editCuts, madeEdits]
    split
    case isTrue => exact ih pos
    case isFalse => rw [ih, List.map_cons, cut]

theorem stripParameterLists_applied (s : List Char) :
    stripParameterLists s = splice s 0 ((appliedEdits s).map cut) := by
  rw [stripParameterLists_eq, parameterCuts, editCuts_eq, appliedEdits]

theorem le_start_of_made (h : e ∈ madeEdits o edits) (hfits : ∀ e ∈ edits, e.Fits s) : o ≤ e.start := by
  induction edits generalizing o with
  | nil => cases h
  | cons f edits ih =>
    obtain ⟨hf, hrest⟩ := List.forall_mem_cons.1 hfits
    rw [madeEdits] at h
    split at h
    case isTrue => exact ih h hrest
    case isFalse hge =>
      rcases List.mem_cons.1 h with rfl | h
      · exact Nat.le_of_not_lt hge
      · have := ih h hrest
        have := hf.pair.lt
        omega

theorem pairwise_madeEdits (hfits : ∀ e ∈ edits, e.Fits s) (pos : Nat) : (madeEdits pos edits).Pairwise Ahead := by
  induction edits generalizing pos with
  | nil => exact .nil
  | cons e edits ih =>
    obtain ⟨he, hrest⟩ := List.forall_mem_cons.1 hfits
    rw [madeEdits]
    split
    case isTrue => exact ih hrest pos
    case isFalse =>
      refine List.pairwise_cons.2 ⟨fun f hf => Nat.lt_of_le_of_ne (le_start_of_made hf hrest) fun heq => ?_, ih hrest _⟩
      -- A closing parenthesis opens nothing.
      have hopens := (hrest f ((madeEdits_sublist _ _).subset hf)).pair.at_start
      rw [← heq, he.pair.at_stop] at hopens
      cases hopens

/-- Of edits in order, one that is not made begins before the others were reached, or is inside of one that is
made. -/
theorem made_or_inside (hfits : ∀ e ∈ edits, e.Fits s) (hsorted : edits.Pairwise fun e f => e.start ≤ f.start)
    (he : e ∈ edits) (pos : Nat) :
    e.start < pos ∨ e ∈ madeEdits pos edits ∨ ∃ f ∈ madeEdits pos edits, e.Inside f := by
  induction edits generalizing pos with
  | nil => cases he
  | cons f edits ih =>
    obtain ⟨hf, hrest⟩ := List.forall_mem_cons.1 hfits
    obtain ⟨hbefore, hsorted⟩ := List.pairwise_cons.1 hsorted
    rw [madeEdits]
    split
    case isTrue hlt =>
      rcases List.mem_cons.1 he with rfl | he
      · exact .inl hlt
      · exact ih hrest hsorted he pos
    case isFalse =>
      rcases List.mem_cons.1 he with rfl | he
      · exact .inr (.inl List.mem_cons_self)
      · have hstart := hbefore e he
        rcases ih hrest hsorted he f.stop with hlt | hmade | ⟨g, hg, hin⟩
        · have hlt' := (hrest e he).pair.lt
          rcases (hrest e he).cases hf with rfl | hahead | hahead | hin | hin
          · exact .inr (.inl List.mem_cons_self)
          · unfold Ahead at hahead
            omega
          · unfold Ahead at hahead
            omega
          · exact .inr (.inr ⟨f, List.mem_cons_self, hin⟩)
          · have := hin.1
            omega
        · exact .inr (.inl (List.mem_cons_of_mem f hmade))
        · exact .inr (.inr ⟨g, List.mem_cons_of_mem f hg, hin⟩)

theorem sorted_parameterEdits (s : List Char) :
    ((parameterEdits s).mergeSort ParameterEdit.before).Pairwise fun e f => e.start ≤ f.start := by
  have htrans (e f g : ParameterEdit) (hef : e.before f = true) (hfg : f.before g = true) : e.before g = true := by
    simp [ParameterEdit.before] at hef hfg ⊢
    omega
  have htotal (e f : ParameterEdit) : (e.before f || f.before e) = true := by
    simp [ParameterEdit.before]
    omega
  refine (List.pairwise_mergeSort htrans htotal (parameterEdits s)).imp fun {e f} h => ?_
  simp [ParameterEdit.before] at h
  omega

theorem fits_sorted (s : List Char) : ∀ e ∈ (parameterEdits s).mergeSort ParameterEdit.before, e.Fits s :=
  fun _ he => parameterEdits_fit (List.mem_mergeSort.1 he)

theorem mem_of_applied (h : e ∈ appliedEdits s) : e ∈ parameterEdits s :=
  List.mem_mergeSort.1 ((madeEdits_sublist _ _).subset h)

theorem pairwise_appliedEdits (s : List Char) : (appliedEdits s).Pairwise Ahead := pairwise_madeEdits (fits_sorted s) 0

theorem applied_or_inside (he : e ∈ parameterEdits s) : e ∈ appliedEdits s ∨ ∃ f ∈ appliedEdits s, e.Inside f := by
  rcases made_or_inside (fits_sorted s) (sorted_parameterEdits s) (List.mem_mergeSort.2 he) 0 with hlt | h
  · exact absurd hlt (Nat.not_lt_zero _)
  · exact h

/-- **The edits of parameter lists never collide.** Every edit stands between partners; of two edits that are not the
same, the parentheses of one stand before those of the other or between them. Every edit is applied or stands inside
of an applied one. The applied ones are apart, in order, and the result is the text with what stands between their
parentheses replaced and all else in place. -/
theorem edits_apart_or_nested (s : List Char) :
    (∀ e ∈ parameterEdits s, e.Fits s) ∧
    (∀ e ∈ parameterEdits s, ∀ f ∈ parameterEdits s,
      e = f ∨ e.Ahead f ∨ f.Ahead e ∨ e.Inside f ∨ f.Inside e) ∧
    (∀ e ∈ parameterEdits s, e ∈ appliedEdits s ∨ ∃ f ∈ appliedEdits s, e.Inside f) ∧
    (∀ e ∈ appliedEdits s, e ∈ parameterEdits s) ∧
    (appliedEdits s).Pairwise Ahead ∧
    stripParameterLists s = splice s 0 ((appliedEdits s).map cut) :=
  ⟨fun _ => parameterEdits_fit, fun _ he _ hf => (parameterEdits_fit he).cases (parameterEdits_fit hf),
    fun _ => applied_or_inside, fun _ => mem_of_applied, pairwise_appliedEdits s, stripParameterLists_applied s⟩

end LivePreview.Source
