import LivePreview.Proofs.Source.Mass
import LivePreview.Proofs.Text.Digits

/-! Hiding literals and putting them back.

A text with placeholders stands for one text (`Veils`), the one that `restore` gives. What `mask` makes of a text
stands for that text, so hiding and putting back loses nothing. Parts of a text with placeholders stand for parts of
what it stands for, as long as the cut does not go through a placeholder; no cut before something solid does. -/
namespace LivePreview.Source

/-- The text `t` stands for `s`, where `hidden` are the literals by their numbers. -/
inductive Veils (hidden : Array (List Char)) : List Char → List Char → Prop
  | nil : Veils hidden [] []
  | char {c t s} (hc : c ≠ hideOpen) (h : Veils hidden t s) : Veils hidden (c :: t) (c :: s)
  | literal {i literal t s} (hi : hidden[i]? = some literal) (h : Veils hidden t s) :
      Veils hidden (placeholder i literal ++ t) (literal ++ s)

/-- What a placeholder holds between its two marks. -/
def placeholderInner (i : Nat) (literal : List Char) : List Char :=
  (toString i).toList ++ literal.filter (· == '\n')

theorem placeholder_eq (i : Nat) (literal : List Char) :
    placeholder i literal = hideOpen :: (placeholderInner i literal ++ [hideClose]) := by
  simp [placeholder, placeholderInner]

theorem placeholderInner_cases {i : Nat} {literal : List Char} {c : Char} (h : c ∈ placeholderInner i literal) :
    Text.isDigit c = true ∨ c = '\n' := by
  rcases List.mem_append.1 h with h | h
  · exact .inl (Text.isDigit_of_mem h)
  · exact .inr (by simpa using (List.mem_filter.1 h).2)

theorem placeholderInner_ne {i : Nat} {literal : List Char} {c : Char} (h : c ∈ placeholderInner i literal) :
    c ≠ hideOpen ∧ c ≠ hideClose := by
  rcases placeholderInner_cases h with h | h
  · constructor
    · rintro rfl
      revert h
      decide
    · rintro rfl
      revert h
      decide
  · subst h
    decide

theorem placeholderIndex?_inner (i : Nat) (literal : List Char) :
    placeholderIndex? (placeholderInner i literal) = some i := by
  have hdigits : ((placeholderInner i literal).reverse.dropWhile (· == '\n')).reverse = (toString i).toList := by
    have hbreaks : ∀ c ∈ (literal.filter (· == '\n')).reverse, (c == '\n') = true := fun c hc =>
      (List.mem_filter.1 (List.mem_reverse.1 hc)).2
    rw [placeholderInner, List.reverse_append, List.dropWhile_append_of_pos hbreaks]
    have hlast : (toString i).toList.reverse.dropWhile (· == '\n') = (toString i).toList.reverse := by
      cases hr : (toString i).toList.reverse with
      | nil => rfl
      | cons c r =>
        have hmem : c ∈ (toString i).toList := List.mem_reverse.1 (hr ▸ List.mem_cons_self)
        refine List.dropWhile_cons_of_neg ?_
        rintro hc
        rw [beq_iff_eq.1 hc] at hmem
        exact absurd (Text.isDigit_of_mem hmem) (by decide)
    rw [hlast, List.reverse_reverse]
  have hne : (toString i).toList.isEmpty = false := by
    rw [Nat.toString_eq_repr, Nat.toList_repr]
    cases hr : Nat.toDigits 10 i with
    | nil => exact absurd hr Nat.toDigits_ne_nil
    | cons _ _ => rfl
  have hall : (toString i).toList.all Text.isDigit = true := List.all_eq_true.2 fun c => Text.isDigit_of_mem
  have hvalue : (toString i).toList.foldl (fun n c => n * 10 + (c.toNat - '0'.toNat)) 0 = i := by
    rw [Nat.toString_eq_repr, Nat.toList_repr]
    simpa [Nat.ofDigitChars, Nat.mul_comm] using Nat.ofDigitChars_ten_toDigits (n := i)
  simp only [placeholderIndex?, hdigits, hne, hall, hvalue]
  rfl

/-- Behind its first mark a placeholder is as light as white space. -/
theorem light_of_mem {i : Nat} {literal : List Char} {c : Char}
    (h : c ∈ placeholderInner i literal ++ [hideClose]) : c ≠ hideOpen ∧ solid c = false := by
  rcases List.mem_append.1 h with h | h
  · refine ⟨(placeholderInner_ne h).1, ?_⟩
    rcases placeholderInner_cases h with h | rfl
    · simp [solid, h]
    · decide
  · rw [List.mem_singleton.1 h]
    decide

variable {hidden : Array (List Char)} {t s a b : List Char}

/-- A text stands for the same in front of every other. -/
theorem restore_append (h : Veils hidden t s) (b : List Char) : restore hidden (t ++ b) = s ++ restore hidden b := by
  induction h with
  | nil => rfl
  | char hc _ ih => simp [restore, hc, ih]
  | @literal i literal t s hi _ ih =>
    have hno : ∀ c ∈ placeholderInner i literal, (c != hideClose) = true := fun c hc =>
      bne_iff_ne.2 (placeholderInner_ne hc).2
    have hinner : (placeholderInner i literal ++ hideClose :: (t ++ b)).takeWhile (· != hideClose) =
        placeholderInner i literal := by
      rw [List.takeWhile_append_of_pos hno]
      simp
    have hrest : (placeholderInner i literal ++ hideClose :: (t ++ b)).dropWhile (· != hideClose) =
        hideClose :: (t ++ b) := by
      rw [List.dropWhile_append_of_pos hno]
      simp
    have hdrop : (placeholderInner i literal ++ hideClose :: (t ++ b)).drop
        ((placeholderInner i literal).length + 1) = t ++ b := by
      simp [List.drop_append]
    have happend : placeholder i literal ++ t ++ b =
        hideOpen :: (placeholderInner i literal ++ hideClose :: (t ++ b)) := by
      simp [placeholder_eq]
    rw [happend, restore]
    simp only [hinner, hrest, hdrop, placeholderIndex?_inner, ih]
    simp [hi]

theorem restore_of_veils (h : Veils hidden t s) : restore hidden t = s := by
  have hwhole := restore_append h []
  simpa [restore] using hwhole

/-! ### Parts of a text with placeholders -/

namespace Veils

theorem append (ha : Veils hidden a s) {s' : List Char} (hb : Veils hidden b s') : Veils hidden (a ++ b) (s ++ s') := by
  induction ha with
  | nil => exact hb
  | char hc _ ih => exact .char hc ih
  | literal hi _ ih =>
    rw [List.append_assoc, List.append_assoc]
    exact .literal hi ih

/-- A text without placeholders stands for itself. -/
theorem self (h : ∀ c ∈ s, c ≠ hideOpen) : Veils hidden s s := by
  induction s with
  | nil => exact .nil
  | cons c s ih => exact .char (h c List.mem_cons_self) (ih fun d hd => h d (List.mem_cons_of_mem c hd))

theorem of_cons {c : Char} (hc : c ≠ hideOpen) (h : Veils hidden (c :: t) s) :
    ∃ s', s = c :: s' ∧ Veils hidden t s' := by
  generalize ht : c :: t = u at h
  cases h with
  | nil => exact nomatch ht
  | char _ h =>
    cases ht
    exact ⟨_, rfl, h⟩
  | literal hi h =>
    rw [placeholder_eq] at ht
    exact absurd (List.cons.inj ht).1 hc

/-- Every end of a text stands for a text, which is no heavier. -/
theorem tail (h : Veils hidden (a ++ b) s) : ∃ s', Veils hidden b s' ∧ mass s' ≤ mass s := by
  generalize ht : a ++ b = t at h
  induction h generalizing a with
  | nil =>
    obtain ⟨rfl, rfl⟩ := List.append_eq_nil_iff.1 ht
    exact ⟨[], .nil, Nat.le_refl _⟩
  | @char c t s hc h ih =>
    cases a with
    | nil =>
      subst ht
      exact ⟨c :: s, .char hc h, Nat.le_refl _⟩
    | cons d a =>
      obtain ⟨s', hb, hle⟩ := ih (List.cons.inj ht).2
      exact ⟨s', hb, by simp; omega⟩
  | @literal i literal t s hi h ih =>
    cases a with
    | nil =>
      subst ht
      exact ⟨literal ++ s, .literal hi h, Nat.le_refl _⟩
    | cons d a =>
      rw [placeholder_eq, List.cons_append, List.cons_append] at ht
      obtain ⟨x, hx, rfl⟩ | ⟨x, ha, hx⟩ := List.append_eq_append_iff.1 (List.cons.inj ht).2
      · -- The end of the placeholder stands for itself.
        have hlight : ∀ c ∈ x, c ≠ hideOpen ∧ solid c = false := fun c hc =>
          light_of_mem (hx ▸ List.mem_append_right a hc)
        refine ⟨x ++ s, (self fun c hc => (hlight c hc).1).append h, ?_⟩
        rw [mass_append, mass_append, mass_eq_zero fun c hc => (hlight c hc).2]
        omega
      · obtain ⟨s', hb, hle⟩ := ih hx.symm
        exact ⟨s', hb, by simp; omega⟩

/-- No placeholder is cut before something solid. -/
theorem cut (h : Veils hidden (a ++ b) s) (hb : Opens b) :
    ∃ s₁ s₂, s = s₁ ++ s₂ ∧ Veils hidden a s₁ ∧ Veils hidden b s₂ := by
  generalize ht : a ++ b = t at h
  induction h generalizing a with
  | nil =>
    obtain ⟨rfl, rfl⟩ := List.append_eq_nil_iff.1 ht
    exact ⟨[], [], rfl, .nil, .nil⟩
  | @char c t s hc h ih =>
    cases a with
    | nil =>
      subst ht
      exact ⟨[], c :: s, rfl, .nil, .char hc h⟩
    | cons d a =>
      obtain ⟨rfl, hrest⟩ := List.cons.inj ht
      obtain ⟨s₁, s₂, rfl, h₁, h₂⟩ := ih hrest
      exact ⟨d :: s₁, s₂, rfl, .char hc h₁, h₂⟩
  | @literal i literal t s hi h ih =>
    cases a with
    | nil =>
      subst ht
      exact ⟨[], literal ++ s, rfl, .nil, .literal hi h⟩
    | cons d a =>
      rw [placeholder_eq, List.cons_append, List.cons_append] at ht
      obtain ⟨rfl, hrest⟩ := List.cons.inj ht
      obtain ⟨x, hx, rfl⟩ | ⟨x, rfl, rfl⟩ := List.append_eq_append_iff.1 hrest
      · cases x with
        | nil =>
          obtain ⟨s₁, s₂, rfl, h₁, h₂⟩ := ih (a := []) rfl
          rw [List.append_nil] at hx
          refine ⟨literal ++ s₁, s₂, by simp, ?_, h₂⟩
          have hwhole := Veils.literal hi h₁
          rwa [placeholder_eq, List.append_nil, hx] at hwhole
        | cons e x =>
          exfalso
          obtain ⟨blank, c, r, heq, hblank, hc⟩ := hb
          have hlight : ∀ d ∈ e :: x, solid d = false := fun d hd =>
            (light_of_mem (hx ▸ List.mem_append_right a hd)).2
          have hclose : hideClose ∈ e :: x := by
            obtain hnil | ⟨y, z, hyz⟩ := List.eq_nil_or_concat (e :: x)
            · exact nomatch hnil
            · rw [hyz, List.concat_eq_append, ← List.append_assoc] at hx
              rw [hyz, List.concat_eq_append, ← (List.cons.inj (List.append_inj' hx rfl).2).1]
              simp
          obtain ⟨y, hy, -⟩ | ⟨y, hy, heq⟩ := List.append_eq_append_iff.1 heq
          · have hspace := hblank hideClose (hy ▸ List.mem_append_left y hclose)
            exact absurd hspace (by decide)
          · cases y with
            | nil =>
              have hspace := hblank hideClose (by simpa [hy] using hclose)
              exact absurd hspace (by decide)
            | cons f y =>
              obtain ⟨rfl, -⟩ := List.cons.inj heq
              exact absurd hc (by simp [hlight c (hy ▸ List.mem_append_right _ List.mem_cons_self)])
      · obtain ⟨s₁, s₂, rfl, h₁, h₂⟩ := ih rfl
        refine ⟨literal ++ s₁, s₂, by simp, ?_, h₂⟩
        have hwhole := Veils.literal hi h₁
        rwa [placeholder_eq] at hwhole

end Veils

/-- A text with placeholders is counted by the mass of what it stands for. -/
theorem measure_veils (hidden : Array (List Char)) :
    Pattern.Measure Opens fun t n => ∃ s, Veils hidden t s ∧ mass s = n where
  append := by
    rintro a b _ _ ⟨s, ha, rfl⟩ ⟨s', hb, rfl⟩
    exact ⟨s ++ s', ha.append hb, mass_append s s'⟩
  cut := by
    rintro a gap b _ ⟨s, h, rfl⟩ hgap
    rw [List.append_assoc] at h
    obtain ⟨s₁, s₂, rfl, h₁, h₂⟩ := h.cut (hgap.append b)
    obtain ⟨blank, c, r, rfl, -, hc⟩ := hgap
    have hopen : c ≠ hideOpen := by
      rintro rfl
      exact absurd hc (by decide)
    rw [List.append_assoc] at h₂
    obtain ⟨s₃, h₃, hle₃⟩ := h₂.tail
    obtain ⟨s₄, rfl, h₄⟩ := Veils.of_cons hopen h₃
    obtain ⟨s₅, h₅, hle₅⟩ := h₄.tail
    refine ⟨mass s₁, mass s₅, ⟨s₁, h₁, rfl⟩, ⟨s₅, h₅, rfl⟩, ?_⟩
    simp only [mass_cons, mass_append, hc, if_true] at *
    omega

/-! ### Masked texts -/

/-- Spans that are not empty, one after another from `pos` on. -/
def InOrder (pos : Nat) : List Span → Prop
  | [] => True
  | t :: spans => pos ≤ t.start ∧ t.start < t.stop ∧ InOrder t.stop spans

theorem InOrder.mono {lo pos : Nat} {spans : List Span} (h : InOrder pos spans) (hle : lo ≤ pos) :
    InOrder lo spans := by
  cases spans with
  | nil => trivial
  | cons t spans => exact ⟨Nat.le_trans hle h.1, h.2⟩

/-- A content ends before its step does. -/
theorem lexStep_content {mode : Mode} {below : List Mode} {before : List Char} {c : Char} {rest : List Char} {t : Span}
    (h : (lexStep mode below before c rest).content = some t) :
    t.stop ≤ (lexStep mode below before c rest).width := by
  unfold lexStep LexStep.string at *
  grind

/-- Where the spans from a place may begin: where the run of text in progress began, or here. -/
def TextRun.begin (pos : Nat) : Option TextRun → Nat
  | some run => run.start
  | none => pos

theorem begin_le {pos : Nat} {run : Option TextRun} (hrun : ∀ r, run = some r → r.start < pos) :
    TextRun.begin pos run ≤ pos := by
  cases run with
  | none => exact Nat.le_refl pos
  | some r => exact Nat.le_of_lt (hrun r rfl)

/-- A run that ends here stands before the spans from here on. -/
theorem inOrder_run {pos : Nat} {run : Option TextRun} {spans : List Span}
    (hrun : ∀ r, run = some r → r.start < pos) (h : InOrder pos spans) :
    InOrder (TextRun.begin pos run) (TextRun.spans pos run ++ spans) := by
  rcases run with - | ⟨start, - | -⟩
  · exact h
  · exact h.mono (begin_le hrun)
  · exact ⟨Nat.le_refl start, hrun _ rfl, h⟩

theorem inOrder_spansFrom (modes : List Mode) (before : List Char) (pos : Nat) (run : Option TextRun)
    (s : List Char) (hrun : ∀ r, run = some r → r.start < pos) :
    InOrder (TextRun.begin pos run) (spansFrom modes before pos run s) := by
  fun_induction spansFrom modes before pos run s with
  | case1 modes before pos run =>
    have h := inOrder_run hrun (show InOrder pos [] from trivial)
    rwa [List.append_nil] at h
  | case2 => trivial
  | case3 before pos run c r mode below _ ih =>
    have hadd := ih fun _ h => by
      cases h
      cases run with
      | none => exact Nat.lt_succ_self pos
      | some run => exact Nat.lt_succ_of_lt (hrun run rfl)
    cases run with
    | none => exact hadd
    | some run => exact hadd
  | case4 before pos run c r mode below _ s content after ih =>
    rw [List.append_assoc]
    refine inOrder_run hrun ?_
    have hrest := ih fun _ h => nomatch h
    cases hs : s.content with
    | none =>
      simp only [content, hs, List.nil_append]
      exact hrest.mono (Nat.le_add_right pos s.width)
    | some t =>
      have hstop : t.stop ≤ s.width := lexStep_content hs
      simp only [content, hs]
      split
      case isTrue hlt =>
        exact ⟨Nat.le_add_right pos t.start, Nat.add_lt_add_left hlt pos, hrest.mono (Nat.add_le_add_left hstop pos)⟩
      case isFalse => exact hrest.mono (Nat.le_add_right pos s.width)

theorem inOrder_literalSpans (s : List Char) : InOrder 0 (literalSpans s) :=
  inOrder_spansFrom [.code 0] [] 0 none s fun _ h => nomatch h

theorem veils_hideFrom {i pos : Nat} {rest : List Char} {spans : List Span} (hspans : InOrder pos spans)
    (hno : ∀ c ∈ rest, c ≠ hideOpen)
    (hhidden : ∀ j l, (hideFrom i pos rest spans).2[j]? = some l → hidden[i + j]? = some l) :
    Veils hidden (hideFrom i pos rest spans).1 rest := by
  induction spans generalizing i pos rest with
  | nil => exact .self hno
  | cons t spans ih =>
    obtain ⟨hstart, hstop, hspans⟩ := hspans
    simp only [hideFrom] at hhidden ⊢
    have hsplit : rest.take (t.start - pos) ++
        ((rest.drop (t.start - pos)).take (t.stop - t.start) ++ rest.drop (t.stop - pos)) = rest := by
      have hdrop : rest.drop (t.stop - pos) = (rest.drop (t.start - pos)).drop (t.stop - t.start) := by
        rw [List.drop_drop]
        congr 1
        omega
      rw [hdrop, List.take_append_drop, List.take_append_drop]
    have hrest : Veils hidden (hideFrom (i + 1) t.stop (rest.drop (t.stop - pos)) spans).1 (rest.drop (t.stop - pos)) :=
      ih hspans (fun c hc => hno c (List.mem_of_mem_drop hc)) fun j l hj => by
        have := hhidden (j + 1) l (by simpa using hj)
        rwa [Nat.add_comm j 1, ← Nat.add_assoc] at this
    have hliteral := Veils.literal (hhidden 0 _ rfl) hrest
    have hkept : Veils hidden (rest.take (t.start - pos)) (rest.take (t.start - pos)) :=
      .self fun c hc => hno c (List.mem_of_mem_take hc)
    have hwhole := hkept.append hliteral
    rwa [hsplit, ← List.append_assoc] at hwhole

/-- **What masking makes of a text stands for that text.** -/
theorem veils_mask (h : s.any isHideMark = false) : Veils (mask s).hidden (mask s).text s := by
  refine veils_hideFrom (inOrder_literalSpans s) (fun c hc => ?_) fun j l hj => ?_
  · rintro rfl
    have := List.any_eq_false.1 h hideOpen hc
    exact this rfl
  · rw [Nat.zero_add]
    simpa [mask] using hj

/-- Hiding literals and putting them back gives the text back. -/
theorem restore_mask (h : s.any isHideMark = false) : restore (mask s).hidden (mask s).text = s :=
  restore_of_veils (veils_mask h)

end LivePreview.Source
