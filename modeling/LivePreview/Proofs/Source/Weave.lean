import LivePreview.Proofs.Source.Octets
import LivePreview.Proofs.Source.Sieve

/-! Rewrites of masked texts.

A text is its literals with gaps around them, and masked it is the placeholders of those literals with the same gaps.
A rewrite may change the gaps as it likes: as long as it keeps the placeholders, what comes of it is its own gaps with
the literals between them. -/
namespace LivePreview.Source

/-- Parts one after another, each with the gap behind it, and the first gap before them all. -/
def weave (first : List Char) (parts gaps : List (List Char)) : List Char :=
  first ++ (List.zipWith (· ++ ·) parts gaps).flatten

@[simp] theorem weave_nil (first : List Char) (gaps : List (List Char)) : weave first [] gaps = first := by
  simp [weave]

@[simp] theorem weave_cons (first part gap : List Char) (parts gaps : List (List Char)) :
    weave first (part :: parts) (gap :: gaps) = first ++ part ++ weave gap parts gaps := by
  simp [weave]

/-- The literals of a text. -/
def literalTexts (s : List Char) : List (List Char) :=
  (literalSpans s).map fun t => (s.drop t.start).take (t.stop - t.start)

/-- The placeholders of literals, numbered from `i` on. -/
def placeholders (i : Nat) : List (List Char) → List (List Char)
  | [] => []
  | literal :: rest => placeholder i literal :: placeholders (i + 1) rest

/-- The gaps hold no character of the placeholders. -/
def Unmarked (first : List Char) (gaps : List (List Char)) : Prop :=
  first.any isHideMark = false ∧ ∀ gap ∈ gaps, gap.any isHideMark = false

theorem ne_hideOpen_of_unmarked {s : List Char} (h : s.any isHideMark = false) : ∀ c ∈ s, c ≠ hideOpen := by
  rintro c hc rfl
  exact List.any_eq_false.1 h hideOpen hc rfl

theorem not_marked_of_subset {s t : List Char} (h : s.any isHideMark = false) (hsub : t ⊆ s) :
    t.any isHideMark = false :=
  List.any_eq_false.2 fun c hc => List.any_eq_false.1 h c (hsub hc)

/-! ### The text and its mask -/

theorem hideFrom_literals {s : List Char} {i pos : Nat} {spans : List Span} (hspans : InOrder pos spans) :
    (hideFrom i pos (s.drop pos) spans).2 = spans.map fun t => (s.drop t.start).take (t.stop - t.start) := by
  induction spans generalizing i pos with
  | nil => rfl
  | cons t spans ih =>
    obtain ⟨hstart, hstop, hspans⟩ := hspans
    have hrest : (s.drop pos).drop (t.stop - pos) = s.drop t.stop := by
      rw [List.drop_drop, Nat.add_sub_cancel' (by omega)]
    have hliteral : (s.drop pos).drop (t.start - pos) = s.drop t.start := by
      rw [List.drop_drop, Nat.add_sub_cancel' hstart]
    simp only [hideFrom, hrest, hliteral, ih hspans, List.map_cons]

/-- What masking hides are the literals. -/
theorem mask_hidden (s : List Char) : (mask s).hidden = (literalTexts s).toArray :=
  congrArg List.toArray (hideFrom_literals (i := 0) (inOrder_literalSpans s))

/-- Masking hides all markup. -/
theorem markup_sublist (s : List Char) : (markup s).Sublist (literalTexts s) := by
  have htexts : literalTexts s = (literals s).map (·.2.text s) := by
    rw [literalTexts, ← literals_spans, List.map_map]
    exact List.map_congr_left fun l _ => (List.drop_take ..).symm
  rw [htexts]
  exact List.filter_sublist.map _

theorem weave_hideFrom {i pos : Nat} {rest : List Char} {spans : List Span} (hspans : InOrder pos spans) :
    ∃ first gaps, gaps.length = spans.length ∧ first ⊆ rest ∧ (∀ gap ∈ gaps, gap ⊆ rest) ∧
      rest = weave first (hideFrom i pos rest spans).2 gaps ∧
      (hideFrom i pos rest spans).1 = weave first (placeholders i (hideFrom i pos rest spans).2) gaps := by
  induction spans generalizing i pos rest with
  | nil => exact ⟨rest, [], rfl, List.Subset.refl rest, fun _ h => absurd h List.not_mem_nil, (weave_nil rest []).symm,
      (weave_nil rest []).symm⟩
  | cons t spans ih =>
    obtain ⟨hstart, hstop, hspans⟩ := hspans
    obtain ⟨first, gaps, hlength, hfirst, hgaps, hrest, htext⟩ :=
      @ih (i + 1) t.stop (rest.drop (t.stop - pos)) hspans
    have hsub : rest.drop (t.stop - pos) ⊆ rest := List.drop_subset _ rest
    have hdrop : rest.drop (t.stop - pos) = (rest.drop (t.start - pos)).drop (t.stop - t.start) := by
      rw [List.drop_drop]
      congr 1
      omega
    refine ⟨rest.take (t.start - pos), first :: gaps, congrArg (· + 1) hlength, List.take_subset _ rest, ?_, ?_, ?_⟩
    · rintro gap (- | ⟨_, hgap⟩)
      · exact List.Subset.trans hfirst hsub
      · exact List.Subset.trans (hgaps gap hgap) hsub
    · simp only [hideFrom, weave_cons, ← hrest]
      rw [hdrop, List.append_assoc, List.take_append_drop, List.take_append_drop]
    · simp only [hideFrom, placeholders, weave_cons, ← htext]

/-- A text is its literals with gaps around them, and its mask is their placeholders with the same gaps. -/
theorem weave_mask {s : List Char} (hs : s.any isHideMark = false) :
    ∃ first gaps, gaps.length = (literalTexts s).length ∧ Unmarked first gaps ∧ s = weave first (literalTexts s) gaps ∧
      (mask s).text = weave first (placeholders 0 (literalTexts s)) gaps := by
  obtain ⟨first, gaps, hlength, hfirst, hgaps, htext, hmask⟩ :=
    @weave_hideFrom 0 0 s _ (inOrder_literalSpans s)
  have hliterals : (hideFrom 0 0 s (literalSpans s)).2 = literalTexts s :=
    hideFrom_literals (i := 0) (inOrder_literalSpans s)
  rw [hliterals] at htext hmask
  refine ⟨first, gaps, ?_, ⟨not_marked_of_subset hs hfirst, fun gap hgap => not_marked_of_subset hs (hgaps gap hgap)⟩,
    htext, hmask⟩
  rw [hlength, literalTexts, List.length_map]

/-! ### Putting back -/

theorem veils_weave {hidden : Array (List Char)} {i : Nat} {first : List Char} {parts gaps : List (List Char)}
    (hparts : ∀ j, hidden[i + j]? = parts[j]?) (hlength : gaps.length = parts.length) (h : Unmarked first gaps) :
    Veils hidden (weave first (placeholders i parts) gaps) (weave first parts gaps) := by
  induction parts generalizing i first gaps with
  | nil => simpa [placeholders] using Veils.self (ne_hideOpen_of_unmarked h.1)
  | cons part parts ih =>
    cases gaps with
    | nil => cases hlength
    | cons gap gaps =>
      obtain ⟨hfirst, hgaps⟩ := h
      have hrest : Veils hidden (weave gap (placeholders (i + 1) parts) gaps) (weave gap parts gaps) := by
        refine ih (fun j => ?_) (Nat.succ.inj hlength)
          ⟨hgaps gap List.mem_cons_self, fun g hg => hgaps g (List.mem_cons_of_mem gap hg)⟩
        rw [Nat.add_assoc, Nat.add_comm 1 j]
        exact hparts (j + 1)
      simp only [placeholders, weave_cons, List.append_assoc]
      exact (Veils.self (ne_hideOpen_of_unmarked hfirst)).append (.literal (hparts 0) hrest)

/-- A rewrite that keeps the placeholders leaves the literals between the gaps it makes. -/
theorem outsideLiterals_weave {s : List Char} (hs : s.any isHideMark = false) {rewrite : List Char → List Char}
    {first : List Char} {gaps : List (List Char)} (hlength : gaps.length = (literalTexts s).length)
    (hgaps : Unmarked first gaps)
    (hrewrite : rewrite (mask s).text = weave first (placeholders 0 (literalTexts s)) gaps) :
    outsideLiterals rewrite s = weave first (literalTexts s) gaps := by
  have hveils : Veils (mask s).hidden (rewrite (mask s).text) (weave first (literalTexts s) gaps) := by
    rw [hrewrite, mask_hidden]
    exact veils_weave (fun j => by simp) hlength hgaps
  rw [outsideLiterals, hs]
  exact restore_of_veils hveils

/-! ### Line ends -/

theorem count_placeholder (i : Nat) (literal : List Char) :
    (placeholder i literal).count '\n' = literal.count '\n' := by
  have hdigits : (toString i).toList.count '\n' = 0 := List.count_eq_zero.2 fun hc =>
    absurd (Text.isDigit_of_mem hc) (by decide)
  have hbreaks : (literal.filter (· == '\n')).count '\n' = literal.count '\n' := List.count_filter rfl
  have hopen : (hideOpen == '\n') = false := rfl
  have hclose : [hideClose].count '\n' = 0 := rfl
  rw [placeholder_eq, List.count_cons, List.count_append, placeholderInner, List.count_append, hdigits, hbreaks, hopen,
    hclose]
  simp

/-- A text with placeholders has the line ends of what it stands for. -/
theorem count_veils {hidden : Array (List Char)} {t s : List Char} (h : Veils hidden t s) :
    t.count '\n' = s.count '\n' := by
  induction h with
  | nil => rfl
  | char _ _ ih => rw [List.count_cons, List.count_cons, ih]
  | literal _ _ ih => rw [List.count_append, List.count_append, count_placeholder, ih]

/-! ### Nothing is lost -/

/-- **Hiding literals loses nothing.** The literals are ranges of the text, one behind another, and in its bytes the
lexer finds them at the same places, always between characters. What is hidden comes back, also from a rewrite that
keeps the placeholders. -/
theorem outsideLiterals_lossless {s : List Char} (hs : s.any isHideMark = false) :
    (∀ t ∈ literalSpans s, t.start < t.stop ∧ t.stop ≤ s.length) ∧
      (literalSpans s).Pairwise (fun t u => t.stop ≤ u.start) ∧
      Carries octets s (literalSpans s) (literalSpans (spell octets s)) ∧
      (∀ u ∈ literalSpans (spell octets s), Cuts s u) ∧
      (∀ l, Reached s l → l.modes ≠ []) ∧
      (mask s).text.count '\n' = s.count '\n' ∧
      restore (mask s).hidden (mask s).text = s ∧
      (∃ first gaps, gaps.length = (literalTexts s).length ∧ Unmarked first gaps ∧
        s = weave first (literalTexts s) gaps ∧
        (mask s).text = weave first (placeholders 0 (literalTexts s)) gaps) ∧
      ∀ rewrite : List Char → List Char, ∀ first gaps, gaps.length = (literalTexts s).length → Unmarked first gaps →
        rewrite (mask s).text = weave first (placeholders 0 (literalTexts s)) gaps →
          outsideLiterals rewrite s = weave first (literalTexts s) gaps :=
  ⟨fun t ht => ⟨((inOrder_literalSpans s).bounds t ht).2, within_literalSpans s t ht⟩,
    (inOrder_literalSpans s).pairwise, carries_literalSpans spelling_octets s, cuts_octets s,
    fun _ h => h.fits.modes.ne_nil, count_veils (veils_mask hs),
    restore_mask hs, weave_mask hs, fun _ _ _ => outsideLiterals_weave hs⟩

/-- Code with an assertion, and prose with what looks like two. -/
def assertedProse : List Char := "const a = x as T;\n<p title=\"as A\">one as T;\ntwo</p>".toList

theorem outsideLiterals_lossless_assertedProse :
    assertedProse.any isHideMark = false ∧ literalTexts assertedProse = ["as A".toList, "one as T;\ntwo".toList] ∧
      outsideLiterals stripTypeAssertions assertedProse =
        "const a = x;\n<p title=\"as A\">one as T;\ntwo</p>".toList := by
  have hmarks : assertedProse.any isHideMark = false := by decide +kernel
  have hliterals : literalTexts assertedProse = ["as A".toList, "one as T;\ntwo".toList] := by decide +kernel
  refine ⟨hmarks, hliterals, ?_⟩
  obtain ⟨-, -, -, -, -, -, -, -, hrewrite⟩ := outsideLiterals_lossless hmarks
  refine (hrewrite stripTypeAssertions "const a = x;\n<p title=\"".toList
    ["\">".toList, "</p>".toList] ?_ ?_ ?_).trans ?_
  · rw [hliterals]
    rfl
  · exact ⟨by decide, by decide⟩
  · rw [stripTypeAssertions_eq_sift]
    decide +kernel
  · rw [hliterals]
    decide

end LivePreview.Source
