import LivePreview.Proofs.Source.Rounds
import LivePreview.Proofs.Source.White

/-! What normalization keeps of the markup.

The markup of a source comes through normalization when every rewrite cuts code only. Long runs of blank lines are
shortened in markup as well, so that there may be none, and the ends are trimmed, so that no markup may be open at the
end. -/
namespace LivePreview.Source
open Pattern Reading

/-! ### Long runs of blank lines -/

/-- Blanks, if any, and a line break. -/
def IsBlankLine (l : List Char) : Prop :=
  ∃ b, (∀ c ∈ b, Text.isBlank c = true) ∧ (l = b ++ ['\n'] ∨ l = b ++ ['\r', '\n'])

/-- A line break and three blank lines behind it. -/
def IsLongBlank (s : List Char) : Prop :=
  ∃ l₁ l₂ l₃, s = '\n' :: (l₁ ++ l₂ ++ l₃) ∧ IsBlankLine l₁ ∧ IsBlankLine l₂ ∧ IsBlankLine l₃

/-- Somewhere in the text three or more blank lines follow a line. -/
def HasLongBlank (s : List Char) : Prop := ∃ a y b, s = a ++ y ++ b ∧ IsLongBlank y

/-- White space of lines, the last of which is complete. -/
def IsLines (s : List Char) : Prop := ∃ a, s = a ++ ['\n'] ∧ ∀ c ∈ a, isAsciiSpace c = true

theorem IsLines.append {s t : List Char} (hs : IsLines s) (ht : IsLines t) : IsLines (s ++ t) := by
  obtain ⟨a, rfl, ha⟩ := hs
  obtain ⟨b, rfl, hb⟩ := ht
  refine ⟨a ++ '\n' :: b, by simp, fun c hc => ?_⟩
  rcases List.mem_append.1 hc with hc | hc
  · exact ha c hc
  · rcases List.mem_cons.1 hc with rfl | hc
    · rfl
    · exact hb c hc

theorem IsBlankLine.isLines {l : List Char} (h : IsBlankLine l) : IsLines l := by
  obtain ⟨b, hb, hl⟩ := h
  have hascii : ∀ c ∈ b, isAsciiSpace c = true := fun c hc => by
    rcases Bool.or_eq_true_iff.1 (hb c hc) with h | h <;> rw [beq_iff_eq.1 h] <;> rfl
  rcases hl with rfl | rfl
  · exact ⟨b, rfl, hascii⟩
  · refine ⟨b ++ ['\r'], by simp, fun c hc => ?_⟩
    rcases List.mem_append.1 hc with hc | hc
    · exact hascii c hc
    · rw [List.mem_singleton.1 hc]
      rfl

/-- What is found for a long run of blank lines: one, and more white space of lines. -/
def IsBlankRun (s : List Char) : Prop :=
  ∃ y more, s = y ++ more ∧ IsLongBlank y ∧ ∃ z, s = '\n' :: z ++ ['\n'] ∧ ∀ c ∈ z, isAsciiSpace c = true

theorem every_isBlankLine : blankLine.Every IsBlankLine := by
  have hblanks : blanks.Every fun b => ∀ c ∈ b, Text.isBlank c = true :=
    .many (fun _ h => nomatch h) fun c b hc hb => List.forall_mem_cons.2 ⟨hc, hb⟩
  have hreturn : (opt (lit "\r")).Every fun r => r = [] ∨ r = ['\r'] :=
    ((Every.lit "\r").mono fun _ h => .inr h).opt (.inl rfl)
  have hfirst : (blanks ++ opt (lit "\r")).Every fun l =>
      ∃ b, (∀ c ∈ b, Text.isBlank c = true) ∧ (l = b ∨ l = b ++ ['\r']) :=
    hblanks.seq hreturn fun b r hb hr => ⟨b, hb, by rcases hr with rfl | rfl <;> simp⟩
  refine hfirst.seq (Every.lit "\n") fun l n ⟨b, hb, hl⟩ hn => ⟨b, hb, ?_⟩
  rw [hn]
  rcases hl with rfl | rfl
  · exact .inl rfl
  · exact .inr (by simp)

theorem every_isBlankRun : longBlank.Every IsBlankRun := by
  have hline := every_isBlankLine
  have hthree : (lit "\n" ++ blankLine ++ blankLine ++ blankLine).Every IsLongBlank := by
    have hone : (lit "\n" ++ blankLine).Every fun s => ∃ l₁, s = '\n' :: l₁ ∧ IsBlankLine l₁ :=
      (Every.lit "\n").seq hline fun n l hn hl => ⟨l, by rw [hn]; rfl, hl⟩
    have htwo : (lit "\n" ++ blankLine ++ blankLine).Every fun s =>
        ∃ l₁ l₂, s = '\n' :: (l₁ ++ l₂) ∧ IsBlankLine l₁ ∧ IsBlankLine l₂ :=
      hone.seq hline fun a l ⟨l₁, ha, h₁⟩ hl => ⟨l₁, l, by rw [ha]; rfl, h₁, hl⟩
    exact htwo.seq hline fun a l ⟨l₁, l₂, ha, h₁, h₂⟩ hl => ⟨l₁, l₂, l, by rw [ha]; rfl, h₁, h₂, hl⟩
  have hmore : (Pattern.star blankLine true).Every fun s => s = [] ∨ IsLines s :=
    hline.star (.inl rfl) fun a b ha hb => by
      rcases hb with rfl | hb
      · exact .inr (by simpa using ha.isLines)
      · exact .inr (ha.isLines.append hb)
  refine hthree.seq hmore fun y more hy hmore => ⟨y, more, rfl, hy, ?_⟩
  obtain ⟨l₁, l₂, l₃, rfl, h₁, h₂, h₃⟩ := hy
  have hlines := (h₁.isLines.append h₂.isLines).append h₃.isLines
  have hall : IsLines (l₁ ++ l₂ ++ l₃ ++ more) := by
    rcases hmore with rfl | hmore
    · simpa using hlines
    · exact hlines.append hmore
  obtain ⟨z, hz, hascii⟩ := hall
  exact ⟨z, by rw [List.cons_append, hz]; rfl, hascii⟩

/-! ### Shortening them -/

/-- A long run of blank lines becomes two of them. -/
def blankRule : Rule := { pattern := longBlank, glue := ['\n', '\n', '\n'] }

theorem cuts_blankRule : blankRule.Cuts fun gap _ => IsBlankRun gap := Rule.cuts_every every_isBlankRun

theorem collapseBlankLines_eq (s : List Char) : collapseBlankLines s = Text.trim (blankRule.rewrite s) :=
  congrArg Text.trim (replaceAll_eq_rewrite blankRule (fun m => by simp [Rule.replacement, blankRule]) s)

variable {s : List Char}

theorem fits_blankRule (s : List Char) : Fits ⟨s, #[]⟩ 0 (cutsOf blankRule s) := by
  have hsep : Separates #[] (fun gap _ => IsBlankRun gap) fun _ => True := separates_plain
  exact fits_cutsFrom (m := ⟨s, #[]⟩) cuts_blankRule hsep
    ⟨fun b => by simp only [restore_empty], restore_empty _⟩ (Nat.le_refl 0) rfl True.intro

/-- Runs of blank lines in code are code that is put for code. -/
theorem spares_blank {cuts : List Cut} {pos : Nat} {τ : Reading} (hordered : Ordered pos cuts)
    (h : Agrees (({} : Reading).read (s.take pos)) τ (s.drop pos))
    (hcuts : ∀ c ∈ cuts, (IsBlankRun (slice s c.start c.stop) ∧ c.text = ['\n', '\n', '\n']) ∧
      (({} : Reading).read (s.take c.start)).InCode) :
    Masked.Spares ⟨s, #[]⟩ (({} : Reading).read (s.take pos)) τ pos cuts := by
  induction cuts generalizing pos τ with
  | nil => exact True.intro
  | cons c cuts ih =>
    obtain ⟨⟨hstart, hstop⟩, hrest⟩ := hordered
    obtain ⟨⟨⟨hrun, htext⟩, hin⟩, hmore⟩ := List.forall_mem_cons.1 hcuts
    have hread {i j : Nat} (hij : i ≤ j) :
        (({} : Reading).read (s.take i)).read (slice s i j) = ({} : Reading).read (s.take j) := by
      rw [← read_append]
      congr 1
      have := slice_append_slice s (Nat.zero_le i) hij
      simpa [slice] using this
    rw [← slice_append_drop s hstart, ← slice_append_drop s hstop] at h
    have hkept := h.read
    rw [hread hstart] at hkept
    obtain ⟨y, more, -, -, z, hz, hascii⟩ := hrun
    have hcode : CodeForCode (({} : Reading).read (s.take c.start)) (τ.read (slice s pos c.start))
        (slice s c.start c.stop) c.text (s.drop c.stop) := by
      rw [hz] at hkept ⊢
      rw [htext]
      exact codeForCode_blank hkept hin hascii
    have hnext := hkept.replace hcode
    rw [hread hstop] at hnext
    have hspares := ih hrest hnext hmore
    simp only [Masked.Spares, Masked.part, Masked.rest, restore_empty, hread hstart, hread hstop]
    exact ⟨hcode, hspares⟩

theorem IsLines.blank (h : IsLines s) : Blank s := by
  obtain ⟨a, rfl, ha⟩ := h
  intro c hc
  rcases List.mem_append.1 hc with hc | hc
  · exact isSpace_of_isAsciiSpace (ha c hc)
  · rw [List.mem_singleton.1 hc]
    rfl

theorem IsLongBlank.blank (h : IsLongBlank s) : Blank s := by
  obtain ⟨l₁, l₂, l₃, rfl, h₁, h₂, h₃⟩ := h
  exact List.forall_mem_cons.2 ⟨rfl, ((h₁.isLines.append h₂.isLines).append h₃.isLines).blank⟩

/-- Outside of code there is no long run of blank lines. -/
def ClearOutside (s : List Char) : Prop := ∀ y, IsLongBlank y → ¬ Outside {} s y

theorem sameMarkup_blankRule (h : ClearOutside s) : SameMarkup s (blankRule.rewrite s) := by
  have hspares : Masked.Spares ⟨s, #[]⟩ {} {} 0 (cutsOf blankRule s) := by
    have hordered := (fits_blankRule s).ordered
    refine spares_blank hordered (.refl _ _) fun c hc => ?_
    obtain ⟨-, hrun, htext⟩ := mem_cutsOf cuts_blankRule hc
    refine ⟨⟨hrun, htext⟩, Classical.byContradiction fun hout => ?_⟩
    obtain ⟨y, more, hy, hlong, -⟩ := hrun
    refine h y hlong ⟨s.take c.start, more ++ s.drop c.stop, ?_, staysOutside_blank hout hlong.blank⟩
    rw [List.append_assoc, ← List.append_assoc y, ← hy, slice_append_drop s (hordered.le hc), List.take_append_drop]
  have hmake := sameMarkup_splice (fits_blankRule s) hspares
  rwa [Masked.source, restore_empty, restore_empty, splice_cutsOf cuts_blankRule] at hmake

/-! ### Trimming -/

theorem agrees_trimStart (s : List Char) :
    Agrees (({} : Reading).read s) (({} : Reading).read (Text.trimStart s)) [] := by
  have hblank : Blank (s.takeWhile Text.isSpace) := List.all_eq_true.1 List.all_takeWhile
  have hsplit : s.takeWhile Text.isSpace ++ Text.trimStart s = s := List.takeWhile_append_dropWhile
  have h := agrees_blank hblank (Text.trimStart s ++ [])
  have hread := h.read
  rwa [← read_append, hsplit] at hread

/-- A source that ends in code keeps its markup when its ends are trimmed. -/
theorem markup_trim (h : (({} : Reading).read s).InCode) : markup (Text.trim s) = markup s := by
  have hstart := agrees_trimStart s
  obtain ⟨w, hsplit, hw⟩ := exists_trimEnd_blank (Text.trimStart s)
  have hin := hstart.inCode.1 h
  rw [hsplit] at hin
  rw [markup_eq, markup_eq, Text.trim, ← hin.markup_blank hw, ← hsplit, hstart.markup]

theorem markup_collapseBlankLines (hclear : ClearOutside s) (hend : (({} : Reading).read s).InCode) :
    markup (collapseBlankLines s) = markup s := by
  have h := sameMarkup_blankRule hclear
  rw [collapseBlankLines_eq, markup_trim (h.inCode.2 hend), h.markup]

/-- A long run of blank lines has four line breaks. -/
theorem not_hasLongBlank (h : s.count '\n' < 4) : ¬ HasLongBlank s := by
  have hline {l : List Char} (hl : IsBlankLine l) : 1 ≤ l.count '\n' := by
    obtain ⟨b, -, rfl | rfl⟩ := hl <;> simp
  rintro ⟨a, y, b, rfl, l₁, l₂, l₃, rfl, h₁, h₂, h₃⟩
  have h₁ := hline h₁
  have h₂ := hline h₂
  have h₃ := hline h₃
  simp only [List.count_append, List.count_cons_self] at h
  omega

/-! ### All of normalization -/

/-- **Markup comes through normalization when only code is cut.** -/
theorem markup_normalize (hcode : ∀ r ∈ rounds (stripFences s), r.Spares) (hlines : ¬ HasLongBlank (stripFences s))
    (hend : (({} : Reading).read (stripFences s)).InCode) : markup (normalize s) = markup (stripFences s) := by
  have h := (makes_stripTypes (stripFences s)).sameMarkup hcode
  have hclear : ClearOutside (stripTypes (stripFences s)) := fun y hy hout =>
    have ⟨a, b, hsplit, _⟩ := h.outside y hout
    hlines ⟨a, y, b, hsplit, hy⟩
  rw [normalize_eq, markup_collapseBlankLines hclear (h.inCode.2 hend), h.markup]

/-- Types around a quoted value and a text run that look much like code. -/
def tallySource : List Char :=
  ("interface Props { n: Count }\nexport const Tally: FC<Props> = ({ n }: Props) =>\n" ++
    "  <p title=\"let n: x!\">export it as {n as Count}</p>;\n").toList

theorem spares_tallySource : ∀ r ∈ rounds (stripFences tallySource), r.Spares := by
  simp only [rounds, assertionRounds_eq_sift, variableRounds_eq_sift, stripTypeAssertions_eq_sift,
    stripVariableTypes_eq_sift]
  decide +kernel

theorem markup_normalize_tallySource :
    (∀ r ∈ rounds (stripFences tallySource), r.Spares) ∧ ¬ HasLongBlank (stripFences tallySource) ∧
      (({} : Reading).read (stripFences tallySource)).InCode ∧
      markup (stripFences tallySource) = ["let n: x!".toList, "export it as ".toList] ∧
      markup (normalize tallySource) = markup (stripFences tallySource) := by
  have hlines : ¬ HasLongBlank (stripFences tallySource) := not_hasLongBlank (by decide +kernel)
  have hend : (({} : Reading).read (stripFences tallySource)).InCode := by decide +kernel
  have htexts : markup (stripFences tallySource) = ["let n: x!".toList, "export it as ".toList] := by decide +kernel
  exact ⟨spares_tallySource, hlines, hend, htexts, markup_normalize spares_tallySource hlines hend⟩

/-- A text run with a line that reads like an export, which is taken out of it. -/
def exportProse : List Char := "const A = () => <p>\nexport default Name\n</p>;".toList

theorem exportProse_lost : Jsx.isValid exportProse = true ∧ ¬ HasLongBlank (stripFences exportProse) ∧
    markup (stripFences exportProse) = ["\nexport default Name\n".toList] ∧
    normalize exportProse = "const A = () => <p>\n</p>;".toList ∧
    markup (normalize exportProse) ≠ markup (stripFences exportProse) := by
  have hlines : ¬ HasLongBlank (stripFences exportProse) := not_hasLongBlank (by decide +kernel)
  have hrewritten : normalize exportProse = "const A = () => <p>\n</p>;".toList := by decide +kernel
  refine ⟨by decide +kernel, hlines, by decide +kernel, hrewritten, ?_⟩
  rw [hrewritten]
  decide +kernel

end LivePreview.Source
