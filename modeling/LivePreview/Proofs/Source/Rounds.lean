import LivePreview.Proofs.Source.Plain
import LivePreview.Proofs.Source.Spare

/-! Normalization as rounds of cuts.

Each rewrite of normalization makes cuts in the text that the one before it left, some of them in a text with the
literals hidden. Where in every round each cut takes code for code, the source without its types keeps the markup. -/
namespace LivePreview.Source
open Pattern

/-! ### Rounds -/

/-- A text that a rewrite sees, and the cuts that it makes there. -/
structure Round where
  text : Masked
  cuts : List Cut

/-- Each cut of the round takes code for code. -/
def Round.Spares (r : Round) : Prop := r.text.Spares {} {} 0 r.cuts

instance (r : Round) : Decidable r.Spares := r.text.decideSpares {} {} 0 r.cuts

/-- Rounds that make one source from another. -/
inductive Makes : List Char → List Round → List Char → Prop
  | none {s} : Makes s [] s
  | more {m cuts rounds t} (hfits : Fits m 0 cuts) (h : Makes (restore m.hidden (splice m.text 0 cuts)) rounds t) :
      Makes m.source (⟨m, cuts⟩ :: rounds) t

theorem Makes.append {s t u : List Char} {a b : List Round} (h : Makes s a t) (h' : Makes t b u) :
    Makes s (a ++ b) u := by
  induction h with
  | none => exact h'
  | more hfits _ ih => exact .more hfits (ih h')

theorem Makes.sameMarkup {s t : List Char} {rounds : List Round} (h : Makes s rounds t)
    (hspares : ∀ r ∈ rounds, r.Spares) : SameMarkup s t := by
  induction h with
  | none => exact .refl _
  | more hfits _ ih =>
    obtain ⟨hround, hrest⟩ := List.forall_mem_cons.1 hspares
    exact (sameMarkup_splice hfits hround).trans (ih hrest)

/-! ### The rounds of rules -/

/-- One round for each rule. -/
def ruleRounds (hidden : Array (List Char)) (t : List Char) : List Rule → List Round
  | [] => []
  | r :: rules => ⟨⟨t, hidden⟩, cutsOf r t⟩ :: ruleRounds hidden (r.rewrite t) rules

variable {hidden : Array (List Char)} {Gap : List Char → List Char → Prop} {Sep : List Char → Prop}

theorem makes_rules {rules : List Rule} {t : List Char} (hsep : Separates hidden Gap Sep)
    (hrules : ∀ r ∈ rules, Carves r Gap ∧ ∀ t, Sep t → Sep (r.rewrite t)) (h : Sep t) :
    Makes (restore hidden t) (ruleRounds hidden t rules) (restore hidden (rewriteAll rules t)) ∧
      Sep (rewriteAll rules t) := by
  induction rules generalizing t with
  | nil => exact ⟨.none, h⟩
  | cons r rules ih =>
    obtain ⟨⟨hcarves, hkeeps⟩, hrest⟩ := List.forall_mem_cons.1 hrules
    obtain ⟨hmakes, hsep'⟩ := ih hrest (hkeeps t h)
    refine ⟨.more (fits_cutsOf (m := ⟨t, hidden⟩) hcarves hsep h) ?_, hsep'⟩
    rw [splice_cutsOf hcarves.cuts]
    exact hmakes

/-- Rules in a source as it stands. -/
theorem makes_openRules {rules : List Rule} (h : ∀ r ∈ rules, Carves r Gap) (s : List Char) :
    Makes s (ruleRounds #[] s rules) (rewriteAll rules s) := by
  have hsep : Separates #[] Gap fun _ => True := separates_plain
  have hmakes := (makes_rules hsep (fun r hr => ⟨h r hr, fun _ _ => True.intro⟩) (t := s) True.intro).1
  rwa [restore_empty, restore_empty] at hmakes

/-! ### The rounds outside of literals -/

/-- A source with its literals hidden, unless it holds a character of the placeholders. -/
def veil (s : List Char) : Masked := if s.any isHideMark then ⟨s, #[]⟩ else mask s

/-- A text that stands for a source. -/
def Readable (hidden : Array (List Char)) (t : List Char) : Prop := hidden = #[] ∨ ∃ s, Veils hidden t s

theorem readable_veil (s : List Char) : Readable (veil s).hidden (veil s).text := by
  unfold veil
  split
  case isTrue => exact .inl rfl
  case isFalse h => exact .inr ⟨s, veils_mask (by simpa using h)⟩

theorem source_veil (s : List Char) : restore (veil s).hidden (veil s).text = s := by
  unfold veil
  split
  case isTrue => exact restore_empty s
  case isFalse h => exact restore_mask (by simpa using h)

theorem outsideLiterals_eq (rewrite : List Char → List Char) (s : List Char) :
    outsideLiterals rewrite s = restore (veil s).hidden (rewrite (veil s).text) := by
  unfold outsideLiterals veil
  split
  case isTrue => rw [restore_empty]
  case isFalse => rfl

theorem separates_readable (hidden : Array (List Char)) : Separates hidden Parted (Readable hidden) := by
  rintro x gap b r (rfl | h) hgap
  · obtain ⟨hx, hcut, -⟩ := separates_plain x gap b r True.intro hgap
    exact ⟨hx, hcut, .inl rfl⟩
  · obtain ⟨hx, hcut, hrest⟩ := separates_veils hidden x gap b r h hgap
    exact ⟨hx, hcut, .inr hrest⟩

theorem readable_rewrite {r : Rule} (h : Carves r Parted) {t : List Char} (ht : Readable hidden t) :
    Readable hidden (r.rewrite t) := by
  rcases ht with rfl | ⟨s, hs⟩
  · exact .inl rfl
  · obtain ⟨-, ⟨s', hs', -⟩, -⟩ := (trims_rewrite (counts_veils hidden) h.opens).le ⟨s, hs, rfl⟩
    exact .inr ⟨s', hs'⟩

/-- Rules in a text with placeholders. -/
theorem makes_veiledRules {rules : List Rule} (h : ∀ r ∈ rules, Carves r Parted) {t : List Char}
    (ht : Readable hidden t) :
    Makes (restore hidden t) (ruleRounds hidden t rules) (restore hidden (rewriteAll rules t)) ∧
      Readable hidden (rewriteAll rules t) :=
  makes_rules (separates_readable hidden) (fun r hr => ⟨h r hr, fun _ => readable_rewrite (h r hr)⟩) ht

/-- The rounds that take chains of assertions off. -/
def chainRounds (hidden : Array (List Char)) (t : List Char) : List Round :=
  if (dropAssertions t).length < t.length then
    ⟨⟨t, hidden⟩, cutsOf assertionRule t⟩ :: chainRounds hidden (dropAssertions t)
  else []
termination_by t.length

theorem makes_chains {t : List Char} (ht : Readable hidden t) :
    Makes (restore hidden t) (chainRounds hidden t) (restore hidden (dropAssertionChains t)) ∧
      Readable hidden (dropAssertionChains t) := by
  have hcarves : Carves assertionRule Parted := ⟨.inl rfl, cuts_assertionRule⟩
  fun_induction dropAssertionChains t with
  | case1 t hlt ih =>
    have hnext := readable_rewrite hcarves ht
    rw [← dropAssertions_eq] at hnext
    obtain ⟨hmakes, hreadable⟩ := ih hnext
    rw [chainRounds, if_pos hlt]
    refine ⟨.more (fits_cutsOf (m := ⟨t, hidden⟩) hcarves (separates_readable hidden) ht) ?_, hreadable⟩
    rw [splice_cutsOf hcarves.cuts, ← dropAssertions_eq]
    exact hmakes
  | case2 t hstop =>
    rw [chainRounds, if_neg hstop]
    exact ⟨.none, ht⟩

/-! ### All rounds -/

/-- In a source as it stands all cuts fit that are in order. -/
theorem fits_of_ordered {s : List Char} {cuts : List Cut} {pos : Nat} (h : Ordered pos cuts) :
    Fits ⟨s, #[]⟩ pos cuts := by
  have hwhole (a : List Char) : Whole #[] a := fun b => by simp only [restore_empty]
  induction cuts generalizing pos with
  | nil => exact True.intro
  | cons c cuts ih => exact ⟨h.1, ⟨hwhole _, hwhole _⟩, ⟨hwhole _, restore_empty _⟩, ih h.2⟩

/-- Cuts in a source as it stands, in order. -/
theorem makes_splice {s : List Char} {cuts : List Cut} (h : Ordered 0 cuts) :
    Makes s [⟨⟨s, #[]⟩, cuts⟩] (splice s 0 cuts) := by
  have hmakes := Makes.more (fits_of_ordered (s := s) h) .none
  rwa [Masked.source, restore_empty, restore_empty] at hmakes

def returnRounds (s : List Char) : List Round := ruleRounds (veil s).hidden (veil s).text [returnRule]

def assertionRounds (s : List Char) : List Round :=
  let m := veil s
  let t := (Rule.removal constAssertion).rewrite m.text
  ruleRounds m.hidden m.text [.removal constAssertion] ++ chainRounds m.hidden t ++
    ruleRounds m.hidden (dropAssertionChains t) [nonNullRule]

def variableRounds (s : List Char) : List Round :=
  ruleRounds (veil s).hidden (veil s).text [bindingRule, declarationRule]

/-- The rounds of all rewrites but those of fences and blank lines. -/
def rounds (s : List Char) : List Round :=
  let s₁ := rewriteAll openRules s
  let s₂ := outsideLiterals stripReturnTypes s₁
  let s₃ := stripParameterLists s₂
  let s₄ := outsideLiterals stripTypeAssertions s₃
  let s₅ := outsideLiterals stripVariableTypes s₄
  ruleRounds #[] s openRules ++ returnRounds s₁ ++ [⟨⟨s₂, #[]⟩, parameterCuts s₂⟩] ++ assertionRounds s₃ ++
    variableRounds s₄ ++ [⟨⟨s₅, #[]⟩, hookCuts s₅⟩]

theorem makes_returnTypes (s : List Char) : Makes s (returnRounds s) (outsideLiterals stripReturnTypes s) := by
  have hrules : ∀ r ∈ [returnRule], Carves r Parted := by simpa using ⟨.inr rfl, cuts_returnRule⟩
  have h := (makes_veiledRules hrules (readable_veil s)).1
  rw [source_veil] at h
  rw [outsideLiterals_eq, stripReturnTypes_eq]
  exact h

theorem makes_typeAssertions (s : List Char) : Makes s (assertionRounds s) (outsideLiterals stripTypeAssertions s) := by
  have hconst : ∀ r ∈ [Rule.removal constAssertion], Carves r Parted := by simpa using ⟨.inl rfl, cuts_constRule⟩
  have hnonNull : ∀ r ∈ [nonNullRule], Carves r Parted := by simpa using ⟨.inl rfl, cuts_nonNullRule⟩
  obtain ⟨hfirst, ht⟩ := makes_veiledRules hconst (readable_veil s)
  obtain ⟨hsecond, ht⟩ := makes_chains ht
  have h := (hfirst.append hsecond).append (makes_veiledRules hnonNull ht).1
  rw [source_veil] at h
  rw [outsideLiterals_eq, stripTypeAssertions_eq]
  exact h

theorem makes_variableTypes (s : List Char) : Makes s (variableRounds s) (outsideLiterals stripVariableTypes s) := by
  have hrules : ∀ r ∈ [bindingRule, declarationRule], Carves r Parted := by
    simpa using ⟨⟨.inr rfl, cuts_bindingRule⟩, ⟨.inl rfl, cuts_declarationRule⟩⟩
  have h := (makes_veiledRules hrules (readable_veil s)).1
  rw [source_veil] at h
  rw [outsideLiterals_eq, stripVariableTypes_eq]
  exact h

/-- **Types are taken out in rounds of cuts.** -/
theorem makes_stripTypes (s : List Char) : Makes s (rounds s) (stripTypes s) := by
  have hopen := makes_openRules carves_openRules s
  have hparameters (s : List Char) : Makes s [⟨⟨s, #[]⟩, parameterCuts s⟩] (stripParameterLists s) := by
    rw [stripParameterLists_eq]
    exact makes_splice (ordered_parameterCuts s)
  have hhooks (s : List Char) : Makes s [⟨⟨s, #[]⟩, hookCuts s⟩] (stripHookGenerics s) := by
    rw [stripHookGenerics_eq]
    exact makes_splice (ordered_hookCuts s)
  rw [stripTypes, ← rewriteAll_openRules]
  exact ((((hopen.append (makes_returnTypes _)).append (hparameters _)).append (makes_typeAssertions _)).append
    (makes_variableTypes _)).append (hhooks _)

/-! ### Rounds of a concrete text -/

/-- The cuts of a rule, looked for with a sieve. -/
theorem cutsOf_eq_sift (x : Sieve) {r : Rule} (h : x.pattern = r.pattern) (t : List Char) :
    cutsOf r t = (x.findAll t).map (cutOf r) := by
  rw [cutsOf, ← h, x.findAll_eq]

/-- Like `chainRounds` . -/
def siftChainRounds (hidden : Array (List Char)) (t : List Char) : List Round :=
  if (siftAssertions t).length < t.length then
    ⟨⟨t, hidden⟩, (assertionSieve.findAll t).map (cutOf assertionRule)⟩ :: siftChainRounds hidden (siftAssertions t)
  else []
termination_by t.length

theorem chainRounds_eq_sift (hidden : Array (List Char)) (t : List Char) :
    chainRounds hidden t = siftChainRounds hidden t := by
  fun_induction chainRounds hidden t with
  | case1 t hlt ih =>
    rw [dropAssertions_eq_sift] at hlt ih
    rw [dropAssertions_eq_sift, siftChainRounds, if_pos hlt, ih, cutsOf_eq_sift assertionSieve rfl]
  | case2 t hstop =>
    rw [dropAssertions_eq_sift] at hstop
    rw [siftChainRounds, if_neg hstop]

theorem assertionRounds_eq_sift : assertionRounds = fun s =>
    let m := veil s
    let t := constAssertion.removeAll m.text
    ⟨m, cutsOf (.removal constAssertion) m.text⟩ :: siftChainRounds m.hidden t ++
      [⟨⟨siftChains t, m.hidden⟩, (nonNullSieve.findAll (siftChains t)).map (cutOf nonNullRule)⟩] := by
  funext s
  have hnonNull := cutsOf_eq_sift (r := nonNullRule) nonNullSieve rfl
  rw [assertionRounds, chainRounds_eq_sift, dropAssertionChains_eq_sift]
  simp only [ruleRounds, hnonNull]
  rfl

theorem variableRounds_eq_sift : variableRounds = fun s =>
    let m := veil s
    let t := bindingSieve.replaceAll bindingRule.replacement m.text
    [⟨m, (bindingSieve.findAll m.text).map (cutOf bindingRule)⟩,
      ⟨⟨t, m.hidden⟩, (declarationSieve.findAll t).map (cutOf declarationRule)⟩] := by
  funext s
  have hrewrite (t : List Char) : bindingRule.rewrite t = bindingSieve.replaceAll bindingRule.replacement t :=
    bindingSieve.replaceAll_eq _ t
  simp only [variableRounds, ruleRounds, hrewrite]
  rw [cutsOf_eq_sift bindingSieve rfl, cutsOf_eq_sift declarationSieve rfl]

end LivePreview.Source
