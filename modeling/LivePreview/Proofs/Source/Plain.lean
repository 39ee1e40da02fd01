import LivePreview.Jsx.Program
import LivePreview.Proofs.Source.ParameterList
import LivePreview.Proofs.Source.Sieve

/-! When normalization leaves a source alone.

Shortening blank lines takes no solid character away, and every other rewrite takes one when it finds something. So
what one rewrite has taken out no other one brings back, and a source without fences is left alone, but for its blank
lines, just when none of the rewrites finds anything in the source itself. -/
namespace LivePreview.Source
open Pattern

/-! ### Blank lines -/

theorem mass_replaceAll_of_blank {p : Pattern} {f : Match → List Char} (hp : p.Every Blank) (hf : ∀ m, Blank (f m))
    (s : List Char) : mass (p.replaceAll f s) = mass s := by
  unfold Pattern.replaceAll
  generalize (none : Option Char) = prev
  induction prev, s using search_induction (p := p) with
  | nil prev hno => rw [replaceFrom_nil hno]
  | cons prev x rest hno ih => rw [replaceFrom_cons hno, mass_cons, mass_cons, ih]
  | hit prev rest c hc ih =>
    obtain ⟨l, hl, hblank⟩ := hp _ _ (endFrom_reads hc.1)
    have hrest : rest = l ++ c.rest := hl
    rw [replaceFrom_of_hits hc, mass_append, ih, (hf _).mass, hrest, mass_append, hblank.mass]

theorem every_blank_longBlank : longBlank.Every Blank := by
  have hbreak : (lit "\n").Every Blank := (Every.lit "\n").mono fun l hl => by
    subst hl
    intro c hc
    rw [List.mem_singleton.1 hc]
    rfl
  have hreturn : (lit "\r").Every Blank := (Every.lit "\r").mono fun l hl => by
    subst hl
    intro c hc
    rw [List.mem_singleton.1 hc]
    rfl
  have hline : blankLine.Every Blank := every_blank_seq (every_blank_seq every_blank_blanks (hreturn.opt .nil)) hbreak
  exact every_blank_seq (every_blank_seq (every_blank_seq (every_blank_seq hbreak hline) hline) hline)
    (hline.star .nil fun _ _ => Blank.append)

theorem mass_trimStart (s : List Char) : mass (Text.trimStart s) = mass s := by
  have hblank : mass (s.takeWhile Text.isSpace) = 0 := Blank.mass fun c hc => List.all_eq_true.1 List.all_takeWhile c hc
  have hsplit := congrArg mass (List.takeWhile_append_dropWhile (p := Text.isSpace) (l := s))
  rw [mass_append, hblank] at hsplit
  rw [Text.trimStart]
  omega

theorem mass_reverse (s : List Char) : mass s.reverse = mass s := List.countP_reverse

theorem mass_trim (s : List Char) : mass (Text.trim s) = mass s := by
  rw [Text.trim, Text.trimEnd, mass_reverse]
  exact (mass_trimStart _).trans ((mass_reverse _).trans (mass_trimStart s))

theorem mass_collapseBlankLines (s : List Char) : mass (collapseBlankLines s) = mass s := by
  have hbreaks : Blank "\n\n\n".toList := by
    intro c hc
    simp only [List.mem_cons, List.not_mem_nil, or_false, or_self,
      show "\n\n\n".toList = ['\n', '\n', '\n'] from rfl] at hc
    rw [hc]
    rfl
  rw [collapseBlankLines, mass_trim, mass_replaceAll_of_blank every_blank_longBlank fun _ => hbreaks]

/-! ### All rewrites -/

/-- What the rewrites look for in a source as it stands. -/
def openPatterns : List Pattern :=
  [typeImport, namedImport, sideEffectImport, interfaceLine, interfaceBlock, aliasBlock, aliasUnion, aliasLine,
    exportDefaultName, exportList, exportQualifier, typedComponent, functionGenerics, arrowGenerics]

/-- What the rewrites look for in a source with its literals hidden. -/
def veiledPatterns : List Pattern :=
  [returnType, constAssertion, typeAssertion, nonNullAssertion, typedBinding, typedDeclaration]

/-- Some rewrite finds something in the source. -/
def Typed (s : List Char) : Prop :=
  (∃ p ∈ openPatterns, Occurs p s) ∨ (∃ p ∈ veiledPatterns, Occurs p (veiled s)) ∨ parameterEdits s ≠ [] ∨
    HasTypeArguments s

/-- All rewrites but those of fences and blank lines, in their order. -/
def stripTypes (s : List Char) : List Char :=
  let s := stripGenericParameters
    (stripComponentTypes (stripExports (removeTypeAliases (removeInterfaces (removeImports s)))))
  let s := stripParameterLists (outsideLiterals stripReturnTypes s)
  let s := outsideLiterals stripVariableTypes (outsideLiterals stripTypeAssertions s)
  stripHookGenerics s

theorem normalize_eq (s : List Char) : normalize s = collapseBlankLines (stripTypes (stripFences s)) := rfl

theorem trims_stripTypes : Trims HasMass Typed stripTypes := by
  have h := (((((trims_rewriteAll counts_mass carves_openRules).andThen
    (trims_outsideLiterals fun _ => trims_stripReturnTypes)).andThen trims_stripParameterLists).andThen
    (trims_outsideLiterals fun _ => trims_stripTypeAssertions)).andThen
    (trims_outsideLiterals fun _ => trims_stripVariableTypes)).andThen trims_stripHookGenerics
  simp only [rewriteAll_openRules] at h
  refine h.congr fun s => ?_
  have hopen : (∃ p ∈ openPatterns, Occurs p s) ↔ ∃ r ∈ openRules, Occurs r.pattern s := by
    rw [show openPatterns = openRules.map Rule.pattern from rfl]
    exact ⟨fun ⟨_, hp, ho⟩ => have ⟨r, hr, he⟩ := List.mem_map.1 hp; ⟨r, hr, he ▸ ho⟩,
      fun ⟨r, hr, ho⟩ => ⟨r.pattern, List.mem_map.2 ⟨r, hr, rfl⟩, ho⟩⟩
  simp only [Typed, hopen, veiledPatterns, List.mem_cons, List.not_mem_nil, or_false, exists_eq_or_imp,
    exists_eq_left]
  grind

/-- **A source without fences is left alone, but for its blank lines, just when no rewrite finds anything in it.** -/
theorem normalize_eq_collapseBlankLines_iff {s : List Char} (hopening : openingFence.find? s = none)
    (hclosing : closingFence.find? s = none) : normalize s = collapseBlankLines s ↔ ¬ Typed s := by
  have hfences : stripFences s = s := by
    rw [stripFences, removeFirst, removeFirst, hopening]
    dsimp only
    rw [hclosing]
  rw [normalize_eq, hfences]
  constructor
  · intro h hf
    obtain ⟨m, hm, hlt⟩ := trims_stripTypes.loses s (mass s) rfl hf
    have hmass := congrArg mass h
    rw [mass_collapseBlankLines, mass_collapseBlankLines, show mass (stripTypes s) = m from hm] at hmass
    omega
  · intro hno
    rw [trims_stripTypes.keeps s hno]

/-- Prose, comparisons and conditionals that look much like types. -/
def plainSource : List Char :=
  "const Gauge = ({low, high}) => <p title=\"a: b\">{low < high ? (low) : high} as is</p>;".toList

theorem normalize_eq_collapseBlankLines_plainSource :
    openingFence.find? plainSource = none ∧ closingFence.find? plainSource = none ∧ ¬ Typed plainSource := by
  have hopening : openingFence.find? plainSource = none := by decide +kernel
  have hclosing : closingFence.find? plainSource = none := by decide +kernel
  refine ⟨hopening, hclosing, (normalize_eq_collapseBlankLines_iff hopening hclosing).1 ?_⟩
  simp only [normalize, stripTypeAssertions_eq_sift, stripVariableTypes_eq_sift]
  decide +kernel

/-- Two comparisons with the name of a hook, in a valid program without types: what stands between them is taken for
type arguments. -/
def comparisons : List Char := "const ok = memo < a && b > (c);".toList

theorem comparisons_rewritten : Jsx.isValid comparisons = true ∧ Text.contains "import".toList comparisons = false ∧
    Text.contains "export".toList comparisons = false ∧ openingFence.find? comparisons = none ∧
    closingFence.find? comparisons = none ∧ normalize comparisons = "const ok = memo (c);".toList ∧
    normalize comparisons ≠ collapseBlankLines comparisons := by
  decide +kernel

end LivePreview.Source
