import LivePreview.Proofs.Pattern.Sieve
import LivePreview.Source.Plain

/-! Rewrites that ask before they try.

The rewrites outside of literals meet placeholders, whose marks come from beyond ASCII. Here they are with a test of
where their matches begin, which the marks do not pass, so that what they do to a concrete text can be evaluated. -/
namespace LivePreview.Source
open Pattern

/-! ### The patterns with their tests -/

def assertionSieve : Sieve where
  pattern := typeAssertion
  test := second Text.isSpace
  begins := by
    unfold typeAssertion
    repeat' first | exact begins_second _ _ _ _ | apply Begins.append

def nonNullSieve : Sieve where
  pattern := nonNullAssertion
  test := second (· == '!')
  begins := (begins_second _ _ _ _).append _

def bindingSieve : Sieve where
  pattern := typedBinding
  test := anyWord ["const", "let", "var"]
  begins := by
    unfold typedBinding
    repeat' first | exact Begins.at (Every.group (begins_words (by simp))) _ | apply Begins.append

def declarationSieve : Sieve where
  pattern := typedDeclaration
  test := anyWord ["let", "var"]
  begins := by
    unfold typedDeclaration
    repeat' first | exact Begins.at (Every.group (begins_words (by simp))) _ | apply Begins.append

/-! ### The rewrites -/

/-- Like `dropAssertions` . -/
def siftAssertions (s : List Char) : List Char := assertionSieve.replaceAll (fun m => m.group 1 ++ m.group 2) s

theorem dropAssertions_eq_sift (s : List Char) : dropAssertions s = siftAssertions s :=
  assertionSieve.replaceAll_eq _ s

/-- Like `dropAssertionChains` . -/
def siftChains (s : List Char) : List Char :=
  if (siftAssertions s).length < s.length then siftChains (siftAssertions s) else s
termination_by s.length

theorem dropAssertionChains_eq_sift (s : List Char) : dropAssertionChains s = siftChains s := by
  fun_induction dropAssertionChains s with
  | case1 s hlt ih =>
    rw [dropAssertions_eq_sift] at hlt ih
    rw [dropAssertions_eq_sift, siftChains, if_pos hlt, ih]
  | case2 s hstop =>
    rw [dropAssertions_eq_sift] at hstop
    rw [siftChains, if_neg hstop]

theorem stripTypeAssertions_eq_sift : stripTypeAssertions = fun s =>
    nonNullSieve.replaceAll (fun m => m.group 1 ++ m.group 2) (siftChains (constAssertion.removeAll s)) := by
  funext s
  rw [stripTypeAssertions, dropAssertionChains_eq_sift]
  exact nonNullSieve.replaceAll_eq _ _

theorem stripVariableTypes_eq_sift : stripVariableTypes = fun s =>
    declarationSieve.replaceAll (fun m => m.group 1 ++ m.group 2 ++ [';'])
      (bindingSieve.replaceAll (fun m => m.group 1 ++ m.group 2 ++ " =".toList ++ m.group 3) s) := by
  funext s
  rw [← bindingSieve.replaceAll_eq, ← declarationSieve.replaceAll_eq]
  rfl

end LivePreview.Source
