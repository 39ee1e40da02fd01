import LivePreview.Proofs.Pattern.Replace

/-! Searches that run a pattern only where a match can begin.

A search tries a pattern at every place, and telling that it fails there can be much work, as it is for word
characters from beyond ASCII. A `Sieve` knows a test of the text that is passed wherever a match begins. A search that
asks it first finds the same, and is what concrete texts are evaluated with. -/
namespace LivePreview.Pattern

variable {p q : Pattern} {f : Match → List Char} {pos : Nat} {prev : Option Char} {rest : List Char}

/-! ### Searching with any matcher -/

/-- All matches from here on that a matcher finds, none of which begins before the end of the one before it. -/
def findAllBy (endFrom : Option Char → List Char → Option Cursor) (pos : Nat) (prev : Option Char)
    (rest : List Char) : List Match :=
  match endFrom prev rest with
  | .some c =>
    if _h : c.rest.length < rest.length then
      ⟨pos, rest, c⟩ :: findAllBy endFrom (pos + (rest.length - c.rest.length)) c.prev c.rest
    else match rest with
      | [] => []
      | x :: r => findAllBy endFrom (pos + 1) (.some x) r
  | none => match rest with
    | [] => []
    | x :: r => findAllBy endFrom (pos + 1) (.some x) r
termination_by rest.length

/-- The text from here on with `f m` in the place of each match `m` that a matcher finds. -/
def replaceBy (endFrom : Option Char → List Char → Option Cursor) (f : Match → List Char) (prev : Option Char)
    (rest : List Char) : List Char :=
  match endFrom prev rest with
  | .some c =>
    if _h : c.rest.length < rest.length then f ⟨0, rest, c⟩ ++ replaceBy endFrom f c.prev c.rest
    else match rest with
      | [] => []
      | x :: r => x :: replaceBy endFrom f (.some x) r
  | none => match rest with
    | [] => []
    | x :: r => x :: replaceBy endFrom f (.some x) r
termination_by rest.length

theorem findAllFrom_eq (p : Pattern) (pos : Nat) (prev : Option Char) (rest : List Char) :
    p.findAllFrom pos prev rest = findAllBy p.endFrom pos prev rest := by
  fun_induction findAllFrom p pos prev rest <;> rw [findAllBy.eq_def] <;> simp [*, -List.length_cons]

theorem replaceFrom_eq (p : Pattern) (f : Match → List Char) (prev : Option Char) (rest : List Char) :
    p.replaceFrom f prev rest = replaceBy p.endFrom f prev rest := by
  fun_induction replaceFrom p f prev rest <;> rw [replaceBy.eq_def] <;> simp [*, -List.length_cons]

/-! ### Sieves -/

/-- What a pattern reads begins with something that the test accepts. -/
def Begins (p : Pattern) (test : List Char → Bool) : Prop := p.Every fun l => ∀ r, test (l ++ r) = true

/-- A pattern with a test of the text where a match begins. -/
structure Sieve where
  pattern : Pattern
  test : List Char → Bool
  begins : pattern.Begins test

namespace Sieve
variable (x : Sieve)

/-- The end of the first way to match from here, if the test lets it be looked for. -/
def endFrom (prev : Option Char) (rest : List Char) : Option Cursor :=
  if x.test rest then x.pattern.endFrom prev rest else none

theorem endFrom_eq : x.pattern.endFrom = x.endFrom := by
  funext prev rest
  rw [endFrom]
  split
  case isTrue => rfl
  case isFalse htest =>
    refine Option.eq_none_iff_forall_ne_some.2 fun c hc => htest ?_
    obtain ⟨l, hl, hbegins⟩ := x.begins _ _ (endFrom_reads hc)
    rw [show rest = l ++ c.rest from hl]
    exact hbegins c.rest

def findAll (s : List Char) : List Match := findAllBy x.endFrom 0 none s

def replaceAll (f : Match → List Char) (s : List Char) : List Char := replaceBy x.endFrom f none s

theorem findAll_eq (s : List Char) : x.pattern.findAll s = x.findAll s := by
  rw [Pattern.findAll, findAllFrom_eq, endFrom_eq]
  rfl

theorem replaceAll_eq (f : Match → List Char) (s : List Char) : x.pattern.replaceAll f s = x.replaceAll f s := by
  rw [Pattern.replaceAll, replaceFrom_eq, endFrom_eq]
  rfl

end Sieve

/-! ### Tests -/

variable {test : List Char → Bool}

theorem Begins.append (h : p.Begins test) (q : Pattern) : (p ++ q).Begins test :=
  h.seq (Every.trivial q) fun a b ha _ r => by
    rw [List.append_assoc]
    exact ha (b ++ r)

theorem Begins.at (h : p.Begins test) (e : Edge) : (.at e ++ p : Pattern).Begins test :=
  (Every.at (P := (· = [])) rfl).seq h fun a b ha hb r => by
    rw [ha]
    exact hb r

/-- Whether the second character is of a class. -/
def second (ok : Char → Bool) (s : List Char) : Bool := (s.drop 1).head?.any ok

theorem begins_second (i : Nat) (a ok : Char → Bool) (q : Pattern) :
    (.group i (.one a) ++ .seq (.one ok) q : Pattern).Begins (second ok) := by
  have hfirst : (Pattern.group i (.one a)).Every fun l => l.length = 1 := (Every.one fun _ _ => rfl).group
  have hnext : (Pattern.seq (.one ok) q).Every fun l => l.head?.any ok = true :=
    (Every.one (P := fun l => l.head?.any ok = true) fun _ hc => hc).seq (Every.trivial q) fun l b hl _ => by
      cases l with
      | nil => exact nomatch hl
      | cons x l => exact hl
  refine hfirst.seq hnext fun l b hl hb r => ?_
  obtain ⟨x, rfl⟩ := List.length_eq_one_iff.1 hl
  cases b with
  | nil => exact nomatch hb
  | cons y b => exact hb

/-- Whether the text begins with one of the words. -/
def anyWord (ws : List String) (s : List Char) : Bool := ws.any (·.toList.isPrefixOf s)

theorem every_words {ws : List String} (hws : ws ≠ []) : (words ws).Every fun l => ∃ w ∈ ws, l = w.toList := by
  induction ws with
  | nil => exact absurd rfl hws
  | cons w ws ih =>
    have hword := (Every.lit w).mono fun l (hl : l = w.toList) =>
      (⟨w, List.mem_cons_self, hl⟩ : ∃ v ∈ w :: ws, l = v.toList)
    cases ws with
    | nil => exact hword
    | cons v ws =>
      refine hword.alt ((ih (List.cons_ne_nil v ws)).mono fun l ⟨u, hu, hl⟩ => ?_)
      exact ⟨u, List.mem_cons_of_mem w hu, hl⟩

theorem begins_words {ws : List String} (hws : ws ≠ []) : (words ws).Begins (anyWord ws) := by
  refine (every_words hws).mono fun l ⟨w, hw, hl⟩ r => List.any_eq_true.2 ⟨w, hw, ?_⟩
  rw [hl, List.isPrefixOf_iff_prefix]
  exact List.prefix_append ..

end LivePreview.Pattern
