import LivePreview.Pattern.Basic

/-! What patterns read.

The matcher tries the ways to match in an order and takes the first. `Reads` are all the ways, in no order, so that
a fact about what a pattern reads is shown along its parts. What the matcher finds is one of them. -/
namespace LivePreview.Pattern

/-- One of the ways to match a pattern from `c` ends at `d`. -/
inductive Reads : Pattern → Cursor → Cursor → Prop
  | empty {c} : Reads .empty c c
  | one {ok x prev r g} (h : ok x = true) : Reads (.one ok) ⟨prev, x :: r, g⟩ ⟨some x, r, g⟩
  | manyNone {ok greedy c} : Reads (.many ok greedy) c c
  | manyMore {ok greedy x prev r g d} (h : ok x = true) (hr : Reads (.many ok greedy) ⟨some x, r, g⟩ d) :
      Reads (.many ok greedy) ⟨prev, x :: r, g⟩ d
  | seq {p q c e d} (hp : Reads p c e) (hq : Reads q e d) : Reads (.seq p q) c d
  | left {p q c d} (h : Reads p c d) : Reads (.alt p q) c d
  | right {p q c d} (h : Reads q c d) : Reads (.alt p q) c d
  | starNone {p greedy c} : Reads (.star p greedy) c c
  | starMore {p greedy c e d} (hp : Reads p c e) (hr : Reads (.star p greedy) e d) : Reads (.star p greedy) c d
  | at {e c} (h : e.holds c.prev c.rest = true) : Reads (.at e) c c
  | group {i p c d} (h : Reads p c d) : Reads (.group i p) c ⟨d.prev, d.rest, (i, c.rest, d.rest) :: d.groups⟩

variable {α : Type} {p q : Pattern} {c d e : Cursor} {k : Cursor → Option α} {a : α}

/-! ### The matcher is sound -/

theorem manyRun_reads {ok : Char → Bool} {greedy : Bool} {g : List (Nat × List Char × List Char)} {prev : Option Char}
    {rest : List Char} (h : manyRun ok greedy g k prev rest = some a) :
    ∃ d, Reads (.many ok greedy) ⟨prev, rest, g⟩ d ∧ k d = some a := by
  induction rest generalizing prev with
  | nil => exact ⟨_, .manyNone, h⟩
  | cons x r ih =>
    have more (hx : ok x = true) (hr : manyRun ok greedy g k (some x) r = some a) :
        ∃ d, Reads (.many ok greedy) ⟨prev, x :: r, g⟩ d ∧ k d = some a := by
      obtain ⟨d, hd, hk⟩ := ih hr
      exact ⟨d, .manyMore hx hd, hk⟩
    unfold manyRun at h
    split at h
    case isTrue =>
      split at h
      case isTrue hx =>
        split at h
        case h_1 b hr => exact more hx (hr.trans h)
        case h_2 => exact ⟨_, .manyNone, h⟩
      case isFalse => exact ⟨_, .manyNone, h⟩
    case isFalse =>
      split at h
      case h_1 b hk => exact ⟨_, .manyNone, hk.trans h⟩
      case h_2 =>
        split at h
        case isTrue hx => exact more hx h
        case isFalse => exact nomatch h

theorem starRun_reads {round : Cursor → (Cursor → Option α) → Option α} {greedy : Bool}
    (hround : ∀ c k a, round c k = some a → ∃ d, Reads p c d ∧ k d = some a)
    (h : starRun round greedy k c = some a) : ∃ d, Reads (.star p greedy) c d ∧ k d = some a := by
  induction hn : c.rest.length using Nat.strongRecOn generalizing c with
  | _ n ih =>
    have more (hr : round c (fun d => if _h : d.rest.length < c.rest.length then starRun round greedy k d else none) =
        some a) : ∃ d, Reads (.star p greedy) c d ∧ k d = some a := by
      obtain ⟨e, he, hk⟩ := hround _ _ _ hr
      split at hk
      case isTrue hlt =>
        obtain ⟨d, hd, hk⟩ := ih e.rest.length (by omega) hk rfl
        exact ⟨d, .starMore he hd, hk⟩
      case isFalse => exact nomatch hk
    unfold starRun at h
    split at h
    case isTrue =>
      split at h
      case h_1 b hr => exact more (hr.trans h)
      case h_2 => exact ⟨c, .starNone, h⟩
    case isFalse =>
      split at h
      case h_1 b hk => exact ⟨c, .starNone, hk.trans h⟩
      case h_2 => exact more h

theorem run_reads (h : p.run c k = some a) : ∃ d, p.Reads c d ∧ k d = some a := by
  induction p generalizing c k a with
  | empty => exact ⟨c, .empty, h⟩
  | one ok =>
    obtain ⟨prev, rest, g⟩ := c
    unfold run at h
    split at h
    case h_1 => exact nomatch h
    case h_2 x r hrest =>
      dsimp only at hrest
      subst hrest
      split at h
      case isTrue hx => exact ⟨_, .one hx, h⟩
      case isFalse => exact nomatch h
  | many ok greedy => exact manyRun_reads h
  | seq p q ihp ihq =>
    obtain ⟨e, he, h⟩ := ihp h
    obtain ⟨d, hd, h⟩ := ihq h
    exact ⟨d, .seq he hd, h⟩
  | alt p q ihp ihq =>
    unfold run at h
    split at h
    case h_1 b hp =>
      obtain ⟨d, hd, hk⟩ := ihp (hp.trans h)
      exact ⟨d, .left hd, hk⟩
    case h_2 =>
      obtain ⟨d, hd, hk⟩ := ihq h
      exact ⟨d, .right hd, hk⟩
  | star p greedy ih => exact starRun_reads (fun _ _ _ h => ih h) h
  | «at» e =>
    unfold run at h
    split at h
    case isTrue he => exact ⟨c, .at he, h⟩
    case isFalse => exact nomatch h
  | group i p ih =>
    obtain ⟨d, hd, hk⟩ := ih h
    exact ⟨_, .group hd, hk⟩

/-- Where a match ends is where one of the readings ends. -/
theorem endFrom_reads {prev : Option Char} {rest : List Char} (h : p.endFrom prev rest = some d) :
    p.Reads ⟨prev, rest, []⟩ d := by
  obtain ⟨e, he, hk⟩ := run_reads h
  cases hk
  exact he

/-! ### Properties of what is read -/

/-- Every text that the pattern reads has the property. -/
def Every (P : List Char → Prop) (p : Pattern) : Prop :=
  ∀ c d, p.Reads c d → ∃ l, c.rest = l ++ d.rest ∧ P l

namespace Every
variable {P Q R : List Char → Prop}

theorem mono (h : Every P p) (hPQ : ∀ l, P l → Q l) : Every Q p := fun c d hr =>
  have ⟨l, hl, hP⟩ := h c d hr
  ⟨l, hl, hPQ l hP⟩

theorem and (hP : Every P p) (hQ : Every Q p) : Every (fun l => P l ∧ Q l) p := fun c d hr =>
  have ⟨l, hl, hPl⟩ := hP c d hr
  have ⟨_, hk, hQk⟩ := hQ c d hr
  ⟨l, hl, hPl, List.append_cancel_right (hl.symm.trans hk) ▸ hQk⟩

theorem empty (h : P []) : Every P .empty := by
  intro c d hr
  cases hr
  exact ⟨[], rfl, h⟩

theorem one {ok : Char → Bool} (h : ∀ x, ok x = true → P [x]) : Every P (.one ok) := by
  intro c d hr
  cases hr with
  | one hx => exact ⟨[_], rfl, h _ hx⟩

theorem many {ok : Char → Bool} {greedy : Bool} (hnil : P []) (hcons : ∀ x l, ok x = true → P l → P (x :: l)) :
    Every P (.many ok greedy) := by
  intro c d h
  generalize hp : Pattern.many ok greedy = p at h
  induction h with
  | manyNone => exact ⟨[], rfl, hnil⟩
  | manyMore hx _ ih =>
    cases hp
    obtain ⟨l, hl, hP⟩ := ih rfl
    exact ⟨_ :: l, congrArg (_ :: ·) hl, hcons _ l hx hP⟩
  | _ => cases hp

theorem characters (ok : Char → Bool) (greedy : Bool) : Every (fun l => ∀ c ∈ l, ok c = true) (.many ok greedy) :=
  many (fun _ h => absurd h List.not_mem_nil) fun _ _ hx hl => List.forall_mem_cons.2 ⟨hx, hl⟩

theorem seq (hp : Every P p) (hq : Every Q q) (h : ∀ a b, P a → Q b → R (a ++ b)) : Every R (p ++ q) := by
  rintro c d hr
  cases hr with
  | seq hpr hqr =>
    obtain ⟨a, ha, hPa⟩ := hp _ _ hpr
    obtain ⟨b, hb, hQb⟩ := hq _ _ hqr
    exact ⟨a ++ b, by rw [ha, hb, List.append_assoc], h a b hPa hQb⟩

theorem alt (hp : Every P p) (hq : Every P q) : Every P (p ||| q) := by
  rintro c d hr
  cases hr with
  | left h => exact hp _ _ h
  | right h => exact hq _ _ h

theorem opt (hp : Every P p) (h : P []) : Every P p.opt := alt hp (empty h)

theorem star {greedy : Bool} (hp : Every P p) (hnil : Q []) (happend : ∀ a b, P a → Q b → Q (a ++ b)) :
    Every Q (.star p greedy) := by
  intro c d h
  generalize hs : Pattern.star p greedy = s at h
  induction h with
  | starNone => exact ⟨[], rfl, hnil⟩
  | starMore hpr _ _ ih =>
    cases hs
    obtain ⟨a, ha, hPa⟩ := hp _ _ hpr
    obtain ⟨b, hb, hQb⟩ := ih rfl
    exact ⟨a ++ b, by rw [ha, hb, List.append_assoc], happend a b hPa hQb⟩
  | _ => cases hs

theorem «at» {e : Edge} (h : P []) : Every P (.at e) := by
  intro c d hr
  cases hr
  exact ⟨[], rfl, h⟩

theorem group {i : Nat} (h : Every P p) : Every P (.group i p) := by
  intro c d hr
  cases hr with
  | group hr =>
    obtain ⟨l, hl, hP⟩ := h c _ hr
    exact ⟨l, hl, hP⟩

theorem lit (s : String) : Every (· = s.toList) (lit s) := by
  unfold Pattern.lit
  induction s.toList with
  | nil => exact empty rfl
  | cons x l ih =>
    refine (one (P := (· = [x])) fun y hy => ?_).seq ih fun a b ha hb => ?_
    · rw [beq_iff_eq.1 hy]
    · rw [ha, hb]
      rfl

theorem trivial (p : Pattern) : Every (fun _ => True) p := by
  induction p with
  | empty => exact empty True.intro
  | one ok => exact one fun _ _ => True.intro
  | many ok greedy => exact many True.intro fun _ _ _ _ => True.intro
  | seq p q ihp ihq => exact ihp.seq ihq fun _ _ _ _ => True.intro
  | alt p q ihp ihq => exact ihp.alt ihq
  | star p greedy ih => exact ih.star True.intro fun _ _ _ _ => True.intro
  | «at» e => exact .at True.intro
  | group i p ih => exact ih.group

end Every

/-- A pattern reads a part of the text from where it begins. -/
theorem Reads.text (h : p.Reads c d) : ∃ l, c.rest = l ++ d.rest :=
  have ⟨l, hl, _⟩ := Every.trivial p c d h
  ⟨l, hl⟩

/-- Sequences may be read in any nesting. -/
theorem Reads.shift {r : Pattern} (h : (p ++ q ++ r).Reads c d) : (p ++ (q ++ r)).Reads c d := by
  cases h with
  | seq hpq hr =>
    cases hpq with
    | seq hp hq => exact .seq hp (.seq hq hr)

theorem Every.shift {r : Pattern} {P : List Char → Prop} (h : (p ++ (q ++ r)).Every P) : (p ++ q ++ r).Every P :=
  fun c d hr => h c d hr.shift

/-! ### Groups -/

/-- Whether a pattern has no groups. -/
def plain : Pattern → Bool
  | seq p q | alt p q => p.plain && q.plain
  | star p _ => p.plain
  | group _ _ => false
  | _ => true

theorem Reads.groups_eq (h : p.Reads c d) (hp : p.plain = true) : d.groups = c.groups := by
  induction h with
  | empty | one _ | manyNone | starNone | «at» _ => rfl
  | manyMore _ _ ih => exact ih hp
  | seq _ _ ihp ihq =>
    obtain ⟨hp, hq⟩ := Bool.and_eq_true_iff.1 hp
    rw [ihq hq, ihp hp]
  | left _ ih => exact ih (Bool.and_eq_true_iff.1 hp).1
  | right _ ih => exact ih (Bool.and_eq_true_iff.1 hp).2
  | starMore _ _ ihp ihr => rw [ihr hp, ihp hp]
  | group _ => exact nomatch hp

end LivePreview.Pattern
