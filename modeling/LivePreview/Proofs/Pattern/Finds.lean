import LivePreview.Proofs.Pattern.Replace
import LivePreview.Proofs.Pattern.Seek

/-! When a pattern matches.

The matcher tries every way, so it finds one when there is one. Here this is shown of patterns in which every round of a
repetition reads something, by the way that there is (`run_isSome_of_productive`). A greedy repetition goes on until
there is no further round (`star_exhausts`). -/
namespace LivePreview.Pattern

variable {α : Type} {p q : Pattern} {c d e : Cursor} {k : Cursor → Option α} {l r : List Char}
  {prev : Option Char}

/-- Whether a pattern reads at least one character. -/
def readsSome : Pattern → Bool
  | one _ => true
  | seq p q => p.readsSome || q.readsSome
  | alt p q => p.readsSome && q.readsSome
  | group _ p => p.readsSome
  | _ => false

/-- Whether every round of a repeated pattern reads something. -/
def productive : Pattern → Bool
  | seq p q | alt p q => p.productive && q.productive
  | star p _ => p.readsSome && p.productive
  | group _ p => p.productive
  | _ => true

theorem Reads.length_lt (h : p.Reads c d) (hp : p.readsSome = true) : d.rest.length < c.rest.length := by
  induction h with
  | empty | manyNone | manyMore | starNone | starMore | «at» => cases hp
  | one => exact Nat.lt_succ_self _
  | seq hpr hqr ihp ihq =>
    obtain ⟨a, ha⟩ := hpr.text
    obtain ⟨b, hb⟩ := hqr.text
    have hle₁ := congrArg List.length ha
    have hle₂ := congrArg List.length hb
    rw [List.length_append] at hle₁ hle₂
    rcases Bool.or_eq_true_iff.1 hp with hp | hq
    · have := ihp hp
      omega
    · have := ihq hq
      omega
  | left _ ih => exact ih (Bool.and_eq_true_iff.1 hp).1
  | right _ ih => exact ih (Bool.and_eq_true_iff.1 hp).2
  | group _ ih => exact ih hp

/-- **The matcher is complete.** -/
theorem run_isSome_of_productive (h : p.Reads c d) (hp : p.productive = true) (hk : (k d).isSome = true) :
    (p.run c k).isSome = true := by
  induction h generalizing k with
  | empty => exact hk
  | one hx => simpa [run, hx] using hk
  | @manyNone ok greedy c =>
    obtain ⟨prev, rest, g⟩ := c
    show (manyRun ok greedy g k prev rest).isSome = true
    cases rest with
    | nil => exact hk
    | cons x r =>
      unfold manyRun
      grind
  | manyMore hx _ ih =>
    have hrest := ih hp hk
    show (manyRun _ _ _ k _ (_ :: _)).isSome = true
    unfold manyRun
    simp only [run] at hrest
    grind
  | seq _ _ ihp ihq =>
    obtain ⟨hp, hq⟩ := Bool.and_eq_true_iff.1 hp
    exact ihp hp (ihq hq hk)
  | left _ ih =>
    have hleft := ih (Bool.and_eq_true_iff.1 hp).1 hk
    unfold run
    grind
  | right _ ih =>
    have hright := ih (Bool.and_eq_true_iff.1 hp).2 hk
    unfold run
    grind
  | starNone =>
    show (starRun _ _ k _).isSome = true
    unfold starRun
    grind
  | @starMore p greedy c e d hpr _ ihp ihr =>
    obtain ⟨hsome, hround⟩ := Bool.and_eq_true_iff.1 hp
    have hlater := ihr hp hk
    have hmore : (p.run c fun d => if _h : d.rest.length < c.rest.length then
        starRun (fun d j => p.run d j) greedy k d else none).isSome = true :=
      ihp hround (by rw [dif_pos (hpr.length_lt hsome)]; exact hlater)
    show (starRun _ _ k _).isSome = true
    unfold starRun
    grind
  | «at» he => simpa [run, he] using hk
  | group _ ih => exact ih hp hk

/-- A greedy repetition ends where its pattern reads nothing more. -/
theorem star_exhausts (hp : (star p true).productive = true) (h : (star p true).run c some = some d) :
    ¬ ∃ e, p.Reads d e := by
  obtain ⟨hsome, hround⟩ := Bool.and_eq_true_iff.1 hp
  change starRun (fun d j => p.run d j) true some c = some d at h
  induction hn : c.rest.length using Nat.strongRecOn generalizing c with
  | ind n ih =>
    unfold starRun at h
    rw [if_pos rfl] at h
    split at h
    case h_1 a ha =>
      cases h
      obtain ⟨e, -, hmore⟩ := run_reads ha
      split at hmore
      case isTrue hlt => exact ih e.rest.length (by omega) hmore rfl
      case isFalse => cases hmore
    case h_2 hnone =>
      obtain rfl := Option.some.inj h
      rintro ⟨e, he⟩
      have hstar : ((star p true).run e some).isSome = true := run_isSome_of_productive .starNone hp rfl
      have hread := run_isSome_of_productive (k := fun e => if _h : e.rest.length < c.rest.length then
        starRun (fun d j => p.run d j) true some e else none) he hround
        (by rw [dif_pos (he.length_lt hsome)]; exact hstar)
      rw [hnone] at hread
      cases hread

/-- Whether a pattern repeats characters only. -/
def starless : Pattern → Bool
  | seq p q | alt p q => p.starless && q.starless
  | star _ _ => false
  | group _ p => p.starless
  | _ => true

theorem productive_of_starless (hp : p.starless = true) : p.productive = true := by
  induction p with
  | seq p q ihp ihq | alt p q ihp ihq =>
    obtain ⟨hp, hq⟩ := Bool.and_eq_true_iff.1 hp
    exact Bool.and_eq_true_iff.2 ⟨ihp hp, ihq hq⟩
  | star => cases hp
  | group _ _ ih => exact ih hp
  | empty | one | many | «at» => rfl

theorem run_isSome (h : p.Reads c d) (hp : p.starless = true) (hk : (k d).isSome = true) :
    (p.run c k).isSome = true := run_isSome_of_productive h (productive_of_starless hp) hk

/-- A pattern that can read something here has a match here. -/
theorem exists_hits_of_productive (h : p.Reads ⟨prev, l, []⟩ d) (hp : p.productive = true)
    (hread : ∀ d, p.Reads ⟨prev, l, []⟩ d → d.rest.length < l.length) : ∃ e, p.Hits prev l e := by
  obtain ⟨e, he⟩ := Option.isSome_iff_exists.1 (run_isSome_of_productive (k := some) h hp rfl)
  exact ⟨e, he, hread e (endFrom_reads he)⟩

theorem exists_hits (h : p.Reads ⟨prev, l, []⟩ d) (hp : p.starless = true)
    (hread : ∀ d, p.Reads ⟨prev, l, []⟩ d → d.rest.length < l.length) : ∃ e, p.Hits prev l e :=
  exists_hits_of_productive h (productive_of_starless hp) hread

/-! ### Ways to read a text -/

/-- The pattern can read the text wherever that stands. -/
def CanRead (p : Pattern) (l : List Char) : Prop :=
  ∀ prev r g, p.Reads ⟨prev, l ++ r, g⟩ ⟨lastOf prev l, r, g⟩

namespace CanRead

theorem empty : CanRead .empty [] := fun _ _ _ => .empty

theorem one {ok : Char → Bool} {x : Char} (h : ok x = true) : CanRead (.one ok) [x] := fun _ _ _ => .one h

theorem many {ok : Char → Bool} {greedy : Bool} (h : ∀ x ∈ l, ok x = true) : CanRead (.many ok greedy) l := by
  induction l with
  | nil => exact fun _ _ _ => .manyNone
  | cons x l ih =>
    exact fun _ _ _ => .manyMore (h x List.mem_cons_self) (ih (fun y hy => h y (List.mem_cons_of_mem x hy)) _ _ _)

theorem seq (hp : CanRead p l) (hq : CanRead q r) : CanRead (p ++ q) (l ++ r) := fun prev s g => by
  rw [List.append_assoc, lastOf_append]
  exact .seq (hp prev (r ++ s) g) (hq _ s g)

theorem several {ok : Char → Bool} {greedy : Bool} {x : Char} (h : ∀ y ∈ x :: l, ok y = true) :
    CanRead (several ok greedy) (x :: l) :=
  (one (h x List.mem_cons_self)).seq (many fun y hy => h y (List.mem_cons_of_mem x hy))

theorem left (h : CanRead p l) : CanRead (p ||| q) l := fun prev r g => .left (h prev r g)

theorem right (h : CanRead q l) : CanRead (p ||| q) l := fun prev r g => .right (h prev r g)

theorem lit (s : String) : CanRead (lit s) s.toList := by
  unfold Pattern.lit
  induction s.toList with
  | nil => exact empty
  | cons x l ih =>
    have hx : CanRead (.one (· == x)) [x] := one (beq_self_eq_true x)
    exact hx.seq ih

end CanRead

end LivePreview.Pattern
