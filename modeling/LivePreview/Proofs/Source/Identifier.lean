import Mathlib.Tactic.SplitIfs
import LivePreview.Proofs.Source.Track
import LivePreview.Component

/-! Names that are found and names that can be returned.

Two definitions say what a name is. The patterns read a Latin capital and then letters, digits, `_` and `$`; a script
can return a word of letters, digits and `_` that does not begin with a digit. Whatever is found is a name of the
first kind (`isName_componentName?`), so only a dollar sign keeps it from being one of the second. -/
namespace LivePreview.Source
open Pattern

/-! ### What a declaration has read of its name -/

/-- What has been read of the name is a name. -/
def Thread.Proper : Thread → Prop
  | .word _ | .gap _ => True
  | .name n | .behind n => IsName n

/-- What the next character makes of a declaration is proper again. -/
def Outcome.Proper : Outcome → Prop
  | .dies => True
  | .goes θ => θ.Proper
  | .found n => IsName n

theorem IsName.capital {c : Char} (hc : isCapital c = true) : IsName [c] := ⟨c, [], rfl, hc, List.forall_mem_nil _⟩

theorem IsName.snoc {n : List Char} {c : Char} (hn : IsName n) (hc : isNamePart c = true) : IsName (n ++ [c]) := by
  obtain ⟨x, m, rfl, hx, hm⟩ := hn
  refine ⟨x, m ++ [c], rfl, hx, fun d hd => ?_⟩
  obtain hd | hd := List.mem_append.1 hd
  · exact hm d hd
  · exact List.mem_singleton.1 hd ▸ hc

namespace Track
variable (T : Track)

theorem proper_opened (b : Bool) (c : Char) : (Thread.opened b c).Proper := by
  unfold Thread.opened
  split_ifs with hspace hstar hcapital
  · trivial
  · trivial
  · exact .capital hcapital
  · trivial

theorem proper_closes {n : List Char} (hn : IsName n) (c : Char) : (Thread.closes n c).Proper := by
  unfold Thread.closes
  split_ifs
  · exact hn
  · exact hn
  · trivial

theorem proper_step {θ : Thread} (h : θ.Proper) (c : Char) : (T.step θ c).Proper := by
  rcases θ with (- | ⟨x, left⟩) | starred | n | n
  · simp only [step]
    split_ifs
    · exact proper_opened false c
    · trivial
    · trivial
  · simp only [step]
    split_ifs <;> trivial
  · exact proper_opened starred c
  · simp only [step]
    split_ifs with hpart hbare
    · exact IsName.snoc h hpart
    · exact h
    · exact proper_closes h c
  · exact proper_closes h c

/-- The name that a declaration turns out to have is one. -/
theorem isName_of_follow {θ : Thread} {s n : List Char} (h : θ.Proper) (hn : T.follow θ s = some n) : IsName n := by
  induction s generalizing θ with
  | nil =>
    unfold follow last at hn
    split at hn
    case h_1 m =>
      obtain ⟨-, hm⟩ := Option.ite_none_right_eq_some.1 hn
      exact Option.some.inj hm ▸ h
    case h_2 => contradiction
  | cons c r ih =>
    have hstep := T.proper_step h c
    rw [follow] at hn
    split at hn
    case h_1 => contradiction
    case h_2 θ' hgoes =>
      rw [hgoes] at hstep
      exact ih hstep hn
    case h_3 m hfound =>
      rw [hfound] at hstep
      exact Option.some.inj hn ▸ hstep

theorem isName_of_seek {prev : Option Char} {s n : List Char} (h : seek T.at? prev s = some n) : IsName n := by
  obtain ⟨l, r, -, hat, -⟩ := seek_eq_some h
  obtain ⟨-, hat⟩ := Option.ite_none_right_eq_some.1 hat
  obtain ⟨w, -, hw⟩ := List.exists_of_findSome?_eq_some hat
  exact T.isName_of_follow (θ := .word w) trivial hw

end Track

/-! ### Names that are only exported -/

theorem every_isName : componentIdent.Every IsName :=
  (Every.one (P := fun l => ∃ c, isCapital c = true ∧ l = [c]) fun c hc => ⟨c, hc, rfl⟩).seq
    (Every.many (P := fun l => ∀ c ∈ l, isNamePart c = true) (List.forall_mem_nil _)
      fun _ _ hx hl => List.forall_mem_cons.2 ⟨hx, hl⟩)
    fun _ m ha hm => ha.elim fun c hc => ⟨c, m, by rw [hc.2]; rfl, hc.1, hm⟩

/-- An exported name stands in one of the two groups, and the other one took no part. -/
theorem exportedName_reads {prev : Option Char} {rest : List Char} {d : Cursor}
    (h : exportedName.Reads ⟨prev, rest, []⟩ d) :
    ∃ i n r, (i = 1 ∨ i = 2) ∧ IsName n ∧ d.groups = [(i, n ++ r, r)] := by
  obtain ⟨i, hi, p, hp, hreads⟩ : ∃ i, (i = 1 ∨ i = 2) ∧ ∃ p : Pattern, p.plain = true ∧
      (p ++ .group i componentIdent).Reads ⟨prev, rest, []⟩ d := by
    cases h with
    | seq hhead htail =>
      cases htail with
      | left htail =>
        cases htail with
        | seq hdefault hgroup => exact ⟨1, .inl rfl, _, rfl, .seq (.seq hhead hdefault) hgroup⟩
      | right htail =>
        cases htail with
        | seq hbrace hgroup => exact ⟨2, .inr rfl, _, rfl, .seq (.seq hhead hbrace) hgroup⟩
  cases hreads with
  | @seq _ _ _ e _ hp' hgroup =>
    have hgroups : e.groups = [] := hp'.groups_eq hp
    obtain ⟨n, hn, hname⟩ := (every_isName.group) _ _ hgroup
    refine ⟨i, n, d.rest, hi, hname, ?_⟩
    rw [group_reads hgroup rfl, hgroups, hn]

/-- **What is found is a name.** -/
theorem isName_componentName? {s : List Char} {n : ComponentName} (h : componentName? s = some n) : IsName n.name := by
  rw [componentName?_eq] at h
  split at h
  case h_1 m hm =>
    cases h
    exact Track.isName_of_seek _ hm
  case h_2 =>
    split at h
    case h_1 m hm =>
      cases h
      exact Track.isName_of_seek _ hm
    case h_2 =>
      obtain ⟨m, hm, rfl⟩ := Option.map_eq_some_iff.1 h
      obtain ⟨-, prev, hend⟩ := find?_eq_some hm
      obtain ⟨i, name, r, hi, hname, hgroups⟩ := exportedName_reads (endFrom_reads hend)
      have hgroup : m.group i = name := group_cons hgroups rfl
      obtain rfl | rfl := hi
      · have hhas : m.hasGroup 1 = true := by simp [Match.hasGroup, hgroups]
        simp only [hhas, if_true, hgroup, hname]
      · have hhas : m.hasGroup 1 = false := by simp [Match.hasGroup, hgroups]
        simp only [hhas, Bool.false_eq_true, if_false, hgroup, hname]

/-! ### Names that a script can return -/

theorem isPlainName_iff {c : Char} (h : isNamePart c = true) : Text.isPlainName c = true ↔ c ≠ '$' := by
  constructor
  · rintro hplain rfl
    exact absurd hplain (by decide)
  · intro hne
    simpa [isNamePart, hne] using h

/-- A name can be returned when it has no dollar sign. -/
theorem isIdentifier_iff {n : List Char} (hn : IsName n) :
    Component.isIdentifier (String.ofList n) = true ↔ '$' ∉ n := by
  obtain ⟨c, m, rfl, hc, hm⟩ := hn
  have hfirst : Text.isLatin c = true := Bool.or_eq_true_iff.2 (.inr hc)
  have hne : '$' ≠ c := by
    rintro rfl
    exact absurd hc (by decide)
  simp only [Component.isIdentifier, String.toList_ofList, hfirst, Bool.true_or, Bool.true_and, List.all_eq_true,
    List.mem_cons, hne, false_or]
  constructor
  · intro hall hmem
    exact (isPlainName_iff (hm '$' hmem)).1 (hall '$' hmem) rfl
  · intro hnot d hd
    exact (isPlainName_iff (hm d hd)).2 fun heq => hnot (heq ▸ hd)

end LivePreview.Source
