import LivePreview.Proofs.Source.Heads
import LivePreview.Proofs.Source.Level

/-! Texts whose brackets balance, and the partners in them.

The scans of parameter lists count all brackets together, while partners are found by counting parentheses alone. Both
agree in a text whose brackets balance, parentheses with parentheses (`Balanced`): its parts at depth zero balance, so
no two partners stand in different parts (`hasPair_append`). -/
namespace LivePreview.Source

variable {s t x y b b' : List Char} {c : Char} {opened behind : List Bool}

/-! ### Brackets -/

/-- The brackets that are open behind a character, the innermost first; of each is kept whether it is a parenthesis. -/
def bracketStep (opened : List Bool) (c : Char) : Option (List Bool) :=
  if depthStep c = 1 then some ((c == '(') :: opened)
  else if depthStep c = -1 then
    match opened with
    | parenthesis :: opened => if parenthesis = (c == ')') then some opened else none
    | [] => none
  else some opened

/-- The brackets that are open behind a text, if each is closed by one of its kind: parentheses are told from others. -/
def openBehind (opened : List Bool) (s : List Char) : Option (List Bool) := s.foldlM bracketStep opened

/-- All brackets that a text opens it closes, and no others. -/
def Balanced (s : List Char) : Prop := openBehind [] s = some []

instance : Decidable (Balanced s) := inferInstanceAs (Decidable (_ = _))

theorem openBehind_cons : openBehind opened (c :: s) = (bracketStep opened c).bind (openBehind · s) := rfl

theorem openBehind_append : openBehind opened (s ++ t) = (openBehind opened s).bind (openBehind · t) :=
  List.foldlM_append

theorem depthStep_cases (c : Char) : depthStep c = 1 ∨ depthStep c = -1 ∨ depthStep c = 0 := by
  unfold depthStep
  split
  · exact .inl rfl
  · split
    · exact .inr (.inl rfl)
    · exact .inr (.inr rfl)

theorem riseStep_of_depthStep (h : depthStep c = 0) : riseStep '(' ')' c = 0 := by
  have hopen : c ≠ '(' := by
    rintro rfl
    cases h
  have hclose : c ≠ ')' := by
    rintro rfl
    cases h
  rw [riseStep, if_neg hopen, if_neg hclose]

/-- How many parentheses are among open brackets. -/
def parentheses (opened : List Bool) : Int := opened.count true

theorem bracketStep_eq (h : bracketStep opened c = some behind) :
    (behind.length : Int) = opened.length + depthStep c ∧
      parentheses behind = parentheses opened + riseStep '(' ')' c := by
  unfold bracketStep at h
  rcases depthStep_cases c with hstep | hstep | hstep
  · rw [hstep, if_pos rfl] at h
    cases h
    have hne : c ≠ ')' := by
      rintro rfl
      cases hstep
    refine ⟨by rw [hstep]; simp, ?_⟩
    by_cases hc : c = '('
    · simp [hc, parentheses, riseStep]
    · simp [hc, hne, parentheses, riseStep]
  · rw [hstep, if_neg (by decide), if_pos rfl] at h
    have hne : c ≠ '(' := by
      rintro rfl
      cases hstep
    cases opened with
    | nil => cases h
    | cons parenthesis opened =>
      dsimp only at h
      split at h
      case isTrue hkind =>
        cases h
        refine ⟨by rw [hstep, List.length_cons]; omega, ?_⟩
        by_cases hc : c = ')'
        · have hone : parentheses (parenthesis :: behind) = parentheses behind + 1 := by simp [hkind, hc, parentheses]
          rw [hone, hc, riseStep_close (by decide)]
          omega
        · simp [hkind, hc, hne, parentheses, riseStep]
      case isFalse => cases h
  · rw [hstep, if_neg (by decide), if_neg (by decide)] at h
    cases h
    exact ⟨by rw [hstep]; simp, by rw [riseStep_of_depthStep hstep]; simp⟩

/-- The brackets that are open are counted by both scans. -/
theorem openBehind_eq (h : openBehind opened s = some behind) :
    (behind.length : Int) = opened.length + depthOf s ∧ parentheses behind = parentheses opened + rise '(' ')' s := by
  induction s generalizing opened with
  | nil =>
    cases h
    simp
  | cons c s ih =>
    rw [openBehind_cons] at h
    obtain ⟨next, hstep, hrest⟩ := Option.bind_eq_some_iff.1 h
    obtain ⟨hlength, hcount⟩ := bracketStep_eq hstep
    obtain ⟨hlength', hcount'⟩ := ih hrest
    rw [depthOf_cons, rise_cons]
    exact ⟨by omega, by omega⟩

theorem bracketStep_append (h : bracketStep opened c = some behind) (base : List Bool) :
    bracketStep (opened ++ base) c = some (behind ++ base) := by
  unfold bracketStep at h ⊢
  split at h
  case isTrue hstep =>
    cases h
    rw [if_pos hstep, List.cons_append]
  case isFalse hne =>
    rw [if_neg hne]
    split at h
    case isTrue hstep =>
      rw [if_pos hstep]
      cases opened with
      | nil => cases h
      | cons parenthesis opened =>
        dsimp only [List.cons_append] at h ⊢
        split at h
        case isTrue hkind =>
          cases h
          rw [if_pos hkind]
        case isFalse => cases h
    case isFalse hno =>
      cases h
      rw [if_neg hno]

/-- Brackets that were open before stay open below. -/
theorem openBehind_base (h : openBehind opened s = some behind) (base : List Bool) :
    openBehind (opened ++ base) s = some (behind ++ base) := by
  induction s generalizing opened with
  | nil =>
    cases h
    rfl
  | cons c s ih =>
    rw [openBehind_cons] at h ⊢
    obtain ⟨next, hstep, hrest⟩ := Option.bind_eq_some_iff.1 h
    rw [bracketStep_append hstep, Option.bind_some, ih hrest]

namespace Balanced

theorem nil : Balanced [] := rfl

theorem openBehind_self (h : Balanced s) (opened : List Bool) : openBehind opened s = some opened :=
  openBehind_base h opened

theorem append (hx : Balanced x) (hy : Balanced y) : Balanced (x ++ y) := by
  unfold Balanced at *
  rw [openBehind_append, hx]
  exact hy

theorem depthOf_eq (h : Balanced s) : depthOf s = 0 := by simpa using (openBehind_eq h).1.symm

/-- No part of it closes more than was open. -/
theorem depthOf_nonneg (h : Balanced (x ++ y)) : 0 ≤ depthOf x := by
  rw [Balanced, openBehind_append] at h
  obtain ⟨behind, hx, -⟩ := Option.bind_eq_some_iff.1 h
  have := (openBehind_eq hx).1
  simp at this
  omega

theorem enclosed (h : Balanced s) : Enclosed '(' ')' 0 s := by
  refine ⟨by simpa [parentheses] using (openBehind_eq h).2.symm, fun k => ?_⟩
  rw [Balanced, ← List.take_append_drop k s, openBehind_append] at h
  obtain ⟨behind, hx, -⟩ := Option.bind_eq_some_iff.1 h
  have hcount := (openBehind_eq hx).2
  have hnonneg : 0 ≤ parentheses behind := Int.natCast_nonneg _
  simp [parentheses] at hcount hnonneg
  omega

/-- At depth zero it comes apart into two such texts. -/
theorem parts (h : Balanced (x ++ y)) (hx : depthOf x = 0) : Balanced x ∧ Balanced y := by
  rw [Balanced, openBehind_append] at h
  obtain ⟨behind, hopen, hrest⟩ := Option.bind_eq_some_iff.1 h
  have hlength := (openBehind_eq hopen).1
  rw [hx] at hlength
  obtain rfl : behind = [] := List.length_eq_zero_iff.1 (by simpa using hlength)
  exact ⟨hopen, hrest⟩

theorem tail (h : Balanced (c :: s)) (hc : depthStep c = 0) : Balanced s :=
  (parts (x := [c]) h (by simpa using hc)).2

end Balanced

/-! ### Partners -/

theorem Enclosed.take_nonneg (h : Enclosed '(' ')' 0 (x ++ y)) : 0 ≤ rise '(' ')' x := by simpa using h.2 x.length

/-- Of a part that closes what it opens nothing is seen behind it. -/
theorem Enclosed.append_iff {d : Int} (hx : Enclosed '(' ')' 0 x) :
    Enclosed '(' ')' d (x ++ y) ↔ Enclosed '(' ')' d y := by
  have hsum : rise '(' ')' x = 0 := by simpa using hx.1
  simp only [Enclosed, rise_append, hsum, Int.zero_add]
  refine and_congr_right fun _ => ⟨fun h k => ?_, fun h k => ?_⟩
  · have := h (x.length + k)
    rwa [List.take_length_add_append, rise_append, hsum, Int.zero_add] at this
  · have hd := h 0
    rw [List.take_zero, rise_nil] at hd
    rw [List.take_append, rise_append]
    rcases Nat.lt_or_ge k x.length with hlt | hle
    · have hin := hx.2 k
      rw [Nat.sub_eq_zero_of_le (Nat.le_of_lt hlt), List.take_zero, rise_nil]
      omega
    · rw [List.take_of_length_le hle, hsum, Int.zero_add]
      exact h (k - x.length)

/-- What two partners enclose is told by where the first one stands. -/
theorem Enclosed.unique (hb : Enclosed '(' ')' 0 b) (hb' : Enclosed '(' ')' 0 b') (h : b ++ ')' :: s = b' ++ ')' :: t) :
    b = b' ∧ s = t := by
  have hclose {b t : List Char} (hb : Enclosed '(' ')' 0 b) :
      closeAfter '(' ')' (0 + 1) (b ++ ')' :: t) = some (b.length + 1) :=
    (closeAfter_eq_some_iff (by decide)).2 ⟨b, t, rfl, rfl, hb⟩
  have hlength := (hclose hb).symm.trans ((congrArg _ h).trans (hclose hb'))
  obtain ⟨hsame, hrest⟩ := List.append_inj h (by simpa using hlength)
  exact ⟨hsame, (List.cons.inj hrest).2⟩

/-- A character above an open parenthesis leaves it open, unless it closes it. -/
theorem exists_step_above {base u next : List Bool} (h : bracketStep (u ++ true :: base) c = some next)
    (hrise : 0 ≤ parentheses u + riseStep '(' ')' c) : ∃ w, next = w ++ true :: base ∧ bracketStep u c = some w := by
  cases hu : bracketStep u c with
  | some w => exact ⟨w, Option.some.inj (h.symm.trans (bracketStep_append hu _)), rfl⟩
  | none =>
    unfold bracketStep at hu h
    split at hu
    case isTrue => cases hu
    case isFalse hopen =>
      rw [if_neg hopen] at h
      split at hu
      case isFalse => cases hu
      case isTrue hclose =>
        rw [if_pos hclose] at h
        cases u with
        | nil =>
          dsimp only [List.nil_append] at h
          split at h
          case isTrue hkind =>
            obtain rfl : c = ')' := by simpa using hkind.symm
            simp [parentheses, riseStep] at hrise
          case isFalse => cases h
        | cons parenthesis u =>
          dsimp only [List.cons_append] at hu h
          split at hu
          case isTrue => cases hu
          case isFalse hkind =>
            rw [if_neg hkind] at h
            cases h

theorem exists_above {base u v : List Bool} (h : openBehind (u ++ true :: base) s = some v)
    (hrise : ∀ k, 0 ≤ parentheses u + rise '(' ')' (s.take k)) :
    ∃ w, v = w ++ true :: base ∧ openBehind u s = some w := by
  induction s generalizing u with
  | nil => exact ⟨u, (Option.some.inj h).symm, rfl⟩
  | cons c s ih =>
    rw [openBehind_cons] at h
    obtain ⟨next, hstep, hrest⟩ := Option.bind_eq_some_iff.1 h
    obtain ⟨w, rfl, hw⟩ := exists_step_above hstep (by simpa using hrise 1)
    obtain ⟨v', hv, hbehind⟩ := ih hrest fun k => by
      have := hrise (k + 1)
      rw [List.take_succ_cons, rise_cons] at this
      rw [(bracketStep_eq hw).2]
      omega
    exact ⟨v', hv, by rw [openBehind_cons, hw, Option.bind_some, hbehind]⟩

/-- What stands between partners balances where all around it does. -/
theorem Balanced.between {a : List Char} (h : Balanced (a ++ '(' :: (b ++ ')' :: t))) (hb : Enclosed '(' ')' 0 b) :
    Balanced b := by
  rw [Balanced, openBehind_append] at h
  obtain ⟨base, -, h⟩ := Option.bind_eq_some_iff.1 h
  have hopen : openBehind ([] ++ true :: base) (b ++ ')' :: t) = some [] := h
  rw [openBehind_append] at hopen
  obtain ⟨v, hv, hclose⟩ := Option.bind_eq_some_iff.1 hopen
  obtain ⟨w, rfl, hw⟩ := exists_above hv fun k => by simpa [parentheses] using hb.2 k
  have hcount : parentheses w = 0 := by
    have := (openBehind_eq hw).2
    have hsum := hb.1
    simp [parentheses] at this hsum ⊢
    omega
  rw [openBehind_cons] at hclose
  obtain ⟨next, hstep, -⟩ := Option.bind_eq_some_iff.1 hclose
  cases w with
  | nil => exact hw
  | cons parenthesis w =>
    have hkind : parenthesis = true ∧ w ++ true :: base = next := by
      simpa [bracketStep, show depthStep ')' = -1 from rfl] using hstep
    simp [parentheses, hkind.1] at hcount
    omega

/-- Some two partners have the property, which is one of the texts before, between and behind them. -/
def HasPair (s : List Char) (P : List Char → List Char → List Char → Prop) : Prop :=
  ∃ a b t, s = a ++ '(' :: (b ++ ')' :: t) ∧ Enclosed '(' ')' 0 b ∧ P a b t

variable {P Q : List Char → List Char → List Char → Prop}

theorem HasPair.congr (h : ∀ a b t, s = a ++ '(' :: (b ++ ')' :: t) → Enclosed '(' ')' 0 b → (P a b t ↔ Q a b t)) :
    HasPair s P ↔ HasPair s Q :=
  ⟨fun ⟨a, b, t, hs, hb, hP⟩ => ⟨a, b, t, hs, hb, (h a b t hs hb).1 hP⟩,
    fun ⟨a, b, t, hs, hb, hQ⟩ => ⟨a, b, t, hs, hb, (h a b t hs hb).2 hQ⟩⟩

theorem not_hasPair (h : '(' ∉ s) : ¬ HasPair s P := fun ⟨a, b, t, hs, _⟩ => h (by simp [hs])

theorem hasPair_cons : HasPair (c :: s) P ↔
    (c = '(' ∧ ∃ b t, s = b ++ ')' :: t ∧ Enclosed '(' ')' 0 b ∧ P [] b t) ∨ HasPair s fun a => P (c :: a) := by
  refine ⟨fun ⟨a, b, t, hs, hb, hP⟩ => ?_, ?_⟩
  · cases a with
    | nil =>
      obtain ⟨rfl, hrest⟩ := List.cons.inj hs
      exact .inl ⟨rfl, b, t, hrest, hb, hP⟩
    | cons d a =>
      obtain ⟨rfl, hrest⟩ := List.cons.inj hs
      exact .inr ⟨a, b, t, hrest, hb, hP⟩
  · rintro (⟨rfl, b, t, rfl, hb, hP⟩ | ⟨a, b, t, rfl, hb, hP⟩)
    · exact ⟨[], b, t, rfl, hb, hP⟩
    · exact ⟨c :: a, b, t, rfl, hb, hP⟩

theorem hasPair_cons_of_ne (hc : c ≠ '(') : HasPair (c :: s) P ↔ HasPair s fun a => P (c :: a) := by
  simp [hasPair_cons, hc]

/-- Partners stand in one of two parts, if the first part closes what it opens. -/
theorem hasPair_append (hx : Enclosed '(' ')' 0 x) : HasPair (x ++ y) P ↔
    (HasPair x fun a b t => P a b (t ++ y)) ∨ HasPair y fun a => P (x ++ a) := by
  refine ⟨fun ⟨a, b, t, hs, hb, hP⟩ => ?_, ?_⟩
  · rcases Nat.lt_or_ge a.length x.length with hlt | hle
    · obtain ⟨x', rfl, hx'⟩ := Pattern.exists_of_append hs (Nat.le_of_lt hlt)
      cases x' with
      | nil => simp at hlt
      | cons d x' =>
        obtain ⟨rfl, hrest⟩ := List.cons.inj hx'
        rcases Nat.lt_or_ge b.length x'.length with hlt | hle
        · obtain ⟨x'', rfl, ht⟩ := Pattern.exists_of_append hrest (Nat.le_of_lt hlt)
          cases x'' with
          | nil => simp at hlt
          | cons e x'' =>
            obtain ⟨rfl, rfl⟩ := List.cons.inj ht
            exact .inl ⟨a, b, x'', rfl, hb, hP⟩
        · -- The part would have to close this parenthesis before its partner does.
          obtain ⟨b', rfl, -⟩ := Pattern.exists_of_append hrest.symm hle
          have hsum := hx.1
          have hbefore := hx.take_nonneg
          have hinside := hb.take_nonneg
          simp at hsum
          omega
    · obtain ⟨a', rfl, hy⟩ := Pattern.exists_of_append hs.symm hle
      exact .inr ⟨a', b, t, hy.symm, hb, hP⟩
  · rintro (⟨a, b, t, rfl, hb, hP⟩ | ⟨a, b, t, rfl, hb, hP⟩)
    · exact ⟨a, b, t ++ y, by simp, hb, hP⟩
    · exact ⟨x ++ a, b, t, by simp, hb, hP⟩

/-- A list between partners, and what follows it. -/
theorem hasPair_list (hb : Enclosed '(' ')' 0 b) : HasPair ('(' :: (b ++ ')' :: y)) P ↔
    P [] b y ∨ (HasPair b fun a b' t => P ('(' :: a) b' (t ++ ')' :: y)) ∨
      HasPair y fun a => P ('(' :: (b ++ ')' :: a)) := by
  have hhere : (∃ b' t, b ++ ')' :: y = b' ++ ')' :: t ∧ Enclosed '(' ')' 0 b' ∧ P [] b' t) ↔ P [] b y := by
    refine ⟨fun ⟨b', t, h, hb', hP⟩ => ?_, fun hP => ⟨b, y, rfl, hb, hP⟩⟩
    obtain ⟨rfl, rfl⟩ := hb.unique hb' h
    exact hP
  rw [hasPair_cons, hasPair_append hb, hasPair_cons_of_ne (by decide), hhere]
  simp

/-- An edit is made of such partners. -/
def Listed (a b t : List Char) : Prop := (Headed a ∨ Arrowed t) ∧ stripParameterTypes b ≠ none

/-- Edits are made in a text in which there are such partners. -/
theorem parameterEdits_ne_nil_iff : parameterEdits s ≠ [] ↔ HasPair s Listed := by
  refine ⟨fun h => ?_, fun ⟨a, b, t, hs, hb, hlisted⟩ hnil => ?_⟩
  · obtain ⟨e, he⟩ := List.exists_mem_of_ne_nil _ h
    obtain ⟨a, b, t, hs, hstart, -, hb⟩ := (parameterEdits_fit he).pair
    exact ⟨a, b, t, hs, hb, (exists_edit_iff hs hb).1 ⟨e, he, hstart⟩⟩
  · obtain ⟨e, he, -⟩ := (exists_edit_iff hs hb).2 hlisted
    rw [hnil] at he
    cases he

/-- A text stays as it is when there are none. -/
theorem stripParameterLists_eq_self_iff : stripParameterLists s = s ↔ ¬ HasPair s Listed := by
  rw [← parameterEdits_ne_nil_iff]
  refine ⟨fun h hne => ?_, trims_stripParameterLists.keeps s⟩
  obtain ⟨n, hn, hlt⟩ := trims_stripParameterLists.loses s (mass s) rfl hne
  rw [h] at hn
  exact absurd (hn : mass s = n) (Nat.ne_of_gt hlt)

end LivePreview.Source
