import LivePreview.Proofs.Pattern.Replace
import LivePreview.Source.Mask

/-! What a rewrite takes out of a text.

Characters that are neither white space nor part of a placeholder are solid, and a text is as heavy as it has solid
characters. Patterns that begin with a solid character, after white space, make a text lighter when they are cut out
of it. -/
namespace LivePreview.Source
open Pattern

/-- A character that is no white space, and that no placeholder holds. -/
def solid (c : Char) : Bool := !Text.isSpace c && !Text.isDigit c && !isHideMark c

/-- The number of solid characters. -/
def mass (s : List Char) : Nat := s.countP solid

/-- White space and nothing else. -/
def Blank (s : List Char) : Prop := ∀ c ∈ s, Text.isSpace c = true

instance (s : List Char) : Decidable (Blank s) := List.decidableBAll _ s

/-- White space, if any, and a solid character. -/
def Opens (s : List Char) : Prop := ∃ blank c r, s = blank ++ c :: r ∧ Blank blank ∧ solid c = true

@[simp] theorem mass_nil : mass [] = 0 := rfl

@[simp] theorem mass_cons (c : Char) (s : List Char) : mass (c :: s) = mass s + if solid c then 1 else 0 :=
  List.countP_cons

@[simp] theorem mass_append (s t : List Char) : mass (s ++ t) = mass s + mass t := List.countP_append

theorem mass_sublist {s t : List Char} (h : s.Sublist t) : mass s ≤ mass t := h.countP_le

theorem mass_eq_zero {s : List Char} (h : ∀ c ∈ s, solid c = false) : mass s = 0 :=
  List.countP_eq_zero.2 fun c hc => by simp [h c hc]

theorem not_solid_of_isSpace {c : Char} (h : Text.isSpace c = true) : solid c = false := by simp [solid, h]

theorem Blank.mass {s : List Char} (h : Blank s) : mass s = 0 :=
  mass_eq_zero fun c hc => not_solid_of_isSpace (h c hc)

theorem Blank.nil : Blank [] := fun _ h => nomatch h

theorem Blank.append {s t : List Char} (hs : Blank s) (ht : Blank t) : Blank (s ++ t) := fun c hc =>
  (List.mem_append.1 hc).elim (hs c) (ht c)

theorem blank_takeWhile (s : List Char) : Blank (s.takeWhile Text.isSpace) := List.all_eq_true.1 List.all_takeWhile

theorem Opens.append {s : List Char} (h : Opens s) (t : List Char) : Opens (s ++ t) := by
  obtain ⟨blank, c, r, rfl, hblank, hc⟩ := h
  exact ⟨blank, c, r ++ t, by simp, hblank, hc⟩

theorem Blank.opens {s t : List Char} (hs : Blank s) (ht : Opens t) : Opens (s ++ t) := by
  obtain ⟨blank, c, r, rfl, hblank, hc⟩ := ht
  exact ⟨s ++ blank, c, r, by simp, hs.append hblank, hc⟩

theorem Opens.mass_pos {s : List Char} (h : Opens s) : 0 < mass s := by
  obtain ⟨blank, c, r, rfl, -, hc⟩ := h
  rw [mass_append, mass_cons, if_pos hc]
  omega

/-- A text that stands for itself is counted by its own mass. -/
theorem measure_mass : Measure Opens fun s n => mass s = n where
  append ha hb := by rw [mass_append, ha, hb]
  cut {a gap b n} h hgap := by
    refine ⟨mass a, mass b, rfl, rfl, ?_⟩
    have hpos := hgap.mass_pos
    simp only [mass_append] at h
    omega

/-- Texts are also counted by their length. -/
theorem measure_length : Measure Opens fun s n => s.length = n where
  append ha hb := by rw [List.length_append, ha, hb]
  cut {a gap b n} h hgap := by
    refine ⟨a.length, b.length, rfl, rfl, ?_⟩
    obtain ⟨blank, c, r, rfl, -, -⟩ := hgap
    simp only [List.length_append, List.length_cons] at h
    omega

/-! ### Patterns that begin with something solid -/

variable {p q : Pattern}

theorem every_blank_seq (hp : p.Every Blank) (hq : q.Every Blank) : (p ++ q).Every Blank :=
  hp.seq hq fun _ _ => Blank.append

theorem every_opens_left (hp : p.Every Opens) (q : Pattern) : (p ++ q).Every Opens :=
  hp.seq (.trivial q) fun _ b h _ => h.append b

theorem every_opens_right (hp : p.Every Blank) (hq : q.Every Opens) : (p ++ q).Every Opens :=
  hp.seq hq fun _ _ => Blank.opens

theorem every_opens_opt (hp : p.Every Opens) (hq : q.Every Opens) : (p.opt ++ q).Every Opens := by
  intro c d h
  cases h with
  | seq ho hr =>
    cases ho with
    | left hl => exact every_opens_left hp q c d (.seq hl hr)
    | right he =>
      cases he
      exact hq c d hr

theorem every_opens_lit {s : String} (h : s.toList.head?.any solid = true) : (lit s).Every Opens := by
  refine (Every.lit s).mono fun l hl => ?_
  subst hl
  cases hs : s.toList with
  | nil => simp [hs] at h
  | cons c r => exact ⟨[], c, r, rfl, .nil, by simpa [hs] using h⟩

theorem every_blank_many {ok : Char → Bool} {greedy : Bool} (h : ∀ c, ok c = true → Text.isSpace c = true) :
    (Pattern.many ok greedy).Every Blank :=
  .many .nil fun c l hc hl => fun x hx => by
    rcases List.mem_cons.1 hx with rfl | hx
    · exact h x hc
    · exact hl x hx

theorem every_blank_one {ok : Char → Bool} (h : ∀ c, ok c = true → Text.isSpace c = true) :
    (Pattern.one ok).Every Blank :=
  .one fun c hc x hx => by
    rw [List.mem_singleton.1 hx]
    exact h c hc

theorem isSpace_of_isBlank {c : Char} (h : Text.isBlank c = true) : Text.isSpace c = true := by
  rcases Bool.or_eq_true_iff.1 h with h | h <;> rw [beq_iff_eq.1 h] <;> rfl

theorem every_blank_blanks : blanks.Every Blank := every_blank_many fun _ => isSpace_of_isBlank

theorem every_blank_spaces : spaces.Every Blank := every_blank_many fun _ h => h

theorem every_blank_gap : gap.Every Blank := every_blank_seq (every_blank_one fun _ h => h) every_blank_spaces

end LivePreview.Source
