import Mathlib.Tactic.SplitIfs
import LivePreview.Proofs.Source.Lexing
import LivePreview.Proofs.Source.LineCut

/-! Constant assertions and the lines that begin an import.

An assertion ends at a word edge, and no literal begins directly behind a word (`edged_literalSpans`). So what follows
an assertion goes on with no word, also where literals are hidden. -/
namespace LivePreview.Source
open Pattern Spot

variable {s t : List Char} {c : Char} {prev : Option Char} {hidden : Array (List Char)}

/-! ### Where literals begin -/

/-- The place stands behind a character that is part of no word. -/
def Edged (s : List Char) (i : Nat) : Prop := ∃ a x b, s = a ++ x :: b ∧ i = a.length + 1 ∧ Text.isWord x = false

/-- A step that comes to markup text ends with the end of a tag or of embedded code. -/
theorem lexStep_children {mode : Mode} {below : List Mode} {before rest : List Char}
    (hmode : ¬(mode = .children ∧ c ≠ '{' ∧ c ≠ '<'))
    (h : (lexStep mode below before c rest).modes.head? = some .children) :
    ∃ x b, (rest.take ((lexStep mode below before c rest).width - 1)).reverse ++ c :: before = x :: b ∧
      Text.isWord x = false ∧ (lexStep mode below before c rest).width - 1 ≤ rest.length := by
  have hhere (hc : c = '}' ∨ c = '>') : ∃ x b, (rest.take (1 - 1)).reverse ++ c :: before = x :: b ∧
      Text.isWord x = false ∧ 1 - 1 ≤ rest.length :=
    ⟨c, before, rfl, by rcases hc with rfl | rfl <;> rfl, Nat.zero_le _⟩
  cases mode with
  | code braces =>
    simp only [lexStep, LexStep.string] at h ⊢
    split_ifs at h ⊢ <;> first | exact hhere (by simp_all) | simp_all
  | tag closing =>
    simp only [lexStep, LexStep.string] at h ⊢
    split_ifs at h ⊢ with hquote hbrace hclose hend hclosing
    · simp at h
    · simp at h
    · obtain ⟨r, rfl⟩ : ∃ r, rest = '>' :: r := by cases rest <;> simp_all
      exact ⟨'>', c :: before, rfl, rfl, by simp⟩
    · exact hhere (by simp_all)
    · exact hhere (by simp_all)
    · simp at h
  | children =>
    simp only [lexStep] at h ⊢
    split_ifs at h ⊢ <;> simp_all

/-- Where a run of markup text begins, and one that is to come. -/
structure Sits (s : List Char) (l : Stand) : Prop where
  run : ∀ r, l.run = some r → Edged s r.start
  markup : l.modes.head? = some .children → l.run = none →
    ∃ x b, l.before = x :: b ∧ Text.isWord x = false ∧ l.pos = l.before.length

namespace Sits
variable {l m : Stand} {out : List Span}

theorem start (s : List Char) : Sits s (Stand.start s) where
  run _ h := by cases h
  markup h _ := by cases h

theorem turn (h : Sits s l) (hl : Lexes s l) (hturn : Turn l out m) : Sits s m := by
  cases hturn with
  | @text below before pos run c r hbrace htag =>
    refine ⟨fun q hq => ?_, fun _ hnone => by cases hnone⟩
    cases hq
    cases run with
    | some q => exact h.run q rfl
    | none =>
      obtain ⟨x, b, hbefore, hx, hpos⟩ := h.markup rfl rfl
      obtain rfl : before = x :: b := hbefore
      refine ⟨b.reverse, x, c :: r, by rw [← hl.text]; simp, ?_, hx⟩
      show pos = _
      simpa using hpos
  | @step mode below before pos run c r t hmode ht =>
    refine ⟨fun _ hq => (by cases hq), fun hchildren _ => ?_⟩
    subst ht
    obtain ⟨x, b, hbefore, hx, hwidth⟩ := lexStep_children hmode hchildren
    refine ⟨x, b, hbefore, hx, ?_⟩
    have hpos : pos = before.length := hl.place.resolve_right fun hend => List.cons_ne_nil c r hend.1
    have hone : 1 ≤ (lexStep mode below before c r).width := lexStep_width_pos
    simp only [List.length_append, List.length_reverse, List.length_take, List.length_cons]
    omega

end Sits

/-- No placeholder stands directly behind a word. -/
def Walled (prev : Option Char) : List Char → Prop
  | [] => True
  | c :: t => (c = hideOpen → prev.any Text.isWord = false) ∧ Walled (some c) t

theorem walled_append {a b : List Char} : Walled prev (a ++ b) ↔ Walled prev a ∧ Walled (lastOf prev a) b := by
  induction a generalizing prev with
  | nil => exact (iff_of_eq (true_and _)).symm
  | cons c a ih => rw [List.cons_append, Walled, Walled, ih, and_assoc]; rfl

theorem Walled.of_plain (h : ∀ c ∈ s, c ≠ hideOpen) : Walled prev s := by
  induction s generalizing prev with
  | nil => exact True.intro
  | cons c s ih =>
    exact ⟨fun hc => absurd hc (h c List.mem_cons_self), ih fun d hd => h d (List.mem_cons_of_mem c hd)⟩

/-- The text begins with no word, and neither does what it stands for. -/
def Quiet (hidden : Array (List Char)) (t : List Char) : Prop :=
  ∀ c ∈ t.head?, Text.isWord c = false ∧ (hidden = #[] ∨ c ≠ hideOpen)

theorem Quiet.restore (h : Quiet hidden t) : ∀ c ∈ (restore hidden t).head?, Text.isWord c = false := by
  cases t with
  | nil =>
    rw [Source.restore]
    exact fun c hc => by cases hc
  | cons c t =>
    obtain ⟨hword, rfl | hopen⟩ := h c rfl
    · rw [restore_empty]
      exact fun d hd => by cases hd; exact hword
    · rw [restore_cons hopen]
      exact fun d hd => by cases hd; exact hword

/-- The two words of an assertion, with white space before each. -/
def IsConst (gap : List Char) : Prop :=
  ∃ w v, gap = w ++ ("as".toList ++ (v ++ "const".toList)) ∧ (Blank w ∧ w ≠ []) ∧ (Blank v ∧ v ≠ [])

theorem IsConst.restore {gap : List Char} (h : IsConst gap) : restore hidden gap = gap := by
  obtain ⟨w, v, rfl, hw, hv⟩ := h
  rw [restore_blank_append hw.1]
  refine congrArg (w ++ ·) (restore_of_veils (.self fun x hx => ?_))
  rintro rfl
  rcases List.mem_append.1 hx with hx | hx
  · revert hx
    decide
  rcases List.mem_append.1 hx with hx | hx
  · cases hv.1 hideOpen hx
  · revert hx
    decide

/-- No word goes on behind an assertion. -/
theorem constAssertion_reads {c d : Cursor} (hreads : constAssertion.Reads c d)
    (hwall : hidden = #[] ∨ Walled c.prev c.rest) :
    (∃ gap, c.rest = gap ++ d.rest ∧ IsConst gap) ∧ Quiet hidden d.rest ∧ (hidden = #[] ∨ Walled d.prev d.rest) := by
  have hwall' : hidden = #[] ∨ Walled d.prev d.rest := hwall.imp_right fun hwall => by
    obtain ⟨l, hl, hprev⟩ := hreads.lastOf
    rw [hl, walled_append, ← hprev] at hwall
    exact hwall.2
  cases hreads with
  | seq hreads hedge =>
    cases hreads with
    | seq hreads hconst =>
      cases hreads with
      | seq hreads hgap' =>
        cases hreads with
        | seq hgap has =>
          obtain ⟨w, hw, hblank⟩ := every_gap _ _ hgap
          obtain ⟨_, has, rfl⟩ := Every.lit "as" _ _ has
          obtain ⟨v, hv, hblank'⟩ := every_gap _ _ hgap'
          obtain ⟨_, hlast, hprev⟩ := hconst.lastOf
          obtain rfl := lit_reads hconst hlast
          cases hedge with
          | «at» hedge =>
            refine ⟨⟨_, ?_, w, v, rfl, hblank, hblank'⟩, fun x hx => ?_, hwall'⟩
            · rw [hw, has, hv, hlast]
              simp only [List.append_assoc]
            · have hbehind : d.prev.any Text.isWord = true := by rw [hprev]; rfl
              have hhead : Text.isWord x = false := by
                rw [Edge.holds, hbehind, hx] at hedge
                simpa using hedge
              refine ⟨hhead, hwall'.imp_right fun hwall' => ?_⟩
              rintro rfl
              obtain ⟨r, hr⟩ := List.head?_eq_some_iff.1 hx
              rw [hr] at hwall'
              rw [hwall'.1 rfl] at hbehind
              cases hbehind

end LivePreview.Source
