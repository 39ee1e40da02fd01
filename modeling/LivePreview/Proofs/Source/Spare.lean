import LivePreview.Proofs.Source.Alongside
import LivePreview.Proofs.Source.Cut
import LivePreview.Proofs.Source.Splice

/-! Cuts that spare the markup.

Where each cut takes code out of a text, or out of what a text with placeholders stands for, and puts code in its
place, the source keeps its markup, ends as it did, and holds outside of code only what it held before. -/
namespace LivePreview.Source
open Pattern

/-! ### Cuts in a text with placeholders -/

namespace Masked

/-- What a text stands for. -/
def source (m : Masked) : List Char := restore m.hidden m.text

/-- What the text between two places stands for. -/
def part (m : Masked) (i j : Nat) : List Char := restore m.hidden (slice m.text i j)

/-- What the text from a place on stands for. -/
def rest (m : Masked) (i : Nat) : List Char := restore m.hidden (m.text.drop i)

/-- Each cut takes code out of the source and puts code in its place, when the source is read as `σ` goes on, and the
source with the cuts made as `τ` does. -/
def Spares (m : Masked) (σ τ : Reading) (pos : Nat) : List Cut → Prop
  | [] => True
  | c :: cuts =>
    Reading.CodeForCode (σ.read (m.part pos c.start)) (τ.read (m.part pos c.start)) (m.part c.start c.stop) c.text
        (m.rest c.stop) ∧
      m.Spares ((σ.read (m.part pos c.start)).read (m.part c.start c.stop)) ((τ.read (m.part pos c.start)).read c.text)
        c.stop cuts

def decideSpares (m : Masked) (σ τ : Reading) (pos : Nat) : (cuts : List Cut) → Decidable (m.Spares σ τ pos cuts)
  | [] => .isTrue True.intro
  | c :: cuts =>
    have := decideSpares m ((σ.read (m.part pos c.start)).read (m.part c.start c.stop))
      ((τ.read (m.part pos c.start)).read c.text) c.stop cuts
    inferInstanceAs (Decidable (_ ∧ _))

instance (m : Masked) (σ τ : Reading) (pos : Nat) (cuts : List Cut) : Decidable (m.Spares σ τ pos cuts) :=
  m.decideSpares σ τ pos cuts

end Masked

/-- No placeholder begins in the text and ends behind it. -/
def Whole (hidden : Array (List Char)) (a : List Char) : Prop :=
  ∀ b, restore hidden (a ++ b) = restore hidden a ++ restore hidden b

/-- The cuts are in order, and none goes through a placeholder. -/
def Fits (m : Masked) (pos : Nat) : List Cut → Prop
  | [] => True
  | c :: cuts =>
    (pos ≤ c.start ∧ c.start ≤ c.stop) ∧ (Whole m.hidden (slice m.text pos c.start) ∧
      Whole m.hidden (slice m.text c.start c.stop)) ∧
      (Whole m.hidden c.text ∧ restore m.hidden c.text = c.text) ∧ Fits m c.stop cuts

/-! ### What cuts keep -/

open Reading

/-- `y` stands in the text that `σ` reads, outside of code. -/
def Outside (σ : Reading) (s y : List Char) : Prop :=
  ∃ a b, s = a ++ y ++ b ∧ (σ.read a).StaysOutside y

variable {m : Masked} {σ τ : Reading} {pos : Nat} {cuts : List Cut}

theorem Fits.rest {c : Cut} (h : Fits m pos (c :: cuts)) :
    m.rest pos = m.part pos c.start ++ (m.part c.start c.stop ++ m.rest c.stop) := by
  obtain ⟨⟨hstart, hstop⟩, ⟨hkept, hold⟩, -⟩ := h
  rw [Masked.rest, ← slice_append_drop m.text hstart, ← slice_append_drop m.text hstop, hkept, hold]
  rfl

theorem Fits.splice {c : Cut} (h : Fits m pos (c :: cuts)) :
    restore m.hidden (splice m.text pos (c :: cuts)) =
      m.part pos c.start ++ (c.text ++ restore m.hidden (Source.splice m.text c.stop cuts)) := by
  obtain ⟨-, ⟨hkept, -⟩, ⟨hnew, hsame⟩, -⟩ := h
  rw [Source.splice, List.append_assoc, hkept, hnew, hsame]
  rfl

theorem Fits.ordered (h : Fits m pos cuts) : Ordered pos cuts := by
  induction cuts generalizing pos with
  | nil => exact True.intro
  | cons c cuts ih => exact ⟨h.1, ih h.2.2.2⟩

/-- **Cuts that take code for code keep the readings in agreement.** -/
theorem agrees_splice (hfits : Fits m pos cuts) (hspares : m.Spares σ τ pos cuts) (h : Agrees σ τ (m.rest pos)) :
    Agrees (σ.read (m.rest pos)) (τ.read (restore m.hidden (splice m.text pos cuts))) [] := by
  induction cuts generalizing σ τ pos with
  | nil => exact Agrees.read (by rwa [List.append_nil])
  | cons c cuts ih =>
    rw [hfits.rest] at h
    rw [hfits.rest, hfits.splice, read_append, read_append, read_append, read_append]
    exact ih hfits.2.2.2 hspares.2 (h.read.replace hspares.1)

/-- What stands outside of code behind the cuts stood there before. -/
theorem outside_splice (hfits : Fits m pos cuts) (hspares : m.Spares σ τ pos cuts) (h : Agrees σ τ (m.rest pos))
    {y : List Char} (hy : Outside τ (restore m.hidden (splice m.text pos cuts)) y) : Outside σ (m.rest pos) y := by
  induction cuts generalizing σ τ pos with
  | nil =>
    obtain ⟨a, b, hab, hout⟩ := hy
    have hab : m.rest pos = a ++ y ++ b := hab
    rw [hab, List.append_assoc] at h
    exact ⟨a, b, hab, h.read.staysOutside hout⟩
  | cons c cuts ih =>
    obtain ⟨a, b, hab, hout⟩ := hy
    rw [hfits.rest] at h ⊢
    rw [hfits.splice] at hab
    obtain ⟨hcode, hlater⟩ := hspares
    obtain ⟨x, hx, hb⟩ | ⟨x, hx, rfl⟩ := List.append_eq_append_iff.1 hab
    · obtain ⟨z, hz, rfl⟩ | ⟨z, rfl, rfl⟩ := List.append_eq_append_iff.1 hx
      · -- The new text would begin within `y`.
        have hin := hcode.2.1.inCode
        rw [hz, read_append] at hin
        exact absurd hin hout.of_append
      · rw [read_append] at hout
        rw [List.append_assoc] at hb
        obtain ⟨w, rfl, hw⟩ | ⟨w, hw, -⟩ := List.append_eq_append_iff.1 hb
        · rw [read_append] at hout
          obtain ⟨a', b', hab', hout'⟩ := ih hfits.2.2.2 hlater (h.read.replace hcode)
            ⟨w, b, by rw [hw, List.append_assoc], hout⟩
          refine ⟨m.part pos c.start ++ (m.part c.start c.stop ++ a'), b', ?_, ?_⟩
          · rw [hab']
            simp only [List.append_assoc]
          · rwa [read_append, read_append]
        · -- `y` would begin within the new text.
          have hin := hcode.2.1
          rw [hw] at hin
          exact absurd hin.of_append hout.not_inCode
    · rw [hx, List.append_assoc, List.append_assoc] at h
      exact ⟨a, x ++ (m.part c.start c.stop ++ m.rest c.stop), by rw [hx]; simp only [List.append_assoc],
        h.read.staysOutside hout⟩

/-- One source has the markup of the other, ends in code when it does, and holds outside of code only what that does. -/
structure SameMarkup (s t : List Char) : Prop where
  markup : markup t = markup s
  inCode : (read {} t).InCode ↔ (read {} s).InCode
  outside : ∀ y, Outside {} t y → Outside {} s y

theorem SameMarkup.refl (s : List Char) : SameMarkup s s := ⟨rfl, .rfl, fun _ => id⟩

theorem SameMarkup.trans {s t u : List Char} (h : SameMarkup s t) (h' : SameMarkup t u) : SameMarkup s u :=
  ⟨h'.markup.trans h.markup, h'.inCode.trans h.inCode, fun y hy => h.outside y (h'.outside y hy)⟩

/-- **Cuts that take code for code keep the markup.** -/
theorem sameMarkup_splice (hfits : Fits m 0 cuts) (hspares : m.Spares {} {} 0 cuts) :
    SameMarkup m.source (restore m.hidden (splice m.text 0 cuts)) := by
  have hagrees : Agrees {} {} (m.rest 0) := .refl {} _
  have h := agrees_splice hfits hspares hagrees
  exact ⟨by rw [markup_eq, markup_eq]; exact h.markup.symm, h.inCode.symm,
    fun y => outside_splice hfits hspares hagrees⟩

/-! ### Texts in which no cut goes through a placeholder -/

variable {hidden : Array (List Char)} {Gap : List Char → List Char → Prop} {Sep : List Char → Prop} {r : Rule}

/-- Gaps cut texts of this kind into parts that stand for themselves. -/
def Separates (hidden : Array (List Char)) (Gap : List Char → List Char → Prop) (Sep : List Char → Prop) : Prop :=
  ∀ x gap b r, Sep (x ++ gap ++ b ++ r) → Gap gap b → Whole hidden x ∧ Whole hidden gap ∧ Sep (b ++ r)

theorem restore_empty (s : List Char) : restore #[] s = s := by
  fun_induction restore #[] s with
  | case1 => rfl
  | case2 => rfl
  | case3 c r hc inner rest =>
    rename_i hclose ih
    have hnone : ((placeholderIndex? inner).bind fun i => (#[] : Array (List Char))[i]?) = none := by simp
    have hsplit : inner ++ rest = r := List.takeWhile_append_dropWhile
    obtain ⟨d, tail, hrest⟩ := List.exists_cons_of_ne_nil (mt List.isEmpty_iff.2 hclose)
    have hrest' : r.dropWhile (· != hideClose) = d :: tail := hrest
    have hd : d = hideClose := by
      have hhead := List.head_dropWhile_not (· != hideClose) (l := r) (by simp [hrest'])
      simpa [hrest'] using hhead
    rw [ih, hnone, Option.getD_none, ← hsplit, hrest, hd]
    simp
  | case4 c r hc ih => rw [ih]

theorem separates_plain : Separates #[] Gap fun _ => True := fun _ _ _ _ _ _ =>
  ⟨fun b => by simp only [restore_empty], fun b => by simp only [restore_empty], True.intro⟩

theorem whole_of_veils {a s : List Char} (h : Veils hidden a s) : Whole hidden a := fun b => by
  rw [restore_append h, restore_of_veils h]

theorem cut_behind {a b s : List Char} (h : Veils hidden (a ++ b) s) (ha : Shuts a) :
    ∃ s₁ s₂, s = s₁ ++ s₂ ∧ Veils hidden a s₁ ∧ Veils hidden b s₂ := by
  obtain ⟨x, c, rfl, hc⟩ := ha
  have hopen : c ≠ hideOpen := by
    rintro rfl
    exact absurd hc (by decide)
  rw [List.append_assoc] at h
  obtain ⟨s₁, s₂, rfl, h₁, h₂⟩ := h.cut ⟨[], c, b, rfl, .nil, hc⟩
  obtain ⟨s₃, rfl, h₃⟩ := h₂.of_cons hopen
  exact ⟨s₁ ++ [c], s₃, by simp, h₁.append (.char hopen .nil), h₃⟩

theorem separates_veils (hidden : Array (List Char)) : Separates hidden Parted fun t => ∃ s, Veils hidden t s := by
  rintro x gap b r ⟨s, h⟩ ⟨hgap, hbehind⟩
  simp only [List.append_assoc] at h
  obtain ⟨s₁, s₂, rfl, h₁, h₂⟩ := h.cut (hgap.append (b ++ r))
  obtain ⟨s₃, s₄, rfl, h₃, h₄⟩ : ∃ s₃ s₄, s₂ = s₃ ++ s₄ ∧ Veils hidden gap s₃ ∧ Veils hidden (b ++ r) s₄ := by
    rcases hbehind with hb | hshuts
    · exact h₂.cut (hb.append r)
    · exact cut_behind h₂ hshuts
  exact ⟨whole_of_veils h₁, whole_of_veils h₃, s₄, h₄⟩


theorem fits_cutsFrom (hcuts : r.Cuts Gap) (hsep : Separates m.hidden Gap Sep)
    (hglue : Whole m.hidden r.glue ∧ restore m.hidden r.glue = r.glue) {lo : Nat} {prev : Option Char}
    {rest : List Char} (hlo : lo ≤ pos) (hrest : m.text.drop pos = rest) (h : Sep (m.text.drop lo)) :
    Fits m lo ((r.pattern.findAllFrom pos prev rest).map (cutOf r)) := by
  induction prev, rest using search_induction (p := r.pattern) generalizing lo pos with
  | nil prev hno =>
    rw [findAllFrom_nil hno]
    exact True.intro
  | cons prev x rest hno ih =>
    rw [findAllFrom_cons hno]
    exact ih (Nat.le_succ_of_le hlo) (drop_of_drop (a := [x]) hrest) h
  | hit prev rest c hc ih =>
    obtain ⟨a, gap, b, hgap, hat⟩ := exists_cutsAt hcuts hrest hc
    rw [findAllFrom_of_hits hc, List.map_cons, hat.cut, hat.next]
    have hstart : lo ≤ pos + a.length := Nat.le_add_right_of_le hlo
    have hsplit : m.text.drop lo = slice m.text lo (pos + a.length) ++ gap ++ b ++ c.rest := by
      rw [← slice_append_drop m.text hstart, hat.dropStart]
      simp only [List.append_assoc]
    rw [hsplit] at h
    obtain ⟨hkept, hold, hbehind⟩ := hsep _ _ _ _ h hgap
    rw [← hat.dropStop] at hbehind
    refine ⟨⟨hstart, Nat.le_add_right _ _⟩, ⟨hkept, ?_⟩, hglue, ih (Nat.le_add_right _ _) hat.dropNext hbehind⟩
    rwa [slice_of_drop hat.dropStart]

theorem fits_cutsOf (hcuts : Carves r Gap) (hsep : Separates m.hidden Gap Sep) (h : Sep m.text) :
    Fits m 0 (cutsOf r m.text) := by
  have hglue : Veils m.hidden r.glue r.glue := by
    rcases hcuts.glue with hglue | hglue <;> rw [hglue]
    · exact .nil
    · exact .char (by decide) .nil
  exact fits_cutsFrom hcuts.cuts hsep ⟨whole_of_veils hglue, restore_of_veils hglue⟩ (Nat.le_refl 0) rfl h

end LivePreview.Source
