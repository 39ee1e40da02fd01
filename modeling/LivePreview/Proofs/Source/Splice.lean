import LivePreview.Proofs.Source.Mass

/-! Rewrites as cuts.

A rewrite is a list of cuts: places in a text and what is put between them. What a rule does to a text is one such
list, and a text with cuts is lighter when each cut puts in less than it takes out. -/
namespace LivePreview.Source
open Pattern

/-! ### Parts of a text -/

/-- The text between two places. -/
def slice (t : List Char) (i j : Nat) : List Char := (t.take j).drop i

theorem slice_append_drop (t : List Char) {i j : Nat} (h : i ≤ j) : slice t i j ++ t.drop j = t.drop i := by
  obtain ⟨n, rfl⟩ := Nat.exists_eq_add_of_le h
  rw [slice, List.drop_take, Nat.add_sub_cancel_left, ← List.drop_drop, List.take_append_drop]

theorem slice_append_slice (t : List Char) {i j k : Nat} (hij : i ≤ j) (hjk : j ≤ k) :
    slice t i j ++ slice t j k = slice t i k := by
  have h := slice_append_drop (t.take k) hij
  rwa [slice, List.take_take, Nat.min_eq_left hjk] at h

theorem slice_of_drop {t a r : List Char} {i : Nat} (h : t.drop i = a ++ r) : slice t i (i + a.length) = a := by
  rw [slice, List.drop_take, h, Nat.add_sub_cancel_left, List.take_left]

theorem drop_of_drop {t a r : List Char} {i : Nat} (h : t.drop i = a ++ r) : t.drop (i + a.length) = r := by
  rw [← List.drop_drop, h, List.drop_left]

/-! ### Cuts -/

/-- New text for what stands between two places. -/
structure Cut where
  start : Nat
  stop : Nat
  text : List Char
deriving DecidableEq, Repr

/-- The text from `pos` on with all cuts made, which are in order. -/
def splice (t : List Char) (pos : Nat) : List Cut → List Char
  | [] => t.drop pos
  | c :: cuts => slice t pos c.start ++ c.text ++ splice t c.stop cuts

/-- The cuts are in order from `pos` on. -/
def Ordered (pos : Nat) : List Cut → Prop
  | [] => True
  | c :: cuts => (pos ≤ c.start ∧ c.start ≤ c.stop) ∧ Ordered c.stop cuts

theorem Ordered.le {c : Cut} {cuts : List Cut} {pos : Nat} (h : Ordered pos cuts) (hc : c ∈ cuts) :
    c.start ≤ c.stop := by
  induction cuts generalizing pos with
  | nil => exact nomatch hc
  | cons d cuts ih =>
    rcases List.mem_cons.1 hc with rfl | hc
    · exact h.1.2
    · exact ih h.2 hc

theorem mass_splice {t : List Char} {cuts : List Cut} {pos : Nat} (h : Ordered pos cuts)
    (hlight : ∀ c ∈ cuts, mass c.text < mass (slice t c.start c.stop)) :
    mass (splice t pos cuts) ≤ mass (t.drop pos) ∧ (cuts ≠ [] → mass (splice t pos cuts) < mass (t.drop pos)) := by
  induction cuts generalizing pos with
  | nil => exact ⟨Nat.le_refl _, fun hne => absurd rfl hne⟩
  | cons c cuts ih =>
    obtain ⟨⟨hstart, hstop⟩, hrest⟩ := h
    have hle := (ih hrest fun d hd => hlight d (List.mem_cons_of_mem c hd)).1
    have hlt := hlight c List.mem_cons_self
    rw [← slice_append_drop t hstart, ← slice_append_drop t hstop, splice]
    simp only [mass_append]
    exact ⟨by omega, fun _ => by omega⟩

/-! ### The cuts of a rule -/

/-- The cut that a rule makes in a match. -/
def cutOf (r : Rule) (m : Match) : Cut := ⟨m.start + (r.before m).length, m.stop - (r.behind m).length, r.glue⟩

/-- The cuts that a rule makes in a text. -/
def cutsOf (r : Rule) (t : List Char) : List Cut := (r.pattern.findAll t).map (cutOf r)

variable {r : Rule} {Gap : List Char → List Char → Prop} {pos : Nat}

/-- Where a rule cuts a match: it keeps `a`, cuts out `gap` and keeps `b`. -/
structure CutsAt (r : Rule) (t : List Char) (pos : Nat) (rest : List Char) (c : Cursor)
    (a gap b : List Char) : Prop where
  replacement : ∀ k, r.replacement ⟨k, rest, c⟩ = a ++ r.glue ++ b
  cut : cutOf r ⟨pos, rest, c⟩ = ⟨pos + a.length, pos + a.length + gap.length, r.glue⟩
  next : pos + (rest.length - c.rest.length) = pos + a.length + gap.length + b.length
  start : t.drop pos = a ++ (gap ++ (b ++ c.rest))

namespace CutsAt
variable {t rest a gap b : List Char} {c : Cursor}

theorem dropStart (h : CutsAt r t pos rest c a gap b) : t.drop (pos + a.length) = gap ++ (b ++ c.rest) :=
  drop_of_drop h.start

theorem dropStop (h : CutsAt r t pos rest c a gap b) : t.drop (pos + a.length + gap.length) = b ++ c.rest :=
  drop_of_drop h.dropStart

theorem dropNext (h : CutsAt r t pos rest c a gap b) : t.drop (pos + a.length + gap.length + b.length) = c.rest :=
  drop_of_drop h.dropStop

end CutsAt

theorem exists_cutsAt (hcuts : r.Cuts Gap) {t rest : List Char} {prev : Option Char} {c : Cursor}
    (hrest : t.drop pos = rest) (hc : r.pattern.Hits prev rest c) :
    ∃ a gap b, Gap gap b ∧ CutsAt r t pos rest c a gap b := by
  obtain ⟨a, gap, b, htext, hgap, hparts⟩ := hcuts ⟨prev, rest, []⟩ c rfl (endFrom_reads hc.1)
  have htext : rest = a ++ gap ++ b ++ c.rest := htext
  have hlength : rest.length - c.rest.length = a.length + gap.length + b.length := by
    rw [htext]
    simp only [List.length_append]
    omega
  refine ⟨a, gap, b, hgap, ?_, ?_, by omega, by rw [hrest, htext]; simp only [List.append_assoc]⟩
  · intro k
    rw [Rule.replacement, (hparts k).1, (hparts k).2]
  · rw [cutOf, (hparts pos).1, (hparts pos).2]
    show (⟨pos + a.length, pos + (rest.length - c.rest.length) - b.length, r.glue⟩ : Cut) = _
    rw [hlength, ← Nat.add_assoc, ← Nat.add_assoc, Nat.add_sub_cancel]

/-- Every cut of a rule is a gap. -/
theorem mem_cutsOf (hcuts : r.Cuts Gap) {t : List Char} {c : Cut} (h : c ∈ cutsOf r t) :
    ∃ b, Gap (slice t c.start c.stop) b ∧ c.text = r.glue := by
  obtain ⟨⟨pos, rest, d⟩, hm, rfl⟩ := List.mem_map.1 h
  obtain ⟨hsource, prev, hhits⟩ := hits_of_mem_findAll hm
  obtain ⟨a, gap, b, hgap, hat⟩ := exists_cutsAt hcuts hsource.symm hhits
  refine ⟨b, ?_, by rw [hat.cut]⟩
  rw [hat.cut, slice_of_drop hat.dropStart]
  exact hgap

/-- Rewriting is making the cuts. -/
theorem splice_cutsFrom (hcuts : r.Cuts Gap) {t rest : List Char} {lo : Nat} {prev : Option Char} (hlo : lo ≤ pos)
    (hrest : t.drop pos = rest) :
    splice t lo ((r.pattern.findAllFrom pos prev rest).map (cutOf r)) =
      slice t lo pos ++ r.pattern.replaceFrom r.replacement prev rest := by
  induction prev, rest using search_induction (p := r.pattern) generalizing lo pos with
  | nil prev hno =>
    rw [findAllFrom_nil hno, replaceFrom_nil hno, ← hrest, slice_append_drop t hlo]
    rfl
  | cons prev x rest hno ih =>
    have hx : slice t pos (pos + 1) = [x] := slice_of_drop (a := [x]) hrest
    rw [findAllFrom_cons hno, replaceFrom_cons hno, ih (Nat.le_succ_of_le hlo) (drop_of_drop (a := [x]) hrest),
      ← slice_append_slice t hlo (Nat.le_succ pos), hx]
    simp only [List.append_assoc, List.singleton_append]
  | hit prev rest c hc ih =>
    obtain ⟨a, gap, b, -, hat⟩ := exists_cutsAt hcuts hrest hc
    rw [findAllFrom_of_hits hc, List.map_cons, hat.cut, hat.next, replaceFrom_of_hits hc, hat.replacement, splice,
      ih (Nat.le_add_right _ _) hat.dropNext, slice_of_drop hat.dropStop,
      ← slice_append_slice t hlo (Nat.le_add_right pos a.length), slice_of_drop hat.start]
    simp only [List.append_assoc]

theorem splice_cutsOf (hcuts : r.Cuts Gap) (t : List Char) : splice t 0 (cutsOf r t) = r.rewrite t :=
  splice_cutsFrom hcuts (Nat.le_refl 0) rfl

end LivePreview.Source
