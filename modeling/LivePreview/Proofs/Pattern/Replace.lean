import LivePreview.Proofs.Pattern.Reads

/-! What replacing matches does to a text.

Where a pattern finds nothing the text stays as it is. A replacement that cuts a gap out of each match loses what the
gap holds; how that is counted is a parameter (`Measure`), so that texts which stand for longer ones are counted by
what they stand for. -/
namespace LivePreview.Pattern

variable {p : Pattern} {f : Match → List Char} {pos : Nat} {prev : Option Char} {rest : List Char}

/-- The first match from here reads something. -/
def Hits (p : Pattern) (prev : Option Char) (rest : List Char) (c : Cursor) : Prop :=
  p.endFrom prev rest = some c ∧ c.rest.length < rest.length

theorem findAllFrom_of_hits {c : Cursor} (h : p.Hits prev rest c) :
    p.findAllFrom pos prev rest =
      ⟨pos, rest, c⟩ :: p.findAllFrom (pos + (rest.length - c.rest.length)) c.prev c.rest := by
  rw [findAllFrom.eq_def, h.1]
  exact dif_pos h.2

theorem replaceFrom_of_hits {c : Cursor} (h : p.Hits prev rest c) :
    p.replaceFrom f prev rest = f ⟨0, rest, c⟩ ++ p.replaceFrom f c.prev c.rest := by
  rw [replaceFrom.eq_def, h.1]
  exact dif_pos h.2

theorem findAllFrom_nil (h : ¬ ∃ c, p.Hits prev [] c) : p.findAllFrom pos prev [] = [] := by
  rw [findAllFrom]
  split
  case h_1 c hc => exact dif_neg fun hlt => h ⟨c, hc, hlt⟩
  case h_2 => rfl

theorem replaceFrom_nil (h : ¬ ∃ c, p.Hits prev [] c) : p.replaceFrom f prev [] = [] := by
  rw [replaceFrom]
  split
  case h_1 c hc => exact dif_neg fun hlt => h ⟨c, hc, hlt⟩
  case h_2 => rfl

theorem findAllFrom_cons {x : Char} (h : ¬ ∃ c, p.Hits prev (x :: rest) c) :
    p.findAllFrom pos prev (x :: rest) = p.findAllFrom (pos + 1) (some x) rest := by
  rw [findAllFrom]
  split
  case h_1 c hc => exact dif_neg fun hlt => h ⟨c, hc, hlt⟩
  case h_2 => rfl

theorem replaceFrom_cons {x : Char} (h : ¬ ∃ c, p.Hits prev (x :: rest) c) :
    p.replaceFrom f prev (x :: rest) = x :: p.replaceFrom f (some x) rest := by
  rw [replaceFrom]
  split
  case h_1 c hc => exact dif_neg fun hlt => h ⟨c, hc, hlt⟩
  case h_2 => rfl

/-- Places at which a search looks, from the last to the first: no match begins at the end of the text, none begins
here, or one does and the search goes on behind it. -/
theorem search_induction {motive : Option Char → List Char → Prop}
    (nil : ∀ prev, (¬ ∃ c, p.Hits prev [] c) → motive prev [])
    (cons : ∀ prev x rest, (¬ ∃ c, p.Hits prev (x :: rest) c) → motive (some x) rest → motive prev (x :: rest))
    (hit : ∀ prev rest c, p.Hits prev rest c → motive c.prev c.rest → motive prev rest)
    (prev : Option Char) (rest : List Char) : motive prev rest := by
  induction hn : rest.length using Nat.strongRecOn generalizing prev rest with
  | _ n ih =>
    by_cases h : ∃ c, p.Hits prev rest c
    · obtain ⟨c, hc⟩ := h
      have hlt := hc.2
      exact hit prev rest c hc (ih c.rest.length (by omega) c.prev c.rest rfl)
    · cases rest with
      | nil => exact nil prev h
      | cons x rest => exact cons prev x rest h (ih rest.length (by simp [← hn]) (some x) rest rfl)

theorem replaceFrom_eq_self (h : p.findAllFrom pos prev rest = []) : p.replaceFrom f prev rest = rest := by
  induction prev, rest using search_induction (p := p) generalizing pos with
  | nil prev hno => exact replaceFrom_nil hno
  | cons prev x rest hno ih =>
    rw [findAllFrom_cons hno] at h
    rw [replaceFrom_cons hno, ih h]
  | hit prev rest c hc ih =>
    rw [findAllFrom_of_hits hc] at h
    exact nomatch h

/-- A text in which nothing is found stays as it is. -/
theorem replaceAll_eq_self {s : List Char} (h : p.findAll s = []) : p.replaceAll f s = s := replaceFrom_eq_self h

/-- A match that is found begins at its place and is the first one there. -/
theorem hits_of_mem_findAllFrom {t : List Char} {m : Match} (h : m ∈ p.findAllFrom pos prev rest)
    (hrest : t.drop pos = rest) : m.source = t.drop m.start ∧ ∃ prev, p.Hits prev m.source m.last := by
  induction prev, rest using search_induction (p := p) generalizing pos with
  | nil prev hno =>
    rw [findAllFrom_nil hno] at h
    exact nomatch h
  | cons prev x rest hno ih =>
    rw [findAllFrom_cons hno] at h
    exact ih h (by rw [← List.drop_drop, hrest, List.drop_one, List.tail_cons])
  | hit prev rest c hc ih =>
    rw [findAllFrom_of_hits hc] at h
    rcases List.mem_cons.1 h with rfl | h
    · exact ⟨hrest.symm, prev, hc⟩
    · obtain ⟨l, hl⟩ := (endFrom_reads hc.1).text
      have hl : rest = l ++ c.rest := hl
      refine ih h ?_
      rw [← List.drop_drop, hrest, hl, List.length_append, Nat.add_sub_cancel, List.drop_left]

theorem hits_of_mem_findAll {s : List Char} {m : Match} (h : m ∈ p.findAll s) :
    m.source = s.drop m.start ∧ ∃ prev, p.Hits prev m.source m.last := hits_of_mem_findAllFrom h rfl

/-- A match that is found reads something. -/
theorem length_pos_of_mem_findAll {s : List Char} {m : Match} (h : m ∈ p.findAll s) : 0 < m.length := by
  obtain ⟨-, _, hc⟩ := hits_of_mem_findAll h
  exact Nat.sub_pos_of_lt hc.2

/-! ### Rules -/

/-- A rule puts `glue` in the place of what stands between two parts of a match, and keeps the two parts. -/
structure Rule where
  pattern : Pattern
  before : Match → List Char := fun _ => []
  glue : List Char := []
  behind : Match → List Char := fun _ => []

namespace Rule

/-- The rule that removes the matches of a pattern. -/
def removal (p : Pattern) : Rule := { pattern := p }

def replacement (r : Rule) (m : Match) : List Char := r.before m ++ r.glue ++ r.behind m

def rewrite (r : Rule) (s : List Char) : List Char := r.pattern.replaceAll r.replacement s

/-- In each match there is a gap between the two parts that the rule keeps. `Gap` is a property of the gap and the
part behind it. -/
def Cuts (r : Rule) (Gap : List Char → List Char → Prop) : Prop :=
  ∀ c d, c.groups = [] → r.pattern.Reads c d → ∃ a gap b, c.rest = a ++ gap ++ b ++ d.rest ∧ Gap gap b ∧
    ∀ pos, r.before ⟨pos, c.rest, d⟩ = a ∧ r.behind ⟨pos, c.rest, d⟩ = b

theorem Cuts.mono {r : Rule} {G H : List Char → List Char → Prop} (h : r.Cuts G) (hGH : ∀ gap b, G gap b → H gap b) :
    r.Cuts H := fun c d hc hr =>
  have ⟨a, gap, b, hrest, hgap, hparts⟩ := h c d hc hr
  ⟨a, gap, b, hrest, hGH gap b hgap, hparts⟩

theorem cuts_every {p : Pattern} {glue : List Char} {G : List Char → Prop} (h : p.Every G) :
    Cuts { pattern := p, glue := glue } fun gap _ => G gap :=
  fun c d _ hr =>
    have ⟨gap, hgap, hG⟩ := h c d hr
    ⟨[], gap, [], by simpa using hgap, hG, fun _ => ⟨rfl, rfl⟩⟩

end Rule

/-- A way to count what texts hold: a text holds what its parts hold, and one that loses a gap between two parts
holds less. -/
structure Measure (Gap : List Char → Prop) (M : List Char → Nat → Prop) : Prop where
  append : ∀ {a b m n}, M a m → M b n → M (a ++ b) (m + n)
  cut : ∀ {a gap b n}, M (a ++ gap ++ b) n → Gap gap → ∃ k l, M a k ∧ M b l ∧ k + l < n

variable {r : Rule} {Gap : List Char → Prop} {M : List Char → Nat → Prop} {n : Nat}

theorem replaceFrom_cuts (hM : Measure Gap M) (hglue : M r.glue 0) (hcuts : r.Cuts fun gap _ => Gap gap)
    {done : List Char} (h : M (done ++ rest) n) :
    ∃ m, M (done ++ r.pattern.replaceFrom r.replacement prev rest) m ∧ m ≤ n ∧
      (r.pattern.findAllFrom pos prev rest ≠ [] → m < n) := by
  induction prev, rest using search_induction (p := r.pattern) generalizing pos done n with
  | nil prev hno =>
    rw [replaceFrom_nil hno, findAllFrom_nil hno]
    exact ⟨n, h, Nat.le_refl n, fun hne => absurd rfl hne⟩
  | cons prev x rest hno ih =>
    rw [replaceFrom_cons hno, findAllFrom_cons hno, List.append_cons]
    exact ih (by rwa [← List.append_cons])
  | hit prev rest c hc ih =>
    obtain ⟨a, gap, b, hrest, hgap, hparts⟩ := hcuts ⟨prev, rest, []⟩ c rfl (endFrom_reads hc.1)
    have hwhole : M (done ++ a ++ gap ++ (b ++ c.rest)) n := by
      rw [show rest = a ++ gap ++ b ++ c.rest from hrest] at h
      simpa only [List.append_assoc] using h
    obtain ⟨k, l, hk, hl, hlt⟩ := hM.cut hwhole hgap
    have hcut : M (done ++ a ++ r.glue ++ b ++ c.rest) (k + 0 + l) := by
      rw [List.append_assoc (done ++ a ++ r.glue)]
      exact hM.append (hM.append hk hglue) hl
    obtain ⟨m, hm, hle, -⟩ := @ih 0 _ _ hcut
    refine ⟨m, ?_, by omega, fun _ => by omega⟩
    rw [replaceFrom_of_hits hc, Rule.replacement, (hparts 0).1, (hparts 0).2]
    simpa only [List.append_assoc] using hm

/-- **A rule takes nothing from a text in which it finds nothing, and otherwise something.** -/
theorem rewrite_cuts (hM : Measure Gap M) (hglue : M r.glue 0) (hcuts : r.Cuts fun gap _ => Gap gap) {s : List Char}
    (h : M s n) : ∃ m, M (r.rewrite s) m ∧ m ≤ n ∧ (r.pattern.findAll s ≠ [] → m < n) :=
  replaceFrom_cuts hM hglue hcuts (show M ([] ++ s) n from h)

end LivePreview.Pattern
