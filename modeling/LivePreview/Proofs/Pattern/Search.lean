import LivePreview.Proofs.Pattern.Finds

/-! Where a search finds its matches.

A search looks at one place after another and goes on behind each match. So it can be cut in two where no match
begins before the cut and ends behind it, and what it finds behind the cut is what it finds there alone. -/
namespace LivePreview

/-- The match when `n` more characters stand before the text. -/
def Match.shift (n : Nat) (m : Match) : Match := { m with start := n + m.start }

@[simp] theorem Match.start_shift (n : Nat) (m : Match) : (m.shift n).start = n + m.start := rfl

theorem Match.stop_shift (n : Nat) (m : Match) : (m.shift n).stop = n + m.stop := Nat.add_assoc ..

namespace Pattern

variable {p : Pattern} {pos : Nat} {prev : Option Char} {l r rest : List Char} {x : Char}

theorem findAllFrom_add (p : Pattern) (n pos : Nat) (prev : Option Char) (rest : List Char) :
    p.findAllFrom (n + pos) prev rest = (p.findAllFrom pos prev rest).map (Match.shift n) := by
  induction prev, rest using search_induction (p := p) generalizing pos with
  | nil prev hno =>
    rw [findAllFrom_nil hno, findAllFrom_nil hno]
    rfl
  | cons prev x rest hno ih => rw [findAllFrom_cons hno, findAllFrom_cons hno, Nat.add_assoc, ih]
  | hit prev rest c hc ih =>
    rw [findAllFrom_of_hits hc, findAllFrom_of_hits hc, List.map_cons, Nat.add_assoc, ih]
    rfl

/-- A match that is found begins behind the text before it and is the first one there. -/
theorem exists_of_mem_findAllFrom {m : Match} (h : m ∈ p.findAllFrom pos prev rest) :
    ∃ l, rest = l ++ m.source ∧ m.start = pos + l.length ∧ p.Hits (lastOf prev l) m.source m.last := by
  induction prev, rest using search_induction (p := p) generalizing pos with
  | nil prev hno =>
    rw [findAllFrom_nil hno] at h
    cases h
  | cons prev x rest hno ih =>
    rw [findAllFrom_cons hno] at h
    obtain ⟨l, hl, hstart, hhits⟩ := ih h
    exact ⟨x :: l, congrArg (x :: ·) hl, by rw [hstart, List.length_cons, Nat.add_assoc, Nat.add_comm 1], hhits⟩
  | hit prev rest c hc ih =>
    rw [findAllFrom_of_hits hc] at h
    rcases List.mem_cons.1 h with rfl | h
    · exact ⟨[], rfl, rfl, hc⟩
    · obtain ⟨a, ha, hlast⟩ := (endFrom_reads hc.1).lastOf
      have ha : rest = a ++ c.rest := ha
      have hlast : c.prev = lastOf prev a := hlast
      obtain ⟨l, hl, hstart, hhits⟩ := ih h
      refine ⟨a ++ l, by rw [List.append_assoc, ← hl, ha], ?_, by rwa [lastOf_append, ← hlast]⟩
      rw [hstart, ha, List.length_append, List.length_append]
      omega

/-- A lazy repetition of any characters stops at the first place from which what follows goes on. -/
theorem run_lazy {α : Type} {k : Cursor → Option α} {g : List (Nat × List Char × List Char)} :
    (Pattern.many (fun _ => true) false).run ⟨prev, rest, g⟩ k =
      seek (fun prev rest => k ⟨prev, rest, g⟩) prev rest := by
  show manyRun (fun _ => true) false g k prev rest = _
  induction rest generalizing prev with
  | nil => rfl
  | cons x r ih =>
    rw [manyRun, seek, ih]
    rfl

/-- The pattern matches at no place before a character of the text, where `r` follows. -/
def Misses (p : Pattern) (r : List Char) (prev : Option Char) : List Char → Prop
  | [] => True
  | x :: w => (¬ ∃ c, p.Hits prev (x :: w ++ r) c) ∧ Misses p r (some x) w

theorem Misses.append (hl : Misses p (r ++ rest) prev l) (hr : Misses p rest (lastOf prev l) r) :
    Misses p rest prev (l ++ r) := by
  induction l generalizing prev with
  | nil => exact hr
  | cons x l ih => exact ⟨by simpa using hl.1, ih hl.2 hr⟩

/-- Nothing matches where no way to match begins. -/
theorem misses_of_not_reads
    (h : ∀ a b e, l = a ++ b → b ≠ [] → ¬ p.Reads ⟨lastOf prev a, b ++ r, []⟩ e) : Misses p r prev l := by
  induction l generalizing prev with
  | nil => exact True.intro
  | cons x l ih =>
    refine ⟨fun ⟨e, he⟩ => h [] (x :: l) e rfl (List.cons_ne_nil x l) (endFrom_reads he.1), ?_⟩
    exact ih fun a b e hl => h (x :: a) b e (congrArg (x :: ·) hl)

/-- Nothing matches before characters with which no match begins. -/
theorem misses_of_first {ok : Char → Bool} (hp : p.Every (·.head?.any ok = true)) (hl : ∀ c ∈ l, ok c = false) :
    Misses p r prev l := by
  refine misses_of_not_reads fun a b e hsplit hb hread => ?_
  obtain ⟨y, b, rfl⟩ := List.exists_cons_of_ne_nil hb
  obtain ⟨k, hk, hfirst⟩ := hp _ _ hread
  cases k with
  | nil => cases hfirst
  | cons z k =>
    obtain rfl : y = z := (List.cons.inj hk).1
    have hy : ok y = true := hfirst
    rw [hl y (by rw [hsplit]; simp)] at hy
    cases hy

theorem Misses.replaceFrom {f : Match → List Char} (h : Misses p r prev l) :
    p.replaceFrom f prev (l ++ r) = l ++ p.replaceFrom f (lastOf prev l) r := by
  induction l generalizing prev with
  | nil => rfl
  | cons x l ih =>
    have hno : ¬ ∃ c, p.Hits prev (x :: (l ++ r)) c := h.1
    rw [List.cons_append, replaceFrom_cons hno, ih h.2]
    rfl

theorem Misses.findAllFrom (h : Misses p r prev l) (pos : Nat) :
    p.findAllFrom pos prev (l ++ r) = p.findAllFrom (pos + l.length) (lastOf prev l) r := by
  induction l generalizing prev pos with
  | nil => rfl
  | cons x l ih =>
    have hno : ¬ ∃ c, p.Hits prev (x :: (l ++ r)) c := h.1
    rw [List.cons_append, findAllFrom_cons hno, ih h.2, List.length_cons, Nat.add_assoc, Nat.add_comm 1]
    rfl

/-- No match goes on behind a character that the pattern does not read. -/
theorem findAllFrom_wall (hp : p.Every (x ∉ ·)) (pos : Nat) (prev : Option Char) (l r : List Char) :
    ∃ ms, p.findAllFrom pos prev (l ++ x :: r) = ms ++ p.findAllFrom (pos + l.length + 1) (some x) r ∧
      ∀ m ∈ ms, m.start < pos + l.length := by
  induction hn : l.length using Nat.strongRecOn generalizing l pos prev with
  | ind n ih =>
    subst hn
    by_cases hhere : ∃ c, p.Hits prev (l ++ x :: r) c
    · obtain ⟨c, hc⟩ := hhere
      obtain ⟨a, ha, hx⟩ := hp _ _ (endFrom_reads hc.1)
      have ha : l ++ x :: r = a ++ c.rest := ha
      -- The match ends before the character.
      obtain ⟨b, rfl, hb⟩ : ∃ b, l = a ++ b ∧ c.rest = b ++ x :: r := by
        obtain ⟨b, rfl, hb⟩ | ⟨b, hl, hb⟩ := List.append_eq_append_iff.1 ha
        · cases b with
          | nil => exact ⟨[], by simp, by simpa using hb.symm⟩
          | cons y b =>
            obtain ⟨rfl, -⟩ := List.cons_eq_cons.1 hb
            exact absurd (by simp) hx
        · exact ⟨b, hl, hb⟩
      have hlength : (a ++ b ++ x :: r).length - c.rest.length = a.length := by
        rw [hb, List.append_assoc, List.length_append, Nat.add_sub_cancel]
      have hne : 0 < a.length := by
        have hlt := hc.2
        rw [← hlength]
        omega
      obtain ⟨ms, hms, hstart⟩ := ih b.length (by rw [List.length_append]; omega) (pos + a.length) c.prev b rfl
      refine ⟨⟨pos, a ++ b ++ x :: r, c⟩ :: ms, ?_, List.forall_mem_cons.2 ⟨?_, fun m hm => ?_⟩⟩
      · rw [findAllFrom_of_hits hc, hlength, hb, hms, List.length_append, Nat.add_assoc pos]
        rfl
      · show pos < _
        rw [List.length_append]
        omega
      · have := hstart m hm
        rw [List.length_append]
        omega
    · cases l with
      | nil => exact ⟨[], findAllFrom_cons hhere, fun _ hm => nomatch hm⟩
      | cons y l =>
        obtain ⟨ms, hms, hstart⟩ := ih l.length (Nat.lt_succ_self _) (pos + 1) (some y) l rfl
        have hlength : pos + 1 + l.length = pos + (y :: l).length := by
          rw [List.length_cons]
          omega
        rw [hlength] at hms hstart
        refine ⟨ms, ?_, hstart⟩
        rw [List.cons_append] at hhere ⊢
        rw [findAllFrom_cons hhere, hms]

end Pattern
end LivePreview
