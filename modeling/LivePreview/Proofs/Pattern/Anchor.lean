import LivePreview.Proofs.Pattern.Search

/-! Where matches end.

A pattern that looks at no edge reads a text wherever it stands. So the places where matches of a word-edged pattern
end are told by the text before them; and a search, although it goes on behind each match, comes to all of them if a
match that begins inside of another one ends where that one does. -/
namespace LivePreview.Pattern

variable {p q : Pattern} {c d : Cursor} {pos : Nat} {prev : Option Char} {s a l r w z k : List Char} {x : Char}
  {m : Match}

/-! ### Patterns without edges -/

/-- Whether a pattern looks at nothing but what it reads, and keeps no groups. -/
def edgeless : Pattern → Bool
  | seq p q | alt p q => p.edgeless && q.edgeless
  | star p _ => p.edgeless
  | .at _ | group _ _ => false
  | _ => true

/-- What such a pattern reads it can read anywhere. -/
theorem every_canRead (h : p.edgeless = true) : p.Every (CanRead p) := by
  induction p with
  | empty => exact .empty .empty
  | one ok => exact .one fun x hx => .one hx
  | many ok greedy => exact (Every.characters ok greedy).mono fun l hl => .many hl
  | seq p q ihp ihq =>
    obtain ⟨hp, hq⟩ := Bool.and_eq_true_iff.1 h
    exact (ihp hp).seq (ihq hq) fun a b ha hb => ha.seq hb
  | alt p q ihp ihq =>
    obtain ⟨hp, hq⟩ := Bool.and_eq_true_iff.1 h
    exact ((ihp hp).mono fun l hl => hl.left).alt ((ihq hq).mono fun l hl => hl.right)
  | star p greedy ih =>
    refine (ih h).star (fun _ _ _ => .starNone) fun a b ha hb prev r g => ?_
    rw [List.append_assoc, lastOf_append]
    exact .starMore (ha prev (b ++ r) g) (hb _ r g)
  | «at» | group => cases h

/-- A property of all that a pattern reads is one of each text that it can read. -/
theorem CanRead.of_every {P : List Char → Prop} (h : CanRead p l) (hp : p.Every P) : P l := by
  obtain ⟨l', hl, hP⟩ := hp _ _ (h none [] [])
  have hl : l = l' := by simpa using hl
  exact hl ▸ hP

theorem reads_assoc {t : Pattern} : (p ++ q ++ t).Reads c d ↔ (p ++ (q ++ t)).Reads c d :=
  ⟨Reads.shift, fun h => by
    cases h with
    | seq hp h =>
      cases h with
      | seq hq ht => exact .seq (.seq hp hq) ht⟩

theorem reads_at {e : Edge} : (.at e ++ p : Pattern).Reads c d ↔ e.holds c.prev c.rest = true ∧ p.Reads c d :=
  ⟨fun h => by
    cases h with
    | seq he hp =>
      cases he with
      | «at» he => exact ⟨he, hp⟩, fun ⟨he, hp⟩ => .seq (.at he) hp⟩

/-! ### Covering -/

/-- Of two ways to part a text, the later one goes on within the rest of the other. -/
theorem exists_of_append {α : Type} {l r a b : List α} (h : l ++ r = a ++ b) (hle : a.length ≤ l.length) :
    ∃ l', l = a ++ l' ∧ l' ++ r = b := by
  rcases List.append_eq_append_iff.1 h with ⟨a', rfl, hr⟩ | ⟨l', rfl, hb⟩
  · obtain rfl : a' = [] := List.length_eq_zero_iff.1 (by rw [List.length_append] at hle; omega)
    exact ⟨[], by simp, by simpa using hr⟩
  · exact ⟨l', rfl, hb.symm⟩

/-- Where a match can begin, a match that is found begins there or goes over the place. -/
theorem exists_covering (pos : Nat) (h : ∃ e, p.Hits (lastOf prev l) r e) :
    ∃ m ∈ p.findAllFrom pos prev (l ++ r), m.start ≤ pos + l.length ∧ pos + l.length < m.stop := by
  obtain ⟨e, he⟩ := h
  generalize hrest : l ++ r = rest
  induction prev, rest using search_induction (p := p) generalizing pos l with
  | nil prev hno =>
    obtain ⟨rfl, rfl⟩ := List.append_eq_nil_iff.1 hrest
    exact absurd ⟨e, he⟩ hno
  | cons prev x rest hno ih =>
    cases l with
    | nil =>
      rw [List.nil_append] at hrest
      exact absurd ⟨e, hrest ▸ he⟩ hno
    | cons y l =>
      obtain ⟨rfl, hbehind⟩ := List.cons.inj hrest
      obtain ⟨m, hm, hle, hlt⟩ := ih (pos + 1) he hbehind
      rw [findAllFrom_cons hno]
      rw [List.length_cons]
      exact ⟨m, hm, by omega, by omega⟩
  | hit prev rest c hc ih =>
    obtain ⟨a, ha, hlast⟩ := (endFrom_reads hc.1).lastOf
    have ha : rest = a ++ c.rest := ha
    have hlast : c.prev = lastOf prev a := hlast
    have hlength : rest.length - c.rest.length = a.length := by rw [ha, List.length_append, Nat.add_sub_cancel]
    rw [findAllFrom_of_hits hc]
    rcases Nat.lt_or_ge l.length a.length with hover | hbehind
    · refine ⟨⟨pos, rest, c⟩, List.mem_cons_self, Nat.le_add_right .., ?_⟩
      show pos + l.length < pos + (rest.length - c.rest.length)
      omega
    · obtain ⟨l', rfl, hgoes⟩ := exists_of_append (hrest.trans ha) hbehind
      rw [lastOf_append, ← hlast] at he
      obtain ⟨m, hm, hle, hlt⟩ := ih (pos + a.length) he hgoes
      rw [hlength, List.length_append]
      exact ⟨m, List.mem_cons_of_mem _ hm, by omega, by omega⟩

/-- Where nothing is found there is no way to match, at any place. -/
theorem not_reads_of_findAll (hp : p.productive = true) (hsome : p.readsSome = true) (h : p.findAll s = [])
    (hs : s = l ++ r) : ¬ p.Reads ⟨lastOf none l, r, []⟩ d := by
  intro hread
  obtain ⟨e, he⟩ := exists_hits_of_productive hread hp fun d hd => hd.length_lt hsome
  obtain ⟨m, hm, -⟩ := exists_covering 0 ⟨e, he⟩
  have hm : m ∈ p.findAll s := hs ▸ hm
  rw [h] at hm
  cases hm

/-- Nothing is found in a text without any of the characters of which each match has one. -/
theorem findAll_eq_nil_of_every {ok : Char → Bool} (hp : p.Every (·.any ok = true)) (hs : ∀ c ∈ s, ok c = false) :
    p.findAll s = [] := by
  refine List.eq_nil_iff_forall_not_mem.2 fun m hm => ?_
  obtain ⟨l, hl, -, hhits⟩ := exists_of_mem_findAllFrom hm
  obtain ⟨k, hk, hany⟩ := hp _ _ (endFrom_reads hhits.1)
  have hk : m.source = k ++ m.last.rest := hk
  obtain ⟨c, hc, hok⟩ := List.any_eq_true.1 hany
  rw [hs c (by rw [hl, hk]; simp [hc])] at hok
  cases hok

/-! ### Behind a word edge -/

/-- A text ends with what the pattern can read, and no word goes on there. -/
def EndsAt (q : Pattern) (a : List Char) : Prop :=
  ∃ u w, a = u ++ w ∧ CanRead q w ∧ (lastOf none u).any Text.isWord = false

/-- The end of a text is told by what stands behind a character that the pattern does not read. -/
theorem endsAt_wall (hq : q.Every (x ∉ ·)) : EndsAt q (z ++ x :: k) ↔ EndsAt q (x :: k) := by
  refine ⟨fun ⟨u, w, hsplit, hw, hedge⟩ => ?_, fun ⟨u, w, hsplit, hw, hedge⟩ => ?_⟩
  · have hno : x ∉ w := hw.of_every hq
    rcases List.append_eq_append_iff.1 hsplit with ⟨u', rfl, hxk⟩ | ⟨z', -, hxw⟩
    · cases u' with
      | nil =>
        rw [List.nil_append] at hxk
        exact absurd (by rw [← hxk]; exact List.mem_cons_self) hno
      | cons y u' =>
        obtain ⟨rfl, hk⟩ := List.cons.inj hxk
        exact ⟨x :: u', w, by rw [hk]; rfl, hw, by rwa [lastOf_append] at hedge⟩
    · exact absurd (by rw [hxw]; simp) hno
  · cases u with
    | nil => exact absurd (by rw [← show x :: k = w from hsplit]; exact List.mem_cons_self) (hw.of_every hq)
    | cons y u =>
      refine ⟨z ++ y :: u, w, by rw [hsplit, List.append_assoc], hw, ?_⟩
      rwa [lastOf_append]

/-- The pattern is a word edge before one that looks at none and begins with a word. -/
structure WordEdged (p q : Pattern) : Prop where
  reads : ∀ c d, p.Reads c d ↔ Edge.wordEdge.holds c.prev c.rest = true ∧ q.Reads c d
  starless : p.starless = true
  edgeless : q.edgeless = true
  word : q.Every fun l => ∃ x l', l = x :: l' ∧ Text.isWord x = true

theorem wordEdge_of_word (hx : Text.isWord x = true) (l : List Char) :
    Edge.wordEdge.holds prev (x :: l) = true ↔ prev.any Text.isWord = false := by
  simp [Edge.holds, hx]

/-- Where a match that is found ends. -/
theorem WordEdged.endsAt_of_mem (h : WordEdged p q) (hm : m ∈ p.findAll s) :
    ∃ a, s = a ++ m.last.rest ∧ m.stop = a.length ∧ EndsAt q a := by
  obtain ⟨l, hl, hstart, hhits⟩ := exists_of_mem_findAllFrom hm
  obtain ⟨hedge, hreads⟩ := (h.reads _ _).1 (endFrom_reads hhits.1)
  obtain ⟨w, hw, hcan, x, w', rfl, hx⟩ := ((every_canRead h.edgeless).and h.word) _ _ hreads
  have hw : m.source = x :: w' ++ m.last.rest := hw
  rw [hw] at hedge
  refine ⟨l ++ x :: w', by rw [hl, hw, List.append_assoc], ?_, l, _, rfl, hcan, (wordEdge_of_word hx _).1 hedge⟩
  rw [Match.stop, Match.length, hstart, hw, List.length_append, List.length_append]
  omega

/-- Matches that overlap end at one place. -/
def EndsOnce (q : Pattern) : Prop :=
  ∀ x y w t r, CanRead q (x ++ y) → y ≠ [] → CanRead q w → (lastOf none x).any Text.isWord = false → y ++ t = w ++ r →
    y = w

/-- A match is found that ends where one can end. -/
theorem WordEdged.exists_mem (h : WordEdged p q) (honce : EndsOnce q) (hs : s = a ++ r) (ha : EndsAt q a) :
    ∃ m ∈ p.findAll s, m.stop = a.length := by
  obtain ⟨u, w, rfl, hw, hedge⟩ := ha
  obtain ⟨x, w', rfl, hx⟩ := hw.of_every h.word
  rw [List.append_assoc] at hs
  have hhits : ∃ e, p.Hits (lastOf none u) (x :: w' ++ r) e := by
    have hholds : Edge.wordEdge.holds (lastOf none u) (x :: (w' ++ r)) = true := (wordEdge_of_word hx _).2 hedge
    refine exists_hits ((h.reads _ _).2 ⟨hholds, hw (lastOf none u) r []⟩) h.starless fun d hd => ?_
    obtain ⟨l, hl, y, l', rfl, -⟩ := h.word _ _ ((h.reads _ _).1 hd).2
    have hl : x :: w' ++ r = y :: l' ++ d.rest := hl
    rw [hl, List.length_append]
    exact Nat.lt_add_of_pos_left (Nat.succ_pos _)
  obtain ⟨m, hm, hle, hlt⟩ := exists_covering 0 hhits
  rw [← hs] at hm
  rw [Nat.zero_add] at hle hlt
  obtain ⟨l, hl, hstart, hhits⟩ := exists_of_mem_findAllFrom hm
  obtain ⟨hbefore, hreads⟩ := (h.reads _ _).1 (endFrom_reads hhits.1)
  obtain ⟨v, hv, hcan⟩ := every_canRead h.edgeless _ _ hreads
  have hv : m.source = v ++ m.last.rest := hv
  rw [Nat.zero_add] at hstart
  -- The place is somewhere in the text of the match that is found.
  have hstop : m.stop = l.length + v.length := by
    rw [Match.stop, Match.length, hstart, hv, List.length_append, Nat.add_sub_cancel]
  obtain ⟨v₁, rfl, hbehind⟩ :=
    exists_of_append (show u ++ (x :: w' ++ r) = l ++ (v ++ m.last.rest) by rw [← hs, hl, hv])
    (hstart ▸ hle)
  rw [hstop, List.length_append] at hlt
  obtain ⟨v₂, rfl, hgoes⟩ := exists_of_append hbehind.symm (by omega)
  have hprev : (lastOf none v₁).any Text.isWord = false := by
    cases v₁ with
    | nil => rfl
    | cons y v₁ =>
      rw [lastOf_append] at hedge
      exact hedge
  have hne : v₂ ≠ [] := by
    rintro rfl
    rw [List.append_nil] at hlt
    omega
  have hsame := honce v₁ v₂ (x :: w') m.last.rest r hcan hne hw hprev hgoes
  exact ⟨m, hm, by rw [hstop, hsame]; simp⟩

end LivePreview.Pattern
