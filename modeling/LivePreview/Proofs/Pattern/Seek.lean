import LivePreview.Proofs.Pattern.Reads

/-! The first place where a pattern matches.

A search goes from place to place and stops at the first one with an answer. What may stand before a pattern changes
where its first match begins, but not what is found, when the pattern cannot match within it. -/
namespace LivePreview.Pattern

variable {α : Type} {p q : Pattern} {c d : Cursor} {k : Cursor → Option α} {g : List (Nat × List Char × List Char)}
  {prev : Option Char} {rest : List Char}

/-! ### Searching -/

/-- The answer at the first place from here on that has one. -/
def seek (f : Option Char → List Char → Option α) (prev : Option Char) : List Char → Option α
  | [] => f prev []
  | x :: r =>
    match f prev (x :: r) with
    | some a => some a
    | none => seek f (some x) r

/-- The character before the place behind a text. -/
def lastOf (prev : Option Char) : List Char → Option Char
  | [] => prev
  | x :: l => lastOf (some x) l

theorem lastOf_append (prev : Option Char) (l r : List Char) : lastOf prev (l ++ r) = lastOf (lastOf prev l) r := by
  induction l generalizing prev with
  | nil => rfl
  | cons x l ih => exact ih (some x)

variable {f h : Option Char → List Char → Option α}

theorem seek_of_some {a : α} (ha : f prev rest = some a) : seek f prev rest = some a := by
  cases rest <;> simp [seek, ha]

theorem map_findFrom (p : Pattern) (of : Cursor → α) (pos : Nat) (prev : Option Char) (rest : List Char) :
    (p.findFrom pos prev rest).map (fun m => of m.last) =
      seek (fun prev rest => (p.endFrom prev rest).map of) prev rest := by
  induction rest generalizing pos prev with
  | nil => cases hp : p.endFrom prev [] <;> simp [findFrom, seek, hp]
  | cons x r ih => cases hp : p.endFrom prev (x :: r) <;> simp [findFrom, seek, hp, ih]

/-- What the first match answers is the answer at the first place with a match. -/
theorem map_find? (p : Pattern) (of : Cursor → α) (s : List Char) :
    (p.find? s).map (fun m => of m.last) = seek (fun prev rest => (p.endFrom prev rest).map of) none s :=
  map_findFrom p of 0 none s

theorem findFrom_eq_some {pos : Nat} {t : List Char} {m : Match} (h : p.findFrom pos prev rest = some m)
    (hrest : t.drop pos = rest) : m.source = t.drop m.start ∧ ∃ prev, p.endFrom prev m.source = some m.last := by
  induction rest generalizing pos prev with
  | nil =>
    rw [findFrom] at h
    split at h
    case h_1 c hc =>
      cases h
      exact ⟨hrest.symm, prev, hc⟩
    case h_2 => exact nomatch h
  | cons x r ih =>
    rw [findFrom] at h
    split at h
    case h_1 c hc =>
      cases h
      exact ⟨hrest.symm, prev, hc⟩
    case h_2 => exact ih h (by rw [← List.drop_drop, hrest, List.drop_one, List.tail_cons])

/-- The first match stands where it begins. -/
theorem find?_eq_some {s : List Char} {m : Match} (h : p.find? s = some m) :
    m.source = s.drop m.start ∧ ∃ prev, p.endFrom prev m.source = some m.last := findFrom_eq_some h rfl

/-- A search has found the first place with an answer. -/
theorem seek_eq_some {a : α} (ha : seek f prev rest = some a) :
    ∃ l r, rest = l ++ r ∧ f (lastOf prev l) r = some a ∧
      ∀ l' r', rest = l' ++ r' → l'.length < l.length → f (lastOf prev l') r' = none := by
  induction rest generalizing prev with
  | nil => exact ⟨[], [], rfl, ha, fun _ _ _ hlt => absurd hlt (Nat.not_lt_zero _)⟩
  | cons x rest ih =>
    unfold seek at ha
    split at ha
    case h_1 b hb => exact ⟨[], x :: rest, rfl, hb.trans ha, fun _ _ _ hlt => absurd hlt (Nat.not_lt_zero _)⟩
    case h_2 hnone =>
      obtain ⟨l, r, rfl, hl, hearlier⟩ := ih ha
      refine ⟨x :: l, r, rfl, hl, fun l' r' hsplit hlt => ?_⟩
      cases l' with
      | nil =>
        rw [List.nil_append] at hsplit
        exact hsplit ▸ hnone
      | cons y l' =>
        obtain ⟨rfl, htail⟩ := List.cons_eq_cons.1 hsplit
        exact hearlier l' r' htail (Nat.lt_of_succ_lt_succ hlt)

/-- A search that finds nothing finds nothing at any place. -/
theorem seek_eq_none (hnone : seek f prev rest = none) (l r : List Char) (hrest : rest = l ++ r) :
    f (lastOf prev l) r = none := by
  subst hrest
  induction l generalizing prev with
  | nil =>
    cases ha : f prev r with
    | some a => exact nomatch hnone.symm.trans (seek_of_some ha)
    | none => exact ha
  | cons x l ih =>
    rw [List.cons_append, seek] at hnone
    split at hnone
    case h_1 => exact nomatch hnone
    case h_2 => exact ih hnone

/-! ### What a search passes over -/

/-- There is no answer at the places before the characters of a text. -/
def Passes (f : Option Char → List Char → Option α) (prev : Option Char) : List Char → Prop
  | [] => True
  | x :: l => (∀ r, f prev (x :: r) = none) ∧ Passes f (some x) l

theorem Passes.append {l r : List Char} (hl : Passes f prev l) (hr : Passes f (lastOf prev l) r) :
    Passes f prev (l ++ r) := by
  induction l generalizing prev with
  | nil => exact hr
  | cons x l ih => exact ⟨hl.1, ih hl.2 hr⟩

theorem Passes.of_forall {l : List Char} (hl : ∀ x ∈ l, ∀ prev r, f prev (x :: r) = none) : Passes f prev l := by
  induction l generalizing prev with
  | nil => exact True.intro
  | cons x l ih => exact ⟨hl x List.mem_cons_self prev, ih fun y hy => hl y (List.mem_cons_of_mem x hy)⟩

theorem Passes.seek {l : List Char} (hl : Passes f prev l) (r : List Char) :
    seek f prev (l ++ r) = seek f (lastOf prev l) r := by
  induction l generalizing prev with
  | nil => rfl
  | cons x l ih =>
    rw [List.cons_append, Pattern.seek, hl.1]
    exact ih hl.2

/-- Two searches find the same when each answer of the one is what the other finds from there on, and the other
answers nowhere else. -/
theorem seek_congr (hfound : ∀ prev rest a, f prev rest = some a → seek h prev rest = some a)
    (hnone : ∀ prev rest, f prev rest = none → h prev rest = none) (prev : Option Char) (rest : List Char) :
    seek f prev rest = seek h prev rest := by
  induction rest generalizing prev with
  | nil =>
    cases ha : f prev [] with
    | some a => rw [seek_of_some ha, hfound prev [] a ha]
    | none => rw [seek, seek, ha, hnone prev [] ha]
  | cons x r ih =>
    cases ha : f prev (x :: r) with
    | some a => rw [seek_of_some ha, hfound prev _ a ha]
    | none =>
      rw [seek, seek, ha, hnone prev _ ha]
      exact ih (some x)

/-! ### Running patterns -/

theorem Reads.lastOf (hr : p.Reads c d) : ∃ l, c.rest = l ++ d.rest ∧ d.prev = lastOf c.prev l := by
  induction hr with
  | empty | manyNone | starNone | «at» _ => exact ⟨[], rfl, rfl⟩
  | @one ok x prev r g _ => exact ⟨[x], rfl, rfl⟩
  | @manyMore ok greedy x prev r g d _ _ ih =>
    obtain ⟨l, hl, hlast⟩ := ih
    exact ⟨x :: l, congrArg (x :: ·) hl, hlast⟩
  | seq _ _ ihp ihq | starMore _ _ ihp ihq =>
    obtain ⟨a, ha, hlasta⟩ := ihp
    obtain ⟨b, hb, hlastb⟩ := ihq
    exact ⟨a ++ b, by rw [ha, hb, List.append_assoc], by rw [lastOf_append, ← hlasta, hlastb]⟩
  | left _ ih | right _ ih => exact ih
  | group _ ih => exact ih

theorem Every.passes_append (hp : p.Every fun l => ∀ prev, Passes h prev l)
    (hq : q.Every fun l => ∀ prev, Passes h prev l) : (p ++ q).Every fun l => ∀ prev, Passes h prev l :=
  hp.seq hq fun _ _ ha hb prev => (ha prev).append (hb _)

/-- A search passes over what a pattern reads, when there is no answer within it. -/
theorem Reads.seek (hp : p.Every fun l => ∀ prev, Passes h prev l) (hr : p.Reads c d) :
    seek h c.prev c.rest = seek h d.prev d.rest := by
  obtain ⟨l, hl, hlast⟩ := hr.lastOf
  obtain ⟨l', hl', hpasses⟩ := hp c d hr
  rw [List.append_cancel_right (hl'.symm.trans hl)] at hpasses
  rw [hl, hlast, (hpasses _).seek]

theorem run_seq (p q : Pattern) (c : Cursor) (k : Cursor → Option α) :
    (p ++ q).run c k = p.run c fun d => q.run d k := rfl

theorem run_opt (p : Pattern) (c : Cursor) (k : Cursor → Option α) : (opt p).run c k = (p.run c k).or (k c) := by
  unfold opt
  rw [run, run]
  cases p.run c k <;> rfl

theorem run_one {ok : Char → Bool} (x : Char) (r : List Char) :
    (Pattern.one ok).run ⟨prev, x :: r, g⟩ k = if ok x then k ⟨some x, r, g⟩ else none := rfl

theorem run_lit (s : String) : (lit s).run ⟨prev, rest, g⟩ k =
    if s.toList.isPrefixOf rest then k ⟨lastOf prev s.toList, rest.drop s.toList.length, g⟩ else none := by
  unfold lit
  induction s.toList generalizing prev rest with
  | nil => simp [run, lastOf]
  | cons x l ih =>
    rw [List.foldr_cons, run]
    cases rest with
    | nil => simp [run]
    | cons y r =>
      rw [run_one]
      by_cases hxy : y = x
      · subst hxy
        simpa [lastOf] using ih
      · simp [hxy, Ne.symm hxy]

/-- A greedy repetition stops at its last place, unless it only goes on from an earlier one. -/
theorem run_many {ok : Char → Bool}
    (hlast : ∀ l r, rest = l ++ r → (∀ x ∈ l, ok x = true) → (k ⟨lastOf prev l, r, g⟩).isSome →
      (k ⟨lastOf prev (rest.takeWhile ok), rest.dropWhile ok, g⟩).isSome) :
    (Pattern.many ok true).run ⟨prev, rest, g⟩ k = k ⟨lastOf prev (rest.takeWhile ok), rest.dropWhile ok, g⟩ := by
  show manyRun ok true g k prev rest = _
  induction rest generalizing prev with
  | nil => rfl
  | cons x r ih =>
    unfold manyRun
    by_cases hx : ok x = true
    · have hfirst := hlast [] (x :: r) rfl (List.forall_mem_nil _)
      simp only [List.takeWhile_cons_of_pos hx, List.dropWhile_cons_of_pos hx] at hlast hfirst ⊢
      rw [if_pos True.intro, if_pos hx,
        ih fun l r' hr hl => hlast (x :: l) r' (congrArg (x :: ·) hr) (List.forall_mem_cons.2 ⟨hx, hl⟩)]
      change _ → (k ⟨lastOf (some x) (r.takeWhile ok), r.dropWhile ok, g⟩).isSome at hfirst
      show _ = k ⟨lastOf (some x) (r.takeWhile ok), r.dropWhile ok, g⟩
      cases hk : k ⟨lastOf (some x) (r.takeWhile ok), r.dropWhile ok, g⟩ with
      | some a => rfl
      | none =>
        rw [hk] at hfirst
        exact Option.not_isSome_iff_eq_none.1 fun hsome => absurd (hfirst hsome) (by simp)
    · simp [hx, lastOf]

/-- A greedy repetition takes all it can when what follows cannot begin with such a character. -/
theorem run_many_of_stop {ok : Char → Bool} (hstop : ∀ prev x r, ok x = true → k ⟨prev, x :: r, g⟩ = none) :
    (Pattern.many ok true).run ⟨prev, rest, g⟩ k = k ⟨lastOf prev (rest.takeWhile ok), rest.dropWhile ok, g⟩ := by
  refine run_many fun l r hrest hl hk => ?_
  subst hrest
  rw [List.takeWhile_append_of_pos hl, List.dropWhile_append_of_pos hl]
  cases r with
  | nil => simpa using hk
  | cons x r =>
    have hx : ¬ ok x = true := fun hx => by simp [hstop _ x r hx] at hk
    simpa [hx] using hk

theorem run_words {ws : List String} (hws : ws ≠ []) : (words ws).run ⟨prev, rest, g⟩ k =
    ws.findSome? fun w =>
      if w.toList.isPrefixOf rest then k ⟨lastOf prev w.toList, rest.drop w.toList.length, g⟩ else none := by
  induction ws with
  | nil => exact absurd rfl hws
  | cons w ws ih =>
    cases ws with
    | nil => simp [words, run_lit]
    | cons v ws =>
      show (Pattern.alt (lit w) (words (v :: ws))).run _ k = _
      rw [run, run_lit, ih (by simp)]
      rfl

/-! ### Patterns whose first match is sought -/

variable {of : Cursor → α}

/-- What is matched from a place is what the search finds from there on, and the search finds nothing at a place
without a match. -/
def Finds (of : Cursor → α) (k : Cursor → Option Cursor) (h : Option Char → List Char → Option α) : Prop :=
  ∀ prev rest, match k ⟨prev, rest, []⟩ with
    | some d => seek h prev rest = some (of d)
    | none => h prev rest = none

theorem Finds.of_eq {k : Cursor → Option Cursor} (hk : ∀ prev rest, (k ⟨prev, rest, []⟩).map of = h prev rest) :
    Finds of k h := fun prev rest => by
  have hk := hk prev rest
  cases hd : k ⟨prev, rest, []⟩ with
  | some d => exact seek_of_some (by rw [← hk, hd, Option.map_some])
  | none => rw [← hk, hd, Option.map_none]

/-- What may come before makes no difference when the search passes over it. -/
theorem Finds.opt {k : Cursor → Option Cursor} (hk : Finds of k h) (hp : p.Every fun l => ∀ prev, Passes h prev l)
    (hplain : p.plain = true) : Finds of (fun c => (opt p).run c k) h := fun prev rest => by
  have hlater := hk prev rest
  simp only [run_opt]
  cases hpre : p.run ⟨prev, rest, []⟩ k with
  | none => exact hlater
  | some d =>
    obtain ⟨⟨prev', rest', g⟩, hreads, hd⟩ := run_reads hpre
    obtain rfl : g = [] := hreads.groups_eq hplain
    have hfound := hk prev' rest'
    rw [hd] at hfound
    exact (hreads.seek hp).trans hfound

theorem Finds.seek {k : Cursor → Option Cursor} (hk : Finds of k h) (prev : Option Char) (s : List Char) :
    seek (fun prev rest => (k ⟨prev, rest, []⟩).map of) prev s = seek h prev s := by
  refine seek_congr (fun prev rest a ha => ?_) (fun prev rest hnone => ?_) prev s
  · obtain ⟨d, hd, rfl⟩ := Option.map_eq_some_iff.1 ha
    have hfound := hk prev rest
    rwa [hd] at hfound
  · have hlater := hk prev rest
    rwa [Option.map_eq_none_iff.1 hnone] at hlater

end LivePreview.Pattern
