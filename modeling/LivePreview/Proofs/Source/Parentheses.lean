import LivePreview.Proofs.Source.Partners

/-! Parentheses are matched exactly, and in the same way from both ends.

The partner of an opening parenthesis is the first place behind it where as many parentheses are closed as opened. In
heights of the text that is the first return to where it began, so that from the closing parenthesis backwards the
opening one is the first place that high. A scan that counts its depth in natural numbers, from zero on, never closes at
depth zero. -/
namespace LivePreview.Source

variable {s : List Char} {opens close c : Char} {start stop place : Nat}

/-! ### Heights -/

/-- Between two places, both included, as many parentheses are closed as opened. -/
def EvenBetween (s : List Char) (start stop : Nat) : Prop :=
  (slice s start (stop + 1)).count '(' = (slice s start (stop + 1)).count ')'

theorem rise_eq_count (hne : opens ≠ close) (s : List Char) :
    rise opens close s = (s.count opens : Int) - s.count close := by
  induction s with
  | nil => rfl
  | cons c s ih =>
    rw [rise_cons, ih, riseStep, List.count_cons, List.count_cons]
    by_cases hopens : c = opens
    · subst hopens
      simp [hne]
      omega
    · by_cases hclose : c = close
      · subst hclose
        simp [hopens]
        omega
      · simp [hopens, hclose]

theorem heightAt_of_le (h : start ≤ stop) : heightAt s stop = heightAt s start + rise '(' ')' (slice s start stop) := by
  have hsplit := slice_append_slice s (Nat.zero_le start) h
  simp only [slice, List.drop_zero] at hsplit
  rw [heightAt, heightAt, ← rise_append, slice, hsplit]

theorem evenBetween_iff (h : start ≤ stop) : EvenBetween s start stop ↔ heightAt s (stop + 1) = heightAt s start := by
  rw [EvenBetween, heightAt_of_le (Nat.le_add_right_of_le h), rise_eq_count (by decide)]
  omega

theorem heightAt_succ (h : s[place]? = some c) : heightAt s (place + 1) = heightAt s place + riseStep '(' ')' c := by
  rw [heightAt, heightAt, List.take_add_one, h, rise_append]
  simp

theorem heightAt_opening (h : s[place]? = some '(') : heightAt s (place + 1) = heightAt s place + 1 := heightAt_succ h

theorem heightAt_closing (h : s[place]? = some ')') : heightAt s (place + 1) = heightAt s place - 1 := heightAt_succ h

/-- From one place to the next the height changes by one at most. -/
theorem heightAt_succ_cases (s : List Char) (place : Nat) :
    (s[place]? = some '(' ∧ heightAt s (place + 1) = heightAt s place + 1) ∨
    (s[place]? = some ')' ∧ heightAt s (place + 1) = heightAt s place - 1) ∨
    heightAt s (place + 1) = heightAt s place := by
  cases hc : s[place]? with
  | none =>
    have hlength := List.getElem?_eq_none_iff.1 hc
    refine .inr (.inr ?_)
    rw [heightAt, heightAt, List.take_of_length_le hlength, List.take_of_length_le (Nat.le_succ_of_le hlength)]
  | some c =>
    by_cases hopens : c = '('
    · exact .inl ⟨by rw [hopens], heightAt_opening (by rw [hc, hopens])⟩
    · by_cases hclose : c = ')'
      · exact .inr (.inl ⟨by rw [hclose], heightAt_closing (by rw [hc, hclose])⟩)
      · exact .inr (.inr (by rw [heightAt_succ hc, riseStep, if_neg hopens, if_neg hclose, Int.add_zero]))

/-- A text that does not come to a height stays above it. -/
theorem above_of_ne {h : Int} (hstart : h < heightAt s start)
    (hne : ∀ p, start < p → p ≤ stop → heightAt s p ≠ h) (hle : start ≤ place) (hstop : place ≤ stop) :
    h < heightAt s place := by
  induction hle with
  | refl => exact hstart
  | @step place hle ih =>
    have hbefore := ih (Nat.le_of_succ_le hstop)
    have hhere : heightAt s (place + 1) ≠ h := hne (place + 1) (Nat.lt_succ_of_le hle) hstop
    show h < heightAt s (place + 1)
    rcases heightAt_succ_cases s place with ⟨-, hstep⟩ | ⟨-, hstep⟩ | hstep <;> omega

/-- Backwards, too. -/
theorem above_of_ne_back {h : Int} (hstop : h < heightAt s stop)
    (hne : ∀ p, start ≤ p → p < stop → heightAt s p ≠ h) (hle : start ≤ place) (hlast : place ≤ stop) :
    h < heightAt s place := by
  obtain ⟨n, rfl⟩ := Nat.exists_eq_add_of_le hlast
  induction n generalizing place with
  | zero => exact hstop
  | succ n ih =>
    rw [← Nat.add_assoc, Nat.add_right_comm] at hstop
    have hbehind : h < heightAt s (place + 1) :=
      ih (Nat.le_succ_of_le hle) hstop (fun p hp hlt => hne p hp (by omega)) (Nat.le_add_right ..)
    have hhere := hne place hle (by omega)
    rcases heightAt_succ_cases s place with ⟨-, hstep⟩ | ⟨-, hstep⟩ | hstep <;> omega

/-- Two parentheses of one height are partners when the text is higher between them. -/
theorem parenPair_of_heights (hopens : s[start]? = some '(') (hclose : s[stop]? = some ')') (hlt : start < stop)
    (heven : heightAt s (stop + 1) = heightAt s start)
    (habove : ∀ p, start < p → p ≤ stop → heightAt s start < heightAt s p) : ParenPair s start stop := by
  have hlength : stop < s.length := (List.getElem?_eq_some_iff.1 hclose).1
  have hbetween : (slice s (start + 1) stop).length = stop - (start + 1) := by
    rw [slice, List.length_drop, List.length_take, Nat.min_eq_left (Nat.le_of_lt hlength)]
  have hfirst := heightAt_opening hopens
  have hlast := heightAt_closing hclose
  have hinside := heightAt_of_le (s := s) (show start + 1 ≤ stop from hlt)
  refine ⟨s.take start, slice s (start + 1) stop, s.drop (stop + 1), ?_, ?_, ?_, ?_, fun k => ?_⟩
  · have hfront : s.drop start = '(' :: s.drop (start + 1) := by
      rw [List.drop_eq_getElem_cons (Nat.lt_trans hlt hlength), (List.getElem?_eq_some_iff.1 hopens).2]
    have hback : s.drop stop = ')' :: s.drop (stop + 1) := by
      rw [List.drop_eq_getElem_cons hlength, (List.getElem?_eq_some_iff.1 hclose).2]
    rw [← hback, slice_append_drop s (Nat.succ_le_of_lt hlt), ← hfront, List.take_append_drop]
  · rw [List.length_take, Nat.min_eq_left (Nat.le_of_lt (Nat.lt_trans hlt hlength))]
  · rw [List.length_take, Nat.min_eq_left (Nat.le_of_lt (Nat.lt_trans hlt hlength)), hbetween]
    omega
  · omega
  · -- A part of what stands between them ends at a place between them.
    have htake : (slice s (start + 1) stop).take k = slice s (start + 1) (min (start + 1 + k) stop) := by
      rw [slice, slice, List.take_drop, List.take_take, Nat.add_comm]
    have hpart := heightAt_of_le (s := s) (show start + 1 ≤ min (start + 1 + k) stop by omega)
    have hhigh := habove (min (start + 1 + k) stop) (by omega) (Nat.min_le_right ..)
    rw [htake]
    omega

/-! ### Partners by counting -/

/-- An opening parenthesis, and the first place from it on up to which as many are closed as opened. -/
structure FirstEven (s : List Char) (start stop : Nat) : Prop where
  opens : s[start]? = some '('
  le : start ≤ stop
  lt : stop < s.length
  even : EvenBetween s start stop
  first : ∀ p, start ≤ p → p < stop → ¬ EvenBetween s start p

/-- A closing parenthesis, and the last place up to it from which as many are closed as opened. -/
structure LastEven (s : List Char) (start stop : Nat) : Prop where
  closes : s[stop]? = some ')'
  le : start ≤ stop
  even : EvenBetween s start stop
  last : ∀ p, start < p → p ≤ stop → ¬ EvenBetween s p stop

theorem ParenPair.firstEven (h : ParenPair s start stop) : FirstEven s start stop := by
  have hlt := h.lt
  obtain ⟨hend, habove⟩ := h.heights
  refine ⟨h.at_start, Nat.le_of_lt hlt, (List.getElem?_eq_some_iff.1 h.at_stop).1,
    (evenBetween_iff (Nat.le_of_lt hlt)).2 hend, fun p hle hp heven => ?_⟩
  have hhigh := habove (p + 1) (Nat.lt_succ_of_le hle) (Nat.succ_le_of_lt hp)
  have hlow := (evenBetween_iff hle).1 heven
  omega

theorem ParenPair.lastEven (h : ParenPair s start stop) : LastEven s start stop := by
  have hlt := h.lt
  obtain ⟨hend, habove⟩ := h.heights
  refine ⟨h.at_stop, Nat.le_of_lt hlt, (evenBetween_iff (Nat.le_of_lt hlt)).2 hend, fun p hp hle heven => ?_⟩
  have hhigh := habove p hp hle
  have hlow := (evenBetween_iff hle).1 heven
  omega

theorem FirstEven.parenPair (h : FirstEven s start stop) : ParenPair s start stop := by
  have hrises := heightAt_opening h.opens
  have heven := (evenBetween_iff h.le).1 h.even
  have hne : start ≠ stop := by
    rintro rfl
    omega
  have hlt : start < stop := Nat.lt_of_le_of_ne h.le hne
  have habove (p : Nat) (hp : start < p) (hle : p ≤ stop) : heightAt s start < heightAt s p := by
    have hfirst : heightAt s start < heightAt s (start + 1) := by omega
    refine above_of_ne hfirst (fun q hq hqle hlow => ?_) hp hle
    refine h.first (q - 1) (by omega) (by omega) ((evenBetween_iff (by omega)).2 ?_)
    rwa [Nat.sub_add_cancel (by omega)]
  have hhigh := habove stop hlt (Nat.le_refl stop)
  rcases heightAt_succ_cases s stop with ⟨-, hstep⟩ | ⟨hclose, -⟩ | hstep
  · omega
  · exact parenPair_of_heights h.opens hclose hlt heven habove
  · omega

theorem LastEven.parenPair (h : LastEven s start stop) : ParenPair s start stop := by
  have hfalls := heightAt_closing h.closes
  have heven := (evenBetween_iff h.le).1 h.even
  have hne : start ≠ stop := by
    rintro rfl
    omega
  have hlt : start < stop := Nat.lt_of_le_of_ne h.le hne
  have habove (p : Nat) (hp : start < p) (hle : p ≤ stop) : heightAt s start < heightAt s p := by
    have hlast : heightAt s start < heightAt s stop := by omega
    refine above_of_ne_back hlast (fun q hq hqlt hlow => ?_) (Nat.succ_le_of_lt hp) hle
    exact h.last q hq (Nat.le_of_lt hqlt) ((evenBetween_iff (Nat.le_of_lt hqlt)).2 (by omega))
  have hhigh := habove (start + 1) (Nat.lt_succ_self start) (Nat.succ_le_of_lt hlt)
  rcases heightAt_succ_cases s start with ⟨hopens, -⟩ | ⟨-, hstep⟩ | hstep
  · exact parenPair_of_heights hopens h.closes hlt heven habove
  · omega
  · omega

/-! ### Counting the depth -/

/-- A character that closes was met at depth zero. -/
inductive DepthError where
  | closedAtZero
deriving DecidableEq, Repr

/-- A scan from depth zero on over characters with their places: the place where the depth is zero again. -/
def depthScan (opens close : Char) (depth : Nat) : List (Char × Nat) → Except DepthError (Option Nat)
  | [] => .ok none
  | (c, place) :: r =>
    if c = opens then depthScan opens close (depth + 1) r
    else if c = close then
      match depth with
      | 0 => .error .closedAtZero
      | 1 => .ok (some place)
      | depth + 2 => depthScan opens close (depth + 1) r
    else depthScan opens close depth r

/-- The scan for a closing parenthesis, from the opening one on. -/
def scanForward (s : List Char) (start : Nat) : Except DepthError (Option Nat) :=
  if s[start]? = some '(' then depthScan '(' ')' 0 (s.zipIdx.drop start) else .ok none

/-- The scan for an opening parenthesis, from the closing one back. -/
def scanBackward (s : List Char) (stop : Nat) : Except DepthError (Option Nat) :=
  if s[stop]? = some ')' then depthScan ')' '(' 0 (s.zipIdx.take (stop + 1)).reverse else .ok none

/-- Once something is open, the scan finds what closes it, if anything does, and nothing is closed at depth zero. -/
theorem depthScan_succ (hne : opens ≠ close) (depth : Nat) (l : List (Char × Nat)) :
    depthScan opens close (depth + 1) l =
      .ok ((closeAfter opens close (depth + 1) (l.map Prod.fst)).bind fun n => (l.map Prod.snd)[n - 1]?) := by
  induction l generalizing depth with
  | nil => rfl
  | cons p l ih =>
    obtain ⟨c, place⟩ := p
    -- The place is counted from one character later on.
    have hlater (d : Nat) : ((closeAfter opens close (d + 1) (l.map Prod.fst)).bind fun n => (l.map Prod.snd)[n - 1]?) =
        ((closeAfter opens close (d + 1) (l.map Prod.fst)).map (· + 1)).bind
          fun n => (place :: l.map Prod.snd)[n - 1]? := by
      cases hn : closeAfter opens close (d + 1) (l.map Prod.fst) with
      | none => rfl
      | some n =>
        obtain ⟨b, t, -, rfl, -⟩ := (closeAfter_eq_some_iff hne).1 hn
        rfl
    simp only [depthScan, List.map_cons, closeAfter, beq_iff_eq]
    split
    case isTrue => rw [ih, hlater]
    case isFalse =>
      split
      case isTrue =>
        cases depth with
        | zero => rfl
        | succ d => simp only [ih, hlater, Nat.add_sub_cancel]; rw [if_neg (by omega)]
      case isFalse => rw [ih, hlater]

theorem scanForward_eq (s : List Char) (start : Nat) : scanForward s start = .ok (closingParen? s start) := by
  unfold scanForward
  split
  case isTrue hopens =>
    obtain ⟨hlt, hat⟩ := List.getElem?_eq_some_iff.1 hopens
    have hdrop : s.drop start = '(' :: s.drop (start + 1) := by rw [List.drop_eq_getElem_cons hlt, hat]
    have hpairs : s.zipIdx.drop start = ('(', start) :: s.zipIdx.drop (start + 1) := by
      rw [List.drop_eq_getElem_cons (by simpa using hlt)]
      simp [hat]
    rw [hpairs, closingParen?, hdrop]
    show depthScan '(' ')' (0 + 1) _ = _
    rw [depthScan_succ (by decide), List.map_drop, List.map_drop, List.zipIdx_map_fst, List.zipIdx_map_snd]
    congr 1
    show _ = (closeAfter '(' ')' (0 + 1) (s.drop (start + 1))).map (start + ·)
    cases hn : closeAfter '(' ')' (0 + 1) (s.drop (start + 1)) with
    | none => rfl
    | some n =>
      obtain ⟨b, t, hb, rfl, -⟩ := (closeAfter_eq_some_iff (d := 0) (by decide)).1 hn
      have hlength := congrArg List.length hb
      simp only [List.length_drop, List.length_append, List.length_cons] at hlength
      simp only [Option.bind_some, Option.map_some, Nat.add_sub_cancel, List.getElem?_drop]
      rw [List.getElem?_range' (by omega)]
      congr 1
      omega
  case isFalse hopens =>
    refine congrArg Except.ok (Option.eq_none_iff_forall_ne_some.2 fun stop hstop => hopens ?_).symm
    exact (closingParen?_eq_some_iff.1 hstop).at_start

theorem scanBackward_eq (s : List Char) (stop : Nat) : scanBackward s stop = .ok (openingParen? s stop) := by
  unfold scanBackward
  split
  case isTrue hclose =>
    obtain ⟨hlt, hat⟩ := List.getElem?_eq_some_iff.1 hclose
    have hdrop : s.drop stop = ')' :: s.drop (stop + 1) := by rw [List.drop_eq_getElem_cons hlt, hat]
    have hpairs : (s.zipIdx.take (stop + 1)).reverse = (')', stop) :: (s.zipIdx.take stop).reverse := by
      rw [List.take_add_one, List.getElem?_zipIdx, hclose]
      simp
    rw [hpairs, openingParen?, hdrop]
    show depthScan ')' '(' (0 + 1) _ = _
    rw [depthScan_succ (by decide), List.map_reverse, List.map_reverse, List.map_take, List.map_take,
      List.zipIdx_map_fst, List.zipIdx_map_snd]
    congr 1
    show _ = (closeAfter ')' '(' (0 + 1) (s.take stop).reverse).map (stop - ·)
    cases hn : closeAfter ')' '(' (0 + 1) (s.take stop).reverse with
    | none => rfl
    | some n =>
      obtain ⟨b, t, hb, rfl, -⟩ := (closeAfter_eq_some_iff (d := 0) (by decide)).1 hn
      have hlength := congrArg List.length hb
      simp only [List.length_reverse, List.length_take, List.length_append, List.length_cons] at hlength
      simp only [Option.bind_some, Option.map_some, Nat.add_sub_cancel]
      rw [List.getElem?_reverse (by simp; omega), List.getElem?_take_of_lt (by simp; omega),
        List.getElem?_range' (by simp; omega)]
      simp
      omega
  case isFalse hclose =>
    refine congrArg Except.ok (Option.eq_none_iff_forall_ne_some.2 fun start hstart => hclose ?_).symm
    exact (openingParen?_eq_some_iff.1 hstart).at_stop

/-! ### The two scans -/

theorem closingParen?_iff : closingParen? s start = some stop ↔ FirstEven s start stop :=
  closingParen?_eq_some_iff.trans ⟨ParenPair.firstEven, FirstEven.parenPair⟩

theorem openingParen?_iff : openingParen? s stop = some start ↔ LastEven s start stop :=
  openingParen?_eq_some_iff.trans ⟨ParenPair.lastEven, LastEven.parenPair⟩

/-- **Parentheses are matched exactly, and in the same way from both ends.** Forwards from an opening parenthesis the
first place is found up to which as many are closed as opened, backwards from a closing one the last place from which
that is so, and these are the same pairs. Nothing is found only where there is no such place, and no scan closes at
depth zero. -/
theorem parens_matched (s : List Char) :
    (∀ start stop, closingParen? s start = some stop ↔ FirstEven s start stop) ∧
    (∀ start stop, openingParen? s stop = some start ↔ LastEven s start stop) ∧
    (∀ start stop, closingParen? s start = some stop ↔ openingParen? s stop = some start) ∧
    (∀ start, closingParen? s start = none ↔ ¬ ∃ stop, FirstEven s start stop) ∧
    (∀ stop, openingParen? s stop = none ↔ ¬ ∃ start, FirstEven s start stop) ∧
    (∀ start, scanForward s start = .ok (closingParen? s start)) ∧
    (∀ stop, scanBackward s stop = .ok (openingParen? s stop)) := by
  have hsame (start stop : Nat) : closingParen? s start = some stop ↔ openingParen? s stop = some start :=
    closingParen?_eq_some_iff.trans openingParen?_eq_some_iff.symm
  refine ⟨fun _ _ => closingParen?_iff, fun _ _ => openingParen?_iff, hsame, fun start => ?_, fun stop => ?_,
    scanForward_eq s, scanBackward_eq s⟩
  · rw [Option.eq_none_iff_forall_ne_some, not_exists]
    exact forall_congr' fun stop => not_congr closingParen?_iff
  · rw [Option.eq_none_iff_forall_ne_some, not_exists]
    exact forall_congr' fun start => not_congr ((hsame start stop).symm.trans closingParen?_iff)

/-- A text that closes more than it opens, and opens more behind that. -/
example : closingParen? "a)(b(c)d)(".toList 2 = some 8 ∧ openingParen? "a)(b(c)d)(".toList 8 = some 2 ∧
    closingParen? "a)(b(c)d)(".toList 9 = none ∧ openingParen? "a)(b(c)d)(".toList 1 = none := by decide +kernel

end LivePreview.Source
