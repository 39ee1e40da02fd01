import LivePreview.Proofs.Source.Splice
import LivePreview.Source.Plain

/-! Partners among parentheses.

A scan for a closing parenthesis, forwards or backwards, ends at the partner of the parenthesis it began at. Of two
pairs of partners one is inside the other or they are apart, whatever other brackets the text has. The edits of
parameter lists are made between partners. -/
namespace LivePreview.Source

variable {s b : List Char} {opens close c : Char} {d : Int}

/-! ### Scans for a closing character -/

def riseStep (opens close c : Char) : Int := if c = opens then 1 else if c = close then -1 else 0

/-- How many more `opens` than `close` a text has. -/
def rise (opens close : Char) : List Char → Int
  | [] => 0
  | c :: s => riseStep opens close c + rise opens close s

@[simp]
theorem rise_nil : rise opens close [] = 0 := rfl

@[simp]
theorem rise_cons : rise opens close (c :: s) = riseStep opens close c + rise opens close s := rfl

@[simp]
theorem rise_append (s t : List Char) : rise opens close (s ++ t) = rise opens close s + rise opens close t := by
  induction s with
  | nil => rw [List.nil_append, rise_nil, Int.zero_add]
  | cons c s ih => rw [List.cons_append, rise_cons, rise_cons, ih, Int.add_assoc]

@[simp]
theorem riseStep_opens : riseStep opens close opens = 1 := if_pos rfl

theorem riseStep_close (hne : opens ≠ close) : riseStep opens close close = -1 := by
  rw [riseStep, if_neg hne.symm, if_pos rfl]

theorem rise_reverse (hne : opens ≠ close) (s : List Char) : rise close opens s.reverse = -rise opens close s := by
  induction s with
  | nil => rfl
  | cons c s ih =>
    have hstep : riseStep close opens c = -riseStep opens close c := by
      unfold riseStep
      split
      case isTrue h => rw [if_neg (h ▸ hne.symm)]; rfl
      case isFalse => split <;> rfl
    rw [List.reverse_cons, rise_append, ih, rise_cons, rise_cons, rise_nil, hstep]
    omega

/-- From depth `d` on, the text closes as much as it opens and `d` more, and never more than that. -/
def Enclosed (opens close : Char) (d : Int) (b : List Char) : Prop :=
  d + rise opens close b = 0 ∧ ∀ k, 0 ≤ d + rise opens close (b.take k)

theorem enclosed_nil : Enclosed opens close d [] ↔ d = 0 := by
  simp [Enclosed]
  omega

theorem enclosed_cons :
    Enclosed opens close d (c :: b) ↔ 0 ≤ d ∧ Enclosed opens close (d + riseStep opens close c) b := by
  simp only [Enclosed, rise_cons, ← Int.add_assoc]
  refine ⟨fun ⟨hsum, hall⟩ => ⟨by simpa using hall 0, hsum, fun k => ?_⟩, fun ⟨hd, hsum, hall⟩ => ⟨hsum, fun k => ?_⟩⟩
  · simpa [← Int.add_assoc] using hall (k + 1)
  · cases k with
    | zero => simpa using hd
    | succ k => simpa [← Int.add_assoc] using hall k

theorem Enclosed.reverse (hne : opens ≠ close) (h : Enclosed opens close 0 b) : Enclosed close opens 0 b.reverse := by
  obtain ⟨hsum, hall⟩ := h
  refine ⟨by rw [rise_reverse hne]; omega, fun k => ?_⟩
  -- A part at the end of the text closes what the part before it has opened.
  have htake : b.reverse.take k = (b.drop (b.length - k)).reverse := by rw [List.take_reverse]
  have hsplit : rise opens close b =
      rise opens close (b.take (b.length - k)) + rise opens close (b.drop (b.length - k)) := by
    rw [← rise_append, List.take_append_drop]
  rw [htake, rise_reverse hne]
  have := hall (b.length - k)
  omega

/-- A scan ends at the first closing character that has nothing left to close but what was open before. -/
theorem closeAfter_eq_some_iff (hne : opens ≠ close) {d n : Nat} : closeAfter opens close (d + 1) s = some n ↔
    ∃ b t, s = b ++ close :: t ∧ n = b.length + 1 ∧ Enclosed opens close d b := by
  induction s generalizing d n with
  | nil => simp [closeAfter]
  | cons c s ih =>
    -- One character before the text, at a depth that leads to `e` behind it.
    have more {e : Nat} (he : (d : Int) + riseStep opens close c = e) (hc : (d : Int) ≠ 0 ∨ c ≠ close) :
        (closeAfter opens close (e + 1) s).map (· + 1) = some n ↔
          ∃ b t, c :: s = b ++ close :: t ∧ n = b.length + 1 ∧ Enclosed opens close d b := by
      rw [Option.map_eq_some_iff]
      refine ⟨fun ⟨m, hm, hn⟩ => ?_, fun ⟨b, t, hs, hn, hb⟩ => ?_⟩
      · obtain ⟨b, t, rfl, rfl, hb⟩ := ih.1 hm
        exact ⟨c :: b, t, rfl, hn.symm, enclosed_cons.2 ⟨Int.natCast_nonneg d, by rw [he]; exact hb⟩⟩
      · cases b with
        | nil =>
          cases hs
          exact (hc.elim (· (enclosed_nil.1 hb)) (· rfl)).elim
        | cons x b =>
          obtain ⟨rfl, rfl⟩ := List.cons.inj hs
          exact ⟨b.length + 1, ih.2 ⟨b, t, rfl, rfl, by rw [← he]; exact (enclosed_cons.1 hb).2⟩, hn.symm⟩
    unfold closeAfter
    split
    case isTrue hopens =>
      obtain rfl := beq_iff_eq.1 hopens
      exact more (e := d + 1) (by simp) (.inr hne)
    case isFalse hopens =>
      have hopens : c ≠ opens := by simpa using hopens
      split
      case isTrue hclose =>
        obtain rfl := beq_iff_eq.1 hclose
        split
        case isTrue hd =>
          obtain rfl : d = 0 := by omega
          refine ⟨fun hn => ⟨[], s, rfl, by simpa using hn.symm, enclosed_nil.2 rfl⟩, fun ⟨b, t, hs, hn, hb⟩ => ?_⟩
          cases b with
          | nil => rw [hn]; rfl
          | cons x b =>
            obtain ⟨rfl, hs⟩ := List.cons.inj hs
            have hle := (enclosed_cons.1 hb).2.2 0
            rw [riseStep_close hne] at hle
            simp at hle
        case isFalse hd =>
          obtain ⟨e, rfl⟩ := Nat.exists_eq_add_of_le' (Nat.succ_le_of_lt (show 0 < d by omega))
          exact more (by rw [riseStep_close hne]; omega) (.inl (by omega))
      case isFalse hclose =>
        have hclose : c ≠ close := by simpa using hclose
        exact more (by rw [riseStep, if_neg hopens, if_neg hclose, Int.add_zero]) (.inr hclose)

/-! ### Pairs of parentheses -/

/-- The parentheses at `start` and `stop` are partners: what stands between them closes all it opens and nothing
else. -/
def ParenPair (s : List Char) (start stop : Nat) : Prop :=
  ∃ a b t, s = a ++ '(' :: (b ++ ')' :: t) ∧ start = a.length ∧ stop = a.length + 1 + b.length ∧ Enclosed '(' ')' 0 b

/-- What stands between a parenthesis and a place behind it. -/
theorem slice_between (a b t : List Char) : slice (a ++ '(' :: (b ++ t)) (a.length + 1) (a.length + 1 + b.length) = b :=
  slice_of_drop (r := t) (by rw [List.append_cons, show a.length + 1 = (a ++ ['(']).length by simp, List.drop_left])

variable {o p start stop : Nat}

theorem closingParen?_eq_some_iff : closingParen? s start = some stop ↔ ParenPair s start stop := by
  unfold closingParen?
  refine ⟨fun h => ?_, fun ⟨a, b, t, hs, hstart, hstop, hb⟩ => ?_⟩
  · split at h
    case h_1 r hr =>
      obtain ⟨n, hn, rfl⟩ := Option.map_eq_some_iff.1 h
      obtain ⟨b, t, rfl, rfl, hb⟩ := (closeAfter_eq_some_iff (d := 0) (by decide)).1 hn
      have hlength : start ≤ s.length := by
        refine Nat.le_of_not_lt fun hlt => ?_
        rw [List.drop_eq_nil_of_le (Nat.le_of_lt hlt)] at hr
        cases hr
      have htake : (s.take start).length = start := by rw [List.length_take, Nat.min_eq_left hlength]
      refine ⟨s.take start, b, t, ?_, htake.symm, by omega, hb⟩
      rw [← hr, List.take_append_drop]
    case h_2 => cases h
  · subst hs hstart hstop
    have hclose : closeAfter '(' ')' (0 + 1) (b ++ ')' :: t) = some (b.length + 1) :=
      (closeAfter_eq_some_iff (by decide)).2 ⟨b, t, rfl, rfl, hb⟩
    rw [List.drop_left]
    simp only [show closeAfter '(' ')' 1 (b ++ ')' :: t) = some (b.length + 1) from hclose, Option.map_some]
    congr 1
    omega

theorem openingParen?_eq_some_iff : openingParen? s stop = some start ↔ ParenPair s start stop := by
  unfold openingParen?
  refine ⟨fun h => ?_, fun ⟨a, b, t, hs, hstart, hstop, hb⟩ => ?_⟩
  · split at h
    case h_1 t ht =>
      obtain ⟨n, hn, rfl⟩ := Option.map_eq_some_iff.1 h
      obtain ⟨b, a, hs, rfl, hb⟩ := (closeAfter_eq_some_iff (d := 0) (by decide)).1 hn
      have htake : s.take stop = a.reverse ++ '(' :: b.reverse := by simpa using congrArg List.reverse hs
      have hlength : stop ≤ s.length := by
        refine Nat.le_of_not_lt fun hlt => ?_
        rw [List.drop_eq_nil_of_le (Nat.le_of_lt hlt)] at ht
        cases ht
      have hstop : stop = a.length + 1 + b.length := by
        have := congrArg List.length htake
        simp only [List.length_take, Nat.min_eq_left hlength, List.length_append, List.length_cons, List.length_reverse]
          at this
        omega
      refine ⟨a.reverse, b.reverse, t, ?_, ?_, ?_, hb.reverse (by decide)⟩
      · calc s = s.take stop ++ s.drop stop := (List.take_append_drop stop s).symm
          _ = a.reverse ++ '(' :: (b.reverse ++ ')' :: t) := by rw [htake, ht, List.append_assoc, List.cons_append]
      · rw [List.length_reverse]
        omega
      · rw [List.length_reverse, List.length_reverse, hstop]
    case h_2 => cases h
  · have hs' : s = (a ++ '(' :: b) ++ ')' :: t := by rw [hs]; simp
    have hstop' : stop = (a ++ '(' :: b).length := by rw [hstop, List.length_append, List.length_cons]; omega
    have hclose : closeAfter ')' '(' (0 + 1) (a ++ '(' :: b).reverse = some (b.length + 1) :=
      (closeAfter_eq_some_iff (by decide)).2
        ⟨b.reverse, a.reverse, by simp, by rw [List.length_reverse], hb.reverse (by decide)⟩
    rw [hs', hstop', List.drop_left, List.take_left]
    simp only [show closeAfter ')' '(' 1 (a ++ '(' :: b).reverse = some (b.length + 1) from hclose, Option.map_some]
    rw [hstart, List.length_append, List.length_cons]
    congr 1
    omega

/-- How many more parentheses are opened than closed before a place. -/
def heightAt (s : List Char) (place : Nat) : Int := rise '(' ')' (s.take place)

namespace ParenPair

theorem lt (h : ParenPair s start stop) : start < stop := by
  obtain ⟨a, b, t, -, rfl, rfl, -⟩ := h
  omega

theorem at_start (h : ParenPair s start stop) : s[start]? = some '(' := by
  obtain ⟨a, b, t, rfl, rfl, rfl, -⟩ := h
  simp

theorem at_stop (h : ParenPair s start stop) : s[stop]? = some ')' := by
  obtain ⟨a, b, t, rfl, rfl, rfl, -⟩ := h
  rw [List.getElem?_append_right (by omega), show a.length + 1 + b.length - a.length = b.length + 1 by omega,
    List.getElem?_cons_succ, List.getElem?_append_right (Nat.le_refl _)]
  simp

/-- The text is higher between two partners than before them, and as high behind them as before. -/
theorem heights (h : ParenPair s start stop) : heightAt s (stop + 1) = heightAt s start ∧
    ∀ place, start < place → place ≤ stop → heightAt s start < heightAt s place := by
  obtain ⟨a, b, t, rfl, rfl, rfl, hsum, hall⟩ := h
  have hstart : heightAt (a ++ '(' :: (b ++ ')' :: t)) a.length = rise '(' ')' a := by rw [heightAt, List.take_left]
  have hbehind (k : Nat) : (a ++ '(' :: (b ++ ')' :: t)).take (a.length + 1 + k) =
      a ++ '(' :: (b ++ ')' :: t).take k := by
    rw [Nat.add_assoc, List.take_length_add_append, Nat.add_comm 1 k, List.take_succ_cons]
  rw [hstart]
  refine ⟨?_, fun place hlt hle => ?_⟩
  · rw [heightAt, Nat.add_assoc, hbehind, List.take_length_add_append]
    simp [riseStep_close (show '(' ≠ ')' by decide)]
    omega
  · obtain ⟨k, rfl⟩ := Nat.exists_eq_add_of_le (Nat.succ_le_of_lt hlt)
    rw [heightAt, hbehind, List.take_append_of_le_length (by omega)]
    have := hall k
    simp
    omega

theorem stop_unique (h : ParenPair s start stop) (h' : ParenPair s start p) : stop = p :=
  Option.some.inj ((closingParen?_eq_some_iff.2 h).symm.trans (closingParen?_eq_some_iff.2 h'))

theorem start_unique (h : ParenPair s start stop) (h' : ParenPair s o stop) : start = o :=
  Option.some.inj ((openingParen?_eq_some_iff.2 h).symm.trans (openingParen?_eq_some_iff.2 h'))

/-- Of two pairs that begin at different places, the later one ends before the earlier one does, or begins behind
it. -/
theorem nested_or_behind (h : ParenPair s start stop) (h' : ParenPair s o p) (hlt : start < o) :
    stop < o ∨ p < stop := by
  obtain ⟨hend, hhigher⟩ := h.heights
  obtain ⟨-, hhigher'⟩ := h'.heights
  have hne : o ≠ stop := by
    rintro rfl
    have := h'.at_start.symm.trans h.at_stop
    cases this
  refine Classical.or_iff_not_imp_left.2 fun hin => Nat.lt_of_not_le fun hle => ?_
  have hbelow := hhigher o hlt (by omega)
  rcases Nat.eq_or_lt_of_le hle with rfl | hover
  · exact absurd (h.start_unique h') (Nat.ne_of_lt hlt)
  · -- Behind the earlier pair the text is as low as before it, and that is lower than the later pair allows.
    have := hhigher' (stop + 1) (by omega) hover
    omega

end ParenPair

/-! ### Edits of parameter lists -/

/-- The edit stands between partners, and puts there what is left of the list without its annotations. -/
structure ParameterEdit.Fits (s : List Char) (e : ParameterEdit) : Prop where
  pair : ParenPair s e.start e.stop
  list : stripParameterTypes (slice s (e.start + 1) e.stop) = some e.replacement

variable {e : ParameterEdit}

theorem parameterEdits_fit (h : e ∈ parameterEdits s) : e.Fits s := by
  have hedit {start stop : Nat} (he : parameterEdit? s start stop = some e) (hpair : ParenPair s start stop) :
      e.Fits s := by
    obtain ⟨r, hr, rfl⟩ := Option.map_eq_some_iff.1 he
    exact ⟨hpair, hr⟩
  unfold parameterEdits at h
  rcases List.mem_append.1 h with h | h
  · obtain ⟨m, -, hm⟩ := List.mem_filterMap.1 h
    obtain ⟨start, hstart, he⟩ := Option.bind_eq_some_iff.1 hm
    exact hedit he (openingParen?_eq_some_iff.1 hstart)
  · obtain ⟨m, -, hm⟩ := List.mem_filterMap.1 h
    obtain ⟨stop, hstop, he⟩ := Option.bind_eq_some_iff.1 hm
    exact hedit he (closingParen?_eq_some_iff.1 hstop)

end LivePreview.Source
