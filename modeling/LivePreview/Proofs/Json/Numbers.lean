import Mathlib.Data.List.TakeWhile
import LivePreview.Json.Parser

/-! White space, words and numbers in JSON text.

A number has no end of its own: what stands behind it must be something that no number goes on with, and in a list or
at the end of a text it always is. In front of that, the reader takes every number as a whole and takes nothing else
for one. -/
namespace LivePreview.Json

variable {s r w : List Char}

/-! ### White space -/

/-- White space between tokens. -/
def Space (w : List Char) : Prop := ∀ c ∈ w, isJsonSpace c = true

theorem skipSpace_append (hw : Space w) : skipSpace (w ++ s) = skipSpace s := List.dropWhile_append_of_pos hw

theorem skipSpace_cons {c : Char} (hc : isJsonSpace c = false) : skipSpace (c :: s) = c :: s := by
  rw [skipSpace, List.dropWhile_cons, hc]
  rfl

theorem exists_skipSpace (s : List Char) : ∃ w, Space w ∧ s = w ++ skipSpace s :=
  ⟨s.takeWhile isJsonSpace, fun _ hc => List.mem_takeWhile_imp hc, List.takeWhile_append_dropWhile.symm⟩

/-- The characters that stand behind a value. -/
def delimiters : List Char := [' ', '\n', '\t', '\r', ',', ']', '}']

/-- Nothing is left, or something that no value goes on with. -/
def Delimited (r : List Char) : Prop := ∀ c ∈ r.head?, c ∈ delimiters

theorem delimited_append {c : Char} (hw : Space w) (hc : c ∈ delimiters) : Delimited (w ++ c :: r) := by
  cases w with
  | nil => exact fun d hd => Option.mem_some_iff.1 hd ▸ hc
  | cons b w =>
    have hb := hw b List.mem_cons_self
    simp only [isJsonSpace, Bool.or_eq_true, beq_iff_eq] at hb
    refine fun d hd => Option.mem_some_iff.1 hd ▸ ?_
    rcases hb with ((rfl | rfl) | rfl) | rfl <;> decide

/-! ### Words and numbers -/

theorem word?_iff {word : String} : word? word s = some r ↔ s = word.toList ++ r := by
  unfold word?
  split
  · next h =>
    obtain ⟨t, rfl⟩ := List.isPrefixOf_iff_prefix.1 h
    simp [← String.length_toList]
  · next h =>
    refine ⟨fun hno => (nomatch hno), fun hs => absurd ?_ h⟩
    exact List.isPrefixOf_iff_prefix.2 ⟨r, hs.symm⟩

def Digits (d : List Char) : Prop := d ≠ [] ∧ ∀ c ∈ d, Text.isDigit c = true

/-- A whole number has no zero in front of its other digits. -/
def Whole (d : List Char) : Prop := Digits d ∧ (d.head? = some '0' → d.length = 1)

def Fraction (s : List Char) : Prop := s = [] ∨ ∃ d, s = '.' :: d ∧ Digits d

def Exponent (s : List Char) : Prop :=
  s = [] ∨ ∃ mark sign d, s = mark :: (sign ++ d) ∧ (mark = 'e' ∨ mark = 'E') ∧ sign ∈ [[], ['-'], ['+']] ∧ Digits d

def NumberText (s r : List Char) : Prop :=
  ∃ sign whole fraction exponent, s = sign ++ (whole ++ (fraction ++ (exponent ++ r))) ∧
    (sign = [] ∨ sign = ['-']) ∧ Whole whole ∧ Fraction fraction ∧ Exponent exponent

/-- Digits are read up to what is none. -/
theorem span_digits {d : List Char} (hd : ∀ c ∈ d, Text.isDigit c = true) (hr : ∀ c ∈ r.head?, Text.isDigit c = false) :
    (d ++ r).takeWhile Text.isDigit = d ∧ (d ++ r).dropWhile Text.isDigit = r := by
  rw [List.takeWhile_append_of_pos hd, List.dropWhile_append_of_pos hd]
  cases r with
  | nil => simp
  | cons c r => simp [hr c rfl]

theorem isDigit_of_takeWhile (s : List Char) : ∀ c ∈ s.takeWhile Text.isDigit, Text.isDigit c = true :=
  fun _ hc => List.mem_takeWhile_imp hc

theorem exponent_of_exponent? {power : Option Int} (h : exponent? s = some (power, r)) :
    ∃ e, s = e ++ r ∧ Exponent e := by
  unfold exponent? at h
  split at h
  · next c t =>
    split at h
    · next hmark =>
      have hsigned (sign : List Char) {u : List Char} {power' : Option Int} (ht : t = sign ++ u)
          (hs : sign ∈ [[], ['-'], ['+']])
          (hu : (if (u.takeWhile Text.isDigit).isEmpty then none else some (power', u.dropWhile Text.isDigit)) =
            some (power, r)) : ∃ e, c :: t = e ++ r ∧ Exponent e := by
        split at hu
        · cases hu
        · next hdigits =>
          obtain ⟨-, hr⟩ := Prod.mk.inj (Option.some.inj hu)
          refine ⟨c :: (sign ++ u.takeWhile Text.isDigit), ?_, .inr ⟨c, sign, _, rfl, by simpa using hmark, hs,
            by simpa using hdigits, isDigit_of_takeWhile u⟩⟩
          rw [ht, ← hr]
          simp [List.takeWhile_append_dropWhile]
      simp only at h
      split at h
      · exact hsigned ['-'] rfl (by simp) h
      · exact hsigned ['+'] rfl (by simp) h
      · exact hsigned [] rfl (by simp) h
    · obtain ⟨-, rfl⟩ := Prod.mk.inj (Option.some.inj h)
      exact ⟨[], rfl, .inl rfl⟩
  · obtain ⟨-, rfl⟩ := Prod.mk.inj (Option.some.inj h)
    exact ⟨[], rfl, .inl rfl⟩

/-- No number goes on with a delimiter. -/
theorem not_mem_number {c : Char} (hc : c ∈ delimiters) :
    Text.isDigit c = false ∧ c ≠ '.' ∧ (c == 'e' || c == 'E') = false := by
  simp only [delimiters, List.mem_cons, List.not_mem_nil, or_false] at hc
  rcases hc with rfl | rfl | rfl | rfl | rfl | rfl | rfl <;> decide

theorem Delimited.not_digit (hr : Delimited r) : ∀ c ∈ r.head?, Text.isDigit c = false := fun c hc =>
  (not_mem_number (hr c hc)).1

theorem exponent?_of_exponent {e : List Char} (h : Exponent e) (hr : Delimited r) :
    ∃ power, exponent? (e ++ r) = some (power, r) := by
  rcases h with rfl | ⟨mark, sign, d, rfl, hmark, hsign, hd, hdigits⟩
  · cases r with
    | nil => exact ⟨none, rfl⟩
    | cons c r =>
      have hc : (c == 'e' || c == 'E') = false := (not_mem_number (hr c rfl)).2.2
      simp [exponent?, hc]
  · obtain ⟨htake, hdrop⟩ := span_digits hdigits hr.not_digit
    have hmark : (mark == 'e' || mark == 'E') = true := by simpa using hmark
    simp only [List.mem_cons, List.not_mem_nil, or_false] at hsign
    rcases hsign with rfl | rfl | rfl
    · obtain ⟨c, t, rfl⟩ := List.exists_cons_of_ne_nil hd
      have hminus : c ≠ '-' := fun h => absurd (h ▸ hdigits c List.mem_cons_self) (by decide)
      have hplus : c ≠ '+' := fun h => absurd (h ▸ hdigits c List.mem_cons_self) (by decide)
      simp only [List.cons_append, List.nil_append] at htake hdrop ⊢
      simp [exponent?, hmark, htake, hdrop, hminus, hplus]
    · simp [exponent?, hmark, htake, hdrop, hd]
    · simp [exponent?, hmark, htake, hdrop, hd]

/-- An exponent and what ends a number begin with no digit and no point. -/
theorem exponent_head {exponent : List Char} (h : Exponent exponent) (hr : Delimited r) :
    ∀ c ∈ (exponent ++ r).head?, Text.isDigit c = false ∧ c ≠ '.' := by
  rcases h with rfl | ⟨mark, sign, d, rfl, rfl | rfl, -⟩
  · exact fun c hc => (not_mem_number (hr c hc)).imp_right And.left
  · exact fun c hc => Option.mem_some_iff.1 hc ▸ by decide
  · exact fun c hc => Option.mem_some_iff.1 hc ▸ by decide

/-- A number without its sign. -/
def Unsigned (s r : List Char) : Prop :=
  ∃ whole fraction exponent, s = whole ++ (fraction ++ (exponent ++ r)) ∧ Whole whole ∧ Fraction fraction ∧
    Exponent exponent

/-- Reads what is left of a number after its sign. -/
def skipUnsigned? (s : List Char) : Option (List Char) :=
  let digits := s.takeWhile Text.isDigit
  if digits.isEmpty || (digits.head? == some '0' && 1 < digits.length) then none
  else
    let fraction? := match s.dropWhile Text.isDigit with
      | '.' :: r => if (r.takeWhile Text.isDigit).isEmpty then none else some (r.dropWhile Text.isDigit)
      | r => some r
    fraction?.bind fun r => (exponent? r).map (·.2)

theorem skipNumber?_sign (s : List Char) : skipNumber? ('-' :: s) = skipUnsigned? s := rfl

theorem skipNumber?_unsigned (hs : s.head? ≠ some '-') : skipNumber? s = skipUnsigned? s := by
  unfold skipNumber?
  split
  · exact absurd rfl hs
  · rfl

theorem unsigned_of_skipUnsigned? (h : skipUnsigned? s = some r) : Unsigned s r := by
  unfold skipUnsigned? at h
  simp only at h
  split at h
  · cases h
  · next hwhole =>
    simp only [Bool.or_eq_true, Bool.and_eq_true, not_or, not_and, decide_eq_true_eq, beq_iff_eq] at hwhole
    have hwhole : Whole (s.takeWhile Text.isDigit) := by
      refine ⟨⟨by simpa using hwhole.1, isDigit_of_takeWhile s⟩, fun hzero => ?_⟩
      have hpos := List.length_pos_iff.2 (show s.takeWhile Text.isDigit ≠ [] by simpa using hwhole.1)
      exact Nat.le_antisymm (Nat.not_lt.1 (hwhole.2 hzero)) hpos
    obtain ⟨t, ht, h⟩ := Option.bind_eq_some_iff.1 h
    obtain ⟨⟨power, u⟩, hpower, rfl⟩ := Option.map_eq_some_iff.1 h
    obtain ⟨exponent, rfl, hexponent⟩ := exponent_of_exponent? hpower
    have hfraction : ∃ fraction, s.dropWhile Text.isDigit = fraction ++ (exponent ++ u) ∧ Fraction fraction := by
      split at ht
      · next v hv =>
        split at ht
        · cases ht
        · next hd =>
          obtain ht := Option.some.inj ht
          refine ⟨'.' :: v.takeWhile Text.isDigit, ?_, .inr ⟨_, rfl, by simpa using hd, isDigit_of_takeWhile v⟩⟩
          rw [hv, ← ht, List.cons_append, List.takeWhile_append_dropWhile]
      · exact ⟨[], Option.some.inj ht, .inl rfl⟩
    obtain ⟨fraction, hdrop, hfraction⟩ := hfraction
    exact ⟨_, fraction, exponent, by rw [← hdrop, List.takeWhile_append_dropWhile], hwhole, hfraction, hexponent⟩

theorem skipUnsigned?_of_unsigned (h : Unsigned s r) (hr : Delimited r) : skipUnsigned? s = some r := by
  obtain ⟨whole, fraction, exponent, rfl, ⟨⟨hne, hdigits⟩, hzero⟩, hfraction, hexponent⟩ := h
  have hhead := exponent_head hexponent hr
  obtain ⟨power, hpower⟩ := exponent?_of_exponent hexponent hr
  have hrest : ∀ c ∈ (fraction ++ (exponent ++ r)).head?, Text.isDigit c = false := by
    rcases hfraction with rfl | ⟨d, rfl, -⟩
    · exact fun c hc => (hhead c hc).1
    · exact fun c hc => Option.mem_some_iff.1 hc ▸ rfl
  obtain ⟨htake, hdrop⟩ := span_digits hdigits hrest
  have hwhole : (whole.isEmpty || (whole.head? == some '0' && decide (1 < whole.length))) = false := by
    simp only [Bool.or_eq_false_iff, Bool.and_eq_false_imp, beq_iff_eq, decide_eq_false_iff_not]
    exact ⟨by simpa using hne, fun h => by simp [hzero h]⟩
  rw [skipUnsigned?, htake, hdrop, hwhole]
  rcases hfraction with rfl | ⟨d, rfl, hd, hdigits'⟩
  · have hpoint : ∀ t, exponent ++ r ≠ '.' :: t := fun t ht => (hhead '.' (by simp [ht])).2 rfl
    simp [hpower]
  · obtain ⟨htake', hdrop'⟩ := span_digits hdigits' fun c hc => (hhead c hc).1
    simp [htake', hdrop', hd, hpower]

theorem numberText_of_skipNumber? (h : skipNumber? s = some r) : NumberText s r := by
  by_cases hs : s.head? = some '-'
  · obtain ⟨t, rfl⟩ := List.head?_eq_some_iff.1 hs
    obtain ⟨whole, fraction, exponent, rfl, hparts⟩ := unsigned_of_skipUnsigned? ((skipNumber?_sign t).symm.trans h)
    exact ⟨['-'], whole, fraction, exponent, rfl, .inr rfl, hparts⟩
  · obtain ⟨whole, fraction, exponent, rfl, hparts⟩ :=
      unsigned_of_skipUnsigned? ((skipNumber?_unsigned hs).symm.trans h)
    exact ⟨[], whole, fraction, exponent, rfl, .inl rfl, hparts⟩

/-- A number begins with what no other token begins with. -/
theorem NumberText.exists_cons (h : NumberText s r) :
    ∃ c t, s = c :: t ∧ isJsonSpace c = false ∧ c ∉ ['[', ']', '{', '"', 'n', 't', 'f'] := by
  obtain ⟨sign, whole, fraction, exponent, rfl, hsign, ⟨⟨hne, hdigits⟩, -⟩, -⟩ := h
  obtain ⟨c, t, rfl⟩ := List.exists_cons_of_ne_nil hne
  rcases hsign with rfl | rfl
  · have hc := hdigits c List.mem_cons_self
    refine ⟨c, _, rfl, Bool.eq_false_iff.2 fun hspace => ?_, fun hmem => ?_⟩
    · simp only [isJsonSpace, Bool.or_eq_true, beq_iff_eq] at hspace
      rcases hspace with ((rfl | rfl) | rfl) | rfl <;> exact absurd hc (by decide)
    · simp only [List.mem_cons, List.not_mem_nil, or_false] at hmem
      rcases hmem with rfl | rfl | rfl | rfl | rfl | rfl | rfl <;> exact absurd hc (by decide)
  · exact ⟨'-', _, rfl, by decide, by decide⟩

theorem NumberText.length_lt (h : NumberText s r) : r.length < s.length := by
  obtain ⟨sign, whole, fraction, exponent, rfl, -, ⟨⟨hne, -⟩, -⟩, -⟩ := h
  have := List.length_pos_iff.2 hne
  simp only [List.length_append]
  omega

theorem skipNumber?_of_numberText (h : NumberText s r) (hr : Delimited r) : skipNumber? s = some r := by
  obtain ⟨sign, whole, fraction, exponent, rfl, hsign, hparts⟩ := h
  have hread := skipUnsigned?_of_unsigned ⟨whole, fraction, exponent, rfl, hparts⟩ hr
  rcases hsign with rfl | rfl
  · obtain ⟨⟨hne, hdigits⟩, -⟩ := hparts.1
    obtain ⟨c, t, rfl⟩ := List.exists_cons_of_ne_nil hne
    have hc : c ≠ '-' := fun h => absurd (h ▸ hdigits c List.mem_cons_self) (by decide)
    exact (skipNumber?_unsigned (by simpa using hc)).trans hread
  · exact (skipNumber?_sign _).trans hread

end LivePreview.Json
