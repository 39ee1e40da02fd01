import LivePreview.Json.Parser
import LivePreview.Json.Printer

/-! Strings in JSON text.

What a string spells is told by derivations, each relating a text to what stands at its start and to the rest of the
text. The reader finds a derivation where there is one and nothing else, so that what it gives depends on the text
alone and not on how far it was allowed to look. What the printer writes has a derivation as well. -/
namespace LivePreview.Json

variable {careful : Bool} {s r : List Char} {c : Char}

/-! ### What strings spell -/

/-- Four hexadecimal digits and the number they stand for. -/
def HexWord (s : List Char) (n : Nat) (r : List Char) : Prop :=
  ∃ w, s = w ++ r ∧ w.length = 4 ∧ Text.number? 16 w = some n

/-- Half of a surrogate pair. -/
def Half (n : Nat) : Prop := 0xD800 ≤ n ∧ n ≤ 0xDFFF

theorem not_half {n : Nat} : ¬ Half n ↔ n < 0xD800 ∨ 0xDFFF < n := by
  unfold Half
  omega

/-- The escapes of one character after the backslash. -/
def shortEscapes : List (Char × Char) :=
  [('"', '"'), ('\\', '\\'), ('/', '/'), ('b', '\x08'), ('f', '\x0c'), ('n', '\n'), ('r', '\r'), ('t', '\t')]

/-- An escape after its backslash. A surrogate half has to be followed by its other half, unless nobody cares. -/
inductive Escape : Bool → List Char → Char → List Char → Prop
  | short {careful : Bool} {x c : Char} {r : List Char} (h : (x, c) ∈ shortEscapes) : Escape careful (x :: r) c r
  | unit {careful : Bool} {s r : List Char} {n : Nat} (h : HexWord s n r) (hn : ¬ Half n) :
    Escape careful ('u' :: s) (Char.ofNat n) r
  | pair {s t r : List Char} {n m : Nat} (h : HexWord s n ('\\' :: 'u' :: t)) (h' : HexWord t m r) (hn : Half n)
    (hfirst : n < 0xDC00) (hm : Half m) (hsecond : 0xDC00 ≤ m) :
    Escape true ('u' :: s) (Char.ofNat (0x10000 + (n - 0xD800) * 0x400 + (m - 0xDC00))) r
  | half {s r : List Char} {n : Nat} (h : HexWord s n r) (hn : Half n) : Escape false ('u' :: s) '\uFFFD' r

/-- The characters of a string up to its closing quote. -/
inductive StringTail (careful : Bool) : List Char → List Char → List Char → Prop
  | close {r : List Char} : StringTail careful ('"' :: r) [] r
  | plain {c : Char} {s cs r : List Char} (hquote : c ≠ '"') (hslash : c ≠ '\\') (hc : 0x20 ≤ c.toNat)
    (h : StringTail careful s cs r) : StringTail careful (c :: s) (c :: cs) r
  | escape {c : Char} {s t cs r : List Char} (hc : Escape careful s c t) (h : StringTail careful t cs r) :
    StringTail careful ('\\' :: s) (c :: cs) r

/-- A string in quotes. -/
def StringText (careful : Bool) (s : List Char) (t : String) (r : List Char) : Prop :=
  ∃ tail, s = '"' :: tail ∧ StringTail careful tail t.toList r

/-! ### Reading -/

theorem hexWord?_append {w : List Char} (hw : w.length = 4) (r : List Char) :
    hexWord? (w ++ r) = (Text.number? 16 w).map fun n => (n, r) := by
  match w, hw with
  | [a, b, c, d], _ =>
  simp only [hexWord?, Text.number?, List.cons_append, List.nil_append, List.foldlM, List.isEmpty_cons]
  cases Text.hexValue? a <;> cases Text.hexValue? b <;> cases Text.hexValue? c <;> cases Text.hexValue? d <;>
    simp
  omega

theorem hexWord?_iff {n : Nat} : hexWord? s = some (n, r) ↔ HexWord s n r := by
  constructor
  · intro h
    have hlength : 4 ≤ s.length := by
      unfold hexWord? at h
      split at h
      · simp
      · cases h
    have hw : (s.take 4).length = 4 := List.length_take_of_le hlength
    rw [← List.take_append_drop 4 s, hexWord?_append hw] at h
    obtain ⟨m, hm, hmr⟩ := Option.map_eq_some_iff.1 h
    obtain ⟨rfl, hr⟩ := Prod.mk.inj hmr
    exact ⟨s.take 4, by rw [← hr, List.take_append_drop], hw, hm⟩
  · rintro ⟨w, rfl, hw, hn⟩
    rw [hexWord?_append hw, hn]
    rfl

theorem HexWord.length_lt {n : Nat} (h : HexWord s n r) : r.length < s.length := by
  obtain ⟨w, rfl, hw, -⟩ := h
  simp [hw]

theorem Escape.length_lt (h : Escape careful s c r) : r.length < s.length := by
  cases h with
  | short => exact Nat.lt_succ_self _
  | unit h | half h => exact Nat.lt_succ_of_lt h.length_lt
  | pair h h' =>
    have := h.length_lt
    have := h'.length_lt
    simp only [List.length_cons] at *
    omega

theorem StringTail.length_lt {cs : List Char} (h : StringTail careful s cs r) : r.length < s.length := by
  induction h with
  | close => exact Nat.lt_succ_self _
  | plain _ _ _ _ ih => exact Nat.lt_succ_of_lt ih
  | escape hc _ ih => exact Nat.lt_succ_of_lt (Nat.lt_trans ih hc.length_lt)

theorem StringText.length_lt {t : String} (h : StringText careful s t r) : r.length < s.length := by
  obtain ⟨tail, rfl, h⟩ := h
  exact Nat.lt_succ_of_lt h.length_lt

theorem escape?_of_escape (h : Escape careful s c r) : escape? careful s = some (c, r) := by
  cases h with
  | short h =>
    simp only [shortEscapes, List.mem_cons, Prod.mk.injEq, List.not_mem_nil, or_false] at h
    rcases h with ⟨rfl, rfl⟩ | ⟨rfl, rfl⟩ | ⟨rfl, rfl⟩ | ⟨rfl, rfl⟩ | ⟨rfl, rfl⟩ | ⟨rfl, rfl⟩ | ⟨rfl, rfl⟩ |
      ⟨rfl, rfl⟩ <;> rfl
  | unit h hn => simp [escape?, hexWord?_iff.2 h, not_half.1 hn]
  | pair h h' hn hfirst hm hsecond =>
    simp [escape?, hexWord?_iff.2 h, hexWord?_iff.2 h', ← not_half, hn, Nat.not_le.2 hfirst, hsecond, hm.2]
  | half h hn => simp [escape?, hexWord?_iff.2 h, ← not_half, hn]

theorem escape_of_escape? (h : escape? careful s = some (c, r)) : Escape careful s c r := by
  unfold escape? at h
  split at h
  case h_9 s =>
    obtain ⟨⟨n, t⟩, hword, h⟩ := Option.bind_eq_some_iff.1 h
    have hword := hexWord?_iff.1 hword
    simp only at h
    cases careful with
    | false =>
      obtain ⟨rfl, rfl⟩ := Prod.mk.inj (Option.some.inj h)
      split
      · next hn => exact .unit hword (not_half.2 (by simpa using hn))
      · next hn => exact .half hword (by simpa [← not_half] using hn)
    | true =>
      simp only [Bool.not_true, Bool.false_eq_true, ↓reduceIte] at h
      split at h
      · next hn =>
        obtain ⟨rfl, rfl⟩ := Prod.mk.inj (Option.some.inj h)
        exact .unit hword (not_half.2 (by simpa using hn))
      · next hn =>
        split at h
        · cases h
        · next hfirst =>
          split at h
          · obtain ⟨⟨m, u⟩, hword', h⟩ := Option.bind_eq_some_iff.1 h
            split at h
            · next hm =>
              obtain ⟨rfl, rfl⟩ := Prod.mk.inj (Option.some.inj h)
              have hm : 0xDC00 ≤ m ∧ m ≤ 0xDFFF := by simpa using hm
              have hn : Half n := Classical.not_not.1 fun hno => hn (by simpa using not_half.1 hno)
              exact .pair hword (hexWord?_iff.1 hword') hn (Nat.not_le.1 hfirst) ⟨by omega, hm.2⟩ hm.1
            · cases h
          · cases h
  all_goals first
    | (cases h; done)
    | (obtain ⟨rfl, rfl⟩ := Prod.mk.inj (Option.some.inj h); exact .short (by simp [shortEscapes]))

theorem stringTail?_of_stringTail {cs : List Char} (h : StringTail careful s cs r) {fuel : Nat}
    (hfuel : s.length < fuel) : stringTail? careful fuel s = some (cs, r) := by
  obtain ⟨fuel, rfl⟩ : ∃ m, fuel = m + 1 := ⟨fuel - 1, by omega⟩
  induction h generalizing fuel with
  | close => rfl
  | @plain c s cs r hquote hslash hc h ih =>
    obtain ⟨fuel, rfl⟩ : ∃ m, fuel = m + 1 := ⟨fuel - 1, by simp only [List.length_cons] at hfuel; omega⟩
    have hrest := ih fuel (Nat.lt_of_succ_lt_succ hfuel)
    rw [stringTail?, if_neg (Nat.not_lt.2 hc), hrest]
    · rfl
    · exact hquote
    · exact hslash
  | escape hc h ih =>
    have hlength := hc.length_lt
    obtain ⟨fuel, rfl⟩ : ∃ m, fuel = m + 1 := ⟨fuel - 1, by simp only [List.length_cons] at hfuel; omega⟩
    have hrest := ih fuel (by simp only [List.length_cons] at hfuel; omega)
    rw [stringTail?, escape?_of_escape hc]
    simp [hrest]

theorem stringTail_of_stringTail? {cs : List Char} {fuel : Nat} (h : stringTail? careful fuel s = some (cs, r)) :
    StringTail careful s cs r := by
  induction fuel generalizing s cs with
  | zero => cases h
  | succ fuel ih =>
    rw [stringTail?.eq_def] at h
    simp only at h
    split at h
    · cases h
    · obtain ⟨rfl, rfl⟩ := Prod.mk.inj (Option.some.inj h)
      exact .close
    · obtain ⟨⟨c, t⟩, hc, h⟩ := Option.bind_eq_some_iff.1 h
      obtain ⟨⟨ds, u⟩, hds, h⟩ := Option.bind_eq_some_iff.1 h
      obtain ⟨rfl, rfl⟩ := Prod.mk.inj (Option.some.inj h)
      exact .escape (escape_of_escape? hc) (ih hds)
    · next c t hquote hslash =>
      split at h
      · cases h
      · next hc =>
        obtain ⟨⟨ds, u⟩, hds, h⟩ := Option.bind_eq_some_iff.1 h
        obtain ⟨rfl, rfl⟩ := Prod.mk.inj (Option.some.inj h)
        exact .plain hquote hslash (Nat.not_lt.1 hc) (ih hds)

/-- **A string is read as what it spells, and nothing else is read as a string.** -/
theorem string?_iff {t : String} : string? careful s = some (t, r) ↔ StringText careful s t r := by
  constructor
  · intro h
    unfold string? at h
    split at h
    · next tail =>
      obtain ⟨⟨cs, u⟩, hcs, h⟩ := Option.map_eq_some_iff.1 h
      obtain ⟨rfl, rfl⟩ := Prod.mk.inj h
      exact ⟨tail, rfl, by rw [String.toList_ofList]; exact stringTail_of_stringTail? hcs⟩
    · cases h
  · rintro ⟨tail, rfl, h⟩
    rw [string?, stringTail?_of_stringTail h (Nat.lt_succ_self _), Option.map_some]
    simp

/-! ### Writing -/

/-- A control character is written as four digits that stand for it. -/
theorem hexWord_control {n : Nat} (hn : n < 0x20) (r : List Char) :
    HexWord ('0' :: '0' :: hexDigit (n / 16) :: hexDigit (n % 16) :: r) n r := by
  have hdigits : ∀ n < 0x20, Text.number? 16 ['0', '0', hexDigit (n / 16), hexDigit (n % 16)] = some n := by decide
  exact ⟨_, rfl, rfl, hdigits n hn⟩

/-- **A character is written as something that spells it.** -/
theorem stringTail_escapeChar {cs : List Char} (h : StringTail true s cs r) (c : Char) :
    StringTail true (escapeChar c ++ s) (c :: cs) r := by
  unfold escapeChar
  split
  case h_8 hquote hslash _ _ _ _ _ =>
    split
    · next hc =>
      have hword := hexWord_control hc s
      have hnot : ¬ Half c.toNat := not_half.2 (.inl (by omega))
      have hescape : Escape true _ (Char.ofNat c.toNat) s := .unit hword hnot
      simpa using StringTail.escape hescape h
    · next hc => exact .plain hquote hslash (Nat.not_lt.1 hc) h
  all_goals exact .escape (.short (by simp [shortEscapes])) h

theorem stringText_quote (t : String) (r : List Char) : StringText true (quote t.toList ++ r) t r := by
  refine ⟨t.toList.flatMap escapeChar ++ '"' :: r, by simp [quote], ?_⟩
  induction t.toList with
  | nil => exact .close
  | cons c cs ih =>
    rw [List.flatMap_cons, List.append_assoc]
    exact stringTail_escapeChar ih c

end LivePreview.Json
