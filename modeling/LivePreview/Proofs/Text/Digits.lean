import LivePreview.Text.Digits

/-! Numbers in decimal. A number in front of something that is no digit can be read back. -/
namespace LivePreview.Text
variable {i j : Nat} {c : Char} {s t u : List Char}

theorem isDigit_of_mem (h : c ∈ (toString i).toList) : isDigit c = true := by
  have hdigit : c.isDigit = true := by
    rw [Nat.toString_eq_repr, Nat.toList_repr] at h
    exact Nat.isDigit_of_mem_toDigits (by omega) (by omega) h
  simpa [isDigit, Char.isDigit, Char.le_def] using hdigit

theorem toString_inj (h : (toString i).toList = (toString j).toList) : i = j := by
  simp only [Nat.toString_eq_repr, Nat.toList_repr] at h
  simpa using congrArg (fun digits => Nat.ofDigitChars 10 digits 0) h

/-- A text that begins, with something else than a digit: a number in front of it ends there. -/
def Stops (s : List Char) : Prop := ∃ c r, s = c :: r ∧ isDigit c = false

theorem Stops.not_mem (h : Stops (c :: s)) : c ∉ (toString i).toList := by
  obtain ⟨_, _, hs, hc⟩ := h
  cases hs
  exact fun hm => absurd (isDigit_of_mem hm) (by simp [hc])

/-- A number begins with a digit. -/
theorem not_stops : ¬ Stops ((toString i).toList ++ s) := by
  cases h : (toString i).toList with
  | nil => exact absurd h (by simp [Nat.toString_eq_repr, Nat.toList_repr, Nat.toDigits_ne_nil])
  | cons c r => exact fun hs => hs.not_mem (h ▸ List.mem_cons_self)

/-- No cut at which a number ends goes through a number. -/
theorem toString_cut (h : (toString i).toList ++ s = u ++ t) (ht : Stops t) :
    ∃ v, u = (toString i).toList ++ v ∧ s = v ++ t := by
  rcases List.append_eq_append_iff.1 h with ⟨v, hu, hs⟩ | ⟨v, hi, rfl⟩
  · exact ⟨v, hu, hs⟩
  · cases v with
    | nil => exact ⟨[], by rw [hi, List.append_nil, List.append_nil], rfl⟩
    | cons c v => exact absurd (hi ▸ List.mem_append_right u List.mem_cons_self) ht.not_mem

/-- **Numbers that end can be told apart.** -/
theorem toString_append_inj (h : (toString i).toList ++ s = (toString j).toList ++ t) (hs : Stops s) (ht : Stops t) :
    i = j ∧ s = t := by
  obtain ⟨v, hj, rfl⟩ := toString_cut h ht
  cases v with
  | nil => exact ⟨toString_inj (by rw [hj, List.append_nil]), rfl⟩
  | cons c v => exact absurd (hj ▸ List.mem_append_right _ List.mem_cons_self) hs.not_mem

end LivePreview.Text
