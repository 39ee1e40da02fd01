import LivePreview.Script.Value

/-! What a table has under a name, and how long a sequence is that begins with a value. -/
namespace LivePreview.Script
variable {v : Value} {name other : String}

theorem Value.same_ofString : v.same (.ofString name) = true ↔ v = .ofString name := by
  have hb (s : ByteArray) : (s == name.toUTF8) = true ↔ s = name.toUTF8 := by
    rw [ByteArray.ext_iff]
    exact beq_iff_eq (a := s.data)
  cases v with
  | str s => exact (hb s).trans (by simp [Value.ofString])
  | _ => simp [Value.same, Value.ofString]

theorem Value.ofString_same : (Value.ofString name).same v = true ↔ v = .ofString name := by
  cases v with
  | str s =>
    have hb : (name.toUTF8 == s) = true ↔ name.toUTF8 = s := by
      rw [ByteArray.ext_iff]
      exact beq_iff_eq (a := name.toUTF8.data)
    exact hb.trans (by simp [Value.ofString, eq_comm])
  | _ => simp [Value.same, Value.ofString]

theorem Value.ofString_inj : Value.ofString name = .ofString other ↔ name = other := by
  rw [Value.ofString, Value.ofString, Value.str.injEq]
  exact String.toByteArray_inj

namespace Table

theorem field_cons (key : Value) (e : Value × Value) (fields : List (Value × Value)) :
    field { fields := e :: fields } key = if e.1.same key then e.2 else field { fields } key := by
  unfold field
  rw [List.find?_cons]
  cases e.1.same key <;> rfl

/-- What is under a name after a value was put under one among these entries. -/
theorem field_putField (name other : String) (v : Value) (fields : List (Value × Value)) :
    field { fields := putField (.ofString name) v fields } (.ofString other) =
      if name = other then v else field { fields } (.ofString other) := by
  have hs : (Value.ofString name).same (.ofString other) = true ↔ name = other :=
    Value.same_ofString.trans Value.ofString_inj
  induction fields with
  | nil =>
    have hn : field { fields := [] } (.ofString other) = .nil := rfl
    rw [putField, hn]
    split
    · cases v with
      | nil => exact (ite_self _).symm
      | _ => contradiction
    · simp only [field_cons, hs, hn]
  | cons e fields ih =>
    rw [putField]
    split
    · rename_i he
      simp only [field_cons, Value.same_ofString.1 he, hs]
      split <;> rfl
    · rename_i he
      rw [field_cons, field_cons, ih]
      split
      · rename_i ho
        rw [Value.same_ofString] at ho
        rw [ho, Value.same_ofString, Value.ofString_inj] at he
        rw [if_neg (Ne.symm he)]
      · rfl

/-- **What is under a name after a value was put under one**: this value, also if it is nil, and under other names what
was there before. -/
@[simp] theorem getName_setName (t : Table) (name other : String) (v : Value) :
    (t.setName name v).getName other = if name = other then v else t.getName other :=
  field_putField name other v t.fields

@[simp] theorem getName_empty (name : String) : ({} : Table).getName name = .nil := rfl

@[simp] theorem getName_ofSequence (vs : List Value) (name : String) : (ofSequence vs).getName name = .nil := rfl

/-- An entry under a name is not under any other key. -/
theorem not_same_of_name {key : Value} (hk : key ≠ .ofString name) {e : Value} (he : e.same (.ofString name) = true) :
    e.same key = false := by
  rw [Value.same_ofString.1 he]
  exact Bool.eq_false_iff.2 fun h => hk (Value.ofString_same.1 h)

theorem field_putField_of_ne {key : Value} (hk : key ≠ .ofString name) (v : Value) (fields : List (Value × Value)) :
    field { fields := putField key v fields } (.ofString name) = field { fields } (.ofString name) := by
  induction fields with
  | nil =>
    rw [putField]
    split
    · rfl
    · rw [field_cons, if_neg fun h => hk (Value.same_ofString.1 h)]
  | cons e fields ih =>
    rw [putField]
    split
    · rename_i he
      have hn : ¬ e.1.same (.ofString name) = true := fun h => by simp [not_same_of_name hk h] at he
      rw [field_cons, field_cons, if_neg hn, if_neg hn]
    · rw [field_cons, field_cons, ih]

theorem getName_filter {key : Value} (hk : key ≠ .ofString name) (t : Table) (items : Array Value) :
    getName { t with items, fields := t.fields.filter fun e => !e.1.same key } name = t.getName name := by
  have hf (e : Value × Value) : (!e.1.same key && e.1.same (.ofString name)) = e.1.same (.ofString name) := by
    cases he : e.1.same (.ofString name) with
    | true => rw [not_same_of_name hk he]; rfl
    | false => exact Bool.and_false _
  change field _ _ = field _ _
  unfold field
  simp only [List.find?_filter, Bool.decide_and, Bool.decide_eq_true, hf]

theorem getName_extend (fuel : Nat) (t : Table) (name : String) : (extend fuel t).getName name = t.getName name := by
  induction fuel generalizing t with
  | zero => rfl
  | succ fuel ih =>
    unfold extend
    dsimp only
    split
    · rfl
    · have hk : Value.ofNat (t.items.size + 1) ≠ .ofString name := Value.noConfusion
      exact (ih _).trans (getName_filter hk t _)

/-- **A value put under another key leaves what is under a name.** -/
theorem getName_set_of_ne {key : Value} (hk : key ≠ .ofString name) (t : Table) (v : Value) :
    (t.set key v).getName name = t.getName name := by
  unfold set
  split
  · split
    · rfl
    · split
      · split
        · rfl
        · rw [getName_extend]
          exact getName_filter hk t _
      · exact field_putField_of_ne hk v t.fields
  · exact field_putField_of_ne hk v t.fields

/-! ### Sequences -/

/-- As far as the first items go that are so, they are what is at their places and is so. -/
theorem filter_getElem?_takeWhile {α : Type} {p : α → Bool} {l : List α} {i : Nat} (hi : i ≤ (l.takeWhile p).length) :
    l[i]?.filter p = (l.takeWhile p)[i]? := by
  induction l generalizing i with
  | nil => rfl
  | cons a l ih =>
    cases ha : p a with
    | true =>
      rw [List.takeWhile_cons_of_pos ha] at hi ⊢
      cases i with
      | zero => simp [ha]
      | succ i => exact ih (Nat.le_of_succ_le_succ hi)
    | false =>
      rw [List.takeWhile_cons_of_neg (by simp [ha])] at hi ⊢
      obtain rfl := Nat.le_zero.1 hi
      simp [ha]

/-- Up to the first nil the items of a table are its sequence. -/
theorem item?_of_le {t : Table} {index : Nat} (h : index ≤ t.sequence.length) :
    t.item? index = t.sequence[index]? := by
  unfold item? sequence
  rw [← Array.getElem?_toList]
  exact filter_getElem?_takeWhile h

theorem lt_of_item? {t : Table} {index : Nat} {v : Value} (h : t.item? index = some v) : index < t.items.size := by
  obtain ⟨hv, -⟩ := Option.filter_eq_some_iff.1 h
  exact (Array.getElem?_eq_some_iff.1 hv).1

/-- Where a sequence has something, so it has before. -/
theorem item?_of_sequence {t : Table} {index i : Nat} (h : t.sequence[index]? = some v) (hi : i ≤ index) :
    ∃ w, t.item? i = some w ∧ (i = index → w = v) := by
  have hlt := (List.getElem?_eq_some_iff.1 h).1
  rw [item?_of_le (by omega)]
  refine ⟨_, List.getElem?_eq_getElem (Nat.lt_of_le_of_lt hi hlt), fun he => ?_⟩
  subst he
  exact (List.getElem?_eq_some_iff.1 h).2

/-- A border is never before the first value. -/
theorem border_pos {items : Array Value} (h : (items.getD 0 .nil).isNil = false) {fuel n : Nat} (hn : n < fuel)
    (base : Nat) : 0 < border items fuel base n := by
  induction fuel generalizing base n with
  | zero => omega
  | succ fuel ih =>
    unfold border
    dsimp only
    split
    · split
      · rename_i hb
        refine Nat.pos_of_ne_zero fun he => ?_
        rw [he, h] at hb
        exact Bool.false_ne_true hb
      · exact Nat.succ_pos base
    · rename_i hh
      have : n / 2 ≠ 0 := fun he => hh (by rw [he]; rfl)
      exact ih (by omega) _

/-- A sequence that begins with a value is not empty. -/
theorem length_ofSequence_pos (hv : v.isNil = false) (vs : List Value) : 0 < (ofSequence (v :: vs)).length := by
  unfold length
  dsimp only
  split
  · exact Nat.succ_pos _
  · exact border_pos (by simpa [ofSequence] using hv) (Nat.lt_succ_self _) 0

end Table
end LivePreview.Script
