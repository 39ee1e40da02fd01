import LivePreview.Assoc
import Mathlib.Data.List.Perm.Basic

/-! What an association list holds after `insert` and `erase`: its keys, and its entries up to order. -/
namespace LivePreview.Assoc
variable {K V : Type} [BEq K]

theorem mem_insert {k : K} {v : V} {l : List (K × V)} {e : K × V} (h : e ∈ insert k v l) : e = (k, v) ∨ e ∈ l := by
  induction l with
  | nil => exact .inl (List.mem_singleton.1 h)
  | cons d r ih =>
    rw [insert] at h
    split at h
    · exact (List.mem_cons.1 h).imp_right (List.mem_cons_of_mem d)
    · rcases List.mem_cons.1 h with h | h
      · exact .inr (h ▸ List.mem_cons_self)
      · exact (ih h).imp_right (List.mem_cons_of_mem d)

variable [LawfulBEq K]

/-- What is found after a value was put under a key: that value there, and under other keys what was found before. -/
theorem lookup_insert (k : K) (v : V) (l : List (K × V)) (j : K) :
    (insert k v l).lookup j = if j == k then some v else l.lookup j := by
  induction l with
  | nil => cases hj : j == k <;> simp [insert, List.lookup_cons, hj]
  | cons d r ih =>
    obtain ⟨i, w⟩ := d
    rw [insert]
    by_cases hi : i = k
    · subst hi
      cases hj : j == i <;> simp [List.lookup_cons, hj]
    · rw [beq_false_of_ne hi, if_neg Bool.false_ne_true, List.lookup_cons, List.lookup_cons, ih]
      by_cases hj : j = i
      · subst hj
        simp [hi]
      · rw [beq_false_of_ne hj]

/-- What is found when only some keys stay: what was found before under those, and nothing under others. -/
theorem lookup_filter (p : K → Bool) (k : K) (l : List (K × V)) :
    (l.filter fun e => p e.1).lookup k = if p k then l.lookup k else none := by
  induction l with
  | nil => exact (ite_self _).symm
  | cons d r ih =>
    obtain ⟨j, w⟩ := d
    by_cases hk : k = j
    · subst hk
      cases hp : p k
      · rw [List.filter_cons_of_neg (by simp [hp]), ih, hp]
        rfl
      · rw [List.filter_cons_of_pos (by exact hp), List.lookup_cons_self, List.lookup_cons_self, if_pos rfl]
    · have hn : (k == j) = false := beq_false_of_ne hk
      rw [List.filter_cons, List.lookup_cons, hn]
      split
      · rw [List.lookup_cons, hn]
        exact ih
      · exact ih

/-- A value under a new key comes at the end. -/
theorem insert_of_notMem {k : K} {v : V} {l : List (K × V)} (h : k ∉ l.map (·.1)) :
    insert k v l = l ++ [(k, v)] := by
  induction l with
  | nil => rfl
  | cons d r ih =>
    rw [List.map_cons, List.mem_cons, not_or] at h
    have hd : (d.1 == k) = false := beq_false_of_ne fun he => h.1 he.symm
    rw [insert, hd, ih h.2]
    rfl

theorem notMem_erase (k : K) (l : List (K × V)) : k ∉ (erase k l).map (·.1) := by
  intro h
  obtain ⟨e, he, hk⟩ := List.mem_map.1 h
  have := (List.mem_filter.1 he).2
  simp [hk] at this

theorem erase_of_notMem {k : K} {l : List (K × V)} (h : k ∉ l.map (·.1)) : erase k l = l := by
  refine List.filter_eq_self.2 fun e he => ?_
  have hk : e.1 ≠ k := fun hk => h (List.mem_map.2 ⟨e, he, hk⟩)
  rw [beq_false_of_ne hk, Bool.not_false]

theorem notMem_of_lookup {k : K} {l : List (K × V)} (h : l.lookup k = none) : k ∉ l.map (·.1) := by
  intro hk
  obtain ⟨e, he, rfl⟩ := List.mem_map.1 hk
  have := List.lookup_eq_none_iff.1 h e he
  simp at this

/-- Where no key is twice, a list is the entry under a key and what is left without it. -/
theorem perm_of_lookup {k : K} {v : V} {l : List (K × V)} (hn : (l.map (·.1)).Nodup) (h : l.lookup k = some v) :
    l.Perm ((k, v) :: erase k l) := by
  induction l with
  | nil => nomatch h
  | cons d r ih =>
    rw [List.map_cons, List.nodup_cons] at hn
    obtain ⟨j, w⟩ := d
    rw [List.lookup_cons] at h
    by_cases hk : k = j
    · subst hk
      rw [beq_self_eq_true] at h
      cases h
      have he : erase k ((k, v) :: r) = r := by
        rw [erase, List.filter_cons_of_neg (by simp)]
        exact erase_of_notMem hn.1
      rw [he]
    · rw [beq_false_of_ne hk] at h
      have he : erase k ((j, w) :: r) = (j, w) :: erase k r :=
        List.filter_cons_of_pos (by simp [Ne.symm hk])
      rw [he]
      exact ((ih hn.2 h).cons _).trans (.swap ..)

end LivePreview.Assoc
