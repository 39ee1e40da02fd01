import LivePreview.Proofs.Source.LineCut

/-! Parameter lists, type arguments and the lines that begin an import.

What is stripped of a parameter list stands between a name and a default value, a comma or the closing parenthesis,
and type arguments stand before an opening one. So neither makes a line begin an import. -/
namespace LivePreview.Source
open Pattern Spot

variable {s p q x y : List Char} {pos : Nat} {σ : Spot}

theorem eq_of_isDefaultSign {c : Char} {r : List Char} (h : isDefaultSign c r = true) : c = '=' :=
  beq_iff_eq.1 (Bool.and_eq_true_iff.1 h).1

/-- A text is cut where the condition holds. -/
theorem cutAt_stops {stops : Char → List Char → Bool} {depth : Int} {a b : List Char}
    (h : cutAt stops depth s = some (a, b)) : ∃ c r, b = c :: r ∧ stops c r = true := by
  induction s generalizing depth a with
  | nil => cases h
  | cons c r ih =>
    unfold cutAt at h
    split at h
    case isTrue hstop =>
      cases h
      exact ⟨c, r, rfl, (Bool.and_eq_true_iff.1 hstop).2⟩
    case isFalse =>
      obtain ⟨⟨a', b'⟩, hr, he⟩ := Option.map_eq_some_iff.1 h
      cases he
      exact ih hr

/-- What stands between a parameter and its colon. -/
theorem exists_kept (binding : List Char) : ∃ w marks v,
    binding = Text.trimEnd ((Text.trimEnd binding).reverse.dropWhile (· == '?')).reverse ++ (w ++ (marks ++ v)) ∧
      Blank w ∧ (∀ c ∈ marks, c = '?') ∧ Blank v := by
  obtain ⟨v, hv, hblank⟩ := exists_trimEnd_blank binding
  obtain ⟨w, hw, hblank'⟩ := exists_trimEnd_blank ((Text.trimEnd binding).reverse.dropWhile (· == '?')).reverse
  refine ⟨w, ((Text.trimEnd binding).reverse.takeWhile (· == '?')).reverse, v, ?_, hblank', fun c hc => ?_, hblank⟩
  · have hsplit := congrArg List.reverse
      (List.takeWhile_append_dropWhile (p := (· == '?')) (l := (Text.trimEnd binding).reverse))
    rw [List.reverse_append, List.reverse_reverse] at hsplit
    rw [← List.append_assoc, ← hw, ← List.append_assoc, hsplit]
    exact hv
  · exact beq_iff_eq.1 (List.all_eq_true.1 List.all_takeWhile c (List.mem_reverse.1 hc))

theorem takeWhile_append_stop {ok : Char → Bool} {c : Char} (hc : ok c = false) (a b : List Char) :
    (a ++ c :: b).takeWhile ok = a.takeWhile ok := by
  induction a with
  | nil => simp [hc]
  | cons x a ih => by_cases hx : ok x <;> simp [hx, ih]

/-- Text behind which nothing makes a line begin an import. -/
def Follows (x y : List Char) : Prop := Halts x ∧ ∀ σ : Spot, σ.imports x ≤ σ.imports y

end LivePreview.Source
