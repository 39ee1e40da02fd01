import LivePreview.Proofs.Source.ListCut

/-! Scans that count brackets.

A parameter list is split at its commas, and a parameter is cut at its colon and at its equals sign; each of these
scans counts how deep it is in brackets and looks at depth zero only. What a scan does is told by the depth of the
parts of a text, so texts that are put together are cut where they were put together. -/
namespace LivePreview.Source

variable {stops : Char → List Char → Bool} {d : Int} {s t p q a b rest : List Char} {ps : List (List Char)} {c : Char}

/-! ### Depth -/

/-- How much deeper in brackets a scan is behind a text than before it. -/
def depthOf : List Char → Int
  | [] => 0
  | c :: s => depthStep c + depthOf s

@[simp]
theorem depthOf_nil : depthOf [] = 0 := rfl

@[simp]
theorem depthOf_cons (c : Char) (s : List Char) : depthOf (c :: s) = depthStep c + depthOf s := rfl

@[simp]
theorem depthOf_append (s t : List Char) : depthOf (s ++ t) = depthOf s + depthOf t := by
  induction s with
  | nil => rw [List.nil_append, depthOf_nil, Int.zero_add]
  | cons c s ih => rw [List.cons_append, depthOf_cons, depthOf_cons, ih, Int.add_assoc]

theorem depthOf_eq_zero (h : ∀ c ∈ s, depthStep c = 0) : depthOf s = 0 := by
  induction s with
  | nil => rfl
  | cons c s ih =>
    obtain ⟨hc, hs⟩ := List.forall_mem_cons.1 h
    rw [depthOf_cons, hc, ih hs, Int.zero_add]

theorem depthStep_of_isSpace (h : Text.isSpace c = true) : depthStep c = 0 := by
  have hne {x : Char} (hx : Text.isSpace x = false) : (c == x) = false := by
    rw [beq_eq_false_iff_ne]
    rintro rfl
    rw [h] at hx
    cases hx
  simp [depthStep, hne (show Text.isSpace '(' = false from rfl), hne (show Text.isSpace '[' = false from rfl),
    hne (show Text.isSpace '\x7b' = false from rfl), hne (show Text.isSpace ')' = false from rfl),
    hne (show Text.isSpace ']' = false from rfl), hne (show Text.isSpace '\x7d' = false from rfl)]

theorem Blank.depthOf (h : Blank s) : depthOf s = 0 := depthOf_eq_zero fun c hc => depthStep_of_isSpace (h c hc)

/-! ### Where a scan does not stop -/

/-- No character of a text at depth zero stops a scan that is at depth `d` before the text; `rest` follows it. -/
def Unstopped (stops : Char → List Char → Bool) (d : Int) (s rest : List Char) : Prop :=
  ∀ a c b, s = a ++ c :: b → d + depthOf a = 0 → depthStep c = 0 → stops c (b ++ rest) = false

theorem unstopped_nil (stops : Char → List Char → Bool) (d : Int) (rest : List Char) : Unstopped stops d [] rest :=
  fun a c b h => by simp at h

theorem unstopped_cons : Unstopped stops d (c :: s) rest ↔
    (d = 0 → depthStep c = 0 → stops c (s ++ rest) = false) ∧ Unstopped stops (d + depthStep c) s rest := by
  refine ⟨fun h => ⟨fun hd => h [] c s rfl (by simpa using hd), fun a x b hs hd => ?_⟩, fun ⟨hc, hs⟩ a x b h hd => ?_⟩
  · exact h (c :: a) x b (by rw [hs]; rfl) (by rw [depthOf_cons]; omega)
  · cases a with
    | nil =>
      cases h
      exact hc (by simpa using hd)
    | cons y a =>
      cases h
      exact hs a x b rfl (by rw [depthOf_cons] at hd; omega)

theorem unstopped_append : Unstopped stops d (s ++ t) rest ↔
    Unstopped stops d s (t ++ rest) ∧ Unstopped stops (d + depthOf s) t rest := by
  induction s generalizing d with
  | nil => simp [unstopped_nil]
  | cons c s ih =>
    rw [List.cons_append, unstopped_cons, unstopped_cons, ih, and_assoc, List.append_assoc, depthOf_cons, Int.add_assoc]

theorem Unstopped.append (hs : Unstopped stops d s (t ++ rest)) (ht : Unstopped stops (d + depthOf s) t rest) :
    Unstopped stops d (s ++ t) rest := unstopped_append.2 ⟨hs, ht⟩

/-- Where nothing stops whatever follows it, nothing stops. -/
theorem unstopped_of_forall (h : ∀ c ∈ s, ∀ r, stops c r = false) : Unstopped stops d s rest :=
  fun a c b hs _ _ => h c (by simp [hs]) _

/-- What is not stopped with nothing behind it is not stopped at all, if `stops` looks at the next character only. -/
theorem Unstopped.behind (h : Unstopped stops d s [])
    (hstays : ∀ c b r, stops c b = false → stops c (b ++ r) = false) (rest : List Char) : Unstopped stops d s rest :=
  fun a c b hs hd hc => hstays c b rest (by simpa using h a c b hs hd hc)

/-! ### Cutting -/

theorem cutAt_append (h : Unstopped stops d s rest) :
    cutAt stops d (s ++ rest) = (cutAt stops (d + depthOf s) rest).map fun (a, b) => (s ++ a, b) := by
  induction s generalizing d with
  | nil =>
    rw [depthOf_nil, Int.add_zero]
    exact Option.map_id'.symm
  | cons c s ih =>
    obtain ⟨hc, hs⟩ := unstopped_cons.1 h
    have hno : (d == 0 && depthStep c == 0 && stops c (s ++ rest)) = false := by
      by_cases hd : d = 0
      · by_cases hstep : depthStep c = 0
        · rw [hc hd hstep, Bool.and_false]
        · simp [hstep]
      · simp [hd]
    rw [List.cons_append, cutAt, hno, ih hs, depthOf_cons, Int.add_assoc]
    simp [Option.map_map, Function.comp_def]

theorem cutAt_here (hstep : depthStep c = 0) (hstop : stops c s = true) :
    cutAt stops 0 (c :: s) = some ([], c :: s) := by
  simp [cutAt, hstep, hstop]

/-- A text is cut behind a part that nothing stops and that leaves the scan at depth zero. -/
theorem cutAt_unstopped (h : cutAt stops d s = some (a, b)) : Unstopped stops d a b ∧ d + depthOf a = 0 := by
  induction s generalizing d a with
  | nil => cases h
  | cons c r ih =>
    unfold cutAt at h
    split at h
    case isTrue hstop =>
      cases h
      have hd := beq_iff_eq.1 (Bool.and_eq_true_iff.1 (Bool.and_eq_true_iff.1 hstop).1).1
      exact ⟨unstopped_nil stops d _, by rw [hd]; rfl⟩
    case isFalse hno =>
      obtain ⟨⟨a', b'⟩, hr, he⟩ := Option.map_eq_some_iff.1 h
      cases he
      obtain ⟨hrest, hdepth⟩ := ih hr
      refine ⟨unstopped_cons.2 ⟨fun hd hc => ?_, hrest⟩, by rw [depthOf_cons]; omega⟩
      rw [← cutAt_eq hr]
      simpa [hd, hc] using hno

theorem cutAt_eq_none_iff : cutAt stops d s = none ↔ Unstopped stops d s [] := by
  refine ⟨fun h => ?_, fun h => by simpa [cutAt] using cutAt_append h⟩
  induction s generalizing d with
  | nil => exact unstopped_nil stops d []
  | cons c r ih =>
    unfold cutAt at h
    split at h
    case isTrue => cases h
    case isFalse hno =>
      refine unstopped_cons.2 ⟨fun hd hc => ?_, ih (Option.map_eq_none_iff.1 h)⟩
      rw [List.append_nil]
      simpa [hd, hc] using hno

instance : Decidable (Unstopped stops d s []) := decidable_of_iff _ cutAt_eq_none_iff

/-! ### Splitting -/

/-- A comma, whatever follows it. -/
def isComma (c : Char) (_ : List Char) : Bool := c == ','

theorem Unstopped.comma (h : Unstopped isComma d s rest) (r : List Char) : Unstopped isComma d s r := h

/-- Pieces between commas: there is none at depth zero in any of them, and all but the last end at depth zero. -/
def Pieces : Int → List (List Char) → Prop
  | _, [] => False
  | d, [p] => Unstopped isComma d p []
  | d, p :: q :: ps => Unstopped isComma d p [] ∧ d + depthOf p = 0 ∧ Pieces 0 (q :: ps)

theorem Pieces.head (h : Pieces d (p :: ps)) : Unstopped isComma d p [] := by
  cases ps with
  | nil => exact h
  | cons q ps => exact h.1

theorem Pieces.cons (hc : d = 0 → depthStep c = 0 → isComma c p = false) (h : Pieces (d + depthStep c) (p :: ps)) :
    Pieces d ((c :: p) :: ps) := by
  have hp : Unstopped isComma d (c :: p) [] := unstopped_cons.2 ⟨hc, h.head⟩
  cases ps with
  | nil => exact hp
  | cons q ps => exact ⟨hp, by rw [depthOf_cons]; have := h.2.1; omega, h.2.2⟩

theorem pieces_splitCommas (d : Int) (s : List Char) : Pieces d (splitCommas d s) := by
  induction s generalizing d with
  | nil => exact unstopped_nil isComma d []
  | cons c r ih =>
    unfold splitCommas
    split
    case isTrue h =>
      have hd := beq_iff_eq.1 (Bool.and_eq_true_iff.1 h).2
      cases hr : splitCommas d r with
      | nil => exact absurd hr (splitCommas_ne_nil d r)
      | cons p ps => exact ⟨unstopped_nil isComma d [], by rw [hd]; rfl, by rw [← hr, ← hd]; exact ih d⟩
    case isFalse h =>
      split
      case h_1 hr => exact absurd hr (splitCommas_ne_nil _ r)
      case h_2 p ps hr =>
        refine Pieces.cons (fun hd _ => ?_) (by rw [← hr]; exact ih _)
        simpa [hd, isComma] using h

theorem splitCommas_append (h : Unstopped isComma d p rest) : splitCommas d (p ++ rest) =
    match splitCommas (d + depthOf p) rest with
    | [] => [p]
    | q :: qs => (p ++ q) :: qs := by
  induction p generalizing d with
  | nil =>
    rw [depthOf_nil, Int.add_zero, List.nil_append]
    split
    case h_1 hr => exact absurd hr (splitCommas_ne_nil d rest)
    case h_2 q qs hr => exact hr
  | cons c p ih =>
    obtain ⟨hc, hp⟩ := unstopped_cons.1 h
    have hno : (c == ',' && d == 0) = false := by
      by_cases hd : d = 0
      · by_cases hstep : depthStep c = 0
        · have hcomma : (c == ',') = false := hc hd hstep
          rw [hcomma, Bool.false_and]
        · have hcomma : c ≠ ',' := fun hx => hstep (by rw [hx]; rfl)
          simp [hcomma]
      · simp [hd]
    rw [List.cons_append, splitCommas, hno, ih hp, depthOf_cons, Int.add_assoc]
    cases hr : splitCommas (d + (depthStep c + depthOf p)) rest with
    | nil => rfl
    | cons q qs => rfl

/-- Pieces put together with commas are split into these pieces. -/
theorem splitCommas_intercalate (h : Pieces d ps) : splitCommas d ([','].intercalate ps) = ps := by
  induction ps generalizing d with
  | nil => exact h.elim
  | cons p ps ih =>
    cases ps with
    | nil => simpa [List.intercalate, splitCommas] using splitCommas_append h.head
    | cons q ps =>
      rw [List.intercalate_cons_cons, List.append_assoc, splitCommas_append (h.head.comma _), h.2.1]
      have hcomma : splitCommas 0 ([','] ++ [','].intercalate (q :: ps)) = [] :: q :: ps := by
        rw [List.singleton_append, splitCommas]
        simpa using ih h.2.2
      rw [hcomma]
      simp

theorem pieces_iff : Pieces 0 ps ↔
    ps ≠ [] ∧ (∀ p ∈ ps, Unstopped isComma 0 p []) ∧ ∀ p ∈ ps.dropLast, depthOf p = 0 := by
  induction ps with
  | nil => simp [Pieces]
  | cons p ps ih =>
    cases ps with
    | nil => simp [Pieces]
    | cons q ps =>
      simp only [Pieces, ih, List.dropLast_cons_cons, List.forall_mem_cons, Int.zero_add, ne_eq, reduceCtorEq,
        not_false_eq_true, true_and]
      exact ⟨fun ⟨hp, hd, hq, hrest⟩ => ⟨⟨hp, hq⟩, hd, hrest⟩, fun ⟨⟨hp, hq⟩, hd, hrest⟩ => ⟨hp, hd, hq, hrest⟩⟩

/-- A text that is one piece: its brackets balance, and no comma stands outside of them. -/
def IsPiece (s : List Char) : Prop := depthOf s = 0 ∧ Unstopped isComma 0 s []

instance : Decidable (IsPiece s) := inferInstanceAs (Decidable (_ ∧ _))

theorem IsPiece.append (hs : IsPiece s) (ht : IsPiece t) : IsPiece (s ++ t) := by
  refine ⟨by rw [depthOf_append, hs.1, ht.1]; rfl, Unstopped.append (hs.2.comma _) ?_⟩
  rw [hs.1]
  exact ht.2

theorem Pieces.of_isPiece (hne : ps ≠ []) (h : ∀ p ∈ ps, IsPiece p) : Pieces 0 ps :=
  pieces_iff.2 ⟨hne, fun p hp => (h p hp).2, fun p hp => (h p ((List.dropLast_sublist ps).subset hp)).1⟩

/-- What keeps commas away from depth zero, and depth zero at the end, keeps pieces apart. -/
theorem Pieces.map {f : List Char → List Char} (h : Pieces 0 ps)
    (hcomma : ∀ p ∈ ps, Unstopped isComma 0 p [] → Unstopped isComma 0 (f p) [])
    (hdepth : ∀ p ∈ ps, depthOf p = 0 → depthOf (f p) = 0) : Pieces 0 (ps.map f) := by
  obtain ⟨hne, hcommas, hdepths⟩ := pieces_iff.1 h
  refine pieces_iff.2 ⟨mt List.map_eq_nil_iff.1 hne, List.forall_mem_map.2 fun p hp => hcomma p hp (hcommas p hp), ?_⟩
  rw [← List.map_dropLast]
  exact List.forall_mem_map.2 fun p hp => hdepth p ((List.dropLast_sublist ps).subset hp) (hdepths p hp)

end LivePreview.Source
