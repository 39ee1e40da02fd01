import LivePreview.Proofs.Source.Cut
import LivePreview.Proofs.Source.Partners

/-! What the stripping of parameter lists and of hook arguments takes out of a source.

An annotation goes with its colon, so a list without its annotations is lighter than the list. Of the edits of all
lists the first in order is always applied, and an edit that is skipped takes nothing. A list of type arguments goes
with its opening bracket. -/
namespace LivePreview.Source

/-! ### One list -/

theorem splitCommas_ne_nil (depth : Int) (s : List Char) : splitCommas depth s ≠ [] := by
  cases s with
  | nil => simp [splitCommas]
  | cons c r =>
    unfold splitCommas
    split
    · simp
    · split <;> simp

/-- The pieces between the commas make the list. -/
theorem intercalate_splitCommas (depth : Int) (s : List Char) : [','].intercalate (splitCommas depth s) = s := by
  induction s generalizing depth with
  | nil => rfl
  | cons c r ih =>
    unfold splitCommas
    split
    case isTrue h =>
      obtain ⟨hc, -⟩ := Bool.and_eq_true_iff.1 h
      rw [beq_iff_eq.1 hc]
      cases hr : splitCommas depth r with
      | nil => exact absurd hr (splitCommas_ne_nil depth r)
      | cons p ps =>
        have := ih depth
        rw [hr] at this
        rw [← this]
        simp [List.intercalate]
    case isFalse =>
      split
      case h_1 hr => exact absurd hr (splitCommas_ne_nil _ r)
      case h_2 p ps hr =>
        have := ih (depth + depthStep c)
        rw [hr] at this
        rw [← this]
        cases ps <;> simp [List.intercalate]

theorem cutAt_eq {stops : Char → List Char → Bool} {depth : Int} {s a b : List Char}
    (h : cutAt stops depth s = some (a, b)) : s = a ++ b := by
  induction s generalizing depth a with
  | nil => exact nomatch h
  | cons c r ih =>
    unfold cutAt at h
    split at h
    case isTrue =>
      cases h
      rfl
    case isFalse =>
      obtain ⟨⟨a', b'⟩, hr, he⟩ := Option.map_eq_some_iff.1 h
      cases he
      rw [ih hr]
      rfl

theorem exists_trimEnd_blank (s : List Char) : ∃ w, s = Text.trimEnd s ++ w ∧ Blank w := by
  have h := congrArg List.reverse (List.takeWhile_append_dropWhile (p := Text.isSpace) (l := s.reverse))
  rw [List.reverse_append, List.reverse_reverse] at h
  exact ⟨(s.reverse.takeWhile Text.isSpace).reverse, h.symm, fun c hc =>
    List.all_eq_true.1 List.all_takeWhile c (List.mem_reverse.1 hc)⟩

theorem exists_trimEnd_append (s : List Char) : Text.trimEnd s <+: s := by
  obtain ⟨w, h, -⟩ := exists_trimEnd_blank s
  exact ⟨w, h.symm⟩

theorem mass_trimEnd_le (s : List Char) : mass (Text.trimEnd s) ≤ mass s :=
  mass_sublist (exists_trimEnd_append s).sublist

/-- The annotation of a parameter goes with its colon. -/
theorem untypedParameter?_mass {p q : List Char} (h : untypedParameter? p = some q) : mass q < mass p := by
  unfold untypedParameter? at h
  split at h
  case h_1 binding note hcut =>
    have hp := cutAt_eq hcut
    have hkept :
        mass ((Text.trimEnd ((Text.trimEnd binding).reverse.dropWhile (· == '?')).reverse)) ≤ mass binding := by
      refine Nat.le_trans (mass_trimEnd_le _) (Nat.le_trans (mass_sublist ?_) (mass_trimEnd_le binding))
      exact List.reverse_sublist.1 (by rw [List.reverse_reverse]; exact List.dropWhile_sublist _)
    have hcolon : solid ':' = true := rfl
    split at h
    case h_1 a value hvalue =>
      cases h
      have hnote := cutAt_eq hvalue
      have hstart : mass (Text.trimStart value) ≤ mass value := mass_sublist (List.dropWhile_sublist _)
      have hspace : solid ' ' = false := rfl
      rw [hp, hnote]
      simp only [mass_append, mass_cons, hcolon, hspace, if_true]
      simp
      omega
    case h_2 =>
      cases h
      have hblank : mass (p.reverse.takeWhile Text.isSpace).reverse = 0 :=
        Blank.mass fun c hc => List.all_eq_true.1 List.all_takeWhile c (List.mem_reverse.1 hc)
      rw [mass_append, hblank, hp]
      simp only [mass_append, mass_cons, hcolon, if_true]
      omega
  case h_2 => exact nomatch h

theorem mass_intercalate_le {f : List Char → List Char} (hf : ∀ p, mass (f p) ≤ mass p) (ps : List (List Char)) :
    mass ([','].intercalate (ps.map f)) ≤ mass ([','].intercalate ps) := by
  induction ps with
  | nil => exact Nat.le_refl _
  | cons p ps ih =>
    have hp := hf p
    cases ps with
    | nil => simpa [List.intercalate] using hp
    | cons q ps =>
      simp only [List.map_cons, List.intercalate_cons_cons, mass_append] at ih ⊢
      omega

theorem mass_intercalate_lt {f : List Char → List Char} (hf : ∀ p, mass (f p) ≤ mass p) {ps : List (List Char)}
    {p : List Char} (hp : p ∈ ps) (hlt : mass (f p) < mass p) :
    mass ([','].intercalate (ps.map f)) < mass ([','].intercalate ps) := by
  induction ps with
  | nil => exact nomatch hp
  | cons q ps ih =>
    have hq := hf q
    cases ps with
    | nil =>
      obtain rfl := List.mem_singleton.1 hp
      simpa [List.intercalate] using hlt
    | cons r ps =>
      have hle := mass_intercalate_le hf (r :: ps)
      simp only [List.map_cons, List.intercalate_cons_cons, mass_append] at ih hle ⊢
      rcases List.mem_cons.1 hp with rfl | hp
      · omega
      · have := ih hp
        omega

theorem stripParameterTypes_mass {s r : List Char} (h : stripParameterTypes s = some r) : mass r < mass s := by
  unfold stripParameterTypes at h
  split at h
  case isTrue => exact nomatch h
  case isFalse =>
    dsimp only at h
    split at h
    case isFalse => exact nomatch h
    case isTrue hany =>
      cases h
      have hf (p : List Char) : mass ((untypedParameter? p).getD p) ≤ mass p := by
        cases hq : untypedParameter? p with
        | none => exact Nat.le_refl _
        | some q => exact Nat.le_of_lt (untypedParameter?_mass hq)
      obtain ⟨_, hmem, hsome⟩ := List.any_eq_true.1 hany
      obtain ⟨p, hp, rfl⟩ := List.mem_map.1 hmem
      obtain ⟨q, hq⟩ := Option.isSome_iff_exists.1 hsome
      have hlt : mass ((untypedParameter? p).getD p) < mass p := by
        have hq : untypedParameter? p = some q := hq
        rw [hq]
        exact untypedParameter?_mass hq
      have hall := mass_intercalate_lt hf hp hlt
      rw [intercalate_splitCommas] at hall
      simpa [List.map_map, Function.comp_def] using hall

/-! ### All lists -/

/-- An edit that takes something out of what stands between its parentheses. -/
def ParameterEdit.Lightens (s : List Char) (e : ParameterEdit) : Prop :=
  mass e.replacement < mass (slice s (e.start + 1) e.stop)

theorem parameterEdits_lighten {s : List Char} {e : ParameterEdit} (h : e ∈ parameterEdits s) : e.Lightens s :=
  stripParameterTypes_mass (parameterEdits_fit h).list

theorem ParameterEdit.Lightens.start_lt {s : List Char} {e : ParameterEdit} (h : e.Lightens s) :
    e.start + 1 < e.stop := by
  refine Nat.lt_of_not_le fun hge => ?_
  have hnil : slice s (e.start + 1) e.stop = [] := List.drop_eq_nil_of_le (by
    have := List.length_take_le e.stop s
    omega)
  rw [Lightens, hnil] at h
  exact absurd h (Nat.not_lt_zero _)

/-- The cuts of those edits that are not inside of one already made. -/
def editCuts (pos : Nat) : List ParameterEdit → List Cut
  | [] => []
  | e :: edits =>
    if e.start < pos then editCuts pos edits else ⟨e.start + 1, e.stop, e.replacement⟩ :: editCuts e.stop edits

/-- The cuts that the stripping of parameter lists makes. -/
def parameterCuts (s : List Char) : List Cut := editCuts 0 ((parameterEdits s).mergeSort ParameterEdit.before)

theorem applyEdits_eq {s : List Char} {edits : List ParameterEdit} (h : ∀ e ∈ edits, e.Lightens s) (pos : Nat) :
    applyEdits pos (s.drop pos) edits = splice s pos (editCuts pos edits) := by
  induction edits generalizing pos with
  | nil => rfl
  | cons e edits ih =>
    have hrest := fun pos => ih (fun d hd => h d (List.mem_cons_of_mem e hd)) pos
    have hstart := (h e List.mem_cons_self).start_lt
    rw [applyEdits, editCuts]
    split
    case isTrue => exact hrest pos
    case isFalse hge =>
      have hkept : (s.drop pos).take (e.start + 1 - pos) = slice s pos (e.start + 1) := by rw [slice, List.drop_take]
      have hdrop : (s.drop pos).drop (e.stop - pos) = s.drop e.stop := by
        rw [List.drop_drop, Nat.add_sub_cancel' (by omega)]
      rw [hkept, hdrop, hrest, splice]

theorem ordered_editCuts {s : List Char} {edits : List ParameterEdit} (h : ∀ e ∈ edits, e.Lightens s) (pos : Nat) :
    Ordered pos (editCuts pos edits) ∧ ∀ c ∈ editCuts pos edits, mass c.text < mass (slice s c.start c.stop) := by
  induction edits generalizing pos with
  | nil => exact ⟨True.intro, fun _ hc => nomatch hc⟩
  | cons e edits ih =>
    have hrest := fun pos => ih (fun d hd => h d (List.mem_cons_of_mem e hd)) pos
    have hlight := h e List.mem_cons_self
    rw [editCuts]
    split
    case isTrue => exact hrest pos
    case isFalse hge =>
      obtain ⟨hordered, hcuts⟩ := hrest e.stop
      have hstart := hlight.start_lt
      have hpos : pos ≤ e.start + 1 := Nat.le_succ_of_le (Nat.le_of_not_lt hge)
      exact ⟨⟨⟨hpos, Nat.le_of_lt hstart⟩, hordered⟩, List.forall_mem_cons.2 ⟨hlight, hcuts⟩⟩

theorem sorted_lighten (s : List Char) : ∀ e ∈ (parameterEdits s).mergeSort ParameterEdit.before, e.Lightens s :=
  fun _ he => parameterEdits_lighten (List.mem_mergeSort.1 he)

theorem stripParameterLists_eq (s : List Char) : stripParameterLists s = splice s 0 (parameterCuts s) :=
  applyEdits_eq (sorted_lighten s) 0

theorem ordered_parameterCuts (s : List Char) : Ordered 0 (parameterCuts s) := (ordered_editCuts (sorted_lighten s) 0).1

theorem parameterCuts_eq_nil_iff {s : List Char} : parameterCuts s = [] ↔ parameterEdits s = [] := by
  have hlength : ((parameterEdits s).mergeSort ParameterEdit.before).length = (parameterEdits s).length :=
    List.length_mergeSort _
  rw [parameterCuts, ← List.length_eq_zero_iff (l := parameterEdits s), ← hlength]
  cases (parameterEdits s).mergeSort ParameterEdit.before with
  | nil => simp [editCuts]
  | cons e edits => simp [editCuts]

theorem trims_stripParameterLists : Trims HasMass (fun s => parameterEdits s ≠ []) stripParameterLists where
  keeps s hno := by
    rw [stripParameterLists_eq, parameterCuts_eq_nil_iff.2 (Classical.not_not.1 hno)]
    rfl
  loses s n hn hf := by
    have hmass := (mass_splice (ordered_parameterCuts s) (ordered_editCuts (sorted_lighten s) 0).2).2
      (mt parameterCuts_eq_nil_iff.1 hf)
    rw [List.drop_zero, show mass s = n from hn, ← stripParameterLists_eq] at hmass
    exact ⟨mass (stripParameterLists s), rfl, hmass⟩

/-! ### Type arguments of hooks -/

/-- The end of the type arguments of a hook that are taken out: an argument list follows them. -/
def typeArgumentsOf? (s : List Char) (m : Match) : Option Nat :=
  (typeArgumentsEnd? s (m.stop - 1)).filter fun stop => (Text.trimStart (s.drop stop)).head? == some '('

/-- Some hook has type arguments that are taken out. -/
def HasTypeArguments (s : List Char) : Prop := ∃ m ∈ hookGenerics.findAll s, (typeArgumentsOf? s m).isSome = true

theorem dropTypeArguments_cons {s : List Char} {pos : Nat} {m : Match} {ms : List Match} :
    dropTypeArguments s pos (m :: ms) =
      match typeArgumentsOf? s m with
      | some stop =>
        if m.start < pos then dropTypeArguments s pos ms
        else (Text.trimEnd (s.take (m.stop - 1))).drop pos ++ dropTypeArguments s stop ms
      | none => dropTypeArguments s pos ms := by
  unfold typeArgumentsOf?
  rw [dropTypeArguments]
  cases typeArgumentsEnd? s (m.stop - 1) with
  | none => simp
  | some stop =>
    by_cases hcall : (Text.trimStart (s.drop stop)).head? = some '('
    · simp [Option.filter, hcall]
    · simp [Option.filter, hcall]

theorem typeArgumentsEnd?_eq {s : List Char} {start stop : Nat} (h : typeArgumentsEnd? s start = some stop) :
    (∃ r, s.drop start = '<' :: r) ∧ start + 1 ≤ stop := by
  unfold typeArgumentsEnd? at h
  split at h
  case h_1 r hr =>
    obtain ⟨n, -, rfl⟩ := Option.map_eq_some_iff.1 h
    exact ⟨⟨r, hr⟩, Nat.le_add_right _ n⟩
  case h_2 => exact nomatch h

/-- The cuts that take type arguments out, with the white space before them. -/
def argumentCuts (s : List Char) (pos : Nat) : List Match → List Cut
  | [] => []
  | m :: ms =>
    match typeArgumentsOf? s m with
    | some stop =>
      if m.start < pos then argumentCuts s pos ms
      else ⟨max pos (Text.trimEnd (s.take (m.stop - 1))).length, stop, []⟩ :: argumentCuts s stop ms
    | none => argumentCuts s pos ms

theorem dropTypeArguments_eq (s : List Char) (pos : Nat) (ms : List Match) :
    dropTypeArguments s pos ms = splice s pos (argumentCuts s pos ms) := by
  induction ms generalizing pos with
  | nil => rfl
  | cons m ms ih =>
    rw [dropTypeArguments_cons, argumentCuts]
    cases typeArgumentsOf? s m with
    | none => exact ih pos
    | some stop =>
      dsimp only
      split
      case isTrue => exact ih pos
      case isFalse =>
        have hkept : (Text.trimEnd (s.take (m.stop - 1))).drop pos =
            slice s pos (max pos (Text.trimEnd (s.take (m.stop - 1))).length) := by
          have htake := List.prefix_iff_eq_take.1
            ((exists_trimEnd_append (s.take (m.stop - 1))).trans (List.take_prefix _ _))
          rcases Nat.le_total pos (Text.trimEnd (s.take (m.stop - 1))).length with hle | hle
          · rw [Nat.max_eq_right hle, slice, ← htake]
          · rw [Nat.max_eq_left hle, slice, List.drop_eq_nil_of_le hle,
              List.drop_eq_nil_of_le (List.length_take_le _ _)]
        rw [hkept, ih, splice, List.append_nil]

theorem ordered_argumentCuts {s : List Char} {ms : List Match} (h : ∀ m ∈ ms, 0 < m.length) (pos : Nat) :
    Ordered pos (argumentCuts s pos ms) ∧
      ∀ c ∈ argumentCuts s pos ms, mass c.text < mass (slice s c.start c.stop) := by
  induction ms generalizing pos with
  | nil => exact ⟨True.intro, fun _ hc => nomatch hc⟩
  | cons m ms ih =>
    have hrest := fun pos => ih (fun k hk => h k (List.mem_cons_of_mem m hk)) pos
    rw [argumentCuts]
    cases hm : typeArgumentsOf? s m with
    | none => exact hrest pos
    | some stop =>
      dsimp only
      split
      case isTrue => exact hrest pos
      case isFalse hpos =>
        obtain ⟨hordered, hcuts⟩ := hrest stop
        have hlength := h m List.mem_cons_self
        obtain ⟨⟨r, hr⟩, hstop⟩ := typeArgumentsEnd?_eq (Option.filter_eq_some_iff.1 hm).1
        have htrimmed : (Text.trimEnd (s.take (m.stop - 1))).length ≤ m.stop - 1 :=
          Nat.le_trans (exists_trimEnd_append _).length_le (List.length_take_le _ _)
        have hstart : max pos (Text.trimEnd (s.take (m.stop - 1))).length ≤ m.stop - 1 :=
          Nat.max_le.2 ⟨by rw [Match.stop]; omega, htrimmed⟩
        have hbracket : slice s (m.stop - 1) (m.stop - 1 + 1) = ['<'] := slice_of_drop (a := ['<']) hr
        have hlight : 0 < mass (slice s (max pos (Text.trimEnd (s.take (m.stop - 1))).length) stop) := by
          rw [← slice_append_slice s (Nat.le_succ_of_le hstart) hstop, ← slice_append_slice s hstart (Nat.le_succ _),
            hbracket, mass_append, mass_append]
          exact Nat.add_pos_left (Nat.add_pos_right _ (by decide)) _
        exact ⟨⟨⟨Nat.le_max_left _ _, Nat.le_trans hstart (Nat.le_of_succ_le hstop)⟩, hordered⟩,
          List.forall_mem_cons.2 ⟨hlight, hcuts⟩⟩

theorem argumentCuts_eq_nil_iff {s : List Char} {ms : List Match} {pos : Nat} (h : ∀ m ∈ ms, pos ≤ m.start) :
    argumentCuts s pos ms = [] ↔ ¬ ∃ m ∈ ms, (typeArgumentsOf? s m).isSome = true := by
  induction ms with
  | nil => simp [argumentCuts]
  | cons m ms ih =>
    have hm : ¬ m.start < pos := Nat.not_lt_of_le (h m List.mem_cons_self)
    rw [argumentCuts]
    cases hsome : typeArgumentsOf? s m with
    | none => simpa [hsome] using ih fun k hk => h k (List.mem_cons_of_mem m hk)
    | some stop => simp [hsome, hm]

/-- The cuts that the dropping of the hooks' type arguments makes. -/
def hookCuts (s : List Char) : List Cut := argumentCuts s 0 (hookGenerics.findAll s)

theorem stripHookGenerics_eq (s : List Char) : stripHookGenerics s = splice s 0 (hookCuts s) :=
  dropTypeArguments_eq s 0 _

theorem ordered_hookCuts (s : List Char) : Ordered 0 (hookCuts s) :=
  (ordered_argumentCuts (fun _ => Pattern.length_pos_of_mem_findAll) 0).1

theorem trims_stripHookGenerics : Trims HasMass HasTypeArguments stripHookGenerics where
  keeps s hno := by
    rw [stripHookGenerics_eq, hookCuts, (argumentCuts_eq_nil_iff fun _ _ => Nat.zero_le _).2 hno]
    rfl
  loses s n hn hf := by
    have hmass := (mass_splice (ordered_hookCuts s)
      (ordered_argumentCuts (fun _ => Pattern.length_pos_of_mem_findAll) 0).2).2
      fun hnil => (argumentCuts_eq_nil_iff fun _ _ => Nat.zero_le _).1 hnil hf
    rw [List.drop_zero, show mass s = n from hn, ← stripHookGenerics_eq] at hmass
    exact ⟨mass (stripHookGenerics s), rfl, hmass⟩

end LivePreview.Source
