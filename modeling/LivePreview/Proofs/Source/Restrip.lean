import LivePreview.Proofs.Source.Parts

/-! What a second pass finds.

A pass reads a text once and strips the lists that it comes to, but for those within a list that it strips. What it
writes has the same partners outside of these lists, and no list is found there that was not found before; within them
those are left that stand in no annotation. So a second pass finds what the first one has left out in a default value or
in a binding, and changes nothing just when there is none (`restripped_iff`). -/
namespace LivePreview.Source
open ParameterEdit

variable {s x y z z' b b' x₁ y₁ y₂ : List Char} {c : Char} {d : Int} {es : List ParameterEdit}

/-! ### A text with some lists stripped -/

/-- A text, and the same text with some lists in it stripped. -/
inductive Stripped : List Char → List Char → Prop
  | nil : Stripped [] []
  | cons (c : Char) {x y : List Char} : Stripped x y → Stripped (c :: x) (c :: y)
  | list {b b' x y : List Char} : Balanced b → stripParameterTypes b = some b' → Stripped x y →
      Stripped ('(' :: (b ++ ')' :: x)) ('(' :: (b' ++ ')' :: y))

namespace Stripped

theorem head? (h : Stripped x y) : x.head? = y.head? := by
  cases h with
  | nil | cons | list => rfl

theorem openBehind (h : Stripped x y) (opened : List Bool) : openBehind opened x = openBehind opened y := by
  induction h generalizing opened with
  | nil => rfl
  | cons c _ ih => simp only [openBehind_cons, ih]
  | list hb hstrip _ ih =>
    have hb' := balanced_stripParameterTypes hb hstrip
    simp only [openBehind_cons, openBehind_append, hb.openBehind_self, hb'.openBehind_self, ih]

theorem balanced (h : Stripped x y) (hx : Balanced x) : Balanced y := (h.openBehind []).symm.trans hx

theorem depthOf (h : Stripped x y) : depthOf x = depthOf y := by
  induction h with
  | nil => rfl
  | cons c _ ih => simp only [depthOf_cons, ih]
  | list hb hstrip _ ih =>
    simp only [depthOf_cons, depthOf_append, hb.depthOf_eq, (balanced_stripParameterTypes hb hstrip).depthOf_eq, ih]

theorem enclosed (h : Stripped x y) : Enclosed '(' ')' d x ↔ Enclosed '(' ')' d y := by
  induction h generalizing d with
  | nil => rfl
  | cons c _ ih => rw [enclosed_cons, enclosed_cons, ih]
  | list hb hstrip _ ih =>
    have hb' := balanced_stripParameterTypes hb hstrip
    simp only [enclosed_cons, hb.enclosed.append_iff, hb'.enclosed.append_iff, ih]

theorem arrowed (h : Stripped x y) : Arrowed x ↔ Arrowed y := by
  induction h with
  | nil => rfl
  | cons c h ih => rw [arrowed_cons, arrowed_cons, h.head?, ih]
  | list => simp [arrowed_cons, show Text.isSpace '(' = false from rfl]

theorem isCodeList (h : Stripped x y) (a : List Char) (hy : IsCodeList (a ++ y)) : IsCodeList (a ++ x) := by
  induction h generalizing a with
  | nil => exact hy
  | cons c _ ih =>
    rw [List.append_cons] at hy ⊢
    exact ih (a ++ [c]) hy
  | @list b b' x y _ hstrip _ ih =>
    have hcode : IsCodeList b :=
      looksLikeMarkup_eq_false_iff.1 (stripParameterTypes_ne_none_iff.1 (by rw [hstrip]; exact Option.some_ne_none _)).1
    have hopen {l : List Char} : IsCodeList ('(' :: l) ↔ IsCodeList l := by
      rw [isCodeList_cons (by rintro r h -; cases h)]
      simp
    obtain ⟨ha, hlist⟩ := (isCodeList_append (by simp)).1 hy
    have hbehind := ((isCodeList_append (by simp)).1 (hopen.1 hlist)).2
    exact (isCodeList_append (by simp)).2 ⟨ha, hopen.2 ((isCodeList_append (by simp)).2 ⟨hcode, ih [')'] hbehind⟩)⟩

theorem partBehind (h : Stripped x y) {part : Part} (hd : ∀ a b, y = a ++ b → 0 ≤ d + Source.depthOf a) :
    partBehind d part x = partBehind d part y := by
  induction h generalizing d part with
  | nil => rfl
  | @cons c x y h ih =>
    have hnext : part.next c x = part.next c y := Part.next_congr (by rw [h.head?])
    have hbehind (a e : List Char) (hy : y = a ++ e) : 0 ≤ d + depthStep c + Source.depthOf a := by
      have := hd (c :: a) e (by rw [hy]; rfl)
      rw [depthOf_cons] at this
      omega
    rw [Source.partBehind, Source.partBehind, hnext, ih hbehind]
  | @list b b' x y hb hstrip _ ih =>
    have hb' := balanced_stripParameterTypes hb hstrip
    have hstart := hd [] _ rfl
    have hin {l : List Char} (hl : Balanced l) (k : List Char) :
        Source.partBehind d part ('(' :: (l ++ ')' :: k)) = Source.partBehind d part k := by
      have hpos : Source.partBehind (d + 1) part l = part := partBehind_of_pos fun a e hae => by
        have := (hae ▸ hl : Balanced (a ++ e)).depthOf_nonneg
        simp at hstart
        omega
      rw [partBehind_bracket (by decide), partBehind_append (by simp),
        show depthStep '(' = 1 from rfl, hpos, hl.depthOf_eq,
        partBehind_bracket (by decide), show depthStep ')' = -1 from rfl]
      congr 1
      omega
    have hbehind (a e : List Char) (hy : y = a ++ e) : 0 ≤ d + Source.depthOf a := by
      have := hd ('(' :: (b' ++ ')' :: a)) e (by simp [hy])
      simp [hb'.depthOf_eq, show depthStep '(' = 1 from rfl, show depthStep ')' = -1 from rfl] at this
      omega
    rw [hin hb, hin hb', ih hbehind]

/-- A character stands outside of the lists, and there it stands in both texts, or it stands behind a parenthesis of a
list. -/
theorem split (h : Stripped x (y₁ ++ c :: y₂)) (hc : c ≠ '(') :
    (∃ x₁ x₂, x = x₁ ++ c :: x₂ ∧ Stripped x₁ y₁ ∧ Stripped x₂ y₂) ∨
      ∃ v l l', y₁ = v ++ '(' :: l ∧ Balanced (l ++ l') := by
  generalize hy : y₁ ++ c :: y₂ = y at h
  induction h generalizing y₁ with
  | nil => simp at hy
  | @cons e x y h ih =>
    cases y₁ with
    | nil =>
      obtain ⟨rfl, rfl⟩ := List.cons.inj hy
      exact .inl ⟨[], x, rfl, .nil, h⟩
    | cons f y₁ =>
      obtain ⟨rfl, hrest⟩ := List.cons.inj hy
      rcases ih hrest with ⟨x₁, x₂, rfl, h₁, h₂⟩ | ⟨v, l, l', rfl, hl⟩
      · exact .inl ⟨f :: x₁, x₂, rfl, h₁.cons f, h₂⟩
      · exact .inr ⟨f :: v, l, l', rfl, hl⟩
  | @list b b' x y hb hstrip h ih =>
    have hb' := balanced_stripParameterTypes hb hstrip
    cases y₁ with
    | nil => exact absurd (List.cons.inj hy).1 hc
    | cons f r =>
      obtain ⟨rfl, hrest⟩ := List.cons.inj hy
      rcases Nat.lt_or_ge b'.length r.length with hlt | hle
      · obtain ⟨r', rfl, hr'⟩ := Pattern.exists_of_append hrest (Nat.le_of_lt hlt)
        cases r' with
        | nil => simp at hlt
        | cons g r' =>
          obtain ⟨rfl, hbehind⟩ := List.cons.inj hr'
          rcases ih hbehind with ⟨x₁, x₂, rfl, h₁, h₂⟩ | ⟨v, l, l', rfl, hl⟩
          · exact .inl ⟨'(' :: (b ++ ')' :: x₁), x₂, by simp, h₁.list hb hstrip, h₂⟩
          · exact .inr ⟨'(' :: (b' ++ ')' :: v), l, l', by simp, hl⟩
      · obtain ⟨l', rfl, -⟩ := Pattern.exists_of_append hrest.symm hle
        exact .inr ⟨[], r, l', rfl, hb'⟩

/-- Partners outside of the lists were partners. -/
theorem pair (h : Stripped x (y₁ ++ ')' :: y₂)) (hy : Enclosed '(' ')' 0 y₁) :
    ∃ x₁ x₂, x = x₁ ++ ')' :: x₂ ∧ Stripped x₁ y₁ ∧ Stripped x₂ y₂ := by
  refine (h.split (by decide)).resolve_right ?_
  rintro ⟨v, l, l', rfl, hl⟩
  have hsum := hy.1
  have hbefore := hy.take_nonneg
  have hinside := hl.enclosed.take_nonneg
  simp at hsum
  omega

/-- What is not taken for markup was not taken for it. -/
theorem looksLikeMarkup (h : Stripped x y) (hy : looksLikeMarkup y = false) : looksLikeMarkup x = false :=
  looksLikeMarkup_eq_false_iff.2 (h.isCodeList [] (looksLikeMarkup_eq_false_iff.1 hy))

/-- What is annotated was annotated. -/
theorem annotated (h : Stripped x y) (hx : Balanced x) (hy : Annotated y) : Annotated x := by
  obtain ⟨front, note, rfl, hdepth, hpart⟩ := hy
  have hbalanced := h.balanced hx
  rcases h.split (by decide) with ⟨x₁, x₂, rfl, hfront, -⟩ | ⟨v, l, l', rfl, hl⟩
  · refine ⟨x₁, x₂, rfl, hfront.depthOf.trans hdepth, (hfront.partBehind fun a e hae => ?_).trans hpart⟩
    rw [hae, List.append_assoc] at hbalanced
    simpa using hbalanced.depthOf_nonneg
  · rw [List.append_assoc] at hbalanced
    have hbefore := hbalanced.depthOf_nonneg
    have hinside := hl.depthOf_nonneg
    simp [show depthStep '(' = 1 from rfl] at hdepth
    omega

end Stripped

/-! ### One pass -/

/-- A list with annotations begins with the character, which stands behind `z` and before `x`. -/
def Begins (z : List Char) (c : Char) (x : List Char) : Prop :=
  c = '(' ∧ ∃ b t, x = b ++ ')' :: t ∧ Enclosed '(' ')' 0 b ∧ Listed z b t

/-- Behind `z` a pass reads `x`, makes the edits `es` and writes `y`: it strips the list that it comes to and goes on
behind it, or keeps a character. -/
inductive Pass : List Char → List Char → List ParameterEdit → List Char → Prop
  | nil (z : List Char) : Pass z [] [] []
  | keep {z x y : List Char} {es : List ParameterEdit} {c : Char} : ¬ Begins z c x → Pass (z ++ [c]) x es y →
      Pass z (c :: x) es (c :: y)
  | list {z b b' x y : List Char} {es : List ParameterEdit} : Enclosed '(' ')' 0 b → Listed z b x →
      stripParameterTypes b = some b' → Pass (z ++ '(' :: (b ++ [')'])) x es y →
      Pass z ('(' :: (b ++ ')' :: x)) (⟨z.length, z.length + 1 + b.length, b'⟩ :: es) ('(' :: (b' ++ ')' :: y))

/-- From a place on the edits are in order, and all others there stand inside of them. -/
structure Covers (s : List Char) (pos : Nat) (es : List ParameterEdit) : Prop where
  made : ∀ e ∈ es, e ∈ parameterEdits s
  apart : es.Pairwise Ahead
  behind : ∀ e ∈ es, pos ≤ e.start
  all : ∀ e ∈ parameterEdits s, pos ≤ e.start → e ∈ es ∨ ∃ f ∈ es, e.Inside f

theorem covers_appliedEdits (s : List Char) : Covers s 0 (appliedEdits s) where
  made _ := mem_of_applied
  apart := pairwise_appliedEdits s
  behind _ _ := Nat.zero_le _
  all _ he _ := applied_or_inside he

/-- Before the first cut the text stays. -/
theorem splice_kept {cuts : List Cut} {pos : Nat} {r : List Char} (hs : s.drop pos = c :: r)
    (h : ∀ k ∈ cuts, pos < k.start) : splice s pos cuts = c :: splice s (pos + 1) cuts := by
  have hrest : s.drop (pos + 1) = r := drop_of_drop (a := [c]) hs
  cases cuts with
  | nil => exact hs.trans (by rw [splice, hrest])
  | cons k cuts =>
    have hone : slice s pos (pos + 1) = [c] := slice_of_drop (a := [c]) hs
    rw [splice, splice, ← slice_append_slice s (Nat.le_succ pos) (h k List.mem_cons_self), hone]
    rfl

namespace Covers

theorem not_begins (h : Covers (z ++ c :: x) z.length es) (hlater : ∀ e ∈ es, z.length < e.start) : ¬ Begins z c x := by
  rintro ⟨rfl, b, t, rfl, hb, hlisted⟩
  obtain ⟨e, he, hstart⟩ := (exists_edit_iff rfl hb).2 hlisted
  rcases h.all e he (Nat.le_of_eq hstart.symm) with hmem | ⟨f, hf, hin⟩
  · exact Nat.ne_of_gt (hlater e hmem) hstart
  · have := hlater f hf
    have := hin.1
    omega

theorem next (h : Covers (z ++ c :: x) z.length es) (hlater : ∀ e ∈ es, z.length < e.start) :
    Covers (z ++ [c] ++ x) (z ++ [c]).length es := by
  rw [List.append_assoc, List.length_append]
  exact ⟨h.made, h.apart, hlater, fun e he hle => h.all e he (Nat.le_of_succ_le hle)⟩

/-- The edit of the list that begins here. -/
theorem exists_list {e : ParameterEdit} (h : Covers (z ++ c :: x) z.length (e :: es)) (hstart : e.start = z.length) :
    ∃ b b' t, c = '(' ∧ x = b ++ ')' :: t ∧ Enclosed '(' ')' 0 b ∧ Listed z b t ∧ stripParameterTypes b = some b' ∧
      e = ⟨z.length, z.length + 1 + b.length, b'⟩ := by
  have hmade := h.made e List.mem_cons_self
  obtain ⟨⟨a, b, t, hs, ha, hstop, hb⟩, hlist⟩ := parameterEdits_fit hmade
  obtain ⟨rfl, hrest⟩ := List.append_inj hs (hstart.symm.trans ha)
  obtain ⟨rfl, rfl⟩ := List.cons.inj hrest
  have hlisted := (exists_edit_iff hs hb).1 ⟨e, hmade, hstart⟩
  have hslice := slice_between z b (')' :: t)
  obtain ⟨start, stop, r⟩ := e
  obtain rfl : start = z.length := hstart
  obtain rfl : stop = z.length + 1 + b.length := hstop
  exact ⟨b, r, t, rfl, rfl, hb, hlisted, hslice ▸ hlist, rfl⟩

theorem behind_list {t : List Char} {e : ParameterEdit} (hstart : e.start = z.length)
    (hstop : e.stop = z.length + 1 + b.length)
    (h : Covers (z ++ '(' :: (b ++ ')' :: t)) z.length (e :: es)) :
    Covers (z ++ '(' :: (b ++ [')']) ++ t) (z ++ '(' :: (b ++ [')'])).length es := by
  obtain ⟨hahead, hapart⟩ := List.pairwise_cons.1 h.apart
  have htext : z ++ '(' :: (b ++ [')']) ++ t = z ++ '(' :: (b ++ ')' :: t) := by simp
  have hlength : (z ++ '(' :: (b ++ [')'])).length = e.stop + 1 := by
    simp
    omega
  rw [htext, hlength]
  refine ⟨fun f hf => h.made f (List.mem_cons_of_mem e hf), hapart, hahead, fun f hf hle => ?_⟩
  rcases h.all f hf (by omega) with hmem | ⟨g, hg, hin⟩
  · rcases List.mem_cons.1 hmem with rfl | hmem
    · omega
    · exact .inl hmem
  · rcases List.mem_cons.1 hg with rfl | hg
    · have := hin.2
      have := (parameterEdits_fit hf).pair.lt
      omega
    · exact .inr ⟨g, hg, hin⟩

theorem eq_nil (h : Covers (z ++ []) z.length es) : es = [] := by
  refine List.eq_nil_iff_forall_not_mem.2 fun e he => ?_
  obtain ⟨a, b, t, hs, ha, -⟩ := (parameterEdits_fit (h.made e he)).pair
  have hlength := congrArg List.length hs
  have hbehind := h.behind e he
  simp at hlength
  omega

/-- If some edit begins here it is the first one. -/
theorem exists_first (h : Covers s z.length es) (hhere : ¬ ∀ e ∈ es, z.length < e.start) :
    ∃ e es', es = e :: es' ∧ e.start = z.length := by
  cases es with
  | nil => exact absurd (fun _ he => nomatch he) hhere
  | cons e es =>
    refine ⟨e, es, rfl, Nat.le_antisymm (Nat.le_of_not_lt fun hlt => hhere fun f hf => ?_)
      (h.behind e List.mem_cons_self)⟩
    rcases List.mem_cons.1 hf with rfl | hf
    · exact hlt
    · have hahead : e.stop < f.start := (List.pairwise_cons.1 h.apart).1 f hf
      have := (parameterEdits_fit (h.made e List.mem_cons_self)).pair.lt
      omega

/-- The cut of a list that begins here, and the parenthesis behind it. -/
theorem splice_list {t : List Char} {e : ParameterEdit} (hstart : e.start = z.length)
    (hstop : e.stop = z.length + 1 + b.length) (h : Covers (z ++ '(' :: (b ++ ')' :: t)) z.length (e :: es)) :
    splice (z ++ '(' :: (b ++ ')' :: t)) z.length ((e :: es).map cut) = '(' :: (e.replacement ++
      ')' :: splice (z ++ '(' :: (b ++ [')']) ++ t) (z ++ '(' :: (b ++ [')'])).length (es.map cut)) := by
  have htext : z ++ '(' :: (b ++ [')']) ++ t = z ++ '(' :: (b ++ ')' :: t) := by simp
  have hlength : (z ++ '(' :: (b ++ [')'])).length = e.stop + 1 := by
    simp
    omega
  have hopen : slice (z ++ '(' :: (b ++ ')' :: t)) z.length (z.length + 1) = ['('] :=
    slice_of_drop (a := ['(']) (r := b ++ ')' :: t) (by rw [List.drop_left]; rfl)
  have hclose : (z ++ '(' :: (b ++ ')' :: t)).drop e.stop = ')' :: t := by
    rw [show z ++ '(' :: (b ++ ')' :: t) = (z ++ '(' :: b) ++ ')' :: t by simp,
      show e.stop = (z ++ '(' :: b).length by simp; omega, List.drop_left]
  have hcuts : ∀ k ∈ es.map cut, e.stop < k.start :=
    List.forall_mem_map.2 fun f hf => Nat.lt_succ_of_lt ((List.pairwise_cons.1 h.apart).1 f hf)
  rw [List.map_cons, splice, cut, hstart, hopen, splice_kept hclose hcuts, htext, hlength]
  rfl

/-- Such edits are those of a pass, which writes the text with their cuts made. -/
theorem pass (h : Covers (z ++ x) z.length es) : Pass z x es (splice (z ++ x) z.length (es.map cut)) := by
  induction hn : x.length using Nat.strongRecOn generalizing z x es with
  | ind n ih =>
    cases x with
    | nil =>
      obtain rfl := h.eq_nil
      rw [List.map_nil, splice, List.append_nil, List.drop_length]
      exact .nil z
    | cons c x =>
      by_cases hlater : ∀ e ∈ es, z.length < e.start
      case pos =>
        have hcuts : ∀ k ∈ es.map cut, z.length < k.start :=
          List.forall_mem_map.2 fun e he => Nat.lt_succ_of_lt (hlater e he)
        have hrest := ih x.length (by rw [← hn]; exact Nat.lt_succ_self _) (h.next hlater) rfl
        rw [splice_kept (r := x) (by rw [List.drop_left]) hcuts]
        refine .keep (h.not_begins hlater) ?_
        simpa using hrest
      case neg =>
        obtain ⟨e, es, rfl, hstart⟩ := h.exists_first hlater
        obtain ⟨b, b', t, rfl, rfl, hb, hlisted, hstrip, rfl⟩ := h.exists_list hstart
        have hlt : t.length < n := by
          rw [← hn]
          simp
          omega
        rw [h.splice_list rfl rfl]
        exact .list hb hlisted hstrip (ih t.length hlt (h.behind_list rfl rfl) rfl)

end Covers

theorem pass_stripParameterLists (s : List Char) : Pass [] s (appliedEdits s) (stripParameterLists s) := by
  rw [stripParameterLists_applied]
  exact Covers.pass (z := []) (covers_appliedEdits s)

/-! ### What a pass leaves -/

/-- The brackets in every list with a head before it or an arrow behind it balance, unless it looks like markup. -/
def ListsBalance (s : List Char) : Prop :=
  ∀ a b t, s = a ++ '(' :: (b ++ ')' :: t) → Enclosed '(' ')' 0 b → Headed a ∨ Arrowed t → looksLikeMarkup b = false →
    Balanced b

/-- So they do where all brackets of the text balance. -/
theorem Balanced.lists (h : Balanced s) : ListsBalance s := fun a b t hs hb _ _ => by
  rw [hs] at h
  exact h.between hb

/-- Inside of an edit there is a list with annotations that stands in no annotation. -/
def Leaves (s : List Char) (f : ParameterEdit) : Prop :=
  ∃ e ∈ parameterEdits s, e.Inside f ∧ partBehind 0 .binding (slice s (f.start + 1) e.start) ≠ .note

theorem leaves_iff {r : List Char} (hb : Enclosed '(' ')' 0 b) :
    Leaves (z ++ '(' :: (b ++ ')' :: x)) ⟨z.length, z.length + 1 + b.length, r⟩ ↔
      HasPair b fun a b' t => Listed (z ++ '(' :: a) b' (t ++ ')' :: x) ∧ partBehind 0 .binding a ≠ .note := by
  refine ⟨fun ⟨e, he, ⟨hstart, hstop⟩, hpart⟩ => ?_, fun ⟨a, b', t, hlist, hb', hlisted, hpart⟩ => ?_⟩
  · obtain ⟨front, b', t, hs, hopen, hclose, hb'⟩ := (parameterEdits_fit he).pair
    dsimp only at hstart hstop hpart
    obtain ⟨v, rfl, hrest⟩ := Pattern.exists_of_append hs.symm (by omega)
    cases v with
    | nil => simp at hopen; omega
    | cons c a =>
      obtain ⟨rfl, hrest⟩ := List.cons.inj hrest
      have hlength : (z ++ '(' :: a).length = z.length + 1 + a.length := by
        simp
        omega
      rw [hlength] at hopen hclose
      have hrest : b ++ ')' :: x = a ++ '(' :: (b' ++ [')']) ++ t := by simpa using hrest.symm
      obtain ⟨t', rfl, rfl⟩ := Pattern.exists_of_append hrest (by simp; omega)
      have hlisted := (exists_edit_iff hs hb').1 ⟨e, he, hopen.trans hlength.symm⟩
      refine ⟨a, b', t', by simp, hb', hlisted, ?_⟩
      rw [hopen, List.append_assoc, List.append_assoc a, slice_between] at hpart
      exact hpart
  · have hs : z ++ '(' :: (b ++ ')' :: x) = (z ++ '(' :: a) ++ '(' :: (b' ++ ')' :: (t ++ ')' :: x)) := by simp [hlist]
    obtain ⟨e, he, hstart⟩ := (exists_edit_iff hs hb').2 hlisted
    have hpair : ParenPair (z ++ '(' :: (b ++ ')' :: x)) e.start _ :=
      ⟨z ++ '(' :: a, b', t ++ ')' :: x, hs, hstart, rfl, hb'⟩
    have hstop := (parameterEdits_fit he).pair.stop_unique hpair
    have hstart : e.start = z.length + 1 + a.length := by
      simp at hstart
      omega
    refine ⟨e, he, ⟨?_, ?_⟩, ?_⟩
    · rw [hstart]
      dsimp only
      omega
    · rw [hstop, hlist]
      simp
      omega
    · rw [hstart, hs]
      have hbefore := slice_between z a ('(' :: (b' ++ ')' :: (t ++ ')' :: x)))
      simpa [hbefore] using hpart

theorem ListsBalance.balanced {t : List Char} (h : ListsBalance (z ++ '(' :: (b ++ ')' :: t)))
    (hb : Enclosed '(' ')' 0 b)
    (hlisted : Listed z b t) : Balanced b :=
  h z b t rfl hb hlisted.1 (stripParameterTypes_ne_none_iff.1 hlisted.2).1

namespace Pass

theorem stripped (h : Pass z x es y) (hlists : ListsBalance (z ++ x)) : Stripped x y := by
  induction h with
  | nil => exact .nil
  | @keep z x y es c _ _ ih =>
    rw [List.append_cons] at hlists
    exact (ih hlists).cons c
  | @list z b b' x y es hb hlisted hstrip _ ih =>
    refine (ih ?_).list (hlists.balanced hb hlisted) hstrip
    rwa [List.append_assoc, List.cons_append, List.append_assoc, List.singleton_append]

/-- Where no list with annotations began, none begins in what is written. -/
theorem not_begins (h : Stripped x y) (hlists : ListsBalance (z ++ c :: x)) (heads : Headed z ↔ Headed z')
    (hno : ¬ Begins z c x) : ¬ Begins z' c y := by
  rintro ⟨rfl, b', t', rfl, hb', hnext, hlist⟩
  obtain ⟨b, t, rfl, hb, ht⟩ := h.pair hb'
  obtain ⟨hcode, hann⟩ := stripParameterTypes_ne_none_iff.1 hlist
  have henclosed := hb.enclosed.2 hb'
  have hfound : Headed z ∨ Arrowed t := hnext.imp heads.2 ht.arrowed.2
  have hplain := hb.looksLikeMarkup hcode
  have hannotated := hb.annotated (hlists z b t rfl henclosed hfound hplain) hann
  exact hno ⟨rfl, b, t, rfl, henclosed, hfound, stripParameterTypes_ne_none_iff.2 ⟨hplain, hannotated⟩⟩

/-- The lists with annotations in what a pass writes are those that its edits leave. -/
theorem hasPair_iff (h : Pass z x es y) (hlists : ListsBalance (z ++ x))
    (heads : ∀ k, Headed (z ++ k) ↔ Headed (z' ++ k)) :
    (HasPair y fun a => Listed (z' ++ a)) ↔ ∃ f ∈ es, Leaves (z ++ x) f := by
  induction h generalizing z' with
  | nil => simp [not_hasPair]
  | @keep z x y es c hno hpass ih =>
    have hlists' := hlists
    rw [List.append_cons] at hlists'
    have hhere : Headed z ↔ Headed z' := by simpa using heads []
    have hbegins : ¬ Begins (z' ++ []) c y := by
      rw [List.append_nil]
      exact not_begins (hpass.stripped hlists') hlists hhere hno
    have hheads (k : List Char) : Headed (z ++ [c] ++ k) ↔ Headed (z' ++ [c] ++ k) := by
      rw [List.append_assoc, List.append_assoc]
      exact heads _
    have hrest := ih hlists' hheads
    simp only [List.append_assoc, List.singleton_append] at hrest
    rw [hasPair_cons, hrest]
    exact or_iff_right hbegins
  | @list z b b' x y es hb hlisted hstrip hpass ih =>
    have htext : z ++ '(' :: (b ++ [')']) ++ x = z ++ '(' :: (b ++ ')' :: x) := by simp
    have hbalanced := hlists.balanced hb hlisted
    have hb' := balanced_stripParameterTypes hbalanced hstrip
    have hwall (z b k : List Char) : Headed (z ++ '(' :: (b ++ [')']) ++ k) ↔ Headed (')' :: k) := by
      have := headed_wall (c := ')') (by decide) (z ++ '(' :: b) k
      simpa using this
    have hrest := ih (htext ▸ hlists) fun k => (hwall z b k).trans (hwall z' b' k).symm
    have halike : Alike (z ++ ['(']) (z' ++ ['(']) (')' :: x) (')' :: y) :=
      ⟨fun k => by simpa using heads ('(' :: k), shut_cons rfl (by decide) (by simp),
        shut_cons rfl (by decide) (by simp)⟩
    have hin := hasPair_stripParameterTypes hbalanced hstrip halike
    have hnone : ¬ Listed (z' ++ []) b' y := fun hlist => hlist.2 (stripParameterTypes_stripped hstrip)
    simp only [List.append_assoc, List.cons_append, List.nil_append] at hrest hin
    rw [hasPair_list hb'.enclosed, or_iff_right hnone, hin, hrest, ← leaves_iff (r := b') hb]
    simp

end Pass

/-- **A second pass.** In a text whose lists balance, a second pass changes nothing just when every list with
annotations inside of a list that is stripped stands in an annotation of it. -/
theorem restripped_iff (h : ListsBalance s) :
    stripParameterLists (stripParameterLists s) = stripParameterLists s ↔
      ∀ f ∈ appliedEdits s, ∀ e ∈ parameterEdits s, e.Inside f →
        partBehind 0 .binding (slice s (f.start + 1) e.start) = .note := by
  rw [stripParameterLists_eq_self_iff]
  have hleft : HasPair (stripParameterLists s) Listed ↔ ∃ f ∈ appliedEdits s, Leaves s f :=
    (pass_stripParameterLists s).hasPair_iff h fun _ => Iff.rfl
  rw [hleft]
  simp [Leaves]

/-! ### Two functions -/

/-- Two edits, of which the inner one was found first. -/
theorem stripParameterLists_pair {inner outer : ParameterEdit} (h : parameterEdits s = [inner, outer])
    (hlt : outer.start < inner.start) : stripParameterLists s = applyEdits 0 s [outer, inner] := by
  have hsort : [inner, outer].mergeSort ParameterEdit.before = [outer, inner] := by
    simp [List.mergeSort, List.merge, ParameterEdit.before]
    omega
  rw [stripParameterLists, h, hsort]

/-- A function with a list in an annotation. -/
def typedCallback : List Char := "function f(a: A, done: (x: T) => void, n = 1) \x7b\x7d".toList

theorem restripped_typedCallback : ListsBalance typedCallback ∧
    stripParameterLists typedCallback = "function f(a, done, n = 1) \x7b\x7d".toList ∧
    stripParameterLists (stripParameterLists typedCallback) = stripParameterLists typedCallback := by
  have hbalance : ListsBalance typedCallback := Balanced.lists (by decide)
  have hedits : parameterEdits typedCallback = [⟨23, 28, ['x']⟩, ⟨10, 44, "a, done, n = 1".toList⟩] := by decide +kernel
  have hin : ∀ f ∈ parameterEdits typedCallback, ∀ e ∈ parameterEdits typedCallback, e.Inside f →
      partBehind 0 .binding (slice typedCallback (f.start + 1) e.start) = .note := by decide +kernel
  have hfirst : stripParameterLists typedCallback = "function f(a, done, n = 1) \x7b\x7d".toList := by
    rw [stripParameterLists_pair hedits (by decide)]
    decide
  exact ⟨hbalance, hfirst, (restripped_iff hbalance).2 fun f hf => hin f (mem_of_applied hf)⟩

/-- A function with a list in a default value. -/
def defaultCallback : List Char := "function f(a: A, cb = (x: T) => x) \x7b\x7d".toList

/-- The list in the default value loses its annotation in the second pass. -/
theorem default_callback_left : ¬ ∀ s, stripParameterLists (stripParameterLists s) = stripParameterLists s := by
  intro h
  have hedits : parameterEdits defaultCallback = [⟨22, 27, ['x']⟩, ⟨10, 33, "a, cb = (x: T) => x".toList⟩] := by
    decide +kernel
  have hfirst : stripParameterLists defaultCallback = "function f(a, cb = (x: T) => x) \x7b\x7d".toList := by
    rw [stripParameterLists_pair hedits (by decide)]
    decide
  have hleft : parameterEdits "function f(a, cb = (x: T) => x) \x7b\x7d".toList = [⟨19, 24, ['x']⟩] := by decide +kernel
  have hsecond : stripParameterLists "function f(a, cb = (x: T) => x) \x7b\x7d".toList =
      "function f(a, cb = (x) => x) \x7b\x7d".toList := by
    rw [stripParameterLists, hleft, List.mergeSort_singleton]
    decide
  have hsame := h defaultCallback
  rw [hfirst, hsecond] at hsame
  exact absurd hsame (by decide)

end LivePreview.Source
