import LivePreview.Proofs.Source.Level
import LivePreview.Proofs.Source.TypeArguments

/-! What the stripping of a parameter list leaves.

A list whose parameters are made of bindings, annotations and default values loses the annotations, with their marks
of optional parameters, and keeps everything else but white space beside them (`annotations_stripped`). What is left
of any list has no annotation any more. -/
namespace LivePreview.Source

variable {s t p q binding note rest : List Char} {ps : List (List Char)} {d : Int}

/-! ### Lists that are not taken for markup -/

/-- No quote, and no angle bracket but that of an arrow. -/
def IsCodeList (s : List Char) : Prop :=
  (∀ c ∈ s, c ≠ '\'' ∧ c ≠ '"' ∧ c ≠ '\x60' ∧ c ≠ '<') ∧ ∀ a b, s = a ++ '>' :: b → a.getLast? = some '='

theorem isCodeList_arrow : IsCodeList ('=' :: '>' :: s) ↔ IsCodeList s := by
  refine ⟨fun ⟨hchars, harrow⟩ => ⟨fun c hc => hchars c (by simp [hc]), fun a b hs => ?_⟩,
    fun ⟨hchars, harrow⟩ => ⟨fun c hc => ?_, fun a b hs => ?_⟩⟩
  · have hlast := harrow ('=' :: '>' :: a) b (by rw [hs]; rfl)
    cases a with
    | nil => simp at hlast
    | cons x a => simpa using hlast
  · rcases List.mem_cons.1 hc with rfl | hc
    · decide
    · rcases List.mem_cons.1 hc with rfl | hc
      · decide
      · exact hchars c hc
  · obtain _ | ⟨x, _ | ⟨y, a⟩⟩ := a
    · cases hs
    · cases hs
      rfl
    · have hlast := harrow a b (List.cons.inj (List.cons.inj hs).2).2
      cases a with
      | nil => cases hlast
      | cons z a => simpa using hlast

theorem isCodeList_cons {c : Char} (hno : ∀ r, c = '=' → s = '>' :: r → False) : IsCodeList (c :: s) ↔
    (c ≠ '\'' ∧ c ≠ '"' ∧ c ≠ '\x60' ∧ c ≠ '<' ∧ c ≠ '>') ∧ IsCodeList s := by
  refine ⟨fun ⟨hchars, harrow⟩ => ?_, fun ⟨hc, hchars, harrow⟩ => ⟨?_, fun a b hs => ?_⟩⟩
  · obtain ⟨⟨h1, h2, h3, h4⟩, hrest⟩ := List.forall_mem_cons.1 hchars
    refine ⟨⟨h1, h2, h3, h4, ?_⟩, hrest, fun a b hs => ?_⟩
    · rintro rfl
      exact absurd (harrow [] s rfl) (by simp)
    · have hlast := harrow (c :: a) b (by rw [hs]; rfl)
      cases a with
      | nil => exact (hno b (by simpa using hlast) hs).elim
      | cons x a => simpa using hlast
  · exact List.forall_mem_cons.2 ⟨⟨hc.1, hc.2.1, hc.2.2.1, hc.2.2.2.1⟩, hchars⟩
  · cases a with
    | nil =>
      cases hs
      exact absurd rfl hc.2.2.2.2
    | cons x a =>
      have hlast := harrow a b (List.cons.inj hs).2
      cases a with
      | nil => cases hlast
      | cons y a => simpa using hlast

theorem isCodeList_append (ht : t.head? ≠ some '>') : IsCodeList (s ++ t) ↔ IsCodeList s ∧ IsCodeList t := by
  refine ⟨fun ⟨hchars, harrow⟩ => ⟨⟨fun c hc => hchars c (List.mem_append_left t hc), fun a b hs => ?_⟩,
    fun c hc => hchars c (List.mem_append_right s hc), fun a b hs => ?_⟩,
    fun ⟨⟨hchars, harrow⟩, hchars', harrow'⟩ => ⟨fun c hc => ?_, fun a b hs => ?_⟩⟩
  · exact harrow a (b ++ t) (by simp [hs])
  · have hlast := harrow (s ++ a) b (by simp [hs])
    cases a with
    | nil => exact absurd (by rw [hs]; rfl) ht
    | cons x a => simpa using hlast
  · exact (List.mem_append.1 hc).elim (hchars c) (hchars' c)
  · rcases List.append_eq_append_iff.1 hs with ⟨a', rfl, ht'⟩ | ⟨b', rfl, hb⟩
    · have hlast := harrow' a' b ht'
      rw [List.getLast?_append, hlast, Option.some_or]
    · cases b' with
      | nil => exact absurd (by rw [← List.nil_append t, ← hb]; rfl) ht
      | cons x b' =>
        obtain ⟨rfl, -⟩ := List.cons.inj hb
        exact harrow a b' rfl

theorem looksLikeMarkup_eq_false_iff : looksLikeMarkup s = false ↔ IsCodeList s := by
  induction s using looksLikeMarkup.induct with
  | case1 => simp [looksLikeMarkup, IsCodeList]
  | case2 r ih => rw [looksLikeMarkup, ih, isCodeList_arrow]
  | case3 c r hno ih =>
    rw [isCodeList_cons hno, looksLikeMarkup.eq_3 c r hno, ← ih]
    simp [and_assoc]

/-! ### One parameter -/

/-- A colon or an equals sign that starts no arrow. -/
def isMarker (c : Char) (r : List Char) : Bool := c == ':' || isDefaultSign c r

theorem isDefaultSign_append (c : Char) (b r : List Char) (h : isDefaultSign c b = false) :
    isDefaultSign c (b ++ r) = false := by
  cases b with
  | nil =>
    have hc : (c == '=') = false := by simpa [isDefaultSign] using h
    rw [isDefaultSign, hc, Bool.false_and]
  | cons x b => exact h

theorem isMarker_append (c : Char) (b r : List Char) (h : isMarker c b = false) : isMarker c (b ++ r) = false := by
  obtain ⟨hc, hsign⟩ := Bool.or_eq_false_iff.1 h
  exact Bool.or_eq_false_iff.2 ⟨hc, isDefaultSign_append c b r hsign⟩

/-- Of what follows a character, no more is looked at than whether it ends an arrow. -/
def Peeks (stops : Char → List Char → Bool) : Prop :=
  ∀ c r r', (r.head? = some '>' ↔ r'.head? = some '>') → stops c r = stops c r'

theorem peeks_isDefaultSign : Peeks isDefaultSign := fun c r r' h => by
  rw [isDefaultSign, isDefaultSign, Bool.eq_iff_iff]
  simp [h]

theorem peeks_isMarker : Peeks isMarker := fun c r r' h => by rw [isMarker, isMarker, peeks_isDefaultSign c r r' h]

/-- What is not stopped with something behind it that ends no arrow is not stopped with nothing behind it. -/
theorem Unstopped.alone {stops : Char → List Char → Bool} (h : Unstopped stops d s rest) (hstops : Peeks stops)
    (hrest : rest.head? ≠ some '>') : Unstopped stops d s [] := by
  intro a c b hs hd hc
  rw [hstops c (b ++ []) (b ++ rest) (by cases b <;> simp [hrest])]
  exact h a c b hs hd hc

/-- A binding without the marks of an optional parameter behind it, and without the white space there. -/
def unmarked (binding : List Char) : List Char :=
  Text.trimEnd ((Text.trimEnd binding).reverse.dropWhile (· == '?')).reverse

/-- The white space at the end of a text. -/
def endBlanks (s : List Char) : List Char := (s.reverse.takeWhile Text.isSpace).reverse

theorem blank_endBlanks (s : List Char) : Blank (endBlanks s) :=
  fun c hc => List.all_eq_true.1 List.all_takeWhile c (List.mem_reverse.1 hc)

theorem endBlanks_behind {c : Char} (hc : Text.isSpace c = false) (a b : List Char) :
    endBlanks (a ++ c :: b) = endBlanks b := by
  have hreverse : (a ++ c :: b).reverse = b.reverse ++ c :: a.reverse := by simp
  rw [endBlanks, endBlanks, hreverse, takeWhile_append_stop hc]

theorem last_trimEnd (s : List Char) : ∀ c ∈ (Text.trimEnd s).getLast?, Text.isSpace c = false := by
  intro c hc
  rw [Text.trimEnd, List.getLast?_reverse] at hc
  have hhead := List.head?_dropWhile_not Text.isSpace s.reverse
  rw [hc] at hhead
  exact hhead

theorem exists_marks (binding : List Char) : ∃ w marks, Text.trimEnd binding = unmarked binding ++ (w ++ marks) ∧
    Blank w ∧ ∀ c ∈ marks, c = '?' := by
  obtain ⟨w, hw, hblank⟩ := exists_trimEnd_blank ((Text.trimEnd binding).reverse.dropWhile (· == '?')).reverse
  refine ⟨w, ((Text.trimEnd binding).reverse.takeWhile (· == '?')).reverse, ?_, hblank, fun c hc => ?_⟩
  · rw [unmarked, ← List.append_assoc, ← hw, ← List.reverse_append, List.takeWhile_append_dropWhile,
      List.reverse_reverse]
  · exact beq_iff_eq.1 (List.all_eq_true.1 List.all_takeWhile c (List.mem_reverse.1 hc))

/-- One mark more goes with the others, or alone when there is none. -/
theorem unmarked_mark (binding : List Char) : unmarked (binding ++ ['?']) = unmarked binding ∨
    unmarked (binding ++ ['?']) = Text.trimEnd binding := by
  have hmark : Text.trimEnd (binding ++ ['?']) = binding ++ ['?'] := by
    simp [Text.trimEnd, show Text.isSpace '?' = false from rfl]
  have hdrop : unmarked (binding ++ ['?']) = Text.trimEnd (binding.reverse.dropWhile (· == '?')).reverse := by
    rw [unmarked, hmark]
    simp
  rw [hdrop]
  by_cases hlast : binding.getLast? = some '?'
  case pos =>
    have htrim : Text.trimEnd binding = binding := by
      simpa [Text.trimEnd] using trimEnd_append (u := binding)
        (by simp [hlast, show Text.isSpace '?' = false from rfl]) []
    rw [unmarked, htrim]
    exact .inl rfl
  case neg =>
    have hnone : binding.reverse.dropWhile (· == '?') = binding.reverse := by
      rw [← List.head?_reverse] at hlast
      cases hb : binding.reverse with
      | nil => rfl
      | cons c b => rw [List.dropWhile_cons_of_neg (by simpa [hb] using hlast)]
    rw [hnone, List.reverse_reverse]
    exact .inr rfl

/-- The marks and the white space that go with an annotation hold no bracket, no colon and no sign. -/
theorem exists_unmarked (binding : List Char) : ∃ gone, binding = unmarked binding ++ gone ∧
    ∀ c ∈ gone, Text.isSpace c = true ∨ c = '?' := by
  obtain ⟨w, marks, v, hbinding, hw, hmarks, hv⟩ := exists_kept binding
  refine ⟨w ++ (marks ++ v), hbinding, fun c hc => ?_⟩
  rcases List.mem_append.1 hc with hc | hc
  · exact .inl (hw c hc)
  · rcases List.mem_append.1 hc with hc | hc
    · exact .inr (hmarks c hc)
    · exact .inl (hv c hc)

theorem depthOf_unmarked (binding : List Char) : depthOf (unmarked binding) = depthOf binding := by
  obtain ⟨gone, hbinding, hgone⟩ := exists_unmarked binding
  have hzero : depthOf gone = 0 := depthOf_eq_zero fun c hc => by
    rcases hgone c hc with hspace | rfl
    · exact depthStep_of_isSpace hspace
    · rfl
  conv => rhs; rw [hbinding, depthOf_append, hzero, Int.add_zero]

theorem unstopped_unmarked (h : Unstopped isMarker d binding (':' :: note)) :
    Unstopped isMarker d (unmarked binding) [] := by
  obtain ⟨gone, hbinding, hgone⟩ := exists_unmarked binding
  rw [hbinding] at h
  refine (unstopped_append.1 h).1.alone peeks_isMarker ?_
  cases gone with
  | nil => simp
  | cons c gone =>
    rintro ⟨⟩
    rcases hgone '>' List.mem_cons_self with hspace | hmark
    · cases hspace
    · cases hmark

theorem unstopped_blank (h : Blank s) : Unstopped isMarker d s rest := unstopped_of_forall fun c hc r => by
  have hspace := h c hc
  refine Bool.or_eq_false_iff.2 ⟨beq_eq_false_iff_ne.2 ?_, ?_⟩
  · rintro rfl
    cases hspace
  · have hne : (c == '=') = false := by
      rw [beq_eq_false_iff_ne]
      rintro rfl
      cases hspace
    rw [isDefaultSign, hne, Bool.false_and]

theorem unstopped_comma_blank (h : Blank s) : Unstopped isComma d s rest := unstopped_of_forall fun c hc r => by
  rw [isComma, beq_eq_false_iff_ne]
  rintro rfl
  cases h _ hc

theorem untypedParameter?_colon (h : cutAt isMarker 0 p = some (binding, ':' :: note)) : untypedParameter? p =
    match cutAt isDefaultSign 0 note with
    | some (_, value) => some (unmarked binding ++ ' ' :: Text.trimStart value)
    | none => some (unmarked binding ++ endBlanks p) := by
  have h : cutAt (fun c r => c == ':' || isDefaultSign c r) 0 p = some (binding, ':' :: note) := h
  unfold untypedParameter?
  rw [h]
  rfl

theorem untypedParameter?_no_colon (h : ∀ x ∈ cutAt isMarker 0 p, x.2.head? ≠ some ':') :
    untypedParameter? p = none := by
  unfold untypedParameter?
  split
  case h_1 binding note hcut => exact absurd rfl (h (binding, ':' :: note) hcut)
  case h_2 => rfl

/-- How a parameter loses its annotation. -/
theorem exists_of_untypedParameter? (h : untypedParameter? p = some q) : ∃ binding note, p = binding ++ ':' :: note ∧
    depthOf binding = 0 ∧ Unstopped isMarker 0 binding (':' :: note) ∧
      ((∃ type value, note = type ++ '=' :: value ∧ (depthOf type = 0 ∧ Unstopped isDefaultSign 0 type ('=' :: value)) ∧
          value.head? ≠ some '>' ∧ q = unmarked binding ++ ' ' :: '=' :: value) ∨
        Unstopped isDefaultSign 0 note [] ∧ q = unmarked binding ++ endBlanks note) := by
  cases hcut : cutAt isMarker 0 p with
  | none =>
    rw [untypedParameter?_no_colon (by simp [hcut])] at h
    cases h
  | some cut =>
    obtain ⟨binding, behind⟩ := cut
    by_cases hcolon : behind.head? = some ':'
    case neg =>
      rw [untypedParameter?_no_colon (by simpa [hcut] using hcolon)] at h
      cases h
    case pos =>
      obtain ⟨note, rfl⟩ := List.head?_eq_some_iff.1 hcolon
      obtain ⟨hfree, hdepth⟩ := cutAt_unstopped hcut
      have hp := cutAt_eq hcut
      refine ⟨binding, note, hp, by simpa using hdepth, hfree, ?_⟩
      rw [untypedParameter?_colon hcut] at h
      split at h
      case h_1 type value hvalue =>
        obtain ⟨c, r, rfl, hsign⟩ := cutAt_stops hvalue
        obtain rfl := eq_of_isDefaultSign hsign
        obtain ⟨htype, hdepth⟩ := cutAt_unstopped hvalue
        refine .inl ⟨type, r, cutAt_eq hvalue, ⟨by simpa using hdepth, htype⟩, ?_, ?_⟩
        · simpa [isDefaultSign] using hsign
        · exact (Option.some.inj h).symm
      case h_2 hnone =>
        rw [hp, endBlanks_behind rfl] at h
        exact .inr ⟨cutAt_eq_none_iff.1 hnone, (Option.some.inj h).symm⟩

/-- A parameter that has lost its annotation has none. -/
theorem untypedParameter?_untyped (h : untypedParameter? p = some q) : untypedParameter? q = none := by
  obtain ⟨binding, note, -, hdepth, hfree, hq⟩ := exists_of_untypedParameter? h
  have hkept := unstopped_unmarked hfree
  have hkeptDepth : depthOf (unmarked binding) = 0 := by rw [depthOf_unmarked, hdepth]
  rcases hq with ⟨type, value, -, -, hvalue, rfl⟩ | ⟨-, rfl⟩
  · have hsign : isMarker '=' value = true := by simpa [isMarker, isDefaultSign] using hvalue
    have hcut : cutAt isMarker 0 (unmarked binding ++ ' ' :: '=' :: value) =
        some (unmarked binding ++ [' '], '=' :: value) := by
      rw [cutAt_append (hkept.behind isMarker_append _), hkeptDepth, Int.add_zero, cutAt]
      simp [show depthStep ' ' = 0 from rfl, show isMarker ' ' ('=' :: value) = false from rfl,
        show cutAt isMarker 0 ('=' :: value) = some ([], '=' :: value) from cutAt_here rfl hsign]
    exact untypedParameter?_no_colon (by simp [hcut])
  · have hcut : cutAt isMarker 0 (unmarked binding ++ endBlanks note) = none :=
      cutAt_eq_none_iff.2 ((hkept.behind isMarker_append _).append (unstopped_blank (blank_endBlanks note)))
    exact untypedParameter?_no_colon (by simp [hcut])

/-- A parameter without its annotation ends at depth zero where the parameter does. -/
theorem depthOf_untyped (h : untypedParameter? p = some q) (hp : depthOf p = 0) : depthOf q = 0 := by
  obtain ⟨binding, note, rfl, hdepth, -, hq⟩ := exists_of_untypedParameter? h
  rcases hq with ⟨type, value, rfl, ⟨htype, -⟩, -, rfl⟩ | ⟨-, rfl⟩
  · simpa [depthOf_unmarked, hdepth, htype, show depthStep ':' = 0 from rfl, show depthStep '=' = 0 from rfl,
      show depthStep ' ' = 0 from rfl] using hp
  · rw [depthOf_append, depthOf_unmarked, hdepth, (blank_endBlanks note).depthOf, Int.add_zero]

theorem unstopped_comma_untyped (h : untypedParameter? p = some q) (hp : Unstopped isComma 0 p []) :
    Unstopped isComma 0 q [] := by
  obtain ⟨binding, note, rfl, hdepth, -, hq⟩ := exists_of_untypedParameter? h
  obtain ⟨gone, hbinding, -⟩ := exists_unmarked binding
  obtain ⟨hfree, hnote⟩ := unstopped_append.1 hp
  have hkept : Unstopped isComma 0 (unmarked binding) [] := by
    rw [hbinding] at hfree
    exact (unstopped_append.1 hfree).1
  rcases hq with ⟨type, value, rfl, ⟨htype, -⟩, -, rfl⟩ | ⟨-, rfl⟩
  · rw [hdepth, Int.zero_add] at hnote
    have hvalue := (unstopped_append.1 (unstopped_cons.1 hnote).2).2
    rw [show depthStep ':' = 0 from rfl, htype, Int.zero_add] at hvalue
    refine hkept.comma _ |>.append ?_
    rw [depthOf_unmarked, hdepth, Int.zero_add]
    exact unstopped_cons.2 ⟨fun _ _ => rfl, hvalue⟩
  · exact (hkept.comma _).append (unstopped_comma_blank (blank_endBlanks note))

/-! ### A list -/

/-- A list without its annotations is put together of its parameters without theirs. -/
theorem stripParameterTypes_eq : stripParameterTypes s =
    if looksLikeMarkup s = false ∧ ∃ p ∈ splitCommas 0 s, untypedParameter? p ≠ none then
      some ([','].intercalate ((splitCommas 0 s).map fun p => (untypedParameter? p).getD p))
    else none := by
  have hany : ((splitCommas 0 s).map fun p => (p, untypedParameter? p)).any (·.2.isSome) = true ↔
      ∃ p ∈ splitCommas 0 s, untypedParameter? p ≠ none := by
    simp [List.any_eq_true, Option.isSome_iff_ne_none]
  unfold stripParameterTypes
  cases hmarkup : looksLikeMarkup s with
  | true => simp
  | false =>
    simp only [Bool.false_eq_true, if_false, true_and, hany, List.map_map, Function.comp_def]

theorem stripParameterTypes_eq_some (h : stripParameterTypes s = some t) :
    t = [','].intercalate ((splitCommas 0 s).map fun p => (untypedParameter? p).getD p) := by
  rw [stripParameterTypes_eq] at h
  split at h
  case isTrue => exact (Option.some.inj h).symm
  case isFalse => cases h

theorem pieces_untyped (h : Pieces 0 ps) : Pieces 0 (ps.map fun p => (untypedParameter? p).getD p) := by
  refine h.map (fun p _ hp => ?_) fun p _ hp => ?_
  all_goals cases hq : untypedParameter? p
  case refine_1.none => exact hp
  case refine_1.some q => exact unstopped_comma_untyped hq hp
  case refine_2.none => exact hp
  case refine_2.some q => exact depthOf_untyped hq hp

/-- What is left of a list has no annotation. -/
theorem stripParameterTypes_stripped (h : stripParameterTypes s = some t) : stripParameterTypes t = none := by
  obtain rfl := stripParameterTypes_eq_some h
  rw [stripParameterTypes_eq, splitCommas_intercalate (pieces_untyped (pieces_splitCommas 0 s)), if_neg]
  rintro ⟨-, q, hq, hne⟩
  obtain ⟨p, -, rfl⟩ := List.mem_map.1 hq
  cases hp : untypedParameter? p with
  | none => simp [hp] at hne
  | some q => exact hne (by simpa [hp] using untypedParameter?_untyped hp)

/-! ### Lists made of parameters -/

/-- An annotation: a mark if the parameter is optional, and a type. -/
structure TypeNote where
  optional : Bool
  type : List Char
deriving DecidableEq, Repr

/-- A parameter: a binding, perhaps an annotation, perhaps a default value. -/
structure Parameter where
  binding : List Char
  note : Option TypeNote
  value : Option (List Char)
deriving DecidableEq, Repr

def TypeNote.mark (n : TypeNote) : List Char := if n.optional then ['?'] else []

def TypeNote.text (n : TypeNote) : List Char := n.mark ++ ':' :: n.type

namespace Parameter

/-- A default value with its equals sign. -/
def valueText (p : Parameter) : List Char := p.value.elim [] ('=' :: ·)

def text (p : Parameter) : List Char := p.binding ++ (p.note.elim [] TypeNote.text ++ p.valueText)

/-- The parameters of a list with commas between them. -/
def listText (ps : List Parameter) : List Char := [','].intercalate (ps.map text)

/-- The brackets of each part balance, no comma separates parameters inside of one, the annotation begins at the first
colon and the default value at the first equals sign. -/
structure Proper (p : Parameter) : Prop where
  binding : IsPiece p.binding ∧ Unstopped isMarker 0 p.binding []
  type : ∀ n ∈ p.note, IsPiece n.type ∧ Unstopped isDefaultSign 0 n.type []
  value : ∀ v ∈ p.value, IsPiece v ∧ v.head? ≠ some '>'

instance (p : Parameter) : Decidable p.Proper :=
  decidable_of_iff
    ((IsPiece p.binding ∧ Unstopped isMarker 0 p.binding []) ∧
      (∀ n ∈ p.note, IsPiece n.type ∧ Unstopped isDefaultSign 0 n.type []) ∧
      ∀ v ∈ p.value, IsPiece v ∧ v.head? ≠ some '>')
    ⟨fun ⟨hbinding, htype, hvalue⟩ => ⟨hbinding, htype, hvalue⟩, fun h => ⟨h.binding, h.type, h.value⟩⟩

/-- The parameter without its annotation. A default value stays a space behind the binding, and so does the white
space at the end of a type that has no default value behind it. -/
def bare (p : Parameter) : Parameter :=
  match p.note with
  | none => p
  | some n =>
    { binding := unmarked (p.binding ++ n.mark) ++ if p.value.isSome then [' '] else endBlanks n.type
      note := none
      value := p.value }

/-- `q` is `p` without its annotation: the default value is the same, and the binding has lost marks of an optional
parameter and white space at its end, and may have other white space there. -/
structure Bares (p q : Parameter) : Prop where
  note : q.note = none
  value : q.value = p.value
  binding : ∃ w marks, Text.trimEnd p.binding = Text.trimEnd q.binding ++ (w ++ marks) ∧ Blank w ∧ ∀ c ∈ marks, c = '?'
  unchanged : p.note = none → q = p

/-- A binding that ends in no mark of its own is kept. -/
theorem Bares.kept {p q : Parameter} (h : Bares p q) (hend : (Text.trimEnd p.binding).getLast? ≠ some '?') :
    Text.trimEnd q.binding = Text.trimEnd p.binding := by
  obtain ⟨w, marks, hbinding, hw, hmarks⟩ := h.binding
  have hmarks : marks = [] := by
    rcases List.eq_nil_or_concat marks with hnil | ⟨front, c, rfl⟩
    · exact hnil
    · obtain rfl := hmarks c (by simp)
      exact absurd (by rw [hbinding]; simp) hend
  subst hmarks
  rw [List.append_nil] at hbinding
  rcases List.eq_nil_or_concat w with rfl | ⟨front, c, rfl⟩
  · rw [hbinding, List.append_nil]
  · have hlast := last_trimEnd p.binding c (by rw [hbinding]; simp)
    rw [hw c (by simp)] at hlast
    cases hlast

theorem bares_bare (p : Parameter) : Bares p p.bare := by
  cases hn : p.note with
  | none =>
    have hbare : p.bare = p := by rw [bare, hn]
    rw [hbare]
    exact ⟨hn, rfl, ⟨[], [], by simp, .nil, fun _ hc => absurd hc List.not_mem_nil⟩, fun _ => rfl⟩
  | some n =>
    have hbare : p.bare.binding =
        unmarked (p.binding ++ n.mark) ++ if p.value.isSome then [' '] else endBlanks n.type := by rw [bare, hn]
    have htrim : Text.trimEnd p.bare.binding = unmarked (p.binding ++ n.mark) := by
      rw [hbare]
      refine trimEnd_append_blank (last_trimEnd _) ?_
      split
      case isTrue => simp [Blank, Text.isSpace]
      case isFalse => exact blank_endBlanks n.type
    refine ⟨by rw [bare, hn], by rw [bare, hn], ?_, fun hnone => absurd (hn.symm.trans hnone) (Option.some_ne_none n)⟩
    rw [htrim, TypeNote.mark]
    have hplain : Text.trimEnd p.binding = Text.trimEnd p.binding ++ ([] ++ []) := by simp
    split
    case isTrue =>
      rcases unmarked_mark p.binding with heq | heq
      · rw [heq]
        exact exists_marks p.binding
      · rw [heq]
        exact ⟨[], [], hplain, .nil, fun _ hc => absurd hc List.not_mem_nil⟩
    case isFalse =>
      rw [List.append_nil]
      exact exists_marks p.binding

variable {p : Parameter} {ps : List Parameter} {n : TypeNote}

theorem Proper.cutAt_colon (h : p.Proper) (hn : p.note = some n) : cutAt isMarker 0 p.text =
    some (p.binding ++ n.mark, ':' :: (n.type ++ p.valueText)) := by
  have htext : p.text = (p.binding ++ n.mark) ++ ':' :: (n.type ++ p.valueText) := by simp [text, hn, TypeNote.text]
  have hmark : depthOf n.mark = 0 ∧ ∀ r, Unstopped isMarker 0 n.mark r := by
    rw [TypeNote.mark]
    split
    case isTrue => exact ⟨rfl, fun r => unstopped_of_forall (by simp [isMarker, isDefaultSign])⟩
    case isFalse => exact ⟨rfl, unstopped_nil isMarker 0⟩
  obtain ⟨⟨hdepth, -⟩, hbinding⟩ := h.binding
  have hfree : Unstopped isMarker 0 (p.binding ++ n.mark) (':' :: (n.type ++ p.valueText)) :=
    (hbinding.behind isMarker_append _).append (by rw [hdepth]; exact hmark.2 _)
  rw [htext, cutAt_append hfree, depthOf_append, hdepth, hmark.1]
  show (cutAt isMarker 0 _).map _ = _
  rw [cutAt_here rfl rfl]
  simp

/-- A scan that nothing stops before the default value is stopped by its equals sign. -/
theorem Proper.cutAt_value (h : p.Proper) {stops : Char → List Char → Bool} {r : List Char}
    (hstays : ∀ c b r, stops c b = false → stops c (b ++ r) = false)
    (hsign : ∀ v, isDefaultSign '=' v = true → stops '=' v = true) (hr : Unstopped stops 0 r [])
    (hdepth : depthOf r = 0) :
    cutAt stops 0 (r ++ p.valueText) = p.value.map fun v => (r, '=' :: v) := by
  cases hv : p.value with
  | none =>
    rw [valueText, hv]
    simpa using cutAt_eq_none_iff.2 hr
  | some v =>
    have hstop : stops '=' v = true := hsign v (by simpa [isDefaultSign] using (h.value v hv).2)
    rw [valueText, hv, Option.elim_some, cutAt_append (hr.behind hstays _), hdepth, Int.add_zero,
      cutAt_here rfl hstop]
    simp

theorem Proper.untyped (h : p.Proper) : untypedParameter? p.text = p.note.map fun _ => p.bare.text := by
  cases hn : p.note with
  | none =>
    obtain ⟨⟨hdepth, -⟩, hfree⟩ := h.binding
    have hcut : cutAt isMarker 0 p.text = p.value.map fun v => (p.binding, '=' :: v) := by
      rw [text, hn]
      exact h.cutAt_value isMarker_append (fun v hv => by rw [isMarker, hv, Bool.or_true]) hfree hdepth
    refine untypedParameter?_no_colon fun x hx => ?_
    rw [hcut] at hx
    obtain ⟨v, -, rfl⟩ := Option.map_eq_some_iff.1 hx
    simp
  | some n =>
    obtain ⟨⟨hdepth, -⟩, hfree⟩ := h.type n hn
    rw [untypedParameter?_colon (h.cutAt_colon hn), h.cutAt_value isDefaultSign_append (fun _ => id) hfree hdepth]
    cases hv : p.value with
    | none =>
      have htext : p.text = (p.binding ++ n.mark) ++ ':' :: n.type := by simp [text, hn, valueText, hv, TypeNote.text]
      rw [htext, endBlanks_behind rfl]
      simp [text, bare, hn, hv, valueText]
    | some v =>
      simp [text, bare, hn, hv, valueText, Text.trimStart, show Text.isSpace '=' = false from rfl]

theorem Proper.isPiece (h : p.Proper) : IsPiece p.text := by
  refine h.binding.1.append (IsPiece.append ?_ ?_)
  · cases hn : p.note with
    | none => exact ⟨rfl, unstopped_nil isComma 0 []⟩
    | some n =>
      have hmark : IsPiece (n.mark ++ [':']) := by
        rw [TypeNote.mark]
        split <;> decide
      simpa [TypeNote.text] using hmark.append (h.type n hn).1
  · rw [valueText]
    cases hv : p.value with
    | none => exact ⟨rfl, unstopped_nil isComma 0 []⟩
    | some v =>
      have hsign : IsPiece ['='] := by decide
      exact hsign.append (h.value v hv).1

/-- **A list of parameters loses its annotations and nothing else.** It is left as it is when no parameter has an
annotation. Else every annotated parameter loses its type and its marks, and keeps its binding and its default value;
the others stay. What is left has no annotation. -/
theorem annotations_stripped (hps : ∀ p ∈ ps, p.Proper) (hcode : IsCodeList (listText ps)) :
    stripParameterTypes (listText ps) =
        (if ∃ p ∈ ps, p.note ≠ none then some (listText (ps.map bare)) else none) ∧
      (∀ p ∈ ps, Bares p p.bare) ∧
      ∀ r, stripParameterTypes (listText ps) = some r → stripParameterTypes r = none := by
  refine ⟨?_, fun p _ => bares_bare p, fun r => stripParameterTypes_stripped⟩
  by_cases hne : ps = []
  case pos =>
    subst hne
    rfl
  case neg =>
    have hsplit : splitCommas 0 (listText ps) = ps.map text :=
      splitCommas_intercalate (.of_isPiece (mt List.map_eq_nil_iff.1 hne)
        (List.forall_mem_map.2 fun p hp => (hps p hp).isPiece))
    have hsome : (∃ t ∈ splitCommas 0 (listText ps), untypedParameter? t ≠ none) ↔ ∃ p ∈ ps, p.note ≠ none := by
      rw [hsplit]
      refine ⟨fun ⟨t, ht, hne⟩ => ?_, fun ⟨p, hp, hne⟩ => ⟨p.text, List.mem_map_of_mem hp, ?_⟩⟩
      · obtain ⟨p, hp, rfl⟩ := List.mem_map.1 ht
        exact ⟨p, hp, fun hnone => hne (by rw [(hps p hp).untyped, hnone]; rfl)⟩
      · rw [(hps p hp).untyped]
        exact mt Option.map_eq_none_iff.1 hne
    have hbare : ((ps.map text).map fun t => (untypedParameter? t).getD t) = (ps.map bare).map text := by
      rw [List.map_map, List.map_map]
      refine List.map_congr_left fun p hp => ?_
      rw [Function.comp_apply, Function.comp_apply, (hps p hp).untyped]
      cases hn : p.note with
      | none => rw [bare, hn]; rfl
      | some n => rfl
    rw [hsplit] at hsome
    simp only [stripParameterTypes_eq, looksLikeMarkup_eq_false_iff.2 hcode, hsplit, hbare, hsome, true_and]
    rfl

/-- Three parameters, of which two have an annotation; one of these has commas and an arrow inside. -/
def cardParameters : List Parameter :=
  [⟨"\x7b a, b \x7d".toList, some ⟨false, " Props".toList⟩, none⟩,
    ⟨" done".toList, some ⟨true, " (x: T, y: U) => void ".toList⟩, some " noop".toList⟩,
    ⟨" n ".toList, none, some " f(a, b)".toList⟩]

theorem annotations_stripped_cardParameters :
    ((∀ p ∈ cardParameters, p.Proper) ∧ IsCodeList (listText cardParameters)) ∧
      listText cardParameters = "\x7b a, b \x7d: Props, done?: (x: T, y: U) => void = noop, n = f(a, b)".toList ∧
      stripParameterTypes (listText cardParameters) = some "\x7b a, b \x7d, done = noop, n = f(a, b)".toList ∧
      stripParameterTypes "\x7b a, b \x7d, done = noop, n = f(a, b)".toList = none := by
  have hps : ∀ p ∈ cardParameters, p.Proper := by decide
  have hcode : IsCodeList (listText cardParameters) := looksLikeMarkup_eq_false_iff.1 (by decide)
  obtain ⟨hstrip, -, hagain⟩ := annotations_stripped hps hcode
  exact ⟨⟨hps, hcode⟩, by decide, hstrip, hagain _ hstrip⟩

end Parameter
end LivePreview.Source
