import LivePreview.Proofs.Source.Untyped
import LivePreview.Proofs.Source.Balance

/-! What the stripping of a list does to the lists in it.

A parameter has a binding, perhaps an annotation, perhaps a default value. A list that stands in the annotation goes
with it; all others stay as they are, and are found where they were found (`hasPair_stripParameterTypes`). -/
namespace LivePreview.Source

variable {s t p q x y z z' front U U' L L' : List Char} {ps : List (List Char)} {d : Int} {c : Char}
  {stops : Char → List Char → Bool}

/-! ### Parts of a parameter -/

/-- The parts of a parameter: its binding, its annotation and its default value. -/
inductive Part where
  | binding
  | note
  | value
deriving DecidableEq, Repr

/-- The part behind a character outside of brackets. -/
def Part.next (part : Part) (c : Char) (r : List Char) : Part :=
  if c = ',' then .binding
  else match part with
    | .binding => if c = ':' then .note else if isDefaultSign c r then .value else .binding
    | .note => if isDefaultSign c r then .value else .note
    | .value => .value

/-- The part of a parameter in which the place behind a text is, from a place at depth `d` in some part. -/
def partBehind (d : Int) (part : Part) : List Char → Part
  | [] => part
  | c :: r => partBehind (d + depthStep c) (if d = 0 ∧ depthStep c = 0 then part.next c r else part) r

/-- Another part begins here. -/
def Part.ends (part : Part) (c : Char) (r : List Char) : Bool := part.next c r != part

variable {part : Part}

theorem Part.next_congr {r r' : List Char} (h : r.head? = some '>' ↔ r'.head? = some '>') :
    part.next c r = part.next c r' := by
  unfold Part.next
  rw [peeks_isDefaultSign c r r' h]

theorem peeks_ends (part : Part) : Peeks part.ends := fun c r r' h => by rw [Part.ends, Part.ends, Part.next_congr h]

theorem partBehind_append (hy : y.head? ≠ some '>') :
    partBehind d part (x ++ y) = partBehind (d + depthOf x) (partBehind d part x) y := by
  induction x generalizing d part with
  | nil => simp [partBehind]
  | cons c x ih =>
    have hnext : part.next c (x ++ y) = part.next c x := Part.next_congr (by cases x <;> simp [hy])
    rw [List.cons_append, partBehind, partBehind, ih, hnext, depthOf_cons, Int.add_assoc]

theorem partBehind_of_unstopped (h : Unstopped part.ends d x []) : partBehind d part x = part := by
  induction x generalizing d with
  | nil => rfl
  | cons c x ih =>
    obtain ⟨hc, hx⟩ := unstopped_cons.1 h
    rw [partBehind]
    split
    case isTrue hhere =>
      have hsame : part.next c x = part := by simpa [Part.ends] using hc hhere.1 hhere.2
      rw [hsame, ih hx]
    case isFalse => exact ih hx

theorem partBehind_bracket {r : List Char} (hstep : depthStep c ≠ 0) :
    partBehind d part (c :: r) = partBehind (d + depthStep c) part r := by
  rw [partBehind, if_neg fun h => hstep h.2]

/-- Within brackets the part stays the same. -/
theorem partBehind_of_pos (h : ∀ a b, x = a ++ b → 0 < d + depthOf a) : partBehind d part x = part :=
  partBehind_of_unstopped fun a c b hx hd _ => absurd hd (Int.ne_of_gt (h a (c :: b) hx))

theorem unstopped_binding (hmarker : Unstopped isMarker d x []) (hcomma : Unstopped isComma d x []) :
    Unstopped Part.binding.ends d x [] := fun a c b hx hd hc => by
  have hno := hmarker a c b hx hd hc
  have hne := hcomma a c b hx hd hc
  simp [isMarker, isComma] at hno hne
  simp [Part.ends, Part.next, hno, hne]

theorem unstopped_note (hsign : Unstopped isDefaultSign d x []) (hcomma : Unstopped isComma d x []) :
    Unstopped Part.note.ends d x [] := fun a c b hx hd hc => by
  have hno := hsign a c b hx hd hc
  have hne := hcomma a c b hx hd hc
  simp [isComma] at hno hne
  simp [Part.ends, Part.next, hno, hne]

theorem unstopped_value (hcomma : Unstopped isComma d x []) :
    Unstopped Part.value.ends d x [] := fun a c b hx hd hc => by
  have hne := hcomma a c b hx hd hc
  simp [isComma] at hne
  simp [Part.ends, Part.next, hne]

/-- A part that is left is not come back to before a comma. -/
theorem unstopped_marker (hcomma : Unstopped isComma d x []) (h : partBehind d .binding x = .binding) :
    Unstopped isMarker d x [] := by
  have hleft {d : Int} {part : Part} {x : List Char} (hpart : part ≠ .binding) (hcomma : Unstopped isComma d x []) :
      partBehind d part x ≠ .binding := by
    induction x generalizing d part with
    | nil => exact hpart
    | cons c x ih =>
      obtain ⟨hc, hx⟩ := unstopped_cons.1 hcomma
      rw [partBehind]
      split
      case isTrue hhere =>
        have hne : c ≠ ',' := by simpa [isComma] using hc hhere.1 hhere.2
        refine ih ?_ hx
        cases part with
        | binding => exact absurd rfl hpart
        | note => simp only [Part.next, if_neg hne]; split <;> decide
        | value => simp [Part.next, hne]
      case isFalse => exact ih hpart hx
  induction x generalizing d with
  | nil => exact unstopped_nil isMarker d []
  | cons c x ih =>
    obtain ⟨hc, hx⟩ := unstopped_cons.1 hcomma
    rw [partBehind] at h
    split at h
    case isTrue hhere =>
      have hne : c ≠ ',' := by simpa [isComma] using hc hhere.1 hhere.2
      cases hmarker : isMarker c x with
      | true =>
        refine absurd h (hleft ?_ hx)
        obtain hcolon | hsign := Bool.or_eq_true_iff.1 hmarker
        · simp [Part.next, beq_iff_eq.1 hcolon]
        · simp only [Part.next, if_neg hne, hsign, if_true]
          split <;> decide
      | false =>
        obtain ⟨hcolon, hsign⟩ := Bool.or_eq_false_iff.1 hmarker
        have hsame : Part.binding.next c x = .binding := by simp [Part.next, hsign, beq_eq_false_iff_ne.1 hcolon]
        rw [hsame] at h
        exact unstopped_cons.2 ⟨fun _ _ => by rwa [List.append_nil], ih hx h⟩
    case isFalse hno => exact unstopped_cons.2 ⟨fun hd hstep => absurd ⟨hd, hstep⟩ hno, ih hx h⟩

/-- Behind a comma at depth zero another parameter begins. -/
theorem partBehind_comma (hx : depthOf x = 0) (y : List Char) :
    partBehind 0 .binding (x ++ ',' :: y) = partBehind 0 .binding y := by
  rw [partBehind_append (by simp), hx]
  simp [partBehind, Part.next, show depthStep ',' = 0 from rfl]

/-! ### Lists with annotations -/

/-- Some parameter of a list has an annotation. -/
def Annotated (s : List Char) : Prop :=
  ∃ front note, s = front ++ ':' :: note ∧ depthOf front = 0 ∧ partBehind 0 .binding front = .binding

theorem annotated_piece (hp : Unstopped isComma 0 p []) : Annotated p ↔ untypedParameter? p ≠ none := by
  refine ⟨fun ⟨front, note, hs, hdepth, hpart⟩ => ?_, fun h => ?_⟩
  · subst hs
    have hcut : cutAt isMarker 0 (front ++ ':' :: note) = some (front, ':' :: note) := by
      have hmarker := unstopped_marker (unstopped_append.1 hp).1 hpart
      rw [cutAt_append (hmarker.behind isMarker_append _), hdepth, Int.zero_add, cutAt_here rfl rfl]
      simp
    rw [untypedParameter?_colon hcut]
    split <;> simp
  · obtain ⟨q, hq⟩ := Option.ne_none_iff_exists'.1 h
    obtain ⟨binding, note, rfl, hdepth, hfree, -⟩ := exists_of_untypedParameter? hq
    refine ⟨binding, note, rfl, hdepth,
      partBehind_of_unstopped (unstopped_binding (hfree.alone peeks_isMarker (by simp)) ?_)⟩
    exact (unstopped_append.1 hp).1

theorem annotated_comma (hp : Unstopped isComma 0 p []) (hdepth : depthOf p = 0) :
    Annotated (p ++ ',' :: s) ↔ Annotated p ∨ Annotated s := by
  refine ⟨fun ⟨front, note, hs, hfront, hpart⟩ => ?_, ?_⟩
  · rcases Nat.lt_or_ge front.length p.length with hlt | hle
    · obtain ⟨p', rfl, hp'⟩ := Pattern.exists_of_append hs (Nat.le_of_lt hlt)
      cases p' with
      | nil => simp at hlt
      | cons c p' =>
        obtain ⟨rfl, -⟩ := List.cons.inj hp'
        exact .inl ⟨front, p', rfl, hfront, hpart⟩
    · obtain ⟨front', rfl, hrest⟩ := Pattern.exists_of_append hs.symm hle
      cases front' with
      | nil => simp at hrest
      | cons c front' =>
        obtain ⟨rfl, hbehind⟩ := List.cons.inj hrest
        rw [partBehind_comma hdepth] at hpart
        refine .inr ⟨front', note, hbehind.symm, ?_, hpart⟩
        simpa [hdepth, show depthStep ',' = 0 from rfl] using hfront
  · rintro (⟨front, note, rfl, hfront, hpart⟩ | ⟨front, note, rfl, hfront, hpart⟩)
    · exact ⟨front, note ++ ',' :: s, by simp, hfront, hpart⟩
    · refine ⟨p ++ ',' :: front, note, by simp, ?_, by rwa [partBehind_comma hdepth]⟩
      simp [hdepth, hfront, show depthStep ',' = 0 from rfl]

theorem annotated_iff (s : List Char) : Annotated s ↔ ∃ p ∈ splitCommas 0 s, untypedParameter? p ≠ none := by
  have hall {ps : List (List Char)} (h : Pieces 0 ps) :
      Annotated ([','].intercalate ps) ↔ ∃ p ∈ ps, untypedParameter? p ≠ none := by
    induction ps with
    | nil => exact h.elim
    | cons p ps ih =>
      cases ps with
      | nil => simpa [List.intercalate] using annotated_piece h
      | cons q ps =>
        obtain ⟨hp, hdepth, hrest⟩ := h
        rw [List.intercalate_cons_cons, List.append_assoc, List.singleton_append,
          annotated_comma hp (by simpa using hdepth), annotated_piece hp, ih hrest]
        simp
  have hs := hall (pieces_splitCommas 0 s)
  rwa [intercalate_splitCommas] at hs

theorem stripParameterTypes_ne_none_iff : stripParameterTypes s ≠ none ↔ looksLikeMarkup s = false ∧ Annotated s := by
  rw [stripParameterTypes_eq, annotated_iff]
  split
  case isTrue h => simpa using h
  case isFalse h => simpa using h

/-! ### Where arrows stop -/

/-- No arrow goes over into the text from what stands before it. -/
def Shut (u : List Char) : Prop := ∀ t, Arrowed (t ++ u) ↔ Arrowed t

theorem not_arrowed_nil : ¬ Arrowed [] := fun ⟨w, r, h, _⟩ => by simp at h

theorem Shut.append (hx : Shut x) (hy : Shut y) : Shut (x ++ y) := fun t => by
  rw [← List.append_assoc, hy, hx]

theorem Shut.nil : Shut [] := fun t => by rw [List.append_nil]

theorem shut_cons (hspace : Text.isSpace c = false) (hend : c ≠ '>') (harrow : ¬ (c = '=' ∧ s.head? = some '>')) :
    Shut (c :: s) := by
  intro t
  induction t with
  | nil => simp [arrowed_cons, hspace, harrow, not_arrowed_nil]
  | cons x t ih =>
    rw [List.cons_append, arrowed_cons, arrowed_cons, ih]
    cases t <;> simp [hend]

theorem shut_of_blank (h : Blank s) : Shut s := by
  intro t
  induction t with
  | nil =>
    refine iff_of_false (fun ⟨w, r, hs, _⟩ => ?_) not_arrowed_nil
    cases h '=' (by rw [show s = [] ++ s from rfl, hs]; simp)
  | cons x t ih =>
    rw [List.cons_append, arrowed_cons, arrowed_cons, ih]
    cases t with
    | nil =>
      have hne : s.head? ≠ some '>' := fun hhead => nomatch h '>' (List.mem_of_mem_head? hhead)
      simp [hne]
    | cons y t => simp

theorem shut_marks (h : ∀ c ∈ s, Text.isSpace c = true ∨ c = '?') : Shut s := by
  induction s with
  | nil => exact .nil
  | cons c s ih =>
    obtain ⟨hc, hs⟩ := List.forall_mem_cons.1 h
    rcases hc with hspace | rfl
    · exact (shut_of_blank (s := [c]) (by simpa [Blank] using hspace)).append (ih hs)
    · exact shut_cons rfl (by decide) (by simp)

/-! ### One parameter -/

theorem balanced_of_plain (h : ∀ c ∈ s, depthStep c = 0) : Balanced s := by
  induction s with
  | nil => exact .nil
  | cons c s ih =>
    obtain ⟨hc, hs⟩ := List.forall_mem_cons.1 h
    have hone : Balanced [c] := by
      unfold Balanced
      rw [openBehind_cons, bracketStep, hc]
      rfl
    exact hone.append (ih hs)

theorem Blank.balanced (h : Blank s) : Balanced s := balanced_of_plain fun c hc => depthStep_of_isSpace (h c hc)

/-- A parameter with an annotation, and what is left of it: the binding, white space, and perhaps a default value. -/
structure Untyping (p q : List Char) where
  binding : List Char
  marks : List Char
  type : List Char
  blanks : List Char
  value : List Char
  before : p = binding ++ (marks ++ ':' :: (type ++ value))
  after : q = binding ++ (blanks ++ value)
  isMark : ∀ c ∈ marks, Text.isSpace c = true ∨ c = '?'
  blank : Blank blanks
  free : Unstopped isMarker 0 (binding ++ marks) []
  unsigned : Unstopped isDefaultSign 0 type []
  sign : value = [] ∨ ∃ v, value = '=' :: v ∧ v.head? ≠ some '>'
  bindingDepth : depthOf binding = 0
  typeDepth : depthOf p = 0 → depthOf type = 0

theorem nonempty_untyping (h : untypedParameter? p = some q) : Nonempty (Untyping p q) := by
  obtain ⟨binding, note, rfl, hdepth, hfree, hq⟩ := exists_of_untypedParameter? h
  obtain ⟨gone, hbinding, hgone⟩ := exists_unmarked binding
  have hkept : depthOf (unmarked binding) = 0 := by rw [depthOf_unmarked, hdepth]
  have hplain : Unstopped isMarker 0 (unmarked binding ++ gone) [] := by
    rw [← hbinding]
    exact hfree.alone peeks_isMarker (by simp)
  have hbefore (note : List Char) : binding ++ ':' :: note = unmarked binding ++ (gone ++ ':' :: note) := by
    conv => lhs; rw [hbinding]
    simp
  rcases hq with ⟨type, value, rfl, ⟨htype, hsign⟩, hvalue, rfl⟩ | ⟨hsign, rfl⟩
  · exact ⟨{
      binding := unmarked binding, marks := gone, type, blanks := [' '], value := '=' :: value
      before := hbefore _
      after := rfl
      isMark := hgone
      blank := by simp [Blank, Text.isSpace]
      free := hplain
      unsigned := hsign.alone peeks_isDefaultSign (by simp)
      sign := .inr ⟨value, rfl, hvalue⟩
      bindingDepth := hkept
      typeDepth := fun _ => htype }⟩
  · exact ⟨{
      binding := unmarked binding, marks := gone, type := note, blanks := endBlanks note, value := []
      before := by rw [hbefore, List.append_nil]
      after := by rw [List.append_nil]
      isMark := hgone
      blank := blank_endBlanks note
      free := hplain
      unsigned := hsign
      sign := .inl rfl
      bindingDepth := hkept
      typeDepth := fun hp => by simpa [hdepth, show depthStep ':' = 0 from rfl] using hp }⟩

namespace Untyping

theorem marksDepth (u : Untyping p q) : ∀ c ∈ u.marks, depthStep c = 0 := fun c hc => by
  rcases u.isMark c hc with hspace | rfl
  · exact depthStep_of_isSpace hspace
  · rfl

/-- All its parts balance if the parameter does. -/
theorem balanced (u : Untyping p q) (hp : Balanced p) : Balanced u.binding ∧ Balanced u.type ∧ Balanced u.value := by
  have htype := u.typeDepth hp.depthOf_eq
  rw [u.before] at hp
  obtain ⟨hbinding, hrest⟩ := hp.parts u.bindingDepth
  obtain ⟨-, hnote⟩ := hrest.parts (depthOf_eq_zero u.marksDepth)
  exact ⟨hbinding, (hnote.tail rfl).parts htype⟩

theorem balanced_after (u : Untyping p q) (hp : Balanced p) : Balanced q := by
  obtain ⟨hbinding, -, hvalue⟩ := u.balanced hp
  rw [u.after]
  exact hbinding.append (u.blank.balanced.append hvalue)

theorem shut_value (u : Untyping p q) (hU : Shut U) : Shut (u.value ++ U) := by
  rcases u.sign with hnil | ⟨v, hv, hhead⟩
  · rw [hnil]
    exact hU
  · rw [hv]
    exact (shut_cons rfl (by decide) (by simp [hhead])).append hU

end Untyping

/-! ### The lists in a parameter -/

theorem partBehind_before {a r : List Char} (h : Unstopped part.ends 0 (a ++ '(' :: r) []) :
    partBehind 0 part a = part :=
  partBehind_of_unstopped ((unstopped_append.1 h).1.alone (peeks_ends part) (by simp))

/-- Behind the equals sign there is only the default value. -/
theorem partBehind_value {a r : List Char} (hhead : (a ++ '(' :: r).head? ≠ some '>')
    (hcomma : Unstopped isComma 0 (a ++ '(' :: r) []) (part : Part) : partBehind 0 part ('=' :: a) = .value := by
  have hsign : isDefaultSign '=' a = true := by
    cases a with
    | nil => rfl
    | cons x a => simpa [isDefaultSign] using hhead
  have hnext : part.next '=' a = .value := by cases part <;> simp [Part.next, hsign]
  rw [partBehind, if_pos ⟨rfl, rfl⟩, hnext]
  exact partBehind_before (unstopped_value hcomma)

/-- A list in a parameter without annotation is in none. -/
theorem partBehind_ne_note (hcomma : Unstopped isComma 0 p []) (h : untypedParameter? p = none) {a r : List Char}
    (hp : p = a ++ '(' :: r) : partBehind 0 .binding a ≠ .note := by
  cases hcut : cutAt isMarker 0 p with
  | none =>
    have hall := unstopped_binding (cutAt_eq_none_iff.1 hcut) hcomma
    rw [hp] at hall
    rw [partBehind_before hall]
    decide
  | some cut =>
    obtain ⟨binding, behind⟩ := cut
    obtain ⟨c, v, rfl, hc⟩ := cutAt_stops hcut
    obtain ⟨hfree, hdepth⟩ := cutAt_unstopped hcut
    have hsplit := cutAt_eq hcut
    rcases Bool.or_eq_true_iff.1 hc with hcolon | hsign
    · obtain rfl := beq_iff_eq.1 hcolon
      rw [untypedParameter?_colon hcut] at h
      split at h <;> cases h
    · obtain rfl := eq_of_isDefaultSign hsign
      rw [hsplit] at hcomma
      obtain ⟨hcommaBinding, hcommaValue⟩ := unstopped_append.1 hcomma
      rcases Nat.lt_or_ge a.length binding.length with hlt | hle
      · obtain ⟨b', rfl, hb'⟩ := Pattern.exists_of_append (hsplit.symm.trans hp) (Nat.le_of_lt hlt)
        cases b' with
        | nil => simp at hlt
        | cons x b' =>
          obtain ⟨rfl, -⟩ := List.cons.inj hb'
          rw [partBehind_before (unstopped_binding (hfree.alone peeks_isMarker (by simp)) hcommaBinding)]
          decide
      · obtain ⟨a', rfl, hbehind⟩ := Pattern.exists_of_append (hp.symm.trans hsplit) hle
        cases a' with
        | nil => simp at hbehind
        | cons x a' =>
          obtain ⟨rfl, rfl⟩ := List.cons.inj hbehind
          have hstays : partBehind 0 .binding binding = .binding :=
            partBehind_of_unstopped (unstopped_binding (hfree.alone peeks_isMarker (by simp)) hcommaBinding)
          have hhead : (a' ++ '(' :: r).head? ≠ some '>' := by simpa [isDefaultSign] using hsign
          rw [show (0 : Int) + depthOf binding = 0 from hdepth] at hcommaValue
          rw [partBehind_append (by simp), hdepth, hstays, partBehind_value hhead (unstopped_cons.1 hcommaValue).2]
          decide

theorem listed_congr {a a' b t t' : List Char} (ha : Headed a ↔ Headed a') (ht : Arrowed t ↔ Arrowed t') :
    Listed a b t ↔ Listed a' b t' := by rw [Listed, Listed, ha, ht]

/-- The text before a list, as far as heads go, and the text behind it, as far as arrows go. -/
structure Alike (z z' U U' : List Char) : Prop where
  heads : ∀ k, Headed (z ++ k) ↔ Headed (z' ++ k)
  shut : Shut U
  shut' : Shut U'

theorem blank_notMem_open (h : ∀ c ∈ s, Text.isSpace c = true ∨ c = '?') : '(' ∉ s := fun hc => by
  rcases h _ hc with hspace | hmark
  · cases hspace
  · cases hmark

namespace Untyping
variable {P : List Char → List Char → List Char → Prop}

theorem hasPair_before (u : Untyping p q) (hp : Balanced p) : HasPair p P ↔
    (HasPair u.binding fun a b t => P a b (t ++ (u.marks ++ ':' :: (u.type ++ u.value)))) ∨
      (HasPair u.type fun a b t => P (u.binding ++ (u.marks ++ ':' :: a)) b (t ++ u.value)) ∨
        HasPair u.value fun a => P (u.binding ++ (u.marks ++ ':' :: (u.type ++ a))) := by
  obtain ⟨hbinding, htype, -⟩ := u.balanced hp
  have hmarks : Balanced u.marks := balanced_of_plain u.marksDepth
  calc HasPair p P
    _ ↔ HasPair (u.binding ++ (u.marks ++ ':' :: (u.type ++ u.value))) P := by rw [← u.before]
    _ ↔ _ := by
      rw [hasPair_append hbinding.enclosed, hasPair_append hmarks.enclosed, hasPair_cons_of_ne (by decide),
        hasPair_append htype.enclosed]
      simp only [not_hasPair (blank_notMem_open u.isMark), false_or]

theorem hasPair_after (u : Untyping p q) (hp : Balanced p) : HasPair q P ↔
    (HasPair u.binding fun a b t => P a b (t ++ (u.blanks ++ u.value))) ∨
      HasPair u.value fun a => P (u.binding ++ (u.blanks ++ a)) := by
  have hblanks : '(' ∉ u.blanks := blank_notMem_open fun c hc => .inl (u.blank c hc)
  calc HasPair q P
    _ ↔ HasPair (u.binding ++ (u.blanks ++ u.value)) P := by rw [← u.after]
    _ ↔ _ := by
      rw [hasPair_append (u.balanced hp).1.enclosed, hasPair_append u.blank.balanced.enclosed]
      simp only [not_hasPair hblanks, false_or]

variable {a b t : List Char}

theorem partBehind_binding (u : Untyping p q) (hcomma : Unstopped isComma 0 p [])
    (hlist : u.binding = a ++ '(' :: (b ++ ')' :: t)) : partBehind 0 .binding a = .binding := by
  rw [u.before] at hcomma
  have hfree : Unstopped isMarker 0 u.binding [] := (unstopped_append.1 u.free).1.alone peeks_isMarker fun hhead => by
    rw [List.append_nil] at hhead
    rcases u.isMark '>' (List.mem_of_mem_head? hhead) with h | h <;> cases h
  have hall := unstopped_binding hfree ((unstopped_append.1 hcomma).1.comma [])
  rw [hlist] at hall
  exact partBehind_before hall

/-- The annotation begins behind its colon. -/
theorem partBehind_colon (u : Untyping p q) (hcomma : Unstopped isComma 0 p []) (a : List Char) :
    partBehind 0 .binding (u.binding ++ (u.marks ++ ':' :: a)) = partBehind 0 .note a := by
  have hcomma : Unstopped isComma 0 (u.binding ++ u.marks) [] := by
    rw [u.before, ← List.append_assoc] at hcomma
    exact (unstopped_append.1 hcomma).1.comma []
  have hdepth : depthOf (u.binding ++ u.marks) = 0 := by
    rw [depthOf_append, u.bindingDepth, depthOf_eq_zero u.marksDepth, Int.zero_add]
  rw [← List.append_assoc, partBehind_append (by simp), hdepth,
    partBehind_of_unstopped (unstopped_binding u.free hcomma)]
  simp [partBehind, Part.next, show depthStep ':' = 0 from rfl]

theorem commas_behind_colon (u : Untyping p q) (hp : Balanced p) (hcomma : Unstopped isComma 0 p []) :
    Unstopped isComma 0 u.type [] ∧ Unstopped isComma 0 u.value [] := by
  have htype := (u.balanced hp).2.1.depthOf_eq
  rw [u.before] at hcomma
  have hmarks := (unstopped_append.1 hcomma).2
  rw [u.bindingDepth, Int.zero_add] at hmarks
  have hcolon := (unstopped_append.1 hmarks).2
  rw [depthOf_eq_zero u.marksDepth, Int.zero_add] at hcolon
  obtain ⟨hin, hvalue⟩ := unstopped_append.1 (unstopped_cons.1 hcolon).2
  rw [show depthStep ':' = 0 from rfl, htype, Int.zero_add] at hvalue
  exact ⟨hin.comma [], hvalue⟩

theorem partBehind_type (u : Untyping p q) (hp : Balanced p) (hcomma : Unstopped isComma 0 p [])
    (hlist : u.type = a ++ '(' :: (b ++ ')' :: t)) :
    partBehind 0 .binding (u.binding ++ (u.marks ++ ':' :: a)) = .note := by
  have hall := unstopped_note u.unsigned (u.commas_behind_colon hp hcomma).1
  rw [hlist] at hall
  rw [u.partBehind_colon hcomma, partBehind_before hall]

theorem partBehind_sign (u : Untyping p q) (hp : Balanced p) (hcomma : Unstopped isComma 0 p [])
    (hlist : u.value = '=' :: (a ++ '(' :: (b ++ ')' :: t))) :
    partBehind 0 .binding (u.binding ++ (u.marks ++ ':' :: (u.type ++ '=' :: a))) = .value := by
  have hvalue := (u.commas_behind_colon hp hcomma).2
  rw [hlist] at hvalue
  have hhead : (a ++ '(' :: (b ++ ')' :: t)).head? ≠ some '>' := by
    rcases u.sign with hnil | ⟨v, hv, hhead⟩
    · simp [hlist] at hnil
    · rwa [(List.cons.inj (hlist.symm.trans hv)).2]
  rw [u.partBehind_colon hcomma, partBehind_append (by simp), (u.balanced hp).2.1.depthOf_eq, Int.add_zero,
    partBehind_value hhead (unstopped_cons.1 hvalue).2]

end Untyping

/-- The lists in a parameter that are not in its annotation are those in what is left of it. -/
theorem hasPair_untyped (u : Untyping p q) (hp : Balanced p) (hcomma : Unstopped isComma 0 p [])
    (halike : Alike z z' U U') (hfront : ∀ k, partBehind 0 .binding (front ++ k) = partBehind 0 .binding k) :
    (HasPair q fun a b t => Listed (z' ++ a) b (t ++ U')) ↔
      HasPair p fun a b t => Listed (z ++ a) b (t ++ U) ∧ partBehind 0 .binding (front ++ a) ≠ .note := by
  have hin : (HasPair u.binding fun a b t => Listed (z' ++ a) b (t ++ (u.blanks ++ u.value) ++ U')) ↔
      HasPair u.binding fun a b t => Listed (z ++ a) b (t ++ (u.marks ++ ':' :: (u.type ++ u.value)) ++ U) ∧
        partBehind 0 .binding (front ++ a) ≠ .note := by
    refine HasPair.congr fun a b t hlist _ => ?_
    have hafter : Shut (u.blanks ++ u.value ++ U') := by
      rw [List.append_assoc]
      exact (shut_of_blank u.blank).append (u.shut_value halike.shut')
    have hbefore : Shut (u.marks ++ ':' :: (u.type ++ u.value) ++ U) := by
      rw [List.append_assoc]
      exact (shut_marks u.isMark).append (shut_cons rfl (by decide) (by simp))
    rw [hfront, u.partBehind_binding hcomma hlist, List.append_assoc, List.append_assoc t,
      listed_congr (halike.heads a).symm ((hafter t).trans (hbefore t).symm)]
    simp
  have hgone : ¬ HasPair u.type fun a b t =>
      Listed (z ++ (u.binding ++ (u.marks ++ ':' :: a))) b (t ++ u.value ++ U) ∧
        partBehind 0 .binding (front ++ (u.binding ++ (u.marks ++ ':' :: a))) ≠ .note := by
    rintro ⟨a, b, t, hlist, -, -, hpart⟩
    exact hpart (by rw [hfront, u.partBehind_type hp hcomma hlist])
  have hlast : (HasPair u.value fun a b t => Listed (z' ++ (u.binding ++ (u.blanks ++ a))) b (t ++ U')) ↔
      HasPair u.value fun a b t => Listed (z ++ (u.binding ++ (u.marks ++ ':' :: (u.type ++ a)))) b (t ++ U) ∧
        partBehind 0 .binding (front ++ (u.binding ++ (u.marks ++ ':' :: (u.type ++ a)))) ≠ .note := by
    refine HasPair.congr fun a b t hlist _ => ?_
    -- The equals sign stands before the list, and no head goes over it.
    obtain ⟨a, rfl⟩ : ∃ a', a = '=' :: a' := by
      rcases u.sign with hnil | ⟨v, hv, -⟩
      · simp [hnil] at hlist
      · rw [hv] at hlist
        cases a with
        | nil => simp at hlist
        | cons c a => exact ⟨a, by rw [(List.cons.inj hlist).1]⟩
    have hheads (z : List Char) : Headed (z ++ '=' :: a) ↔ Headed ('=' :: a) := headed_wall (by decide) z a
    have hafter := hheads (z' ++ (u.binding ++ u.blanks))
    have hbefore := hheads (z ++ (u.binding ++ (u.marks ++ ':' :: u.type)))
    simp only [List.append_assoc, List.cons_append] at hafter hbefore
    rw [hfront, u.partBehind_sign hp hcomma hlist,
      listed_congr (hafter.trans hbefore.symm) ((halike.shut' t).trans (halike.shut t).symm)]
    simp
  rw [u.hasPair_after hp, u.hasPair_before hp, hin, hlast]
  simp only [hgone, false_or]

/-! ### The lists in a list -/

/-- Above for a parameter that may have no annotation. -/
theorem hasPair_parameter (hp : Balanced p) (hcomma : Unstopped isComma 0 p []) (halike : Alike z z' U U')
    (hfront : ∀ k, partBehind 0 .binding (front ++ k) = partBehind 0 .binding k) :
    (HasPair ((untypedParameter? p).getD p) fun a b t => Listed (z' ++ a) b (t ++ U')) ↔
      HasPair p fun a b t => Listed (z ++ a) b (t ++ U) ∧ partBehind 0 .binding (front ++ a) ≠ .note := by
  cases hq : untypedParameter? p with
  | some q =>
    obtain ⟨u⟩ := nonempty_untyping hq
    exact hasPair_untyped u hp hcomma halike hfront
  | none =>
    refine HasPair.congr fun a b t hlist _ => ?_
    rw [hfront, listed_congr (halike.heads a).symm ((halike.shut' t).trans (halike.shut t).symm)]
    simp [partBehind_ne_note hcomma hq hlist]

theorem balanced_parameter (hp : Balanced p) : Balanced ((untypedParameter? p).getD p) := by
  cases hq : untypedParameter? p with
  | some q =>
    obtain ⟨u⟩ := nonempty_untyping hq
    exact u.balanced_after hp
  | none => exact hp

theorem balanced_parameters (hps : Pieces 0 ps) (h : Balanced ([','].intercalate ps)) :
    Balanced ([','].intercalate (ps.map fun p => (untypedParameter? p).getD p)) := by
  induction ps with
  | nil => exact hps.elim
  | cons p ps ih =>
    cases ps with
    | nil =>
      simp only [List.map_cons, List.map_nil, List.intercalate_singleton] at h ⊢
      exact balanced_parameter h
    | cons q ps =>
      obtain ⟨-, hdepth, hrest⟩ := hps
      rw [Int.zero_add] at hdepth
      rw [List.intercalate_cons_cons, List.append_assoc] at h
      obtain ⟨hp, hbehind⟩ := h.parts hdepth
      have hcomma : Balanced [','] := rfl
      simp only [List.map_cons, List.intercalate_cons_cons, List.append_assoc] at ih ⊢
      exact (balanced_parameter hp).append (hcomma.append (ih hrest (hbehind.tail rfl)))

theorem balanced_stripParameterTypes (hL : Balanced L) (h : stripParameterTypes L = some L') : Balanced L' := by
  obtain rfl := stripParameterTypes_eq_some h
  exact balanced_parameters (pieces_splitCommas 0 L) (by rwa [intercalate_splitCommas])

theorem hasPair_parameters (hps : Pieces 0 ps) (hbalanced : Balanced ([','].intercalate ps)) (halike : Alike z z' U U')
    (hfront : ∀ k, partBehind 0 .binding (front ++ k) = partBehind 0 .binding k) :
    (HasPair ([','].intercalate (ps.map fun p => (untypedParameter? p).getD p)) fun a b t =>
        Listed (z' ++ a) b (t ++ U')) ↔
      HasPair ([','].intercalate ps) fun a b t =>
        Listed (z ++ a) b (t ++ U) ∧ partBehind 0 .binding (front ++ a) ≠ .note := by
  induction ps generalizing z z' front with
  | nil => exact hps.elim
  | cons p ps ih =>
    cases ps with
    | nil =>
      simp only [List.map_cons, List.map_nil, List.intercalate_singleton] at hbalanced ⊢
      exact hasPair_parameter hbalanced hps halike hfront
    | cons q ps =>
      obtain ⟨hcomma, hdepth, hrest⟩ := hps
      rw [Int.zero_add] at hdepth
      rw [List.intercalate_cons_cons, List.append_assoc] at hbalanced
      obtain ⟨hp, hbehind⟩ := hbalanced.parts hdepth
      have hrestBalanced : Balanced ([','].intercalate (q :: ps)) := hbehind.tail rfl
      have hwall (z x k : List Char) : Headed (z ++ (x ++ ',' :: k)) ↔ Headed (',' :: k) := by
        rw [← List.append_assoc]
        exact headed_wall (by decide) (z ++ x) k
      have hshut (r : List Char) : Shut (',' :: r) := shut_cons rfl (by decide) (by simp)
      generalize hp' : (untypedParameter? p).getD p = p'
      have hcommas (r r' : List Char) : Alike z z' (',' :: (r ++ U)) (',' :: (r' ++ U')) :=
        ⟨halike.heads, hshut _, hshut _⟩
      have hnext : Alike (z ++ (p ++ [','])) (z' ++ (p' ++ [','])) U U' :=
        ⟨fun k => by simp only [List.append_assoc, List.singleton_append, hwall], halike.shut, halike.shut'⟩
      have hnextFront (k : List Char) :
          partBehind 0 .binding (front ++ (p ++ [',']) ++ k) = partBehind 0 .binding k := by
        rw [List.append_assoc, hfront, List.append_assoc]
        exact partBehind_comma hdepth k
      have hhere := fun r r' => hasPair_parameter hp hcomma (hcommas r r') hfront
      have hbelow := ih hrest hrestBalanced hnext hnextFront
      have hp'Balanced : Balanced p' := hp' ▸ balanced_parameter hp
      simp only [List.map_cons, List.intercalate_cons_cons, List.append_assoc, List.singleton_append,
        hp'] at hhere hbelow ⊢
      rw [hasPair_append hp'Balanced.enclosed, hasPair_cons_of_ne (by decide), hasPair_append hp.enclosed,
        hasPair_cons_of_ne (by decide)]
      simp only [List.append_assoc, List.cons_append]
      rw [hhere, hbelow]

/-- **The lists that are found in a list without its annotations** are those that are found in the list itself outside
of its annotations. -/
theorem hasPair_stripParameterTypes (hL : Balanced L) (h : stripParameterTypes L = some L') (halike : Alike z z' U U') :
    (HasPair L' fun a b t => Listed (z' ++ a) b (t ++ U')) ↔
      HasPair L fun a b t => Listed (z ++ a) b (t ++ U) ∧ partBehind 0 .binding a ≠ .note := by
  obtain rfl := stripParameterTypes_eq_some h
  have hfront : ∀ k, partBehind 0 .binding ([] ++ k) = partBehind 0 .binding k := fun _ => rfl
  have hall := hasPair_parameters (pieces_splitCommas 0 L) (by rwa [intercalate_splitCommas]) halike hfront
  rwa [intercalate_splitCommas] at hall

end LivePreview.Source
