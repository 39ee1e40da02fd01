import LivePreview.Proofs.Pattern.Seek
import LivePreview.Proofs.Source.Cut
import LivePreview.Proofs.Source.White
import LivePreview.Source.ComponentName

/-! Declarations, read one character at a time.

The name of a component is looked for with patterns that try many ways to match. Behind its keyword a declaration can
be read in one way only, so how far it has been read is a state (`Thread`), and each character says what becomes of
it. The patterns find the name that this gives at the first word edge where it gives one (`componentName?_eq`); the
qualifiers that they let stand before a keyword change nothing. -/
namespace LivePreview.Source
open Pattern

/-! ### Declarations that have been begun -/

/-- A Latin capital. -/
def isCapital (c : Char) : Bool := 'A' ≤ c && c ≤ 'Z'

/-- A character of a component's name behind the first. -/
def isNamePart (c : Char) : Bool := Text.isPlainName c || c == '$'

theorem isNamePart_of_isCapital {c : Char} (hc : isCapital c = true) : isNamePart c = true := by
  have hlatin : Text.isLatin c = true := Bool.or_eq_true_iff.2 (.inr hc)
  simp [isNamePart, Text.isPlainName, hlatin]

/-- The name of a component. -/
def IsName (n : List Char) : Prop := ∃ c m, n = c :: m ∧ isCapital c = true ∧ ∀ c ∈ m, isNamePart c = true

/-- How far a declaration has been read. -/
inductive Thread where
  /-- In the keyword, with what is left of it. -/
  | word (left : List Char)
  /-- In the white space behind it, with the star of a generator or before one. -/
  | gap (starred : Bool)
  | name (n : List Char)
  /-- In the white space behind the name. -/
  | behind (n : List Char)
deriving DecidableEq, Repr

/-- What the next character does to a declaration that has been begun. -/
inductive Outcome where
  | dies
  | goes (θ : Thread)
  | found (n : List Char)
deriving DecidableEq, Repr

/-- Behind the keyword of a function. -/
def Thread.opened (starred : Bool) (c : Char) : Outcome :=
  if Text.isSpace c then .goes (.gap starred)
  else if c == '*' && !starred then .goes (.gap true)
  else if isCapital c then .goes (.name [c])
  else .dies

/-- Behind the name of a binding. -/
def Thread.closes (n : List Char) (c : Char) : Outcome :=
  if Text.isSpace c then .goes (.behind n) else if among ":=" c then .found n else .dies

/-- A kind of declaration: words of Latin letters that it begins with, and whether nothing more is wanted than the
name, no white space before it and no sign behind it. -/
structure Track where
  keywords : List (List Char)
  bare : Bool
  letters : keywords.all (fun w => !w.isEmpty && w.all Text.isLatin) = true

namespace Track

def binding : Track := ⟨["const", "let", "var"].map (·.toList), false, by decide⟩

def function : Track := ⟨["function".toList], true, by decide⟩

variable (T : Track)

def step : Thread → Char → Outcome
  | .word (x :: left), c => if c == x && Text.isLatin c then .goes (.word left) else .dies
  | .word [], c =>
    if T.bare then Thread.opened false c else if Text.isSpace c then .goes (.gap true) else .dies
  | .gap starred, c => Thread.opened starred c
  | .name n, c =>
    if isNamePart c then .goes (.name (n ++ [c])) else if T.bare then .found n else Thread.closes n c
  | .behind n, c => Thread.closes n c

/-- The name of a declaration with which the text ends. -/
def last : Thread → Option (List Char)
  | .name n => if T.bare then some n else none
  | _ => none

/-- The name that a declaration turns out to have. -/
def follow : Thread → List Char → Option (List Char)
  | θ, [] => T.last θ
  | θ, c :: r =>
    match T.step θ c with
    | .dies => none
    | .goes θ => follow θ r
    | .found n => some n

/-- The name in a declaration that begins here. -/
def at? (prev : Option Char) (rest : List Char) : Option (List Char) :=
  if Edge.wordEdge.holds prev rest then T.keywords.findSome? fun w => T.follow (.word w) rest else none

/-! ### What is found, in one reading -/

/-- The name, when what follows it is right. -/
def ends (n rest : List Char) : Option (List Char) :=
  if T.bare then some n
  else match rest.dropWhile Text.isSpace with
    | c :: _ => if among ":=" c then some n else none
    | [] => none

/-- The name that the text begins with. -/
def named : List Char → Option (List Char)
  | [] => none
  | c :: r => if isCapital c then T.ends (c :: r.takeWhile isNamePart) (r.dropWhile isNamePart) else none

/-- The name behind a star and white space, both of which may be missing. -/
def starred : List Char → Option (List Char)
  | '*' :: r => T.named (r.dropWhile Text.isSpace)
  | r => T.named (r.dropWhile Text.isSpace)

variable {T} {n rest left : List Char}

theorem starred_of_ne {c : Char} (hc : c ≠ '*') (r : List Char) :
    T.starred (c :: r) = T.named ((c :: r).dropWhile Text.isSpace) := by
  unfold starred
  split
  case h_1 r' heq => exact absurd (List.cons_eq_cons.1 heq).1 hc
  case h_2 => rfl

theorem follow_word (hleft : left.all Text.isLatin = true) : T.follow (.word left) rest =
    if left.isPrefixOf rest then T.follow (.word []) (rest.drop left.length) else none := by
  induction left generalizing rest with
  | nil => simp
  | cons x left ih =>
    rw [List.all_cons, Bool.and_eq_true] at hleft
    cases rest with
    | nil => simp [follow, last]
    | cons c r =>
      by_cases hc : c = x
      · subst hc
        simpa [follow, step, hleft.1] using ih hleft.2
      · simp [follow, step, hc, Ne.symm hc]

theorem follow_behind (hbare : T.bare = false) : T.follow (.behind n) rest = T.ends n rest := by
  rw [ends, hbare]
  induction rest with
  | nil => rfl
  | cons c r ih =>
    by_cases hc : Text.isSpace c = true
    · simpa [follow, step, Thread.closes, hc] using ih
    · by_cases hmark : among ":=" c = true <;> simp [follow, step, Thread.closes, hc, hmark]

theorem follow_name :
    T.follow (.name n) rest = T.ends (n ++ rest.takeWhile isNamePart) (rest.dropWhile isNamePart) := by
  induction rest generalizing n with
  | nil => cases hbare : T.bare <;> simp [follow, last, ends, hbare]
  | cons c r ih =>
    by_cases hc : isNamePart c = true
    · simpa [follow, step, hc] using ih (n := n ++ [c])
    · rw [List.takeWhile_cons_of_neg hc, List.dropWhile_cons_of_neg hc, List.append_nil]
      cases hbare : T.bare
      case false =>
        rw [← follow_behind hbare]
        simp [follow, step, hc, hbare]
      case true => simp [follow, step, hc, hbare, ends]

theorem follow_gap (b : Bool) : T.follow (.gap b) rest =
    if b then T.named (rest.dropWhile Text.isSpace) else T.starred (rest.dropWhile Text.isSpace) := by
  have hstar : Text.isSpace '*' = false := rfl
  induction rest generalizing b with
  | nil => cases b <;> rfl
  | cons c r ih =>
    by_cases hc : Text.isSpace c = true
    · have hskip : T.follow (.gap b) (c :: r) = T.follow (.gap b) r := by simp [follow, step, Thread.opened, hc]
      rw [hskip, ih]
      simp [hc]
    · by_cases hs : c = '*'
      · subst hs
        cases b
        case false => simp [follow, step, Thread.opened, hstar, starred, ih]
        case true =>
          simp only [follow, step, Thread.opened, hstar, named, isCapital]
          rfl
      · by_cases hcapital : isCapital c = true
        · cases b <;> simp [follow, step, Thread.opened, hc, hs, hcapital, starred, named, follow_name]
        · cases b <;> simp [follow, step, Thread.opened, hc, hs, hcapital, starred, named]

/-- Behind the keyword of a binding stand white space and the name. -/
theorem follow_binding (rest : List Char) : binding.follow (.word []) rest =
    if rest.head?.any Text.isSpace then binding.named (rest.dropWhile Text.isSpace) else none := by
  cases rest with
  | nil => rfl
  | cons c r =>
    by_cases hc : Text.isSpace c = true
    · have hgap : binding.follow (.word []) (c :: r) = binding.follow (.gap true) r := by
        simp [follow, step, binding, hc]
      rw [hgap, follow_gap, if_pos rfl, List.dropWhile_cons_of_pos hc, if_pos (by simpa using hc)]
    · simp [follow, step, binding, hc]

/-- Behind the keyword of a function may stand a star. -/
theorem follow_function (rest : List Char) :
    function.follow (.word []) rest = function.starred (rest.dropWhile Text.isSpace) := by
  have hgap : function.follow (.word []) rest = function.follow (.gap false) rest := by cases rest <;> rfl
  rw [hgap, follow_gap, if_neg Bool.false_ne_true]

end Track

/-! ### What the patterns find -/

/-- The text of the first group. -/
def firstGroup (c : Cursor) : List Char :=
  match c.groups.lookup 1 with
  | some (s, stop) => Text.upTo s stop
  | none => []

variable {α : Type} {prev : Option Char} {rest : List Char} {k : Cursor → Option α}

/-- A name is read to its last character when what follows cannot begin with such a character, or needs nothing. -/
theorem run_name (hk : (∀ c, (k c).isSome) ∨ ∀ prev x r g, isNamePart x = true → k ⟨prev, x :: r, g⟩ = none) (c : Char)
    (r : List Char) : (Pattern.group 1 componentIdent).run ⟨prev, c :: r, []⟩ k =
      if isCapital c then
        k ⟨lastOf (some c) (r.takeWhile isNamePart), r.dropWhile isNamePart,
          [(1, c :: r, r.dropWhile isNamePart)]⟩
      else none := by
  show (Pattern.one isCapital ++ .many isNamePart true).run ⟨prev, c :: r, []⟩
    (fun d => k ⟨d.prev, d.rest, (1, c :: r, d.rest) :: d.groups⟩) = _
  rw [run_seq, run_one]
  split
  case isTrue =>
    rcases hk with hk | hk
    · exact run_many fun _ _ _ _ _ => hk _
    · exact run_many_of_stop fun prev x r hx => hk prev x r _ hx
  case isFalse => rfl

theorem firstGroup_name (prev : Option Char) (c : Char) (r rest : List Char) :
    firstGroup ⟨prev, rest, [(1, c :: r, r.dropWhile isNamePart)]⟩ = c :: r.takeWhile isNamePart := by
  have hsplit : c :: r = (c :: r.takeWhile isNamePart) ++ r.dropWhile isNamePart := by simp
  exact (congrArg (Text.upTo · (r.dropWhile isNamePart)) hsplit).trans (upTo_append _ _)

theorem not_isNamePart_of_isSpace {c : Char} (hc : Text.isSpace c = true) : isNamePart c = false := by
  simp [isNamePart, Text.isPlainName, Reading.isLatin_of_isSpace hc, Reading.isDigit_of_isSpace hc,
    Reading.ne_of_isSpace (d := '_') hc rfl, Reading.ne_of_isSpace (d := '$') hc rfl]

theorem not_isSpace_of_isCapital {c : Char} (h : isCapital c = true) : Text.isSpace c = false := by
  refine Bool.eq_false_iff.2 fun hc => ?_
  have hlatin := Reading.isLatin_of_isSpace hc
  simp only [isCapital] at h
  simp [Text.isLatin, h] at hlatin

theorem run_spaces {g : List (Nat × List Char × List Char)}
    (hstop : ∀ prev x r, Text.isSpace x = true → k ⟨prev, x :: r, g⟩ = none) : spaces.run ⟨prev, rest, g⟩ k =
      k ⟨lastOf prev (rest.takeWhile Text.isSpace), rest.dropWhile Text.isSpace, g⟩ := run_many_of_stop hstop

theorem eq_of_among {c : Char} (hc : among ":=" c = true) : c = ':' ∨ c = '=' := by simpa [among] using hc

theorem not_isSpace_of_among {c : Char} (hc : among ":=" c = true) : Text.isSpace c = false := by
  rcases eq_of_among hc with rfl | rfl <;> rfl

/-- White space and the sign behind the name of a binding. -/
theorem run_sign (g : List (Nat × List Char × List Char)) :
    spaces.run ⟨prev, rest, g⟩ (fun d => (Pattern.one (among ":=")).run d some) =
      match rest.dropWhile Text.isSpace with
      | c :: r => if among ":=" c then some ⟨some c, r, g⟩ else none
      | [] => none := by
  rw [run_spaces fun prev x r hx => if_neg fun hsign => by simp [not_isSpace_of_among hsign] at hx]
  cases rest.dropWhile Text.isSpace <;> rfl

/-- The name of a binding, with what follows it. -/
theorem run_boundName : ((Pattern.group 1 componentIdent).run ⟨prev, rest, []⟩
      fun d => spaces.run d fun e => (Pattern.one (among ":=")).run e some).map firstGroup =
    Track.binding.named rest := by
  cases rest with
  | nil => rfl
  | cons c r =>
    rw [run_name (.inr fun prev x r g hx => ?_), Track.named]
    · split
      case isTrue =>
        rw [run_sign, Track.ends]
        simp only [Track.binding, Bool.false_eq_true, if_false]
        split
        case h_1 x r' hx => split <;> simp [firstGroup_name]
        case h_2 => rfl
      case isFalse => rfl
    · have hspace : ¬ Text.isSpace x = true := fun hspace => by simp [not_isNamePart_of_isSpace hspace] at hx
      rw [run_sign, List.dropWhile_cons_of_neg hspace]
      refine if_neg fun hsign => ?_
      rcases eq_of_among hsign with rfl | rfl <;> exact absurd hx (by decide)

theorem run_name_space (prev : Option Char) {x : Char} (r : List Char) (hx : Text.isSpace x = true)
    (k : Cursor → Option α) : (Pattern.group 1 componentIdent).run ⟨prev, x :: r, []⟩ k = none := by
  show (Pattern.one isCapital ++ .many isNamePart true).run ⟨prev, x :: r, []⟩ _ = none
  rw [run_seq, run_one]
  exact if_neg fun hcapital => by simp [not_isSpace_of_isCapital hcapital] at hx

/-- A binding behind its keyword. -/
theorem run_boundGap : (gap.run ⟨prev, rest, []⟩ fun d => (Pattern.group 1 componentIdent).run d
      fun e => spaces.run e fun f => (Pattern.one (among ":=")).run f some).map firstGroup =
    Track.binding.follow (.word []) rest := by
  cases rest with
  | nil => rfl
  | cons c r =>
    show ((Pattern.one Text.isSpace).run ⟨prev, c :: r, []⟩ fun d => spaces.run d _).map firstGroup = _
    rw [run_one, Track.follow_binding, List.head?_cons, Option.any_some]
    split
    case isTrue hc =>
      rw [run_spaces fun prev x r hx => run_name_space prev r hx _, run_boundName, List.dropWhile_cons_of_pos hc]
    case isFalse => rfl

/-- A binding without what may stand before it. -/
theorem run_binding : ((words ["const", "let", "var"]).run ⟨prev, rest, []⟩ fun c => gap.run c
      fun d => (Pattern.group 1 componentIdent).run d fun e => spaces.run e fun f =>
        (Pattern.one (among ":=")).run f some).map firstGroup =
    Track.binding.keywords.findSome? fun w => Track.binding.follow (.word w) rest := by
  have hword (w : String) (hw : w.toList.all Text.isLatin = true) : Option.map firstGroup
      (if w.toList.isPrefixOf rest then gap.run ⟨lastOf prev w.toList, rest.drop w.toList.length, []⟩
        fun d => (Pattern.group 1 componentIdent).run d fun e => spaces.run e fun f =>
          (Pattern.one (among ":=")).run f some
      else none) = Track.binding.follow (.word w.toList) rest := by
    rw [Track.follow_word hw]
    split
    case isTrue => exact run_boundGap
    case isFalse => rfl
  have hconst := hword "const" (by decide)
  have hlet := hword "let" (by decide)
  have hvar := hword "var" (by decide)
  rw [run_words (by simp), List.map_findSome?]
  simp only [Track.binding, List.map_cons, List.map_nil, List.findSome?_cons, Function.comp, List.findSome?_nil] at *
  rw [hconst, hlet, hvar]

/-- The name of a function behind white space. -/
theorem run_spacedName : (spaces.run ⟨prev, rest, []⟩ fun d =>
      (Pattern.group 1 componentIdent).run d some).map firstGroup =
    Track.function.named (rest.dropWhile Text.isSpace) := by
  rw [run_spaces fun prev x r hx => run_name_space prev r hx _]
  cases rest.dropWhile Text.isSpace with
  | nil => rfl
  | cons c r =>
    rw [run_name (.inl fun _ => rfl), Track.named]
    split
    case isTrue => exact congrArg some (firstGroup_name ..)
    case isFalse => rfl

/-- A name that can be read begins the text. -/
theorem Track.named_head {T : Track} (h : (T.named rest).isSome) :
    ∃ c r, rest = c :: r ∧ isCapital c = true := by
  cases rest with
  | nil => exact nomatch h
  | cons c r => exact ⟨c, r, rfl, Classical.byContradiction fun hc => by simp [named, hc] at h⟩

/-- The name of a function behind a star and white space, both of which may be missing. -/
theorem run_starredName : ((opt (lit "*")).run ⟨prev, rest, []⟩ fun d => spaces.run d fun e =>
      (Pattern.group 1 componentIdent).run e some).map firstGroup =
    Track.function.starred rest := by
  have hspaced {prev : Option Char} {rest : List Char} := @run_spacedName prev rest
  rw [run_opt, run_lit, Option.map_or, hspaced]
  rcases rest with - | ⟨c, r⟩
  · rfl
  by_cases hc : c = '*'
  · subst hc
    have hstar : Text.isSpace '*' = false := rfl
    have hnone : Track.function.named ('*' :: r) = none := rfl
    have hbegins : "*".toList.isPrefixOf ('*' :: r) = true := by simp
    rw [if_pos hbegins, List.dropWhile_cons_of_neg (by simp [hstar]), hnone, Option.or_none]
    exact hspaced
  · have hbegins : ¬ "*".toList.isPrefixOf (c :: r) = true := by simpa using Ne.symm hc
    rw [if_neg hbegins, Track.starred_of_ne hc]
    rfl

/-- A function behind its keyword. -/
theorem run_functionName : (spaces.run ⟨prev, rest, []⟩ fun c => (opt (lit "*")).run c fun d =>
      spaces.run d fun e => (Pattern.group 1 componentIdent).run e some).map firstGroup =
    Track.function.follow (.word []) rest := by
  have hstar {prev : Option Char} {rest : List Char} := @run_starredName prev rest
  rw [Track.follow_function, ← @hstar (lastOf prev (rest.takeWhile Text.isSpace)) _]
  refine congrArg (Option.map firstGroup) (run_many fun l r hrest hl hsome => ?_)
  rw [← Option.isSome_map (f := firstGroup), hstar] at hsome ⊢
  subst hrest
  rw [List.dropWhile_append_of_pos hl]
  cases r with
  | nil => exact hsome
  | cons x r =>
    by_cases hx : Text.isSpace x = true
    · -- The name itself comes next, so that no star does.
      rw [Track.starred_of_ne (Reading.ne_of_isSpace hx rfl), List.dropWhile_cons_of_pos hx] at hsome
      rw [List.dropWhile_cons_of_pos hx]
      obtain ⟨c, r', hr, hc⟩ := Track.named_head hsome
      have hne : c ≠ '*' := by
        rintro rfl
        exact absurd hc (by decide)
      rw [hr] at hsome ⊢
      rwa [Track.starred_of_ne hne, List.dropWhile_cons_of_neg (by simp [not_isSpace_of_isCapital hc])]
    · rwa [List.dropWhile_cons_of_neg hx]

/-! ### What may stand before a declaration -/

/-- No keyword begins with the character. -/
def Track.avoids (T : Track) (x : Char) : Bool := T.keywords.all fun w => w.head?.any (· != x)

theorem Track.avoids_of_not_isLatin (T : Track) {x : Char} (hx : Text.isLatin x = false) : T.avoids x = true := by
  refine List.all_eq_true.2 fun w hw => ?_
  have hletters := List.all_eq_true.1 T.letters w hw
  cases w with
  | nil => exact nomatch hletters
  | cons y w =>
    simp only [List.isEmpty_cons, Bool.not_false, Bool.true_and, List.all_cons, Bool.and_eq_true] at hletters
    exact bne_iff_ne.2 fun hxy => by simp [hxy, hx] at hletters

variable {T : Track}

theorem Track.step_of_avoids {x : Char} (h : T.avoids x = true) {w : List Char} (hw : w ∈ T.keywords) :
    T.step (.word w) x = .dies := by
  have hhead := List.all_eq_true.1 h w hw
  cases w with
  | nil => exact nomatch hhead
  | cons y w => simp [step, show ¬ x = y from fun hxy => by simp [hxy] at hhead]

theorem Track.at?_of_avoids {x : Char} (h : T.avoids x = true) (prev : Option Char) (r : List Char) :
    T.at? prev (x :: r) = none := by
  have hnone : (T.keywords.findSome? fun w => T.follow (.word w) (x :: r)) = none :=
    List.findSome?_eq_none_iff.2 fun w hw => by rw [follow, step_of_avoids h hw]
  rw [at?, hnone, ite_self]

theorem every_passes_lit {t : String} (h : t.toList.all T.avoids = true) :
    (lit t).Every fun l => ∀ prev, Passes T.at? prev l :=
  (Every.lit t).mono fun _ hl _ => .of_forall fun x hx prev r =>
    Track.at?_of_avoids (List.all_eq_true.1 h x (hl ▸ hx)) prev r

theorem every_passes_gap : gap.Every fun l => ∀ prev, Passes T.at? prev l :=
  every_blank_gap.mono fun _ hl _ => .of_forall fun x hx prev r =>
    Track.at?_of_avoids (T.avoids_of_not_isLatin (Reading.isLatin_of_isSpace (hl x hx))) prev r

/-- White space that is wanted ends in white space. -/
theorem Reads.gap_last {p : Pattern} {c d : Cursor} (h : (p ++ gap).Reads c d) :
    ∃ x, Text.isSpace x = true ∧ d.prev = some x := by
  have hlast {l : List Char} (hl : Blank l) {prev : Option Char} (hprev : ∃ x, Text.isSpace x = true ∧ prev = some x) :
      ∃ x, Text.isSpace x = true ∧ lastOf prev l = some x := by
    induction l generalizing prev with
    | nil => exact hprev
    | cons x l ih => exact ih (fun y hy => hl y (List.mem_cons_of_mem x hy)) ⟨x, hl x List.mem_cons_self, rfl⟩
  cases h with
  | seq _ hgap =>
    cases hgap with
    | seq hone hmany =>
      cases hone with
      | one hx =>
        obtain ⟨l, hl, hd⟩ := hmany.lastOf
        obtain ⟨l', hl', hblank⟩ := every_blank_spaces _ _ hmany
        rw [List.append_cancel_right (hl'.symm.trans hl)] at hblank
        exact hd ▸ hlast hblank ⟨_, hx, rfl⟩

theorem every_passes_exportGap (h : "export".toList.all T.avoids = true) :
    (.at .wordEdge ++ lit "export" ++ gap : Pattern).Every fun l => ∀ prev, Passes T.at? prev l :=
  ((Every.at fun _ => True.intro).passes_append (every_passes_lit h)).passes_append every_passes_gap

/-- A search for bindings finds the first place where one begins. -/
theorem seek_binding (prev : Option Char) (s : List Char) :
    seek (fun prev rest => (bindingDeclaration.endFrom prev rest).map firstGroup) prev s =
      seek Track.binding.at? prev s := by
  let k (c : Cursor) : Option Cursor := (Pattern.at .wordEdge).run c fun c =>
    (words ["const", "let", "var"]).run c fun c => gap.run c fun d => (Pattern.group 1 componentIdent).run d fun e =>
      spaces.run e fun f => (Pattern.one (among ":=")).run f some
  have hk (prev : Option Char) (rest : List Char) :
      (k ⟨prev, rest, []⟩).map firstGroup = Track.binding.at? prev rest := by
    show (if Edge.wordEdge.holds prev rest then _ else none).map firstGroup = _
    rw [Track.at?]
    split
    case isTrue => exact run_binding
    case isFalse => rfl
  exact ((Finds.of_eq hk).opt (every_passes_exportGap (by decide)) rfl).seek prev s

/-- White space above ASCII. -/
def wideSpaces : List Nat :=
  [0x85, 0xA0, 0x1680, 0x2000, 0x2001, 0x2002, 0x2003, 0x2004, 0x2005, 0x2006, 0x2007, 0x2008, 0x2009, 0x200A, 0x2028,
    0x2029, 0x202F, 0x205F, 0x3000]

theorem isSpace_wide {c : Char} (h : Text.isSpace c = true) (hc : ¬ c.toNat < 128) : c.toNat ∈ wideSpaces := by
  simp only [Text.isSpace, Bool.or_eq_true, Bool.and_eq_true, decide_eq_true_eq, beq_iff_eq] at h
  simp only [wideSpaces, List.mem_cons, List.not_mem_nil, or_false]
  omega

/-- None of the ranges has white space in it. -/
def solidRanges (ranges : Array (Nat × Nat)) : Bool :=
  ranges.toList.all fun r => wideSpaces.all fun n => Nat.blt n r.1 || Nat.blt r.2 n

theorem not_inRanges_of_solid {ranges : Array (Nat × Nat)} (h : solidRanges ranges = true) {n : Nat}
    (hn : n ∈ wideSpaces) : Text.inRanges ranges n = false := by
  rw [Text.inRanges, List.any_eq_false]
  intro r hr hin
  have hout := List.all_eq_true.1 (List.all_eq_true.1 h r hr) n hn
  simp only [Bool.or_eq_true, Nat.blt_eq, Bool.and_eq_true, decide_eq_true_eq] at hout hin
  omega

theorem solid_wordRanges : solidRanges Text.wordRanges = true := by decide +kernel

theorem not_isWord_of_isSpace {c : Char} (h : Text.isSpace c = true) : Text.isWord c = false := by
  unfold Text.isWord
  split
  case isTrue =>
    simp [Reading.isLatin_of_isSpace h, Reading.isDigit_of_isSpace h, Reading.ne_of_isSpace (d := '_') h rfl]
  case isFalse hc => exact not_inRanges_of_solid solid_wordRanges (isSpace_wide h hc)

/-- Behind white space a keyword begins at a word edge. -/
theorem Track.at?_space {x : Char} (hx : Text.isSpace x = true) {a : List Char}
    (h : Track.function.follow (.word "function".toList) rest = some a) :
    Track.function.at? (some x) rest = some a := by
  have hedge : Edge.wordEdge.holds (some x) rest = true := by
    rw [follow_word (by decide)] at h
    split at h
    case isTrue hbegins =>
      obtain ⟨r, rfl⟩ := List.isPrefixOf_iff_prefix.1 hbegins
      simp only [Edge.holds, Option.any_some, not_isWord_of_isSpace hx]
      rfl
    case isFalse => exact nomatch h
  simpa [at?, hedge, function] using h

/-- A function from its keyword on. -/
theorem run_function : ((lit "function").run ⟨prev, rest, []⟩ fun c => spaces.run c fun c => (opt (lit "*")).run c
      fun d => spaces.run d fun e => (Pattern.group 1 componentIdent).run e some).map firstGroup =
    Track.function.follow (.word "function".toList) rest := by
  rw [run_lit, Track.follow_word (by decide)]
  split
  case isTrue => exact run_functionName
  case isFalse => rfl

/-- The word `function` does not begin within `default` . -/
theorem every_passes_default : (lit "default").Every fun l => ∀ prev, Passes Track.function.at? prev l := by
  refine (Every.lit "default").mono fun l hl prev => ?_
  have hnone {x : Char} (hx : Track.function.avoids x = true) (prev : Option Char) := Track.at?_of_avoids hx prev
  have hinner (r : List Char) : Track.function.at? (some 'e') ('f' :: r) = none := rfl
  subst hl
  exact ⟨hnone (by decide) _, hnone (by decide) _, hinner, hnone (by decide) _, hnone (by decide) _,
    hnone (by decide) _, hnone (by decide) _, True.intro⟩

/-- A function with `async` before it or without. -/
theorem finds_function : Finds firstGroup (fun c => (Pattern.at .wordEdge).run c fun c =>
      (opt (lit "async" ++ gap)).run c fun c => (lit "function").run c fun c => spaces.run c fun c =>
        (opt (lit "*")).run c fun d => spaces.run d fun e => (Pattern.group 1 componentIdent).run e some)
    Track.function.at? := by
  let k (c : Cursor) : Option Cursor := (lit "function").run c fun c => spaces.run c fun c => (opt (lit "*")).run c
    fun d => spaces.run d fun e => (Pattern.group 1 componentIdent).run e some
  have hk (prev : Option Char) (rest : List Char) : (k ⟨prev, rest, []⟩).map firstGroup =
      Track.function.follow (.word "function".toList) rest := run_function
  have hasync : (lit "async" ++ gap).Every fun l => ∀ prev, Passes Track.function.at? prev l :=
    (every_passes_lit (by decide)).passes_append every_passes_gap
  intro prev rest
  have hguard : ((Pattern.at .wordEdge).run ⟨prev, rest, []⟩ fun c => (opt (lit "async" ++ gap)).run c k) =
      if Edge.wordEdge.holds prev rest then (opt (lit "async" ++ gap)).run ⟨prev, rest, []⟩ k else none := rfl
  dsimp only
  rw [hguard]
  cases hedge : Edge.wordEdge.holds prev rest with
  | false => simp [Track.at?, hedge]
  | true =>
    have hat : Track.function.at? prev rest = (k ⟨prev, rest, []⟩).map firstGroup := by
      rw [hk]
      simp [Track.at?, hedge, Track.function]
    rw [if_pos rfl, run_opt]
    cases hpre : (lit "async" ++ gap).run ⟨prev, rest, []⟩ k with
    | none =>
      rw [Option.none_or]
      cases hd : k ⟨prev, rest, []⟩ with
      | some d => exact seek_of_some (by rw [hat, hd, Option.map_some])
      | none => exact hat.trans (by rw [hd, Option.map_none])
    | some d =>
      obtain ⟨⟨prev', rest', g⟩, hreads, hd⟩ := run_reads hpre
      obtain rfl : g = [] := hreads.groups_eq rfl
      obtain ⟨x, hx, rfl⟩ := Reads.gap_last hreads
      have hfollow := hk (some x) rest'
      rw [hd, Option.map_some, eq_comm] at hfollow
      exact (hreads.seek hasync).trans (seek_of_some (Track.at?_space hx hfollow))

/-- A search for functions finds the first place where one begins. -/
theorem seek_function (prev : Option Char) (s : List Char) :
    seek (fun prev rest => (functionDeclaration.endFrom prev rest).map firstGroup) prev s =
      seek Track.function.at? prev s := by
  have hexport : (.at .wordEdge ++ lit "export" ++ gap ++ opt (lit "default" ++ gap) : Pattern).Every
      fun l => ∀ prev, Passes Track.function.at? prev l :=
    (every_passes_exportGap (by decide)).passes_append
      ((every_passes_default.passes_append every_passes_gap).opt fun _ => True.intro)
  exact (finds_function.opt hexport rfl).seek prev s

/-- The name of a component as three searches. -/
theorem componentName?_eq (s : List Char) : componentName? s =
    match seek Track.binding.at? none s with
    | some n => some ⟨n, .binding⟩
    | none => match seek Track.function.at? none s with
      | some n => some ⟨n, .function⟩
      | none => (exportedName.find? s).map fun m =>
        ⟨if m.hasGroup 1 then m.group 1 else m.group 2, .exported⟩ := by
  have hbinding := (map_find? bindingDeclaration firstGroup s).trans (seek_binding none s)
  have hfunction := (map_find? functionDeclaration firstGroup s).trans (seek_function none s)
  rw [← hbinding, ← hfunction, componentName?]
  cases bindingDeclaration.find? s with
  | some m => rfl
  | none => cases functionDeclaration.find? s <;> rfl

end LivePreview.Source
