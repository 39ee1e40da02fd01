import LivePreview.Proofs.Jsx.Word
import LivePreview.Source.Plain
import Mathlib.Data.List.DropRight

/-! Where a component's name is declared.

The name is the one of the first declaration in the source, at whatever depth it stands. A plain program has it at its
top level when that declaration is what an item of the program begins with, whatever parser tells its items
(`Parses`). -/
namespace LivePreview.Source
open Pattern

variable {T : Track} {n m r s t : List Char} {k : NameKind} {c : Char} {prev : Option Char}

/-! ### Declarations in a text -/

/-- The sign of a declaration, behind white space or directly. -/
def IsBound (r : List Char) : Prop := ∃ g c r', r = g ++ c :: r' ∧ Blank g ∧ among ":=" c = true

/-- How a text goes on behind the keyword of a declaration, to its name and to what comes behind it. -/
inductive Leads (n : List Char) : NameKind → List Char → List Char → Prop
  | binding {g r : List Char} (hg : Blank g) (hne : g ≠ []) (hn : IsName n) (hr : IsBound r) :
    Leads n .binding (g ++ (n ++ r)) r
  | function {g r : List Char} (hg : Blank g) (hn : IsName n) (hr : r.head?.any isNamePart = false) :
    Leads n .function (g ++ (n ++ r)) r
  | generator {g g' r : List Char} (hg : Blank g) (hg' : Blank g') (hn : IsName n)
    (hr : r.head?.any isNamePart = false) : Leads n .function (g ++ '*' :: (g' ++ (n ++ r))) r

/-- The words that a declaration of the kind begins with. -/
def NameKind.keywords : NameKind → List (List Char)
  | .binding => Track.binding.keywords
  | .function => Track.function.keywords
  | .exported => []

/-- A declaration of the name in a text, whatever stands around it: what is before it, its keyword, what is behind that,
and what is behind the name. -/
structure Declaration (k : NameKind) (n t : List Char) where
  before : List Char
  word : List Char
  behind : List Char
  rest : List Char
  split : t = before ++ (word ++ behind)
  apart : (lastOf none before).any Text.isWord = false
  keyword : word ∈ k.keywords
  leads : Leads n k behind rest

/-- No declaration of the kind stands before this one. -/
def Declaration.First (d : Declaration k n t) : Prop :=
  ∀ {m : List Char} (e : Declaration k m t), d.before.length ≤ e.before.length

/-! ### What a declaration is read as -/

namespace Track

end Track

theorem IsBound.head (h : IsBound r) : r.head?.any isNamePart = false := by
  obtain ⟨g, c, r', rfl, hg, hc⟩ := h
  cases g with
  | nil =>
    rcases eq_of_among hc with rfl | rfl <;> rfl
  | cons x g =>
    exact not_isNamePart_of_isSpace (hg x List.mem_cons_self)

/-- A track reads the declarations of a kind. -/
structure Track.Reads (T : Track) (k : NameKind) : Prop where
  keywords : T.keywords = k.keywords
  follow_iff (n s : List Char) : T.follow (.word []) s = some n ↔ ∃ r, Leads n k s r

theorem wordEdge_keyword {w : List Char} (hw : w ∈ T.keywords) :
    Edge.wordEdge.holds prev (w ++ s) = !prev.any Text.isWord := by
  have hletters := List.all_eq_true.1 T.letters w hw
  cases w with
  | nil => exact nomatch hletters
  | cons x w =>
    have hx : Text.isLatin x = true := by
      simp only [List.isEmpty_cons, Bool.not_false, Bool.true_and, List.all_cons, Bool.and_eq_true] at hletters
      exact hletters.1
    have hword : Text.isWord x = true := by
      rw [Text.isWord, if_pos (Jsx.ascii_of_isNamePart (by simp [isNamePart, Text.isPlainName, hx])), hx]
      rfl
    simp [Edge.holds, hword]

theorem Track.Reads.declaration (hT : T.Reads k) {l r : List Char} (h : T.at? (lastOf none l) r = some n) :
    ∃ d : Declaration k n (l ++ r), d.before = l := by
  rw [Track.at?] at h
  obtain ⟨hedge, h⟩ := Option.ite_none_right_eq_some.1 h
  obtain ⟨w, hw, h⟩ := List.exists_of_findSome?_eq_some h
  have hletters := List.all_eq_true.1 T.letters w hw
  rw [Bool.and_eq_true] at hletters
  rw [Track.follow_word hletters.2] at h
  obtain ⟨hbegins, h⟩ := Option.ite_none_right_eq_some.1 h
  obtain ⟨s, rfl⟩ := List.isPrefixOf_iff_prefix.1 hbegins
  rw [List.drop_left] at h
  obtain ⟨r, hr⟩ := (hT.follow_iff n s).1 h
  rw [wordEdge_keyword hw] at hedge
  exact ⟨⟨l, w, s, r, rfl, by simpa using hedge, hT.keywords ▸ hw, hr⟩, rfl⟩

theorem Track.Reads.at?_isSome (hT : T.Reads k) (d : Declaration k n t) :
    (T.at? (lastOf none d.before) (d.word ++ d.behind)).isSome := by
  have hw : d.word ∈ T.keywords := hT.keywords ▸ d.keyword
  rw [Track.at?, wordEdge_keyword hw, d.apart, Bool.not_false, if_pos rfl, List.findSome?_isSome_iff]
  have hletters := List.all_eq_true.1 T.letters d.word hw
  rw [Bool.and_eq_true] at hletters
  refine ⟨d.word, hw, ?_⟩
  rw [Track.follow_word hletters.2, if_pos (by simp), List.drop_left, (hT.follow_iff n d.behind).2 ⟨d.rest, d.leads⟩]
  rfl

/-- A search that finds a name has found the first declaration. -/
theorem Track.Reads.first (hT : T.Reads k) (h : seek T.at? none t = some n) : ∃ d : Declaration k n t, d.First := by
  obtain ⟨l, r, rfl, hl, hearlier⟩ := seek_eq_some h
  obtain ⟨d, hd⟩ := hT.declaration hl
  refine ⟨d, fun e => Nat.le_of_not_lt fun hlt => ?_⟩
  have hsome := hT.at?_isSome e
  rw [hd] at hlt
  rw [hearlier _ _ e.split hlt] at hsome
  exact nomatch hsome

theorem Track.Reads.none (hT : T.Reads k) (h : seek T.at? none t = none) (n : List Char) :
    IsEmpty (Declaration k n t) := by
  refine ⟨fun d => ?_⟩
  have hsome := hT.at?_isSome d
  rw [seek_eq_none h _ _ d.split] at hsome
  exact nomatch hsome

/-- What hands out an item of a module, if anything does. -/
inductive Handing : NameKind → List Char → Prop
  | bare (k : NameKind) : Handing k []
  | exported {k : NameKind} {g : List Char} (hg : Blank g) (hne : g ≠ []) : Handing k ("export".toList ++ g)
  | byDefault {g g' : List Char} (hg : Blank g) (hne : g ≠ []) (hg' : Blank g') (hne' : g' ≠ []) :
    Handing .function ("export".toList ++ (g ++ ("default".toList ++ g')))

/-- What may stand in an item before the keyword of a declaration that it begins with. -/
inductive Opening : NameKind → List Char → Prop
  | sync {k : NameKind} {p : List Char} (hp : Handing k p) : Opening k p
  | async {p g : List Char} (hp : Handing .function p) (hg : Blank g) (hne : g ≠ [])
    (hline : ∀ c ∈ g, Jsx.isLineEnd c = false) : Opening .function (p ++ ("async".toList ++ g))

/-- Here no word goes on. -/
def WordEnds (r : List Char) : Prop := ∀ c ∈ r.head?, Text.isSpace c = true ∨ c ∈ ['*', '(', '/', ':', '=']

namespace Declaration
variable (d : Declaration k n t)

/-- The item begins with the declaration, or with what hands it out. -/
def Begins (item : Jsx.ModuleItem) : Prop :=
  ∃ b p, d.before = b ++ p ∧ Opening k p ∧ item.rest = p ++ (d.word ++ d.behind)

/-- Keyword and name are words of their own. -/
def Whole : Prop := WordEnds d.behind ∧ WordEnds d.rest

end Declaration

theorem WordEnds.endsWord (h : WordEnds r) : Jsx.EndsWord r := by
  intro c hc
  rcases h c hc with hc | hc
  · exact ⟨Jsx.not_continuesIdentifier_of_isSpace hc, Reading.ne_of_isSpace hc rfl⟩
  · simp only [List.mem_cons, List.not_mem_nil, or_false] at hc
    rcases hc with rfl | rfl | rfl | rfl | rfl <;> decide

theorem Leads.names {d : Jsx.Cursor} (h : Leads n .function d.after r) (hr : Jsx.EndsWord r) :
    IsName n ∧ Jsx.Names d (String.ofList n) := by
  generalize hs : d.after = s at h
  cases h with
  | function hg hn _ => exact ⟨hn, .next false (Jsx.follow_name hs hg hn hr)⟩
  | generator hg hg' hn _ => exact ⟨hn, Jsx.follow_star hs hg hg' hn hr⟩

/-- Behind what hands out an item stands the rest of it. -/
theorem Handing.opens {c : Jsx.Cursor} {p : List Char} {x : Char} (hp : Handing k p) (hx : Jsx.opensToken x = true)
    (h : Jsx.Stands c (p ++ x :: r)) :
    ∃ d, Jsx.Stands d (x :: r) ∧ Jsx.OpensFunction c d ∧ (k = .binding → Jsx.Opens c d) := by
  have hexports : Jsx.IsPlainWord "export".toList := Jsx.isPlainWord_of_letters (by decide)
  have hdefaults : Jsx.IsPlainWord "default".toList := Jsx.isPlainWord_of_letters (by decide)
  cases hp with
  | bare => exact ⟨c, h, .plain .plain, fun _ => .plain⟩
  | exported hg hne =>
    rw [List.append_assoc] at h
    obtain ⟨hexport, hnext, -⟩ := h.follow hexports hg hne hx
    exact ⟨_, hnext, .plain (.exported hexport), fun _ => .exported hexport⟩
  | byDefault hg hne hg' hne' =>
    simp only [List.append_assoc] at h
    obtain ⟨hexport, hnext, -⟩ := h.follow hexports hg hne (c := 'd') (by decide)
    obtain ⟨hdefault, hnext, -⟩ := hnext.follow hdefaults hg' hne' hx
    exact ⟨_, hnext, .byDefault hexport hdefault, nofun⟩

end LivePreview.Source
