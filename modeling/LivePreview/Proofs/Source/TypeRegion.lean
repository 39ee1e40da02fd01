import LivePreview.Proofs.Source.ImportLine
import LivePreview.Proofs.Source.ListCut

/-! What the removals of type declarations take out.

Each match is made of whole lines. It begins with the head of a declaration, and where it ends is told by the lines
behind that: no brace is counted. So the match keeps to its declaration just when the lines end where the braces do. -/
namespace LivePreview.Source
open Pattern

/-! ### Lines -/

/-- What stands behind the line that a text begins with. -/
def behindLine (s : List Char) : List Char := (s.dropWhile (· != '\n')).tail

variable {s l r line inner rest : List Char} {p q : Pattern} {c d : Cursor} {prev : Option Char} {k : Nat} {x : Char}

theorem behindLine_append (hl : '\n' ∉ l) (r : List Char) : behindLine (l ++ r) = behindLine r := by
  have hok : ∀ c ∈ l, (c != '\n') = true := fun c hc => bne_iff_ne.2 fun h => hl (h ▸ hc)
  rw [behindLine, List.dropWhile_append_of_pos hok]
  rfl

theorem IsStatementEnd.behindLine (h : IsStatementEnd s r) : behindLine (s ++ r) = r := by
  obtain ⟨a, m, b, e, rfl, ha, hm, hb, he⟩ := h
  have hline : '\n' ∉ a ++ (m ++ b) := by
    simp only [List.mem_append, not_or]
    refine ⟨fun h => not_mem_of_blank ha _ h rfl, ?_, fun h => not_mem_of_blank hb _ h rfl⟩
    rcases hm with rfl | rfl <;> decide
  have hparts : a ++ (m ++ (b ++ e)) ++ r = a ++ (m ++ b) ++ (e ++ r) := by simp
  rw [hparts, behindLine_append hline]
  rcases he with rfl | rfl | ⟨rfl, rfl⟩ <;> rfl

theorem IsStatementEnd.not_mem (h : IsStatementEnd s r) : '}' ∉ s := by
  obtain ⟨a, m, b, e, rfl, ha, hm, hb, he⟩ := h
  simp only [List.mem_append, not_or]
  refine ⟨fun h => absurd (ha _ h) (by decide), ?_, fun h => absurd (hb _ h) (by decide), ?_⟩
  · rcases hm with rfl | rfl <;> decide
  · rcases he with rfl | rfl | ⟨rfl, -⟩ <;> decide

/-- What a lazy block ends with: whole lines of a kind. -/
structure Closing (q : Pattern) (ok : List Char → Bool) : Prop where
  sound : ∀ c d, q.Reads c d → AtLine c.prev ∧ ok c.rest = true ∧ d.rest = behindLine c.rest
  complete : ∀ prev rest, AtLine prev → ok rest = true → ∃ d, q.Reads ⟨prev, rest, []⟩ d
  starless : q.starless = true

variable {ok : List Char → Bool}

/-- A search that answers at the start of lines only goes through the lines. -/
theorem seek_lines {α : Type} {f : Option Char → List Char → Option α} {g : List Char → Option α}
    (hline : ∀ prev rest, AtLine prev → f prev rest = g rest) (hnone : ∀ prev rest, ¬ AtLine prev → f prev rest = none)
    (prev : Option Char) (rest : List Char) : seek f prev rest = (startsFrom prev rest).findSome? g := by
  induction rest generalizing prev with
  | nil =>
    rw [seek, startsFrom]
    split
    case isTrue h => simp [hline prev [] h, lineStarts, laterLines]
    case isFalse h => simp [hnone prev [] h, laterLines]
  | cons x r ih =>
    rw [startsFrom_cons, List.findSome?_append, ← ih, seek]
    split
    case h_1 a ha =>
      by_cases h : AtLine prev
      · simp [h, ← hline prev _ h, ha]
      · rw [hnone prev _ h] at ha
        cases ha
    case h_2 ha =>
      by_cases h : AtLine prev
      · simp [h, ← hline prev _ h, ha]
      · simp [h]

theorem seek_map {α β : Type} (of : α → β) (f : Option Char → List Char → Option α) (prev : Option Char)
    (rest : List Char) : seek (fun prev rest => (f prev rest).map of) prev rest = (seek f prev rest).map of := by
  induction rest generalizing prev with
  | nil => rfl
  | cons x r ih =>
    rw [seek, seek]
    cases f prev (x :: r) with
    | some a => rfl
    | none => exact ih (some x)

/-- A lazy block ends with the first line of the kind. -/
theorem Closing.find? (h : Closing q ok)
    (hd : (Pattern.many (fun _ => true) false).run ⟨prev, rest, []⟩ (fun e => q.run e some) = some d) :
    ∃ line, (startsFrom prev rest).find? ok = some line ∧ d.rest = behindLine line := by
  have hnone (prev : Option Char) (rest : List Char) (hno : ¬ (AtLine prev ∧ ok rest = true)) :
      q.run ⟨prev, rest, []⟩ some = none := by
    cases hrun : q.run ⟨prev, rest, []⟩ some with
    | none => rfl
    | some e =>
      obtain ⟨e', hreads, -⟩ := run_reads hrun
      have hsound := h.sound _ _ hreads
      exact absurd ⟨hsound.1, hsound.2.1⟩ hno
  have hsome (prev : Option Char) (rest : List Char) (hline : AtLine prev) (hok : ok rest = true) :
      ∃ e, q.run ⟨prev, rest, []⟩ some = some e ∧ e.rest = behindLine rest := by
    obtain ⟨e, hreads⟩ := h.complete prev rest hline hok
    obtain ⟨e', he'⟩ := Option.isSome_iff_exists.1 (run_isSome (k := some) hreads h.starless rfl)
    exact ⟨e', he', (h.sound _ _ (endFrom_reads he')).2.2⟩
  -- What matters of the end is the text behind it, which the line alone decides.
  have hseek := congrArg (Option.map Cursor.rest) hd
  rw [run_lazy, ← seek_map, seek_lines (g := fun line => if ok line then some (behindLine line) else none)] at hseek
  · obtain ⟨before, line, behind, hlines, hline, hearlier⟩ := List.findSome?_eq_some_iff.1 hseek
    have hok : ok line = true := Decidable.byContradiction fun hok => by simp [hok] at hline
    rw [if_pos hok] at hline
    refine ⟨line, List.find?_eq_some_iff_append.2 ⟨hok, before, behind, hlines, fun l hl => ?_⟩,
      (Option.some.inj hline).symm⟩
    simpa using hearlier l hl
  · intro prev rest hline
    by_cases hok : ok rest = true
    · obtain ⟨e, he, hrest⟩ := hsome prev rest hline hok
      rw [he, if_pos hok, ← hrest]
      rfl
    · rw [hnone prev rest fun hno => hok hno.2, if_neg hok]
      rfl
  · intro prev rest hline
    rw [hnone prev rest fun hno => hline hno.1]
    rfl

/-- Qualifiers of a declaration, each with white space behind it. -/
inductive Qualifiers : List Char → Prop
  | nil : Qualifiers []
  | cons {w : String} {g q : List Char} (hw : w ∈ ["export", "default", "declare"]) (hg : Blank g ∧ g ≠ [])
      (hq : Qualifiers q) : Qualifiers (w.toList ++ g ++ q)

/-- Blanks and qualifiers. -/
def IsLead (l : List Char) : Prop := ∃ w q, l = w ++ q ∧ (∀ c ∈ w, Text.isBlank c = true) ∧ Qualifiers q

def IsTypeName (n : List Char) : Prop :=
  ∃ x r, n = x :: r ∧ Text.isNameStart x = true ∧ ∀ c ∈ r, Text.isNameChar c = true

/-- Blanks, qualifiers, the keyword and the name of a declaration. -/
def Introduces (keyword : String) (l : List Char) : Prop :=
  ∃ lead g n, l = lead ++ keyword.toList ++ g ++ n ∧ IsLead lead ∧ (Blank g ∧ g ≠ []) ∧ IsTypeName n

/-- What stands before the opening brace of an interface. -/
def IsInterfaceHead (head : List Char) : Prop :=
  ∃ intro t, head = intro ++ t ∧ Introduces "interface" intro ∧ ∀ c ∈ t, except "\x7b\n" c = true

theorem Qualifiers.append {a b : List Char} (ha : Qualifiers a) (hb : Qualifiers b) : Qualifiers (a ++ b) := by
  induction ha with
  | nil => exact hb
  | cons hw hg _ ih =>
    rw [List.append_assoc]
    exact .cons hw hg ih

theorem every_name : name.Every IsTypeName := by
  have hfirst : (Pattern.one Text.isNameStart).Every fun l => ∃ x, l = [x] ∧ Text.isNameStart x = true :=
    .one fun x hx => ⟨x, rfl, hx⟩
  exact hfirst.seq (.characters Text.isNameChar true) fun a b ⟨x, hx, hstart⟩ hb => ⟨x, b, by rw [hx]; rfl, hstart, hb⟩

theorem IsInterfaceHead.not_mem {head : List Char} (h : IsInterfaceHead head) : '{' ∉ head := by
  have hblank {l : List Char} (hl : Blank l) : '{' ∉ l := fun h => absurd (hl _ h) (by decide)
  have hqualifiers {q : List Char} (hq : Qualifiers q) : '{' ∉ q := by
    induction hq with
    | nil => exact List.not_mem_nil
    | @cons w _ _ hw hg _ ih =>
      have hw : '{' ∉ w.toList := by
        simp only [List.mem_cons, List.not_mem_nil, or_false] at hw
        rcases hw with rfl | rfl | rfl <;> decide
      simp only [List.mem_append, not_or]
      exact ⟨⟨hw, hblank hg.1⟩, ih⟩
  obtain ⟨_, t, rfl, ⟨_, g, _, rfl, ⟨w, q, rfl, hw, hq⟩, hg, x, r, rfl, hx, hr⟩, ht⟩ := h
  simp only [List.mem_append, List.mem_cons, not_or]
  refine ⟨⟨⟨⟨⟨fun h => ?_, hqualifiers hq⟩, by decide⟩, hblank hg.1⟩, ?_, fun h => ?_⟩, fun h => ?_⟩
  · exact absurd (hw _ h) (by decide)
  · rintro rfl
    exact absurd hx (by decide)
  · exact absurd (hr _ h) (by decide)
  · exact absurd (ht _ h) (by decide)

/-! ### Braces and lines -/

variable {IsHead : List Char → Prop} {IsRegion : List Char → Match → Prop} {head body : List Char}

end LivePreview.Source
