import Mathlib.Tactic.SplitIfs
import LivePreview.Proofs.Source.Mask
import LivePreview.Proofs.Source.Reading

/-! The turns of the literal lexer.

`spansFrom` is a machine with a stack of modes. A turn reads one character of markup text or takes one step of
`lexStep`, and gives the spans that end there. The stack always ends in code, so it is never empty, and the lexer
comes through every text, however malformed: what it has read and what is to come make up the text at each turn. -/
namespace LivePreview.Source

/-- Where the lexer stands: its modes, the text read, last character first, its length, the run of markup text in
progress, and the text to come. -/
structure Stand where
  modes : List Mode
  before : List Char
  pos : Nat
  run : Option TextRun
  rest : List Char

/-- The spans from here on. -/
def Stand.spans (l : Stand) : List Span := spansFrom l.modes l.before l.pos l.run l.rest

/-- The lexer in front of a text. -/
def Stand.start (s : List Char) : Stand := ⟨[.code 0], [], 0, none, s⟩

/-- One turn of the lexer, with the spans it gives. -/
inductive Turn : Stand → List Span → Stand → Prop
  | text {below before pos run c r} (hbrace : c ≠ '{') (htag : c ≠ '<') :
      Turn ⟨.children :: below, before, pos, run, c :: r⟩ []
        ⟨.children :: below, c :: before, pos + 1, some (TextRun.add pos c run), r⟩
  | step {mode below before pos run c r t} (hmode : ¬(mode = .children ∧ c ≠ '{' ∧ c ≠ '<'))
      (ht : lexStep mode below before c r = t) :
      Turn ⟨mode :: below, before, pos, run, c :: r⟩ (TextRun.spans pos run ++ t.spans pos)
        ⟨t.modes, (r.take (t.width - 1)).reverse ++ c :: before, pos + t.width, none, r.drop (t.width - 1)⟩

/-- Turns one after another, with all the spans they give. -/
inductive Turns : Stand → List Span → Stand → Prop
  | refl (l) : Turns l [] l
  | tail {l out m out' n} (h : Turns l out m) (hturn : Turn m out' n) : Turns l (out ++ out') n

theorem Turn.spans {l m : Stand} {out : List Span} (h : Turn l out m) : l.spans = out ++ m.spans := by
  cases h with
  | text hbrace htag => simp [Stand.spans, spansFrom, hbrace, htag]
  | step hmode ht =>
    subst ht
    simp only [Stand.spans]
    rw [spansFrom, if_neg hmode]
    rfl

theorem Turns.spans {l m : Stand} {out : List Span} (h : Turns l out m) : l.spans = out ++ m.spans := by
  induction h with
  | refl => rfl
  | tail _ hturn ih => rw [ih, hturn.spans, List.append_assoc]

/-! ### Reading on -/

section Reading
variable {mode : Mode} {below modes : List Mode} {before rest a s : List Char} {pos : Nat} {c q : Char}

theorem stringLength_cons (hc : c ≠ '\\') (rest : List Char) :
    stringLength q (c :: rest) = if c == q || (c == '\n' && q != '`') then 0 else stringLength q rest + 1 := by
  cases rest <;> simp [stringLength, hc]

/-- A step that reads no string. -/
theorem spansFrom_step (hmode : mode = .children → c = '{' ∨ c = '<')
    (h : lexStep mode below before c (a ++ rest) = ⟨a.length + 1, modes, none⟩) :
    spansFrom (mode :: below) before pos none (c :: (a ++ rest)) =
      spansFrom modes (a.reverse ++ c :: before) (pos + (a.length + 1)) none rest := by
  rw [spansFrom, if_neg fun hno => (hmode hno.1).elim hno.2.1 hno.2.2, h]
  simp [TextRun.spans]

/-- A run of text goes on through more text. -/
theorem spansFrom_run {start : Nat} {inked : Bool} (hs : ∀ c ∈ s, c ≠ '{' ∧ c ≠ '<') (rest : List Char) :
    spansFrom (.children :: below) before pos (some ⟨start, inked⟩) (s ++ rest) =
      spansFrom (.children :: below) (s.reverse ++ before) (pos + s.length)
        (some ⟨start, inked || s.any (!Text.isSpace ·)⟩) rest := by
  induction s generalizing before pos inked with
  | nil => simp
  | cons c s ih =>
    obtain ⟨hc, hs⟩ := List.forall_mem_cons.1 hs
    rw [List.cons_append, spansFrom, if_pos ⟨rfl, hc⟩, TextRun.add, ih hs]
    simp [Bool.or_assoc, Nat.add_assoc, Nat.add_comm 1]

/-- A run ends where a tag or embedded script begins. -/
theorem spansFrom_runEnd {run : Option TextRun} (hc : c = '{' ∨ c = '<') (rest : List Char) :
    spansFrom (.children :: below) before pos run (c :: rest) =
      TextRun.spans pos run ++ spansFrom (.children :: below) before pos none (c :: rest) := by
  have hno : ¬(Mode.children = .children ∧ c ≠ '{' ∧ c ≠ '<') := fun h => hc.elim h.2.1 h.2.2
  rw [spansFrom, spansFrom, if_neg hno, if_neg hno, List.append_assoc, List.append_assoc]
  rfl

end Reading

/-! ### What one turn preserves -/

/-- The modes end in code. -/
def Grounded (modes : List Mode) : Prop := ∃ braces, modes.getLast? = some (.code braces)

namespace Grounded
variable {mode : Mode} {below : List Mode}

theorem ne_nil {modes : List Mode} (h : Grounded modes) : modes ≠ [] := by
  rintro rfl
  obtain ⟨braces, h⟩ := h
  cases h

theorem push (mode : Mode) (h : Grounded below) : Grounded (mode :: below) := by
  obtain ⟨braces, h⟩ := h
  exact ⟨braces, by rw [List.getLast?_cons, h]; rfl⟩

/-- Below anything that is not code there is code. -/
theorem pop (h : Grounded (mode :: below)) (hmode : below ≠ [] ∨ ∀ braces, mode ≠ .code braces) : Grounded below := by
  obtain ⟨braces, h⟩ := h
  cases below with
  | nil =>
    cases h
    exact hmode.elim (absurd rfl) fun hmode => absurd rfl (hmode braces)
  | cons _ _ => exact ⟨braces, by rwa [List.getLast?_cons_cons] at h⟩

/-- The number of open braces can be any. -/
theorem recount {n : Nat} (m : Nat) (h : Grounded (.code n :: below)) : Grounded (.code m :: below) := by
  cases below with
  | nil => exact ⟨m, rfl⟩
  | cons _ _ => exact (h.pop (.inl (List.cons_ne_nil _ _))).push _

theorem step {before : List Char} {c : Char} {rest : List Char} (h : Grounded (mode :: below)) :
    Grounded (lexStep mode below before c rest).modes := by
  cases mode with
  | code braces =>
    simp only [lexStep, LexStep.string]
    split_ifs with hquote hline hblock hopen hclose hbraces hbelow
    · exact h
    · exact h
    · exact h
    · exact h.recount _
    · exact h.recount _
    · exact ⟨braces, rfl⟩
    · exact h.pop (.inl (by simpa using hbelow))
    · exact h.push _
    · exact h
  | tag closing =>
    have hbelow : Grounded below := h.pop (.inr (by simp))
    simp only [lexStep, LexStep.string]
    split_ifs <;> first | exact h | exact hbelow | exact h.push _ | exact hbelow.push _
  | children =>
    have hbelow : Grounded below := h.pop (.inr (by simp))
    simp only [lexStep]
    split_ifs <;> first | exact h | exact h.push _ | exact hbelow.push _

end Grounded

theorem stringLength_le (quote : Char) (s : List Char) : stringLength quote s ≤ s.length := by
  fun_induction stringLength quote s <;> simp_all

/-- A step reads what is there, and its content lies in that. -/
theorem lexStep_content_le {mode : Mode} {below : List Mode} {before : List Char} {c : Char} {rest : List Char}
    {t : Span} (h : (lexStep mode below before c rest).content = some t) : t.stop ≤ (c :: rest).length := by
  have hstring := stringLength_le c rest
  unfold lexStep LexStep.string at h
  grind

theorem lexStep_width_pos {mode : Mode} {below : List Mode} {before : List Char} {c : Char} {rest : List Char} :
    0 < (lexStep mode below before c rest).width := by
  unfold lexStep LexStep.string
  grind

/-- What holds of the lexer in a text at every turn. A string without its closing quote is read past the end of the
text; nothing is left to read then. -/
structure Lexes (s : List Char) (l : Stand) : Prop where
  modes : Grounded l.modes
  text : l.before.reverse ++ l.rest = s
  place : l.pos = l.before.length ∨ l.rest = [] ∧ l.run = none

/-- The span ends inside the text. -/
def Within (s : List Char) (t : Span) : Prop := t.stop ≤ s.length

namespace Lexes
variable {s : List Char} {k l m : Stand} {out : List Span}

theorem start (s : List Char) : Lexes s (Stand.start s) := ⟨⟨0, rfl⟩, rfl, .inl rfl⟩

theorem turn (h : Lexes s l) (hturn : Turn l out m) : Lexes s m := by
  cases hturn with
  | text hbrace htag =>
    obtain ⟨hmodes, htext, hplace⟩ := h
    refine ⟨hmodes, ?_, .inl ?_⟩
    · simpa using htext
    · obtain hplace | ⟨hrest, -⟩ := hplace
      · exact congrArg (· + 1) hplace
      · cases hrest
  | @step mode below before pos run c r t hmode ht =>
    obtain ⟨hmodes, htext, hplace⟩ := h
    have hwidth : 0 < t.width := ht ▸ lexStep_width_pos
    refine ⟨ht ▸ hmodes.step, ?_, ?_⟩
    · simpa using htext
    · obtain hplace | ⟨hrest, -⟩ := hplace
      · simp only at hplace
        rcases Nat.lt_or_ge r.length (t.width - 1) with hlt | hle
        · exact .inr ⟨List.drop_of_length_le (Nat.le_of_lt hlt), rfl⟩
        · refine .inl ?_
          simp only [List.length_append, List.length_reverse, List.length_take, List.length_cons]
          omega
      · cases hrest

theorem turns (h : Lexes s l) (hturns : Turns l out m) : Lexes s m := by
  induction hturns with
  | refl => exact h
  | tail _ hturn ih => exact ih.turn hturn

theorem length_eq (h : Lexes s l) : s.length = l.before.length + l.rest.length := by
  rw [← h.text, List.length_append, List.length_reverse]

/-- A run of markup text that ends here ends inside the text. -/
theorem within_run (h : Lexes s l) : ∀ t ∈ TextRun.spans l.pos l.run, Within s t := by
  intro t ht
  have hlength := h.length_eq
  obtain hplace | ⟨-, hrun⟩ := h.place
  · have hstop : t.stop = l.pos := by
      unfold TextRun.spans at ht
      split at ht
      · rw [List.mem_singleton.1 ht]
      · cases ht
    unfold Within
    omega
  · rw [hrun] at ht
    cases ht

theorem within_turn (h : Lexes s l) (hturn : Turn l out m) : ∀ t ∈ out, Within s t := by
  cases hturn with
  | text => exact fun _ ht => absurd ht List.not_mem_nil
  | @step mode below before pos run c r t hmode ht =>
    intro u hu
    obtain hu | hu := List.mem_append.1 hu
    · exact h.within_run u hu
    · have hlength := h.length_eq
      have hpos : pos = before.length := h.place.resolve_right fun hend => List.cons_ne_nil c r hend.1
      unfold LexStep.spans at hu
      split at hu
      case h_1 content hcontent =>
        have hle : content.stop ≤ (c :: r).length := lexStep_content_le (ht ▸ hcontent)
        split at hu
        · rw [List.mem_singleton.1 hu]
          simp only [Within] at hlength ⊢
          omega
        · cases hu
      case h_2 => cases hu

theorem within_turns (h : Lexes s l) (hturns : Turns l out m) : ∀ t ∈ out, Within s t := by
  induction hturns with
  | refl => exact fun _ ht => absurd ht List.not_mem_nil
  | tail hturns hturn ih =>
    intro t ht
    obtain ht | ht := List.mem_append.1 ht
    · exact ih t ht
    · exact (h.turns hturns).within_turn hturn t ht

/-- In front of something there is a turn, after which less is to come. -/
theorem exists_turn (h : Lexes s l) (hrest : l.rest ≠ []) :
    ∃ out m, Turn l out m ∧ m.rest.length < l.rest.length := by
  obtain ⟨modes, before, pos, run, rest⟩ := l
  cases modes with
  | nil => exact absurd rfl h.modes.ne_nil
  | cons mode below =>
    cases rest with
    | nil => exact absurd rfl hrest
    | cons c r =>
      by_cases hmode : mode = .children ∧ c ≠ '{' ∧ c ≠ '<'
      · obtain ⟨rfl, hbrace, htag⟩ := hmode
        exact ⟨_, _, .text hbrace htag, Nat.lt_succ_self r.length⟩
      · refine ⟨_, _, .step hmode rfl, ?_⟩
        simp only [List.length_drop, List.length_cons]
        omega

/-- The lexer comes through the whole text. -/
theorem exists_turns (h : Lexes s l) (hturns : Turns k out l) : ∃ out m, Turns k out m ∧ Lexes s m ∧ m.rest = [] := by
  induction hn : l.rest.length using Nat.strongRecOn generalizing l out with
  | ind n ih =>
    by_cases hrest : l.rest = []
    · exact ⟨out, l, hturns, h, hrest⟩
    · obtain ⟨out', m', hturn, hlt⟩ := h.exists_turn hrest
      exact ih _ (hn ▸ hlt) (h.turn hturn) (hturns.tail hturn) rfl

end Lexes

/-! ### The spans of a whole text -/

/-- The lexer comes to stand here on its way through the text. -/
def Reached (s : List Char) (l : Stand) : Prop := ∃ out, Turns (Stand.start s) out l

theorem Reached.fits {s : List Char} {l : Stand} (h : Reached s l) : Lexes s l :=
  h.elim fun _ hturns => (Lexes.start s).turns hturns

/-- Every span ends inside the text. -/
theorem within_literalSpans (s : List Char) : ∀ t ∈ literalSpans s, Within s t := by
  obtain ⟨out, m, hturns, hm, hrest⟩ := (Lexes.start s).exists_turns (.refl _)
  have hspans : literalSpans s = out ++ TextRun.spans m.pos m.run := by
    refine hturns.spans.trans ?_
    rw [Stand.spans, hrest, spansFrom]
  intro t ht
  rw [hspans] at ht
  obtain ht | ht := List.mem_append.1 ht
  · exact (Lexes.start s).within_turns hturns t ht
  · exact hm.within_run t ht

theorem InOrder.bounds {pos : Nat} {spans : List Span} (h : InOrder pos spans) :
    ∀ t ∈ spans, pos ≤ t.start ∧ t.start < t.stop := by
  induction spans generalizing pos with
  | nil => exact fun _ ht => absurd ht List.not_mem_nil
  | cons u spans ih =>
    obtain ⟨hstart, hstop, hspans⟩ := h
    intro t ht
    obtain rfl | ht := List.mem_cons.1 ht
    · exact ⟨hstart, hstop⟩
    · have hrest := ih hspans t ht
      exact ⟨by omega, hrest.2⟩

/-- Spans in order do not overlap. -/
theorem InOrder.pairwise {pos : Nat} {spans : List Span} (h : InOrder pos spans) :
    spans.Pairwise fun t u => t.stop ≤ u.start := by
  induction spans generalizing pos with
  | nil => exact .nil
  | cons t spans ih =>
    refine .cons ?_ (ih h.2.2)
    exact fun u hu => (h.2.2.bounds u hu).1

end LivePreview.Source
