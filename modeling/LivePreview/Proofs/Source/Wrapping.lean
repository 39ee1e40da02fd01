import LivePreview.Proofs.Markup.Unique
import LivePreview.Proofs.Pattern.Anchor
import LivePreview.Proofs.Source.Mass
import LivePreview.Source.Fence

/-! Taking fences off gives back what they were put around.

Both fences are free in how much white space and text they read, but not in where they end: the opening one ends with
its line, the closing one with the text. So there is one place where each of them ends in a text that has been wrapped.
The closing one is looked for from the start of the body on; it is not found within the body, whatever fences stand
there, since before the last mark of the text it can read no line break but its own. -/
namespace LivePreview.Pattern

variable {p : Pattern} {prev : Option Char} {a t r : List Char} {d : Cursor}

/-- A match that begins behind `a`, where no match begins in `a`. -/
theorem findFrom_of_reads (hp : p.starless = true) (hread : p.Reads ⟨lastOf prev a, t, []⟩ d)
    (hno : ∀ b c, a = b ++ c → c ≠ [] → ∀ e, ¬ p.Reads ⟨lastOf prev b, c ++ t, []⟩ e) (pos : Nat) :
    ∃ e, p.findFrom pos prev (a ++ t) = some ⟨pos + a.length, t, e⟩ ∧ p.Reads ⟨lastOf prev a, t, []⟩ e := by
  induction a generalizing pos prev with
  | nil =>
    obtain ⟨e, he⟩ := Option.isSome_iff_exists.1 (run_isSome (k := some) hread hp rfl)
    have he : p.endFrom prev t = some e := he
    refine ⟨e, ?_, endFrom_reads he⟩
    rw [List.nil_append, findFrom.eq_def, he]
    rfl
  | cons x a ih =>
    have hnone : p.endFrom prev (x :: (a ++ t)) = none := by
      cases h : p.endFrom prev (x :: (a ++ t)) with
      | none => rfl
      | some e => exact absurd (endFrom_reads h) (hno [] (x :: a) rfl (List.cons_ne_nil x a) e)
    obtain ⟨e, he, hreads⟩ := ih hread (fun b c hb => hno (x :: b) c (congrArg (x :: ·) hb)) (pos + 1)
    refine ⟨e, ?_, hreads⟩
    rw [List.cons_append, findFrom, hnone, List.length_cons, Nat.add_comm a.length, ← Nat.add_assoc]
    exact he

/-- Where every match from the first place on ends at the same place, the text is cut there. -/
theorem removeFirst_of_reads (hp : p.starless = true) (hread : p.Reads ⟨lastOf none a, t, []⟩ d)
    (hend : ∀ e, p.Reads ⟨lastOf none a, t, []⟩ e → e.rest = r)
    (hno : ∀ b c, a = b ++ c → c ≠ [] → ∀ e, ¬ p.Reads ⟨lastOf none b, c ++ t, []⟩ e) :
    p.removeFirst (a ++ t) = a ++ r := by
  obtain ⟨e, he, hreads⟩ := findFrom_of_reads hp hread hno 0
  rw [removeFirst, find?, he]
  show (a ++ t).take (0 + a.length) ++ e.rest = a ++ r
  rw [Nat.zero_add, List.take_left, hend e hreads]

end LivePreview.Pattern

namespace LivePreview.Source
open Pattern

/-! ### Marks -/

/-- The two kinds of fences. -/
inductive Fence where
  | backticks
  | tildes
deriving DecidableEq

def Fence.mark : Fence → List Char
  | backticks => "```".toList
  | tildes => "~~~".toList

theorem Fence.mark_reverse (f : Fence) : f.mark.reverse = f.mark := by cases f <;> rfl

theorem every_fenceMark : fenceMark.Every fun l => ∃ f : Fence, l = f.mark :=
  .alt ((Every.lit _).mono fun _ hl => ⟨.backticks, hl⟩) ((Every.lit _).mono fun _ hl => ⟨.tildes, hl⟩)

theorem canRead_fenceMark (f : Fence) : fenceMark.CanRead f.mark := by
  cases f with
  | backticks => exact (CanRead.lit "```").left
  | tildes => exact (CanRead.lit "~~~").right

/-- A mark behind white space can be told from what stands around it. -/
theorem cut_mark {u v r s : List Char} {f g : Fence} (hu : Blank u) (hv : Blank v)
    (h : u ++ (f.mark ++ r) = v ++ (g.mark ++ s)) : u = v ∧ f = g ∧ r = s := by
  have hhead (f : Fence) (r : List Char) : ∀ c ∈ (f.mark ++ r).head?, (!Text.isSpace c) = true := by
    cases f <;> intro c hc <;> cases Option.mem_some_iff.1 hc <;> rfl
  have hblank {w : List Char} (hw : Blank w) : ∀ c ∈ w, (!Text.isSpace c) = false := fun c hc => by simp [hw c hc]
  obtain ⟨rfl, hmarks⟩ := Node.cut_unique (fun c => !Text.isSpace c) (hblank hu) (hblank hv) (hhead f r) (hhead g s) h
  cases f <;> cases g <;> simp_all [Fence.mark]

/-- So can a mark with white space behind it. -/
theorem cut_last_mark {u v r s : List Char} {f g : Fence} (hu : Blank u) (hv : Blank v)
    (h : r ++ f.mark ++ u = s ++ g.mark ++ v) : r = s ∧ f = g ∧ u = v := by
  have hreverse := congrArg List.reverse h
  simp only [List.reverse_append, Fence.mark_reverse] at hreverse
  obtain ⟨hw, hfg, hrest⟩ := cut_mark (fun c hc => hu c (List.mem_reverse.1 hc))
    (fun c hc => hv c (List.mem_reverse.1 hc)) hreverse
  exact ⟨List.reverse_inj.1 hrest, hfg, List.reverse_inj.1 hw⟩

/-- The first line of a text can be told from what follows it. -/
theorem cut_line {u v r s : List Char} (hu : '\n' ∉ u) (hv : '\n' ∉ v) (h : u ++ '\n' :: r = v ++ '\n' :: s) :
    u = v ∧ r = s := by
  have hno {w : List Char} (hw : '\n' ∉ w) : ∀ c ∈ w, (c == '\n') = false := fun c hc =>
    beq_false_of_ne fun he => hw (he ▸ hc)
  have hhead (r : List Char) : ∀ c ∈ ('\n' :: r).head?, (c == '\n') = true := fun c hc =>
    beq_iff_eq.2 (Option.mem_some_iff.1 hc).symm
  obtain ⟨rfl, hrest⟩ := Node.cut_unique (· == '\n') (hno hu) (hno hv) (hhead r) (hhead s) h
  exact ⟨rfl, (List.cons.inj hrest).2⟩

/-! ### Wrappers -/

/-- What stands around a body: a line with an opening fence and an info text, and a closing fence on a line of its
own. -/
structure Wrapper where
  before : List Char
  opening : Fence
  info : List Char
  blanks : List Char
  closing : Fence
  after : List Char
  before_blank : Blank before
  info_line : '\n' ∉ info
  blanks_blank : ∀ c ∈ blanks, Text.isBlank c = true
  after_blank : Blank after

namespace Wrapper
variable (w : Wrapper) (body : List Char)

def head : List Char := w.before ++ w.opening.mark ++ w.info ++ ['\n']

def tail : List Char := '\n' :: w.blanks ++ w.closing.mark ++ w.after

def wrap : List Char := w.head ++ (body ++ w.tail)

end Wrapper

/-! ### The opening fence -/

/-- An opening fence reads white space, a mark and the rest of its line. -/
theorem every_openingFence : openingFence.Every fun l =>
    ∃ u i, ∃ f : Fence, l = u ++ (f.mark ++ (i ++ ['\n'])) ∧ Blank u ∧ '\n' ∉ i := by
  have hspaces : (.at .textStart ++ spaces : Pattern).Every Blank :=
    (Every.at (P := (· = [])) rfl).seq every_blank_spaces fun a b ha hb => ha ▸ hb
  have hmark : (.at .textStart ++ spaces ++ fenceMark : Pattern).Every fun l =>
      ∃ u i, ∃ f : Fence, l = u ++ (f.mark ++ i) ∧ Blank u ∧ '\n' ∉ i :=
    hspaces.seq every_fenceMark fun a b ha ⟨f, hf⟩ => ⟨a, [], f, by rw [hf, List.append_nil], ha, List.not_mem_nil⟩
  have hmore {p : Pattern} {ok : Char → Bool} (hok : ok '\n' = false) (hp : p.Every fun l =>
      ∃ u i, ∃ f : Fence, l = u ++ (f.mark ++ i) ∧ Blank u ∧ '\n' ∉ i) : (p ++ .many ok true).Every fun l =>
      ∃ u i, ∃ f : Fence, l = u ++ (f.mark ++ i) ∧ Blank u ∧ '\n' ∉ i := by
    refine hp.seq (.characters ok true) ?_
    rintro a b ⟨u, i, f, rfl, hu, hi⟩ hb
    refine ⟨u, i ++ b, f, by simp only [List.append_assoc], hu, fun hn => ?_⟩
    rcases List.mem_append.1 hn with hn | hn
    · exact hi hn
    · exact Bool.false_ne_true (hok.symm.trans (hb _ hn))
  refine (hmore rfl (hmore rfl hmark)).seq (.lit "\n") ?_
  rintro a b ⟨u, i, f, rfl, hu, hi⟩ rfl
  exact ⟨u, i, f, by simp only [List.append_assoc]; rfl, hu, hi⟩

/-- **The opening fence is taken off**, whatever stands behind its line. -/
theorem openingFence_head (w : Wrapper) (t : List Char) : openingFence.removeFirst (w.head ++ t) = t := by
  have hspaces : CanRead spaces w.before := .many w.before_blank
  have hinfo : CanRead (.many (· != '\n') true) w.info :=
    .many fun c hc => bne_iff_ne.2 fun he => w.info_line (he ▸ hc)
  have hsplit : w.head ++ t = w.before ++ (w.opening.mark ++ (w.info ++ ("\n".toList ++ t))) := by
    simp only [Wrapper.head, List.append_assoc]
    rfl
  have hread : ∃ d, openingFence.Reads ⟨none, w.head ++ t, []⟩ d := by
    rw [hsplit]
    exact ⟨_, .seq (.seq (.seq (.seq (.seq (.at rfl) (hspaces ..)) (canRead_fenceMark _ ..)) .manyNone) (hinfo ..))
      (CanRead.lit "\n" ..)⟩
  obtain ⟨d, hread⟩ := hread
  refine removeFirst_of_reads (a := []) rfl hread (fun e he => ?_) fun b c hbc hc => ?_
  · obtain ⟨l, hl, u, i, f, rfl, hu, hi⟩ := every_openingFence _ _ he
    have hl : w.head ++ t = u ++ (f.mark ++ (i ++ ['\n'])) ++ e.rest := hl
    rw [hsplit] at hl
    simp only [List.append_assoc] at hl
    obtain ⟨-, -, hline⟩ := cut_mark w.before_blank hu hl
    exact (cut_line hi w.info_line hline.symm).2
  · exact absurd (List.append_eq_nil_iff.1 hbc.symm).2 hc

/-! ### The closing fence -/

/-- A closing fence reads a mark and all that follows it, which is white space. Before the mark it can read blanks, and
one line break before these. -/
theorem closingFence_reads {c d : Cursor} (h : closingFence.Reads c d) : d.rest = [] ∧
    ∃ nl bl v, ∃ f : Fence, c.rest = nl ++ bl ++ f.mark ++ v ∧ (nl = [] ∨ nl = ['\n']) ∧ '\n' ∉ bl ∧ Blank v := by
  have hbreak : (opt (lit "\n")).Every fun l => l = [] ∨ l = ['\n'] :=
    .opt ((Every.lit "\n").mono fun _ hl => .inr hl) (.inl rfl)
  have hblanks : blanks.Every ('\n' ∉ ·) :=
    (Every.characters Text.isBlank true).mono fun l hl hn => Bool.false_ne_true (hl _ hn)
  have hmark : (opt (lit "\n") ++ blanks ++ fenceMark).Every fun l =>
      ∃ nl bl, ∃ f : Fence, l = nl ++ bl ++ f.mark ∧ (nl = [] ∨ nl = ['\n']) ∧ '\n' ∉ bl :=
    (hbreak.seq (R := fun l => ∃ nl bl, l = nl ++ bl ∧ (nl = [] ∨ nl = ['\n']) ∧ '\n' ∉ bl) hblanks
      fun a b ha hb => ⟨a, b, rfl, ha, hb⟩).seq every_fenceMark
      fun a b ⟨nl, bl, ha, hnl, hbl⟩ ⟨f, hf⟩ => ⟨nl, bl, f, by rw [ha, hf], hnl, hbl⟩
  have hwhite : (opt (lit "\n") ++ blanks ++ fenceMark ++ (blanks ++ spaces)).Every fun l =>
      ∃ nl bl v, ∃ f : Fence, l = nl ++ bl ++ f.mark ++ v ∧ (nl = [] ∨ nl = ['\n']) ∧ '\n' ∉ bl ∧ Blank v :=
    hmark.seq (every_blank_seq every_blank_blanks every_blank_spaces)
      fun a b ⟨nl, bl, f, ha, hnl, hbl⟩ hb => ⟨nl, bl, b, f, by rw [ha], hnl, hbl, hb⟩
  cases h with
  | seq hp hend =>
    cases hend with
    | «at» hend =>
      have hrest : d.rest = [] := List.isEmpty_iff.1 hend
      obtain ⟨l, hl, hparts⟩ := hwhite.shift _ _ hp
      rw [hrest, List.append_nil] at hl
      exact ⟨hrest, hl ▸ hparts⟩

/-- **The closing fence is taken off**, and what stands before its line is left as it is. -/
theorem closingFence_tail (w : Wrapper) (body : List Char) : closingFence.removeFirst (body ++ w.tail) = body := by
  have hblanks : CanRead blanks w.blanks := .many w.blanks_blank
  have hspaces : CanRead spaces w.after := .many w.after_blank
  have hsplit : w.tail = "\n".toList ++ (w.blanks ++ (w.closing.mark ++ (w.after ++ []))) := by
    simp only [Wrapper.tail, List.append_assoc, List.append_nil]
    rfl
  have hread : ∃ d, closingFence.Reads ⟨lastOf none body, w.tail, []⟩ d := by
    rw [hsplit]
    exact ⟨_, .seq (.seq (.seq (.seq (.seq (.left (CanRead.lit "\n" ..)) (hblanks ..)) (canRead_fenceMark _ ..))
      .manyNone) (hspaces ..)) (.at rfl)⟩
  obtain ⟨d, hread⟩ := hread
  refine (removeFirst_of_reads rfl hread (fun e he => (closingFence_reads he).1) fun b c _ hc e he => ?_).trans
    (List.append_nil body)
  -- The last mark of the text is the same for both, so that the line break before it would have to be read as a blank.
  obtain ⟨-, nl, bl, v, f, htext, hnl, hbl, hv⟩ := closingFence_reads he
  have htext : c ++ '\n' :: w.blanks ++ w.closing.mark ++ w.after = nl ++ bl ++ f.mark ++ v := by
    simpa [Wrapper.tail, List.append_assoc] using htext
  obtain ⟨hbefore, -, -⟩ := cut_last_mark w.after_blank hv htext
  obtain ⟨x, c, rfl⟩ := List.exists_cons_of_ne_nil hc
  rcases hnl with rfl | rfl
  · exact hbl (by simp [← show x :: c ++ '\n' :: w.blanks = bl from hbefore])
  · obtain ⟨-, hblank⟩ := List.cons.inj hbefore
    exact hbl (by simp [← show c ++ '\n' :: w.blanks = bl from hblank])

/-- **Taking fences off gives back what they were put around.** -/
theorem stripFences_wrap (w : Wrapper) (body : List Char) : stripFences (w.wrap body) = body := by
  rw [stripFences, Wrapper.wrap, openingFence_head, closingFence_tail]

/-- Fences of two kinds, with white space around them. -/
def mixed : Wrapper where
  before := " \n".toList
  opening := .backticks
  info := "tsx".toList
  blanks := " \t".toList
  closing := .tildes
  after := "\n".toList
  before_blank := by decide
  info_line := by decide
  blanks_blank := List.all_eq_true.1 (by decide)
  after_blank := by decide

/-- A body that starts and ends with fences. -/
example : stripFences (mixed.wrap "~~~\n\t```\n".toList) = "~~~\n\t```\n".toList := by decide +kernel

end LivePreview.Source
