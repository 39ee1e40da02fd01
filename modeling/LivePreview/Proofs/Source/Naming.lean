import LivePreview.Proofs.Source.Hunt
import LivePreview.Proofs.Source.Markup

/-! What normalization keeps of the component's name.

The name is looked for in the source as it is written, while the plain program is what runs. Where at each cut the
search comes through what is taken out as it comes through what is put there, both have the same name. -/
namespace LivePreview.Source
open Pattern Search

variable {m : Masked} {σ τ : Search} {pos : Nat} {cuts : List Cut} {s t : List Char}

/-! ### Cuts that the search comes through -/

/-- Two searches are at the same point, at the latest behind the next character. -/
def Search.Meets (σ τ : Search) (s : List Char) : Prop := σ.read (s.take 1) = τ.read (s.take 1)

instance (σ τ : Search) (s : List Char) : Decidable (σ.Meets τ s) := inferInstanceAs (Decidable (_ = _))

theorem Search.Meets.read (h : σ.Meets τ s) : σ.read s = τ.read s := by
  cases s with
  | nil => exact h
  | cons c s => exact congrArg (Search.read · s) h

/-- What the text stands for from a place up to the next cut. -/
def Masked.kept (m : Masked) (pos : Nat) : List Cut → List Char
  | [] => m.rest pos
  | c :: _ => m.part pos c.start

/-- Each cut brings the search that reads the source on as `σ` to the same point as what is cut out. -/
def Masked.Follows (m : Masked) (σ : Search) (pos : Nat) : List Cut → Prop
  | [] => True
  | c :: cuts =>
    ((σ.read (m.part pos c.start)).read (m.part c.start c.stop)).Meets ((σ.read (m.part pos c.start)).read c.text)
        (m.kept c.stop cuts) ∧
      m.Follows ((σ.read (m.part pos c.start)).read (m.part c.start c.stop)) c.stop cuts

def Masked.decideFollows (m : Masked) (σ : Search) (pos : Nat) : (cuts : List Cut) → Decidable (m.Follows σ pos cuts)
  | [] => .isTrue True.intro
  | c :: cuts =>
    have := decideFollows m ((σ.read (m.part pos c.start)).read (m.part c.start c.stop)) c.stop cuts
    inferInstanceAs (Decidable (_ ∧ _))

/-- The search for a name comes through each cut of the round. -/
def Round.Follows (r : Round) : Prop := r.text.Follows {} 0 r.cuts

instance (r : Round) : Decidable r.Follows := r.text.decideFollows {} 0 r.cuts

theorem read_splice (hfits : Fits m pos cuts) (hfollows : m.Follows σ pos cuts) (h : σ.Meets τ (m.kept pos cuts)) :
    σ.read (m.rest pos) = τ.read (restore m.hidden (splice m.text pos cuts)) := by
  induction cuts generalizing σ τ pos with
  | nil => exact h.read
  | cons c cuts ih =>
    have hkept : σ.read (m.part pos c.start) = τ.read (m.part pos c.start) := h.read
    rw [hfits.rest, hfits.splice, read_append, read_append, read_append, read_append, ← hkept]
    exact ih hfits.2.2.2 hfollows.2 hfollows.1

/-- **Cuts that the search comes through leave it where it was.** -/
theorem Makes.read {rounds : List Round} (h : Makes s rounds t) (hfollows : ∀ r ∈ rounds, r.Follows) :
    ({} : Search).read s = ({} : Search).read t := by
  induction h with
  | none => rfl
  | @more m cuts rounds t hfits _ ih =>
    obtain ⟨hround, hrest⟩ := List.forall_mem_cons.1 hfollows
    exact (read_splice (τ := {}) hfits hround rfl).trans (ih hrest)

/-! ### Blank lines and ends -/

theorem IsBlankRun.blank (h : IsBlankRun s) : Blank s ∧ s ≠ [] := by
  obtain ⟨y, more, -, -, z, rfl, hz⟩ := h
  refine ⟨fun c hc => ?_, by simp⟩
  rw [List.cons_append, List.mem_cons, List.mem_append, List.mem_singleton] at hc
  rcases hc with rfl | hc | rfl
  · rfl
  · exact Reading.isSpace_of_isAsciiSpace (hz c hc)
  · rfl

/-- The search comes through all runs of blank lines. -/
theorem follows_blank (hcuts : ∀ c ∈ cuts, IsBlankRun (slice s c.start c.stop) ∧ c.text = ['\n', '\n', '\n']) :
    Masked.Follows ⟨s, #[]⟩ σ pos cuts := by
  induction cuts generalizing σ pos with
  | nil => exact True.intro
  | cons c cuts ih =>
    obtain ⟨⟨hrun, htext⟩, hmore⟩ := List.forall_mem_cons.1 hcuts
    have hlines : Blank c.text ∧ c.text ≠ [] := by
      rw [htext]
      exact ⟨by simp [Blank, Text.isSpace], by simp⟩
    have hpart : Masked.part ⟨s, #[]⟩ c.start c.stop = slice s c.start c.stop := restore_empty _
    refine ⟨?_, ih hmore⟩
    rw [hpart, read_blank hrun.blank.1 hrun.blank.2, read_blank hlines.1 hlines.2]
    rfl

theorem read_blankRule (s : List Char) : ({} : Search).read (blankRule.rewrite s) = ({} : Search).read s := by
  have hfollows : Masked.Follows ⟨s, #[]⟩ {} 0 (cutsOf blankRule s) := follows_blank fun c hc =>
    have ⟨_, hrun, htext⟩ := mem_cutsOf cuts_blankRule hc
    ⟨hrun, htext⟩
  have h := read_splice (τ := {}) (fits_blankRule s) hfollows rfl
  rwa [Masked.rest, restore_empty, restore_empty, splice_cutsOf cuts_blankRule, List.drop_zero, eq_comm] at h

theorem result_trim (s : List Char) : (({} : Search).read (Text.trim s)).result = (({} : Search).read s).result := by
  have hsplit : s.takeWhile Text.isSpace ++ Text.trimStart s = s := List.takeWhile_append_dropWhile
  obtain ⟨w, hw, hend⟩ := exists_trimEnd_blank (Text.trimStart s)
  have hstart : ({} : Search).read s = ({} : Search).read (Text.trimStart s) := by
    rw [← hsplit, read_append, read_blank_start (blank_takeWhile s), hsplit]
  rw [hstart, hw, read_append, result_read_idle fun c hc => Hunt.isIdle_of_isSpace (hend c hc)]
  rfl

theorem result_collapseBlankLines (s : List Char) :
    (({} : Search).read (collapseBlankLines s)).result = (({} : Search).read s).result := by
  rw [collapseBlankLines_eq, result_trim, read_blankRule]

/-! ### Fences -/

/-- The cut that takes a first match out. -/
def firstCuts (p : Pattern) (s : List Char) : List Cut :=
  (p.find? s).toList.map fun m => ⟨m.start, m.stop, []⟩

theorem removeFirst_eq (p : Pattern) (s : List Char) : p.removeFirst s = splice s 0 (firstCuts p s) := by
  unfold removeFirst firstCuts
  cases h : p.find? s with
  | none => rfl
  | some m =>
    obtain ⟨hsource, prev, hend⟩ := find?_eq_some h
    obtain ⟨l, hl⟩ := (endFrom_reads hend).text
    have hl : m.source = l ++ m.last.rest := hl
    have hstop : m.stop = m.start + l.length := by simp [Match.stop, Match.length, hl]
    have hdrop : s.drop m.stop = m.last.rest := by rw [hstop, drop_of_drop (hsource.symm.trans hl)]
    simp [splice, slice, hdrop]

/-- The round that takes the opening fence off. -/
def openingRound (s : List Char) : Round := ⟨⟨s, #[]⟩, firstCuts openingFence s⟩

theorem makes_openingFence (s : List Char) : Makes s [openingRound s] (openingFence.removeFirst s) := by
  rw [removeFirst_eq]
  refine makes_splice ?_
  unfold firstCuts
  cases openingFence.find? s with
  | none => exact True.intro
  | some m => exact ⟨⟨Nat.zero_le _, Nat.le_add_right _ _⟩, True.intro⟩

/-- A closing fence is no part of a declaration. -/
theorem every_idle_closingFence : closingFence.Every fun l => ∀ c ∈ l, Hunt.isIdle c = true := by
  have hblank {p : Pattern} (h : p.Every Blank) : p.Every fun l => ∀ c ∈ l, Hunt.isIdle c = true :=
    h.mono fun _ hl c hc => Hunt.isIdle_of_isSpace (hl c hc)
  have hlit {t : String} (h : t.toList.all Hunt.isIdle = true) :
      (lit t).Every fun l => ∀ c ∈ l, Hunt.isIdle c = true :=
    (Every.lit t).mono fun _ hl => hl ▸ List.all_eq_true.1 h
  have happend (a b : List Char) (ha : ∀ c ∈ a, Hunt.isIdle c = true) (hb : ∀ c ∈ b, Hunt.isIdle c = true) :
      ∀ c ∈ a ++ b, Hunt.isIdle c = true := fun c hc => (List.mem_append.1 hc).elim (ha c) (hb c)
  have hnil : ∀ c ∈ ([] : List Char), Hunt.isIdle c = true := fun _ h => nomatch h
  have hmark : fenceMark.Every fun l => ∀ c ∈ l, Hunt.isIdle c = true := .alt (hlit (by decide)) (hlit (by decide))
  have hline : (opt (lit "\n")).Every fun l => ∀ c ∈ l, Hunt.isIdle c = true := (hlit (by decide)).opt hnil
  have hblanks := hblank every_blank_blanks
  exact ((((hline.seq hblanks happend).seq hmark happend).seq hblanks happend).seq
    (hblank every_blank_spaces) happend).seq (.at hnil) happend

/-- The name is found without the closing fence. -/
theorem result_closingFence (s : List Char) :
    (({} : Search).read (closingFence.removeFirst s)).result = (({} : Search).read s).result := by
  unfold removeFirst
  split
  case h_1 m h =>
    obtain ⟨hsource, prev, hend⟩ := find?_eq_some h
    have hreads := endFrom_reads hend
    obtain ⟨l, hl, hidle⟩ := every_idle_closingFence _ _ hreads
    have hrest : m.last.rest = [] := by
      cases hreads with
      | seq _ hat =>
        cases hat with
        | «at» hempty => exact List.isEmpty_iff.1 hempty
    have hl : s.drop m.start = l := by
      rw [← hsource]
      simpa [hrest] using hl
    have hsplit : s = s.take m.start ++ l := by rw [← hl, List.take_append_drop]
    rw [hrest, List.append_nil]
    conv => rhs; rw [hsplit, read_append, result_read_idle hidle]
  case h_2 => rfl

/-! ### All of normalization -/

/-- **Normalization keeps the name of the component where the search comes through its cuts.** -/
theorem componentName_normalize {n : ComponentName} (h : componentName? t = some n) (hkind : n.kind ≠ .exported)
    (hcuts : ∀ r ∈ openingRound t :: rounds (stripFences t), r.Follows) : componentName? (normalize t) = some n := by
  obtain ⟨hopening, hrounds⟩ := List.forall_mem_cons.1 hcuts
  have hfences : (({} : Search).read (stripFences t)).result = (({} : Search).read t).result := by
    rw [stripFences, result_closingFence, (makes_openingFence t).read (by simpa using hopening)]
  have hresult : (({} : Search).read (normalize t)).result = some n := by
    rw [normalize_eq, result_collapseBlankLines, ← (makes_stripTypes _).read hrounds, hfences]
    exact result_eq_some_iff.2 ⟨h, hkind⟩
  exact (result_eq_some_iff.1 hresult).1

/-- A fenced function with types before its name, behind it and inside. -/
def panelSource : List Char :=
  ("```tsx\ninterface Props { items: string[] }\nexport default function Panel<T>({ items }: Props): Node \x7b\n" ++
    "  return <p>{items as T}</p>;\n\x7d\n```").toList

theorem componentName_normalize_panelSource :
    componentName? panelSource = some ⟨"Panel".toList, .function⟩ ∧
      (∀ r ∈ openingRound panelSource :: rounds (stripFences panelSource), r.Follows) ∧
      componentName? (normalize panelSource) = some ⟨"Panel".toList, .function⟩ := by
  have hname : componentName? panelSource = some ⟨"Panel".toList, .function⟩ := by decide +kernel
  have hcuts : ∀ r ∈ openingRound panelSource :: rounds (stripFences panelSource), r.Follows := by decide +kernel
  exact ⟨hname, hcuts, componentName_normalize hname (by decide) hcuts⟩

/-- A binding that is one only by its type. -/
def typedOnly : List Char := "let App: Widget;\nfunction Card() {}".toList

theorem typedOnly_renamed : componentName? typedOnly = some ⟨"App".toList, .binding⟩ ∧
    componentName? (normalize typedOnly) = some ⟨"Card".toList, .function⟩ := by
  exact ⟨by decide +kernel, by decide +kernel⟩

end LivePreview.Source
