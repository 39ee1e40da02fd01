import LivePreview.Proofs.Pattern.Search
import LivePreview.Proofs.Source.ParameterList
import LivePreview.Proofs.Source.WholeLine

/-! Imports that take up whole lines.

Such an import has nothing on its lines but blanks and a semicolon (`isWholeImport`). Each of the removals of imports
leaves it whole or takes it out, and one of them takes it out. -/
namespace LivePreview.Source
open Pattern

/-! ### The text of an import -/

/-- The text begins with the word `import` behind blanks. A longer word that begins so is another word. -/
def atImport (s : List Char) : Bool :=
  let rest := s.dropWhile Text.isBlank
  importWord.isPrefixOf rest && !(rest.drop importWord.length).head?.any Text.isWord

/-- Blanks, perhaps a semicolon, and the end of the line, or of the text when nothing follows. -/
def IsStatementEnd (stop r : List Char) : Prop :=
  ∃ a m b e, stop = a ++ (m ++ (b ++ e)) ∧ (∀ c ∈ a, Text.isBlank c = true) ∧ (m = [] ∨ m = [';']) ∧
    (∀ c ∈ b, Text.isBlank c = true) ∧ (e = ['\n'] ∨ e = ['\r', '\n'] ∨ e = [] ∧ r = [])

/-- White space, a list without a semicolon, and the word `from`. -/
def IsFromClause (clause : List Char) : Prop :=
  ∃ x k v, clause = x :: k ++ ("from".toList ++ v) ∧ Text.isSpace x = true ∧ (∀ c ∈ k, c ≠ ';') ∧
    (lastOf (some x) k).any Text.isWord = false ∧ Blank v

/-- The parts of an import. -/
structure ImportText where
  head : List Char
  clause : List Char
  opening : Char
  name : List Char
  closing : Char
  stop : List Char

namespace ImportText

def text (i : ImportText) : List Char :=
  i.head ++ (importWord ++ (i.clause ++ (i.opening :: (i.name ++ (i.closing :: i.stop)))))

/-- The import takes up whole lines, and `r` follows it. -/
structure IsWhole (Clause : List Char → Prop) (i : ImportText) (r : List Char) : Prop where
  head : ∀ c ∈ i.head, Text.isBlank c = true
  clause : Clause i.clause
  plain : ∀ c ∈ i.clause, except "'\"" c = true
  lines : ∀ l ∈ laterLines i.clause, atImport l = false
  opening : among "'\"" i.opening = true
  name_ne : i.name ≠ []
  name : ∀ c ∈ i.name, except "'\"\n" c = true
  closing : among "'\"" i.closing = true
  stop : IsStatementEnd i.stop r

end ImportText

variable {s r l stop clause : List Char} {i : ImportText} {Clause : List Char → Prop} {p q : Pattern}
  {prev : Option Char}

theorem takeWhile_ok (ok : Char → Bool) (s : List Char) : ∀ c ∈ s.takeWhile ok, ok c = true :=
  List.all_eq_true.1 List.all_takeWhile

theorem atImport_iff : atImport s = true ↔
    ∃ w r, s = w ++ (importWord ++ r) ∧ (∀ c ∈ w, Text.isBlank c = true) ∧ r.head?.any Text.isWord = false := by
  simp only [atImport, Bool.and_eq_true, Bool.not_eq_true']
  constructor
  · rintro ⟨hword, hend⟩
    obtain ⟨r, hr⟩ := List.isPrefixOf_iff_prefix.1 hword
    rw [← hr, List.drop_left] at hend
    exact ⟨s.takeWhile Text.isBlank, r, by rw [hr, List.takeWhile_append_dropWhile], takeWhile_ok _ s, hend⟩
  · rintro ⟨w, r, rfl, hw, hend⟩
    have hrest : (w ++ (importWord ++ r)).dropWhile Text.isBlank = importWord ++ r := by
      rw [List.dropWhile_append_of_pos hw]
      rfl
    rw [hrest, List.drop_left]
    exact ⟨List.isPrefixOf_iff_prefix.2 (List.prefix_append _ _), hend⟩

/-- A text that begins with the word `import` and goes on behind it, so that nothing makes the word longer. -/
def OpensImport (l : List Char) : Prop := ∀ r, atImport (l ++ r) = true

theorem opensImport_append (h : OpensImport s) (t : List Char) : OpensImport (s ++ t) := fun r => by
  rw [List.append_assoc]
  exact h (t ++ r)

/-- A word does not go on behind a quote. -/
theorem not_atImport_append {x : Char} (hx : among "'\"" x = true) (h : atImport s = false) (t : List Char) :
    atImport (s ++ x :: t) = false := by
  have hquote : x ∉ importWord ∧ Text.isBlank x = false := by
    simp only [among, List.contains_iff_mem] at hx
    have hx : x = '\'' ∨ x = '"' := by simpa using hx
    rcases hx with rfl | rfl <;> decide
  refine Bool.eq_false_iff.2 fun hword => Bool.eq_false_iff.1 h ?_
  obtain ⟨w, r, hr, hw, hend⟩ := atImport_iff.1 hword
  have hleft : x ∉ w ++ importWord := fun hin => (List.mem_append.1 hin).elim
    (fun hin => by simp [hw x hin] at hquote) hquote.1
  rw [← List.append_assoc] at hr
  -- The quote stands behind the word, which is therefore all in `s`.
  rcases List.append_eq_append_iff.1 hr with ⟨u, hu, hxt⟩ | ⟨u, rfl, hru⟩
  · cases u with
    | nil => exact atImport_iff.2 ⟨w, [], by simpa using hu.symm, hw, rfl⟩
    | cons y u =>
      obtain ⟨rfl, -⟩ := List.cons.inj hxt
      exact absurd (hu ▸ List.mem_append_right _ List.mem_cons_self) hleft
  · refine atImport_iff.2 ⟨w, u, List.append_assoc _ _ _, hw, ?_⟩
    cases u with
    | nil => rfl
    | cons y u => rwa [hru] at hend

/-- Every match is made of whole lines and begins with the word `import`. -/
structure TakesImports (p : Pattern) : Prop extends WholeLines p where
  word : p.Every OpensImport

theorem TakesImports.atImport (hp : TakesImports p) {c d : Cursor} (h : p.Reads c d) : atImport c.rest = true := by
  obtain ⟨l, hl, hword⟩ := hp.word c d h
  rw [hl]
  exact hword d.rest

theorem misses_of_lines (hp : TakesImports p)
    (h : ∀ t ∈ startsFrom prev l, t ≠ [] → atImport (t ++ r) = false) : Misses p r prev l := by
  induction l generalizing prev with
  | nil => exact True.intro
  | cons x l ih =>
    rw [startsFrom_cons] at h
    refine ⟨fun ⟨c, hc⟩ => ?_, ih fun t ht => h t (List.mem_append_right _ ht)⟩
    have hreads := endFrom_reads hc.1
    have hline : AtLine prev := hp.starts _ _ hreads
    have hword : atImport (x :: l ++ r) = true := hp.atImport hreads
    rw [h (x :: l) (by simp [hline]) (by simp)] at hword
    cases hword

theorem not_mem_of_blank (h : ∀ c ∈ l, Text.isBlank c = true) : ∀ c ∈ l, c ≠ '\n' := by
  rintro c hc rfl
  cases h '\n' hc

theorem laterLines_statementEnd (h : IsStatementEnd stop r) : ∀ t ∈ laterLines stop, t = [] := by
  obtain ⟨a, m, b, e, rfl, ha, hm, hb, he⟩ := h
  have hm' : ∀ c ∈ m, c ≠ '\n' := by rcases hm with rfl | rfl <;> simp
  rw [laterLines_append, laterLines_append, laterLines_append, laterLines_of_line (not_mem_of_blank ha),
    laterLines_of_line hm', laterLines_of_line (not_mem_of_blank hb)]
  rcases he with rfl | rfl | ⟨rfl, -⟩ <;> simp [laterLines]

namespace ImportText.IsWhole
variable {f : Match → List Char}

theorem exists_cons (h : i.IsWhole Clause r) : ∃ x w, i.text = x :: w ∧ x ≠ '\n' := by
  unfold text
  cases hhead : i.head with
  | nil => exact ⟨'i', _, rfl, by decide⟩
  | cons x w => exact ⟨x, _, rfl, not_mem_of_blank h.head x (hhead ▸ List.mem_cons_self)⟩

/-- No import begins at a later line of an import. -/
theorem laterLines (h : i.IsWhole Clause r) : ∀ t ∈ laterLines i.text, t ≠ [] → Source.atImport (t ++ r) = false := by
  have hname : ∀ c ∈ i.name, c ≠ '\n' := by
    rintro c hc rfl
    cases h.name '\n' hc
  have hquote {x : Char} (hx : among "'\"" x = true) : ∀ c ∈ [x], c ≠ '\n' := by
    rintro c hc rfl
    rw [← List.mem_singleton.1 hc] at hx
    cases hx
  have htext : i.text = i.head ++ (importWord ++ (i.clause ++ ([i.opening] ++ (i.name ++ ([i.closing] ++ i.stop))))) :=
    rfl
  rw [htext, laterLines_append, laterLines_append, laterLines_append, laterLines_append, laterLines_append,
    laterLines_append, laterLines_of_line (not_mem_of_blank h.head),
    laterLines_of_line fun _ => Spot.ne_newline_of_mem_importWord, laterLines_of_line (hquote h.opening),
    laterLines_of_line hname, laterLines_of_line (hquote h.closing)]
  intro t ht hne
  simp only [List.map_nil, List.nil_append, List.mem_append, List.mem_map] at ht
  rcases ht with ⟨l, hl, rfl⟩ | ht
  · have hnot := not_atImport_append h.opening (h.lines l hl) (i.name ++ ([i.closing] ++ i.stop) ++ r)
    simpa only [List.append_assoc, List.nil_append, List.cons_append] using hnot
  · exact absurd (laterLines_statementEnd h.stop t ht) hne

/-- **An import of whole lines stays whole, where it is not taken out.** -/
theorem stays (h : i.IsWhole Clause r) (hp : TakesImports p) (hno : ¬ ∃ c, p.Hits prev (i.text ++ r) c) :
    ∃ r', p.replaceFrom f prev (i.text ++ r) = i.text ++ r' ∧ i.IsWhole Clause r' := by
  obtain ⟨x, w, htext, hx⟩ := h.exists_cons
  have hlater := h.laterLines
  rw [htext] at hno hlater
  have hmisses : Misses p r prev (x :: w) := by
    refine ⟨hno, misses_of_lines hp ?_⟩
    have hstart : startsFrom (some x) w = Source.laterLines (x :: w) := by
      simp [startsFrom, Source.laterLines, AtLine, hx]
    rwa [hstart]
  refine ⟨p.replaceFrom f (lastOf prev i.text) r, by rw [htext]; exact hmisses.replaceFrom, { h with stop := ?_ }⟩
  obtain ⟨a, m, b, e, hstop, ha, hm, hb, he⟩ := h.stop
  refine ⟨a, m, b, e, hstop, ha, hm, hb, he.imp_right (Or.imp_right fun hend => ⟨hend.1, ?_⟩)⟩
  rw [hend.2, replaceFrom_empty]

end ImportText.IsWhole

/-! ### Where it matches -/

theorem lineHead_reads (hprev : AtLine prev) (hl : ∀ c ∈ l, Text.isBlank c = true) :
    lineHead.Reads ⟨prev, l ++ r, []⟩ ⟨lastOf prev l, r, []⟩ :=
  .seq (.at (lineStart_holds.2 hprev)) (CanRead.many hl _ _ _)

theorem statementEnd_reads (h : IsStatementEnd stop r) (prev : Option Char) :
    ∃ d, statementEnd.Reads ⟨prev, stop ++ r, []⟩ d := by
  obtain ⟨a, m, b, e, rfl, ha, hm, hb, he⟩ := h
  have hsemi : (opt (lit ";")).CanRead m := by
    rcases hm with rfl | rfl
    · exact .right .empty
    · exact .left (.lit ";")
  obtain ⟨d, hd⟩ : ∃ d, lineEnd.Reads ⟨lastOf (lastOf (lastOf prev a) m) b, e ++ r, []⟩ d := by
    rcases he with rfl | rfl | ⟨rfl, rfl⟩
    · exact ⟨_, .left (((CanRead.right .empty).seq (.lit "\n")) _ r _)⟩
    · exact ⟨_, .left (((CanRead.left (.lit "\r")).seq (.lit "\n")) _ r _)⟩
    · exact ⟨_, .right (.at rfl)⟩
  simp only [List.append_assoc]
  exact ⟨d, .seq (.seq (.seq (CanRead.many ha _ _ _) (hsemi _ _ _)) (CanRead.many hb _ _ _)) hd⟩

theorem moduleName_reads {i : ImportText} (h : i.IsWhole Clause r) (prev : Option Char) (t : List Char) :
    moduleName.Reads ⟨prev, i.opening :: (i.name ++ (i.closing :: t)), []⟩ ⟨some i.closing, t, []⟩ := by
  obtain ⟨x, w, hname⟩ := List.exists_cons_of_ne_nil h.name_ne
  have hread : (several (except "'\"\n") true).CanRead i.name := by
    rw [hname]
    exact .several (hname ▸ h.name)
  exact .seq (.seq (.one h.opening) (hread _ _ _)) (.one h.closing)

theorem namedImport_reads (h : i.IsWhole IsFromClause r) (hprev : AtLine prev) :
    ∃ d, namedImport.Reads ⟨prev, i.text ++ r, []⟩ d := by
  obtain ⟨x, k, v, hclause, hx, hk, hlast, hv⟩ := h.clause
  have hplain := h.plain
  obtain ⟨d, hd⟩ := statementEnd_reads h.stop (some i.closing)
  have hgap : gap.CanRead [x] := .several (by simpa)
  have hlist : (Pattern.many (except ";'\"") false).CanRead k := .many fun c hc => by
    have hc' := hplain c (by simp [hclause, hc])
    simp only [except, among, Bool.not_eq_true', List.contains_eq_mem, decide_eq_false_iff_not] at hc' ⊢
    simpa [hk c hc] using hc'
  have hedge (t : List Char) : Edge.wordEdge.holds (lastOf (some x) k) ("from".toList ++ t) = true := by
    simp only [Edge.holds, hlast]
    rfl
  have hspaces : spaces.CanRead v := .many hv
  simp only [ImportText.text, hclause, List.append_assoc, List.cons_append]
  exact ⟨d, .seq (.seq (.seq (.seq (.seq (.seq (.seq (.seq (lineHead_reads hprev h.head) (CanRead.lit "import" _ _ _))
    (hgap _ _ _)) (hlist _ _ _)) (.at (hedge _))) (CanRead.lit "from" _ _ _)) (hspaces _ _ _))
    (moduleName_reads h _ _)) hd⟩

theorem TakesImports.hits (hp : TakesImports p) (hstar : p.starless = true) {d : Cursor}
    (h : p.Reads ⟨prev, s, []⟩ d) : ∃ c, p.Hits prev s c := by
  refine exists_hits h hstar fun e he => ?_
  obtain ⟨l, hl, hword⟩ := hp.word _ _ he
  have hl : s = l ++ e.rest := hl
  cases l with
  | nil => cases hword []
  | cons x l =>
    rw [hl, List.length_append, List.length_cons]
    omega

/-! ### Removing imports -/

theorem every_opensImport_left (h : p.Every OpensImport) (q : Pattern) : (p ++ q).Every OpensImport :=
  h.seq (.trivial q) fun _ b ha _ => opensImport_append ha b

theorem every_blanks : blanks.Every fun l => ∀ c ∈ l, Text.isBlank c = true := .characters Text.isBlank true

theorem every_lineHead : lineHead.Every fun l => ∀ c ∈ l, Text.isBlank c = true :=
  (Every.at (P := (· = [])) rfl).seq every_blanks fun a b ha hb => by rwa [ha]

/-- The word `import` behind blanks. -/
def HeadsImport (l : List Char) : Prop := ∃ w, l = w ++ importWord ∧ ∀ c ∈ w, Text.isBlank c = true

theorem every_headsImport : (lineHead ++ lit "import").Every HeadsImport :=
  every_lineHead.seq (Every.lit "import") fun w _ hw himport => ⟨w, by rw [himport]; rfl, hw⟩

/-- A text that no word before it goes on in. -/
def EndsWord (l : List Char) : Prop := ∃ x r, l = x :: r ∧ Text.isWord x = false

theorem HeadsImport.opens {k : List Char} (h : HeadsImport l) (hk : EndsWord k) : OpensImport (l ++ k) := by
  obtain ⟨w, rfl, hw⟩ := h
  obtain ⟨x, k, rfl, hx⟩ := hk
  exact fun r => atImport_iff.2 ⟨w, x :: k ++ r, by simp only [List.append_assoc], hw, hx⟩

theorem endsWord_blank (h : Blank l) (hne : l ≠ []) : EndsWord l := by
  obtain ⟨x, l, rfl⟩ := List.exists_cons_of_ne_nil hne
  exact ⟨x, l, rfl, not_isWord_of_isSpace (h x List.mem_cons_self)⟩

theorem EndsWord.append (h : EndsWord l) (k : List Char) : EndsWord (l ++ k) := by
  obtain ⟨x, l, rfl, hx⟩ := h
  exact ⟨x, l ++ k, rfl, hx⟩

theorem every_opensImport_gap : (lineHead ++ lit "import" ++ gap).Every OpensImport :=
  every_headsImport.seq every_gap fun _ _ hheads hgap => hheads.opens (endsWord_blank hgap.1 hgap.2)

theorem takesImports_namedImport : TakesImports namedImport where
  toWholeLines := wholeLines_namedImport
  word := by
    unfold namedImport
    repeat' first | exact every_opensImport_gap | apply every_opensImport_left

/-- The text begins with an import of whole lines that has such a clause. -/
def BeginsWhole (Clause : List Char → Prop) (s : List Char) : Prop :=
  ∃ (i : ImportText) (r : List Char), s = i.text ++ r ∧ i.IsWhole Clause r

theorem BeginsWhole.stays {f : Match → List Char} (h : BeginsWhole Clause s) (hp : TakesImports p)
    (hno : ¬ ∃ c, p.Hits prev s c) : BeginsWhole Clause (p.replaceFrom f prev s) := by
  obtain ⟨i, r, rfl, hwhole⟩ := h
  obtain ⟨r', hr, hstays⟩ := hwhole.stays (f := f) hp hno
  exact ⟨i, r', hr, hstays⟩

theorem BeginsWhole.named (h : BeginsWhole IsFromClause s) (hprev : AtLine prev) :
    ∃ c, namedImport.Hits prev s c := by
  obtain ⟨i, r, rfl, hwhole⟩ := h
  obtain ⟨d, hd⟩ := namedImport_reads hwhole hprev
  exact takesImports_namedImport.hits rfl hd

end LivePreview.Source
