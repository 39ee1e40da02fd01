import LivePreview.Proofs.Source.Mask
import LivePreview.Source.Plain

/-! What the rewrites cut out of a source.

Each of them leaves a source as it is when it finds nothing there, and takes at least one solid character out of it
otherwise (`Trims`). This is so for a source as it stands and for one whose literals are hidden, where the literals
count that a placeholder stands for, so that it is also so for rewrites outside literals. -/
namespace LivePreview.Source
open Pattern

/-! ### Rewrites that take something out -/

/-- Ways to count a text in which white space put in for a gap does not count. -/
structure Counts (M : List Char → Nat → Prop) : Prop extends Measure Opens M where
  nil : M [] 0
  space : M [' '] 0

/-- The count of a text that stands for itself. -/
def HasMass (s : List Char) (n : Nat) : Prop := mass s = n

/-- The count of a text that stands for another. -/
def VeilsMass (hidden : Array (List Char)) (t : List Char) (n : Nat) : Prop := ∃ s, Veils hidden t s ∧ mass s = n

theorem counts_mass : Counts HasMass where
  toMeasure := measure_mass
  nil := rfl
  space := rfl

theorem counts_veils (hidden : Array (List Char)) : Counts (VeilsMass hidden) where
  toMeasure := measure_veils hidden
  nil := ⟨[], .nil, rfl⟩
  space := ⟨[' '], .char (by decide) .nil, rfl⟩

/-- A rewrite that leaves texts alone in which it finds nothing, and takes something out of the others. -/
structure Trims (M : List Char → Nat → Prop) (finds : List Char → Prop) (rewrite : List Char → List Char) : Prop where
  keeps : ∀ s, ¬ finds s → rewrite s = s
  loses : ∀ s n, M s n → finds s → ∃ m, M (rewrite s) m ∧ m < n

/-- A pattern matches somewhere in the text. -/
def Occurs (p : Pattern) (s : List Char) : Prop := p.findAll s ≠ []

variable {M : List Char → Nat → Prop} {p q : Pattern} {r : Rule} {finds finds' : List Char → Prop}
  {rewrite rewrite' : List Char → List Char}

namespace Trims

theorem le (h : Trims M finds rewrite) {s : List Char} {n : Nat} (hs : M s n) : ∃ m, M (rewrite s) m ∧ m ≤ n := by
  by_cases hf : finds s
  · obtain ⟨m, hm, hlt⟩ := h.loses s n hs hf
    exact ⟨m, hm, Nat.le_of_lt hlt⟩
  · exact ⟨n, by rwa [h.keeps s hf], Nat.le_refl n⟩

/-- One rewrite after another finds what either finds: no later one makes up for what an earlier one took. -/
theorem andThen (h : Trims M finds rewrite) (h' : Trims M finds' rewrite') :
    Trims M (fun s => finds s ∨ finds' s) fun s => rewrite' (rewrite s) where
  keeps s hno := by rw [h.keeps s fun hf => hno (.inl hf), h'.keeps s fun hf => hno (.inr hf)]
  loses s n hs hf := by
    by_cases hfirst : finds s
    · obtain ⟨m, hm, hlt⟩ := h.loses s n hs hfirst
      obtain ⟨l, hl, hle⟩ := h'.le hm
      exact ⟨l, hl, Nat.lt_of_le_of_lt hle hlt⟩
    · rw [h.keeps s hfirst]
      exact h'.loses s n hs (hf.resolve_left hfirst)

theorem congr (h : Trims M finds rewrite) (hiff : ∀ s, finds' s ↔ finds s) : Trims M finds' rewrite where
  keeps s hno := h.keeps s fun hf => hno ((hiff s).2 hf)
  loses s n hs hf := h.loses s n hs ((hiff s).1 hf)

end Trims

/-- The text in which a rewrite outside literals looks. -/
def veiled (s : List Char) : List Char := if s.any isHideMark then s else (mask s).text

/-- What a rewrite takes out of a text with placeholders, it takes out of the text that this stands for. -/
theorem trims_outsideLiterals (h : ∀ M, Counts M → Trims M finds rewrite) :
    Trims HasMass (fun s => finds (veiled s)) (outsideLiterals rewrite) where
  keeps s hno := by
    unfold outsideLiterals
    cases hs : s.any isHideMark with
    | true =>
      rw [veiled, hs] at hno
      exact (h HasMass counts_mass).keeps s hno
    | false =>
      rw [veiled, hs] at hno
      show restore (mask s).hidden (rewrite (mask s).text) = s
      rw [(h HasMass counts_mass).keeps (mask s).text hno, restore_mask hs]
  loses s n hn hf := by
    unfold outsideLiterals
    cases hs : s.any isHideMark with
    | true =>
      rw [veiled, hs] at hf
      exact (h HasMass counts_mass).loses s n hn hf
    | false =>
      rw [veiled, hs] at hf
      obtain ⟨m, ⟨s', hs', hm⟩, hlt⟩ :=
        (h (VeilsMass (mask s).hidden) (counts_veils _)).loses (mask s).text n ⟨s, veils_mask hs, hn⟩ hf
      refine ⟨m, ?_, hlt⟩
      show mass (restore (mask s).hidden (rewrite (mask s).text)) = m
      rw [restore_of_veils hs', hm]

/-! ### Rules that take something out -/

/-- A text that something solid ends. -/
def Shuts (s : List Char) : Prop := ∃ a c, s = a ++ [c] ∧ solid c = true

/-- A gap that can be told from what stands around it also when that holds placeholders. -/
def Parted (gap behind : List Char) : Prop := Opens gap ∧ (Opens behind ∨ Shuts gap)

/-- The rule cuts out gaps and puts a space in their place, or nothing. -/
structure Carves (r : Rule) (Gap : List Char → List Char → Prop) : Prop where
  glue : r.glue = [] ∨ r.glue = [' ']
  cuts : r.Cuts Gap

theorem Carves.opens (h : Carves r Parted) : Carves r fun gap _ => Opens gap where
  glue := h.glue
  cuts := h.cuts.mono fun _ _ => And.left

theorem trims_rewrite (hM : Counts M) (h : Carves r fun gap _ => Opens gap) :
    Trims M (Occurs r.pattern) r.rewrite where
  keeps _ hno := replaceAll_eq_self (Classical.not_not.1 hno)
  loses s n hs hf := by
    have hzero : M r.glue 0 := by
      rcases h.glue with hglue | hglue
      · exact hglue ▸ hM.nil
      · exact hglue ▸ hM.space
    obtain ⟨m, hm, -, hlt⟩ := rewrite_cuts hM.toMeasure hzero h.cuts hs
    exact ⟨m, hm, hlt hf⟩

/-- One rule after another. -/
def rewriteAll (rules : List Rule) (s : List Char) : List Char := rules.foldl (fun s r => r.rewrite s) s

theorem trims_rewriteAll (hM : Counts M) {rules : List Rule} (h : ∀ r ∈ rules, Carves r fun gap _ => Opens gap) :
    Trims M (fun s => ∃ r ∈ rules, Occurs r.pattern s) (rewriteAll rules) := by
  induction rules with
  | nil => exact ⟨fun _ _ => rfl, fun _ _ _ ⟨_, hr, _⟩ => nomatch hr⟩
  | cons r rules ih =>
    have hrest := ih fun q hq => h q (List.mem_cons_of_mem r hq)
    refine ((trims_rewrite hM (h r List.mem_cons_self)).andThen hrest).congr fun s => ?_
    simp

/-! ### What is removed whole -/

theorem every_opens_lineHead (h : p.Every Opens) : (lineHead ++ p).Every Opens :=
  every_opens_right (every_blank_seq (.at .nil) every_blank_blanks) h

/-- Two words that may stand before a keyword. -/
theorem every_opens_words {o : Pattern} (ho : o.Every Opens) (hp : p.Every Opens) (hq : q.Every Opens) :
    (lineHead ++ o.opt ++ p.opt ++ q).Every Opens :=
  (every_opens_lineHead (every_opens_opt ho (every_opens_opt hp hq))).shift.shift

theorem every_opens_exportWord : (lit "export" ++ gap).Every Opens := every_opens_left (every_opens_lit rfl) _

theorem every_opens_declareWord : (lit "declare" ++ gap).Every Opens := every_opens_left (every_opens_lit rfl) _

theorem every_opens_typeImport : typeImport.Every Opens := by
  unfold typeImport
  repeat' first | exact every_opens_lineHead (every_opens_lit rfl) | apply every_opens_left

theorem every_opens_namedImport : namedImport.Every Opens := by
  unfold namedImport
  repeat' first | exact every_opens_lineHead (every_opens_lit rfl) | apply every_opens_left

theorem every_opens_sideEffectImport : sideEffectImport.Every Opens := by
  unfold sideEffectImport
  repeat' first | exact every_opens_lineHead (every_opens_lit rfl) | apply every_opens_left

theorem every_opens_interfaceHead : interfaceHead.Every Opens := by
  have hkeyword := every_opens_words (every_opens_left every_opens_exportWord (lit "default" ++ gap).opt)
    every_opens_declareWord (every_opens_lit (s := "interface") rfl)
  unfold interfaceHead
  repeat' first | exact hkeyword | apply every_opens_left

theorem every_opens_aliasHead : aliasHead.Every Opens := by
  have hkeyword := every_opens_words every_opens_exportWord every_opens_declareWord (every_opens_lit (s := "type") rfl)
  unfold aliasHead
  repeat' first | exact hkeyword | apply every_opens_left

theorem every_opens_interfaceLine : interfaceLine.Every Opens := by
  unfold interfaceLine
  repeat' first | exact every_opens_interfaceHead | apply every_opens_left

theorem every_opens_interfaceBlock : interfaceBlock.Every Opens := by
  unfold interfaceBlock
  repeat' first | exact every_opens_interfaceHead | apply every_opens_left

theorem every_opens_aliasBlock : aliasBlock.Every Opens := by
  unfold aliasBlock
  repeat' first | exact every_opens_aliasHead | apply every_opens_left

theorem every_opens_aliasUnion : aliasUnion.Every Opens := by
  unfold aliasUnion
  repeat' first | exact every_opens_aliasHead | apply every_opens_left

theorem every_opens_aliasLine : aliasLine.Every Opens := by
  unfold aliasLine
  repeat' first | exact every_opens_aliasHead | apply every_opens_left

theorem every_opens_exportDefaultName : exportDefaultName.Every Opens := by
  unfold exportDefaultName
  repeat' first | exact every_opens_lineHead (every_opens_lit rfl) | apply every_opens_left

theorem every_opens_exportList : exportList.Every Opens := by
  unfold exportList
  repeat' first | exact every_opens_lineHead (every_opens_lit rfl) | apply every_opens_left

theorem every_opens_constAssertion : constAssertion.Every Opens := by
  unfold constAssertion
  repeat' first | exact every_opens_right every_blank_gap (every_opens_lit rfl) | apply every_opens_left

theorem every_shuts_constAssertion : constAssertion.Every Shuts := by
  have hword : (lit "const").Every Shuts := (Every.lit "const").mono fun l hl => ⟨"cons".toList, 't', hl, rfl⟩
  have hkeyword : (gap ++ lit "as" ++ gap ++ lit "const").Every Shuts :=
    (Every.trivial _).seq hword fun a b _ ⟨x, c, hb, hc⟩ => ⟨a ++ x, c, by simp [hb], hc⟩
  exact hkeyword.seq (Every.at (P := (· = [])) rfl) fun a b ha hb => by
    rw [hb, List.append_nil]
    exact ha

theorem cuts_constRule : (Rule.removal constAssertion).Cuts Parted :=
  (Rule.cuts_every (every_opens_constAssertion.and every_shuts_constAssertion)).mono fun _ _ h => ⟨h.1, .inr h.2⟩

/-! ### What is replaced by a part of itself -/

theorem upTo_append (l r : List Char) : Text.upTo (l ++ r) r = l := by simp [Text.upTo]

/-- The text of a group that was read last. -/
theorem group_cons {m : Match} {i : Nat} {l s stop : List Char} {g : List (Nat × List Char × List Char)}
    (hg : m.last.groups = (i, s, stop) :: g) (hs : s = l ++ stop) : m.group i = l := by
  rw [Match.group, hg, hs]
  simp [upTo_append]

/-- The text of a group that was read last but one. -/
theorem group_cons_cons {m : Match} {i j : Nat} {l s stop : List Char} {e : List Char × List Char}
    {g : List (Nat × List Char × List Char)} (hg : m.last.groups = (j, e) :: (i, s, stop) :: g) (hij : i ≠ j)
    (hs : s = l ++ stop) : m.group i = l := by
  rw [Match.group, hg, hs]
  simp [List.lookup_cons, beq_false_of_ne hij, upTo_append]

theorem group_reads {i : Nat} {c d : Cursor} (h : (Pattern.group i p).Reads c d) (hp : p.plain = true) :
    d.groups = (i, c.rest, d.rest) :: c.groups := by
  cases h with
  | group h =>
    show _ :: _ = _ :: _
    rw [h.groups_eq hp]

theorem lit_reads {t : String} {c d : Cursor} {b : List Char} (h : (lit t).Reads c d) (hb : c.rest = b ++ d.rest) :
    b = t.toList := by
  obtain ⟨l, hl, ht⟩ := Every.lit t c d h
  exact (List.append_cancel_right (hb.symm.trans hl)).trans ht

variable {Gap : List Char → List Char → Prop} {G H : List Char → Prop}

/-- A match that falls into a kept part, a gap and another kept part. -/
theorem cut_between {K D B : Pattern} {c e₁ e₂ d : Cursor} (hK : K.Reads c e₁) (hD : D.Reads e₁ e₂)
    (hB : B.Reads e₂ d) (hgap : D.Every G) (hbehind : B.Every H) (hGap : ∀ {gap b}, G gap → H b → Gap gap b)
    (hparts : ∀ a b, c.rest = a ++ e₁.rest → e₂.rest = b ++ d.rest → ∀ pos,
      r.before ⟨pos, c.rest, d⟩ = a ∧ r.behind ⟨pos, c.rest, d⟩ = b) :
    ∃ a gap b, c.rest = a ++ gap ++ b ++ d.rest ∧ Gap gap b ∧
      ∀ pos, r.before ⟨pos, c.rest, d⟩ = a ∧ r.behind ⟨pos, c.rest, d⟩ = b := by
  obtain ⟨a, ha⟩ := hK.text
  obtain ⟨gap, hg, hG⟩ := hgap _ _ hD
  obtain ⟨b, hb, hH⟩ := hbehind _ _ hB
  refine ⟨a, gap, b, ?_, hGap hG hH, hparts a b ha hb⟩
  rw [hg, hb] at ha
  simpa using ha

/-- White space, if any, and a solid character that is part of no word. -/
def Halts (s : List Char) : Prop :=
  ∃ blank c r, s = blank ++ c :: r ∧ Blank blank ∧ solid c = true ∧ Text.isWord c = false

/-- White space, if any, and a solid character that neither goes on with the word before it nor makes a call or an
access of it. -/
def Breaks (s : List Char) : Prop :=
  ∃ blank c r, s = blank ++ c :: r ∧ Blank blank ∧ (solid c = true ∧ c ≠ '(' ∧ c ≠ '.') ∧
    (Text.isWord c = true → blank ≠ [])

/-- A gap that ends the word before it, in front of a text that does so, too. -/
def Pared (gap behind : List Char) : Prop := Breaks gap ∧ Halts behind

theorem Pared.parted {gap behind : List Char} (h : Pared gap behind) : Parted gap behind := by
  obtain ⟨⟨blank, c, r, hgap, hblank, ⟨hc, -⟩, -⟩, blank', c', r', hbehind, hblank', hc', -⟩ := h
  exact ⟨⟨blank, c, r, hgap, hblank, hc⟩, .inl ⟨blank', c', r', hbehind, hblank', hc'⟩⟩

/-- A character that a halt begins with. -/
def isHalt (c : Char) : Bool := solid c && !Text.isWord c

theorem every_halts_one {ok : Char → Bool} (h : ∀ c, ok c = true → isHalt c = true) : (Pattern.one ok).Every Halts :=
  .one fun c hc => by
    obtain ⟨hsolid, hword⟩ := Bool.and_eq_true_iff.1 (h c hc)
    exact ⟨[], c, [], rfl, .nil, hsolid, by simpa using hword⟩

theorem every_halts_among {s : String} (h : s.toList.all isHalt = true) : (Pattern.one (among s)).Every Halts :=
  every_halts_one fun c hc => List.all_eq_true.1 h c (List.contains_iff_mem.1 hc)

theorem every_halts_left (hp : p.Every Halts) (q : Pattern) : (p ++ q).Every Halts :=
  hp.seq (.trivial q) fun _ b ⟨blank, c, r, ha, h⟩ _ => ⟨blank, c, r ++ b, by simp [ha], h⟩

theorem every_halts_right (hp : p.Every Blank) (hq : q.Every Halts) : (p ++ q).Every Halts :=
  hp.seq hq fun a _ ha ⟨blank, c, r, hb, hblank, h⟩ => ⟨a ++ blank, c, r, by simp [hb], ha.append hblank, h⟩

theorem every_halts_lit {s : String} (h : s.toList.head?.any isHalt = true) : (lit s).Every Halts := by
  refine (Every.lit s).mono fun l hl => ?_
  subst hl
  cases hs : s.toList with
  | nil => simp [hs] at h
  | cons c r =>
    have hc : isHalt c = true := by simpa [hs] using h
    obtain ⟨hsolid, hword⟩ := Bool.and_eq_true_iff.1 hc
    exact ⟨[], c, r, rfl, .nil, hsolid, by simpa using hword⟩

theorem every_breaks_left (hp : p.Every Breaks) (q : Pattern) : (p ++ q).Every Breaks :=
  hp.seq (.trivial q) fun _ b ⟨blank, c, r, ha, h⟩ _ => ⟨blank, c, r ++ b, by simp [ha], h⟩

theorem every_breaks_right (hp : p.Every Blank) (hq : q.Every Breaks) : (p ++ q).Every Breaks :=
  hp.seq hq fun a _ ha ⟨blank, c, r, hb, hblank, hc, hword⟩ =>
    ⟨a ++ blank, c, r, by simp [hb], ha.append hblank, hc, fun h hnil => hword h (List.append_eq_nil_iff.1 hnil).2⟩

theorem every_breaks_lit {s : String} (h : s.toList.head?.any isHalt = true)
    (hcall : s.toList.head? ≠ some '(' ∧ s.toList.head? ≠ some '.') : (lit s).Every Breaks := by
  refine (Every.lit s).mono fun l hl => ?_
  subst hl
  cases hs : s.toList with
  | nil => simp [hs] at h
  | cons c r =>
    have hc : isHalt c = true := by simpa [hs] using h
    obtain ⟨hsolid, hword⟩ := Bool.and_eq_true_iff.1 hc
    have hcall : c ≠ '(' ∧ c ≠ '.' := by simpa [hs] using hcall
    exact ⟨[], c, r, rfl, .nil, ⟨hsolid, hcall⟩, fun hc => by simp [hc] at hword⟩

/-- A mark ends a word, also behind white space. -/
theorem every_breaks_mark {s : String} (hp : p.Every Blank) (h : s.toList.head?.any isHalt = true)
    (hcall : s.toList.head? ≠ some '(' ∧ s.toList.head? ≠ some '.') (q : Pattern) : (p ++ (lit s ++ q)).Every Breaks :=
  every_breaks_right hp (every_breaks_left (every_breaks_lit h hcall) q)

theorem every_gap : gap.Every fun l => Blank l ∧ l ≠ [] := by
  have hone : (Pattern.one Text.isSpace).Every fun l => l ≠ [] := .one fun _ _ => List.cons_ne_nil _ _
  exact every_blank_gap.and (hone.seq (.trivial _) fun _ _ h _ hnil => h (List.append_eq_nil_iff.1 hnil).1)

/-- White space ends a word, whatever follows it. -/
theorem every_breaks_gap (hq : q.Every fun l => ∃ c r, l = c :: r ∧ solid c = true ∧ c ≠ '(' ∧ c ≠ '.') :
    (gap ++ q).Every Breaks := by
  refine every_gap.seq hq fun a b ⟨hblank, hne⟩ ⟨c, r, hb, hc⟩ => ?_
  exact ⟨a, c, r, by rw [hb], hblank, hc, fun _ => hne⟩

/-- An export qualifier goes, the blanks before it stay. -/
def exportRule : Rule := { pattern := exportQualifier, before := (·.group 1) }

theorem cuts_exportRule : exportRule.Cuts fun gap _ => Opens gap := by
  intro c d hc h
  cases h.shift.shift with
  | seq hK hG =>
    refine cut_between (H := fun _ => True) hK hG .empty (every_opens_left (every_opens_lit rfl) _)
      (.empty True.intro) (fun h _ => h) fun a b ha hb pos => ?_
    cases hK with
    | seq hat hgroup =>
      cases hat
      exact ⟨group_cons ((hG.groups_eq rfl).trans (group_reads hgroup rfl)) ha, by simpa [exportRule, eq_comm] using hb⟩

/-- The type of a component goes with its colon. -/
def componentRule : Rule :=
  { pattern := typedComponent, before := (·.group 1), glue := [' '], behind := fun _ => ['='] }

theorem pared_componentRule : componentRule.Cuts Pared := by
  intro c d hc h
  cases h with
  | seq h hB =>
    cases h.shift.shift.shift.shift.shift.shift.shift with
    | seq hK hG =>
      refine cut_between hK hG hB (every_breaks_mark every_blank_spaces rfl (by decide) _)
        (every_halts_lit rfl) .intro fun a b ha hb pos => ?_
      cases hK with
      | seq hat hgroup =>
        cases hat
        exact ⟨group_cons ((hB.groups_eq rfl).trans ((hG.groups_eq rfl).trans (group_reads hgroup rfl))) ha,
          (lit_reads hB hb).symm⟩

theorem cuts_componentRule : componentRule.Cuts Parted := pared_componentRule.mono fun _ _ => Pared.parted

/-- The generic parameters of a function go. -/
def functionRule : Rule := { pattern := functionGenerics, before := (·.group 1), behind := fun _ => ['('] }

theorem pared_functionRule : functionRule.Cuts Pared := by
  intro c d hc h
  cases h with
  | seq h hB =>
    cases h.shift.shift.shift.shift with
    | seq hK hG =>
      exact cut_between hK hG hB (every_breaks_mark every_blank_spaces rfl (by decide) _)
        (every_halts_lit rfl) .intro fun a b ha hb pos =>
          ⟨group_cons ((hB.groups_eq rfl).trans ((hG.groups_eq rfl).trans (group_reads hK rfl))) ha,
            (lit_reads hB hb).symm⟩

theorem cuts_functionRule : functionRule.Cuts Parted := pared_functionRule.mono fun _ _ => Pared.parted

/-- The generic parameters of an arrow function go. -/
def arrowRule : Rule := { pattern := arrowGenerics, before := (·.group 1), behind := fun _ => ['('] }

theorem pared_arrowRule : arrowRule.Cuts Pared := by
  intro c d hc h
  cases h with
  | seq h hB =>
    cases h.shift.shift.shift.shift.shift.shift with
    | seq hK hG =>
      exact cut_between hK hG hB (every_breaks_left (every_breaks_lit rfl (by decide)) _) (every_halts_lit rfl) .intro
        fun a b ha hb pos =>
          ⟨group_cons ((hB.groups_eq rfl).trans ((hG.groups_eq rfl).trans (group_reads hK rfl))) ha,
            (lit_reads hB hb).symm⟩

theorem cuts_arrowRule : arrowRule.Cuts Parted := pared_arrowRule.mono fun _ _ => Pared.parted

/-- A return type goes with its colon. -/
def returnRule : Rule := { pattern := returnType, before := fun _ => [')'], glue := [' '], behind := (·.group 1) }

theorem pared_returnRule : returnRule.Cuts Pared := by
  intro c d hc h
  cases h with
  | seq h hB =>
    cases h.shift.shift.shift.shift.shift with
    | seq hK hG =>
      exact cut_between hK hG hB (every_breaks_mark every_blank_blanks rfl (by decide) _)
        (.group (.alt (every_halts_lit rfl) (every_halts_lit rfl))) .intro fun a b ha hb pos =>
          ⟨(lit_reads hK ha).symm, group_cons (group_reads hB rfl) hb⟩

theorem cuts_returnRule : returnRule.Cuts Parted := pared_returnRule.mono fun _ _ => Pared.parted

/-- The last assertion of a chain goes. -/
def assertionRule : Rule := { pattern := typeAssertion, before := (·.group 1), behind := (·.group 2) }

theorem pared_assertionRule : assertionRule.Cuts Pared := by
  intro c d hc h
  cases h with
  | seq h hB =>
    cases h.shift.shift.shift.shift.shift.shift.shift with
    | seq hK hG =>
      have hwords : (words ["as", "satisfies"]).Every fun l => ∃ c r, l = c :: r ∧ solid c = true ∧ c ≠ '(' ∧ c ≠ '.' :=
        .alt ((Every.lit "as").mono fun l hl => ⟨'a', _, hl, by decide⟩)
          ((Every.lit "satisfies").mono fun l hl => ⟨'s', _, hl, by decide⟩)
      have hmarks : (Pattern.one (among ")];,\x7d")).Every Halts := every_halts_among rfl
      refine cut_between hK hG hB (every_breaks_gap (hwords.seq (.trivial _) fun a b ⟨c, r, ha, hc⟩ _ =>
          ⟨c, r ++ b, by simp [ha], hc⟩))
        (.group (every_halts_right every_blank_blanks hmarks)) .intro fun a b ha hb pos => ?_
      have hgroups := (group_reads hB rfl).trans
        (congrArg (_ :: ·) ((hG.groups_eq rfl).trans (group_reads hK rfl)))
      exact ⟨group_cons_cons hgroups (by decide) ha, group_cons hgroups hb⟩

theorem cuts_assertionRule : assertionRule.Cuts Parted := pared_assertionRule.mono fun _ _ => Pared.parted

/-- The mark of a value that is not null goes. -/
def nonNullRule : Rule := { pattern := nonNullAssertion, before := (·.group 1), behind := (·.group 2) }

theorem pared_nonNullRule : nonNullRule.Cuts Pared := by
  intro c d hc h
  cases h with
  | seq h hB =>
    cases h with
    | seq hK hG =>
      refine cut_between hK hG hB (every_breaks_lit rfl (by decide)) (.group (every_halts_among rfl)) .intro
        fun a b ha hb pos => ?_
      have hgroups := (group_reads hB rfl).trans
        (congrArg (_ :: ·) ((hG.groups_eq rfl).trans (group_reads hK rfl)))
      exact ⟨group_cons_cons hgroups (by decide) ha, group_cons hgroups hb⟩

theorem cuts_nonNullRule : nonNullRule.Cuts Parted := pared_nonNullRule.mono fun _ _ => Pared.parted

/-- The keyword of a declaration and what it binds, as two groups. -/
theorem declared_text {e : Edge} {K B : Pattern} {c d : Cursor} {m : Match} {a : List Char}
    (h : (.at e ++ .group 1 K ++ .group 2 B : Pattern).Reads c d) (hK : K.plain = true) (hB : B.plain = true)
    (h₁ : m.last.groups.lookup 1 = d.groups.lookup 1) (h₂ : m.last.groups.lookup 2 = d.groups.lookup 2)
    (ha : c.rest = a ++ d.rest) : m.group 1 ++ m.group 2 = a := by
  cases h with
  | seq h hbound =>
    cases h with
    | seq hat hword =>
      cases hat
      obtain ⟨k, hk⟩ := hword.text
      obtain ⟨l, hl⟩ := hbound.text
      have hgroups := (group_reads hbound hB).trans (congrArg (_ :: ·) (group_reads hword hK))
      rw [hgroups] at h₁ h₂
      have hfirst : m.group 1 = k := by
        rw [Match.group, h₁, hk]
        simp [List.lookup_cons, upTo_append]
      have hsecond : m.group 2 = l := by
        rw [Match.group, h₂, hl]
        simp [upTo_append]
      rw [hk, hl, ← List.append_assoc] at ha
      rw [hfirst, hsecond]
      exact List.append_cancel_right ha

/-- The type of a declaration without a value goes with its colon. -/
def declarationRule : Rule :=
  { pattern := typedDeclaration, before := fun m => m.group 1 ++ m.group 2, behind := fun _ => [';'] }

theorem pared_declarationRule : declarationRule.Cuts Pared := by
  intro c d hc h
  cases h with
  | seq h hB =>
    cases h.shift.shift.shift with
    | seq hK hG =>
      refine cut_between hK hG hB (every_breaks_mark every_blank_spaces rfl (by decide) _)
        (every_halts_lit rfl) .intro fun a b ha hb pos => ?_
      have hgroups := (hB.groups_eq rfl).trans (hG.groups_eq rfl)
      exact ⟨declared_text hK rfl rfl (congrArg _ hgroups) (congrArg _ hgroups) ha, (lit_reads hB hb).symm⟩

theorem cuts_declarationRule : declarationRule.Cuts Parted := pared_declarationRule.mono fun _ _ => Pared.parted

/-- The type of a declaration with a value goes with its colon. -/
def bindingRule : Rule :=
  { pattern := typedBinding, before := fun m => m.group 1 ++ m.group 2, glue := [' '],
    behind := fun m => '=' :: m.group 3 }

theorem pared_bindingRule : bindingRule.Cuts Pared := by
  intro c d hc h
  cases h.shift with
  | seq h hB =>
    cases h.shift.shift.shift.shift.shift with
    | seq hK hG =>
      refine cut_between hK hG hB (every_breaks_mark every_blank_spaces rfl (by decide) _)
        (every_halts_left (every_halts_lit rfl) _) .intro fun a b ha hb pos => ?_
      cases hB with
      | seq hsign hvalue =>
        obtain ⟨k, hk⟩ := hsign.text
        obtain ⟨l, hl⟩ := hvalue.text
        have hgroups := (group_reads hvalue rfl).trans
          (congrArg (_ :: ·) ((hsign.groups_eq rfl).trans (hG.groups_eq rfl)))
        have hb' : b = "=".toList ++ l := by
          rw [hk, hl, ← List.append_assoc] at hb
          rw [← lit_reads hsign hk]
          exact (List.append_cancel_right hb).symm
        refine ⟨declared_text hK rfl rfl (by rw [hgroups]; rfl) (by rw [hgroups]; rfl) ha, ?_⟩
        have hthird : Match.group ⟨pos, c.rest, d⟩ 3 = l := group_cons hgroups hl
        rw [hb', bindingRule]
        simp [hthird]

theorem cuts_bindingRule : bindingRule.Cuts Parted := pared_bindingRule.mono fun _ _ => Pared.parted

/-! ### The rules of the rewrites -/

/-- The rules for a source as it stands, in their order. -/
def openRules : List Rule :=
  [.removal typeImport, .removal namedImport, .removal sideEffectImport, .removal interfaceLine,
    .removal interfaceBlock, .removal aliasBlock, .removal aliasUnion, .removal aliasLine,
    .removal exportDefaultName, .removal exportList, exportRule, componentRule, functionRule, arrowRule]

theorem carves_removal (h : p.Every Opens) : Carves (.removal p) fun gap _ => Opens gap :=
  ⟨.inl rfl, Rule.cuts_every h⟩

theorem carves_openRules : ∀ r ∈ openRules, Carves r fun gap _ => Opens gap := by
  simp only [openRules, List.forall_mem_cons, List.not_mem_nil, false_imp_iff, implies_true, and_true]
  exact ⟨carves_removal every_opens_typeImport, carves_removal every_opens_namedImport,
    carves_removal every_opens_sideEffectImport, carves_removal every_opens_interfaceLine,
    carves_removal every_opens_interfaceBlock, carves_removal every_opens_aliasBlock,
    carves_removal every_opens_aliasUnion, carves_removal every_opens_aliasLine,
    carves_removal every_opens_exportDefaultName, carves_removal every_opens_exportList, ⟨.inl rfl, cuts_exportRule⟩,
    Carves.opens ⟨.inr rfl, cuts_componentRule⟩, Carves.opens ⟨.inl rfl, cuts_functionRule⟩,
    Carves.opens ⟨.inl rfl, cuts_arrowRule⟩⟩

/-- The rule of a rewrite. -/
theorem replaceAll_eq_rewrite (r : Rule) {f : Match → List Char} (h : ∀ m, f m = r.replacement m) (s : List Char) :
    r.pattern.replaceAll f s = r.rewrite s :=
  congrArg (r.pattern.replaceAll · s) (funext h)

theorem rewriteAll_openRules (s : List Char) : rewriteAll openRules s = stripGenericParameters
    (stripComponentTypes (stripExports (removeTypeAliases (removeInterfaces (removeImports s))))) := by
  have hexport (t : List Char) : exportQualifier.replaceAll (·.group 1) t = exportRule.rewrite t :=
    replaceAll_eq_rewrite exportRule (fun m => by simp [Rule.replacement, exportRule]) t
  have hcomponent (t : List Char) :
      typedComponent.replaceAll (fun m => m.group 1 ++ " =".toList) t = componentRule.rewrite t :=
    replaceAll_eq_rewrite componentRule (fun m => by simp [Rule.replacement, componentRule]) t
  have hfunction (t : List Char) :
      functionGenerics.replaceAll (fun m => m.group 1 ++ ['(']) t = functionRule.rewrite t :=
    replaceAll_eq_rewrite functionRule (fun m => by simp [Rule.replacement, functionRule]) t
  have harrow (t : List Char) : arrowGenerics.replaceAll (fun m => m.group 1 ++ ['(']) t = arrowRule.rewrite t :=
    replaceAll_eq_rewrite arrowRule (fun m => by simp [Rule.replacement, arrowRule]) t
  rw [stripGenericParameters, stripComponentTypes, stripExports, hexport, hcomponent, hfunction, harrow]
  rfl

theorem stripReturnTypes_eq (s : List Char) : stripReturnTypes s = returnRule.rewrite s :=
  replaceAll_eq_rewrite returnRule (fun m => by simp [Rule.replacement, returnRule]) s

theorem dropAssertions_eq (s : List Char) : dropAssertions s = assertionRule.rewrite s :=
  replaceAll_eq_rewrite assertionRule (fun m => by simp [Rule.replacement, assertionRule]) s

theorem stripTypeAssertions_eq (s : List Char) : stripTypeAssertions s =
    nonNullRule.rewrite (dropAssertionChains ((Rule.removal constAssertion).rewrite s)) :=
  replaceAll_eq_rewrite nonNullRule (fun m => by simp [Rule.replacement, nonNullRule]) _

theorem stripVariableTypes_eq (s : List Char) :
    stripVariableTypes s = declarationRule.rewrite (bindingRule.rewrite s) := by
  have hbinding : typedBinding.replaceAll (fun m => m.group 1 ++ m.group 2 ++ " =".toList ++ m.group 3) s =
      bindingRule.rewrite s :=
    replaceAll_eq_rewrite bindingRule (fun m => by simp [Rule.replacement, bindingRule]) s
  rw [stripVariableTypes, hbinding]
  exact replaceAll_eq_rewrite declarationRule (fun m => by simp [Rule.replacement, declarationRule]) _

/-! ### What the rewrites take out -/

theorem length_dropAssertions {s : List Char} (h : Occurs typeAssertion s) : (dropAssertions s).length < s.length := by
  obtain ⟨m, hm, -, hlt⟩ := rewrite_cuts measure_length (n := s.length) rfl
    (cuts_assertionRule.mono fun _ _ => And.left) rfl
  rw [dropAssertions_eq]
  exact hm ▸ hlt h

theorem dropAssertionChains_of_not_occurs {s : List Char} (h : ¬ Occurs typeAssertion s) :
    dropAssertionChains s = s := by
  have hsame : dropAssertions s = s := replaceAll_eq_self (Classical.not_not.1 h)
  rw [dropAssertionChains, hsame, if_neg (Nat.lt_irrefl _)]

theorem trims_dropAssertionChains (hM : Counts M) : Trims M (Occurs typeAssertion) dropAssertionChains where
  keeps _ := dropAssertionChains_of_not_occurs
  loses s n hs hf := by
    have hround := trims_rewrite hM (Carves.opens ⟨.inl rfl, cuts_assertionRule⟩)
    fun_induction dropAssertionChains s generalizing n with
    | case1 s _ ih =>
      rw [dropAssertions_eq] at ih ⊢
      obtain ⟨m, hm, hlt⟩ := hround.loses s n hs hf
      by_cases hmore : Occurs typeAssertion (assertionRule.rewrite s)
      · obtain ⟨l, hl, hle⟩ := ih m hm hmore
        exact ⟨l, hl, Nat.lt_trans hle hlt⟩
      · exact ⟨m, by rwa [dropAssertionChains_of_not_occurs hmore], hlt⟩
    | case2 s hstop => exact absurd (length_dropAssertions hf) hstop

theorem trims_stripReturnTypes (hM : Counts M) : Trims M (Occurs returnType) stripReturnTypes := by
  rw [funext stripReturnTypes_eq]
  exact trims_rewrite hM (Carves.opens ⟨.inr rfl, cuts_returnRule⟩)

theorem trims_stripTypeAssertions (hM : Counts M) :
    Trims M (fun s => (Occurs constAssertion s ∨ Occurs typeAssertion s) ∨ Occurs nonNullAssertion s)
      stripTypeAssertions := by
  rw [funext stripTypeAssertions_eq]
  exact ((trims_rewrite hM (Carves.opens ⟨.inl rfl, cuts_constRule⟩)).andThen (trims_dropAssertionChains hM)).andThen
    (trims_rewrite hM (Carves.opens ⟨.inl rfl, cuts_nonNullRule⟩))

theorem trims_stripVariableTypes (hM : Counts M) :
    Trims M (fun s => Occurs typedBinding s ∨ Occurs typedDeclaration s) stripVariableTypes := by
  rw [funext stripVariableTypes_eq]
  exact (trims_rewrite hM (Carves.opens ⟨.inr rfl, cuts_bindingRule⟩)).andThen
    (trims_rewrite hM (Carves.opens ⟨.inl rfl, cuts_declarationRule⟩))

end LivePreview.Source
