import Mathlib.Data.List.Induction
import Mathlib.Logic.Function.Iterate
import LivePreview.Proofs.Pattern.Anchor
import LivePreview.Proofs.Source.ConstCut
import LivePreview.Proofs.Source.TypeArguments
import LivePreview.Proofs.Source.TypeRegion

/-! Rounds over chains of assertions.

A round takes something out of a text or finds nothing in it, so the rounds come to an end, and nothing is found in
what they end with (`dropAssertionChains_iterate`). Of a chain only the last link can be matched: a match goes on to a
mark behind it, and within a chain there is none. So each round takes the last link, which leaves the one before it
last (`dropAssertions_chain`). Constant assertions go before all this, wherever they stand in the chain. -/
namespace LivePreview.Source
open Pattern

/-! ### Rounds -/

/-- The rounds stop: all that are made shorten the text, a further one would not change it. -/
theorem dropAssertionChains_iterate (s : List Char) :
    ∃ n, (∀ k < n, (dropAssertions^[k + 1] s).length < (dropAssertions^[k] s).length) ∧
      dropAssertionChains s = dropAssertions^[n] s ∧ ¬ Occurs typeAssertion (dropAssertionChains s) := by
  fun_induction dropAssertionChains s with
  | case1 s hlt ih =>
    obtain ⟨n, hshorter, hend, hno⟩ := ih
    refine ⟨n + 1, fun k hk => ?_, hend, hno⟩
    cases k with
    | zero => exact hlt
    | succ k => exact hshorter k (Nat.lt_of_succ_lt_succ hk)
  | case2 s hstop => exact ⟨0, fun k hk => absurd hk (Nat.not_lt_zero k), rfl, fun h => hstop (length_dropAssertions h)⟩

/-! ### Chains -/

/-- Letters, digits and `_`, the first of which is no digit. -/
structure Identifier where
  text : List Char
  plain : ∀ c ∈ text, Text.isPlainName c = true
  start : ∃ c r, text = c :: r ∧ Text.isDigit c = false

/-- The two words that assert a type. -/
inductive Keyword where
  | as
  | satisfies
deriving DecidableEq

def Keyword.text : Keyword → List Char
  | as => "as".toList
  | satisfies => "satisfies".toList

/-- A keyword and a type, which is not itself one of the keywords. -/
structure Link where
  keyword : Keyword
  type : Identifier
  own : ∀ k : Keyword, type.text ≠ k.text

/-- A link with a space before each of its words. -/
def Link.text (l : Link) : List Char := ' ' :: (l.keyword.text ++ ' ' :: l.type.text)

/-- A value with assertions, one after another. -/
def chain (x : Identifier) (links : List Link) : List Char := x.text ++ links.flatMap Link.text

variable {l : Link} {prev : Option Char} {c : Char} {d : Cursor} {s t u v w r : List Char} {ok : Char → Bool}

theorem chain_concat (x : Identifier) (links : List Link) (l : Link) :
    chain x (links ++ [l]) = chain x links ++ ' ' :: (l.keyword.text ++ ' ' :: l.type.text) := by
  simp [chain, Link.text]

theorem isWord_of_isPlainName (h : Text.isPlainName c = true) : Text.isWord c = true := by
  have hle (a b : Char) : a ≤ b ↔ a.toNat ≤ b.toNat := Iff.rfl
  have hascii : c.toNat < 128 := by
    simp [Text.isPlainName, Text.isLatin, Text.isDigit, hle, ← Char.toNat_inj] at h
    omega
  rw [Text.isWord, if_pos hascii]
  exact h

/-- Characters of a kind, at least one. -/
def Piece (ok : Char → Bool) (w : List Char) : Prop := w ≠ [] ∧ ∀ c ∈ w, ok c = true

theorem Identifier.piece (x : Identifier) : Piece Text.isWord x.text := by
  obtain ⟨c, r, hx, -⟩ := x.start
  exact ⟨by simp [hx], fun c hc => isWord_of_isPlainName (x.plain c hc)⟩

theorem Keyword.piece (k : Keyword) : Piece Text.isWord k.text := by
  cases k <;> exact ⟨List.cons_ne_nil _ _, List.all_eq_true.1 (by decide)⟩

theorem Piece.solid (h : Piece Text.isWord w) : Piece (!Text.isSpace ·) w :=
  ⟨h.1, fun c hc => by simp [isSpace_eq_false_of_isWord (h.2 c hc)]⟩

theorem Piece.reverse (h : Piece ok w) : Piece ok w.reverse :=
  ⟨by simpa using h.1, fun c hc => h.2 c (List.mem_reverse.1 hc)⟩

/-- The first piece of a text can be told from what stands around it. -/
theorem cut_piece {u' w' r' : List Char} (hu : ∀ c ∈ u, ok c = false) (hu' : ∀ c ∈ u', ok c = false) (hw : Piece ok w)
    (hw' : Piece ok w') (hr : ∀ c ∈ r.head?, ok c = false) (hr' : ∀ c ∈ r'.head?, ok c = false)
    (h : u ++ (w ++ r) = u' ++ (w' ++ r')) : u = u' ∧ w = w' ∧ r = r' := by
  have hhead {w : List Char} (hw : Piece ok w) (r : List Char) : ∀ c ∈ (w ++ r).head?, ok c = true := by
    obtain ⟨c, w, rfl⟩ := List.exists_cons_of_ne_nil hw.1
    exact fun d hd => hw.2 d (by simp_all)
  obtain ⟨rfl, hrest⟩ := Node.cut_unique ok hu hu' (hhead hw r) (hhead hw' r') h
  refine ⟨rfl, Node.cut_unique (fun c => !ok c) ?_ ?_ ?_ ?_ hrest⟩
  · exact fun c hc => by simp [hw.2 c hc]
  · exact fun c hc => by simp [hw'.2 c hc]
  · exact fun c hc => by simp [hr c hc]
  · exact fun c hc => by simp [hr' c hc]

/-! ### Constant assertions -/

/-- The link asserts that its value is constant. -/
def Link.isConst (l : Link) : Bool := l.keyword == .as && l.type.text == "const".toList

theorem not_isWord_space : ∀ c ∈ [' '], Text.isWord c = false := List.forall_mem_singleton.2 rfl

theorem not_isWord_spaced (r : List Char) : ∀ c ∈ (' ' :: r).head?, Text.isWord c = false := by
  rintro c ⟨⟩
  rfl

theorem isSpace_head (h : Blank v) (hne : v ≠ []) (r : List Char) : ∀ c ∈ (v ++ r).head?, Text.isSpace c = true := by
  obtain ⟨c, v, rfl⟩ := List.exists_cons_of_ne_nil hne
  rintro d ⟨⟩
  exact h c List.mem_cons_self

theorem not_isWord_head (h : Blank v) (hne : v ≠ []) (r : List Char) : ∀ c ∈ (v ++ r).head?, Text.isWord c = false :=
  fun c hc => not_isWord_of_isSpace (isSpace_head h hne r c hc)

/-- A constant assertion that begins with a space takes the word behind it for `as`, and the next one for `const`. -/
theorem constAssertion_piece (h : constAssertion.Reads ⟨prev, ' ' :: (w ++ r), []⟩ d) (hw : Piece Text.isWord w)
    (hr : ∀ c ∈ r.head?, Text.isWord c = false) :
    w = "as".toList ∧ ∃ v, r = v ++ ("const".toList ++ d.rest) ∧ (Blank v ∧ v ≠ []) ∧
      ∀ c ∈ d.rest.head?, Text.isWord c = false := by
  obtain ⟨⟨_, hrest, u, v, rfl, ⟨hu, -⟩, hv⟩, hquiet, -⟩ := constAssertion_reads h (.inl rfl)
  simp only [List.append_assoc] at hrest
  obtain ⟨-, hword, hr⟩ := cut_piece (u := [' ']) not_isWord_space (fun c hc => not_isWord_of_isSpace (hu c hc)) hw
    (Keyword.piece .as) hr (not_isWord_head hv.1 hv.2 _) hrest
  exact ⟨hword, v, hr, hv, fun c hc => (hquiet c hc).1⟩

theorem piece_const : Piece Text.isWord "const".toList := ⟨List.cons_ne_nil _ _, List.all_eq_true.1 (by decide)⟩

theorem canRead_gap : gap.CanRead [' '] := .several (List.forall_mem_singleton.2 rfl)

theorem canRead_words_keyword (k : Keyword) : (words ["as", "satisfies"]).CanRead k.text := by
  cases k
  · exact canRead_words (w := "as") (by simp)
  · exact canRead_words (w := "satisfies") (by simp)

/-- No word goes on into a link, nor behind the last one. -/
theorem not_isWord_links (links : List Link) :
    ∀ c ∈ (links.flatMap Link.text ++ [';']).head?, Text.isWord c = false := by
  cases links with
  | nil => rintro c ⟨⟩; rfl
  | cons l links => exact not_isWord_spaced _

theorem every_spaced_constAssertion : constAssertion.Every (·.head?.any Text.isSpace = true) := by
  intro c d h
  obtain ⟨⟨_, hrest, u, v, rfl, ⟨hu, hne⟩, -⟩, -⟩ := constAssertion_reads h (.inl rfl)
  obtain ⟨x, u, rfl⟩ := List.exists_cons_of_ne_nil hne
  exact ⟨_, hrest, hu x List.mem_cons_self⟩

/-- No assertion begins within a word. -/
theorem constAssertion_misses (hw : Piece Text.isWord w) (r : List Char) : constAssertion.Misses r prev w :=
  misses_of_first every_spaced_constAssertion fun c hc => isSpace_eq_false_of_isWord (hw.2 c hc)

/-- A link that asserts a constant is found whole. -/
theorem constAssertion_link (hl : l.isConst = true) (prev : Option Char) (links : List Link) :
    ∃ e, constAssertion.Hits prev (l.text ++ (links.flatMap Link.text ++ [';'])) e ∧
      e.rest = links.flatMap Link.text ++ [';'] := by
  obtain ⟨hkeyword, htype⟩ := Bool.and_eq_true_iff.1 hl
  have htext : l.text = [' '] ++ "as".toList ++ [' '] ++ "const".toList := by
    rw [Link.text, beq_iff_eq.1 hkeyword, beq_iff_eq.1 htype]
    rfl
  generalize hr : links.flatMap Link.text ++ [';'] = r
  have hquiet : ∀ c ∈ r.head?, Text.isWord c = false := hr ▸ not_isWord_links links
  have hedge : Edge.wordEdge.holds (lastOf prev l.text) r = true := by
    have hlast : lastOf prev l.text = some 't' := by
      rw [htext, lastOf_append]
      rfl
    have hhead : r.head?.any Text.isWord = false := by
      cases hc : r.head? with
      | none => rfl
      | some c => exact hquiet c hc
    rw [Edge.holds, hlast, hhead]
    rfl
  have hread := (((canRead_gap.seq (.lit "as")).seq canRead_gap).seq (.lit "const")) prev r []
  rw [← htext] at hread
  obtain ⟨e, he⟩ := exists_hits (p := constAssertion) (.seq hread (.at hedge)) rfl fun d hd => hd.length_lt rfl
  refine ⟨e, he, ?_⟩
  have hreads := endFrom_reads he.1
  rw [show l.text ++ r = ' ' :: ("as".toList ++ (' ' :: ("const".toList ++ r))) by rw [htext]; rfl] at hreads
  obtain ⟨-, v, hbehind, hv, hend⟩ := constAssertion_piece hreads (Keyword.piece .as) (not_isWord_spaced _)
  obtain ⟨-, -, hrest⟩ := cut_piece (u := [' ']) not_isWord_space (fun c hc => not_isWord_of_isSpace (hv.1 c hc))
    piece_const piece_const hquiet hend hbehind
  exact hrest.symm

/-- Nothing is found in any other link. -/
theorem constAssertion_misses_link (hl : l.isConst = false) (prev : Option Char) (links : List Link) :
    constAssertion.Misses (links.flatMap Link.text ++ [';']) prev l.text := by
  have htype : constAssertion.Misses (links.flatMap Link.text ++ [';']) (lastOf (some ' ') l.keyword.text)
      (' ' :: l.type.text) := by
    refine ⟨fun ⟨e, he⟩ => ?_, constAssertion_misses l.type.piece _⟩
    exact l.own .as (constAssertion_piece (endFrom_reads he.1) l.type.piece (not_isWord_links links)).1
  refine ⟨fun ⟨e, he⟩ => ?_, (constAssertion_misses l.keyword.piece _).append htype⟩
  have hreads := endFrom_reads he.1
  rw [← List.cons_append, List.append_assoc, List.cons_append] at hreads
  obtain ⟨hkeyword, v, hbehind, hv, hend⟩ := constAssertion_piece hreads l.keyword.piece (not_isWord_spaced _)
  obtain ⟨-, hconst, -⟩ := cut_piece (u := [' ']) not_isWord_space (fun c hc => not_isWord_of_isSpace (hv.1 c hc))
    l.type.piece piece_const (not_isWord_links links) hend hbehind
  have has : l.keyword = .as := by
    cases hk : l.keyword with
    | as => rfl
    | satisfies => exact absurd (hk ▸ hkeyword) (by decide)
  simp [Link.isConst, has, hconst] at hl

/-- The links that assert a constant go, wherever they stand in the chain. -/
theorem removeAll_constAssertion (x : Identifier) (links : List Link) :
    constAssertion.removeAll (chain x links ++ [';']) = chain x (links.filter (!·.isConst)) ++ [';'] := by
  have hlinks (prev : Option Char) : constAssertion.replaceFrom (fun _ => []) prev (links.flatMap Link.text ++ [';']) =
      (links.filter (!·.isConst)).flatMap Link.text ++ [';'] := by
    induction links generalizing prev with
    | nil =>
      have hmark : constAssertion.Misses [] prev [';'] :=
        misses_of_first every_spaced_constAssertion (List.forall_mem_singleton.2 rfl)
      simpa [replaceFrom_empty] using hmark.replaceFrom (f := fun _ => [])
    | cons l links ih =>
      rw [List.flatMap_cons, List.append_assoc]
      cases hl : l.isConst with
      | true =>
        obtain ⟨e, he, hrest⟩ := constAssertion_link hl prev links
        rw [replaceFrom_of_hits he, hrest, ih, List.filter_cons_of_neg (by simp [hl])]
        rfl
      | false =>
        rw [(constAssertion_misses_link hl prev links).replaceFrom, ih, List.filter_cons_of_pos (by simp [hl]),
          List.flatMap_cons, List.append_assoc]
  rw [chain, List.append_assoc, removeAll, replaceAll, (constAssertion_misses x.piece _).replaceFrom, hlinks, chain,
    List.append_assoc]

/-! ### Assertions of a type -/

theorem every_any_lit {w : String} (h : w.toList.any ok = true) : (lit w).Every (·.any ok = true) :=
  (Every.lit w).mono fun _ hl => hl ▸ h

theorem every_any_left {p : Pattern} (h : p.Every (·.any ok = true)) (q : Pattern) : (p ++ q).Every (·.any ok = true) :=
  h.seq (.trivial q) fun a b ha _ => by simp [ha]

theorem every_any_right {q : Pattern} (p : Pattern) (h : q.Every (·.any ok = true)) :
    (p ++ q).Every (·.any ok = true) :=
  (Every.trivial p).seq h fun a b _ hb => by simp [hb]

/-- Nothing, or a text with a mark of what may follow the name of a type. -/
def Marked (s : List Char) : Prop := s = [] ∨ s.any (among ".<[|") = true

theorem Marked.append (hs : Marked s) (ht : Marked t) : Marked (s ++ t) := by
  rcases hs with rfl | hs
  · exact ht
  · exact .inr (by simp [hs])

theorem every_marked_star {p : Pattern} (h : p.Every (·.any (among ".<[|") = true)) (greedy : Bool) :
    (Pattern.star p greedy).Every Marked :=
  h.star (.inl rfl) fun _ _ ha hb => Marked.append (.inr ha) hb

/-- What may follow the name of a type. -/
def typeMore : Pattern :=
  .star (lit "." ++ name) true ++ (opt (lit "<" ++ .many (except ";\n") false ++ lit ">") ++ (arrayMarks ++
    .star (spaces ++ lit "|" ++ spaces ++ name ++ arrayMarks) true))

theorem every_marked_typeMore : typeMore.Every Marked := by
  have hdots : (lit "." ++ name).Every (·.any (among ".<[|") = true) := every_any_left (every_any_lit (by decide)) _
  have hgenerics : (lit "<" ++ .many (except ";\n") false ++ lit ">").Every (·.any (among ".<[|") = true) :=
    every_any_left (every_any_left (every_any_lit (by decide)) _) _
  have harray : (lit "[]").Every (·.any (among ".<[|") = true) := every_any_lit (by decide)
  have hunion : (spaces ++ lit "|" ++ spaces ++ name ++ arrayMarks).Every (·.any (among ".<[|") = true) :=
    every_any_left (every_any_left (every_any_left (every_any_right _ (every_any_lit (by decide))) _) _) _
  have happend (a b : List Char) : Marked a → Marked b → Marked (a ++ b) := Marked.append
  exact (every_marked_star hdots _).seq ((Every.opt (hgenerics.mono fun _ => .inr) (.inl rfl)).seq
    ((every_marked_star harray _).seq (every_marked_star hunion _) happend) happend) happend

theorem every_keyword : (words ["as", "satisfies"]).Every fun l => ∃ k : Keyword, l = k.text :=
  .alt ((Every.lit "as").mono fun _ hl => ⟨.as, hl⟩) ((Every.lit "satisfies").mono fun _ hl => ⟨.satisfies, hl⟩)

theorem not_isSpace_of_isNameChar (h : Text.isNameChar c = true) : Text.isSpace c = false := by
  rcases Bool.or_eq_true_iff.1 h with h | h
  · exact isSpace_eq_false_of_isWord h
  · rw [beq_iff_eq.1 h]
    rfl

theorem isNameChar_of_isNameStart (h : Text.isNameStart c = true) : Text.isNameChar c = true := by
  rcases Bool.or_eq_true_iff.1 h with h | h
  · refine Bool.or_eq_true_iff.2 (.inl (isWord_of_isPlainName ?_))
    rcases Bool.or_eq_true_iff.1 h with h | h <;> simp [Text.isPlainName, h]
  · exact Bool.or_eq_true_iff.2 (.inr h)

theorem IsTypeName.solid (h : IsTypeName t) : Piece (!Text.isSpace ·) t := by
  obtain ⟨c, r, rfl, hc, hr⟩ := h
  refine ⟨List.cons_ne_nil c r, List.forall_mem_cons.2 ⟨?_, fun d hd => ?_⟩⟩
  · simp [not_isSpace_of_isNameChar (isNameChar_of_isNameStart hc)]
  · simp [not_isSpace_of_isNameChar (hr d hd)]

/-- What an assertion of a type reads, from the end of the value before it to the mark behind it. -/
theorem typeAssertion_sound (h : typeAssertion.Reads ⟨prev, s, []⟩ d) :
    ∃ c g, ∃ k : Keyword, ∃ g' t more w m, s = c :: (g ++ (k.text ++ (g' ++ (t ++ (more ++ (w ++ m :: d.rest)))))) ∧
      Text.isSpace c = false ∧ (Blank g ∧ g ≠ []) ∧ (Blank g' ∧ g' ≠ []) ∧ Piece (!Text.isSpace ·) t ∧ Marked more ∧
      Blank w ∧ among ")];,\x7d" m = true ∧ ∀ pos, assertionRule.replacement ⟨pos, s, d⟩ = c :: (w ++ [m]) := by
  have hvalue : (Pattern.group 1 (.one fun c => Text.isNameChar c || among ")]\x7d" c)).Every fun l =>
      ∃ c, l = [c] ∧ Text.isSpace c = false := by
    refine (Every.one fun c hc => ⟨c, rfl, ?_⟩).group
    rcases Bool.or_eq_true_iff.1 hc with hc | hc
    · exact not_isSpace_of_isNameChar hc
    · have hc : c = ')' ∨ c = ']' ∨ c = '\x7d' := by simpa [among] using hc
      rcases hc with rfl | rfl | rfl <;> rfl
  have hend : (Pattern.group 2 (blanks ++ .one (among ")];,\x7d"))).Every fun l =>
      ∃ w m, l = w ++ [m] ∧ Blank w ∧ among ")];,\x7d" m = true := by
    have hmark : (Pattern.one (among ")];,\x7d")).Every fun l => ∃ m, l = [m] ∧ among ")];,\x7d" m = true :=
      .one fun m hm => ⟨m, rfl, hm⟩
    refine (every_blank_blanks.seq hmark fun w b hw hb => ?_).group
    obtain ⟨m, rfl, hm⟩ := hb
    exact ⟨w, m, rfl, hw, hm⟩
  cases h with
  | seq h hB =>
    cases h.shift.shift.shift.shift.shift.shift.shift with
    | seq hA hG =>
      have hgroups := (group_reads hB rfl).trans (congrArg (_ :: ·) ((hG.groups_eq rfl).trans (group_reads hA rfl)))
      obtain ⟨_, hc, c, rfl, hspace⟩ := hvalue _ _ hA
      obtain ⟨_, hw, w, m, rfl, hblank, hm⟩ := hend _ _ hB
      have hG : (gap ++ (words ["as", "satisfies"] ++ (gap ++ (name ++ typeMore)))).Reads _ _ := hG
      obtain _ | _ | _ | _ | ⟨hgap, _ | _ | _ | _ | ⟨hword, hG⟩⟩ := hG
      obtain _ | _ | _ | _ | ⟨hgap', _ | _ | _ | _ | ⟨hname, hmore⟩⟩ := hG
      obtain ⟨g, hg, hgblank⟩ := every_gap _ _ hgap
      obtain ⟨_, hkeyword, k, rfl⟩ := every_keyword _ _ hword
      obtain ⟨g', hg', hgblank'⟩ := every_gap _ _ hgap'
      obtain ⟨t, ht, htype⟩ := every_name _ _ hname
      obtain ⟨more, hmore, hmarked⟩ := every_marked_typeMore _ _ hmore
      refine ⟨c, g, k, g', t, more, w, m, ?_, hspace, hgblank, hgblank', htype.solid, hmarked, hblank, hm,
        fun pos => ?_⟩
      · rw [show s = _ from hc, hg, hkeyword, hg', ht, hmore, hw]
        simp
      · have hbefore := group_cons_cons (m := ⟨pos, s, d⟩) hgroups (by decide) hc
        have hbehind := group_cons (m := ⟨pos, s, d⟩) hgroups hw
        simp [Rule.replacement, assertionRule, hbefore, hbehind]

/-! ### The last link -/

/-- Words and single spaces. -/
def Worded (s : List Char) : Prop := ∀ c ∈ s, Text.isWord c = true ∨ c = ' '

theorem Worded.not_among (h : Worded s) (hc : c ∈ s) : among ".<[|)];,\x7d" c = false := by
  rcases h c hc with hword | rfl
  · refine Bool.eq_false_iff.2 fun hmark => ?_
    have hmark : c ∈ ".<[|)];,\x7d".toList := List.contains_iff_mem.1 hmark
    have hnone : ".<[|)];,\x7d".toList.all (!Text.isWord ·) = true := by decide
    simpa [hword] using List.all_eq_true.1 hnone c hmark
  · rfl

theorem worded_link (l : Link) : Worded l.text := by
  have hword {w : List Char} (hw : Piece Text.isWord w) : Worded w := fun c hc => .inl (hw.2 c hc)
  simp only [Worded, Link.text, List.forall_mem_cons, List.forall_mem_append]
  exact ⟨.inr True.intro, hword l.keyword.piece, .inr True.intro, hword l.type.piece⟩

theorem worded_chain (x : Identifier) (links : List Link) : Worded (chain x links) := by
  refine List.forall_mem_append.2 ⟨fun c hc => .inl (x.piece.2 c hc), fun c hc => ?_⟩
  obtain ⟨l, -, hc⟩ := List.mem_flatMap.1 hc
  exact worded_link l c hc

/-- A chain ends within a word. -/
theorem exists_last_chain (x : Identifier) (links : List Link) :
    ∃ v c, chain x links = v ++ [c] ∧ Text.isWord c = true := by
  have hlast {w : List Char} (hw : Piece Text.isWord w) (u : List Char) :
      ∃ v c, u ++ w = v ++ [c] ∧ Text.isWord c = true := by
    obtain ⟨v, c, rfl⟩ := (List.eq_nil_or_concat w).resolve_left hw.1
    exact ⟨u ++ v, c, by simp, hw.2 c (by simp)⟩
  rcases List.eq_nil_or_concat links with rfl | ⟨links, l, rfl⟩
  · simpa [chain] using hlast x.piece []
  · rw [List.concat_eq_append, chain_concat]
    simpa using hlast l.type.piece (chain x links ++ ' ' :: (l.keyword.text ++ [' ']))

/-- A last character can be told from what stands before it. -/
theorem cut_last {a b : List Char} {m z : Char} (hm : m ∉ b) (h : a ++ m :: r = b ++ [z]) : a = b ∧ m = z ∧ r = [] := by
  rcases List.eq_nil_or_concat r with rfl | ⟨r, y, rfl⟩
  · obtain ⟨hab, hmz⟩ := List.append_inj' h rfl
    exact ⟨hab, (List.cons.inj hmz).1, rfl⟩
  · rw [List.concat_eq_append, ← List.cons_append, ← List.append_assoc] at h
    obtain ⟨hb, -⟩ := List.append_inj' h rfl
    exact absurd (by rw [← hb]; simp) hm

/-- In a text of words, an assertion goes on to the mark behind them, with nothing but a name for its type. -/
theorem typeAssertion_worded (hs : Worded s) (h : typeAssertion.Reads ⟨prev, s ++ [';'], []⟩ d) :
    ∃ c g, ∃ k : Keyword, ∃ g' t w, s = c :: (g ++ (k.text ++ (g' ++ (t ++ w)))) ∧ Text.isSpace c = false ∧
      (Blank g ∧ g ≠ []) ∧ (Blank g' ∧ g' ≠ []) ∧ Piece (!Text.isSpace ·) t ∧ Blank w ∧ d.rest = [] ∧
      ∀ pos, assertionRule.replacement ⟨pos, s ++ [';'], d⟩ = c :: (w ++ [';']) := by
  obtain ⟨c, g, k, g', t, more, w, m, hread, hc, hg, hg', ht, hmore, hw, hm, hreplace⟩ := typeAssertion_sound h
  have hsplit : (c :: (g ++ (k.text ++ (g' ++ (t ++ (more ++ w)))))) ++ m :: d.rest = s ++ [';'] := by
    simpa using hread.symm
  have hmark : m ∉ s := fun hmem => by
    have hno := hs.not_among hmem
    simp_all [among]
  obtain ⟨htext, rfl, hrest⟩ := cut_last hmark hsplit
  obtain rfl : more = [] := hmore.resolve_right fun hany => by
    obtain ⟨y, hy, hdot⟩ := List.any_eq_true.1 hany
    have hno := hs.not_among (c := y) (by rw [← htext]; simp [hy])
    simp_all [among]
  exact ⟨c, g, k, g', t, w, htext.symm, hc, hg, hg', ht, hw, hrest, hreplace⟩

/-- In a text of words that the mark of a statement ends, an assertion is the last two words. -/
theorem typeAssertion_last (hv : Worded v) (hlast : ∀ c ∈ v.getLast?, Text.isSpace c = false)
    (h : typeAssertion.Reads ⟨prev, v ++ (l.text ++ [';']), []⟩ d) :
    ∃ c, v = [c] ∧ d.rest = [] ∧ ∀ pos, assertionRule.replacement ⟨pos, v ++ (l.text ++ [';']), d⟩ = [c, ';'] := by
  rw [← List.append_assoc] at h ⊢
  obtain ⟨c, g, k, g', t, w, htext, hc, hg, hg', ht, hw, hrest, hreplace⟩ :=
    typeAssertion_worded (List.forall_mem_append.2 ⟨hv, worded_link l⟩) h
  -- From the end on, the words and what stands between them are the same.
  have hreverse := congrArg List.reverse htext.symm
  simp only [Link.text, List.reverse_append, List.reverse_cons, List.append_assoc] at hreverse
  have hspaced {g : List Char} (hg : Blank g ∧ g ≠ []) (r : List Char) :
      ∀ c ∈ (g.reverse ++ r).head?, (!Text.isSpace c) = false := fun c hc => by
    simp [isSpace_head (fun c hc => hg.1 c (List.mem_reverse.1 hc)) (by simpa using hg.2) r c hc]
  have hblank {g : List Char} (hg : Blank g) : ∀ c ∈ g.reverse, (!Text.isSpace c) = false := fun c hc => by
    simp [hg c (List.mem_reverse.1 hc)]
  have hspace : Blank [' '] ∧ [' '] ≠ [] := ⟨List.forall_mem_singleton.2 rfl, List.cons_ne_nil _ _⟩
  obtain ⟨hw, -, hbehind⟩ := cut_piece (hblank hw) (List.forall_mem_nil _) ht.reverse
    l.type.piece.solid.reverse (hspaced hg' _) (hspaced hspace _) (hreverse.trans (List.nil_append _).symm)
  obtain ⟨-, -, hbehind⟩ := cut_piece (hblank hg'.1) (hblank hspace.1) k.piece.solid.reverse
    l.keyword.piece.solid.reverse (hspaced hg _) (hspaced hspace _) hbehind
  obtain ⟨-, hvalue⟩ := Node.cut_unique (!Text.isSpace ·) (hblank hg.1) (hblank hspace.1) (by simpa using hc)
    (by simpa [List.head?_reverse] using hlast) hbehind
  obtain rfl : w = [] := by simpa using hw
  refine ⟨c, ?_, hrest, fun pos => ?_⟩
  · rw [← List.reverse_reverse v, ← hvalue]
    rfl
  · simpa using hreplace pos

theorem canRead_name (x : Identifier) : name.CanRead x.text := by
  obtain ⟨c, r, hx, hdigit⟩ := x.start
  obtain ⟨hc, hr⟩ := List.forall_mem_cons.1 (hx ▸ x.plain)
  have hstart : Text.isNameStart c = true := by
    simp [Text.isPlainName, hdigit] at hc
    simp [Text.isNameStart, hc]
  rw [hx]
  exact (CanRead.one hstart).seq (.many fun c hc => by simp [Text.isNameChar, isWord_of_isPlainName (hr c hc)])

/-- The last link of a chain is matched from the end of what it stands behind. -/
theorem exists_hits_link (hc : Text.isWord c = true) (prev : Option Char) (l : Link) :
    ∃ e, typeAssertion.Hits prev (c :: (l.text ++ [';'])) e := by
  have hvalue (r : List Char) : (Pattern.group 1 (.one fun c => Text.isNameChar c || among ")]\x7d" c)).Reads
      ⟨prev, c :: r, []⟩ ⟨some c, r, [(1, c :: r, r)]⟩ := .group (.one (by simp [Text.isNameChar, hc]))
  have hmark : (blanks ++ .one (among ")];,\x7d")).CanRead [';'] :=
    (CanRead.many (List.forall_mem_nil _)).seq (.one (by decide))
  have htext : l.text ++ [';'] = [' '] ++ (l.keyword.text ++ ([' '] ++ (l.type.text ++ ([';'] ++ [])))) := by
    simp [Link.text]
  rw [htext]
  -- Nothing is read between the name of the type and the mark.
  have hwords := Reads.seq (.seq (.seq (.seq (hvalue _) (canRead_gap _ _ _)) (canRead_words_keyword l.keyword _ _ _))
    (canRead_gap _ _ _)) (canRead_name l.type _ ([';'] ++ []) _)
  have hread : typeAssertion.Reads _ _ :=
    .seq (.seq (.seq (.seq (.seq hwords .starNone) (.right .empty)) .starNone) .starNone) (.group (hmark _ _ _))
  exact exists_hits_of_productive hread rfl fun d hd => hd.length_lt rfl

/-- A round takes the last link of a chain. -/
theorem dropAssertions_chain (x : Identifier) (links : List Link) (l : Link) :
    dropAssertions (chain x (links ++ [l]) ++ [';']) = chain x links ++ [';'] := by
  obtain ⟨v, c, hchain, hc⟩ := exists_last_chain x links
  have hworded := hchain ▸ worded_chain x links
  have hlast (b : List Char) : ∀ y ∈ (b ++ [c]).getLast?, Text.isSpace y = false := by
    simpa using isSpace_eq_false_of_isWord hc
  obtain ⟨e, he⟩ := exists_hits_link hc (lastOf none v) l
  obtain ⟨_, hone, hrest, hreplace⟩ := typeAssertion_last (v := [c]) (fun y hy => hworded y (by simp_all)) (hlast [])
    (endFrom_reads he.1)
  obtain ⟨rfl, -⟩ := List.cons.inj hone
  have hmisses : typeAssertion.Misses (c :: (l.text ++ [';'])) none v := by
    refine misses_of_not_reads fun a b e hv hb hread => ?_
    rw [← List.singleton_append, ← List.append_assoc] at hread
    obtain ⟨y, hy, -⟩ := typeAssertion_last (v := b ++ [c])
      (fun y hy => hworded y (by rw [hv, List.append_assoc]; exact List.mem_append_right a hy)) (hlast b) hread
    exact hb (by simpa using congrArg List.length hy)
  have htext : chain x (links ++ [l]) ++ [';'] = v ++ (c :: (l.text ++ [';'])) := by
    rw [chain_concat, hchain, Link.text]
    simp
  rw [dropAssertions_eq, htext, Rule.rewrite, replaceAll, show assertionRule.pattern = typeAssertion from rfl,
    hmisses.replaceFrom, replaceFrom_of_hits he, hrest, replaceFrom_empty, hchain]
  have hkept := hreplace 0
  rw [List.singleton_append] at hkept
  rw [hkept]
  simp

theorem every_spaced_typeAssertion : typeAssertion.Every (·.any Text.isSpace = true) := by
  have hgap : gap.Every (·.any Text.isSpace = true) := every_gap.mono fun g ⟨hblank, hne⟩ => by
    obtain ⟨c, g, rfl⟩ := List.exists_cons_of_ne_nil hne
    simp [hblank c List.mem_cons_self]
  unfold typeAssertion
  repeat' first | exact every_any_right _ hgap | apply every_any_left

/-- The rounds take all links, the last one first. -/
theorem dropAssertionChains_chain (x : Identifier) (links : List Link) :
    dropAssertionChains (chain x links ++ [';']) = x.text ++ [';'] := by
  induction links using List.reverseRecOn with
  | nil =>
    have hchain : chain x [] ++ [';'] = x.text ++ [';'] := by simp [chain]
    rw [hchain]
    refine dropAssertionChains_of_not_occurs fun hocc => hocc (findAll_eq_nil_of_every every_spaced_typeAssertion ?_)
    exact List.forall_mem_append.2 ⟨fun c hc => isSpace_eq_false_of_isWord (x.piece.2 c hc),
      List.forall_mem_singleton.2 rfl⟩
  | append_singleton links l ih =>
    have hshorter : (chain x links ++ [';']).length < (chain x (links ++ [l]) ++ [';']).length := by
      simp only [chain_concat, List.length_append, List.length_cons]
      omega
    rw [dropAssertionChains, dropAssertions_chain, if_pos hshorter, ih]

/-- **Assertions are stripped to the end.** For every text the rounds stop: each shortens the text, a further one would
not change it, and at no place of what is left is there a way to match an assertion. Of a value with a chain of
assertions, whatever types they name and whichever keywords they use, the value is left. -/
theorem stripTypeAssertions_unwinds :
    (∀ s, ∃ n, (∀ k < n, (dropAssertions^[k + 1] s).length < (dropAssertions^[k] s).length) ∧
      dropAssertions (dropAssertions^[n] s) = dropAssertions^[n] s ∧
      dropAssertionChains s = dropAssertions^[n] s ∧
      ∀ l r e, dropAssertionChains s = l ++ r → ¬ typeAssertion.Reads ⟨lastOf none l, r, []⟩ e) ∧
    ∀ (x : Identifier) (links : List Link), stripTypeAssertions (chain x links ++ [';']) = x.text ++ [';'] := by
  refine ⟨fun s => ?_, fun x links => ?_⟩
  · obtain ⟨n, hshorter, hend, hno⟩ := dropAssertionChains_iterate s
    have hnone := Classical.not_not.1 hno
    refine ⟨n, hshorter, ?_, hend, fun l r e hs => not_reads_of_findAll rfl rfl hnone hs⟩
    rw [← hend]
    exact replaceAll_eq_self hnone
  · have hmark : nonNullAssertion.Every (·.any (· == '!') = true) :=
      every_any_left (every_any_right _ (every_any_lit (by decide))) _
    rw [stripTypeAssertions, removeAll_constAssertion, dropAssertionChains_chain]
    have hnone : ∀ c ∈ x.text, (c == '!') = false := fun c hc => beq_false_of_ne fun he => by
      have hword := x.piece.2 c hc
      rw [he] at hword
      cases hword
    exact replaceAll_eq_self (findAll_eq_nil_of_every hmark
      (List.forall_mem_append.2 ⟨hnone, List.forall_mem_singleton.2 rfl⟩))

def valueName : Identifier := ⟨"value".toList, List.all_eq_true.1 (by decide), 'v', "alue".toList, rfl, rfl⟩

def unknownName : Identifier := ⟨"unknown".toList, List.all_eq_true.1 (by decide), 'u', "nknown".toList, rfl, rfl⟩

def constName : Identifier := ⟨"const".toList, List.all_eq_true.1 (by decide), 'c', "onst".toList, rfl, rfl⟩

/-- Both words, and a type that is a word of its own to the language. -/
def mixedLinks : List Link :=
  [⟨.as, unknownName, by intro k; cases k <;> decide⟩, ⟨.satisfies, constName, by intro k; cases k <;> decide⟩]

example : stripTypeAssertions (chain valueName mixedLinks ++ [';']) = "value;".toList := by decide +kernel

end LivePreview.Source
