import Mathlib.Data.List.TakeWhile
import LivePreview.Proofs.Markup.Unique
import LivePreview.Proofs.Pattern.Search
import LivePreview.Proofs.Source.ListCut

/-! Type arguments of hooks, at any nesting.

A list of type arguments is a text whose angle brackets balance (`Angled`). The scan that looks for its end comes
through all of it, whatever is nested in it, unless it meets a semicolon. So a hook loses its type arguments just
when they hold none, and all else stays. -/
namespace LivePreview.Source
open Pattern

variable {a u r g rest before gap : List Char} {w : String} {prev : Option Char} {pos : Nat}

/-! ### The end of type arguments -/

/-- Texts whose angle brackets balance. An arrow is no bracket; an equals sign at the end is left out, since it would
make an arrow of a bracket behind the text. -/
inductive Angled : List Char → Prop
  | nil : Angled []
  | arrow {r : List Char} (hr : Angled r) : Angled ('=' :: '>' :: r)
  | char {c : Char} {r : List Char} (hbracket : c ≠ '<' ∧ c ≠ '>') (harrow : c = '=' → r ≠ [] ∧ r.head? ≠ some '>')
      (hr : Angled r) : Angled (c :: r)
  | nest {a r : List Char} (ha : Angled a) (hr : Angled r) : Angled ('<' :: (a ++ '>' :: r))

theorem Angled.of_plain (h : a.all (fun c => c != '<' && c != '>' && c != '=') = true) : Angled a := by
  induction a with
  | nil => exact .nil
  | cons c r ih =>
    obtain ⟨hc, hr⟩ := Bool.and_eq_true_iff.1 h
    simp only [Bool.and_eq_true, bne_iff_ne] at hc
    exact .char hc.1 (fun hequals => absurd hequals hc.2) (ih hr)

theorem Angled.append (ha : Angled a) (hr : Angled r) : Angled (a ++ r) := by
  induction ha with
  | nil => exact hr
  | arrow _ ih => exact .arrow ih
  | @char c s hbracket harrow _ ih =>
    refine .char hbracket (fun hc => ?_) ih
    obtain ⟨hne, hhead⟩ := harrow hc
    obtain ⟨d, t, rfl⟩ := List.exists_cons_of_ne_nil hne
    exact ⟨List.cons_ne_nil d _, hhead⟩
  | nest hs _ _ ih =>
    rw [List.cons_append, List.append_assoc]
    exact .nest hs ih

/-- The scan comes through balanced brackets to the bracket behind them. -/
theorem typeArgumentsAfter_angled (h : Angled a) (prev : Char) (hprev : a = [] → prev ≠ '=') (depth : Nat)
    (r : List Char) :
    typeArgumentsAfter prev (depth + 1) (a ++ '>' :: r) =
      if ';' ∈ a then none
      else if depth = 0 then some (a.length + 1)
      else (typeArgumentsAfter '>' depth r).map (· + (a.length + 1)) := by
  induction h generalizing prev depth r with
  | nil => simp [typeArgumentsAfter, hprev]
  | @arrow s _ ih =>
    have hrest := ih '>' (fun _ => by decide) depth r
    simp only [List.cons_append, typeArgumentsAfter, hrest]
    by_cases hsemi : ';' ∈ s <;> by_cases hdepth : depth = 0 <;> simp [hsemi, hdepth, Function.comp_def, Nat.add_assoc]
  | @char c s hbracket harrow _ ih =>
    have hrest := ih c (fun hs hc => (harrow hc).1 hs) depth r
    rw [List.cons_append, typeArgumentsAfter, hrest]
    by_cases hc : c = ';'
    · simp [hc]
    · by_cases hsemi : ';' ∈ s <;> by_cases hdepth : depth = 0 <;>
        simp [hbracket, hc, Ne.symm hc, hsemi, hdepth, Function.comp_def, Nat.add_assoc]
  | @nest a s _ _ iha ihs =>
    have hinner := iha '<' (fun _ => by decide) (depth + 1) (s ++ '>' :: r)
    have hrest := ihs '>' (fun _ => by decide) depth r
    simp only [List.cons_append, List.append_assoc, typeArgumentsAfter, beq_self_eq_true, if_true, hinner, hrest]
    by_cases hin : ';' ∈ a <;> by_cases hsemi : ';' ∈ s <;> by_cases hdepth : depth = 0 <;>
      simp [hin, hsemi, hdepth, Function.comp_def, Nat.add_comm, Nat.add_left_comm]

theorem typeArgumentsEnd?_angled (h : Angled a) (u r : List Char) :
    typeArgumentsEnd? (u ++ '<' :: (a ++ '>' :: r)) u.length =
      if ';' ∈ a then none else some (u.length + (a.length + 2)) := by
  rw [typeArgumentsEnd?, List.drop_left]
  simp only [typeArgumentsAfter_angled h '<' (fun _ => by decide) 0 r]
  by_cases hsemi : ';' ∈ a <;> simp [hsemi]
  omega

/-! ### White space at the end -/

theorem trimEnd_blank (hg : Blank g) : Text.trimEnd g = [] := by
  rw [Text.trimEnd, List.dropWhile_eq_nil_iff.2 fun c hc => hg c (List.mem_reverse.1 hc), List.reverse_nil]

/-- Nothing is trimmed off a text that ends with no white space. -/
theorem trimEnd_append (h : ∀ x ∈ u.getLast?, Text.isSpace x = false) (r : List Char) :
    Text.trimEnd (u ++ r) = u ++ Text.trimEnd r := by
  have hu : u.reverse.dropWhile Text.isSpace = u.reverse := by
    cases hrev : u.reverse with
    | nil => rfl
    | cons x t =>
      have hx : Text.isSpace x = false := h x (by rw [← List.head?_reverse, hrev]; rfl)
      rw [List.dropWhile_cons_of_neg (by simp [hx])]
  rw [Text.trimEnd, Text.trimEnd, List.reverse_append, List.dropWhile_append]
  split
  case isTrue hr => rw [hu, List.reverse_reverse, List.isEmpty_iff.1 hr, List.reverse_nil, List.append_nil]
  case isFalse => rw [List.reverse_append, List.reverse_reverse]

theorem trimEnd_append_blank (h : ∀ x ∈ u.getLast?, Text.isSpace x = false) (hg : Blank g) :
    Text.trimEnd (u ++ g) = u := by rw [trimEnd_append h, trimEnd_blank hg, List.append_nil]

/-! ### Where a hook has type arguments -/

theorem isWord_of_mem_hookName {w : String} (hw : w ∈ hookNames) {c : Char} (hc : c ∈ w.toList) :
    Text.isWord c = true := by
  have h : hookNames.all (·.toList.all Text.isWord) = true := by decide
  exact List.all_eq_true.1 (List.all_eq_true.1 h w hw) c hc

theorem isSpace_eq_false_of_isWord {c : Char} (h : Text.isWord c = true) : Text.isSpace c = false :=
  Bool.eq_false_iff.2 fun hspace => by
    rw [not_isWord_of_isSpace hspace] at h
    cases h

theorem solid_last {w : String} (hw : w ∈ hookNames) : ∀ x ∈ w.toList.getLast?, Text.isSpace x = false := fun _ hx =>
  isSpace_eq_false_of_isWord (isWord_of_mem_hookName hw (List.mem_of_mem_getLast? hx))

/-- No name is the end of a longer one. -/
theorem eq_of_hookName_suffix {v w : String} (hv : v ∈ hookNames) (hw : w ∈ hookNames) (h : v.toList <:+ w.toList) :
    v.toList = w.toList := by
  have hnames : hookNames.all (fun v => hookNames.all fun w => !v.toList.isSuffixOf w.toList || v.toList == w.toList) =
      true := by decide
  have hboth := List.all_eq_true.1 (List.all_eq_true.1 hnames v hv) w hw
  rw [List.isSuffixOf_iff_suffix.2 h] at hboth
  exact beq_iff_eq.1 hboth

theorem hookName_cons {w : String} (hw : w ∈ hookNames) : ∃ c r, w.toList = c :: r := by
  have hnames : hookNames.all (fun w => !w.toList.isEmpty) = true := by decide
  have hne := List.all_eq_true.1 hnames w hw
  cases hlist : w.toList with
  | nil => simp [hlist] at hne
  | cons c r => exact ⟨c, r, rfl⟩

theorem canRead_words {ws : List String} {w : String} (hw : w ∈ ws) : CanRead (words ws) w.toList := by
  induction ws with
  | nil => cases hw
  | cons v ws ih =>
    cases ws with
    | nil =>
      rw [List.mem_singleton.1 hw]
      exact .lit v
    | cons v' ws =>
      rcases List.mem_cons.1 hw with rfl | hw
      · exact .left (.lit w)
      · exact .right (ih hw)

theorem ne_bracket {w : String} (hw : w ∈ hookNames) (hg : Blank g) : ∀ c ∈ w.toList ++ g, (c == '<') = false := by
  intro c hc
  refine beq_false_of_ne ?_
  rintro rfl
  rcases List.mem_append.1 hc with hc | hc
  · cases isWord_of_mem_hookName hw hc
  · cases hg '<' hc

theorem solid_last_append (hw : w ∈ hookNames) : ∀ x ∈ (u ++ w.toList).getLast?, Text.isSpace x = false := by
  obtain ⟨x, t, hx⟩ := hookName_cons hw
  have hlast := solid_last hw
  rw [hx] at hlast ⊢
  rwa [List.getLast?_append, List.getLast?_cons, Option.some_or, ← List.getLast?_cons]

/-- The place begins a word that is the name of a hook, with a bracket behind it. -/
structure AtHook (prev : Option Char) (rest : List Char) (w : String) (g r : List Char) : Prop where
  edge : prev.any Text.isWord = false
  name : w ∈ hookNames
  blank : Blank g
  text : rest = w.toList ++ (g ++ '<' :: r)

theorem AtHook.first (h : AtHook prev rest w g r) : ∃ x t, rest = x :: t ∧ Text.isWord x = true := by
  obtain ⟨x, t, hx⟩ := hookName_cons h.name
  exact ⟨x, t ++ (g ++ '<' :: r), by rw [h.text, hx]; rfl, isWord_of_mem_hookName h.name (hx ▸ List.mem_cons_self)⟩

theorem atHook_of_reads {c d : Cursor} (h : hookGenerics.Reads c d) : ∃ w g, AtHook c.prev c.rest w g d.rest := by
  cases h with
  | seq h hbracket =>
    cases h with
    | seq h hgap =>
      cases h with
      | seq hedge hword =>
        cases hedge with
        | «at» hedge =>
          obtain ⟨l, hl, w, hw, rfl⟩ := every_words (by decide) _ _ hword
          obtain ⟨g, hg, hblank⟩ := every_blank_spaces _ _ hgap
          obtain ⟨b, hb, rfl⟩ := Every.lit "<" _ _ hbracket
          have hrest : c.rest = w.toList ++ (g ++ '<' :: d.rest) := by
            rw [hl, hg, hb]
            rfl
          refine ⟨w, g, ?_, hw, hblank, hrest⟩
          obtain ⟨x, t, hx⟩ := hookName_cons hw
          have hword := isWord_of_mem_hookName hw (hx ▸ List.mem_cons_self)
          rw [hrest, hx] at hedge
          simpa [Edge.holds, hword] using hedge

/-- A name at the start of a word with a bracket behind it is a match, which ends behind the bracket. -/
theorem hits_hookGenerics_iff {c : Cursor} :
    hookGenerics.Hits prev rest c ↔ (∃ w g, AtHook prev rest w g c.rest) ∧ c = ⟨some '<', c.rest, []⟩ := by
  have hforward {e : Cursor} (he : hookGenerics.Hits prev rest e) :
      (∃ w g, AtHook prev rest w g e.rest) ∧ e = ⟨some '<', e.rest, []⟩ := by
    have hreads := endFrom_reads he.1
    obtain ⟨w, g, h⟩ := atHook_of_reads hreads
    obtain ⟨l, hl, hlast⟩ := hreads.lastOf
    have hgroups := hreads.groups_eq (by decide)
    have hl : l = w.toList ++ (g ++ ['<']) := by
      have htext : rest = w.toList ++ (g ++ '<' :: e.rest) := h.text
      refine List.append_cancel_right (hl.symm.trans (?_ : rest = w.toList ++ (g ++ ['<']) ++ e.rest))
      simp only [htext, List.append_assoc, List.singleton_append]
    refine ⟨⟨w, g, h⟩, ?_⟩
    cases e
    simp_all [lastOf_append, lastOf]
  refine ⟨hforward, ?_⟩
  rintro ⟨⟨w, g, h⟩, hc⟩
  obtain ⟨x, t, hx, hword⟩ := h.first
  have hedge : Edge.wordEdge.holds prev rest = true := by simp [Edge.holds, h.edge, hx, hword]
  rw [h.text] at hedge
  have hreads : hookGenerics.Reads ⟨prev, w.toList ++ (g ++ '<' :: c.rest), []⟩ ⟨_, c.rest, []⟩ :=
    .seq (.seq (.seq (.at hedge) (canRead_words h.name _ _ _)) (CanRead.many h.blank _ _ _)) (CanRead.lit "<" _ _ _)
  obtain ⟨e, he⟩ := exists_hits hreads rfl fun d hd => by
    obtain ⟨v, k, hk⟩ := atHook_of_reads hd
    have hlength := congrArg List.length hk.text
    simp only [List.length_append, List.length_cons] at hlength ⊢
    omega
  rw [← h.text] at he
  obtain ⟨⟨v, k, hk⟩, heq⟩ := hforward he
  -- Both end behind the first bracket.
  have hsplit : (w.toList ++ g) ++ '<' :: c.rest = (v.toList ++ k) ++ '<' :: e.rest := by
    rw [List.append_assoc, List.append_assoc, ← h.text, ← hk.text]
  obtain ⟨-, hrest⟩ := Node.cut_unique (· == '<') (ne_bracket h.name h.blank) (ne_bracket hk.name hk.blank) (by simp)
    (by simp) hsplit
  obtain rfl : c = e := by rw [hc, heq, (List.cons.inj hrest).2]
  exact he

/-! ### Where no hook has type arguments -/

/-- No word begins before a character of the text. -/
def Wordless (prev : Option Char) : List Char → Prop
  | [] => True
  | x :: l => (Text.isWord x = true → prev.any Text.isWord = true) ∧ Wordless (some x) l

theorem Wordless.append {l k : List Char} (hl : Wordless prev l) (hk : Wordless (lastOf prev l) k) :
    Wordless prev (l ++ k) := by
  induction l generalizing prev with
  | nil => exact hk
  | cons x l ih => exact ⟨hl.1, ih hl.2 hk⟩

theorem Wordless.of_forall {l : List Char} (h : ∀ x ∈ l, Text.isWord x = false) : Wordless prev l := by
  induction l generalizing prev with
  | nil => exact True.intro
  | cons x l ih =>
    obtain ⟨hx, hl⟩ := List.forall_mem_cons.1 h
    exact ⟨fun hword => (Bool.false_ne_true (hx.symm.trans hword)).elim, ih hl⟩

/-- In a word that goes on no word begins. -/
theorem Wordless.of_word {l : List Char} (hprev : prev.any Text.isWord = true) (h : ∀ x ∈ l, Text.isWord x = true) :
    Wordless prev l := by
  induction l generalizing prev with
  | nil => exact True.intro
  | cons x l ih =>
    obtain ⟨hx, hl⟩ := List.forall_mem_cons.1 h
    exact ⟨fun _ => hprev, ih hx hl⟩

theorem Wordless.misses {l : List Char} (h : Wordless prev l) : Misses hookGenerics r prev l := by
  induction l generalizing prev with
  | nil => exact True.intro
  | cons x l ih =>
    refine ⟨fun ⟨c, hc⟩ => ?_, ih h.2⟩
    obtain ⟨⟨w, g, hhook⟩, -⟩ := hits_hookGenerics_iff.1 hc
    obtain ⟨y, t, hy, hword⟩ := hhook.first
    obtain rfl := (List.cons.inj hy).1
    cases hhook.edge.symm.trans (h.1 hword)

theorem not_isWord_of_blank (hg : Blank g) : ∀ x ∈ g, Text.isWord x = false := fun x hx =>
  not_isWord_of_isSpace (hg x hx)

/-- A hook that begins before the name of another has its bracket before it, too. -/
theorem AtHook.of_append {k t : List Char} {n : String} (h : AtHook prev (u ++ (w.toList ++ (g ++ '<' :: r))) n k t)
    (hu : u ≠ []) (hw : w ∈ hookNames) (hg : Blank g) : ∃ t, AtHook prev u n k t := by
  by_cases hin : '<' ∈ u
  · obtain ⟨a, b, rfl, ha⟩ := List.eq_append_cons_of_mem hin
    have hsplit : a ++ '<' :: (b ++ (w.toList ++ (g ++ '<' :: r))) = (n.toList ++ k) ++ '<' :: t := by
      simpa using h.text
    obtain ⟨rfl, -⟩ := Node.cut_unique (· == '<') (fun c hc => beq_false_of_ne fun heq => ha (heq ▸ hc))
      (ne_bracket h.name h.blank) (by simp) (by simp) hsplit
    exact ⟨b, h.edge, h.name, h.blank, List.append_assoc ..⟩
  · have hsplit : (u ++ (w.toList ++ g)) ++ '<' :: r = (n.toList ++ k) ++ '<' :: t := by simpa using h.text
    obtain ⟨hsame, -⟩ := Node.cut_unique (· == '<')
      (fun c hc => (List.mem_append.1 hc).elim (fun hc => beq_false_of_ne fun heq => hin (heq ▸ hc))
        (ne_bracket hw hg c))
      (ne_bracket h.name h.blank) (by simp) (by simp) hsplit
    -- Without the white space behind them the one name ends the other.
    have hname : u ++ w.toList = n.toList := by
      have htrim := congrArg Text.trimEnd hsame
      rwa [← List.append_assoc, trimEnd_append_blank (solid_last_append hw) hg,
        trimEnd_append_blank (solid_last h.name) h.blank] at htrim
    have hlength := congrArg List.length hname
    rw [eq_of_hookName_suffix hw h.name ⟨u, hname⟩, List.length_append] at hlength
    exact absurd (List.length_eq_zero_iff.1 (by omega)) hu

/-- Before a hook is found what is found without it. -/
theorem misses_before (h : hookGenerics.findAllFrom pos prev before = []) (hw : w ∈ hookNames) (hg : Blank g)
    (r : List Char) : Misses hookGenerics (w.toList ++ (g ++ '<' :: r)) prev before := by
  induction before generalizing pos prev with
  | nil => exact True.intro
  | cons x l ih =>
    have hno : ¬ ∃ c, hookGenerics.Hits prev (x :: l) c := fun ⟨c, hc⟩ => by
      rw [findAllFrom_of_hits hc] at h
      cases h
    rw [findAllFrom_cons hno] at h
    refine ⟨fun ⟨c, hc⟩ => ?_, ih h⟩
    obtain ⟨⟨n, k, hhook⟩, -⟩ := hits_hookGenerics_iff.1 hc
    obtain ⟨t, ht⟩ := hhook.of_append (List.cons_ne_nil x l) hw hg
    exact hno ⟨⟨some '<', t, []⟩, hits_hookGenerics_iff.2 ⟨⟨n, k, ht⟩, rfl⟩⟩

/-! ### Type arguments behind a text -/

theorem typeArgumentsEnd?_append (u r : List Char) (n : Nat) :
    typeArgumentsEnd? (u ++ r) (u.length + n) = (typeArgumentsEnd? r n).map (u.length + ·) := by
  have hdrop : (u ++ r).drop (u.length + n) = r.drop n := List.drop_length_add_append n
  rw [typeArgumentsEnd?, typeArgumentsEnd?, hdrop]
  split
  · rw [Option.map_map]
    refine congrArg (Option.map · _) (funext fun k => ?_)
    simp [Nat.add_assoc]
  · rfl

theorem typeArgumentsOf?_append (u r : List Char) {m : Match} (hm : 0 < m.stop) :
    typeArgumentsOf? (u ++ r) (m.shift u.length) = (typeArgumentsOf? r m).map (u.length + ·) := by
  have hstop : (m.shift u.length).stop - 1 = u.length + (m.stop - 1) := by
    rw [Match.stop_shift]
    omega
  have hdrop (n : Nat) : (u ++ r).drop (u.length + n) = r.drop n := List.drop_length_add_append n
  rw [typeArgumentsOf?, typeArgumentsOf?, hstop, typeArgumentsEnd?_append, Option.filter_map]
  simp [Function.comp_def, hdrop]

theorem dropTypeArguments_append (hu : ∀ x ∈ u.getLast?, Text.isSpace x = false) {ms : List Match}
    (hms : ∀ m ∈ ms, 0 < m.stop) (pos : Nat) :
    dropTypeArguments (u ++ r) (u.length + pos) (ms.map (Match.shift u.length)) = dropTypeArguments r pos ms := by
  induction ms generalizing pos with
  | nil => exact List.drop_length_add_append pos
  | cons m ms ih =>
    obtain ⟨hm, hms⟩ := List.forall_mem_cons.1 hms
    have htake : (u ++ r).take ((m.shift u.length).stop - 1) = u ++ r.take (m.stop - 1) := by
      rw [Match.stop_shift, Nat.add_sub_assoc hm, List.take_length_add_append]
    rw [List.map_cons, dropTypeArguments_cons, dropTypeArguments_cons, typeArgumentsOf?_append u r hm, htake,
      trimEnd_append hu, List.drop_length_add_append]
    cases typeArgumentsOf? r m with
    | none => exact ih hms pos
    | some stop => simp only [Option.map_some, Match.start_shift, Nat.add_lt_add_iff_left, ih hms]

/-- What stands before all hooks stays. -/
theorem dropTypeArguments_behind (hu : ∀ x ∈ u.getLast?, Text.isSpace x = false) {ms : List Match}
    (hms : ∀ m ∈ ms, 0 < m.stop) (hpos : pos ≤ u.length) :
    dropTypeArguments (u ++ r) pos (ms.map (Match.shift u.length)) = u.drop pos ++ dropTypeArguments r 0 ms := by
  induction ms with
  | nil => exact List.drop_append_of_le_length hpos
  | cons m ms ih =>
    obtain ⟨hm, hms'⟩ := List.forall_mem_cons.1 hms
    have htake : (u ++ r).take ((m.shift u.length).stop - 1) = u ++ r.take (m.stop - 1) := by
      rw [Match.stop_shift, Nat.add_sub_assoc hm, List.take_length_add_append]
    have hstart : ¬ u.length + m.start < pos := by omega
    rw [List.map_cons, dropTypeArguments_cons, dropTypeArguments_cons, typeArgumentsOf?_append u r hm, htake,
      trimEnd_append hu, List.drop_append_of_le_length hpos]
    cases typeArgumentsOf? r m with
    | none => exact ih hms'
    | some stop =>
      simp only [Option.map_some, Match.start_shift, hstart, Nat.not_lt_zero, if_false,
        dropTypeArguments_append hu hms', List.append_assoc, List.drop_zero]

/-- A hook inside type arguments that are taken out is passed over. -/
theorem dropTypeArguments_inside {s : List Char} {ms : List Match} (h : ∀ m ∈ ms, m.start < pos) (ks : List Match) :
    dropTypeArguments s pos (ms ++ ks) = dropTypeArguments s pos ks := by
  induction ms with
  | nil => rfl
  | cons m ms ih =>
    obtain ⟨hm, hms⟩ := List.forall_mem_cons.1 h
    rw [List.cons_append, dropTypeArguments, if_pos hm, ih hms]

/-! ### Hooks with type arguments -/

theorem stop_pos_of_mem {m : Match} (h : m ∈ hookGenerics.findAllFrom 0 prev rest) : 0 < m.stop := by
  obtain ⟨-, _, hc⟩ := hits_of_mem_findAllFrom h (t := rest) rfl
  exact Nat.lt_of_lt_of_le (Nat.sub_pos_of_lt hc.2) (Nat.le_add_left _ _)

theorem AtHook.of_any_eq {k t : List Char} (h : AtHook prev rest w k t) {prev' : Option Char}
    (hprev : prev'.any Text.isWord = prev.any Text.isWord) : AtHook prev' rest w k t :=
  ⟨hprev.trans h.edge, h.name, h.blank, h.text⟩

/-- Of what stands before it a hook needs to know only whether a word goes on. -/
theorem findAllFrom_hookGenerics_congr {prev prev' : Option Char} (h : prev.any Text.isWord = prev'.any Text.isWord)
    (pos : Nat) (rest : List Char) :
    hookGenerics.findAllFrom pos prev rest = hookGenerics.findAllFrom pos prev' rest := by
  have hsame (c : Cursor) : hookGenerics.Hits prev rest c ↔ hookGenerics.Hits prev' rest c := by
    rw [hits_hookGenerics_iff, hits_hookGenerics_iff]
    exact and_congr_left fun _ =>
      ⟨fun ⟨w, k, hk⟩ => ⟨w, k, hk.of_any_eq h.symm⟩, fun ⟨w, k, hk⟩ => ⟨w, k, hk.of_any_eq h⟩⟩
  by_cases hhere : ∃ c, hookGenerics.Hits prev rest c
  · obtain ⟨c, hc⟩ := hhere
    rw [findAllFrom_of_hits hc, findAllFrom_of_hits ((hsame c).1 hc)]
  · have hthere : ¬ ∃ c, hookGenerics.Hits prev' rest c := fun ⟨c, hc⟩ => hhere ⟨c, (hsame c).2 hc⟩
    cases rest with
    | nil => rw [findAllFrom_nil hhere, findAllFrom_nil hthere]
    | cons x rest => rw [findAllFrom_cons hhere, findAllFrom_cons hthere]

theorem every_hookGenerics_not_mem : hookGenerics.Every ('>' ∉ ·) := fun c d h => by
  obtain ⟨w, k, hk⟩ := atHook_of_reads h
  refine ⟨w.toList ++ (k ++ ['<']), by simp [hk.text], fun hin => ?_⟩
  rcases List.mem_append.1 hin with hin | hin
  · cases isWord_of_mem_hookName hk.name hin
  rcases List.mem_append.1 hin with hin | hin
  · cases hk.blank '>' hin
  · cases List.mem_singleton.1 hin

theorem lastOf_eq (prev : Option Char) (l : List Char) : lastOf prev l = l.getLast?.or prev := by
  induction l generalizing prev with
  | nil => rfl
  | cons x l ih =>
    rw [lastOf, ih, List.getLast?_cons]
    cases l <;> rfl

/-- What is found in the arguments of a hook begins before their end, and what is found behind them is what is found
in the text there. -/
theorem findAllFrom_arguments (hgap : Blank gap) (prev : Option Char) (pos : Nat) (a r : List Char) :
    ∃ ms, hookGenerics.findAllFrom pos prev (a ++ '>' :: (gap ++ '(' :: r)) =
        ms ++ (hookGenerics.findAll r).map (Match.shift (pos + (a.length + (gap.length + 2)))) ∧
      ∀ m ∈ ms, m.start < pos + a.length := by
  obtain ⟨ms, hms, hstart⟩ := findAllFrom_wall every_hookGenerics_not_mem pos prev a (gap ++ '(' :: r)
  refine ⟨ms, ?_, hstart⟩
  have hwordless : Wordless (some '>') (gap ++ ['(']) := .of_forall fun x hx => by
    rcases List.mem_append.1 hx with hx | hx
    · exact not_isWord_of_blank hgap x hx
    · rw [List.mem_singleton.1 hx]
      rfl
  have hlast : (lastOf (some '>') (gap ++ ['('])).any Text.isWord = (none : Option Char).any Text.isWord := by
    rw [lastOf_append]
    rfl
  have hlength : pos + a.length + 1 + (gap ++ ['(']).length = pos + (a.length + (gap.length + 2)) + 0 := by
    rw [List.length_append, List.length_singleton]
    omega
  rw [hms, List.append_cons gap, hwordless.misses.findAllFrom, findAllFrom_hookGenerics_congr hlast, hlength,
    findAllFrom_add, Pattern.findAll]

/-- At a hook the hook is found, and then what is found behind its bracket. -/
theorem findAllFrom_hook (h : AtHook prev rest w g r) (pos : Nat) :
    ∃ m : Match, m.start = pos ∧ m.stop = pos + (w.toList.length + (g.length + 1)) ∧
      hookGenerics.findAllFrom pos prev rest = m :: hookGenerics.findAllFrom m.stop (some '<') r := by
  have hhit : hookGenerics.Hits prev rest ⟨some '<', r, []⟩ := hits_hookGenerics_iff.2 ⟨⟨w, g, h⟩, rfl⟩
  have hlength : rest.length - r.length = w.toList.length + (g.length + 1) := by
    rw [h.text]
    simp only [List.length_append, List.length_cons]
    omega
  exact ⟨⟨pos, rest, ⟨some '<', r, []⟩⟩, rfl, congrArg (pos + ·) hlength, findAllFrom_of_hits hhit⟩

/-- Type arguments with an argument list behind them are taken out when they hold no semicolon. -/
theorem typeArgumentsOf?_angled (ha : Angled a) (hgap : Blank gap) (r : List Char) {m : Match}
    (hm : m.stop = u.length + 1) :
    typeArgumentsOf? (u ++ '<' :: (a ++ '>' :: (gap ++ '(' :: r))) m =
      if ';' ∈ a then none else some (u.length + (a.length + 2)) := by
  have hdrop : (u ++ '<' :: (a ++ '>' :: (gap ++ '(' :: r))).drop (u.length + (a.length + 2)) = gap ++ '(' :: r := by
    rw [List.drop_length_add_append, List.drop_succ_cons, List.drop_length_add_append, List.drop_succ_cons,
      List.drop_zero]
  have hcall : Text.trimStart (gap ++ '(' :: r) = '(' :: r := by
    rw [Text.trimStart, List.dropWhile_append_of_pos hgap, List.dropWhile_cons_of_neg (by decide)]
  rw [typeArgumentsOf?, hm, Nat.add_sub_cancel, typeArgumentsEnd?_angled ha]
  split
  · rfl
  · rw [Option.filter_some, hdrop, hcall]
    rfl

theorem dropTypeArguments_take (hu : ∀ x ∈ u.getLast?, Text.isSpace x = false) (hg : Blank g) {m : Match}
    (hm : m.stop = (u ++ g).length + 1) {stop : Nat} (h : typeArgumentsOf? (u ++ g ++ r) m = some stop)
    (ms : List Match) :
    dropTypeArguments (u ++ g ++ r) 0 (m :: ms) = u ++ dropTypeArguments (u ++ g ++ r) stop ms := by
  rw [dropTypeArguments_cons, h]
  simp only [Nat.not_lt_zero, if_false, List.drop_zero]
  rw [hm, Nat.add_sub_cancel, List.take_left, trimEnd_append_blank hu hg]

section
variable (hw : w ∈ hookNames) (hbefore : ¬ Occurs hookGenerics before) (hg : Blank g)
include hw hbefore hg

theorem findAll_before (r : List Char) :
    hookGenerics.findAll (before ++ w.toList ++ g ++ '<' :: r) =
      hookGenerics.findAllFrom before.length before.getLast? (w.toList ++ (g ++ '<' :: r)) := by
  have hnone : hookGenerics.findAllFrom 0 none before = [] := Classical.not_not.1 hbefore
  rw [Pattern.findAll, List.append_assoc, List.append_assoc, (misses_before hnone hw hg r).findAllFrom, Nat.zero_add,
    lastOf_eq, Option.or_none]

/-- **A hook loses its type arguments and the white space before them, and nothing else, when they hold no
semicolon.** -/
theorem stripHookGenerics_cut (ha : Angled a) (hgap : Blank gap) (hsemi : ';' ∉ a)
    (hedge : before.getLast?.any Text.isWord = false) (r : List Char) :
    stripHookGenerics (before ++ w.toList ++ g ++ '<' :: (a ++ '>' :: (gap ++ '(' :: r))) =
      before ++ w.toList ++ (gap ++ '(' :: stripHookGenerics r) := by
  obtain ⟨m, -, hstop, hfind⟩ :=
    findAllFrom_hook (r := a ++ '>' :: (gap ++ '(' :: r)) ⟨hedge, hw, hg, rfl⟩ before.length
  obtain ⟨ms, hms, hstart⟩ := findAllFrom_arguments hgap (some '<') m.stop a r
  have hm : m.stop = (before ++ w.toList ++ g).length + 1 := by
    rw [hstop, List.length_append, List.length_append]
    omega
  have htype := typeArgumentsOf?_angled ha hgap r hm
  rw [if_neg hsemi] at htype
  -- The text up to the argument list.
  obtain ⟨v, hv⟩ : ∃ v, v = before ++ w.toList ++ g ++ '<' :: (a ++ '>' :: gap) ++ ['('] := ⟨_, rfl⟩
  have htext : before ++ w.toList ++ g ++ '<' :: (a ++ '>' :: (gap ++ '(' :: r)) = v ++ r := by simp [hv]
  have hlength : v.length = m.stop + (a.length + (gap.length + 2)) := by
    rw [hm, hv]
    simp only [List.length_append, List.length_cons, List.length_nil]
    omega
  have hlast : ∀ x ∈ v.getLast?, Text.isSpace x = false := by
    rw [hv, List.getLast?_concat]
    rintro _ ⟨⟩
    rfl
  have hdrop : v.drop ((before ++ w.toList ++ g).length + (a.length + 2)) = gap ++ ['('] := by
    rw [hv, List.append_assoc (before ++ w.toList ++ g), List.drop_length_add_append, List.cons_append,
      List.drop_succ_cons, List.append_assoc a, List.drop_length_add_append, List.cons_append, List.drop_succ_cons,
      List.drop_zero]
  have hstops : ∀ k ∈ hookGenerics.findAll r, 0 < k.stop := fun k hk => stop_pos_of_mem hk
  rw [stripHookGenerics, findAll_before hw hbefore hg, hfind, dropTypeArguments_take (solid_last_append hw) hg hm htype,
    hms, dropTypeArguments_inside fun k hk => by have := hstart k hk; omega, htext, ← hlength,
    dropTypeArguments_behind hlast hstops (by omega), hdrop, List.append_assoc gap]
  rfl

/-- A hook keeps type arguments that hold a semicolon, and so does a longer word that ends like a hook. -/
theorem exists_stripHookGenerics_kept (ha : Angled a) (hgap : Blank gap)
    (hkept : ';' ∈ a ∨ before.getLast?.any Text.isWord = true) (r : List Char) :
    ∃ t, stripHookGenerics (before ++ w.toList ++ g ++ '<' :: (a ++ '>' :: (gap ++ '(' :: r))) =
      before ++ w.toList ++ g ++ '<' :: t := by
  obtain ⟨s, hs⟩ : ∃ s, s = a ++ '>' :: (gap ++ '(' :: r) := ⟨_, rfl⟩
  obtain ⟨v, hv⟩ : ∃ v, v = before ++ w.toList ++ g ++ ['<'] := ⟨_, rfl⟩
  have hlength : before.length + (w.toList.length + (g.length + 1)) = v.length := by
    rw [hv]
    simp only [List.length_append, List.length_singleton]
    omega
  have htext : before ++ w.toList ++ g ++ '<' :: s = v ++ s := by simp [hv]
  -- Nothing is taken out before the bracket.
  have hlater : stripHookGenerics (v ++ s) =
      dropTypeArguments (v ++ s) 0 (hookGenerics.findAllFrom v.length (some '<') s) := by
    rw [stripHookGenerics, ← htext, findAll_before hw hbefore hg]
    cases hedge : before.getLast?.any Text.isWord with
    | true =>
      have hwordless : Wordless before.getLast? (w.toList ++ (g ++ ['<'])) := by
        refine .append (.of_word hedge fun x hx => isWord_of_mem_hookName hw hx) (.of_forall fun x hx => ?_)
        rcases List.mem_append.1 hx with hx | hx
        · exact not_isWord_of_blank hg x hx
        · rw [List.mem_singleton.1 hx]
          rfl
      have hsplit : w.toList ++ (g ++ '<' :: s) = w.toList ++ (g ++ ['<']) ++ s := by simp
      have hlast : lastOf before.getLast? (w.toList ++ (g ++ ['<'])) = some '<' := by
        rw [lastOf_append, lastOf_append]
        rfl
      rw [hsplit, hwordless.misses.findAllFrom, hlast, List.length_append, List.length_append, List.length_singleton,
        hlength]
    | false =>
      have hsemi : ';' ∈ a := hkept.resolve_right (by simp [hedge])
      obtain ⟨m, -, hstop, hfind⟩ := findAllFrom_hook (r := s) ⟨hedge, hw, hg, rfl⟩ before.length
      have hm : m.stop = (before ++ w.toList ++ g).length + 1 := by
        rw [hstop, List.length_append, List.length_append]
        omega
      have htype := typeArgumentsOf?_angled ha hgap r hm
      rw [if_pos hsemi, ← hs] at htype
      rw [hfind, dropTypeArguments_cons, htype, hstop, hlength]
  have hlast : ∀ x ∈ v.getLast?, Text.isSpace x = false := by
    rw [hv, List.getLast?_concat]
    rintro _ ⟨⟩
    rfl
  refine ⟨dropTypeArguments s 0 (hookGenerics.findAllFrom 0 (some '<') s), ?_⟩
  rw [← hs, htext, hlater, ← Nat.add_zero v.length, findAllFrom_add,
    dropTypeArguments_behind hlast (fun m hm => stop_pos_of_mem hm) (Nat.zero_le _), List.drop_zero, hv]
  simp

end

/-- **The type arguments of a hook are taken out just when they hold no semicolon and the hook is no part of a longer
word.** The type arguments are any text whose angle brackets balance, and no hook with a bracket stands before. Then the
white space before them goes, too, and all else up to the argument list stays. -/
theorem stripHookGenerics_angled_iff {w : String} (hw : w ∈ hookNames) {a before g gap : List Char} (ha : Angled a)
    (hbefore : ¬ Occurs hookGenerics before) (hg : Blank g) (hgap : Blank gap) (r : List Char) :
    stripHookGenerics (before ++ w.toList ++ g ++ '<' :: (a ++ '>' :: (gap ++ '(' :: r))) =
        before ++ w.toList ++ (gap ++ '(' :: stripHookGenerics r) ↔
      ';' ∉ a ∧ before.getLast?.any Text.isWord = false := by
  refine ⟨fun h => ?_, fun ⟨hsemi, hedge⟩ => stripHookGenerics_cut hw hbefore hg ha hgap hsemi hedge r⟩
  refine Classical.byContradiction fun hno => ?_
  have hkept : ';' ∈ a ∨ before.getLast?.any Text.isWord = true := by
    by_cases hsemi : ';' ∈ a
    · exact .inl hsemi
    · exact .inr (Bool.not_eq_false _ ▸ fun hedge => hno ⟨hsemi, hedge⟩)
  obtain ⟨t, ht⟩ := exists_stripHookGenerics_kept hw hbefore hg ha hgap hkept r
  rw [ht, List.append_assoc] at h
  -- What stands behind the white space is a bracket of one kind or of the other.
  obtain ⟨-, hbracket⟩ := Node.cut_unique (!Text.isSpace ·) (fun c hc => by simp [hg c hc])
    (fun c hc => by simp [hgap c hc]) (by simp; decide) (by simp; decide) (List.append_cancel_left h)
  cases hbracket

theorem stripHookGenerics_map :
    stripHookGenerics "const [map, setMap] = useState<Map<string, () => void>>(load());".toList =
      "const [map, setMap] = useState(load());".toList := by
  have hinner : Angled "string, () => void".toList :=
    .append (.of_plain (a := "string, () ".toList) (by decide)) (.arrow (.of_plain (a := " void".toList) (by decide)))
  have hlist : Angled "Map<string, () => void>".toList :=
    .append (.of_plain (a := "Map".toList) (by decide)) (.nest hinner .nil)
  have hbefore : ¬ Occurs hookGenerics "const [map, setMap] = ".toList := by
    have hnone : (hookGenerics.findAll "const [map, setMap] = ".toList).isEmpty = true := by decide +kernel
    exact not_not.2 (List.isEmpty_iff.1 hnone)
  have hcut := (stripHookGenerics_angled_iff (w := "useState") (by decide) hlist hbefore .nil .nil "load());".toList).2
    ⟨by decide, by decide⟩
  have hrest : stripHookGenerics "load());".toList = "load());".toList := by decide +kernel
  rw [hrest] at hcut
  exact hcut

/-- A state whose type has members that end with semicolons. -/
def memberState : List Char := "const [user, setUser] = useState<{ name: string; age: number }>(load());".toList

theorem memberState_kept : ¬ ∀ w ∈ hookNames, ∀ a before g r, Angled a → ¬ Occurs hookGenerics before → Blank g →
    ∃ t, stripHookGenerics (before ++ w.toList ++ g ++ '<' :: (a ++ '>' :: '(' :: r)) =
      before ++ w.toList ++ '(' :: t := by
  intro h
  have hkept : stripHookGenerics memberState = memberState := by decide +kernel
  have hbefore : ¬ Occurs hookGenerics "const [user, setUser] = ".toList := by
    have hnone : (hookGenerics.findAll "const [user, setUser] = ".toList).isEmpty = true := by decide +kernel
    exact not_not.2 (List.isEmpty_iff.1 hnone)
  obtain ⟨t, ht⟩ := h "useState" (by decide) "{ name: string; age: number }".toList "const [user, setUser] = ".toList []
    "load());".toList (.of_plain (by decide)) hbefore .nil
  have hsame : "const [user, setUser] = ".toList ++ "useState".toList ++
      "<{ name: string; age: number }>(load());".toList =
        "const [user, setUser] = ".toList ++ "useState".toList ++ '(' :: t := hkept.symm.trans ht
  have hbracket : "<{ name: string; age: number }>(load());".toList = '(' :: t := List.append_cancel_left hsame
  cases hbracket

end LivePreview.Source
