import LivePreview.Proofs.Pattern.Anchor
import LivePreview.Proofs.Pattern.Sieve
import LivePreview.Proofs.Source.Matching

/-! Where parameter lists are found.

A list is found between two partners when the head of a function or of a callback ends at the one, or an arrow follows
the other. Both are told by what stands next to the list, so it can be said of any two partners, without their places,
whether an edit is made of them (`exists_edit_iff`). -/
namespace LivePreview.Source
open Pattern

variable {s a b t x y r : List Char} {c : Char} {m : Match}

/-! ### Heads -/

/-- The head of a function up to the parenthesis, behind the word edge. -/
def functionHead : Pattern :=
  lit "function" ++ (spaces ++ (opt (lit "*") ++ (spaces ++ (opt name ++ (spaces ++ lit "(")))))

def callbackNames : List String := ["useState", "useReducer", "useMemo", "useCallback", "useEffect", "useLayoutEffect"]

/-- The head of a callback up to the second parenthesis, behind the word edge. -/
def callbackHead : Pattern :=
  words callbackNames ++ (spaces ++ (lit "(" ++ (spaces ++ (opt (lit "async" ++ spaces) ++
    (opt (lit "function" ++ spaces) ++ lit "(")))))

/-- A text of characters of a class with a parenthesis behind it. -/
def EndsOpen (ok : Char → Bool) (l : List Char) : Prop := ∃ b, l = b ++ ['('] ∧ ∀ c ∈ b, ok c = true

theorem every_endsOpen_lit (ok : Char → Bool) : (lit "(").Every (EndsOpen ok) :=
  (Every.lit "(").mono fun _ hl => ⟨[], hl, fun _ hc => nomatch hc⟩

theorem every_endsOpen_seq {ok : Char → Bool} {p q : Pattern} (hp : p.Every fun l => ∀ c ∈ l, ok c = true)
    (hq : q.Every (EndsOpen ok)) : (p ++ q).Every (EndsOpen ok) :=
  hp.seq hq fun a _ ha ⟨b, hl, hb⟩ =>
    ⟨a ++ b, by rw [hl, List.append_assoc], fun c hc => (List.mem_append.1 hc).elim (ha c) (hb c)⟩

theorem every_all_seq {ok : Char → Bool} {p q : Pattern} (hp : p.Every fun l => ∀ c ∈ l, ok c = true)
    (hq : q.Every fun l => ∀ c ∈ l, ok c = true) : (p ++ q).Every fun l => ∀ c ∈ l, ok c = true :=
  hp.seq hq fun _ _ ha hb c hc => (List.mem_append.1 hc).elim (ha c) (hb c)

theorem every_all_lit {ok : Char → Bool} {w : String} (h : w.toList.all ok = true) :
    (lit w).Every fun l => ∀ c ∈ l, ok c = true :=
  (Every.lit w).mono fun l hl => by
    rw [hl]
    exact List.all_eq_true.1 h

theorem every_all_opt {ok : Char → Bool} {p : Pattern} (hp : p.Every fun l => ∀ c ∈ l, ok c = true) :
    (opt p).Every fun l => ∀ c ∈ l, ok c = true := hp.opt fun _ hc => nomatch hc

theorem every_all_spaces {ok : Char → Bool} (h : ∀ c, Text.isSpace c = true → ok c = true) :
    spaces.Every fun l => ∀ c ∈ l, ok c = true := every_blank_spaces.mono fun _ hl c hc => h c (hl c hc)

/-- A character of a head of a function, but for the parenthesis. -/
def isHeadChar (c : Char) : Bool := Text.isNameStart c || Text.isNameChar c || Text.isSpace c || c == '*'

theorem endsOpen_functionHead : functionHead.Every (EndsOpen isHeadChar) := by
  have hspaces : spaces.Every fun l => ∀ c ∈ l, isHeadChar c = true :=
    every_all_spaces fun c hc => by simp [isHeadChar, hc]
  have hname : name.Every fun l => ∀ c ∈ l, isHeadChar c = true := by
    refine every_all_seq (.one fun c hc d hd => ?_) ((Every.characters _ _).mono fun l hl c hc => ?_)
    · obtain rfl := List.mem_singleton.1 hd
      simp [isHeadChar, hc]
    · simp [isHeadChar, hl c hc]
  exact every_endsOpen_seq (every_all_lit (by decide)) <| every_endsOpen_seq hspaces <|
    every_endsOpen_seq (every_all_opt (every_all_lit (by decide))) <| every_endsOpen_seq hspaces <|
    every_endsOpen_seq (every_all_opt hname) <| every_endsOpen_seq hspaces <| every_endsOpen_lit _

/-- A character behind the name in a head of a callback, but for the parentheses. -/
def isGapChar (c : Char) : Bool := isHeadChar c && c != 'e'

/-- A head of a callback: the name of a hook and two parentheses. -/
structure IsCallbackHead (l n g h : List Char) : Prop where
  text : l = n ++ (g ++ '(' :: (h ++ ['(']))
  begins : ∃ n', n = 'u' :: 's' :: 'e' :: n'
  name : ∀ c ∈ n, Text.isWord c = true ∧ c ≠ '('
  first : ∀ c ∈ g, isGapChar c = true
  second : ∀ c ∈ h, isGapChar c = true

theorem every_callbackHead : callbackHead.Every fun l => ∃ n g h, IsCallbackHead l n g h := by
  have hspaces : spaces.Every fun l => ∀ c ∈ l, isGapChar c = true := every_all_spaces fun c hc => by
    have he : c ≠ 'e' := by
      rintro rfl
      cases hc
    simp [isGapChar, isHeadChar, hc, he]
  have htail := every_endsOpen_seq hspaces <|
    every_endsOpen_seq (every_all_opt (every_all_seq (every_all_lit (w := "async") (by decide)) hspaces)) <|
    every_endsOpen_seq (every_all_opt (every_all_seq (every_all_lit (w := "function") (by decide)) hspaces)) <|
    every_endsOpen_lit isGapChar
  have hopened : (lit "(" ++ _).Every fun l => ∃ h, l = '(' :: (h ++ ['(']) ∧ ∀ c ∈ h, isGapChar c = true :=
    (Every.lit "(").seq htail fun a l ha ⟨h, hl, hh⟩ => ⟨h, by rw [ha, hl]; rfl, hh⟩
  have hgap : (spaces ++ _).Every fun l => ∃ g h, l = g ++ '(' :: (h ++ ['(']) ∧ (∀ c ∈ g, isGapChar c = true) ∧
      ∀ c ∈ h, isGapChar c = true :=
    hspaces.seq hopened fun g l hg ⟨h, hl, hh⟩ => ⟨g, h, by rw [hl], hg, hh⟩
  refine (every_words (show callbackNames ≠ [] by decide)).seq hgap ?_
  rintro _ _ ⟨w, hw, rfl⟩ ⟨g, h, rfl, hg, hh⟩
  have hnames : callbackNames.all (fun w => w.toList.all (fun c => Text.isWord c && c != '(') &&
      w.toList.take 3 == ['u', 's', 'e']) = true := by decide
  obtain ⟨hchars, hbegins⟩ := Bool.and_eq_true_iff.1 (List.all_eq_true.1 hnames w hw)
  refine ⟨w.toList, g, h, by simp, ⟨w.toList.drop 3, ?_⟩, fun c hc => ?_, hg, hh⟩
  · conv => lhs; rw [← List.take_append_drop 3 w.toList, beq_iff_eq.1 hbegins]
    rfl
  · simpa using List.all_eq_true.1 hchars c hc

theorem wordEdged_function : WordEdged functionParameters functionHead where
  reads c d := by
    unfold functionParameters functionHead
    simp only [reads_assoc, reads_at]
  starless := by decide
  edgeless := by decide
  word := (Every.lit "function").seq (Every.trivial _) fun a b ha _ =>
    ⟨'f', "unction".toList ++ b, by rw [ha]; rfl, by decide⟩

theorem wordEdged_callback : WordEdged callbackParameters callbackHead where
  reads c d := by
    unfold callbackParameters callbackHead
    simp only [reads_assoc, reads_at]
    rfl
  starless := by decide
  edgeless := by decide
  word := every_callbackHead.mono fun l ⟨n, g, h, hl⟩ => by
    obtain ⟨n', rfl⟩ := hl.begins
    exact ⟨'u', _, hl.text, by decide⟩

/-- Texts that go on alike have the same part before the first of some character. -/
theorem eq_of_first (h : a ++ c :: t = b ++ c :: r) (ha : c ∉ a) (hb : c ∉ b) : a = b ∧ t = r := by
  rcases List.append_eq_append_iff.1 h with ⟨a', rfl, hr⟩ | ⟨b', rfl, ht⟩
  · cases a' with
    | nil => exact ⟨by simp, (List.cons.inj hr).2⟩
    | cons x a' =>
      obtain ⟨rfl, -⟩ := List.cons.inj hr
      exact absurd (by simp) hb
  · cases b' with
    | nil => exact ⟨by simp, (List.cons.inj ht).2.symm⟩
    | cons x b' =>
      obtain ⟨rfl, -⟩ := List.cons.inj ht
      exact absurd (by simp) ha

theorem exists_of_concat (h : x ++ y = b ++ [c]) (hy : y ≠ []) : ∃ y', y = y' ++ [c] ∧ b = x ++ y' := by
  rcases List.eq_nil_or_concat y with rfl | ⟨y', d, rfl⟩
  · exact absurd rfl hy
  · rw [List.concat_eq_append, ← List.append_assoc] at h
    obtain ⟨hb, hc⟩ := List.append_inj' h rfl
    cases hc
    exact ⟨y', List.concat_eq_append .., hb.symm⟩

theorem open_notMem_of_isHeadChar (h : ∀ c ∈ b, isHeadChar c = true) : '(' ∉ b := fun hc => nomatch h _ hc

theorem endsOnce_function : EndsOnce functionHead := by
  intro x y w t r hxy hy hw _ hgoes
  obtain ⟨b, hb, hchars⟩ := hxy.of_every endsOpen_functionHead
  obtain ⟨b', rfl, hchars'⟩ := hw.of_every endsOpen_functionHead
  obtain ⟨y', rfl, rfl⟩ := exists_of_concat hb hy
  have hno : '(' ∉ y' := fun hc => open_notMem_of_isHeadChar hchars (List.mem_append_right x hc)
  rw [List.append_assoc, List.append_assoc] at hgoes
  rw [(eq_of_first hgoes hno (open_notMem_of_isHeadChar hchars')).1]

theorem open_notMem_of_isGapChar (h : ∀ c ∈ b, isGapChar c = true) : '(' ∉ b := fun hc => nomatch h _ hc

theorem endsOnce_callback : EndsOnce callbackHead := by
  intro x y w t r hxy hy hw hprev hgoes
  obtain ⟨n, g, h, hl⟩ := hxy.of_every every_callbackHead
  obtain ⟨n', g', h', hl'⟩ := hw.of_every every_callbackHead
  have hopen (n g h : List Char) {l : List Char} (hl : IsCallbackHead l n g h) : '(' ∉ n ++ g := fun hc =>
    (List.mem_append.1 hc).elim (fun hc => (hl.name _ hc).2 rfl) fun hc => open_notMem_of_isGapChar hl.first hc
  rcases List.eq_nil_or_concat x with rfl | ⟨x', d, rfl⟩
  · -- Both begin at one place, so both end at the second parenthesis.
    obtain rfl : y = n ++ (g ++ '(' :: (h ++ ['('])) := hl.text
    obtain rfl := hl'.text
    have hboth : (n ++ g) ++ '(' :: (h ++ '(' :: t) = (n' ++ g') ++ '(' :: (h' ++ '(' :: r) := by simpa using hgoes
    obtain ⟨hname, hbehind⟩ := eq_of_first hboth (hopen n g h hl) (hopen n' g' h' hl')
    obtain ⟨rfl, -⟩ := eq_of_first hbehind (open_notMem_of_isGapChar hl.second) (open_notMem_of_isGapChar hl'.second)
    simpa using congrArg (· ++ '(' :: (h ++ ['('])) hname
  · -- Behind the name of a hook no other one begins.
    rw [List.concat_eq_append] at hxy hprev hl
    have hd : Text.isWord d = false := by simpa [lastOf_append, lastOf] using hprev
    have hbehind : n.length ≤ (x' ++ [d]).length := by
      refine Nat.le_of_not_lt fun hlt => ?_
      obtain ⟨n₂, hn, -⟩ := exists_of_append hl.text.symm (Nat.le_of_lt hlt)
      rw [(hl.name d (by simp [hn])).1] at hd
      cases hd
    obtain ⟨x₂, hx, hrest⟩ := exists_of_append hl.text hbehind
    have hrest : x₂ ++ y = (g ++ '(' :: h) ++ ['('] := by simpa using hrest
    obtain ⟨y', rfl, hy'⟩ := exists_of_concat hrest hy
    have hno : 'e' ∉ y' := by
      intro he
      have he : 'e' ∈ g ++ '(' :: h := by rw [hy']; exact List.mem_append_right x₂ he
      rcases List.mem_append.1 he with he | he
      · exact absurd (hl.first _ he) (by decide)
      · rcases List.mem_cons.1 he with he | he
        · cases he
        · exact absurd (hl.second _ he) (by decide)
    obtain ⟨n'', rfl⟩ := hl'.begins
    rw [hl'.text] at hgoes
    obtain _ | ⟨c₁, _ | ⟨c₂, _ | ⟨c₃, y'⟩⟩⟩ := y' <;> simp at hgoes
    exact absurd (by simp [hgoes.2.2.1]) hno

/-- The head of a function or of a callback ends at the parenthesis behind a text. -/
def Headed (a : List Char) : Prop := EndsAt functionHead (a ++ ['(']) ∨ EndsAt callbackHead (a ++ ['('])

/-- A character that is in no head. -/
def isWall (c : Char) : Bool := !isHeadChar c && c != '('

theorem IsCallbackHead.isHeadChar {l n g h : List Char} (hl : IsCallbackHead l n g h) (hc : c ∈ l) (hne : c ≠ '(') :
    isHeadChar c = true := by
  have hgap (k : List Char) (hk : ∀ c ∈ k, isGapChar c = true) (hc : c ∈ k) : Source.isHeadChar c = true :=
    (Bool.and_eq_true_iff.1 (hk c hc)).1
  rw [hl.text] at hc
  simp only [List.mem_append, List.mem_cons, List.not_mem_nil, or_false, hne, false_or] at hc
  rcases hc with hc | hc | hc
  · simp [Source.isHeadChar, Text.isNameChar, (hl.name c hc).1]
  · exact hgap g hl.first hc
  · exact hgap h hl.second hc

/-- Heads are told by what stands behind a character that is in none. -/
theorem headed_wall (hc : isWall c = true) (z k : List Char) : Headed (z ++ c :: k) ↔ Headed (c :: k) := by
  obtain ⟨hhead, hne⟩ := Bool.and_eq_true_iff.1 hc
  have hhead : isHeadChar c = false := by simpa using hhead
  have hne : c ≠ '(' := by simpa using hne
  have hfunction : functionHead.Every (c ∉ ·) := endsOpen_functionHead.mono fun l ⟨b, hl, hb⟩ hc => by
    rw [hl] at hc
    rcases List.mem_append.1 hc with hc | hc
    · rw [hb c hc] at hhead
      cases hhead
    · exact hne (List.mem_singleton.1 hc)
  have hcallback : callbackHead.Every (c ∉ ·) := every_callbackHead.mono fun l ⟨n, g, h, hl⟩ hc => by
    rw [hl.isHeadChar hc hne] at hhead
    cases hhead
  unfold Headed
  rw [List.append_assoc, List.cons_append, endsAt_wall hfunction, endsAt_wall hcallback]

/-! ### Arrows -/

/-- An arrow follows, behind white space. -/
def Arrowed (t : List Char) : Prop := ∃ w r, t = w ++ '=' :: '>' :: r ∧ Blank w

theorem arrowed_cons : Arrowed (c :: t) ↔ c = '=' ∧ t.head? = some '>' ∨ Text.isSpace c = true ∧ Arrowed t := by
  refine ⟨fun ⟨w, r, ht, hw⟩ => ?_, ?_⟩
  · cases w with
    | nil =>
      cases ht
      exact .inl ⟨rfl, rfl⟩
    | cons d w =>
      obtain ⟨rfl, hbehind⟩ := List.cons.inj ht
      obtain ⟨hd, hw⟩ := List.forall_mem_cons.1 hw
      exact .inr ⟨hd, w, r, hbehind, hw⟩
  · rintro (⟨rfl, ht⟩ | ⟨hc, w, r, rfl, hw⟩)
    · obtain ⟨r, rfl⟩ := List.head?_eq_some_iff.1 ht
      exact ⟨[], r, rfl, .nil⟩
    · exact ⟨c :: w, r, rfl, List.forall_mem_cons.2 ⟨hc, hw⟩⟩

theorem every_arrowParameters : arrowParameters.Every fun l => ∃ w, l = ')' :: (w ++ ['=', '>']) ∧ Blank w := by
  have hbehind : (spaces ++ lit "=>").Every fun l => ∃ w, l = w ++ ['=', '>'] ∧ Blank w :=
    every_blank_spaces.seq (Every.lit "=>") fun w l hw hl => ⟨w, by rw [hl]; rfl, hw⟩
  exact Every.shift ((Every.lit ")").seq hbehind fun a l ha ⟨w, hl, hw⟩ => ⟨w, by rw [ha, hl]; rfl, hw⟩)

theorem canRead_arrowParameters {w : List Char} (hw : Blank w) : CanRead arrowParameters (')' :: (w ++ ['=', '>'])) :=
  ((CanRead.lit ")").seq (.many hw)).seq (.lit "=>")

/-- Where an arrow is found. -/
theorem arrowed_of_mem (hm : m ∈ arrowParameters.findAll s) :
    ∃ a t, s = a ++ ')' :: t ∧ m.start = a.length ∧ Arrowed t := by
  obtain ⟨a, ha, hstart, hhits⟩ := exists_of_mem_findAllFrom hm
  obtain ⟨_, hsource, w, rfl, hw⟩ := every_arrowParameters _ _ (endFrom_reads hhits.1)
  have hsource : m.source = ')' :: (w ++ ['=', '>']) ++ m.last.rest := hsource
  exact ⟨a, w ++ '=' :: '>' :: m.last.rest, by rw [ha, hsource]; simp, by simpa using hstart, w, _, rfl, hw⟩

theorem exists_mem_of_arrowed (hs : s = a ++ ')' :: t) (ht : Arrowed t) :
    ∃ m ∈ arrowParameters.findAll s, m.start = a.length := by
  obtain ⟨w, r, rfl, hw⟩ := ht
  have hs : s = a ++ (')' :: (w ++ ['=', '>']) ++ r) := by simpa using hs
  have hhits : ∃ e, arrowParameters.Hits (lastOf none a) (')' :: (w ++ ['=', '>']) ++ r) e := by
    refine exists_hits (canRead_arrowParameters hw (lastOf none a) r []) (by decide) fun d hd => ?_
    obtain ⟨_, hl, w', rfl, -⟩ := every_arrowParameters _ _ hd
    have hl : ')' :: (w ++ ['=', '>']) ++ r = ')' :: (w' ++ ['=', '>']) ++ d.rest := hl
    rw [hl, List.length_append]
    exact Nat.lt_add_of_pos_left (Nat.succ_pos _)
  obtain ⟨m, hm, hle, hlt⟩ := exists_covering 0 hhits
  rw [← hs] at hm
  rw [Nat.zero_add] at hle hlt
  refine ⟨m, hm, ?_⟩
  obtain ⟨l, hl, hstart, hhits⟩ := exists_of_mem_findAllFrom hm
  obtain ⟨_, hsource, w', rfl, hw'⟩ := every_arrowParameters _ _ (endFrom_reads hhits.1)
  have hsource : m.source = ')' :: (w' ++ ['=', '>']) ++ m.last.rest := hsource
  have hstop : m.stop = l.length + (')' :: (w' ++ ['=', '>'])).length := by
    rw [Match.stop, Match.length, hstart, hsource, List.length_append, Nat.add_sub_cancel, Nat.zero_add]
  rw [Nat.zero_add] at hstart
  obtain ⟨v, rfl, hv⟩ := exists_of_append (hs.symm.trans (hl.trans (by rw [hsource]))) (hstart ▸ hle)
  cases v with
  | nil => simpa using hstart
  | cons d v =>
    -- There is no second parenthesis in a match.
    obtain ⟨rfl, hbehind⟩ := List.cons.inj hv
    have hlt : v.length < (w' ++ ['=', '>']).length := by
      rw [hstop, List.length_append, List.length_cons, List.length_cons] at hlt
      omega
    obtain ⟨v', hv', hgoes⟩ := exists_of_append hbehind.symm (Nat.le_of_lt hlt)
    cases v' with
    | nil => simp [hv'] at hlt
    | cons e v' =>
      obtain ⟨rfl, -⟩ := List.cons.inj hgoes
      have hmem : ')' ∈ w' ++ ['=', '>'] := by rw [hv']; simp
      rcases List.mem_append.1 hmem with h | h
      · cases hw' _ h
      · simp at h

/-! ### Edits -/

/-- An edit is made of a list between partners when a head or an arrow stands next to it and it has annotations. -/
theorem exists_edit_iff (hs : s = a ++ '(' :: (b ++ ')' :: t)) (hb : Enclosed '(' ')' 0 b) :
    (∃ e ∈ parameterEdits s, e.start = a.length) ↔ (Headed a ∨ Arrowed t) ∧ stripParameterTypes b ≠ none := by
  have hpair : ParenPair s a.length (a.length + 1 + b.length) := ⟨a, b, t, hs, rfl, rfl, hb⟩
  have hlist : slice s (a.length + 1) (a.length + 1 + b.length) = b := hs ▸ slice_between a b _
  have hclose : s = (a ++ '(' :: b) ++ ')' :: t := by rw [hs]; simp
  have hcloseLength : (a ++ '(' :: b).length = a.length + 1 + b.length := by simp; omega
  have hopen : s = (a ++ ['(']) ++ (b ++ ')' :: t) := by rw [hs]; simp
  refine ⟨fun ⟨e, he, hstart⟩ => ?_, fun ⟨hnext, hne⟩ => ?_⟩
  · have hfits := parameterEdits_fit he
    have hstop : e.stop = a.length + 1 + b.length := (hstart ▸ hfits.pair).stop_unique hpair
    refine ⟨?_, fun hnone => ?_⟩
    · unfold parameterEdits at he
      rcases List.mem_append.1 he with he | he
      · obtain ⟨m, hm, he⟩ := List.mem_filterMap.1 he
        obtain ⟨start, -, he⟩ := Option.bind_eq_some_iff.1 he
        obtain ⟨r, -, rfl⟩ := Option.map_eq_some_iff.1 he
        obtain ⟨a', t', hs', hstart', harrow⟩ := arrowed_of_mem hm
        obtain ⟨-, ht⟩ := List.append_inj (hclose.symm.trans hs') (by rw [hcloseLength, ← hstop, ← hstart'])
        exact .inr ((List.cons.inj ht).2 ▸ harrow)
      · obtain ⟨m, hm, he⟩ := List.mem_filterMap.1 he
        obtain ⟨stop, -, he⟩ := Option.bind_eq_some_iff.1 he
        obtain ⟨r, -, rfl⟩ := Option.map_eq_some_iff.1 he
        have hstart : m.stop - 1 = a.length := hstart
        have hhead {p q : Pattern} (hq : WordEdged p q) (hm : m ∈ p.findAll s) : EndsAt q (a ++ ['(']) := by
          obtain ⟨a', hs', hstop', hends⟩ := hq.endsAt_of_mem hm
          have hlength := length_pos_of_mem_findAll hm
          have hsame : a' = a ++ ['('] := by
            refine ((List.append_inj (hopen.symm.trans hs') ?_).1).symm
            rw [Match.stop] at *
            simp
            omega
          rwa [← hsame]
        rcases List.mem_append.1 hm with hm | hm
        · exact .inl (.inl (hhead wordEdged_function hm))
        · exact .inl (.inr (hhead wordEdged_callback hm))
    · have hlisted := hfits.list
      rw [hstart, hstop, hlist, hnone] at hlisted
      cases hlisted
  · obtain ⟨r, hr⟩ := Option.ne_none_iff_exists'.1 hne
    have hedit : parameterEdit? s a.length (a.length + 1 + b.length) = some ⟨a.length, a.length + 1 + b.length, r⟩ := by
      rw [parameterEdit?]
      exact congrArg (Option.map _) ((congrArg stripParameterTypes hlist).trans hr)
    refine ⟨⟨a.length, a.length + 1 + b.length, r⟩, ?_, rfl⟩
    unfold parameterEdits
    rcases hnext with hheaded | harrow
    · have hfound {p q : Pattern} (hq : WordEdged p q) (honce : EndsOnce q) (hends : EndsAt q (a ++ ['('])) :
          ∃ m ∈ p.findAll s, (closingParen? s (m.stop - 1)).bind (fun stop => parameterEdit? s (m.stop - 1) stop) =
            some ⟨a.length, a.length + 1 + b.length, r⟩ := by
        obtain ⟨m, hm, hstop⟩ := hq.exists_mem honce hopen hends
        have hstop : m.stop - 1 = a.length := by rw [hstop]; simp
        exact ⟨m, hm, by rw [hstop, closingParen?_eq_some_iff.2 hpair, Option.bind_some, hedit]⟩
      refine List.mem_append_right _ (List.mem_filterMap.2 ?_)
      rcases hheaded with hends | hends
      · obtain ⟨m, hm, he⟩ := hfound wordEdged_function endsOnce_function hends
        exact ⟨m, List.mem_append_left _ hm, he⟩
      · obtain ⟨m, hm, he⟩ := hfound wordEdged_callback endsOnce_callback hends
        exact ⟨m, List.mem_append_right _ hm, he⟩
    · obtain ⟨m, hm, hstart⟩ := exists_mem_of_arrowed hclose harrow
      refine List.mem_append_left _ (List.mem_filterMap.2 ⟨m, hm, ?_⟩)
      rw [hstart, hcloseLength, openingParen?_eq_some_iff.2 hpair, Option.bind_some, hedit]

end LivePreview.Source
