import LivePreview.Proofs.Source.Lexing

/-! Expressions with markup, and what the literal lexer finds in them.

A `Passage` is script, the inside of a tag or the inside of an element: a tree with its own strings and its own text.
The lexer goes through it with a stack of modes and guesses from the characters around it what a bracket means. It
comes out of each part in the mode in which it went in, and has found the strings and the text of the part, unless a
string in a tag is none by the rules for script. -/
namespace LivePreview.Source

/-! ### Expressions with markup -/

/-- Where a passage stands. -/
inductive Context where
  | code
  | tag
  | children
deriving DecidableEq

/-- A row of parts, one after another. -/
inductive Passage where
  | done
  /-- A character of a word, of an operator or of white space, or a round or square bracket. -/
  | char (c : Char) (rest : Passage)
  | string (quote : Char) (content : List Char) (rest : Passage)
  /-- Text of an element. -/
  | text (content : List Char) (rest : Passage)
  /-- Script in braces: a block or an object in script, embedded script elsewhere. -/
  | braces (inner rest : Passage)
  /-- An element that closes itself. -/
  | empty (name : List Char) (tag rest : Passage)
  /-- An element with what stands in it; a fragment has no name. -/
  | element (name : List Char) (tag inner : Passage) (closing : List Char) (rest : Passage)

/-- The span of the content of the string at `pos`, if it has one. -/
def contentSpans (pos : Nat) (content : List Char) : List Span :=
  if content.isEmpty then [] else [⟨pos + 1, pos + 1 + content.length⟩]

/-- The span of the text at `pos`, if it is more than white space. -/
def textSpans (pos : Nat) (content : List Char) : List Span :=
  if content.all Text.isSpace then [] else [⟨pos, pos + content.length⟩]

namespace Passage

def write : Passage → List Char
  | done => []
  | char c rest => c :: rest.write
  | string quote content rest => quote :: (content ++ quote :: rest.write)
  | text content rest => content ++ rest.write
  | braces inner rest => '{' :: (inner.write ++ '}' :: rest.write)
  | empty name tag rest => '<' :: (name ++ (tag.write ++ '/' :: '>' :: rest.write))
  | element name tag inner closing rest =>
    '<' :: (name ++ (tag.write ++ '>' :: (inner.write ++ '<' :: '/' :: (closing ++ '>' :: rest.write))))

/-- The contents of the strings that are not empty and the texts that are not blank, where `pos` characters stand before
the passage. -/
def spans (pos : Nat) : Passage → List Span
  | done => []
  | char _ rest => rest.spans (pos + 1)
  | string _ content rest => contentSpans pos content ++ rest.spans (pos + (content.length + 2))
  | text content rest => textSpans pos content ++ rest.spans (pos + content.length)
  | braces inner rest => inner.spans (pos + 1) ++ rest.spans (pos + 1 + inner.write.length + 1)
  | empty name tag rest =>
    tag.spans (pos + 1 + name.length) ++ rest.spans (pos + 1 + name.length + tag.write.length + 2)
  | element name tag inner closing rest =>
    tag.spans (pos + 1 + name.length) ++ (inner.spans (pos + 1 + name.length + tag.write.length + 1) ++
      rest.spans
        (pos + 1 + name.length + tag.write.length + 1 + inner.write.length + 2 + closing.length + 1))

def isText : Passage → Bool
  | text .. => true
  | _ => false

def isDone : Passage → Bool
  | done => true
  | _ => false

end Passage

/-- A character of words, operators and white space: no quote, brace, angle bracket or slash. -/
def isPlainChar (c : Char) : Bool := !"'\"`\x7b\x7d<>/".toList.contains c

/-- Whether an element may stand behind the character, where it might stand before it. -/
def readyBehind (ready : Bool) (c : Char) : Bool :=
  if isAsciiSpace c then ready else "([,?:=&".toList.contains c

/-- Whether a tag with the name may stand here. Script takes the bracket for a comparison unless a Latin letter follows,
or nothing at all in the tag of a fragment. -/
def Context.opens (ready : Bool) (name : List Char) (fragment : Bool) : Context → Bool
  | .code => ready && (name.head?.any Text.isLatin || fragment)
  | .tag => false
  | .children => !name.isEmpty || fragment

def Context.allowsString (quote : Char) (content : List Char) : Context → Bool
  | .code => "'\"`".toList.contains quote && content.all fun c => c != quote && c != '\\' && c != '\n'
  | .tag => "'\"".toList.contains quote && content.all (· != quote)
  | .children => false

/-- Whether each part may stand where it stands. In script a string is on one line and has no backslash, and an element
stands behind an opening bracket, a comma or one of `?`, `:`, `=` and `&`. A string in a tag goes on to the next quote
of its kind, whatever is in it. -/
def Passage.isProper (context : Context) (ready : Bool) : Passage → Bool
  | done => true
  | char c rest => context != .children && isPlainChar c && rest.isProper context (readyBehind ready c)
  | string quote content rest => context.allowsString quote content && rest.isProper context false
  | text content rest =>
    context == .children && !content.isEmpty && content.all (!"\x7b\x7d<>".toList.contains ·) && !rest.isText &&
      rest.isProper context false
  | braces inner rest => inner.isProper .code true && rest.isProper context false
  | empty name tag rest =>
    context.opens ready name false && name.all isPlainChar && tag.isProper .tag false && rest.isProper context false
  | element name tag inner closing rest =>
    context.opens ready name (name.isEmpty && tag.isDone) && name.all isPlainChar && tag.isProper .tag false &&
      inner.isProper .children false && closing.all isPlainChar && rest.isProper context false

/-- Whether the rules for strings of script find the end of the text: no line ends in it and none of its backslashes
stands at its end, but for those behind a backslash. -/
def endsAtQuote : List Char → Bool
  | [] => true
  | ['\\'] => false
  | '\\' :: _ :: r => endsAtQuote r
  | c :: r => c != '\n' && endsAtQuote r

/-- Whether the strings in tags are strings by the rules for script, too. -/
def Passage.isScripted (context : Context) : Passage → Bool
  | done => true
  | char _ rest | text _ rest => rest.isScripted context
  | string _ content rest => (context != .tag || endsAtQuote content) && rest.isScripted context
  | braces inner rest => inner.isScripted .code && rest.isScripted context
  | empty _ tag rest => tag.isScripted .tag && rest.isScripted context
  | element _ tag inner _ rest => tag.isScripted .tag && inner.isScripted .children && rest.isScripted context

/-! ### Single steps -/

variable {mode : Mode} {below modes : List Mode} {before rest a s t : List Char} {pos : Nat} {c q : Char}
  {X : List Span}

/-- The modes inside braces that open in a mode. -/
def Mode.inside (below : List Mode) : Mode → List Mode
  | .code braces => .code (braces + 1) :: below
  | mode => .code 0 :: mode :: below

theorem spansFrom_open (rest : List Char) : spansFrom (mode :: below) before pos none ('{' :: rest) =
    spansFrom (mode.inside below) ('{' :: before) (pos + 1) none rest := by
  refine spansFrom_step (a := []) (fun _ => .inl rfl) ?_
  cases mode <;> simp [lexStep, Mode.inside]

theorem exists_inside (mode : Mode) (below : List Mode) :
    ∃ braces modes, mode.inside below = .code braces :: modes := by
  cases mode <;> exact ⟨_, _, rfl⟩

theorem spansFrom_close (rest : List Char) : spansFrom (mode.inside below) before pos none ('}' :: rest) =
    spansFrom (mode :: below) ('}' :: before) (pos + 1) none rest := by
  cases mode <;> exact spansFrom_step (a := []) (by simp) (by simp [lexStep])

theorem spansFrom_startTag (h : mode = .children ∧ rest.head? ≠ some '/' ∨
    (∃ braces, mode = .code braces) ∧ opensElement before rest = true) :
    spansFrom (mode :: below) before pos none ('<' :: rest) =
      spansFrom (.tag false :: mode :: below) ('<' :: before) (pos + 1) none rest := by
  refine spansFrom_step (a := []) (fun _ => .inr rfl) ?_
  obtain ⟨rfl, hslash⟩ | ⟨⟨braces, rfl⟩, hopens⟩ := h
  · simp [lexStep, hslash]
  · simp [lexStep, hopens]

theorem spansFrom_tagEnd (rest : List Char) : spansFrom (.tag false :: below) before pos none ('>' :: rest) =
    spansFrom (.children :: below) ('>' :: before) (pos + 1) none rest :=
  spansFrom_step (a := []) (by simp) (by simp [lexStep])

theorem spansFrom_closedTag (rest : List Char) : spansFrom (.tag false :: below) before pos none ('/' :: '>' :: rest) =
    spansFrom below ('>' :: '/' :: before) (pos + 2) none rest :=
  spansFrom_step (a := ['>']) (by simp) (by simp [lexStep])

theorem spansFrom_endTag (rest : List Char) : spansFrom (.children :: below) before pos none ('<' :: '/' :: rest) =
    spansFrom (.tag true :: below) ('/' :: '<' :: before) (pos + 2) none rest :=
  spansFrom_step (a := ['/']) (by simp) (by simp [lexStep])

theorem spansFrom_endTagEnd (rest : List Char) : spansFrom (.tag true :: below) before pos none ('>' :: rest) =
    spansFrom below ('>' :: before) (pos + 1) none rest :=
  spansFrom_step (a := []) (by simp) (by simp [lexStep])

theorem ne_of_isPlainChar (h : isPlainChar c = true) :
    c ≠ '\'' ∧ c ≠ '"' ∧ c ≠ '`' ∧ c ≠ '{' ∧ c ≠ '}' ∧ c ≠ '<' ∧ c ≠ '>' ∧ c ≠ '/' := by
  refine ⟨?_, ?_, ?_, ?_, ?_, ?_, ?_, ?_⟩ <;>
    rintro rfl <;> revert h <;> decide

theorem spansFrom_char (hmode : mode ≠ .children) (hc : isPlainChar c = true) (rest : List Char) :
    spansFrom (mode :: below) before pos none (c :: rest) =
      spansFrom (mode :: below) (c :: before) (pos + 1) none rest := by
  refine spansFrom_step (a := []) (fun h => absurd h hmode) ?_
  obtain ⟨h1, h2, h3, h4, h5, h6, h7, h8⟩ := ne_of_isPlainChar hc
  cases mode <;> simp_all [lexStep]

theorem spansFrom_chars (hmode : mode ≠ .children) (hs : s.all isPlainChar = true) (rest : List Char) :
    spansFrom (mode :: below) before pos none (s ++ rest) =
      spansFrom (mode :: below) (s.reverse ++ before) (pos + s.length) none rest := by
  induction s generalizing before pos with
  | nil => rfl
  | cons c s ih =>
    rw [List.all_cons, Bool.and_eq_true] at hs
    rw [List.cons_append, spansFrom_char hmode hs.1, ih hs.2, List.reverse_cons, List.append_assoc, List.length_cons,
      Nat.add_assoc, Nat.add_comm 1]
    rfl

/-! ### Strings -/

/-- **By the rules for script the string ends at its own quote just when that is where it should end.** -/
theorem stringLength_eq_iff (hs : ∀ c ∈ s, c ≠ q) (hq : q ≠ '\\' ∧ q ≠ '`') :
    stringLength q (s ++ q :: t) = s.length ↔ endsAtQuote s = true := by
  fun_induction endsAtQuote s with
  | case1 => simp [stringLength_cons hq.1]
  | case2 => simp [stringLength]
  | case3 d r ih =>
    have hr := ih fun c hc => hs c (.tail _ (.tail _ hc))
    simp only [List.cons_append, stringLength, List.length_cons, ← hr]
    omega
  | case4 c r hend hmore ih =>
    have hr := ih fun c hc => hs c (.tail _ hc)
    have hslash : c ≠ '\\' := by
      rintro rfl
      cases r with
      | nil => exact hend rfl rfl
      | cons d r => exact hmore d r rfl rfl
    rw [List.cons_append, stringLength_cons hslash]
    by_cases hline : c = '\n' <;> simp [hline, hs c List.mem_cons_self, hq, ← hr]

theorem stringLength_plain (hs : ∀ c ∈ s, c ≠ q ∧ c ≠ '\\' ∧ c ≠ '\n') (hq : q ≠ '\\') :
    stringLength q (s ++ q :: t) = s.length := by
  induction s with
  | nil => simp [stringLength_cons hq]
  | cons c s ih =>
    obtain ⟨⟨hquote, hslash, hline⟩, hrest⟩ := List.forall_mem_cons.1 hs
    rw [List.cons_append, stringLength_cons hslash, ih hrest]
    simp [hquote, hline]

/-- What the lexer finds at a quote: the content that it takes the string to have, and what is behind it. -/
theorem spansFrom_quote (hmode : (∃ braces, mode = .code braces) ∧ (q = '\'' ∨ q = '"' ∨ q = '`') ∨
    (∃ closing, mode = .tag closing) ∧ (q = '\'' ∨ q = '"')) (rest : List Char) :
    spansFrom (mode :: below) before pos none (q :: rest) =
      (if 0 < stringLength q rest then [⟨pos + 1, pos + 1 + stringLength q rest⟩] else []) ++
        spansFrom (mode :: below) ((rest.take (stringLength q rest + 1)).reverse ++ q :: before)
          (pos + (stringLength q rest + 2)) none (rest.drop (stringLength q rest + 1)) := by
  have hstep : lexStep mode below before q rest = .string (stringLength q rest) (mode :: below) := by
    obtain ⟨⟨braces, rfl⟩, rfl | rfl | rfl⟩ | ⟨⟨closing, rfl⟩, rfl | rfl⟩ := hmode <;> simp [lexStep]
  have hno : mode ≠ .children := by
    rintro rfl
    obtain ⟨⟨_, h⟩, -⟩ | ⟨⟨_, h⟩, -⟩ := hmode <;> cases h
  rw [spansFrom, if_neg fun h => hno h.1, hstep]
  simp [LexStep.string, TextRun.spans, Nat.add_assoc, Nat.add_comm 1]

theorem spansFrom_string (hmode : (∃ braces, mode = .code braces) ∧ (q = '\'' ∨ q = '"' ∨ q = '`') ∨
    (∃ closing, mode = .tag closing) ∧ (q = '\'' ∨ q = '"')) (hs : stringLength q (s ++ q :: t) = s.length) :
    spansFrom (mode :: below) before pos none (q :: (s ++ q :: t)) =
      contentSpans pos s ++
        spansFrom (mode :: below) (q :: (s.reverse ++ q :: before)) (pos + (s.length + 2)) none t := by
  have htake : (s ++ q :: t).take (s.length + 1) = s ++ [q] := by rw [List.take_length_add_append]; rfl
  have hdrop : (s ++ q :: t).drop (s.length + 1) = t := by rw [List.drop_length_add_append]; rfl
  rw [spansFrom_quote hmode, hs, htake, hdrop, contentSpans, List.reverse_append]
  cases s <;> simp

/-- A string in a tag is found as it is just when it is a string by the rules for script. -/
theorem spansFrom_value {closing : Bool} (hq : q = '\'' ∨ q = '"') (hs : ∀ c ∈ s, c ≠ q) :
    spansFrom (.tag closing :: below) before pos none (q :: (s ++ q :: t)) = contentSpans pos s ++ X ↔
      endsAtQuote s = true ∧
        spansFrom (.tag closing :: below) (q :: (s.reverse ++ q :: before)) (pos + (s.length + 2)) none t = X := by
  have hmode {c : Bool} : (∃ braces, Mode.tag c = .code braces) ∧ (q = '\'' ∨ q = '"' ∨ q = '`') ∨
      (∃ closing, Mode.tag c = .tag closing) ∧ (q = '\'' ∨ q = '"') := .inr ⟨⟨c, rfl⟩, hq⟩
  have hquote : q ≠ '\\' ∧ q ≠ '`' := by rcases hq with rfl | rfl <;> decide
  by_cases hlength : stringLength q (s ++ q :: t) = s.length
  · rw [spansFrom_string hmode hlength, List.append_cancel_left_eq, (stringLength_eq_iff hs hquote).1 hlength]
    exact ⟨fun h => ⟨rfl, h⟩, And.right⟩
  · refine iff_of_false (fun h => ?_) fun h => hlength ((stringLength_eq_iff hs hquote).2 h.1)
    rw [spansFrom_quote hmode] at h
    generalize hn : stringLength q (s ++ q :: t) = n at h hlength
    have hcontent : contentSpans pos s = [⟨pos + 1, pos + 1 + s.length⟩] := by
      cases s with
      | nil => simp [stringLength_cons hquote.1, ← hn] at hlength
      | cons c s => rfl
    have hlater := inOrder_spansFrom (.tag closing :: below) (((s ++ q :: t).take (n + 1)).reverse ++ q :: before)
      (pos + (n + 2)) none ((s ++ q :: t).drop (n + 1)) (by simp)
    rw [hcontent] at h
    by_cases hpos : 0 < n
    · -- A span of another length.
      rw [if_pos hpos] at h
      have hstop : pos + 1 + n = pos + 1 + s.length := congrArg Span.stop (List.cons.inj h).1
      omega
    · -- A string without content, and what is found behind it begins too late.
      rw [if_neg hpos, List.nil_append] at h
      rw [h] at hlater
      have hle : pos + (n + 2) ≤ pos + 1 := hlater.1
      omega

/-! ### Text of elements -/

theorem spansFrom_text (hs : ∀ c ∈ s, c ≠ '{' ∧ c ≠ '<') (hne : s ≠ []) (hc : c = '{' ∨ c = '<') (rest : List Char) :
    spansFrom (.children :: below) before pos none (s ++ c :: rest) =
      textSpans pos s ++ spansFrom (.children :: below) (s.reverse ++ before) (pos + s.length) none (c :: rest) := by
  obtain ⟨d, s, rfl⟩ := List.exists_cons_of_ne_nil hne
  obtain ⟨hd, hs⟩ := List.forall_mem_cons.1 hs
  rw [List.cons_append, spansFrom, if_pos ⟨rfl, hd⟩, TextRun.add, spansFrom_run hs, spansFrom_runEnd hc]
  have hinked : (!Text.isSpace d || s.any (!Text.isSpace ·)) = !(d :: s).all Text.isSpace := by
    rw [List.all_cons, Bool.not_and, List.not_all_eq_any_not]
  rw [hinked, textSpans]
  cases (d :: s).all Text.isSpace <;> simp [TextRun.spans, Nat.add_assoc, Nat.add_comm 1]

/-! ### Where elements may stand -/

/-- A bracket behind this text opens an element, when a tag goes on behind it. -/
def AtOperand (before : List Char) : Prop :=
  ∀ rest, rest.head?.any (fun c => Text.isLatin c || c == '>') = true → opensElement before rest = true

theorem AtOperand.readyBehind {ready : Bool} (h : ready = true → AtOperand before) (hc : readyBehind ready c = true) :
    AtOperand (c :: before) := by
  intro rest hrest
  rw [Source.readyBehind] at hc
  split at hc
  case isTrue hspace =>
    have hopens := h hc rest hrest
    rwa [opensElement, List.dropWhile_cons_of_pos hspace]
  case isFalse hspace =>
    have hmark : c ∈ ['(', '[', ',', '?', ':', '=', '&'] := List.contains_iff_mem.1 hc
    rw [opensElement, hrest, List.dropWhile_cons_of_neg hspace]
    simp only [List.mem_cons, List.not_mem_nil, or_false] at hmark
    rcases hmark with rfl | rfl | rfl | rfl | rfl | rfl | rfl <;> rfl

theorem atOperand_brace (before : List Char) : AtOperand ('{' :: before) := by
  intro rest hrest
  rw [opensElement, hrest]
  rfl

theorem atOperand_return : AtOperand "return ".toList.reverse := by
  intro rest hrest
  rw [opensElement, hrest]
  decide

/-! ### Passages -/

/-- The mode in which the lexer reads a passage. -/
def Context.Fits (mode : Mode) : Context → Prop
  | .code => ∃ braces, mode = .code braces
  | .tag => mode = .tag false
  | .children => mode = .children

/-- What follows the children of an element does not go on with their text. -/
def Context.Ends (rest : List Char) : Context → Prop
  | .children => ∃ c r, rest = c :: r ∧ (c = '{' ∨ c = '<')
  | _ => True

theorem startTag_of_opens {context : Context} {ready fragment : Bool} {name : List Char} (rest : List Char)
    (h : context.opens ready name fragment = true) (hname : name.all isPlainChar = true) (hmode : context.Fits mode)
    (hready : ready = true → AtOperand before) (hfragment : fragment = true → name = [] ∧ ∃ r, rest = '>' :: r) :
    mode = .children ∧ (name ++ rest).head? ≠ some '/' ∨
      (∃ braces, mode = .code braces) ∧ opensElement before (name ++ rest) = true := by
  cases context with
  | tag => cases h
  | children =>
    refine .inl ⟨hmode, ?_⟩
    cases name with
    | nil =>
      obtain ⟨-, r, rfl⟩ := hfragment (by simpa [Context.opens] using h)
      simp
    | cons c name =>
      have hc := ne_of_isPlainChar (List.all_eq_true.1 hname c List.mem_cons_self)
      simp [hc]
  | code =>
    obtain ⟨hhere, hfirst⟩ := Bool.and_eq_true_iff.1 h
    refine .inr ⟨hmode, hready hhere _ ?_⟩
    rcases Bool.or_eq_true_iff.1 hfirst with hlatin | hfragment'
    · cases name with
      | nil => cases hlatin
      | cons c name =>
        have hc : Text.isLatin c = true := hlatin
        simp [hc]
    · obtain ⟨rfl, r, rfl⟩ := hfragment hfragment'
      rfl

theorem spansFrom_congr {modes : List Mode} {before' : List Char} {pos' : Nat} (hbefore : before = before')
    (hpos : pos = pos') : spansFrom modes before pos none t = X ↔ spansFrom modes before' pos' none t = X := by
  rw [hbefore, hpos]

namespace Passage

/-- Behind a text in an element stands no more text. -/
theorem exists_cons (e : Passage) {ready : Bool} (he : e.isProper .children ready = true) (htext : e.isText = false)
    (ht : Context.children.Ends t) : Context.children.Ends (e.write ++ t) := by
  cases e with
  | done => exact ht
  | char => simp [isProper] at he
  | string => simp [isProper, Context.allowsString] at he
  | text => cases htext
  | braces => exact ⟨'{', _, rfl, .inl rfl⟩
  | empty => exact ⟨'<', _, rfl, .inr rfl⟩
  | element => exact ⟨'<', _, rfl, .inr rfl⟩

/-- **The lexer finds in a passage what is there, and comes out of it in the mode in which it came in, just when the
strings in its tags are strings by the rules for script.** -/
theorem spansFrom_write (e : Passage) {context : Context} {ready : Bool} (he : e.isProper context ready = true)
    (hmode : context.Fits mode) (hready : ready = true → AtOperand before) (ht : context.Ends t) :
    spansFrom (mode :: below) before pos none (e.write ++ t) = e.spans pos ++ X ↔
      e.isScripted context = true ∧
        spansFrom (mode :: below) (e.write.reverse ++ before) (pos + e.write.length) none t = X := by
  induction e generalizing context ready mode below before pos t X with
  | done => simp [write, spans, isScripted]
  | char c rest ih =>
    simp only [isProper, Bool.and_eq_true, bne_iff_ne] at he
    obtain ⟨⟨hcontext, hc⟩, hrest⟩ := he
    have hno : mode ≠ .children := by
      rintro rfl
      cases context <;> simp [Context.Fits] at hmode hcontext
    rw [write, List.cons_append, spansFrom_char hno hc, spans, isScripted,
      ih hrest hmode (AtOperand.readyBehind hready) ht]
    exact and_congr_right fun _ => spansFrom_congr (by simp) (by simp; omega)
  | string q content rest ih =>
    simp only [isProper, Bool.and_eq_true] at he
    obtain ⟨hallows, hrest⟩ := he
    simp only [write, List.cons_append, List.append_assoc]
    rw [spans, isScripted, List.append_assoc]
    cases context with
    | children => cases hallows
    | tag =>
      obtain rfl : mode = .tag false := hmode
      obtain ⟨hq, hcontent⟩ := Bool.and_eq_true_iff.1 hallows
      have hq : q = '\'' ∨ q = '"' := by simpa using List.contains_iff_mem.1 hq
      rw [spansFrom_value hq fun c hc => bne_iff_ne.1 (List.all_eq_true.1 hcontent c hc), ih hrest rfl nofun ht]
      simp only [Bool.and_eq_true, and_assoc, bne_self_eq_false, Bool.false_or]
      exact and_congr_right fun _ => and_congr_right fun _ => spansFrom_congr (by simp) (by simp; omega)
    | code =>
      obtain ⟨hq, hcontent⟩ := Bool.and_eq_true_iff.1 hallows
      have hq : q = '\'' ∨ q = '"' ∨ q = '`' := by simpa using List.contains_iff_mem.1 hq
      have hplain : ∀ c ∈ content, c ≠ q ∧ c ≠ '\\' ∧ c ≠ '\n' := fun c hc => by
        simpa [and_assoc] using List.all_eq_true.1 hcontent c hc
      have hslash : q ≠ '\\' := by rcases hq with rfl | rfl | rfl <;> decide
      rw [spansFrom_string (.inl ⟨hmode, hq⟩) (stringLength_plain hplain hslash), List.append_cancel_left_eq,
        ih hrest hmode nofun ht]
      exact and_congr_right fun _ => spansFrom_congr (by simp) (by simp; omega)
  | text content rest ih =>
    simp only [isProper, Bool.and_eq_true] at he
    obtain ⟨⟨⟨⟨hcontext, hne⟩, hplain⟩, htext⟩, hrest⟩ := he
    obtain rfl : context = .children := beq_iff_eq.1 hcontext
    obtain rfl : mode = .children := hmode
    obtain ⟨c, r, hcons, hc⟩ := exists_cons rest hrest (by simpa using htext) ht
    have hs : ∀ c ∈ content, c ≠ '{' ∧ c ≠ '<' := fun c hc => by
      have hno := List.all_eq_true.1 hplain c hc
      constructor <;> rintro rfl <;> revert hno <;> decide
    rw [write, List.append_assoc, hcons, spansFrom_text hs (by simpa using hne) hc, ← hcons, spans, List.append_assoc,
      List.append_cancel_left_eq, isScripted, ih hrest rfl nofun ht]
    exact and_congr_right fun _ => spansFrom_congr (by simp) (by simp; omega)
  | braces inner rest ihinner ihrest =>
    simp only [isProper, Bool.and_eq_true] at he
    obtain ⟨hinner, hrest⟩ := he
    obtain ⟨braces, modes, hinside⟩ := exists_inside mode below
    simp only [write, List.cons_append, List.append_assoc]
    rw [spansFrom_open, hinside, spans, List.append_assoc,
      ihinner hinner ⟨braces, rfl⟩ (fun _ => atOperand_brace before) True.intro, ← hinside, spansFrom_close,
      ihrest hrest hmode nofun ht, isScripted, Bool.and_eq_true, and_assoc]
    exact and_congr_right fun _ => and_congr_right fun _ => spansFrom_congr (by simp) (by simp; omega)
  | empty name tag rest ihtag ihrest =>
    simp only [isProper, Bool.and_eq_true] at he
    obtain ⟨⟨⟨hopens, hname⟩, htag⟩, hrest⟩ := he
    have hstart := startTag_of_opens (tag.write ++ '/' :: '>' :: (rest.write ++ t)) hopens hname hmode hready nofun
    simp only [write, List.cons_append, List.append_assoc]
    rw [spansFrom_startTag hstart, spansFrom_chars (by simp) hname, spans, List.append_assoc,
      ihtag htag rfl nofun True.intro, spansFrom_closedTag, ihrest hrest hmode nofun ht, isScripted, Bool.and_eq_true,
      and_assoc]
    exact and_congr_right fun _ => and_congr_right fun _ => spansFrom_congr (by simp) (by simp; omega)
  | element name tag inner closing rest ihtag ihinner ihrest =>
    simp only [isProper, Bool.and_eq_true] at he
    obtain ⟨⟨⟨⟨⟨hopens, hname⟩, htag⟩, hinner⟩, hclosing⟩, hrest⟩ := he
    have hstart := startTag_of_opens
      (tag.write ++ '>' :: (inner.write ++ '<' :: '/' :: (closing ++ '>' :: (rest.write ++ t)))) hopens hname hmode
      hready fun hfragment => by
        obtain ⟨hempty, hdone⟩ := Bool.and_eq_true_iff.1 hfragment
        cases tag <;> simp_all [isDone, write]
    simp only [write, List.cons_append, List.append_assoc]
    rw [spansFrom_startTag hstart, spansFrom_chars (by simp) hname, spans, List.append_assoc,
      ihtag htag rfl nofun True.intro, spansFrom_tagEnd, List.append_assoc,
      ihinner hinner rfl nofun ⟨'<', _, rfl, .inr rfl⟩, spansFrom_endTag, spansFrom_chars (by simp) hclosing,
      spansFrom_endTagEnd, ihrest hrest hmode nofun ht, isScripted, Bool.and_eq_true, Bool.and_eq_true, and_assoc,
      and_assoc]
    exact and_congr_right fun _ => and_congr_right fun _ => and_congr_right fun _ =>
      spansFrom_congr (by simp) (by simp; omega)

end Passage

/-- **In a returned expression with markup the lexer finds the contents of the strings that are not empty and the texts
that are not blank, in order, just when each string in a tag is a string by the rules for script**: a backslash in it
hides the character behind it, and its line does not end before the string does. -/
theorem literalSpans_iff (e : Passage) (he : e.isProper .code true = true) :
    literalSpans ("return ".toList ++ e.write ++ [';']) = e.spans 7 ↔ e.isScripted .code = true := by
  have hreturn : literalSpans ("return ".toList ++ (e.write ++ [';'])) =
      spansFrom [.code 0] ("return ".toList.reverse ++ []) 7 none (e.write ++ [';']) :=
    spansFrom_chars (by simp) (by decide) _
  have hend {before : List Char} {pos : Nat} : spansFrom [.code 0] before pos none [';'] = [] := by
    rw [spansFrom_char (by simp) (by decide), spansFrom]
    rfl
  have hwrite : spansFrom [.code 0] ("return ".toList.reverse ++ []) 7 none (e.write ++ [';']) = e.spans 7 ++ [] ↔ _ :=
    e.spansFrom_write he ⟨0, rfl⟩ (fun _ => atOperand_return) True.intro
  rw [List.append_assoc, hreturn]
  rwa [List.append_nil (e.spans 7), hend, and_iff_left rfl] at hwrite

namespace Passage

/-- Characters, one after another. -/
def chars (s : List Char) (rest : Passage) : Passage := s.foldr char rest

/-- The markup `<p title="a">Don't {ok && <b>go</b>}</p>`. -/
def nestedMarkup : Passage :=
  element ['p'] (chars " title=".toList (string '"' "a".toList done))
    (text "Don't ".toList (braces (chars "ok && ".toList (element ['b'] done (text "go".toList done) ['b'] done)) done))
    ['p'] done

/-- The markup `<p title='\'>it's x as T, c</p>`. -/
def backslashMarkup : Passage :=
  element ['p'] (chars " title=".toList (string '\'' ['\\'] done)) (text "it's x as T, c".toList done) ['p'] done

end Passage

theorem literalSpans_nestedMarkup :
    literalSpans "return <p title=\"a\">Don't {ok && <b>go</b>}</p>;".toList = [⟨17, 18⟩, ⟨20, 26⟩, ⟨36, 38⟩] :=
  (literalSpans_iff Passage.nestedMarkup (by decide)).2 (by decide)

/-- A backslash before the closing quote of a string in a tag. -/
theorem backslashMarkup_misread : ¬ ∀ e : Passage, e.isProper .code true = true →
    literalSpans ("return ".toList ++ e.write ++ [';']) = e.spans 7 := by
  intro h
  have hmisread : literalSpans ("return ".toList ++ Passage.backslashMarkup.write ++ [';']) ≠
      Passage.backslashMarkup.spans 7 := by decide +kernel
  exact hmisread (h Passage.backslashMarkup (by decide))

end LivePreview.Source
