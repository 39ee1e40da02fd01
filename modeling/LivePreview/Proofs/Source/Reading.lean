import LivePreview.Source.Literal

/-! Markup text, read one character at a time.

The markup of a source are its text runs between tags and its quoted values inside of tags, the literals that do not
stand in code. The lexer looks ahead to the end of a string or a comment. `Reading` is the same lexer without looking
ahead: what it has read so far is a state, and the state after one text and another is the one after the second,
read from the one after the first. So two texts can be compared piece by piece. -/
namespace LivePreview.Source

/-! ### The markup of a source -/

/-- Whether the lexer reads code. -/
def Mode.isCode : Mode → Bool
  | .code _ => true
  | _ => false

/-- The span of the content that a step at `pos` has, if it is not empty. -/
def LexStep.spans (pos : Nat) (s : LexStep) : List Span :=
  match s.content with
  | some t => if t.start < t.stop then [⟨pos + t.start, pos + t.stop⟩] else []
  | none => []

/-- The spans from here on, as `spansFrom` gives them, each with what the lexer was reading. -/
def literalsFrom (modes : List Mode) (before : List Char) (pos : Nat) (run : Option TextRun) :
    List Char → List (Mode × Span)
  | [] => (TextRun.spans pos run).map (.children, ·)
  | c :: r =>
    match modes with
    | [] => []
    | mode :: below =>
      if mode = .children ∧ c ≠ '{' ∧ c ≠ '<' then
        literalsFrom modes (c :: before) (pos + 1) (some (TextRun.add pos c run)) r
      else
        let s := lexStep mode below before c r
        let after := s.width - 1
        (TextRun.spans pos run).map (.children, ·) ++ (s.spans pos).map (mode, ·) ++
          literalsFrom s.modes ((r.take after).reverse ++ c :: before) (pos + s.width) none (r.drop after)
termination_by s => s.length
decreasing_by all_goals simp only [List.length_cons, List.length_drop]; omega

/-- The literals of a source, in order. -/
def literals (s : List Char) : List (Mode × Span) := literalsFrom [.code 0] [] 0 none s

theorem literalsFrom_spans (modes : List Mode) (before : List Char) (pos : Nat) (run : Option TextRun)
    (s : List Char) : (literalsFrom modes before pos run s).map (·.2) = spansFrom modes before pos run s := by
  fun_induction literalsFrom modes before pos run s with
  | case1 => simp [spansFrom, Function.comp_def]
  | case2 => simp [spansFrom]
  | case3 before pos run c r mode below h ih => rw [ih, spansFrom, if_pos h]
  | case4 before pos run c r mode below h s after ih =>
    rw [spansFrom, if_neg h]
    simp only [List.map_append, ih, List.map_map, Function.comp_def, List.map_id']
    rfl

/-- The literals are the spans of the source. -/
theorem literals_spans (s : List Char) : (literals s).map (·.2) = literalSpans s := literalsFrom_spans _ _ _ _ s

/-- The text of a span. -/
def Span.text (t : Span) (s : List Char) : List Char := (s.take t.stop).drop t.start

/-- The texts of those literals that do not stand in code. -/
def markupOf (s : List Char) (ls : List (Mode × Span)) : List (List Char) :=
  (ls.filter (!·.1.isCode)).map (·.2.text s)

/-- The text runs and the quoted values of a source's markup, in order. -/
def markup (s : List Char) : List (List Char) := markupOf s (literals s)

/-! ### Reading without looking ahead -/

/-- Whether `<` behind this text, last character first, can open an element. -/
def operandNext (before : List Char) : Bool :=
  match before.dropWhile isAsciiSpace with
  | [] => true
  | c :: r =>
    if c == ')' || c == ']' then false
    else if isScriptWord c then operandWords.contains (String.ofList ((c :: r).takeWhile isScriptWord).reverse)
    else true

theorem opensElement_eq (before rest : List Char) :
    opensElement before rest = (rest.head?.any (fun c => Text.isLatin c || c == '>') && operandNext before) := rfl

/-- What has been begun. -/
inductive Token where
  | plain
  /-- A slash that may be the first of two characters. -/
  | slash
  /-- A `<` that may open or close an element. -/
  | angle
  | string (quote : Char) (escaped : Bool)
  | lineComment
  | blockComment (star : Bool)
deriving DecidableEq, Repr

/-- Whether `c` ends a string. -/
def endsString (quote : Char) (escaped : Bool) (c : Char) : Bool :=
  !escaped && c != '\\' && (c == quote || (c == '\n' && quote != '`'))

/-- The modes and the token after `c` when nothing has been begun. -/
def begin (operand : Bool) (mode : Mode) (below : List Mode) (c : Char) : List Mode × Token :=
  match mode with
  | .code braces =>
    if c == '\'' || c == '"' || c == '`' then (mode :: below, .string c false)
    else if c == '/' then (mode :: below, .slash)
    else if c == '{' then (.code (braces + 1) :: below, .plain)
    else if c == '}' then
      (if 0 < braces then .code (braces - 1) :: below else if below.isEmpty then [mode] else below, .plain)
    else if c == '<' && operand then (mode :: below, .angle)
    else (mode :: below, .plain)
  | .tag closing =>
    if c == '\'' || c == '"' then (mode :: below, .string c false)
    else if c == '{' then (.code 0 :: mode :: below, .plain)
    else if c == '/' then (mode :: below, .slash)
    else if c == '>' then (if closing then below else .children :: below, .plain)
    else (mode :: below, .plain)
  | .children =>
    if c == '{' then (.code 0 :: mode :: below, .plain)
    else if c == '<' then (mode :: below, .angle)
    else (mode :: below, .plain)

/-- The modes and the token after `c`. -/
def advance (operand : Bool) (modes : List Mode) (token : Token) (c : Char) : List Mode × Token :=
  match modes with
  | [] => ([], .plain)
  | mode :: below =>
    match token with
    | .plain => begin operand mode below c
    | .slash =>
      if mode.isCode then
        if c == '/' then (modes, .lineComment)
        else if c == '*' then (modes, .blockComment false)
        else begin operand mode below c
      else if c == '>' then (below, .plain)
      else begin operand mode below c
    | .angle =>
      if mode.isCode then
        if Text.isLatin c || c == '>' then begin operand (.tag false) modes c else begin operand mode below c
      else if c == '/' then (.tag true :: below, .plain)
      else begin operand (.tag false) modes c
    | .string quote escaped =>
      (modes, if endsString quote escaped c then .plain else .string quote (!escaped && c == '\\'))
    | .lineComment => (modes, if c == '\n' then .plain else .lineComment)
    | .blockComment star => (modes, if star && c == '/' then .plain else .blockComment (c == '*'))

/-- A text run, last character first, unless it is blank. -/
def inked (text : List Char) : List (List Char) := if text.any (!Text.isSpace ·) then [text.reverse] else []

/-- A quoted value, last character first, unless it is empty. -/
def quoted (text : List Char) : List (List Char) := if text.isEmpty then [] else [text.reverse]

/-- What the lexer has read so far. -/
structure Reading where
  modes : List Mode := [.code 0]
  token : Token := .plain
  /-- All that has been read, last character first. -/
  before : List Char := []
  /-- The run or value in progress, last character first. -/
  text : List Char := []
  /-- The markup that is complete. -/
  done : List (List Char) := []
deriving DecidableEq

namespace Reading

/-- The state after one more character. -/
def next (σ : Reading) (c : Char) : Reading :=
  let after := advance (operandNext σ.before) σ.modes σ.token c
  let σ' := { σ with modes := after.1, token := after.2, before := c :: σ.before }
  match σ.modes, σ.token with
  | .children :: _, .plain =>
    if c == '{' || c == '<' then { σ' with text := [], done := σ.done ++ inked σ.text }
    else { σ' with text := c :: σ.text }
  | .tag _ :: _, .string quote escaped =>
    if endsString quote escaped c then { σ' with text := [], done := σ.done ++ quoted σ.text }
    else { σ' with text := c :: σ.text }
  | _, _ => σ'

/-- The state after a text. -/
def read (σ : Reading) (s : List Char) : Reading := s.foldl next σ

/-- All markup when the text ends here. -/
def markup (σ : Reading) : List (List Char) :=
  match σ.modes, σ.token with
  | .children :: _, .plain => σ.done ++ inked σ.text
  | .tag _ :: _, .string _ _ => σ.done ++ quoted σ.text
  | _, _ => σ.done

@[simp] theorem read_nil (σ : Reading) : σ.read [] = σ := rfl

@[simp] theorem read_cons (σ : Reading) (c : Char) (s : List Char) : σ.read (c :: s) = (σ.next c).read s := rfl

@[simp] theorem read_append (σ : Reading) (s t : List Char) : σ.read (s ++ t) = (σ.read s).read t :=
  List.foldl_append

/-! ### The same markup -/

/-- One state goes on as the other does. -/
def Settles (σ τ : Reading) : List Char → Prop
  | [] => σ.markup = τ.markup
  | c :: _ => σ.next c = τ.next c

theorem Settles.markup {σ τ : Reading} {rest : List Char} (h : σ.Settles τ rest) :
    (σ.read rest).markup = (τ.read rest).markup := by
  cases rest with
  | nil => exact h
  | cons c r => rw [read_cons, read_cons, show σ.next c = τ.next c from h]

variable {mode : Mode} {below : List Mode} {before text : List Char} {done : List (List Char)}

/-- A string in code is not kept, one in a tag is a value. -/
theorem next_string (hmode : mode ≠ .children) (quote : Char) (escaped : Bool) (c : Char) :
    next ⟨mode :: below, .string quote escaped, before, text, done⟩ c =
      if endsString quote escaped c then
        ⟨mode :: below, .plain, c :: before, if mode.isCode then text else [],
          done ++ if mode.isCode then [] else quoted text⟩
      else
        ⟨mode :: below, .string quote (!escaped && c == '\\'), c :: before, if mode.isCode then text else c :: text,
          done⟩ := by
  cases mode with
  | children => exact absurd rfl hmode
  | code braces => cases hends : endsString quote escaped c <;> simp [Mode.isCode, next, advance, hends]
  | tag closing => cases hends : endsString quote escaped c <;> simp [Mode.isCode, next, advance, hends]

theorem markup_string (hmode : mode ≠ .children) (quote : Char) (r : List Char) :
    (read ⟨mode :: below, .string quote false, before, text, done⟩ r).markup =
      (read ⟨mode :: below, .plain, (r.take (stringLength quote r + 1)).reverse ++ before,
        if mode.isCode then text else [],
        done ++ if mode.isCode then [] else quoted ((r.take (stringLength quote r)).reverse ++ text)⟩
        (r.drop (stringLength quote r + 1))).markup := by
  fun_induction stringLength quote r generalizing before text with
  | case1 => cases mode <;> simp_all [markup, Mode.isCode]
  | case2 => cases mode <;> simp_all [markup, Mode.isCode, next_string, endsString]
  | case3 d r ih => cases mode <;> simp_all [Mode.isCode, next_string, endsString]
  | case4 c r hlast hescape hend =>
    have hc : c ≠ '\\' := fun hc => by cases r <;> simp_all
    have hends : endsString quote false c = true := by simpa [endsString, hc] using hend
    cases mode <;> simp_all [Mode.isCode, next_string]
  | case5 c r hlast hescape hend ih =>
    have hc : c ≠ '\\' := fun hc => by cases r <;> simp_all
    have hends : endsString quote false c = false := by simpa [endsString, hc] using hend
    rw [read_cons, next_string hmode, hends, if_neg Bool.false_ne_true, beq_false_of_ne hc, Bool.and_false, ih]
    cases mode <;> simp [Mode.isCode]

/-- A line comment leaves the line end to what follows. -/
theorem markup_lineComment (hmode : mode.isCode = true) (r : List Char) :
    (read ⟨mode :: below, .lineComment, before, text, done⟩ r).markup =
      (read ⟨mode :: below, .plain, (r.take (r.takeWhile (· != '\n')).length).reverse ++ before, text, done⟩
        (r.drop (r.takeWhile (· != '\n')).length)).markup := by
  induction r generalizing before with
  | nil => cases mode <;> simp_all [markup, Mode.isCode]
  | cons c r ih =>
    by_cases hc : c = '\n'
    · cases mode <;> simp_all [Mode.isCode, next, advance, begin]
    · cases mode <;> simp_all [Mode.isCode, next, advance]

theorem markup_blockComment (hmode : mode.isCode = true) (r : List Char) :
    (read ⟨mode :: below, .blockComment false, before, text, done⟩ r).markup =
      (read ⟨mode :: below, .plain, (r.take (commentLength r)).reverse ++ before, text, done⟩
        (r.drop (commentLength r))).markup := by
  fun_induction commentLength r generalizing before with
  | case1 => cases mode <;> simp_all [markup, Mode.isCode]
  | case2 r => cases mode <;> simp_all [Mode.isCode, next, advance]
  | case3 c r hno ih =>
    -- A star counts only when a slash follows it.
    have hstar : Settles ⟨mode :: below, .blockComment (c == '*'), c :: before, text, done⟩
        ⟨mode :: below, .blockComment false, c :: before, text, done⟩ r := by
      cases r with
      | nil => cases mode <;> simp_all [Settles, markup]
      | cons d r => cases mode <;> simp_all [Settles, next, advance]
    have hnext : next ⟨mode :: below, .blockComment false, before, text, done⟩ c =
        ⟨mode :: below, .blockComment (c == '*'), c :: before, text, done⟩ := by
      cases mode <;> simp_all [Mode.isCode, next, advance]
    rw [read_cons, hnext, hstar.markup, ih]
    simp

/-- The state after the lexer's step at `c`, where `r` follows. -/
def stepped (mode : Mode) (below : List Mode) (before text : List Char) (done : List (List Char)) (c : Char)
    (r : List Char) : Reading :=
  let s := lexStep mode below before c r
  ⟨s.modes, .plain, (r.take (s.width - 1)).reverse ++ c :: before, [],
    done ++ inked text ++ if mode.isCode then [] else (s.spans 0).map (·.text (c :: r))⟩

theorem markup_code (braces : Nat) (c : Char) (r : List Char) :
    (read ⟨.code braces :: below, .plain, before, [], done⟩ (c :: r)).markup =
      ((stepped (.code braces) below before [] done c r).read
        (r.drop ((lexStep (.code braces) below before c r).width - 1))).markup := by
  have hcode : (Mode.code braces).isCode = true := rfl
  simp only [stepped, lexStep, read_cons, next, advance, begin, hcode, if_true, List.append_nil,
    show inked [] = [] from rfl]
  by_cases hquote : c == '\'' || c == '"' || c == '`'
  · simp only [hquote, if_true, LexStep.string]
    exact (markup_string (by simp) c r).trans (by simp [hcode])
  by_cases hslash : c = '/'
  · subst hslash
    have hsettles (hline : r.head? ≠ some '/') (hblock : r.head? ≠ some '*') :
        Settles ⟨.code braces :: below, .slash, '/' :: before, [], done⟩
          ⟨.code braces :: below, .plain, '/' :: before, [], done⟩ r := by
      cases r with
      | nil => rfl
      | cons d r => simp_all [Settles, next, advance, Mode.isCode]
    by_cases hline : r.head? = some '/'
    · obtain ⟨r, rfl⟩ : ∃ r', r = '/' :: r' := by cases r <;> simp_all
      simpa [next, advance, Mode.isCode, Nat.add_comm 1] using markup_lineComment hcode r
    by_cases hblock : r.head? = some '*'
    · obtain ⟨r, rfl⟩ : ∃ r', r = '*' :: r' := by cases r <;> simp_all
      simpa [next, advance, Mode.isCode, Nat.add_sub_cancel_left, Nat.add_comm 2] using markup_blockComment hcode r
    · simpa [hline, hblock] using (hsettles hline hblock).markup
  by_cases hopens : c = '<' ∧ operandNext before = true
  · obtain ⟨rfl, hoperand⟩ := hopens
    by_cases hhead : r.head?.any (fun c => Text.isLatin c || c == '>')
    · have hsettles : Settles ⟨.code braces :: below, .angle, '<' :: before, [], done⟩
          ⟨.tag false :: .code braces :: below, .plain, '<' :: before, [], done⟩ r := by
        cases r with
        | nil => simp at hhead
        | cons d r => simp_all [Settles, next, advance, Mode.isCode]
      simpa [opensElement_eq, hhead, hoperand] using hsettles.markup
    · have hsettles : Settles ⟨.code braces :: below, .angle, '<' :: before, [], done⟩
          ⟨.code braces :: below, .plain, '<' :: before, [], done⟩ r := by
        cases r with
        | nil => rfl
        | cons d r => simp_all [Settles, next, advance, Mode.isCode]
      simpa [opensElement_eq, hhead, hoperand] using hsettles.markup
  · have hno : (c == '<' && operandNext before) = false := by simpa using hopens
    have hno' : (c == '<' && opensElement before r) = false := by
      rw [opensElement_eq]
      simp_all
    have hslash' : (c == '/') = false := beq_false_of_ne hslash
    simp only [hquote, hslash', hno, hno', if_false, Bool.false_and, Bool.false_eq_true]
    by_cases hopen : c == '{'
    · simp [hopen]
    by_cases hclose : c == '}'
    · by_cases hbraces : 0 < braces <;> simp [hopen, hclose, hbraces]
    · simp [hopen, hclose]

/-- The value of a string is the text of its span. -/
theorem quoted_string (quote c : Char) (r : List Char) (modes : List Mode) :
    ((LexStep.string (stringLength quote r) modes).spans 0).map (·.text (c :: r)) =
      quoted ((r.take (stringLength quote r)).reverse) := by
  cases r with
  | nil => simp [stringLength, LexStep.string, LexStep.spans, quoted]
  | cons d r =>
    cases stringLength quote (d :: r) with
    | zero => simp [LexStep.string, LexStep.spans, quoted]
    | succ n => simp [LexStep.string, LexStep.spans, quoted, Span.text]

theorem markup_tag (closing : Bool) (c : Char) (r : List Char) :
    (read ⟨.tag closing :: below, .plain, before, [], done⟩ (c :: r)).markup =
      ((stepped (.tag closing) below before [] done c r).read
        (r.drop ((lexStep (.tag closing) below before c r).width - 1))).markup := by
  have hcode : (Mode.tag closing).isCode = false := rfl
  simp only [stepped, lexStep, read_cons, next, advance, begin, hcode, show inked [] = [] from rfl]
  by_cases hquote : c == '\'' || c == '"'
  · simp only [hquote, if_true, quoted_string]
    exact (markup_string (by simp) c r).trans (by simp [hcode, LexStep.string])
  by_cases hslash : c = '/'
  · subst hslash
    by_cases hclose : r.head? = some '>'
    · obtain ⟨r, rfl⟩ : ∃ r', r = '>' :: r' := by cases r <;> simp_all
      simp [LexStep.spans, next, advance, Mode.isCode]
    · have hsettles : Settles ⟨.tag closing :: below, .slash, '/' :: before, [], done⟩
          ⟨.tag closing :: below, .plain, '/' :: before, [], done⟩ r := by
        cases r with
        | nil => rfl
        | cons d r => simp_all [Settles, next, advance, Mode.isCode]
      simpa [LexStep.spans, hclose] using hsettles.markup
  have hslash' : (c == '/') = false := beq_false_of_ne hslash
  simp only [hquote, hslash', Bool.false_and, Bool.false_eq_true, if_false]
  by_cases hopen : c == '{'
  · simp [LexStep.spans, hopen]
  by_cases hclose : c == '>'
  · simp [LexStep.spans, hopen, hclose]
  · simp [LexStep.spans, hopen, hclose]

theorem markup_children (c : Char) (r : List Char) (hc : c = '{' ∨ c = '<') :
    (read ⟨.children :: below, .plain, before, text, done⟩ (c :: r)).markup =
      ((stepped .children below before text done c r).read
        (r.drop ((lexStep .children below before c r).width - 1))).markup := by
  have hcode : Mode.children.isCode = false := rfl
  rcases hc with rfl | rfl
  · simp [stepped, lexStep, LexStep.spans, next, advance, begin, hcode]
  · by_cases hclose : r.head? = some '/'
    · obtain ⟨r, rfl⟩ : ∃ r', r = '/' :: r' := by cases r <;> simp_all
      simp [stepped, lexStep, LexStep.spans, next, advance, begin, hcode]
    · have hsettles : Settles ⟨.children :: below, .angle, '<' :: before, [], done ++ inked text⟩
          ⟨.tag false :: .children :: below, .plain, '<' :: before, [], done ++ inked text⟩ r := by
        cases r with
        | nil => rfl
        | cons d r => simp_all [Settles, next, advance, Mode.isCode]
      simpa [stepped, lexStep, LexStep.spans, next, advance, begin, hcode, hclose] using hsettles.markup

/-- Reading on after a character that is no part of a text run is reading on after the step of the lexer. -/
theorem markup_stepped {c : Char} {r : List Char} (htext : mode ≠ .children → text = [])
    (h : ¬ (mode = .children ∧ c ≠ '{' ∧ c ≠ '<')) :
    (read ⟨mode :: below, .plain, before, text, done⟩ (c :: r)).markup =
      ((stepped mode below before text done c r).read
        (r.drop ((lexStep mode below before c r).width - 1))).markup := by
  cases mode with
  | code braces =>
    obtain rfl := htext (by simp)
    exact markup_code braces c r
  | tag closing =>
    obtain rfl := htext (by simp)
    exact markup_tag closing c r
  | children => exact markup_children c r (by simpa [Classical.or_iff_not_imp_left] using h)

theorem markup_dead (s : List Char) : (read ⟨[], .plain, before, text, done⟩ s).markup = done := by
  induction s generalizing before with
  | nil => rfl
  | cons c s ih => exact ih

/-- `text` is the run in progress. -/
def Holds (s : List Char) (pos : Nat) (text : List Char) : Option TextRun → Prop
  | some run => run.start ≤ pos ∧ text.reverse = (s.take pos).drop run.start ∧
      run.inked = text.any (!Text.isSpace ·)
  | none => text = []

theorem Holds.add {s r : List Char} {pos : Nat} {c : Char} {run : Option TextRun} (h : Holds s pos text run)
    (hs : s.drop pos = c :: r) : Holds s (pos + 1) (c :: text) (some (TextRun.add pos c run)) := by
  have htake : s.take (pos + 1) = s.take pos ++ [c] := by
    rw [List.take_add, hs]
    rfl
  have hlength : pos < s.length := by
    have := congrArg List.length hs
    simp at this
    omega
  cases run with
  | none =>
    subst h
    refine ⟨Nat.le_succ pos, ?_, by simp [TextRun.add]⟩
    rw [htake, TextRun.add, List.drop_left' (by simp; omega)]
    rfl
  | some run =>
    obtain ⟨hstart, htext, hinked⟩ := h
    refine ⟨Nat.le_succ_of_le hstart, ?_, by simp [TextRun.add, hinked, Bool.or_comm]⟩
    rw [htake, List.reverse_cons, htext, TextRun.add, List.drop_append_of_le_length (by simp; omega)]

/-- A run that ends here is markup if it is more than white space. -/
theorem Holds.inked {s : List Char} {pos : Nat} {run : Option TextRun} (h : Holds s pos text run) :
    markupOf s ((TextRun.spans pos run).map (.children, ·)) = Source.inked text := by
  rcases run with - | ⟨start, inked⟩
  · subst h
    rfl
  · obtain ⟨-, htext, hinked⟩ := h
    cases inked <;> simp_all [TextRun.spans, markupOf, Source.inked, Mode.isCode, Span.text]

theorem markupOf_append (s : List Char) (a b : List (Mode × Span)) :
    markupOf s (a ++ b) = markupOf s a ++ markupOf s b := by
  simp [markupOf]

/-- The content of a step at `pos`. -/
theorem markupOf_spans {s : List Char} {pos : Nat} (mode : Mode) (step : LexStep) :
    markupOf s ((step.spans pos).map (mode, ·)) =
      if mode.isCode then [] else (step.spans 0).map (·.text (s.drop pos)) := by
  cases hcode : mode.isCode with
  | true => simp [markupOf, hcode, List.filter_map, Function.comp_def]
  | false =>
    have htext (a b : Nat) : Span.text ⟨pos + a, pos + b⟩ s = Span.text ⟨a, b⟩ (s.drop pos) := by
      simp [Span.text, List.take_drop, List.drop_drop]
    cases hcontent : step.content with
    | none => simp [LexStep.spans, hcontent, markupOf]
    | some t =>
      by_cases hlt : t.start < t.stop <;>
        simp [LexStep.spans, hcontent, markupOf, hcode, hlt, htext]

theorem one_le_width (mode : Mode) (below : List Mode) (before : List Char) (c : Char) (rest : List Char) :
    1 ≤ (lexStep mode below before c rest).width := by
  unfold lexStep LexStep.string
  grind

theorem markup_read (s : List Char) (pos : Nat) {r : List Char} {modes : List Mode} {run : Option TextRun}
    (hs : s.drop pos = r) (hrun : Holds s pos text run) (hmode : run = none ∨ modes.head? = some .children) :
    (read ⟨modes, .plain, before, text, done⟩ r).markup = done ++ markupOf s (literalsFrom modes before pos run r) := by
  fun_induction literalsFrom modes before pos run r generalizing text done with
  | case1 modes before pos run =>
    rw [hrun.inked]
    rcases hmode with rfl | hmode
    · obtain rfl : text = [] := hrun
      cases modes with
      | nil => simp [markup, Source.inked]
      | cons mode below => cases mode <;> simp [markup, Source.inked]
    · obtain ⟨mode, below, rfl⟩ := List.exists_cons_of_ne_nil (fun hnil => by simp [hnil] at hmode : modes ≠ [])
      obtain rfl : mode = .children := by simpa using hmode
      rfl
  | case2 before pos run c r =>
    rw [markup_dead]
    simp [markupOf]
  | case3 before pos run c r mode below h ih =>
    obtain ⟨rfl, hopen, hangle⟩ := h
    have hrest : s.drop (pos + 1) = r := by rw [← List.drop_drop, hs, List.drop_one, List.tail_cons]
    have hnext : next ⟨.children :: below, .plain, before, text, done⟩ c =
        ⟨.children :: below, .plain, c :: before, c :: text, done⟩ := by
      simp [next, advance, begin, hopen, hangle]
    rw [read_cons, hnext]
    exact ih hrest (hrun.add hs) (.inr rfl)
  | case4 before pos run c r mode below h step =>
    rename_i ih
    have htext : mode ≠ .children → text = [] := fun hne => by
      obtain rfl : run = none := hmode.resolve_right (by simpa using hne)
      exact hrun
    have hrest : s.drop (pos + (lexStep mode below before c r).width) =
        r.drop ((lexStep mode below before c r).width - 1) := by
      obtain ⟨n, hn⟩ := Nat.exists_eq_add_of_le' (one_le_width mode below before c r)
      rw [hn, ← List.drop_drop, hs, List.drop_succ_cons, Nat.add_sub_cancel]
    rw [markup_stepped htext h, stepped, ih hrest rfl (.inl rfl), markupOf_append, markupOf_append, hrun.inked,
      markupOf_spans, hs]
    simp only [List.append_assoc]
    rfl

end Reading

/-- **Reading a source gives its markup.** -/
theorem markup_eq (s : List Char) : markup s = (Reading.read {} s).markup := by
  have h : (Reading.read {} s).markup = [] ++ markupOf s (literalsFrom [.code 0] [] 0 none s) :=
    Reading.markup_read s 0 rfl (show Reading.Holds s 0 [] none from rfl) (.inl rfl)
  exact h.symm

end LivePreview.Source
