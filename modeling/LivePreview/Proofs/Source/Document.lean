import LivePreview.Proofs.Markdown.Body
import LivePreview.Proofs.Markdown.Progress
import LivePreview.Proofs.Source.Mass
import LivePreview.Source.Response

/-! Documents of fenced blocks are read back.

A snippet is an info text and a body that can stand between two lines of backticks; a document is any number of them.
A reader of markdown reports a document event by event (`Reads` says what is relied on), and the events of a snippet are
gathered into one block, whatever stands among the snippets that begins none. White space around an info text is dropped
on the way, which neither its first word nor a filename in it can tell. -/
namespace LivePreview.Source
open Markdown

/-! ### Texts between white space -/

section White
variable {a b mark s : List Char}

theorem firstWord_blank_append (ha : Blank a) : Text.firstWord (a ++ s) = Text.firstWord s := by
  rw [Text.firstWord, Text.trimStart, List.dropWhile_append_of_pos ha]
  rfl

theorem takeWhile_append_blank (hb : Blank b) :
    (s ++ b).takeWhile (!Text.isSpace ·) = s.takeWhile (!Text.isSpace ·) := by
  induction s with
  | nil =>
    cases b with
    | nil => rfl
    | cons c b => simp [hb c List.mem_cons_self]
  | cons c s ih => simp only [List.cons_append, List.takeWhile_cons, ih]

theorem firstWord_append_blank (hb : Blank b) : Text.firstWord (s ++ b) = Text.firstWord s := by
  induction s with
  | nil => simpa using firstWord_blank_append (s := []) hb
  | cons c s ih =>
    by_cases hc : Text.isSpace c = true
    · simpa [Text.firstWord, Text.trimStart, hc] using ih
    · simpa [Text.firstWord, Text.trimStart, hc] using takeWhile_append_blank (s := s) hb

/-- A mark without white space is found in white space nowhere. -/
theorem splitAt?_blank_append (hm : mark ≠ []) (hmark : ∀ c ∈ mark, Text.isSpace c = false) (ha : Blank a) :
    Text.splitAt? mark (a ++ s) = (Text.splitAt? mark s).map fun p => (a ++ p.1, p.2) := by
  induction a with
  | nil => simp
  | cons c a ih =>
    obtain ⟨m, ms, rfl⟩ := List.exists_cons_of_ne_nil hm
    have hc : m ≠ c := fun h => by simpa [h, ha c List.mem_cons_self] using hmark m List.mem_cons_self
    simp [Text.splitAt?, hc, ih fun d hd => ha d (List.mem_cons_of_mem c hd), Function.comp_def]

theorem isPrefixOf_append_blank (hmark : ∀ c ∈ mark, Text.isSpace c = false) (hb : Blank b) :
    mark.isPrefixOf (s ++ b) = mark.isPrefixOf s := by
  rw [Bool.eq_iff_iff, List.isPrefixOf_iff_prefix, List.isPrefixOf_iff_prefix]
  refine ⟨fun h => ?_, fun h => h.trans (List.prefix_append s b)⟩
  rcases List.prefix_or_prefix_of_prefix h (List.prefix_append s b) with hp | ⟨u, rfl⟩
  · exact hp
  · -- What the mark has beyond the text would be white space.
    have hu : u <+: b := (List.prefix_append_right_inj s).1 h
    cases u with
    | nil => simp
    | cons c u => exact absurd (hb c (hu.subset List.mem_cons_self)) (by simp [hmark c (by simp)])

theorem splitAt?_append_blank (hm : mark ≠ []) (hmark : ∀ c ∈ mark, Text.isSpace c = false) (hb : Blank b) :
    Text.splitAt? mark (s ++ b) = (Text.splitAt? mark s).map fun p => (p.1, p.2 ++ b) := by
  induction s with
  | nil => simpa [Text.splitAt?, hm] using splitAt?_blank_append (s := []) hm hmark hb
  | cons c s ih =>
    have hprefix : mark.isPrefixOf (c :: (s ++ b)) = mark.isPrefixOf (c :: s) :=
      isPrefixOf_append_blank (s := c :: s) hmark hb
    rw [List.cons_append, Text.splitAt?, hprefix, Text.splitAt?]
    by_cases hp : mark.isPrefixOf (c :: s) = true
    · have hlength := (List.isPrefixOf_iff_prefix.1 hp).length_le
      rw [if_pos hp, if_pos hp, ← List.cons_append, List.drop_append_of_le_length hlength]
      rfl
    · rw [if_neg hp, if_neg hp, ih]
      simp [Function.comp_def]

/-- **White space around an info text does not change the filename in it.** -/
theorem filename?_pad (ha : Blank a) (hb : Blank b) : filename? (a ++ (s ++ b)) = filename? s := by
  have hsplit {mark : List Char} (hm : mark ≠ []) (hmark : mark.all (!Text.isSpace ·) = true) :
      Text.splitAt? mark (a ++ (s ++ b)) = (Text.splitAt? mark s).map fun p => (a ++ p.1, p.2 ++ b) := by
    have hmark : ∀ c ∈ mark, Text.isSpace c = false := by simpa using hmark
    rw [splitAt?_blank_append hm hmark ha, splitAt?_append_blank hm hmark hb, Option.map_map]
    rfl
  have hquote (r : List Char) : Text.splitAt? ['"'] (r ++ b) = (Text.splitAt? ['"'] r).map fun p => (p.1, p.2 ++ b) :=
    splitAt?_append_blank (by simp) (fun c hc => by rw [List.mem_singleton.1 hc]; rfl) hb
  rw [filename?, filename?, hsplit (by simp) rfl, hsplit (by simp) rfl]
  simp only [Option.bind_eq_bind, Option.bind_map, Function.comp_def, hquote, takeWhile_append_blank hb]

end White

/-- White space around an info text changes nothing. -/
theorem ofText_pad {u short v : List Char} (hu : Blank u) (hv : Blank v) (body : List Char) :
    CodeBlock.ofText (u ++ (short ++ v)) body = CodeBlock.ofText short body := by
  have hword : Text.firstWord (u ++ (short ++ v)) = Text.firstWord short := by
    rw [firstWord_blank_append hu, firstWord_append_blank hv]
  have hdialect : Dialect.ofInfo (String.ofList (u ++ (short ++ v))) = Dialect.ofInfo (String.ofList short) := by
    rw [Dialect.ofInfo, Dialect.ofInfo, String.toList_ofList, String.toList_ofList, hword]
  rw [CodeBlock.ofText, CodeBlock.ofText, hdialect, filename?_pad hu hv]

/-! ### Events -/

/-- An event that begins no fenced block. -/
def Silent (e : Event) : Prop := ∀ info, e ≠ .fenced info

/-- Events that report blocks, each with any number of texts in it, among silent ones. -/
inductive Reports : List Event → List CodeBlock → Prop
  | nil : Reports [] []
  | silent {e es bs} (silent : Silent e) (rest : Reports es bs) : Reports (e :: es) bs
  | block {es bs} (info : List Char) (texts : List (List Char)) (rest : Reports es bs) :
      Reports (.fenced info :: texts.map .text ++ .endCode :: es) (.ofText info texts.flatten :: bs)

section Gathering
variable {es : List Event} {bs : List CodeBlock}

theorem Reports.append_silent {silent : List Event} (hq : ∀ e ∈ silent, Silent e) (h : Reports es bs) :
    Reports (silent ++ es) bs := by
  induction silent with
  | nil => exact h
  | cons e silent ih =>
    obtain ⟨he, hq⟩ := List.forall_mem_cons.1 hq
    exact .silent he (ih hq)

/-- Between blocks a silent event counts for nothing. -/
theorem add_silent {e : Event} (h : Silent e) (before : List CodeBlock) :
    Gathered.add ⟨before, none⟩ e = ⟨before, none⟩ := by
  cases e with
  | fenced info => exact absurd rfl (h info)
  | _ => rfl

/-- In a block texts are put one behind another. -/
theorem add_texts (before : List CodeBlock) (info body : List Char) (texts : List (List Char)) :
    (texts.map Event.text).foldl Gathered.add ⟨before, some (info, body)⟩ =
      ⟨before, some (info, body ++ texts.flatten)⟩ := by
  induction texts generalizing body with
  | nil => simp
  | cons s texts ih =>
    refine (ih (body ++ s)).trans ?_
    rw [List.flatten_cons, List.append_assoc]

/-- **Events are gathered into the blocks that they report**: none is lost, none is there twice, and no text from
outside gets into one. -/
theorem foldl_add (h : Reports es bs) (before : List CodeBlock) :
    es.foldl Gathered.add ⟨before, none⟩ = ⟨before ++ bs, none⟩ := by
  induction h generalizing before with
  | nil => simp
  | silent silent _ ih =>
    rw [List.foldl_cons, add_silent silent]
    exact ih before
  | block info texts _ ih =>
    rw [List.cons_append, List.foldl_cons, List.foldl_append]
    rw [show Gathered.add ⟨before, none⟩ (.fenced info) = ⟨before, some (info, [])⟩ from rfl, add_texts,
      List.nil_append, List.foldl_cons]
    rw [show Gathered.add ⟨before, some (info, texts.flatten)⟩ .endCode =
      ⟨before ++ [.ofText info texts.flatten], none⟩ from rfl, ih, List.append_assoc, List.singleton_append]

theorem blocksOf_eq (h : Reports es bs) : blocksOf es = bs := congrArg Gathered.blocks (foldl_add h [])

end Gathering

/-! ### Readers -/

/-- What is relied on of a reader of markdown: fenced blocks are read as the standard for markdown has them. -/
structure Reads (read : List Char → List Event) : Prop where
  /-- In an empty text nothing is there. -/
  nil : read [] = []
  /-- An empty line between blocks begins none. -/
  emptyLine : ∀ r, ∃ silent, (∀ e ∈ silent, Silent e) ∧ read ('\n' :: r) = silent ++ read r
  /-- Three backticks begin a block: what is behind them is its info text, without white space around it, and all lines
  up to the closing fence are its text, as written. Then the rest is read. -/
  fenced : ∀ (info : List Char) (lines : List (List Char)) (r : List Char),
    (∀ c ∈ info, c ∉ ['`', '\n', '\x00', '\r', '\\', '&']) →
    (∀ line ∈ lines, (∀ c ∈ line, c ∉ ['\n', '\r', '\x00']) ∧ ¬ Closes line) →
    ∃ (u short v : List Char) (texts : List (List Char)), Blank u ∧ Blank v ∧ info = u ++ (short ++ v) ∧
      texts.flatten = joinLines lines ∧
        read ("```".toList ++ (info ++ '\n' :: (joinLines lines ++ (closingLine ++ r)))) =
        .fenced short :: texts.map .text ++ .endCode :: read r

/-- An opening fence: its info text is the rest of its line without the white space around it, and a body follows. -/
theorem block_fence {info : List Char} (hmark : '`' ∉ info) (hline : '\n' ∉ info) (r : List Char) :
    ∃ fuel, r.length < fuel ∧ Markdown.block [] ("```".toList ++ (info ++ '\n' :: r)) =
      ([], (fencedBody [] 0 '`' 3 fuel r).2,
        some ⟨((info.dropWhile isLineSpace).reverse.dropWhile isPlainSpace).reverse,
          (fencedBody [] 0 '`' 3 fuel r).1⟩) := by
  obtain ⟨s, hs⟩ : ∃ s, s = '`' :: '`' :: '`' :: (info ++ '\n' :: r) := ⟨_, rfl⟩
  rw [show "```".toList ++ (info ++ '\n' :: r) = s from hs.symm]
  refine ⟨s.length + 1, by simp [hs]; omega, ?_⟩
  -- No other block begins with a backtick.
  have hopen : openContainers (s.length + 1) [] ⟨s, 0, 0⟩ = ([], .inl ⟨s, 0, 0⟩) := by subst hs; rfl
  have hblank : blankLine? s = none := by subst hs; rfl
  have hlead : Lead.take ⟨s, 0, 0⟩ 4 = (4, ⟨s, 0, 0⟩) := by subst hs; rfl
  have htags : tags? s = none := by subst hs; rfl
  have hother : (isRule s || isHeading s) = false := by subst hs; rfl
  have hmarks : (s.takeWhile (· == '`')).length = 3 := by
    cases info with
    | nil => subst hs; rfl
    | cons c info => simp [hs, Ne.symm (List.ne_of_not_mem_cons hmark)]
  have hrest : s.drop 3 = info ++ '\n' :: r := by rw [hs]; rfl
  have hfence : fence? s = some (3, '`') := by
    have hinfo : (info ++ ['\n']).contains '`' = false := by simpa using hmark
    rw [hs] at hmarks hrest ⊢
    simp only [fence?, hmarks, hrest, rawLine_append hline, hinfo]
    rfl
  have hraw : rawLine ((s.drop 3).dropWhile isLineSpace) = (info.dropWhile isLineSpace ++ ['\n'], r) := by
    have hdrop : (info ++ '\n' :: r).dropWhile isLineSpace = info.dropWhile isLineSpace ++ '\n' :: r := by
      have hend : ('\n' :: r).dropWhile isLineSpace = '\n' :: r := rfl
      rw [List.dropWhile_append, hend]
      split <;> simp_all
    rw [hrest, hdrop, rawLine_append fun h => hline ((List.dropWhile_sublist _).mem h)]
  have hend (u : List Char) : ('\n' :: u).dropWhile isPlainSpace = u.dropWhile isPlainSpace := rfl
  simp only [Markdown.block, goOn, hopen, hblank, hlead, htags, hother, hfence, hraw, afterText]
  simp [hend]

theorem block_emptyLine (r : List Char) : Markdown.block [] ('\n' :: r) = ([], r, none) := rfl

/-- An info text without escapes and references stands for itself. -/
theorem decodeInfo_eq {s : List Char} (h : ∀ c ∈ s, c ∉ ['\r', '\\', '&']) (fuel : Nat) : decodeInfo fuel s = s := by
  induction fuel generalizing s with
  | zero => rfl
  | succ fuel ih =>
    cases s with
    | nil => rfl
    | cons c s =>
      obtain ⟨hc, hs⟩ := List.forall_mem_cons.1 h
      simp only [List.mem_cons, List.not_mem_nil, or_false, not_or] at hc
      rw [decodeInfo.eq_def]
      split <;> simp_all

/-- An info text without the white space around it. -/
def short (info : List Char) : List Char := ((info.dropWhile isLineSpace).reverse.dropWhile isPlainSpace).reverse

theorem exists_pad (info : List Char) : ∃ u v, Blank u ∧ Blank v ∧ info = u ++ (short info ++ v) := by
  have hline (c : Char) (h : isLineSpace c = true) : Text.isSpace c = true := by
    simp only [isLineSpace, Bool.or_eq_true, beq_iff_eq] at h
    rcases h with ((rfl | rfl) | rfl) | rfl <;> rfl
  have hplain (c : Char) (h : isPlainSpace c = true) : Text.isSpace c = true := by
    simp only [isPlainSpace, Bool.or_eq_true, beq_iff_eq] at h
    rcases h with rfl | h
    · rfl
    · simp [Text.isSpace, h]
  have hcut := congrArg List.reverse
    (List.takeWhile_append_dropWhile (p := isPlainSpace) (l := (info.dropWhile isLineSpace).reverse))
  rw [List.reverse_append, List.reverse_reverse] at hcut
  refine ⟨info.takeWhile isLineSpace, ((info.dropWhile isLineSpace).reverse.takeWhile isPlainSpace).reverse,
    fun c hc => hline c (List.mem_takeWhile_imp hc),
    fun c hc => hplain c (List.mem_takeWhile_imp (List.mem_reverse.1 hc)), ?_⟩
  rw [short, hcut, List.takeWhile_append_dropWhile]

theorem events_emptyLine (r : List Char) : events ('\n' :: r) = events r := by
  unfold events
  rw [fencedBlocks, fencedFrom, block_emptyLine]
  rfl

/-- **The events of a text are those of a reader of markdown.** -/
theorem reads_events : Reads events where
  nil := rfl
  emptyLine r := ⟨[], by simp, events_emptyLine r⟩
  fenced info lines r hinfo hlines := by
    have hmark : '`' ∉ info := fun h => hinfo _ h (by simp)
    have hline : '\n' ∉ info := fun h => hinfo _ h (by simp)
    have hplain : ∀ line ∈ lines, '\n' ∉ line ∧ '\r' ∉ line ∧ ¬ Closes line := fun line hl =>
      ⟨fun h => (hlines line hl).1 _ h (by simp), fun h => (hlines line hl).1 _ h (by simp), (hlines line hl).2⟩
    obtain ⟨u, v, hu, hv, hpad⟩ := exists_pad info
    have hshort : ∀ c ∈ short info, c ∉ ['\r', '\\', '&'] := fun c hc hm =>
      hinfo c (hpad ▸ by simp [hc]) (List.mem_cons_of_mem _ (List.mem_cons_of_mem _ (List.mem_cons_of_mem _ hm)))
    obtain ⟨fuel, hfuel, hblock⟩ := block_fence hmark hline (joinLines lines ++ (closingLine ++ r))
    have hlength := length_le_joinLines lines
    rw [List.length_append] at hfuel
    rw [fencedBody_joinLines hplain (by omega)] at hblock
    refine ⟨u, short info, v, [joinLines lines], hu, hv, hpad, by simp, ?_⟩
    obtain ⟨s, hs⟩ : ∃ s, s = "```".toList ++ (info ++ '\n' :: (joinLines lines ++ (closingLine ++ r))) := ⟨_, rfl⟩
    have hne : s.isEmpty = false := by rw [hs]; rfl
    have hlt : r.length < s.length := by rw [hs]; simp; omega
    rw [← hs] at hblock ⊢
    unfold events fencedBlocks
    rw [fencedFrom, hne, hblock, if_neg Bool.false_ne_true]
    dsimp only
    rw [fencedFrom_of_lt hlt (Nat.lt_succ_self _), Option.toList_some, List.singleton_append, List.flatMap_cons,
      show (List.dropWhile isPlainSpace (List.dropWhile isLineSpace info).reverse).reverse = short info from rfl,
      decodeInfo_eq hshort]
    rfl

/-! ### Snippets -/

/-- An info text and a body for a block between lines of backticks. -/
structure Snippet where
  info : List Char
  body : List Char
  info_plain : ∀ c ∈ info, c ∉ ['`', '\n', '\x00', '\r', '\\', '&']
  body_ends : body = [] ∨ body.getLast? = some '\n'
  body_plain : ∀ c ∈ body, c ∉ ['\r', '\x00']
  body_open : ∀ line ∈ body.splitOn '\n', ¬ Closes line

namespace Snippet
variable (b : Snippet)

/-- The snippet between its fences, with an empty line after it. -/
def text : List Char := "```".toList ++ b.info ++ '\n' :: b.body ++ "```\n\n".toList

/-- The block that it stands for. -/
def block : CodeBlock := .ofText b.info b.body

/-- The body is made of lines that do not close it. -/
theorem exists_lines : ∃ lines, joinLines lines = b.body ∧
    ∀ line ∈ lines, (∀ c ∈ line, c ∉ ['\n', '\r', '\x00']) ∧ ¬ Closes line := by
  obtain ⟨lines, hjoin, hsplit, hlines⟩ := exists_joinLines b.body_ends
  refine ⟨lines, hjoin, fun line hline => ⟨fun c hc hm => ?_, b.body_open line ?_⟩⟩
  · rcases List.mem_cons.1 hm with rfl | hm
    · exact hlines line hline hc
    · refine b.body_plain c ?_ hm
      rw [← hjoin]
      exact List.mem_flatMap.2 ⟨line, hline, List.mem_append_left _ hc⟩
  · exact hsplit ▸ List.mem_append_left _ hline

end Snippet

/-! ### Documents -/

def document (l : List Snippet) : List Char := l.flatMap Snippet.text

section Documents
variable {read : List Char → List Event} (reads : Reads read)
include reads

/-- **A snippet is reported as one block**, and behind it the rest. -/
theorem reports_text (b : Snippet) {r : List Char} {bs : List CodeBlock} (rest : Reports (read r) bs) :
    Reports (read (b.text ++ r)) (b.block :: bs) := by
  obtain ⟨lines, hjoin, hlines⟩ := b.exists_lines
  have htext : b.text ++ r = "```".toList ++ (b.info ++ '\n' :: (joinLines lines ++ (closingLine ++ '\n' :: r))) := by
    simp [Snippet.text, hjoin, closingLine]
  obtain ⟨u, short, v, texts, hu, hv, hinfo, hbody, hread⟩ := reads.fenced b.info lines ('\n' :: r) b.info_plain hlines
  obtain ⟨silent, hsilent, hline⟩ := reads.emptyLine r
  have hblock : b.block = .ofText short texts.flatten := by
    rw [Snippet.block, hbody, hjoin, hinfo, ofText_pad hu hv]
  rw [htext, hread, hline, hblock]
  exact .block short texts (rest.append_silent hsilent)

theorem reports_document (l : List Snippet) : Reports (read (document l)) (l.map Snippet.block) := by
  induction l with
  | nil =>
    rw [document, List.flatMap_nil, reads.nil]
    exact .nil
  | cons b l ih => exact reports_text reads b ih

/-- **A document of fenced blocks is read back**, with any reader of markdown: its blocks are the snippets in their
order, and the source in it is the body of the first one in a script dialect, or else of the first. -/
theorem codeBlocks_document (l : List Snippet) : codeBlocksBy read (document l) = l.map Snippet.block ∧
    unwrapBy read (document l) = (((l.find? (·.block.dialect.isScript)).or l.head?).map Snippet.body).getD [] := by
  have hblocks : codeBlocksBy read (document l) = l.map Snippet.block := blocksOf_eq (reports_document reads l)
  refine ⟨hblocks, ?_⟩
  cases l with
  | nil => rfl
  | cons b l =>
    have hfence : Text.contains "```".toList (document (b :: l)) = true := rfl
    rw [unwrapBy, hfence, hblocks]
    simp only [List.find?_map, Function.comp_def]
    cases (b :: l).find? (·.block.dialect.isScript) <;> rfl

end Documents

/-- A body that means something to a reader of markdown elsewhere, and a source. -/
def samples : List Snippet :=
  [⟨"md".toList, "~~~\n- > a\n\n".toList, by simp, by decide, by simp, by decide⟩,
    ⟨"tsx file=a.tsx".toList, "    <b/>\n".toList, by simp, by decide, by simp, by decide⟩]

theorem codeBlocks_document_samples : Reads events ∧
    codeBlocksBy events (document samples) =
      [⟨.unknown, "~~~\n- > a\n\n".toList, none⟩, ⟨.tsx, "    <b/>\n".toList, some "a.tsx".toList⟩] ∧
    unwrapBy events (document samples) = "    <b/>\n".toList := by
  obtain ⟨hblocks, hsource⟩ := codeBlocks_document reads_events samples
  exact ⟨reads_events, hblocks, hsource⟩

end LivePreview.Source
