import LivePreview.Proofs.Markup.Unique

/-! The content of output can be read off its markup.

Without its tags the markup is the text of the output, escaped (`outsideTags_marks`), and what is escaped can be decoded
from left to right: an ampersand in it begins an entity (`decodeEntities_escaped`). No text and no value brings in a tag
or an entity of its own; only a name that closes its tag could. -/
namespace LivePreview.Node
open Mark

variable {c : Char} {r t : List Char}

/-! ### Entities -/

/-- A text with the four entities decoded in one scan from left to right. -/
def decodeEntities : List Char → List Char
  | '&' :: 'a' :: 'm' :: 'p' :: ';' :: r => '&' :: decodeEntities r
  | '&' :: 'l' :: 't' :: ';' :: r => '<' :: decodeEntities r
  | '&' :: 'g' :: 't' :: ';' :: r => '>' :: decodeEntities r
  | '&' :: 'q' :: 'u' :: 'o' :: 't' :: ';' :: r => '"' :: decodeEntities r
  | c :: r => c :: decodeEntities r
  | [] => []

theorem decodeEntities_cons (h : c ≠ '&') (r : List Char) : decodeEntities (c :: r) = c :: decodeEntities r := by
  rw [decodeEntities.eq_def]
  split <;> simp_all

theorem decodeEntities_escapeChar (c : Char) (r : List Char) :
    decodeEntities (escapeChar c ++ r) = c :: decodeEntities r := by
  unfold escapeChar
  split
  case h_5 hand _ _ _ => exact decodeEntities_cons hand r
  all_goals rfl

/-- What is escaped is decoded, whatever follows it. -/
theorem decodeEntities_escaped (s r : List Char) :
    decodeEntities (s.flatMap escapeChar ++ r) = s ++ decodeEntities r := by
  induction s with
  | nil => rfl
  | cons c s ih => rw [List.flatMap_cons, List.append_assoc, decodeEntities_escapeChar, ih, List.cons_append]

/-- The text with `w` in the place of each character `c`. -/
def replaceChar (c : Char) (w : String) (s : List Char) : List Char :=
  s.flatMap fun d => if d = c then w.toList else [d]

/-- Escaping is one replacement after another, of the ampersand first, as the others bring in ampersands. -/
theorem escape_eq_replacements (s : String) : escape s =
    replaceChar '"' "&quot;" (replaceChar '>' "&gt;" (replaceChar '<' "&lt;" (replaceChar '&' "&amp;" s.toList))) := by
  simp only [escape, replaceChar, List.flatMap_assoc]
  refine congrArg (List.flatMap · s.toList) (funext fun c => ?_)
  unfold escapeChar
  split
  case h_5 => simp_all
  all_goals rfl

/-! ### Tags -/

/-- What is left of a text without each stretch from a `<` up to the next `>`. -/
def outsideTags : List Char → List Char
  | [] => []
  | c :: r => if c == '<' && r.contains '>' then outsideTags ((r.dropWhile (· != '>')).drop 1) else c :: outsideTags r
termination_by s => s.length
decreasing_by
  · have := (List.dropWhile_suffix (l := r) (· != '>')).length_le
    simp only [List.length_drop, List.length_cons]
    omega
  · exact Nat.lt_succ_self _

theorem outsideTags_cons (h : c ≠ '<') (r : List Char) : outsideTags (c :: r) = c :: outsideTags r := by
  rw [outsideTags, if_neg (by simp [h])]

theorem outsideTags_append (h : '<' ∉ t) (r : List Char) : outsideTags (t ++ r) = t ++ outsideTags r := by
  induction t with
  | nil => rfl
  | cons c t ih =>
    obtain ⟨hc, ht⟩ := List.ne_and_not_mem_of_not_mem_cons h
    rw [List.cons_append, outsideTags_cons hc.symm, ih ht, List.cons_append]

/-- A tag is left out when it ends with the first bracket that closes one. -/
theorem outsideTags_tag (h : '>' ∉ t) (r : List Char) : outsideTags ('<' :: (t ++ '>' :: r)) = outsideTags r := by
  have hpast : (t ++ '>' :: r).dropWhile (· != '>') = '>' :: r := by
    have hother : ∀ c ∈ t, (c != '>') = true := fun c hc => bne_iff_ne.2 (ne_of_mem_of_not_mem hc h)
    rw [List.dropWhile_append_of_pos hother]
    rfl
  rw [outsideTags, if_pos (by simp), hpast, List.drop_one, List.tail_cons]

/-! ### Names -/

/-- A name that does not close the tag it stands in. -/
def staysInTag (name : String) : Bool := !name.toList.contains '>'

mutual

/-- The names of all elements and attributes stay in their tags. -/
def namesStay : Node → Bool
  | text _ => true
  | element tag attributes _ children =>
    staysInTag tag && attributes.all (fun a => staysInTag a.1) && allNamesStay children

def allNamesStay : List Node → Bool
  | [] => true
  | n :: ns => namesStay n && allNamesStay ns

end

theorem bracket_not_mem_escape (s : String) : '>' ∉ escape s := by
  intro h
  obtain ⟨d, -, hd⟩ := List.mem_flatMap.1 h
  unfold escapeChar at hd
  split at hd <;> simp_all
  grind

theorem not_mem_attributeMarkup {a : String × String} (h : staysInTag a.1) : '>' ∉ attributeMarkup a := by
  have hname : '>' ∉ (markupName a.1).toList := by
    unfold markupName
    split
    · decide
    · decide
    · simpa [staysInTag] using h
  rw [show attributeMarkup a = ' ' :: ((markupName a.1).toList ++ valueMarkup a.2) from rfl, valueMarkup]
  split <;> simp [hname, bracket_not_mem_escape]

theorem not_mem_attributes {attributes : List (String × String)} (h : ∀ a ∈ attributes, staysInTag a.1) :
    '>' ∉ attributes.flatMap attributeMarkup := fun hc =>
  have ⟨a, ha, hc⟩ := List.mem_flatMap.1 hc
  not_mem_attributeMarkup (h a ha) hc

/-! ### Marks -/

namespace Mark

/-- The text that a mark shows. -/
def shown : Mark → List Char
  | words s => s.toList
  | _ => []

/-- The names in a mark stay in their tag. -/
def Stays : Mark → Prop
  | words _ => True
  | opening tag attributes _ => staysInTag tag ∧ ∀ a ∈ attributes, staysInTag a.1
  | closing tag => staysInTag tag

end Mark

theorem outsideTags_text {k : Mark} (h : k.Stays) (r : List Char) :
    outsideTags (k.text ++ r) = k.shown.flatMap escapeChar ++ outsideTags r := by
  cases k with
  | words s => exact outsideTags_append (fun hc => (not_mem_escape hc).1 rfl) r
  | opening tag attributes closed =>
    have htag : '>' ∉ tag.toList ++ attributes.flatMap attributeMarkup ++ if closed then " /".toList else [] := by
      have hname : '>' ∉ tag.toList := by simpa [staysInTag] using h.1
      cases closed <;> simp [hname, not_mem_attributes h.2]
    have hsplit : (opening tag attributes closed).text ++ r =
        '<' :: ((tag.toList ++ attributes.flatMap attributeMarkup ++ if closed then " /".toList else []) ++
          '>' :: r) := by
      cases closed <;> simp [Mark.text, tagEnd]
    rw [hsplit, outsideTags_tag htag]
    rfl
  | closing tag =>
    have hname : staysInTag tag = true := h
    have htag : '>' ∉ '/' :: tag.toList := by simpa [staysInTag] using hname
    have hsplit : (closing tag).text ++ r = '<' :: ('/' :: tag.toList ++ '>' :: r) := by simp [Mark.text]
    rw [hsplit, outsideTags_tag htag]
    rfl

/-- Without the tags the escaped texts are left. -/
theorem outsideTags_marks {ks : List Mark} (h : ∀ k ∈ ks, k.Stays) :
    outsideTags (ks.flatMap Mark.text) = (ks.flatMap Mark.shown).flatMap escapeChar := by
  induction ks with
  | nil => rw [List.flatMap_nil, outsideTags]; rfl
  | cons k ks ih =>
    obtain ⟨hk, hks⟩ := List.forall_mem_cons.1 h
    rw [List.flatMap_cons, outsideTags_text hk, ih hks, List.flatMap_cons, List.flatMap_append]

mutual

theorem content_eq (n : Node) : content n = (marks n).flatMap Mark.shown := by
  cases n with
  | text s => simp [content, marks, Mark.shown]
  | element tag attributes handlers children =>
    unfold content marks
    split
    case isTrue hvoid =>
      obtain rfl : children = [] := by simpa using (Bool.and_eq_true_iff.1 hvoid).2
      rfl
    case isFalse => simp [Mark.shown, contentAll_eq children]

theorem contentAll_eq (ns : List Node) : contentAll ns = (marksAll ns).flatMap Mark.shown := by
  cases ns with
  | nil => rfl
  | cons n ns => rw [contentAll, marksAll, List.flatMap_append, content_eq n, contentAll_eq ns]

end

mutual

theorem marks_stay (n : Node) (h : namesStay n) : ∀ k ∈ marks n, k.Stays := by
  cases n with
  | text s => simp [marks, Stays]
  | element tag attributes handlers children =>
    simp only [namesStay, Bool.and_eq_true, List.all_eq_true] at h
    obtain ⟨⟨htag, hattributes⟩, hchildren⟩ := h
    have hopening (closed : Bool) : (opening tag attributes closed).Stays := ⟨htag, hattributes⟩
    have hclosing : ∀ k ∈ [closing tag], k.Stays := List.forall_mem_singleton.2 htag
    unfold marks
    split
    · exact List.forall_mem_singleton.2 (hopening true)
    · exact List.forall_mem_cons.2
        ⟨hopening false, List.forall_mem_append.2 ⟨marksAll_stay children hchildren, hclosing⟩⟩

theorem marksAll_stay (ns : List Node) (h : allNamesStay ns) : ∀ k ∈ marksAll ns, k.Stays := by
  cases ns with
  | nil => simp [marksAll]
  | cons n ns =>
    obtain ⟨hn, hns⟩ := Bool.and_eq_true_iff.1 h
    rw [marksAll, List.forall_mem_append]
    exact ⟨marks_stay n hn, marksAll_stay ns hns⟩

end

/-! ### Reading the content -/

/-- **The content of output can be read off its markup.** Without what stands between brackets, and with the four
entities decoded from left to right, the markup is the text of the output, whatever its texts and values hold. -/
theorem content_of_markup {ns : List Node} (h : allNamesStay ns) :
    decodeEntities (outsideTags (markupAll ns)) = contentAll ns := by
  have hdecoded := decodeEntities_escaped (contentAll ns) []
  rw [List.append_nil, decodeEntities, List.append_nil] at hdecoded
  rw [markupAll_eq, outsideTags_marks (marksAll_stay ns h), ← contentAll_eq, hdecoded]

/-- Texts that look like entities and tags, next to each other and to void elements, values with brackets, and a name
with an ampersand. -/
def leaflet : List Node :=
  [text "&", text "amp; &lt;b>", element "img" [("alt", "a > b <i>"), ("x&y", "\"")] [] [],
    element "br" [("className", "")] [("onClick", 3)] [text "</br>", element "hr" [] [] []], text "&quot;"]

theorem content_of_markup_leaflet : allNamesStay leaflet ∧
    decodeEntities (outsideTags (markupAll leaflet)) = "&amp; &lt;b></br>&quot;".toList := by
  have hnames : allNamesStay leaflet := by decide +kernel
  refine ⟨hnames, (content_of_markup hnames).trans ?_⟩
  decide +kernel

end LivePreview.Node
