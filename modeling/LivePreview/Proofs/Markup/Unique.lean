import LivePreview.Markup.Node

/-! Markup can be read in one way only.

The markup of a tree is a row of marks: texts, start tags and end tags. Marks are told apart first, by the characters
at which names, values and texts end (`marks_unique`), and the tree is found in its marks then, since every element
that is opened is closed behind its children (`marksAll_append_inj`). -/
namespace LivePreview.Node

/-! ### Output that can be read -/

/-- A character that a name can have in markup. -/
def isNameChar (c : Char) : Bool := !Text.isSpace c && !"\"=/<>".toList.contains c

def isName (name : String) : Bool := !name.isEmpty && name.toList.all isNameChar

/-- The name of an attribute that no other name is spelled like in markup. -/
def isOwnName (name : String) : Bool := isName name && name != "class" && name != "for"

def isText : Node → Bool
  | text _ => true
  | element .. => false

mutual

/-- Output without handlers, with names that are names in markup, and with no text that is empty or next to another. -/
def isReadable : Node → Bool
  | text s => !s.isEmpty
  | element tag attributes handlers children =>
    isName tag && attributes.all (fun a => isOwnName a.1) && handlers.isEmpty && areReadable children

def areReadable : List Node → Bool
  | [] => true
  | n :: ns => isReadable n && !(n.isText && ns.head?.any isText) && areReadable ns

end

/-! ### Where pieces end -/

/-- A piece that ends at the first character of a kind can be told from what follows it. -/
theorem cut_unique (stops : Char → Bool) {a b r s : List Char} (ha : ∀ c ∈ a, stops c = false)
    (hb : ∀ c ∈ b, stops c = false) (hr : ∀ c ∈ r.head?, stops c = true) (hs : ∀ c ∈ s.head?, stops c = true)
    (h : a ++ r = b ++ s) : a = b ∧ r = s := by
  induction a generalizing b with
  | nil =>
    cases b with
    | nil => exact ⟨rfl, h⟩
    | cons d b =>
      have hd : stops d = true := hr d (by simp [show r = d :: (b ++ s) from h])
      simp [hb d List.mem_cons_self] at hd
  | cons c a ih =>
    cases b with
    | nil =>
      have hc : stops c = true := hs c (by simp [← show c :: (a ++ r) = s from h])
      simp [ha c List.mem_cons_self] at hc
    | cons d b =>
      obtain ⟨rfl, hbehind⟩ := List.cons.inj h
      obtain ⟨rfl, hrest⟩ := ih (fun e he => ha e (.tail _ he)) (fun e he => hb e (.tail _ he)) hbehind
      exact ⟨rfl, hrest⟩

variable {c d : Char} {r s : List Char} {name name' u v : String}

theorem escapeChar_append_inj (h : escapeChar c ++ r = escapeChar d ++ s) : c = d ∧ r = s := by
  unfold escapeChar at h
  split at h <;> split at h <;> simp_all <;> grind

theorem escape_inj (h : escape u = escape v) : u = v := by
  have chars : ∀ a b : List Char, a.flatMap escapeChar = b.flatMap escapeChar → a = b := by
    intro a
    have nonempty : ∀ c r, escapeChar c ++ r ≠ [] := by
      intro c r
      unfold escapeChar
      split <;> simp
    induction a with
    | nil =>
      intro b hb
      cases b with
      | nil => rfl
      | cons d b => exact absurd hb.symm (nonempty _ _)
    | cons c a ih =>
      intro b hb
      cases b with
      | nil => exact absurd hb (nonempty _ _)
      | cons d b =>
        obtain ⟨rfl, hrest⟩ := escapeChar_append_inj (by simpa only [List.flatMap_cons] using hb)
        rw [ih b hrest]
  exact String.toList_injective (chars _ _ h)

/-- What stands for a text has no bracket and no quotation mark. -/
theorem not_mem_escape (hc : c ∈ escape u) : c ≠ '<' ∧ c ≠ '"' := by
  obtain ⟨d, -, hd⟩ := List.mem_flatMap.1 hc
  unfold escapeChar at hd
  split at hd <;> simp_all <;> grind

theorem ne_nil_of_isName (h : isName name) : ∃ c r, name.toList = c :: r ∧ isNameChar c := by
  simp only [isName, Bool.and_eq_true, List.all_eq_true] at h
  cases hname : name.toList with
  | nil => simp_all
  | cons c r => exact ⟨c, r, rfl, h.2 c (by simp [hname])⟩

/-- The text goes on with something that no name has, or is at its end. -/
def EndsName (s : List Char) : Prop := ∀ c ∈ s.head?, isNameChar c = false

theorem name_cut (hn : isName name) (hm : isName name') (hr : EndsName r) (hs : EndsName s)
    (h : name.toList ++ r = name'.toList ++ s) : name = name' ∧ r = s := by
  simp only [isName, Bool.and_eq_true, List.all_eq_true] at hn hm
  obtain ⟨heq, hrest⟩ := cut_unique (fun c => !isNameChar c) (fun c hc => by simp [hn.2 c hc])
    (fun c hc => by simp [hm.2 c hc]) (fun c hc => by simp [hr c hc]) (fun c hc => by simp [hs c hc]) h
  exact ⟨String.toList_injective heq, hrest⟩

/-! ### Attributes -/

theorem isName_markupName (h : isOwnName name) : isName (markupName name) := by
  unfold markupName
  split
  · decide
  · decide
  · simp_all [isOwnName]

theorem markupName_inj (hn : isOwnName name) (hm : isOwnName name') (h : markupName name = markupName name') :
    name = name' := by
  unfold markupName at h
  split at h <;> split at h <;> simp_all [isOwnName]

/-- What stands behind the name of an attribute. -/
def valueMarkup (v : String) : List Char := if v.isEmpty then [] else "=\"".toList ++ escape v ++ ['"']

theorem attributeMarkup_eq (name v : String) :
    attributeMarkup (name, v) = ' ' :: ((markupName name).toList ++ valueMarkup v) := rfl

/-- The text goes on with the next attribute or with the end of the tag. -/
def EndsAttribute (s : List Char) : Prop := ∃ c t, s = c :: t ∧ (c = ' ' ∨ c = '>')

theorem EndsAttribute.endsName (h : EndsAttribute r) : EndsName r := by
  obtain ⟨c, t, rfl, rfl | rfl⟩ := h <;> simp [EndsName] <;> decide

theorem endsName_value (h : EndsAttribute r) : EndsName (valueMarkup v ++ r) := by
  unfold valueMarkup
  split
  · exact h.endsName
  · simp [EndsName]
    decide

theorem value_append_inj (hr : EndsAttribute r) (hs : EndsAttribute s)
    (h : valueMarkup u ++ r = valueMarkup v ++ s) : u = v ∧ r = s := by
  have apart : ∀ {t : List Char} {w : List Char}, EndsAttribute t → t ≠ '=' :: w := by
    rintro _ w ⟨c, t, rfl, hc⟩ heq
    obtain ⟨rfl, -⟩ := List.cons.inj heq
    simp at hc
  unfold valueMarkup at h
  split at h <;> split at h
  · simp_all [String.isEmpty_iff]
  · exact absurd h (apart hr)
  · exact absurd h.symm (apart hs)
  · have hquoted : escape u ++ '"' :: r = escape v ++ '"' :: s := by simpa using h
    obtain ⟨heq, hrest⟩ := cut_unique (fun c => c == '"') (fun c hc => by simp [(not_mem_escape hc).2])
      (fun c hc => by simp [(not_mem_escape hc).2]) (by simp) (by simp) hquoted
    exact ⟨escape_inj heq, (List.cons.inj hrest).2⟩

/-- The end of a start tag. The tag of a void element closes the element. -/
def tagEnd (closed : Bool) : List Char := if closed then " />".toList else ['>']

theorem endsAttribute_attributes (attributes : List (String × String)) (closed : Bool) :
    EndsAttribute (attributes.flatMap attributeMarkup ++ (tagEnd closed ++ r)) := by
  cases attributes with
  | nil => cases closed <;> simp [EndsAttribute, tagEnd]
  | cons a as => exact ⟨' ', _, rfl, .inl rfl⟩

/-- The end of a tag is not the next attribute: a blank in front of a slash is not one in front of a name. -/
theorem tagEnd_ne {closed : Bool} (hname : isOwnName name) : tagEnd closed ++ r ≠ attributeMarkup (name, v) ++ s := by
  intro h
  obtain ⟨c, t, hc, hchar⟩ := ne_nil_of_isName (isName_markupName hname)
  cases closed <;> simp only [tagEnd, attributeMarkup_eq, hc] at h <;> simp at h
  obtain ⟨rfl, -⟩ := h
  simp [isNameChar] at hchar

theorem attributes_append_inj {as bs : List (String × String)} {closed closed' : Bool}
    (ha : ∀ a ∈ as, isOwnName a.1) (hb : ∀ b ∈ bs, isOwnName b.1)
    (h : as.flatMap attributeMarkup ++ (tagEnd closed ++ r) = bs.flatMap attributeMarkup ++ (tagEnd closed' ++ s)) :
    as = bs ∧ closed = closed' ∧ r = s := by
  induction as generalizing bs with
  | nil =>
    cases bs with
    | nil => cases closed <;> cases closed' <;> simp_all [tagEnd]
    | cons b bs => exact absurd (by simpa using h) (tagEnd_ne (hb b List.mem_cons_self))
  | cons a as ih =>
    cases bs with
    | nil => exact absurd (by simpa using h.symm) (tagEnd_ne (ha a List.mem_cons_self))
    | cons b bs =>
      obtain ⟨name, u⟩ := a
      obtain ⟨name', v⟩ := b
      have hn : isOwnName name := ha _ List.mem_cons_self
      have hm : isOwnName name' := hb _ List.mem_cons_self
      simp only [List.flatMap_cons, attributeMarkup_eq, List.cons_append, List.append_assoc] at h
      have hbehind := endsAttribute_attributes (r := r) as closed
      have hbehind' := endsAttribute_attributes (r := s) bs closed'
      obtain ⟨hnames, h⟩ := name_cut (isName_markupName hn) (isName_markupName hm) (endsName_value hbehind)
        (endsName_value hbehind') (List.cons.inj h).2
      obtain ⟨rfl, hrow⟩ := value_append_inj hbehind hbehind' h
      obtain ⟨rfl, hclosed, hrest⟩ := ih (fun a h => ha a (.tail _ h)) (fun b h => hb b (.tail _ h)) hrow
      exact ⟨by rw [markupName_inj hn hm hnames], hclosed, hrest⟩

/-! ### Marks -/

/-- A piece of markup: a text, a start tag or an end tag. -/
inductive Mark where
  | words (s : String)
  | opening (tag : String) (attributes : List (String × String)) (closed : Bool)
  | closing (tag : String)

namespace Mark

def text : Mark → List Char
  | words s => escape s
  | opening tag attributes closed => '<' :: (tag.toList ++ (attributes.flatMap attributeMarkup ++ tagEnd closed))
  | closing tag => '<' :: '/' :: (tag.toList ++ ['>'])

def IsWords : Mark → Prop
  | words _ => True
  | _ => False

/-- A mark with a text in it, or with names that are names in markup. -/
def Clear : Mark → Prop
  | words s => s ≠ ""
  | opening tag attributes _ => isName tag ∧ ∀ a ∈ attributes, isOwnName a.1
  | closing tag => isName tag

/-- Marks of which no two that stand together are texts. -/
def Apart : List Mark → Prop
  | [] => True
  | k :: ks => k.Clear ∧ (k.IsWords → ∀ l ∈ ks.head?, ¬ l.IsWords) ∧ Apart ks

variable {k l : Mark} {ks ls : List Mark}

theorem Clear.words_head {w : String} (h : (words w).Clear) : ∃ c t, (words w).text = c :: t ∧ c ≠ '<' := by
  cases hw : escape w with
  | nil => exact absurd (escape_inj (hw.trans (show [] = escape "" from rfl))) h
  | cons c t => exact ⟨c, t, hw, (not_mem_escape (u := w) (by simp [hw])).1⟩

theorem text_ne_nil (h : k.Clear) : k.text ≠ [] := by
  cases k with
  | words w =>
    obtain ⟨c, t, ht, -⟩ := h.words_head
    simp [ht]
  | opening => simp [text]
  | closing => simp [text]

/-- Behind a text the markup is at its end or goes on with a tag. -/
theorem Apart.head (h : Apart (k :: ks)) (hk : k.IsWords) : ∀ c ∈ (ks.flatMap text).head?, c = '<' := by
  cases ks with
  | nil => simp
  | cons l ls =>
    have hl : ¬ l.IsWords := h.2.1 hk l rfl
    cases l with
    | words => exact absurd trivial hl
    | opening => simp [text]
    | closing => simp [text]

/-- No start tag is an end tag: the slash is not the first character of a name. -/
theorem opening_ne_closing {tag tag' : String} {attributes : List (String × String)} {closed : Bool} (h : isName tag) :
    (opening tag attributes closed).text ++ r ≠ (closing tag').text ++ s := by
  intro heq
  obtain ⟨c, t, hc, hchar⟩ := ne_nil_of_isName h
  simp only [text, hc, List.cons_append, List.cons.injEq] at heq
  obtain ⟨-, rfl, -⟩ := heq
  simp [isNameChar] at hchar

theorem words_ne_tag {w : String} (hw : (words w).Clear) : (words w).text ++ r ≠ '<' :: s := by
  obtain ⟨c, t, ht, hc⟩ := hw.words_head
  simp [ht, hc]

/-- The first mark can be told from what follows it. -/
theorem text_append_inj (hk : k.Clear) (hl : l.Clear) (hr : k.IsWords → ∀ c ∈ r.head?, c = '<')
    (hs : l.IsWords → ∀ c ∈ s.head?, c = '<') (h : k.text ++ r = l.text ++ s) : k = l ∧ r = s := by
  cases k with
  | words w =>
    cases l with
    | words w' =>
      obtain ⟨heq, hrest⟩ := cut_unique (fun c => c == '<') (fun c hc => by simp [(not_mem_escape hc).1])
        (fun c hc => by simp [(not_mem_escape hc).1]) (fun c hc => by simp [hr trivial c hc])
        (fun c hc => by simp [hs trivial c hc]) h
      exact ⟨congrArg words (escape_inj heq), hrest⟩
    | opening => exact absurd h (words_ne_tag hk)
    | closing => exact absurd h (words_ne_tag hk)
  | opening tag as closed =>
    cases l with
    | words => exact absurd h.symm (words_ne_tag hl)
    | opening tag' bs closed' =>
      simp only [text, List.cons_append, List.append_assoc, List.cons.injEq, true_and] at h
      obtain ⟨rfl, hrow⟩ := name_cut hk.1 hl.1 (endsAttribute_attributes as closed).endsName
        (endsAttribute_attributes bs closed').endsName h
      obtain ⟨rfl, rfl, hrest⟩ := attributes_append_inj hk.2 hl.2 hrow
      exact ⟨rfl, hrest⟩
    | closing => exact absurd h (opening_ne_closing hk.1)
  | closing tag =>
    cases l with
    | words => exact absurd h.symm (words_ne_tag hl)
    | opening => exact absurd h.symm (opening_ne_closing hl.1)
    | closing tag' =>
      simp only [text, List.cons_append, List.append_assoc, List.cons.injEq, true_and] at h
      obtain ⟨rfl, hrest⟩ := name_cut hk hl (by simp [EndsName]; decide) (by simp [EndsName]; decide) h
      exact ⟨rfl, (List.cons.inj hrest).2⟩

/-- **The marks of a markup are determined.** No text and no value brings in a tag or ends one. -/
theorem marks_unique (hk : Apart ks) (hl : Apart ls) (h : ks.flatMap text = ls.flatMap text) : ks = ls := by
  induction ks generalizing ls with
  | nil =>
    cases ls with
    | nil => rfl
    | cons l ls =>
      have := text_ne_nil hl.1
      simp_all
  | cons k ks ih =>
    cases ls with
    | nil =>
      have := text_ne_nil hk.1
      simp_all
    | cons l ls =>
      obtain ⟨rfl, hrest⟩ := text_append_inj hk.1 hl.1 hk.head hl.head (by simpa only [List.flatMap_cons] using h)
      rw [ih hk.2.2 hl.2.2 hrest]

end Mark

/-! ### The marks of a tree -/

mutual

def marks : Node → List Mark
  | text s => [.words s]
  | element tag attributes _ children =>
    if voidTags.contains tag && children.isEmpty then [.opening tag attributes true]
    else .opening tag attributes false :: (marksAll children ++ [.closing tag])

def marksAll : List Node → List Mark
  | [] => []
  | n :: ns => marks n ++ marksAll ns

end

mutual

theorem markup_eq (n : Node) : markup n = (marks n).flatMap Mark.text := by
  cases n with
  | text s => simp [markup, marks, Mark.text]
  | element tag attributes handlers children =>
    unfold markup marks
    split
    · simp [Mark.text, tagEnd]
    · simp [Mark.text, tagEnd, markupAll_eq children]

theorem markupAll_eq (ns : List Node) : markupAll ns = (marksAll ns).flatMap Mark.text := by
  cases ns with
  | nil => simp [markupAll, marksAll]
  | cons n ns => simp [markupAll, marksAll, markup_eq n, markupAll_eq ns]

end

open Mark

/-- Marks that follow a row of siblings: their parent is closed, or nothing is left. -/
def Closes (ks : List Mark) : Prop := ∀ k ∈ ks.head?, ∃ tag, k = .closing tag

theorem closes_closing (tag : String) (ks : List Mark) : Closes (.closing tag :: ks) := by simp [Closes]

theorem marks_ne_closes {n : Node} {ks ls : List Mark} (h : Closes ks) : ks ≠ marks n ++ ls := by
  rintro rfl
  cases n with
  | text s => simp [Closes, marks] at h
  | element tag attributes handlers children =>
    unfold marks at h
    split at h <;> simp [Closes] at h

mutual

theorem apart_marks (n : Node) (ks : List Mark) (hn : isReadable n) (hks : Apart ks)
    (hhead : n.isText → ∀ k ∈ ks.head?, ¬ k.IsWords) : Apart (marks n ++ ks) := by
  cases n with
  | text s =>
    have hs : s ≠ "" := by simpa [isReadable] using hn
    exact ⟨hs, fun _ => hhead rfl, hks⟩
  | element tag attributes handlers children =>
    simp only [isReadable, Bool.and_eq_true, List.all_eq_true] at hn
    obtain ⟨⟨⟨htag, hattributes⟩, -⟩, hchildren⟩ := hn
    have hopening : ∀ closed, (opening tag attributes closed).Clear := fun _ => ⟨htag, hattributes⟩
    unfold marks
    split
    · exact ⟨hopening true, False.elim, hks⟩
    · rw [List.cons_append, List.append_assoc]
      exact ⟨hopening false, False.elim, apart_marksAll children _ hchildren ⟨htag, False.elim, hks⟩
        (closes_closing tag ks)⟩

theorem apart_marksAll (ns : List Node) (ks : List Mark) (hns : areReadable ns) (hks : Apart ks) (hhead : Closes ks) :
    Apart (marksAll ns ++ ks) := by
  cases ns with
  | nil => exact hks
  | cons n ns =>
    simp only [areReadable, Bool.and_eq_true, Bool.not_eq_true'] at hns
    obtain ⟨⟨hn, hnext⟩, hns⟩ := hns
    rw [marksAll, List.append_assoc]
    refine apart_marks n _ hn (apart_marksAll ns ks hns hks hhead) fun htext k hk => ?_
    -- behind a text stands an element, or what closes the row
    cases ns with
    | nil =>
      obtain ⟨tag, rfl⟩ := hhead k hk
      exact id
    | cons m ms =>
      cases m with
      | text s =>
        rw [htext] at hnext
        simp [isText] at hnext
      | element tag attributes handlers children =>
        unfold marksAll marks at hk
        split at hk <;> simp at hk <;> subst hk <;> exact id

end

mutual

theorem marks_append_inj (n m : Node) (ks ls : List Mark) (hn : isReadable n) (hm : isReadable m)
    (h : marks n ++ ks = marks m ++ ls) : n = m ∧ ks = ls := by
  cases n with
  | text s =>
    cases m with
    | text t => simpa [marks] using h
    | element =>
      unfold marks at h
      split at h <;> simp at h
  | element tag attributes handlers children =>
    cases m with
    | text t =>
      unfold marks at h
      split at h <;> simp at h
    | element tag' attributes' handlers' children' =>
      simp only [isReadable, Bool.and_eq_true, List.isEmpty_iff] at hn hm
      obtain ⟨⟨-, rfl⟩, hchildren⟩ := hn
      obtain ⟨⟨-, rfl⟩, hchildren'⟩ := hm
      unfold marks at h
      split at h <;> split at h
      · simp_all
      · simp at h
      · simp at h
      · simp only [List.cons_append, List.append_assoc, List.cons.injEq, Mark.opening.injEq, and_true] at h
        obtain ⟨⟨rfl, rfl⟩, hrow⟩ := h
        obtain ⟨rfl, hrest⟩ := marksAll_append_inj children children' _ _ hchildren hchildren'
          (closes_closing tag ks) (closes_closing tag ls) hrow
        exact ⟨rfl, (List.cons.inj hrest).2⟩

theorem marksAll_append_inj (ns ms : List Node) (ks ls : List Mark) (hns : areReadable ns) (hms : areReadable ms)
    (hks : Closes ks) (hls : Closes ls) (h : marksAll ns ++ ks = marksAll ms ++ ls) : ns = ms ∧ ks = ls := by
  cases ns with
  | nil =>
    cases ms with
    | nil => exact ⟨rfl, h⟩
    | cons m ms => exact absurd (by simpa [marksAll] using h) (marks_ne_closes hks)
  | cons n ns =>
    cases ms with
    | nil => exact absurd (by simpa [marksAll] using h.symm) (marks_ne_closes hls)
    | cons m ms =>
      simp only [areReadable, Bool.and_eq_true] at hns hms
      simp only [marksAll, List.append_assoc] at h
      obtain ⟨rfl, hrow⟩ := marks_append_inj n m _ _ hns.1.1 hms.1.1 h
      obtain ⟨rfl, hrest⟩ := marksAll_append_inj ns ms ks ls hns.2 hms.2 hks hls hrow
      exact ⟨rfl, hrest⟩

end

/-! ### Other texts and values -/

mutual

/-- The node with other texts and other values. -/
def fill (texts values : String → String) : Node → Node
  | text s => text (texts s)
  | element tag attributes handlers children =>
    element tag (attributes.map fun a => (a.1, values a.2)) handlers (fillAll texts values children)

def fillAll (texts values : String → String) : List Node → List Node
  | [] => []
  | n :: ns => fill texts values n :: fillAll texts values ns

end

/-- Elements and the names of their attributes, and where texts stand. -/
def outlineAll : List Node → List Node := fillAll (fun _ => "") fun _ => ""

section
variable (texts values texts' values' : String → String)

mutual

theorem fill_fill (n : Node) :
    fill texts' values' (fill texts values n) = fill (texts' ∘ texts) (values' ∘ values) n := by
  cases n with
  | text s => rfl
  | element tag attributes handlers children => simp [fill, fillAll_fillAll children]

theorem fillAll_fillAll (ns : List Node) :
    fillAll texts' values' (fillAll texts values ns) = fillAll (texts' ∘ texts) (values' ∘ values) ns := by
  cases ns with
  | nil => rfl
  | cons n ns => simp [fillAll, fill_fill n, fillAll_fillAll ns]

end

theorem isText_fill (n : Node) : isText (fill texts values n) = isText n := by cases n <;> rfl

mutual

theorem isReadable_fill (hkeep : ∀ s, s ≠ "" → texts s ≠ "") (n : Node) (hn : isReadable n) :
    isReadable (fill texts values n) := by
  cases n with
  | text s =>
    have hs : s ≠ "" := by simpa [isReadable] using hn
    simpa [fill, isReadable] using hkeep s hs
  | element tag attributes handlers children =>
    simp only [isReadable, Bool.and_eq_true] at hn
    simp only [fill, isReadable, List.all_map, Bool.and_eq_true]
    exact ⟨hn.1, areReadable_fillAll hkeep children hn.2⟩

theorem areReadable_fillAll (hkeep : ∀ s, s ≠ "" → texts s ≠ "") (ns : List Node) (hns : areReadable ns) :
    areReadable (fillAll texts values ns) := by
  cases ns with
  | nil => rfl
  | cons n ns =>
    simp only [areReadable, Bool.and_eq_true] at hns
    obtain ⟨⟨hn, hnext⟩, hns⟩ := hns
    have hnext' : !((fill texts values n).isText && (fillAll texts values ns).head?.any isText) := by
      cases ns with
      | nil => simp [fillAll]
      | cons m ms => simpa [fillAll, isText_fill] using hnext
    simp only [fillAll, areReadable, Bool.and_eq_true]
    exact ⟨⟨isReadable_fill hkeep n hn, hnext'⟩, areReadable_fillAll hkeep ns hns⟩

end

end

theorem outlineAll_fillAll (texts values : String → String) (ns : List Node) :
    outlineAll (fillAll texts values ns) = outlineAll ns := fillAll_fillAll texts values _ _ ns

/-! ### Reading markup -/

variable {ns ms : List Node}

theorem markupAll_inj (hns : areReadable ns) (hms : areReadable ms) (h : markupAll ns = markupAll ms) : ns = ms := by
  have apart : ∀ ns, areReadable ns → Apart (marksAll ns) := fun ns hns => by
    simpa using apart_marksAll ns [] hns trivial (by simp [Closes])
  rw [markupAll_eq, markupAll_eq] at h
  have hmarks : marksAll ns ++ [] = marksAll ms ++ [] := by
    simpa using marks_unique (apart ns hns) (apart ms hms) h
  exact (marksAll_append_inj ns ms [] [] hns hms (by simp [Closes]) (by simp [Closes]) hmarks).1

/-- **Markup can be read in one way only.** Readable output with the same markup is the same. And whatever its texts
and values are replaced by, what reads as the result has the elements and the attributes it had. -/
theorem markup_unique (hns : areReadable ns) (hms : areReadable ms) :
    (markupAll ns = markupAll ms → ns = ms) ∧
      ∀ texts values : String → String, (∀ s, s ≠ "" → texts s ≠ "") →
        markupAll ms = markupAll (fillAll texts values ns) → outlineAll ms = outlineAll ns := by
  refine ⟨markupAll_inj hns hms, fun texts values hkeep h => ?_⟩
  rw [markupAll_inj hms (areReadable_fillAll texts values hkeep ns hns) h, outlineAll_fillAll]

/-- A card whose text and value try to end the element they stand in. -/
def card : List Node :=
  [element "article" [("className", "wide\" hidden=\"\"><br />"), ("data-id", "a&amp;<b>"), ("open", "")] []
    [text "</article><b>sold</b>", element "br" [] [] [], element "b" [] [] []]]

/-- The card with the bold print as an element. -/
def boldCard : List Node :=
  [element "article" [("className", "wide\" hidden=\"\"><br />"), ("data-id", "a&amp;<b>"), ("open", "")] []
    [text "</article>", element "b" [] [] [text "sold"], element "br" [] [] [], element "b" [] [] []]]

theorem markup_unique_card :
    areReadable card ∧ areReadable boldCard ∧ markupAll card ≠ markupAll boldCard ∧
      outlineAll (fillAll (· ++ "<i>") (fun _ => "\"/>") card) = outlineAll card := by
  have hcard : areReadable card := by decide +kernel
  have hbold : areReadable boldCard := by decide +kernel
  have hfilled : areReadable (fillAll (· ++ "<i>") (fun _ => "\"/>") card) := by decide +kernel
  refine ⟨hcard, hbold, fun h => ?_, ?_⟩
  · have heq : card = boldCard := (markup_unique hcard hbold).1 h
    simp [card, boldCard] at heq
  · exact (markup_unique hcard hfilled).2 (· ++ "<i>") (fun _ => "\"/>") (by simp) rfl

end LivePreview.Node
