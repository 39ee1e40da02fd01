import LivePreview.Proofs.Source.Track

/-! The search for a component's name as a machine.

A hunt knows the declarations that have been begun, in the order of their beginnings, each with how far it has been
read. What it finds from here on depends on nothing else, so two texts can be compared piece by piece: where the hunts
behind them are the same, the same is found. -/
namespace LivePreview.Source
open Pattern

/-! ### Declarations of one kind -/

/-- What has been begun: nothing yet, a declaration and what began after it, or one that has been found, behind which
nothing counts. -/
inductive Hunt where
  /-- Whether a word character comes before. -/
  | look (word : Bool)
  | found (n : List Char)
  | also (θ : Thread) (later : Hunt)
deriving DecidableEq, Repr

namespace Hunt
variable (T : Track)

/-- A declaration with the next character, before those that began later. -/
def add (θ : Thread) (c : Char) (later : Hunt) : Hunt :=
  match T.step θ c with
  | .dies => later
  | .goes θ => .also θ later
  | .found n => .found n

def next : Hunt → Char → Hunt
  | look word, c =>
    if word != Text.isWord c then T.keywords.foldr (fun w later => add T (.word w) c later) (look (Text.isWord c))
    else look (Text.isWord c)
  | found n, _ => found n
  | also θ later, c => add T θ c (later.next c)

/-- What has been found when the text ends. -/
def result : Hunt → Option (List Char)
  | look _ => none
  | found n => some n
  | also θ later => (T.last θ).or later.result

/-- What is found in the rest of the text. -/
def first : Hunt → List Char → Option (List Char)
  | look word, s => seek T.at? (if word then some '_' else none) s
  | found n, _ => some n
  | also θ later, s => (T.follow θ s).or (later.first s)

variable {T} {c : Char} {s : List Char}

theorem first_nil (h : Hunt) : h.first T [] = h.result T := by
  have hnone : (T.keywords.findSome? fun w => T.follow (.word w) []) = none :=
    List.findSome?_eq_none_iff.2 fun w _ => by cases w <;> rfl
  induction h with
  | look word => simp [first, result, seek, Track.at?, hnone]
  | found n => rfl
  | also θ later ih => rw [first, ih, result, Track.follow]

theorem first_add (θ : Thread) (c : Char) (later : Hunt) (s : List Char) :
    (add T θ c later).first T s = (T.follow θ (c :: s)).or (later.first T s) := by
  rw [add, Track.follow]
  cases T.step θ c <;> simp [first]

/-- Only whether a word character comes before matters to a search. -/
theorem seek_prev {prev prev' : Option Char} (h : prev.any Text.isWord = prev'.any Text.isWord) :
    seek T.at? prev s = seek T.at? prev' s := by
  cases s <;> simp [seek, Track.at?, Edge.holds, h]

theorem first_look (word : Bool) (prev : Option Char) (h : prev.any Text.isWord = word) :
    (look word).first T s = seek T.at? prev s := by
  refine seek_prev ?_
  cases word
  case false => exact h.symm
  case true => exact h.symm

theorem first_begin (ws : List (List Char)) (h : Hunt) :
    (ws.foldr (fun w later => add T (.word w) c later) h).first T s =
      (ws.findSome? fun w => T.follow (.word w) (c :: s)).or (h.first T s) := by
  induction ws with
  | nil => rfl
  | cons w ws ih =>
    rw [List.foldr_cons, first_add, ih, List.findSome?_cons]
    cases T.follow (.word w) (c :: s) <;> rfl

/-- What is found behind the next character is found from here. -/
theorem first_next (h : Hunt) (c : Char) (s : List Char) : (h.next T c).first T s = h.first T (c :: s) := by
  induction h with
  | look word =>
    have hlook := first_look (T := T) (s := s) (Text.isWord c) (some c) rfl
    have hedge (prev : Option Char) (hprev : prev.any Text.isWord = word) :
        Edge.wordEdge.holds prev (c :: s) = (word != Text.isWord c) := by simp [Edge.holds, hprev]
    obtain ⟨prev, hprev⟩ : ∃ prev : Option Char, prev.any Text.isWord = word := by
      cases word
      case false => exact ⟨none, rfl⟩
      case true => exact ⟨some '_', rfl⟩
    rw [first_look word prev hprev, seek, Track.at?, hedge prev hprev, next]
    split
    case isTrue =>
      rw [first_begin, hlook]
      cases T.keywords.findSome? fun w => T.follow (.word w) (c :: s) <;> rfl
    case isFalse => exact hlook
  | found n => rfl
  | also θ later ih => rw [next, first_add, ih, first]

/-! ### White space -/

/-- What white space makes of a declaration that has been begun. -/
def pause (T : Track) : Thread → Outcome
  | .word [] => .goes (.gap !T.bare)
  | .word _ => .dies
  | .gap starred => .goes (.gap starred)
  | .name n => if T.bare then .found n else .goes (.behind n)
  | .behind n => .goes (.behind n)

theorem step_space (θ : Thread) (hc : Text.isSpace c = true) : T.step θ c = pause T θ := by
  have hlatin := Reading.isLatin_of_isSpace hc
  have hpart := not_isNamePart_of_isSpace hc
  rcases θ with (- | ⟨x, left⟩) | starred | n | n
  · cases hbare : T.bare <;> simp [Track.step, Thread.opened, pause, hc, hbare]
  · simp [Track.step, pause, hlatin]
  · simp [Track.step, Thread.opened, pause, hc]
  · simp [Track.step, Thread.closes, pause, hc, hpart]
  · simp [Track.step, Thread.closes, pause, hc]

theorem pause_pause {θ θ' : Thread} (h : pause T θ = .goes θ') : pause T θ' = .goes θ' := by
  unfold pause at h
  split at h
  case h_4 n =>
    split at h
    case isTrue => exact nomatch h
    case isFalse => exact Outcome.goes.inj h ▸ rfl
  case h_2 => exact nomatch h
  all_goals exact Outcome.goes.inj h ▸ rfl

theorem next_look (h : T.avoids c = true) (word : Bool) : (look word).next T c = look (Text.isWord c) := by
  have hbegin (ws : List (List Char)) (hws : ∀ w ∈ ws, w ∈ T.keywords) (later : Hunt) :
      ws.foldr (fun w later => add T (.word w) c later) later = later := by
    induction ws with
    | nil => rfl
    | cons w ws ih =>
      rw [List.foldr_cons, ih fun v hv => hws v (List.mem_cons_of_mem w hv), add,
        Track.step_of_avoids h (hws w List.mem_cons_self)]
  rw [next, hbegin _ fun _ => id, ite_self]

/-- White space does the same whichever it is. -/
theorem next_space (h : Hunt) (hc : Text.isSpace c = true) : h.next T c = h.next T ' ' := by
  have hspace : Text.isSpace ' ' = true := rfl
  have hlook {d : Char} (hd : Text.isSpace d = true) (word : Bool) : (look word).next T d = look false := by
    rw [next_look (T.avoids_of_not_isLatin (Reading.isLatin_of_isSpace hd)), not_isWord_of_isSpace hd]
  induction h with
  | look word => rw [hlook hc, hlook hspace]
  | found n => rfl
  | also θ later ih => rw [next, next, ih, add, add, step_space θ hc, step_space θ hspace]

/-- More white space does nothing. -/
theorem next_next_space (h : Hunt) (hc : Text.isSpace c = true) : (h.next T c).next T c = h.next T c := by
  induction h with
  | look word =>
    have hlook (word : Bool) : (look word).next T c = look (Text.isWord c) :=
      next_look (T.avoids_of_not_isLatin (Reading.isLatin_of_isSpace hc)) word
    rw [hlook, hlook]
  | found n => rfl
  | also θ later ih =>
    rw [next, add, step_space θ hc]
    split
    case h_1 => exact ih
    case h_2 θ' hθ => rw [next, ih, add, step_space θ' hc, pause_pause hθ]
    case h_3 => rfl

/-! ### The end of a text -/

/-- A character that is no part of a declaration, white space apart. -/
def isIdle (c : Char) : Bool := !isNamePart c && !among ":=" c

theorem isIdle_of_isSpace (hc : Text.isSpace c = true) : isIdle c = true := by
  have hpart := not_isNamePart_of_isSpace hc
  simp [isIdle, hpart, among, Reading.ne_of_isSpace (d := ':') hc rfl, Reading.ne_of_isSpace (d := '=') hc rfl]

theorem isLatin_of_isIdle (hc : isIdle c = true) : Text.isLatin c = false := by
  simp only [isIdle, isNamePart, Text.isPlainName, Bool.and_eq_true, Bool.not_eq_true', Bool.or_eq_false_iff] at hc
  exact hc.1.1.1.1

/-- What a declaration ends with is left as it is by a character that is no part of it. -/
theorem last_step (hc : isIdle c = true) (θ : Thread) :
    T.last θ = match T.step θ c with
      | .dies => none
      | .goes θ' => T.last θ'
      | .found n => some n := by
  have hlatin := isLatin_of_isIdle hc
  obtain ⟨hpart, hsign⟩ := Bool.and_eq_true_iff.1 hc
  have hcapital : isCapital c = false := Bool.eq_false_iff.2 fun h => by
    simp only [isCapital] at h
    simp [Text.isLatin, h] at hlatin
  have hopened (starred : Bool) : Thread.opened starred c = .dies ∨
      ∃ starred', Thread.opened starred c = .goes (.gap starred') := by
    unfold Thread.opened
    split
    · exact .inr ⟨_, rfl⟩
    · split
      · exact .inr ⟨_, rfl⟩
      · simp [hcapital]
  have hcloses (n : List Char) : Thread.closes n c = .dies ∨ Thread.closes n c = .goes (.behind n) := by
    unfold Thread.closes
    split
    · exact .inr rfl
    · simp_all
  rcases θ with (- | ⟨x, left⟩) | starred | n | n
  · rcases hopened false with h | ⟨starred', h⟩ <;> cases hbare : T.bare <;> by_cases hspace : Text.isSpace c = true <;>
      simp [Track.step, Track.last, h, hbare, hspace]
  · simp [Track.step, Track.last, hlatin]
  · rcases hopened starred with h | ⟨starred', h⟩ <;> simp [Track.step, Track.last, h]
  · cases hbare : T.bare <;> rcases hcloses n with h | h <;> simp_all [Track.step, Track.last]
  · rcases hcloses n with h | h <;> simp [Track.step, Track.last, h]

/-- Characters that are no part of declarations find nothing that would not be found without them. -/
theorem result_next (hc : isIdle c = true) (h : Hunt) : (h.next T c).result T = h.result T := by
  induction h with
  | look word => rw [next_look (T.avoids_of_not_isLatin (isLatin_of_isIdle hc)), result, result]
  | found n => rfl
  | also θ later ih =>
    rw [next, result, add, last_step hc θ]
    cases T.step θ c <;> simp [result, ih]

end Hunt

/-! ### The search for a name -/

/-- The hunts for a binding and for a function. Once a binding has been found, functions count no more. -/
structure Search where
  binding : Hunt := .look false
  function : Hunt := .look false
deriving DecidableEq, Repr

namespace Search
open Hunt

/-- A search without the functions if a binding has been found. -/
def settle (σ : Search) : Search :=
  match σ.binding with
  | .found n => ⟨.found n, .look false⟩
  | _ => σ

def next (σ : Search) (c : Char) : Search :=
  settle ⟨σ.binding.next .binding c, σ.function.next .function c⟩

def read (σ : Search) (s : List Char) : Search := s.foldl next σ

/-- What has been found when the text ends. -/
def result (σ : Search) : Option ComponentName :=
  match σ.binding.result .binding with
  | some n => some ⟨n, .binding⟩
  | none => (σ.function.result .function).map (⟨·, .function⟩)

/-- What is found in the rest of the text. -/
def first (σ : Search) (s : List Char) : Option ComponentName :=
  match σ.binding.first .binding s with
  | some n => some ⟨n, .binding⟩
  | none => (σ.function.first .function s).map (⟨·, .function⟩)

variable {σ τ : Search} {c : Char} {s t : List Char}

@[simp] theorem read_nil (σ : Search) : σ.read [] = σ := rfl

@[simp] theorem read_cons (σ : Search) (c : Char) (s : List Char) : σ.read (c :: s) = (σ.next c).read s := rfl

@[simp] theorem read_append (σ : Search) (s t : List Char) : σ.read (s ++ t) = (σ.read s).read t := List.foldl_append

theorem first_settle (σ : Search) (s : List Char) : σ.settle.first s = σ.first s := by
  unfold settle
  split
  case h_1 n h => simp [first, h, Hunt.first]
  case h_2 => rfl

/-- What has been found when the text ends is what is found in it. -/
theorem result_read (σ : Search) (s : List Char) : (σ.read s).result = σ.first s := by
  induction s generalizing σ with
  | nil => rw [read_nil, result, first, Hunt.first_nil, Hunt.first_nil]
  | cons c s ih => rw [read_cons, ih, next, first_settle, first, first, Hunt.first_next, Hunt.first_next]

/-- White space does the same whichever it is and however much. -/
theorem next_space (σ : Search) (hc : Text.isSpace c = true) : σ.next c = σ.next ' ' := by
  rw [next, next, Hunt.next_space _ hc, Hunt.next_space _ hc]

/-- More white space does nothing. -/
theorem next_next_space (σ : Search) (hc : Text.isSpace c = true) : (σ.next c).next c = σ.next c := by
  have hbinding := Hunt.next_next_space (T := .binding) σ.binding hc
  have hfunction := Hunt.next_next_space (T := .function) σ.function hc
  rw [next, next]
  cases hnext : σ.binding.next .binding c with
  | found n => rfl
  | look word =>
    rw [hnext] at hbinding
    simp only [settle, hbinding, hfunction]
  | also θ later =>
    rw [hnext] at hbinding
    simp only [settle, hbinding, hfunction]

/-- White space does the same however much there is of it, if there is any. -/
theorem read_blank (hs : Blank s) (hne : s ≠ []) (σ : Search) : σ.read s = σ.next ' ' := by
  have hspace : Text.isSpace ' ' = true := rfl
  obtain ⟨c, s, rfl⟩ := List.exists_cons_of_ne_nil hne
  obtain ⟨hc, hs⟩ := List.forall_mem_cons.1 hs
  rw [read_cons, next_space σ hc]
  induction s with
  | nil => rfl
  | cons d s ih =>
    obtain ⟨hd, hs⟩ := List.forall_mem_cons.1 hs
    rw [read_cons, next_space _ hd, next_next_space σ hspace]
    exact ih (List.forall_mem_cons.2 ⟨hc, hs⟩) (List.cons_ne_nil c s) hs

/-- A text may begin with white space. -/
theorem read_blank_start (hs : Blank s) : ({} : Search).read s = {} := by
  by_cases hne : s = []
  · exact hne ▸ rfl
  · rw [read_blank hs hne]
    rfl

theorem result_settle (σ : Search) : σ.settle.result = σ.result := by
  have h := first_settle σ []
  rwa [← result_read, ← result_read] at h

/-- Characters that are no part of declarations find nothing that would not be found without them. -/
theorem result_read_idle (hs : ∀ c ∈ s, isIdle c = true) (σ : Search) : (σ.read s).result = σ.result := by
  induction s generalizing σ with
  | nil => rfl
  | cons c s ih =>
    obtain ⟨hc, hs⟩ := List.forall_mem_cons.1 hs
    rw [read_cons, ih hs, next, result_settle, result, result, Hunt.result_next hc, Hunt.result_next hc]

end Search

/-- The name that a search finds is the name of the component, unless that is only exported. -/
theorem result_eq_some_iff {s : List Char} {n : ComponentName} :
    (({} : Search).read s).result = some n ↔ componentName? s = some n ∧ n.kind ≠ .exported := by
  rw [Search.result_read, Search.first, componentName?_eq]
  show (match seek Track.binding.at? none s with | some n => _ | none => (seek Track.function.at? none s).map _) = _ ↔ _
  cases seek Track.binding.at? none s with
  | some b => exact ⟨fun h => ⟨h, by cases h; simp⟩, And.left⟩
  | none =>
    cases seek Track.function.at? none s with
    | some f => exact ⟨fun h => ⟨h, by cases h; simp⟩, And.left⟩
    | none =>
      refine ⟨nofun, fun ⟨h, hkind⟩ => ?_⟩
      obtain ⟨m, -, rfl⟩ := Option.map_eq_some_iff.1 h
      exact absurd rfl hkind

end LivePreview.Source
