import LivePreview.Preview.Board

/-! What one small step does to a board, field by field.

The theorems here say all that a step can do: which submission it moves and how (`entry_step`), when it counts a
new generation (`generation_step`), when it takes the board down (`mounted_step`), what it publishes (`state_step`)
and what it sends to the compiler (`calls_step`). Facts about runs are drawn from these and never from the definition
of a step. -/
namespace LivePreview.Preview
open Compile

/-- What a submission has heard from outside while its run went on. -/
structure Heard (H : Type) where
  reply : Option Reply := none
  built : Option (Except String H) := none

/-- What the first write of a submission says. -/
def Submission.firstState {H : Type} (s : Submission) : State H :=
  match s.target with
  | .unsupported tag => .unsupported tag
  | .react => if Text.isBlankText s.text.toList then .empty else .compiling

/-- What the result of a build says. -/
def State.ofBuilt {H : Type} : Except String H → State H
  | .ok component => .ready component
  | .error message => .failed .instantiationFailed message

namespace Board
variable {H : Type}

/-! ### Parts of a step -/

theorem entries_move (b : Board H) (i : Nat) (p : Progress H) (j : Nat) :
    (b.move i p).entries[j]? =
      if i = j then b.entries[j]?.map (fun e => { e with progress := p }) else b.entries[j]? := by
  simp only [move, Array.getElem?_modify]

theorem entries_move_self {b : Board H} {i : Nat} {e : Entry H} (h : b.entries[i]? = some e) (p : Progress H) :
    (b.move i p).entries[i]? = some ⟨e.submission, p⟩ := by
  rw [entries_move, if_pos rfl, h]
  rfl

theorem entries_move_ne (b : Board H) {i j : Nat} (h : i ≠ j) (p : Progress H) :
    (b.move i p).entries[j]? = b.entries[j]? := by
  rw [entries_move, if_neg h]

@[simp] theorem size_move (b : Board H) (i : Nat) (p : Progress H) :
    (b.move i p).entries.size = b.entries.size := by simp [move]

@[simp] theorem state_move (b : Board H) (i : Nat) (p : Progress H) : (b.move i p).state = b.state := rfl
@[simp] theorem version_move (b : Board H) (i : Nat) (p : Progress H) : (b.move i p).version = b.version := rfl
@[simp] theorem mounted_move (b : Board H) (i : Nat) (p : Progress H) : (b.move i p).mounted = b.mounted := rfl
@[simp] theorem closing_move (b : Board H) (i : Nat) (p : Progress H) : (b.move i p).closing = b.closing := rfl
@[simp] theorem generation_move (b : Board H) (i : Nat) (p : Progress H) :
    (b.move i p).generation = b.generation := rfl

@[simp] theorem state_note (b : Board H) (e : BoardEvent) : (b.note e).state = b.state := rfl
@[simp] theorem version_note (b : Board H) (e : BoardEvent) : (b.note e).version = b.version := rfl
@[simp] theorem mounted_note (b : Board H) (e : BoardEvent) : (b.note e).mounted = b.mounted := rfl
@[simp] theorem closing_note (b : Board H) (e : BoardEvent) : (b.note e).closing = b.closing := rfl
@[simp] theorem generation_note (b : Board H) (e : BoardEvent) : (b.note e).generation = b.generation := rfl
@[simp] theorem entries_note (b : Board H) (e : BoardEvent) : (b.note e).entries = b.entries := rfl

@[simp] theorem entries_commit (b : Board H) (g : Nat) (r : State H) : (b.commit g r).entries = b.entries := by
  unfold commit
  split <;> rfl

@[simp] theorem mounted_commit (b : Board H) (g : Nat) (r : State H) : (b.commit g r).mounted = b.mounted := by
  unfold commit
  split <;> rfl

@[simp] theorem closing_commit (b : Board H) (g : Nat) (r : State H) : (b.commit g r).closing = b.closing := by
  unfold commit
  split <;> rfl

@[simp] theorem generation_commit (b : Board H) (g : Nat) (r : State H) :
    (b.commit g r).generation = b.generation := by
  unfold commit
  split <;> rfl

theorem state_commit (b : Board H) (g : Nat) (r : State H) :
    (b.commit g r).state = if b.isLive g then r else b.state := by
  unfold commit
  split <;> rfl

theorem version_commit (b : Board H) (g : Nat) (r : State H) :
    (b.commit g r).version = if b.isLive g then b.version + 1 else b.version := by
  unfold commit
  split <;> rfl

theorem progress?_eq {b : Board H} {i : Nat} {e : Entry H} (h : b.entries[i]? = some e) :
    b.progress? i = some e.progress := by simp [progress?, h]

theorem entry_of_progress? {b : Board H} {i : Nat} {p : Progress H} (h : b.progress? i = some p) :
    ∃ s, b.entries[i]? = some ⟨s, p⟩ := by
  obtain ⟨⟨s, q⟩, he, rfl⟩ := Option.map_eq_some_iff.mp h
  exact ⟨s, he⟩

@[simp] theorem entries_commit_move (b : Board H) (g : Nat) (r : State H) (i : Nat) (p : Progress H) :
    ((b.commit g r).move i p).entries = (b.move i p).entries := by simp [move]

/-- The first write of a submission is a commit and a move. -/
theorem announce_eq (b : Board H) (i g : Nat) (s : Submission) :
    b.announce i g s =
      (b.commit g s.firstState).move i
        (if (s.firstState : State H).isSettled then .settled g else .announced g) := by
  obtain ⟨text, target⟩ := s
  cases target with
  | unsupported tag => rfl
  | react =>
    by_cases hb : Text.isBlankText text.toList = true
    · simp [Submission.firstState, announce, hb, State.empty, State.isSettled]
    · simp [Submission.firstState, announce, hb, State.isSettled]

theorem firstState_eq_compiling {s : Submission} (h : (s.firstState : State H).isSettled = false) :
    (s.firstState : State H) = .compiling := by
  obtain ⟨text, target⟩ := s
  cases target with
  | unsupported tag => cases h
  | react =>
    simp only [Submission.firstState] at h ⊢
    cases hb : Text.isBlankText text.toList
    · rfl
    · simp [hb, State.empty, State.isSettled] at h

/-- The last write of a run is a commit and a move, apart from what is noted. -/
theorem settle_eq (b : Board H) (i g : Nat) (r : State H) :
    b.settle i g r = (b.commit g r).move i (.settled g) ∨
      b.settle i g r = ((b.commit g r).move i (.settled g)).note (.settled g r.phase) := by
  cases hl : b.isLive g
  · left
    simp [settle, hl]
  · right
    simp [settle, hl]

/-! ### The submission that a step moves -/

/-- How one step moves submission `i` from one progress to the next, and what the submission hears meanwhile. -/
inductive Rule (b : Board H) (s : Submission) (i : Nat) (h : Heard H) :
    Step H → Progress H → Progress H → Heard H → Prop where
  | letIn (hm : b.mounted = true) : Rule b s i h (.check i) .handedIn .admitted h
  | ignore (hm : b.mounted = false) : Rule b s i h (.check i) .handedIn .ignored h
  | number : Rule b s i h (.number i) .admitted (.numbered (nextGeneration b.generation)) h
  | refuse {g : Nat} (hs : (s.firstState : State H).isSettled = true) :
    Rule b s i h (.announce i) (.numbered g) (.settled g) h
  | accept {g : Nat} (hs : (s.firstState : State H) = .compiling) :
    Rule b s i h (.announce i) (.numbered g) (.announced g) h
  | nameless {g : Nat} (hn : Source.componentName? s.text.toList = none) :
    Rule b s i h (.start i) (.announced g) (.finishing g .nameless) h
  | ask {g : Nat} {found : Source.ComponentName} (hn : Source.componentName? s.text.toList = some found) :
    Rule b s i h (.start i) (.announced g)
      (.asked g (String.ofList found.name) (String.ofList (Source.normalize s.text.toList))) h
  | reply {g : Nat} {name source : String} (r : Reply) :
    Rule b s i h (.reply i r) (.asked g name source) (afterReply g name r) { h with reply := some r }
  | breakOff {g : Nat} {name source : String} :
    Rule b s i h (.breakOff i) (.asked g name source) (.broken g) h
  | proceed {g : Nat} {name code : String} (hl : b.isLive g = true) :
    Rule b s i h (.verify i) (.compiled g name code) (.building g name code) h
  | overtaken {g : Nat} {name code : String} (hl : b.isLive g = false) :
    Rule b s i h (.verify i) (.compiled g name code) (.finishing g .compiling) h
  | built {g : Nat} {name code : String} (r : Except String H) :
    Rule b s i h (.built i r) (.building g name code) (.finishing g (.ofBuilt r)) { h with built := some r }
  | settle {g : Nat} {r : State H} : Rule b s i h (.settle i) (.finishing g r) (.settled g) h

/-- What a step does to the place of submission `i`: nothing, it is filled, or the submission there moves on. -/
inductive EntryChange (b : Board H) (st : Step H) (i : Nat) (h : Heard H) :
    Option (Entry H) → Option (Entry H) → Heard H → Prop where
  | same (e : Option (Entry H)) : EntryChange b st i h e e h
  | handedIn (s : Submission) : EntryChange b st i h none (some ⟨s, .handedIn⟩) h
  | moved {s : Submission} {p q : Progress H} {h' : Heard H} (rule : Rule b s i h st p q h') :
    EntryChange b st i h (some ⟨s, p⟩) (some ⟨s, q⟩) h'

/-- What submission `i` has heard after a step. Only a run that waits for something hears it. -/
def hear (i : Nat) (b : Board H) (st : Step H) (h : Heard H) : Heard H :=
  match st, b.progress? i with
  | .reply j r, some (.asked ..) => if j = i then { h with reply := some r } else h
  | .built j r, some (.building ..) => if j = i then { h with built := some r } else h
  | _, _ => h

theorem hear_ne {i j : Nat} (hne : j ≠ i) (b : Board H) (h : Heard H) :
    (∀ r, hear i b (.reply j r) h = h) ∧ ∀ r, hear i b (.built j r) h = h := by
  constructor <;> intro r <;> unfold hear <;> split <;> simp_all

/-- The submission that is moved changes by its rule, and every other one stays. -/
theorem EntryChange.of_move {b c : Board H} {st : Step H} {i j : Nat} {h h' : Heard H} {s : Submission}
    {p q : Progress H} (he : b.entries[j]? = some ⟨s, p⟩) (hc : c.entries = (b.move j q).entries)
    (rule : j = i → Rule b s i h st p q h') (hne : j ≠ i → h' = h) :
    EntryChange b st i h b.entries[i]? c.entries[i]? h' := by
  rw [hc]
  by_cases hij : j = i
  · subst hij
    rw [he, entries_move_self he]
    exact .moved (rule rfl)
  · rw [entries_move_ne b hij, hne hij]
    exact .same _

/-- **What a step does to a submission.** -/
theorem entry_step (b : Board H) (st : Step H) (i : Nat) (h : Heard H) :
    EntryChange b st i h b.entries[i]? (b.step st).entries[i]? (hear i b st h) := by
  cases st with
  | handIn s =>
    by_cases hi : i = b.entries.size
    · subst hi
      simp only [step, Array.getElem?_push_size, Array.getElem?_eq_none (Nat.le_refl _)]
      exact .handedIn s
    · simp only [step, Array.getElem?_push, if_neg hi]
      exact .same _
  | check j =>
    simp only [step]
    split
    case h_1 hp =>
      obtain ⟨s, he⟩ := entry_of_progress? hp
      cases hm : b.mounted
      · exact .of_move he rfl (fun hij => hij ▸ .ignore hm) (fun _ => rfl)
      · exact .of_move he rfl (fun hij => hij ▸ .letIn hm) (fun _ => rfl)
    case h_2 => exact .same _
  | number j =>
    simp only [step]
    split
    case h_1 hp =>
      obtain ⟨s, he⟩ := entry_of_progress? hp
      exact .of_move he rfl (fun hij => hij ▸ .number) (fun _ => rfl)
    case h_2 => exact .same _
  | announce j =>
    simp only [step]
    split
    case h_1 s g he =>
      rw [announce_eq]
      cases hs : (s.firstState : State H).isSettled
      · have ha := firstState_eq_compiling hs
        exact .of_move he (entries_commit_move ..) (fun hij => hij ▸ .accept ha) (fun _ => rfl)
      · exact .of_move he (entries_commit_move ..) (fun hij => hij ▸ .refuse hs) (fun _ => rfl)
    case h_2 => exact .same _
  | start j =>
    simp only [step]
    split
    case h_1 s g he =>
      simp only [start]
      split
      case h_1 hn => exact .of_move he rfl (fun hij => hij ▸ .nameless hn) (fun _ => rfl)
      case h_2 found hn => exact .of_move he rfl (fun hij => hij ▸ .ask hn) (fun _ => rfl)
    case h_2 => exact .same _
  | reply j r =>
    simp only [step]
    split
    case h_1 g name source hp =>
      obtain ⟨s, he⟩ := entry_of_progress? hp
      refine .of_move he rfl (fun hij => ?_) (fun hij => (hear_ne hij b h).1 r)
      subst hij
      simp only [hear, hp, if_true]
      exact .reply r
    case h_2 hp =>
      have : hear i b (.reply j r) h = h := by
        by_cases hij : j = i
        · subst hij
          unfold hear
          split <;> simp_all
        · exact (hear_ne hij b h).1 r
      rw [this]
      exact .same _
  | breakOff j =>
    simp only [step]
    split
    case h_1 g name source hp =>
      obtain ⟨s, he⟩ := entry_of_progress? hp
      exact .of_move he rfl (fun hij => hij ▸ .breakOff) (fun _ => rfl)
    case h_2 => exact .same _
  | verify j =>
    simp only [step]
    split
    case h_1 g name code hp =>
      obtain ⟨s, he⟩ := entry_of_progress? hp
      cases hl : b.isLive g
      · exact .of_move he rfl (fun hij => hij ▸ .overtaken hl) (fun _ => rfl)
      · exact .of_move he rfl (fun hij => hij ▸ .proceed hl) (fun _ => rfl)
    case h_2 => exact .same _
  | built j r =>
    simp only [step]
    split
    case h_1 g name code hp =>
      obtain ⟨s, he⟩ := entry_of_progress? hp
      have hb : ∀ c : Board H, c = b.move j (.finishing g (.ofBuilt r)) →
          EntryChange b (.built j r) i h b.entries[i]? c.entries[i]? (hear i b (.built j r) h) := by
        rintro c rfl
        refine .of_move he rfl (fun hij => ?_) (fun hij => (hear_ne hij b h).2 r)
        subst hij
        simp only [hear, hp, if_true]
        exact .built r
      cases r <;> exact hb _ rfl
    case h_2 hp =>
      have : hear i b (.built j r) h = h := by
        by_cases hij : j = i
        · subst hij
          unfold hear
          split <;> simp_all
        · exact (hear_ne hij b h).2 r
      rw [this]
      exact .same _
  | settle j =>
    simp only [step]
    split
    case h_1 g r hp =>
      obtain ⟨s, he⟩ := entry_of_progress? hp
      obtain hs | hs := settle_eq b j g r <;> rw [hs]
      · exact .of_move he (entries_commit_move ..) (fun hij => hij ▸ .settle) (fun _ => rfl)
      · exact .of_move he (entries_commit_move ..) (fun hij => hij ▸ .settle) (fun _ => rfl)
    case h_2 => exact .same _
  | close => exact .same _
  | retire =>
    simp only [step]
    split <;> exact .same _

/-! ### The other fields -/

/-- Whether a step counts a new generation. -/
def counts (b : Board H) : Step H → Bool
  | .number i => match b.progress? i with
    | some .admitted => true
    | _ => false
  | .retire => b.closing != 0
  | _ => false

/-- The counters of the board: the generation, whether it is mounted and how many closings are under way. -/
def frame (b : Board H) : Nat × Bool × Nat := (b.generation, b.mounted, b.closing)

theorem frame_eq {b c : Board H} (hg : c.generation = b.generation) (hm : c.mounted = b.mounted)
    (hc : c.closing = b.closing) : c.frame = b.frame := by simp [frame, hg, hm, hc]

@[simp] theorem frame_move (b : Board H) (i : Nat) (p : Progress H) : (b.move i p).frame = b.frame := rfl
@[simp] theorem frame_note (b : Board H) (e : BoardEvent) : (b.note e).frame = b.frame := rfl
@[simp] theorem frame_commit (b : Board H) (g : Nat) (r : State H) : (b.commit g r).frame = b.frame :=
  frame_eq (generation_commit ..) (mounted_commit ..) (closing_commit ..)

@[simp] theorem frame_start (b : Board H) (i g : Nat) (s : Submission) : (b.start i g s).frame = b.frame := by
  unfold start
  split <;> rfl

@[simp] theorem frame_settle (b : Board H) (i g : Nat) (r : State H) : (b.settle i g r).frame = b.frame := by
  obtain h | h := settle_eq b i g r <;> rw [h] <;> simp

/-- **What a step does to the counters.** -/
theorem frame_step (b : Board H) (st : Step H) :
    (b.step st).frame =
      match st with
      | .close => (b.generation, false, b.closing + 1)
      | .retire => if b.closing = 0 then b.frame else (nextGeneration b.generation, b.mounted, b.closing - 1)
      | st => (if b.counts st then nextGeneration b.generation else b.generation, b.mounted, b.closing) := by
  cases st with
  | handIn s => rfl
  | close => rfl
  | retire => by_cases hc : b.closing = 0 <;> simp [step, hc, frame]
  | check i =>
    simp only [step]
    split
    case h_1 => split <;> rfl
    case h_2 => rfl
  | number i =>
    cases hp : b.progress? i with
    | none => simp [step, counts, hp, frame]
    | some p => cases p <;> simp [step, counts, hp, frame]
  | announce i =>
    simp only [step, announce_eq]
    split <;> simp [frame, counts]
  | start i =>
    simp only [step]
    split
    case h_1 => exact frame_start ..
    case h_2 => rfl
  | reply i r =>
    simp only [step]
    split <;> rfl
  | breakOff i =>
    simp only [step]
    split <;> rfl
  | verify i =>
    simp only [step]
    split
    case h_1 => split <;> rfl
    case h_2 => rfl
  | built i r =>
    simp only [step]
    split
    case h_1 => cases r <;> rfl
    case h_2 => rfl
  | settle i =>
    simp only [step]
    split
    case h_1 => exact frame_settle ..
    case h_2 => rfl

theorem generation_step (b : Board H) (st : Step H) :
    (b.step st).generation = if b.counts st then nextGeneration b.generation else b.generation := by
  have h := congrArg Prod.fst (frame_step b st)
  cases st <;> simp_all [frame, counts]
  case retire => by_cases hc : b.closing = 0 <;> simp [hc]

theorem mounted_step (b : Board H) (st : Step H) :
    (b.step st).mounted = match st with
      | .close => false
      | _ => b.mounted := by
  have h := congrArg (·.2.1) (frame_step b st)
  cases st <;> simp_all [frame]
  case retire => by_cases hc : b.closing = 0 <;> simp [hc]

/-- Once taken down, a board stays down. -/
theorem mounted_of_step {b : Board H} {st : Step H} (h : (b.step st).mounted = true) : b.mounted = true := by
  rw [mounted_step] at h
  cases st <;> simp_all

theorem closing_step (b : Board H) (st : Step H) :
    (b.step st).closing = match st with
      | .close => b.closing + 1
      | .retire => b.closing - 1
      | _ => b.closing := by
  have h := congrArg (·.2.2) (frame_step b st)
  cases st <;> simp_all [frame]
  case retire => by_cases hc : b.closing = 0 <;> simp [hc]

/-! ### What is published -/

/-- A write to the board: whose it is and what it says. -/
structure Write (H : Type) where
  generation : Nat
  state : State H

/-- The write that a step makes, if it is published. -/
def attempt? (b : Board H) : Step H → Option (Write H)
  | .announce i => match b.entries[i]? with
    | some ⟨s, .numbered g⟩ => some ⟨g, s.firstState⟩
    | _ => none
  | .settle i => match b.entries[i]? with
    | some ⟨_, .finishing g r⟩ => some ⟨g, r⟩
    | _ => none
  | _ => none

/-- The write that a step publishes: none when its generation may not write. -/
def published? (b : Board H) (st : Step H) : Option (Write H) :=
  (b.attempt? st).filter fun w => b.isLive w.generation

theorem state_settle (b : Board H) (i g : Nat) (r : State H) :
    (b.settle i g r).state = (b.commit g r).state ∧ (b.settle i g r).version = (b.commit g r).version := by
  obtain h | h := settle_eq b i g r <;> rw [h] <;> simp

/-- **The state changes by what is published, and by nothing else.** -/
theorem state_step (b : Board H) (st : Step H) :
    (b.step st).state = ((b.published? st).map (·.state)).getD b.state ∧
      (b.step st).version = b.version + (b.published? st).toList.length := by
  cases st with
  | handIn s => exact ⟨rfl, rfl⟩
  | close => exact ⟨rfl, rfl⟩
  | retire =>
    simp only [step, published?, attempt?]
    split <;> exact ⟨rfl, rfl⟩
  | check i =>
    simp only [step, published?, attempt?]
    split
    case h_1 => split <;> exact ⟨rfl, rfl⟩
    case h_2 => exact ⟨rfl, rfl⟩
  | number i =>
    simp only [step, published?, attempt?]
    split <;> exact ⟨rfl, rfl⟩
  | announce i =>
    simp only [step, published?, attempt?, announce_eq]
    cases b.entries[i]? with
    | none => exact ⟨rfl, rfl⟩
    | some e =>
      obtain ⟨s, p⟩ := e
      cases p
      case numbered g =>
        simp only [state_move, version_move, state_commit, version_commit, Option.filter_some]
        cases hl : b.isLive g <;> simp
      all_goals exact ⟨rfl, rfl⟩
  | start i =>
    simp only [step, published?, attempt?]
    split
    case h_1 =>
      simp only [start]
      split <;> exact ⟨rfl, rfl⟩
    case h_2 => exact ⟨rfl, rfl⟩
  | reply i r =>
    simp only [step, published?, attempt?]
    split <;> exact ⟨rfl, rfl⟩
  | breakOff i =>
    simp only [step, published?, attempt?]
    split <;> exact ⟨rfl, rfl⟩
  | verify i =>
    simp only [step, published?, attempt?]
    split
    case h_1 => split <;> exact ⟨rfl, rfl⟩
    case h_2 => exact ⟨rfl, rfl⟩
  | built i r =>
    simp only [step, published?, attempt?]
    split
    case h_1 => cases r <;> exact ⟨rfl, rfl⟩
    case h_2 => exact ⟨rfl, rfl⟩
  | settle i =>
    simp only [step, published?, attempt?]
    split
    case h_1 g r hp =>
      obtain ⟨s, he⟩ := entry_of_progress? hp
      simp only [he, state_settle, state_commit, version_commit, Option.filter_some]
      cases hl : b.isLive g <;> simp
    case h_2 hp =>
      split
      case h_1 s g r he => exact absurd (progress?_eq he) (hp g r)
      case h_2 => exact ⟨rfl, rfl⟩

/-! ### What is sent to the compiler -/

/-- The source that a step sends to the compiler, with the submission that it comes from. -/
def sent? (b : Board H) : Step H → Option (Nat × String)
  | .start i => match b.entries[i]? with
    | some ⟨s, .announced _⟩ =>
      (Source.componentName? s.text.toList).map fun _ => (i, String.ofList (Source.normalize s.text.toList))
    | _ => none
  | _ => none

@[simp] theorem calls_move (b : Board H) (i : Nat) (p : Progress H) : (b.move i p).calls = b.calls := rfl
@[simp] theorem calls_note (b : Board H) (e : BoardEvent) : (b.note e).calls = b.calls := rfl
@[simp] theorem calls_commit (b : Board H) (g : Nat) (r : State H) : (b.commit g r).calls = b.calls := by
  unfold commit
  split <;> rfl

@[simp] theorem calls_settle (b : Board H) (i g : Nat) (r : State H) : (b.settle i g r).calls = b.calls := by
  obtain h | h := settle_eq b i g r <;> rw [h] <;> simp

/-- **The compiler is sent what a step sends, and nothing else.** -/
theorem calls_step (b : Board H) (st : Step H) :
    (b.step st).calls.toList = b.calls.toList ++ (b.sent? st).toList := by
  cases st with
  | handIn s | close => simp [step, sent?]
  | retire =>
    simp only [step, sent?]
    split <;> simp
  | check i =>
    simp only [step, sent?]
    split
    case h_1 => split <;> simp
    case h_2 => simp
  | number i | reply i r | breakOff i =>
    simp only [step, sent?]
    split <;> simp
  | announce i =>
    simp only [step, sent?, announce_eq]
    split <;> simp
  | start i =>
    simp only [step, sent?, start]
    cases b.entries[i]? with
    | none => simp
    | some e =>
      obtain ⟨s, p⟩ := e
      cases p
      case announced g => cases hn : Source.componentName? s.text.toList <;> simp [hn]
      all_goals simp
  | verify i =>
    simp only [step, sent?]
    split
    case h_1 => split <;> simp
    case h_2 => simp
  | built i r =>
    simp only [step, sent?]
    split
    case h_1 => cases r <;> simp
    case h_2 => simp
  | settle i =>
    simp only [step, sent?]
    split <;> simp

end Board
end LivePreview.Preview
