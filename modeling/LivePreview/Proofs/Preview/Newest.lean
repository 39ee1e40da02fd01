import LivePreview.Proofs.Preview.Numbering

/-! The newest submission decides what a board shows.

A board goes through small steps of any number of submissions in any order. The writes it publishes come in the
order of their generations, and nothing but these writes changes what it shows. Once the newest submission has
settled on a mounted board, the board shows what this submission comes to by itself: the failure it ends with or
the component built for it. What an overtaken run has to say is never published. -/
namespace LivePreview.Preview
open Compile

/-- What a submission comes to by itself, from what it hears from outside; none while it has not heard enough. -/
def Submission.outcome? {H : Type} (s : Submission) (h : Heard H) : Option (State H) :=
  match s.target with
  | .unsupported tag => some (.unsupported tag)
  | .react =>
    if Text.isBlankText s.text.toList then some .empty
    else
      match Source.componentName? s.text.toList with
      | none => some .nameless
      | some _ =>
        match h.reply with
        | none => none
        | some (.error e) => some (.failed .compilationFailed e.message)
        | some (.ok answer) =>
          match answer.outcome with
          | .rejected message => some (.failed .compilationFailed message)
          | .compiled _ => h.built.map .ofBuilt

namespace Board
variable {H : Type}

/-- What submission `i` has heard at the end of a run. -/
def heard (i : Nat) (b : Board H) (h : Heard H) : List (Step H) → Heard H
  | [] => h
  | st :: rest => heard i (b.step st) (hear i b st h) rest

/-- The writes that a run publishes, in order. -/
def writes (b : Board H) : List (Step H) → List (Write H)
  | [] => []
  | st :: rest => (b.published? st).toList ++ writes (b.step st) rest

/-! ### Outcomes -/

theorem outcome?_of_refused {s : Submission} (h : Heard H) (hs : (s.firstState : State H).isSettled = true) :
    s.outcome? h = some s.firstState := by
  obtain ⟨text, target⟩ := s
  cases target with
  | unsupported tag => rfl
  | react =>
    by_cases hb : Text.isBlankText text.toList = true
    · simp [Submission.firstState, Submission.outcome?, hb]
    · simp [Submission.firstState, hb, State.isSettled] at hs

theorem react_of_accepted {s : Submission} (hs : (s.firstState : State H) = .compiling) :
    s.target = .react ∧ Text.isBlankText s.text.toList = false := by
  obtain ⟨text, target⟩ := s
  cases target with
  | unsupported tag => cases hs
  | react =>
    by_cases hb : Text.isBlankText text.toList = true
    · simp [Submission.firstState, hb, State.empty] at hs
    · exact ⟨rfl, by simpa using hb⟩

theorem outcome?_nameless {s : Submission} (h : Heard H) (hs : (s.firstState : State H) = .compiling)
    (hn : Source.componentName? s.text.toList = none) : s.outcome? h = some .nameless := by
  obtain ⟨ht, hb⟩ := react_of_accepted hs
  simp [Submission.outcome?, ht, hb, hn]

theorem outcome?_failed {s : Submission} {h : Heard H} {e : GatewayError}
    (hs : (s.firstState : State H) = .compiling) (hn : (Source.componentName? s.text.toList).isSome = true)
    (hr : h.reply = some (.error e)) :
    s.outcome? h = some (.failed .compilationFailed e.message) := by
  obtain ⟨ht, hb⟩ := react_of_accepted hs
  obtain ⟨found, hn⟩ := Option.isSome_iff_exists.mp hn
  simp [Submission.outcome?, ht, hb, hn, hr]

theorem outcome?_answered {s : Submission} {h : Heard H} {answer : Answer}
    (hs : (s.firstState : State H) = .compiling) (hn : (Source.componentName? s.text.toList).isSome = true)
    (hr : h.reply = some (.ok answer)) :
    s.outcome? h = match answer.outcome with
      | .rejected message => some (.failed .compilationFailed message)
      | .compiled _ => h.built.map .ofBuilt := by
  obtain ⟨ht, hb⟩ := react_of_accepted hs
  obtain ⟨found, hn⟩ := Option.isSome_iff_exists.mp hn
  simp only [Submission.outcome?, ht, hb, hn, hr]
  rfl

/-- An outcome is a failure or a component. -/
theorem isSettled_of_outcome? {s : Submission} {h : Heard H} {r : State H} (hr : s.outcome? h = some r) :
    r.isSettled = true := by
  cases hs : (s.firstState : State H).isSettled
  · have hc := firstState_eq_compiling hs
    cases hn : Source.componentName? s.text.toList with
    | none =>
      rw [outcome?_nameless h hc hn] at hr
      cases hr
      rfl
    | some found =>
      have hn' : (Source.componentName? s.text.toList).isSome = true := by rw [hn]; rfl
      match hh : h.reply with
      | none =>
        obtain ⟨ht, hb⟩ := react_of_accepted hc
        simp [Submission.outcome?, ht, hb, hn, hh] at hr
      | some (.error e) =>
        rw [outcome?_failed hc hn' hh] at hr
        cases hr
        rfl
      | some (.ok answer) =>
        rw [outcome?_answered hc hn' hh] at hr
        split at hr
        · cases hr
          rfl
        · obtain ⟨built, -, rfl⟩ := Option.map_eq_some_iff.mp hr
          cases built <;> rfl
  · rw [outcome?_of_refused h hs] at hr
    cases hr
    exact hs

/-! ### What is true of a submission on its way -/

/-- What holds of a submission that has come to some progress and has heard `h`. Before the compiler is asked it has
heard nothing. The result that it holds is its own outcome, or it is stale. When it has settled and its generation
is still the one that may write, the board shows its outcome. -/
def Truthful (b : Board H) (s : Submission) (h : Heard H) : Progress H → Prop
  | .handedIn | .admitted | .ignored | .numbered _ => h = {}
  | .announced _ => h = {} ∧ (s.firstState : State H) = .compiling
  | .asked .. =>
    h = {} ∧ (s.firstState : State H) = .compiling ∧ (Source.componentName? s.text.toList).isSome = true
  | .compiled _ _ code | .building _ _ code =>
    ((s.firstState : State H) = .compiling ∧ (Source.componentName? s.text.toList).isSome = true) ∧
      ∃ answer, h = { reply := some (.ok answer) } ∧ answer.outcome = .compiled code
  | .finishing g r => s.outcome? h = some r ∨ r = .compiling ∧ b.isLive g = false
  | .settled g => b.isLive g = true → s.outcome? h = some b.state
  | .broken _ => True

/-- What a published write says of the run that makes it. -/
theorem writer_of_published {b : Board H} {st : Step H} {w : Write H} (h : b.published? st = some w) :
    b.isLive w.generation = true ∧ ∃ (i : Nat) (s : Submission) (p : Progress H),
      b.entries[i]? = some ⟨s, p⟩ ∧ p.generation? = some w.generation ∧ ∀ g, p ≠ .settled g := by
  obtain ⟨ha, hl⟩ := Option.filter_eq_some_iff.mp h
  refine ⟨by simpa using hl, ?_⟩
  cases st with
  | announce i =>
    simp only [attempt?] at ha
    split at ha
    case h_1 s g he =>
      cases ha
      exact ⟨i, s, _, he, rfl, fun _ h => by cases h⟩
    case h_2 => cases ha
  | settle i =>
    simp only [attempt?] at ha
    split at ha
    case h_1 s g r he =>
      cases ha
      exact ⟨i, s, _, he, rfl, fun _ h => by cases h⟩
    case h_2 => cases ha
  | _ => cases ha

/-- Nobody else writes while the generation of a settled submission may write. -/
theorem published?_of_settled {b : Board H} (hw : WellNumbered b) {st : Step H} {i g : Nat} {s : Submission}
    (he : b.entries[i]? = some ⟨s, .settled g⟩) (hl : b.isLive g = true) : b.published? st = none := by
  cases hp : b.published? st with
  | none => rfl
  | some w =>
    obtain ⟨hwl, j, t, p, hj, hgen, hne⟩ := writer_of_published hp
    obtain ⟨hm, rfl⟩ := isLive_iff.mp hl
    obtain ⟨-, hg⟩ := isLive_iff.mp hwl
    have hi : b.generationAt? i = some b.generation := generationAt?_eq he
    have hj' : b.generationAt? j = some b.generation := by rw [generationAt?_eq hj, hgen, hg]
    obtain rfl := (hw hm).2.distinct hi hj'
    rw [he] at hj
    cases hj
    exact absurd rfl (hne _)

section Step
variable {b : Board H} {st : Step H} {i : Nat} {s : Submission} {h h' : Heard H} {p q : Progress H}
  (hw : WellNumbered b) (hn : b.entries.size < 2 ^ 64)
include hw hn

theorem isLive_of_step {g : Nat} (hi : b.generationAt? i = some g) (hl : (b.step st).isLive g = true) :
    b.isLive g = true := by
  cases hb : b.isLive g
  · rw [stale_step hw hn st hi hb] at hl
    cases hl
  · rfl

theorem Truthful.same (he : b.entries[i]? = some ⟨s, p⟩) (ht : Truthful b s h p) : Truthful (b.step st) s h p := by
  cases p with
  | finishing g r => exact ht.imp_right fun hs => ⟨hs.1, stale_step hw hn st (generationAt?_eq he) hs.2⟩
  | settled g =>
    intro hl'
    have hl := isLive_of_step hw hn (generationAt?_eq he) hl'
    rw [(state_step b st).1, published?_of_settled hw he hl]
    exact ht hl
  | _ => exact ht

/-- A step keeps what is true of the submission that it moves. -/
theorem Truthful.moved (he : b.entries[i]? = some ⟨s, p⟩) (rule : Rule b s i h st p q h') (ht : Truthful b s h p) :
    Truthful (b.step st) s h' q := by
  cases rule with
  | letIn | ignore | number | proceed => exact ht
  | breakOff => trivial
  | @refuse g hs =>
    intro hl'
    have hl := isLive_of_step hw hn (generationAt?_eq he) hl'
    have hp : b.published? (.announce i) = some ⟨g, s.firstState⟩ := by simp [published?, attempt?, he, hl]
    rw [(state_step b _).1, hp]
    exact outcome?_of_refused h hs
  | accept hs => exact ⟨ht, hs⟩
  | nameless hname => exact .inl (outcome?_nameless h ht.2 hname)
  | ask hname => exact ⟨ht.1, ht.2, by rw [hname]; rfl⟩
  | reply r =>
    obtain ⟨rfl, hs, hname⟩ := ht
    cases r with
    | error e => exact .inl (outcome?_failed hs hname rfl)
    | ok answer =>
      simp only [afterReply]
      split
      · exact ⟨⟨hs, hname⟩, answer, rfl, by assumption⟩
      case h_2 message ho => exact .inl (by rw [outcome?_answered hs hname rfl, ho])
  | overtaken hl => exact .inr ⟨rfl, stale_step hw hn _ (generationAt?_eq he) hl⟩
  | built r =>
    obtain ⟨⟨hs, hname⟩, answer, rfl, ho⟩ := ht
    exact .inl (by rw [outcome?_answered hs hname rfl, ho]; rfl)
  | @settle g r =>
    intro hl'
    have hl := isLive_of_step hw hn (generationAt?_eq he) hl'
    have hp : b.published? (.settle i) = some ⟨g, r⟩ := by simp [published?, attempt?, he, hl]
    rw [(state_step b _).1, hp]
    obtain ho | ⟨-, hstale⟩ := ht
    · exact ho
    · rw [hl] at hstale
      cases hstale

end Step

/-- What is true of the place of submission `i`, filled or not. -/
def TruthfulAt (b : Board H) (i : Nat) (h : Heard H) : Prop :=
  (b.entries[i]? = none → h = {}) ∧ ∀ s p, b.entries[i]? = some ⟨s, p⟩ → Truthful b s h p

theorem truthfulAt_step {b : Board H} (hw : WellNumbered b) (hn : b.entries.size < 2 ^ 64) (st : Step H) {i : Nat}
    {h : Heard H} (ht : TruthfulAt b i h) : TruthfulAt (b.step st) i (hear i b st h) := by
  have hc := entry_step b st i h
  generalize hear i b st h = h' at hc ⊢
  unfold TruthfulAt
  generalize he' : (b.step st).entries[i]? = e' at hc ⊢
  generalize he : b.entries[i]? = e at hc
  cases hc with
  | same e =>
    refine ⟨fun hnone => ht.1 (he.trans hnone), fun s p hs => ?_⟩
    exact (ht.2 s p (he.trans hs)).same hw hn (he.trans hs)
  | handedIn s =>
    refine ⟨fun hnone => (nomatch hnone), fun s' p hs => ?_⟩
    cases hs
    exact ht.1 he
  | moved rule =>
    refine ⟨fun hnone => (nomatch hnone), fun s' p hs => ?_⟩
    cases hs
    exact (ht.2 _ _ he).moved hw hn he rule

theorem truthfulAt_run {b : Board H} (hw : WellNumbered b) (steps : List (Step H))
    (hn : (b.run steps).entries.size < 2 ^ 64) {i : Nat} {h : Heard H} (ht : TruthfulAt b i h) :
    TruthfulAt (b.run steps) i (heard i b h steps) := by
  induction steps generalizing b h with
  | nil => exact ht
  | cons st rest ih =>
    have hsize : b.entries.size < 2 ^ 64 :=
      Nat.lt_of_le_of_lt (Nat.le_trans (size_step b st) (size_run (b.step st) rest)) hn
    exact ih (hw.step hsize st).1 hn (truthfulAt_step hw hsize st ht)

/-! ### Writes in order -/

theorem mounted_of_run {b : Board H} {steps : List (Step H)} (h : (b.run steps).mounted = true) :
    b.mounted = true := by
  induction steps generalizing b with
  | nil => exact h
  | cons st rest ih => exact mounted_of_step (ih h)

/-- While a board stays mounted its generation only grows. -/
theorem generation_le_run {b : Board H} (hw : WellNumbered b) (steps : List (Step H))
    (hn : (b.run steps).entries.size < 2 ^ 64) (hm : (b.run steps).mounted = true) :
    b.generation ≤ (b.run steps).generation := by
  induction steps generalizing b with
  | nil => exact Nat.le_refl _
  | cons st rest ih =>
    have hsize : b.entries.size < 2 ^ 64 :=
      Nat.lt_of_le_of_lt (Nat.le_trans (size_step b st) (size_run (b.step st) rest)) hn
    obtain ⟨hw', hmono⟩ := hw.step hsize st
    exact Nat.le_trans (hmono (mounted_of_run hm)) (ih hw' hn hm)

/-- What was published on a board that is still mounted is of its generation or of an earlier one. -/
theorem le_generation_of_mem_writes {b : Board H} (hw : WellNumbered b) (steps : List (Step H))
    (hn : (b.run steps).entries.size < 2 ^ 64) (hm : (b.run steps).mounted = true) {v : Write H}
    (hv : v ∈ writes b steps) : v.generation ≤ (b.run steps).generation := by
  induction steps generalizing b with
  | nil => cases hv
  | cons st rest ih =>
    have hsize : b.entries.size < 2 ^ 64 :=
      Nat.lt_of_le_of_lt (Nat.le_trans (size_step b st) (size_run (b.step st) rest)) hn
    obtain hfirst | hlater := List.mem_append.mp hv
    · have hp : b.published? st = some v := by simpa using hfirst
      obtain ⟨-, hg⟩ := isLive_iff.mp (writer_of_published hp).1
      exact hg ▸ generation_le_run hw (st :: rest) hn hm
    · exact ih (hw.step hsize st).1 hn hm hlater

/-- **Once a write was published, one of a lower generation changes nothing.** -/
theorem published?_of_lower {b : Board H} (hw : WellNumbered b) (steps : List (Step H))
    (hn : (b.run steps).entries.size < 2 ^ 64) {v w : Write H} (hv : v ∈ writes b steps) {st : Step H}
    (ha : (b.run steps).attempt? st = some w) (hlt : w.generation < v.generation) :
    (b.run steps).published? st = none := by
  cases hp : (b.run steps).published? st with
  | none => rfl
  | some w' =>
    obtain ⟨ha', -⟩ := Option.filter_eq_some_iff.mp hp
    obtain rfl : w = w' := Option.some.inj (ha.symm.trans ha')
    obtain ⟨hm, hg⟩ := isLive_iff.mp (writer_of_published hp).1
    have := le_generation_of_mem_writes hw steps hn hm hv
    omega

/-! ### The newest submission -/

/-- No submission has a later generation. -/
def IsNewest (b : Board H) (g : Nat) : Prop := ∀ i g', b.generationAt? i = some g' → g' ≤ g

/-- The generation of the newest submission is the one that may write. -/
theorem isLive_of_isNewest {b : Board H} (hw : WellNumbered b) (hm : b.mounted = true) {i g : Nat}
    (hi : b.generationAt? i = some g) (hnew : IsNewest b g) : b.isLive g = true := by
  have hnum := (hw hm).2
  obtain ⟨hpos, hle⟩ := hnum.bounds hi
  obtain ⟨j, hj⟩ := hnum.taken (Nat.lt_of_lt_of_le hpos hle) (Nat.le_refl _)
  exact isLive_iff.mpr ⟨hm, Nat.le_antisymm (hnew j _ hj) hle⟩

theorem truthfulAt_init (i : Nat) : TruthfulAt ({} : Board H) i {} := ⟨fun _ => rfl, by simp⟩

/-- **The newest submission decides what a board shows.** After any steps of fewer than `2 ^ 64` submissions: a write
of a generation below one that was published changes nothing; when the newest submission has settled and the board
is mounted, the board shows the outcome of this submission, which is a failure or a component; and a run that may
still write never writes that it is compiling. -/
theorem newest_decides (steps : List (Step H)) (hn : (run {} steps).entries.size < 2 ^ 64) :
    (∀ v ∈ writes {} steps, ∀ (st : Step H) (w : Write H), (run {} steps).attempt? st = some w →
      w.generation < v.generation → ((run {} steps).step st).state = (run {} steps).state ∧
        ((run {} steps).step st).version = (run {} steps).version) ∧
    (∀ (i : Nat) (s : Submission) (g : Nat), (run {} steps).mounted = true →
      (run {} steps).entries[i]? = some ⟨s, .settled g⟩ → IsNewest (run {} steps) g →
      s.outcome? (heard i {} {} steps) = some (run {} steps).state ∧ (run {} steps).state.isSettled = true) ∧
    (∀ (i : Nat) (s : Submission) (g : Nat) (r : State H), (run {} steps).entries[i]? = some ⟨s, .finishing g r⟩ →
      (run {} steps).isLive g = true → s.outcome? (heard i {} {} steps) = some r ∧ r.isSettled = true) := by
  have hw := wellNumbered_run wellNumbered_init steps hn
  have htruth := fun i => (truthfulAt_run wellNumbered_init steps hn (truthfulAt_init i)).2
  refine ⟨fun v hv st w ha hlt => ?_, fun i s g hm he hnew => ?_, fun i s g r he hl => ?_⟩
  · obtain ⟨hstate, hversion⟩ := state_step (run {} steps) st
    rw [hstate, hversion, published?_of_lower wellNumbered_init steps hn hv ha hlt]
    exact ⟨rfl, rfl⟩
  · have hl := isLive_of_isNewest hw hm (generationAt?_eq he) hnew
    have hout := htruth i s _ he hl
    exact ⟨hout, isSettled_of_outcome? hout⟩
  · obtain hout | ⟨-, hstale⟩ := htruth i s _ he
    · exact ⟨hout, isSettled_of_outcome? hout⟩
    · rw [hl] at hstale
      cases hstale

/-- Two submissions ask the compiler, and the second one hears from it first. -/
def overtaking : List (Step Nat) :=
  [.handIn ⟨"const A = 1", .react⟩, .check 0, .number 0, .announce 0, .start 0,
    .handIn ⟨"const B = 2", .react⟩, .check 1, .number 1, .announce 1, .start 1,
    .reply 1 (.ok (.compiled "b")), .verify 1, .built 1 (.ok 7)]

/-- The second submission settles; then the first one hears from the compiler and finds that it was overtaken. -/
def overtaken : List (Step Nat) := overtaking ++ [.settle 1, .reply 0 (.ok (.compiled "a")), .verify 0]

theorem newest_decides_overtaken :
    (run {} overtaken).entries.size < 2 ^ 64 ∧
    ((run {} overtaken).attempt? (.settle 0) = some ⟨1, .compiling⟩ ∧
      ((run {} overtaken).step (.settle 0)).state = (run {} overtaken).state) ∧
    (IsNewest (run {} overtaken) 2 ∧ (run {} overtaken).state = .ready 7 ∧
      Submission.outcome? ⟨"const B = 2", .react⟩ (heard 1 {} {} overtaken) = some (run {} overtaken).state) ∧
    (run {} overtaking).entries[1]? = some ⟨⟨"const B = 2", .react⟩, .finishing 2 (.ready 7)⟩ ∧
      Submission.outcome? ⟨"const B = 2", .react⟩ (heard 1 {} {} overtaking) = some (.ready 7 : State Nat) := by
  have hn : (run {} overtaken).entries.size < 2 ^ 64 := by decide
  have hm : (run {} overtaken).mounted = true := rfl
  have ha : (run {} overtaken).attempt? (.settle 0) = some ⟨1, .compiling⟩ := rfl
  have hnew : IsNewest (run {} overtaken) 2 := fun i g hi =>
    ((wellNumbered_run wellNumbered_init overtaken hn hm).2.bounds hi).2
  have hlast : (⟨2, .ready 7⟩ : Write Nat) ∈ writes {} overtaken := by
    have : writes {} overtaken = [⟨1, .compiling⟩, ⟨2, .compiling⟩, ⟨2, .ready 7⟩] := rfl
    simp [this]
  obtain ⟨hlower, hnewest, -⟩ := newest_decides overtaken hn
  obtain ⟨-, -, hresult⟩ := newest_decides overtaking (by decide)
  exact ⟨hn, ⟨ha, (hlower _ hlast _ _ ha (by decide)).1⟩, ⟨hnew, rfl, (hnewest 1 _ 2 hm rfl hnew).1⟩, rfl,
    (hresult 1 _ 2 (.ready 7) rfl rfl).1⟩

end Board
end LivePreview.Preview
