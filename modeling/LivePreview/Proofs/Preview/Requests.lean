import LivePreview.Proofs.Preview.Takedown
import Mathlib.Data.List.Nodup

/-! What the compiler is asked is accounted for.

Whether a run comes to the point where it asks is read off the steps alone: its submission is let in while no `close`
has come, then it takes its generation, makes its first write and starts, with any other steps between (`Reaches`).
What a board has sent to the compiler is one source for each run that has come there and whose submission can be
compiled, and nothing else (`calls_accounted`): a run that was overtaken on the way asks as well, and none asks twice.

The proof counts how far a run has come (`stage`). A stage is only left for the next one, by the step that is due, and
never again for an earlier one. -/
namespace LivePreview.Preview

/-- A submission that can be compiled: it is written for the runtime that can be shown, its text is not blank, and
the text names a component. -/
structure Submission.Compiles (s : Submission) : Prop where
  target : s.target = .react
  filled : Text.isBlankText s.text.toList = false
  named : (Source.componentName? s.text.toList).isSome = true

/-- What the compiler is asked to compile. -/
def Submission.source (s : Submission) : String := String.ofList (Source.normalize s.text.toList)

theorem Submission.Compiles.firstState {H : Type} {s : Submission} (h : s.Compiles) :
    (s.firstState : State H) = .compiling := by
  obtain ⟨text, target⟩ := s
  obtain rfl : target = .react := h.target
  simp [Submission.firstState, h.filled]

namespace Board
variable {H : Type} {b : Board H} {st : Step H} {steps : List (Step H)} {s : Submission} {i : Nat}

/-! ### What the steps say -/

/-- The submissions that are handed in, in order. -/
def handedIn (steps : List (Step H)) : List Submission := steps.filterMap fun
  | .handIn s => some s
  | _ => none

/-- The steps of a run from its admission to the compiler. -/
def course (i : Nat) : List (Step H) := [.number i, .announce i, .start i]

/-- Submission `i` is let in, and then the steps of `due` are taken in this order. It is let in when it is looked
whether the board is mounted, after it has been handed in and before any `close`. -/
def Follows (steps : List (Step H)) (i : Nat) (due : List (Step H)) : Prop :=
  ∃ before rest, steps = before ++ .check i :: rest ∧ i < (handedIn before).length ∧
    (∀ st ∈ before, st ≠ .close) ∧ due.Sublist rest

/-- The run of submission `i` comes to the compiler. -/
def Reaches (steps : List (Step H)) (i : Nat) : Prop := Follows steps i (course i)

theorem handedIn_append (steps rest : List (Step H)) : handedIn (steps ++ rest) = handedIn steps ++ handedIn rest :=
  List.filterMap_append

theorem Follows.append {due : List (Step H)} (h : Follows steps i due) (rest : List (Step H)) :
    Follows (steps ++ rest) i due := by
  obtain ⟨before, after, rfl, hi, hc, hd⟩ := h
  exact ⟨before, after ++ rest, by simp, hi, hc, hd.trans (List.sublist_append_left ..)⟩

theorem Follows.snoc {due : List (Step H)} (h : Follows steps i due) (st : Step H) :
    Follows (steps ++ [st]) i (due ++ [st]) := by
  obtain ⟨before, after, rfl, hi, hc, hd⟩ := h
  exact ⟨before, after ++ [st], by simp, hi, hc, hd.append_right [st]⟩

/-! ### Stages -/

end Board

/-- How many of the steps from its admission to the compiler a run has taken. -/
def Progress.stage {H : Type} : Progress H → Nat
  | .handedIn | .ignored => 0
  | .admitted => 1
  | .numbered _ => 2
  | .announced _ => 3
  | .asked .. | .compiled .. | .building .. | .finishing .. | .settled _ | .broken _ => 4

namespace Board
variable {H : Type} {b : Board H} {st : Step H} {steps : List (Step H)} {s : Submission} {i : Nat}

theorem stage_afterReply (g : Nat) (name : String) (r : Compile.Reply) :
    (afterReply g name r : Progress H).stage = 4 := by
  unfold afterReply
  split
  · rfl
  · split <;> rfl

/-! ### The submissions of a board -/

/-- The submissions that a board has taken, in order. -/
def submissions (b : Board H) : List Submission := b.entries.toList.map (·.submission)

@[simp] theorem submissions_move (b : Board H) (i : Nat) (p : Progress H) :
    (b.move i p).submissions = b.submissions := by
  refine List.ext_getElem? fun j => ?_
  simp only [submissions, List.getElem?_map, Array.getElem?_toList, entries_move]
  split
  · cases b.entries[j]? <;> rfl
  · rfl

@[simp] theorem submissions_note (b : Board H) (e : BoardEvent) : (b.note e).submissions = b.submissions := rfl

@[simp] theorem submissions_commit (b : Board H) (g : Nat) (r : State H) :
    (b.commit g r).submissions = b.submissions := by
  simp [submissions]

@[simp] theorem submissions_settle (b : Board H) (i g : Nat) (r : State H) :
    (b.settle i g r).submissions = b.submissions := by
  obtain h | h := settle_eq b i g r <;> rw [h] <;> simp

/-- **A step takes a submission where one is handed in, and nowhere else.** -/
theorem submissions_step (b : Board H) (st : Step H) : (b.step st).submissions = b.submissions ++ handedIn [st] := by
  cases st with
  | handIn s => simp [step, submissions, handedIn]
  | close => simp [step, submissions, handedIn]
  | retire =>
    simp only [step, handedIn]
    split <;> simp [submissions, note]
  | check i =>
    simp only [step, handedIn]
    split
    case h_1 => split <;> simp
    case h_2 => simp
  | number i =>
    simp only [step, handedIn]
    split
    case h_1 => exact (submissions_move b i _).trans (by simp)
    case h_2 => simp
  | announce i =>
    simp only [step, handedIn, announce_eq]
    split <;> simp
  | start i =>
    simp only [step, handedIn, start]
    split
    case h_1 =>
      split
      case h_1 => simp
      case h_2 => exact (submissions_move (b.note _) i _).trans (by simp)
    case h_2 => simp
  | reply i r | breakOff i =>
    simp only [step, handedIn]
    split <;> simp
  | verify i =>
    simp only [step, handedIn]
    split
    case h_1 => split <;> simp
    case h_2 => simp
  | built i r =>
    simp only [step, handedIn]
    split
    case h_1 => cases r <;> simp
    case h_2 => simp
  | settle i =>
    simp only [step, handedIn]
    split <;> simp

theorem run_snoc (b : Board H) (steps : List (Step H)) (st : Step H) : b.run (steps ++ [st]) = (b.run steps).step st :=
  run_append b steps [st]

theorem submissions_run (steps : List (Step H)) : (run {} steps).submissions = handedIn steps := by
  induction steps using List.reverseRecOn with
  | nil => rfl
  | append_singleton steps st ih => rw [run_snoc, submissions_step, ih, handedIn_append]

theorem handedIn_of_entry {p : Progress H} (h : (run {} steps).entries[i]? = some ⟨s, p⟩) :
    (handedIn steps)[i]? = some s := by
  simp [← submissions_run, submissions, h]

theorem entry_of_handedIn (h : (handedIn steps)[i]? = some s) :
    ∃ p, (run {} steps).entries[i]? = some ⟨s, p⟩ := by
  simp only [← submissions_run, submissions, List.getElem?_map, Array.getElem?_toList, Option.map_eq_some_iff] at h
  obtain ⟨⟨_, p⟩, he, rfl⟩ := h
  exact ⟨p, he⟩

/-- A board is mounted as long as no `close` has come. -/
theorem mounted_run (steps : List (Step H)) : (run {} steps).mounted = true ↔ ∀ st ∈ steps, st ≠ .close := by
  induction steps using List.reverseRecOn with
  | nil => simp [run]
  | append_singleton steps st ih =>
    rw [run_snoc, mounted_step]
    cases st <;> simp [← ih, or_imp, forall_and]

/-! ### From stage to stage -/

/-- How a submission that can be compiled gets from one stage to the next. -/
inductive Advance (b : Board H) (i : Nat) : Step H → Progress H → Progress H → Prop where
  | letIn (hm : b.mounted = true) : Advance b i (.check i) .handedIn .admitted
  | number {g : Nat} : Advance b i (.number i) .admitted (.numbered g)
  | accept {g : Nat} : Advance b i (.announce i) (.numbered g) (.announced g)
  | ask {g : Nat} {name source : String} : Advance b i (.start i) (.announced g) (.asked g name source)

/-- A submission that can be compiled keeps its stage or advances. -/
theorem Rule.stage {h h' : Heard H} {p q : Progress H} (rule : Rule b s i h st p q h') (hs : s.Compiles) :
    q.stage = p.stage ∨ Advance b i st p q := by
  cases rule with
  | letIn hm => exact .inr (.letIn hm)
  | number => exact .inr .number
  | accept _ => exact .inr .accept
  | ask _ => exact .inr .ask
  | refuse hr =>
    rw [hs.firstState] at hr
    cases hr
  | nameless hn =>
    have hnamed := hs.named
    rw [hn] at hnamed
    cases hnamed
  | reply r => exact .inl (stage_afterReply ..)
  | _ => exact .inl rfl

theorem Rule.mounted_of_ignored {h h' : Heard H} {p q : Progress H} (rule : Rule b s i h st p q h')
    (hq : q = .ignored) : b.mounted = false := by
  cases rule with
  | ignore hm => exact hm
  | @reply g name _ r => exact nomatch (stage_afterReply g name r).symm.trans (congrArg Progress.stage hq)
  | _ => cases hq

theorem Rule.accepted {h h' : Heard H} {p q : Progress H} {g : Nat} (rule : Rule b s i h st p q h')
    (hq : q = .announced g) : (s.firstState : State H) = .compiling := by
  cases rule with
  | accept hf => exact hf
  | @reply g name _ r => exact nomatch (stage_afterReply g name r).symm.trans (congrArg Progress.stage hq)
  | _ => cases hq

/-- The step of `course` that is due at a stage leads to the next one. -/
theorem stage_due {p : Progress H} (he : b.entries[i]? = some ⟨s, p⟩) (hs : s.Compiles) {k : Nat}
    (hp : p.stage = k + 1) (hst : (course i)[k]? = some st) :
    ∃ q, (b.step st).entries[i]? = some ⟨s, q⟩ ∧ q.stage = k + 2 := by
  have hmove (c : Board H) (hc : c.entries = b.entries) (q : Progress H) : (c.move i q).entries[i]? = some ⟨s, q⟩ :=
    entries_move_self (hc ▸ he) q
  cases p with
  | admitted =>
    cases hp
    cases hst
    refine ⟨.numbered (nextGeneration b.generation), ?_, rfl⟩
    simp [step, progress?_eq he, hmove b rfl]
  | numbered g =>
    cases hp
    cases hst
    refine ⟨.announced g, ?_, rfl⟩
    simp [step, he, announce_eq, hs.firstState, State.isSettled, hmove b rfl]
  | announced g =>
    cases hp
    cases hst
    obtain ⟨found, hn⟩ := Option.isSome_iff_exists.mp hs.named
    refine ⟨.asked g (String.ofList found.name) (String.ofList (Source.normalize s.text.toList)), ?_, rfl⟩
    simp only [step, he, start, hn]
    exact hmove _ rfl _
  | handedIn | ignored => cases hp
  | asked | compiled | building | finishing | settled | broken =>
    cases hp
    cases hst

/-! ### What the compiler is asked -/

theorem sent?_eq_some {source : String} : b.sent? st = some (i, source) ↔
    st = .start i ∧ ∃ s g, b.entries[i]? = some ⟨s, .announced g⟩ ∧
      (Source.componentName? s.text.toList).isSome = true ∧ source = s.source := by
  constructor
  · intro h
    unfold sent? at h
    split at h
    case h_1 j =>
      split at h
      case h_1 s g he =>
        obtain ⟨found, hn, hc⟩ := Option.map_eq_some_iff.mp h
        cases hc
        exact ⟨rfl, s, g, he, by simp [hn], rfl⟩
      case h_2 => cases h
    case h_2 => cases h
  · rintro ⟨rfl, s, g, he, hn, rfl⟩
    obtain ⟨found, hn⟩ := Option.isSome_iff_exists.mp hn
    simp [sent?, he, hn, Submission.source]

/-- What holds of a submission at its place after some steps. It is ignored on a board that is down alone, it has
come as far as the steps have taken it and no further, and it has asked just when it can be compiled and has come
there. -/
structure Placed (steps : List (Step H)) (b : Board H) (i : Nat) (s : Submission) (p : Progress H) : Prop where
  down : p = .ignored → b.mounted = false
  accepted : ∀ g, p = .announced g → (s.firstState : State H) = .compiling
  followed : s.Compiles → ∀ k < p.stage, Follows steps i ((course i).take k)
  asked : ∀ source, (i, source) ∈ b.calls.toList ↔ s.Compiles ∧ p.stage = 4 ∧ source = s.source

theorem mem_calls_step {source : String} :
    (i, source) ∈ (b.step st).calls.toList ↔ (i, source) ∈ b.calls.toList ∨ b.sent? st = some (i, source) := by
  rw [calls_step, List.mem_append, Option.mem_toList]

/-- A run that sends is at the last stage before the compiler, its submission can be compiled, and it is at the last
stage of all after the step. -/
theorem Placed.sends {p : Progress H} {source : String} (h : Placed steps b i s p) (he : b.entries[i]? = some ⟨s, p⟩)
    (hsent : b.sent? st = some (i, source)) :
    p.stage = 3 ∧ s.Compiles ∧ source = s.source ∧ ∃ q, (b.step st).entries[i]? = some ⟨s, q⟩ ∧ q.stage = 4 := by
  obtain ⟨rfl, s', g, he', hn, rfl⟩ := sent?_eq_some.mp hsent
  obtain ⟨rfl, rfl⟩ : s = s' ∧ p = .announced g := by simpa [he] using he'
  obtain ⟨ht, hf⟩ := react_of_accepted (h.accepted g rfl)
  have hs : s.Compiles := ⟨ht, hf, hn⟩
  exact ⟨rfl, hs, rfl, stage_due he hs rfl rfl⟩

/-- A step leaves at its place what holds there, where the submission keeps its stage. -/
theorem Placed.kept {p q : Progress H} (h : Placed steps b i s p) (he : b.entries[i]? = some ⟨s, p⟩)
    (he' : (b.step st).entries[i]? = some ⟨s, q⟩) (hq : s.Compiles → q.stage = p.stage)
    (hdown : q = .ignored → (b.step st).mounted = false)
    (haccepted : ∀ g, q = .announced g → (s.firstState : State H) = .compiling) :
    Placed (steps ++ [st]) (b.step st) i s q where
  down := hdown
  accepted := haccepted
  followed hs k hk := (h.followed hs k (hq hs ▸ hk)).append [st]
  asked source := by
    have hsent : b.sent? st ≠ some (i, source) := by
      intro hsent
      obtain ⟨hp, hs, -, r, hr, hstage⟩ := h.sends he hsent
      obtain rfl : q = r := by simpa [he'] using hr
      have := hq hs
      omega
    rw [mem_calls_step, h.asked source]
    constructor
    · rintro (⟨hs, hp, rfl⟩ | hc)
      · exact ⟨hs, (hq hs).trans hp, rfl⟩
      · exact absurd hc hsent
    · rintro ⟨hs, hp, rfl⟩
      exact .inl ⟨hs, (hq hs).symm.trans hp, rfl⟩

/-- So it does where the submission advances. -/
theorem Placed.advanced {p q : Progress H} (h : Placed steps (run {} steps) i s p)
    (he : (run {} steps).entries[i]? = some ⟨s, p⟩) (hs : s.Compiles) (ha : Advance (run {} steps) i st p q) :
    Placed (steps ++ [st]) ((run {} steps).step st) i s q := by
  have hfollowed (k : Nat) (hk : k ≤ p.stage) (hlast : Follows (steps ++ [st]) i ((course i).take p.stage)) :
      Follows (steps ++ [st]) i ((course i).take k) := by
    obtain hk | rfl := Nat.lt_or_eq_of_le hk
    · exact (h.followed hs k hk).append [st]
    · exact hlast
  -- Before the compiler is asked nothing has been sent, and only the last advance sends.
  have hunasked (hp : p.stage ≤ 2) (hq : q.stage ≠ 4) (source : String) :
      (i, source) ∈ ((run {} steps).step st).calls.toList ↔ s.Compiles ∧ q.stage = 4 ∧ source = s.source := by
    refine iff_of_false ?_ fun hc => hq hc.2.1
    rw [mem_calls_step, h.asked source]
    rintro (⟨-, hc, -⟩ | hc)
    · omega
    · have hthree := (h.sends he hc).1
      omega
  cases ha with
  | letIn hm =>
    have hi : i < (handedIn steps).length := (List.getElem?_eq_some_iff.mp (handedIn_of_entry he)).1
    have hlast : Follows (steps ++ [.check i]) i [] :=
      ⟨steps, [], rfl, hi, (mounted_run steps).mp hm, List.nil_sublist _⟩
    exact ⟨nofun, nofun, fun _ k hk => hfollowed k (Nat.le_of_lt_succ hk) hlast,
      hunasked (by simp [Progress.stage]) (by simp [Progress.stage])⟩
  | number =>
    have hlast := (h.followed hs 0 (by simp [Progress.stage])).snoc (.number i)
    exact ⟨nofun, nofun, fun _ k hk => hfollowed k (Nat.le_of_lt_succ hk) hlast,
      hunasked (by simp [Progress.stage]) (by simp [Progress.stage])⟩
  | accept =>
    have hlast := (h.followed hs 1 (by simp [Progress.stage])).snoc (.announce i)
    exact ⟨nofun, fun _ _ => hs.firstState, fun _ k hk => hfollowed k (Nat.le_of_lt_succ hk) hlast,
      hunasked (by simp [Progress.stage]) (by simp [Progress.stage])⟩
  | @ask g =>
    have hlast := (h.followed hs 2 (by simp [Progress.stage])).snoc (.start i)
    refine ⟨nofun, nofun, fun _ k hk => hfollowed k (Nat.le_of_lt_succ hk) hlast, fun source => ?_⟩
    rw [mem_calls_step, h.asked source, sent?_eq_some]
    constructor
    · rintro (⟨-, hp, -⟩ | ⟨-, s', g', he', -, rfl⟩)
      · simp [Progress.stage] at hp
      · rw [he] at he'
        cases he'
        exact ⟨hs, rfl, rfl⟩
    · rintro ⟨-, -, rfl⟩
      exact .inr ⟨rfl, s, g, he, hs.named, rfl⟩

/-- **Every submission is where the steps have taken it.** -/
theorem placed_run (steps : List (Step H)) : ∀ {i : Nat} {s : Submission} {p : Progress H},
    (run {} steps).entries[i]? = some ⟨s, p⟩ → Placed steps (run {} steps) i s p := by
  induction steps using List.reverseRecOn with
  | nil => intro i s p he; simp [run] at he
  | append_singleton steps st ih =>
    intro i s q he'
    rw [run_snoc] at he' ⊢
    have hc := entry_step (run {} steps) st i {}
    rw [he'] at hc
    generalize hear i (run {} steps) st {} = h' at hc
    generalize he : (run {} steps).entries[i]? = e at hc
    cases hc with
    | same =>
      exact (ih he).kept he he' (fun _ => rfl) (fun hq => down_step ((ih he).down hq) st) (ih he).accepted
    | handedIn =>
      have hnew (source : String) : (i, source) ∉ ((run {} steps).step st).calls.toList := by
        rw [mem_calls_step, sent?_eq_some]
        rintro (hc | ⟨-, s', g, hs, -⟩)
        · have hsome := callsNumbered_run (b := {}) (by simp [CallsNumbered]) steps _ hc
          simp [generationAt?, he] at hsome
        · simp [he] at hs
      refine ⟨fun hp => ?_, fun g hp => ?_, fun _ k hk => absurd hk (Nat.not_lt_zero k), fun source => ?_⟩
      · cases hp
      · cases hp
      · exact iff_of_false (hnew source) (by simp [Progress.stage])
    | @moved _ p _ _ rule =>
      by_cases hs : s.Compiles
      · obtain hq | ha := rule.stage hs
        · exact (ih he).kept he he' (fun _ => hq) (fun hi => down_step (rule.mounted_of_ignored hi) st)
            (fun _ _ => hs.firstState)
        · exact (ih he).advanced he hs ha
      · exact (ih he).kept he he' (fun hs' => absurd hs' hs) (fun hi => down_step (rule.mounted_of_ignored hi) st)
          (fun g hg => rule.accepted hg)

/-! ### Runs that come to the compiler -/

theorem Progress.stage_le (p : Progress H) : p.stage ≤ 4 := by cases p <;> simp [Progress.stage]

/-- A submission that can be compiled never goes back. -/
theorem stage_step {p : Progress H} (he : b.entries[i]? = some ⟨s, p⟩) (hs : s.Compiles) (st : Step H) :
    ∃ q, (b.step st).entries[i]? = some ⟨s, q⟩ ∧ p.stage ≤ q.stage := by
  have hc := entry_step b st i {}
  rw [he] at hc
  generalize hear i b st {} = h' at hc
  generalize he' : (b.step st).entries[i]? = e' at hc
  cases hc with
  | same => exact ⟨p, rfl, Nat.le_refl _⟩
  | @moved _ _ q _ rule =>
    refine ⟨q, rfl, ?_⟩
    obtain hq | ha := rule.stage hs
    · exact Nat.le_of_eq hq.symm
    · cases ha <;> simp [Progress.stage]

/-- A run that goes on with the steps that are due, whatever is between them, comes to the compiler. -/
theorem stage_of_sublist (hs : s.Compiles) {rest : List (Step H)} {k : Nat} {b : Board H} {p : Progress H}
    (he : b.entries[i]? = some ⟨s, p⟩) (hp : k < p.stage) (hd : ((course i).drop k).Sublist rest) :
    ∃ q, (b.run rest).entries[i]? = some ⟨s, q⟩ ∧ q.stage = 4 := by
  induction rest generalizing k b p with
  | nil =>
    have hk : 3 ≤ k := List.drop_eq_nil_iff.mp (List.sublist_nil.mp hd)
    exact ⟨p, he, by have := Progress.stage_le p; omega⟩
  | cons st rest ih =>
    obtain ⟨q, hq, hle⟩ := stage_step he hs st
    cases hd' : (course i).drop k with
    | nil => exact ih hq (Nat.lt_of_lt_of_le hp hle) (hd' ▸ List.nil_sublist rest)
    | cons first others =>
      have hfirst : (course i)[k]? = some first := by
        rw [← List.head?_drop, hd']
        rfl
      have hothers : (course i).drop (k + 1) = others := by
        rw [← List.drop_drop, hd']
        rfl
      rw [hd'] at hd
      cases hd with
      | cons _ hd => exact ih hq (Nat.lt_of_lt_of_le hp hle) (hd' ▸ hd)
      | cons_cons _ hd =>
        obtain hp | hp := Nat.lt_or_eq_of_le (Nat.succ_le_of_lt hp)
        · exact ih hq (Nat.lt_of_lt_of_le hp hle) (hothers ▸ hd)
        · obtain ⟨r, hr, hstage⟩ := stage_due he hs hp.symm hfirst
          exact ih hr (by omega) (hothers ▸ hd)

/-- A submission on a mounted board has been let in when it has been looked at. -/
theorem stage_check {p : Progress H} (he : b.entries[i]? = some ⟨s, p⟩) (hs : s.Compiles) (hm : b.mounted = true)
    (hp : p ≠ .ignored) : ∃ q, (b.step (.check i)).entries[i]? = some ⟨s, q⟩ ∧ 0 < q.stage := by
  have hmono : 0 < p.stage → ∃ q, (b.step (.check i)).entries[i]? = some ⟨s, q⟩ ∧ 0 < q.stage := by
    intro hp
    obtain ⟨q, hq, hle⟩ := stage_step he hs (.check i)
    exact ⟨q, hq, Nat.lt_of_lt_of_le hp hle⟩
  cases p with
  | handedIn =>
    refine ⟨.admitted, ?_, Nat.one_pos⟩
    simp [step, progress?_eq he, hm, entries_move_self he]
  | ignored => exact absurd rfl hp
  | _ => exact hmono (by simp [Progress.stage])

/-- **The steps take a run to the compiler just when it comes to the last stage.** -/
theorem reaches_iff {p : Progress H} (he : (run {} steps).entries[i]? = some ⟨s, p⟩) (hs : s.Compiles) :
    Reaches steps i ↔ p.stage = 4 := by
  constructor
  · rintro ⟨before, rest, rfl, hi, hc, hd⟩
    have hsubmission : (handedIn before)[i]? = some s := by
      have := handedIn_of_entry he
      rwa [handedIn_append, List.getElem?_append_left hi] at this
    obtain ⟨p₀, he₀⟩ := entry_of_handedIn hsubmission
    have hm := (mounted_run before).mpr hc
    obtain ⟨q, hq, hpos⟩ := stage_check he₀ hs hm fun hp => by
      have := (placed_run before he₀).down hp
      simp [hm] at this
    obtain ⟨r, hr, hstage⟩ := stage_of_sublist hs (k := 0) hq hpos hd
    rw [run_append, run_cons, hr] at he
    cases he
    exact hstage
  · intro hp
    exact (placed_run steps he).followed hs 3 (by omega)

theorem mem_calls_iff {source : String} : (i, source) ∈ (run {} steps).calls.toList ↔
    ∃ s, (handedIn steps)[i]? = some s ∧ s.Compiles ∧ Reaches steps i ∧ source = s.source := by
  constructor
  · intro hc
    have hsome := callsNumbered_run (b := {}) (by simp [CallsNumbered]) steps _ hc
    cases he : (run {} steps).entries[i]? with
    | none => simp [generationAt?, he] at hsome
    | some e =>
      obtain ⟨s, p⟩ := e
      obtain ⟨hs, hp, rfl⟩ := ((placed_run steps he).asked source).mp hc
      exact ⟨s, handedIn_of_entry he, hs, (reaches_iff he hs).mpr hp, rfl⟩
  · rintro ⟨s, hi, hs, hr, rfl⟩
    obtain ⟨p, he⟩ := entry_of_handedIn hi
    exact ((placed_run steps he).asked s.source).mpr ⟨hs, (reaches_iff he hs).mp hr, rfl⟩

/-- No run asks twice. -/
theorem nodup_calls (steps : List (Step H)) : ((run {} steps).calls.toList.map (·.1)).Nodup := by
  induction steps using List.reverseRecOn with
  | nil => simp [run]
  | append_singleton steps st ih =>
    rw [run_snoc, calls_step, List.map_append, List.nodup_append]
    refine ⟨ih, by cases (run {} steps).sent? st <;> simp, ?_⟩
    intro i hold j hnew hij
    subst hij
    obtain ⟨⟨_, source⟩, hsent, rfl⟩ := List.mem_map.mp hnew
    obtain ⟨⟨_, source'⟩, hcall, rfl⟩ := List.mem_map.mp hold
    have hsent := Option.mem_toList.mp hsent
    obtain ⟨-, s, g, he, -⟩ := sent?_eq_some.mp hsent
    obtain ⟨-, hp, -⟩ := ((placed_run steps he).asked source').mp hcall
    simp [Progress.stage] at hp

open Classical in
/-- The runs that ask the compiler, as the steps tell them: the submissions that can be compiled and whose run comes
there, with their numbers. -/
noncomputable def asking (steps : List (Step H)) : List (Submission × Nat) :=
  (handedIn steps).zipIdx.filter fun e => e.1.Compiles ∧ Reaches steps e.2

theorem mem_asking {e : Submission × Nat} :
    e ∈ asking steps ↔ (handedIn steps)[e.2]? = some e.1 ∧ e.1.Compiles ∧ Reaches steps e.2 := by
  simp [asking, List.mem_zipIdx_iff_getElem?]

theorem nodup_asking (steps : List (Step H)) : ((asking steps).map (·.2)).Nodup := by
  have hsub : ((asking steps).map (·.2)).Sublist ((handedIn steps).zipIdx.map (·.2)) := List.filter_sublist.map _
  refine hsub.nodup ?_
  simp [List.zipIdx_map_snd, List.nodup_range']

open Classical in
/-- **The calls of the compiler are accounted for.** After any steps, in any order, the compiler has been sent one
source for each run that asks, that of its submission, and no other: the calls are these up to their order, so that
the sources are, and each submission has asked once or never. -/
theorem calls_accounted (steps : List (Step H)) :
    (run {} steps).calls.toList.Perm ((asking steps).map fun e => (e.2, e.1.source)) ∧
      ((run {} steps).calls.toList.map (·.2)).Perm ((asking steps).map (·.1.source)) ∧
      ∀ i, ((run {} steps).calls.toList.map (·.1)).count i =
        if ∃ s, (handedIn steps)[i]? = some s ∧ s.Compiles ∧ Reaches steps i then 1 else 0 := by
  have hperm : (run {} steps).calls.toList.Perm ((asking steps).map fun e => (e.2, e.1.source)) := by
    refine (List.perm_ext_iff_of_nodup (nodup_calls steps).of_map ?_).mpr fun c => ?_
    · refine .of_map (·.1) ?_
      rw [List.map_map]
      exact nodup_asking steps
    · obtain ⟨i, source⟩ := c
      simp only [mem_calls_iff, List.mem_map, mem_asking, Prod.exists, Prod.mk.injEq]
      constructor
      · rintro ⟨s, hi, hs, hr, rfl⟩
        exact ⟨s, i, ⟨hi, hs, hr⟩, rfl, rfl⟩
      · rintro ⟨s, j, ⟨hi, hs, hr⟩, rfl, rfl⟩
        exact ⟨s, hi, hs, hr, rfl⟩
  refine ⟨hperm, ?_, fun i => ?_⟩
  · have hsources := hperm.map (·.2)
    rwa [List.map_map] at hsources
  · rw [(nodup_calls steps).count]
    refine if_congr ?_ rfl rfl
    rw [List.mem_map]
    constructor
    · rintro ⟨⟨_, source⟩, hc, rfl⟩
      obtain ⟨s, hi, hs, hr, -⟩ := mem_calls_iff.mp hc
      exact ⟨s, hi, hs, hr⟩
    · rintro ⟨s, hi, hs, hr⟩
      exact ⟨(i, s.source), mem_calls_iff.mpr ⟨s, hi, hs, hr, rfl⟩, rfl⟩

/-- A run that is overtaken before it has started asks as well. -/
example : (run ({} : Board Nat)
    [.handIn ⟨"const A = 1", .react⟩, .check 0, .number 0, .announce 0, .handIn ⟨"const B = 2", .react⟩, .check 1,
      .number 1, .announce 1, .start 0, .start 1]).calls.toList = [(0, "const A = 1"), (1, "const B = 2")] := by
  decide +kernel

end Board
end LivePreview.Preview
