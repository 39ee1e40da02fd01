import LivePreview.Proofs.Preview.Newest

/-! Taking a board down freezes it.

A takedown is two steps, `close` and `retire`, and between and after them the runs that are under way go on: some
have passed the look at the mounted board and take a generation only now, some hear from the compiler, some build.
Whatever they do, from `close` on nothing is published (`published?_of_down`). A submission that had not begun by
then is late: all that can happen to it is that it is ignored (`Late.step`), so that it takes no generation and
never reaches the compiler. -/
namespace LivePreview.Preview

/-- The submission whose run takes a step. -/
def Step.submission? {H : Type} : Step H → Option Nat
  | .handIn _ | .close | .retire => none
  | .check i | .number i | .announce i | .start i | .reply i _ | .breakOff i | .verify i | .built i _ | .settle i =>
    some i

namespace Board
variable {H : Type} {b : Board H}

theorem run_append (b : Board H) (steps rest : List (Step H)) : b.run (steps ++ rest) = (b.run steps).run rest :=
  List.foldl_append ..

theorem run_cons (b : Board H) (st : Step H) (rest : List (Step H)) : b.run (st :: rest) = (b.step st).run rest := rfl

/-! ### Nothing is published -/

theorem down_step (hm : b.mounted = false) (st : Step H) : (b.step st).mounted = false := by
  rw [mounted_step]
  cases st <;> simp [hm]

theorem published?_of_down (hm : b.mounted = false) (st : Step H) : b.published? st = none := by
  cases hp : b.published? st with
  | none => rfl
  | some w =>
    have hl := (writer_of_published hp).1
    simp [isLive, hm] at hl

/-- A board that is down stays down and shows what it shows. -/
theorem down_run (hm : b.mounted = false) (steps : List (Step H)) :
    (b.run steps).mounted = false ∧ (b.run steps).state = b.state ∧ (b.run steps).version = b.version := by
  induction steps generalizing b with
  | nil => exact ⟨hm, rfl, rfl⟩
  | cons st rest ih =>
    obtain ⟨hdown, hstate, hversion⟩ := ih (down_step hm st)
    obtain ⟨hs, hv⟩ := state_step b st
    rw [published?_of_down hm] at hs hv
    rw [run_cons]
    exact ⟨hdown, hstate.trans hs, hversion.trans hv⟩

/-! ### Late submissions -/

/-- A submission that has not begun, or that has been ignored. -/
def Late (b : Board H) (i : Nat) : Prop := ∀ p, b.progress? i = some p → p = .handedIn ∨ p = .ignored

theorem Late.generationAt? {i : Nat} (h : b.Late i) : b.generationAt? i = none := by
  cases he : b.entries[i]? with
  | none => simp [Board.generationAt?, he]
  | some e =>
    obtain ⟨s, p⟩ := e
    rw [generationAt?_eq he]
    obtain rfl | rfl := h p (progress?_eq he) <;> rfl

/-- On a board that is down a late submission is ignored or stays as it is. -/
theorem Late.step (hm : b.mounted = false) {i : Nat} (h : b.Late i) (st : Step H) : (b.step st).Late i := by
  intro q hq
  have hc := entry_step b st i {}
  obtain ⟨s, he'⟩ := entry_of_progress? hq
  rw [he'] at hc
  generalize hear i b st {} = h' at hc
  generalize he : b.entries[i]? = e at hc
  cases hc with
  | same _ => exact h q (progress?_eq he)
  | handedIn _ => exact .inl rfl
  | moved rule =>
    have hp := h _ (progress?_eq he)
    cases rule with
    | ignore _ => exact .inr rfl
    | letIn hm' =>
      rw [hm] at hm'
      cases hm'
    | _ => simp at hp

theorem Late.run (hm : b.mounted = false) {i : Nat} (h : b.Late i) (steps : List (Step H)) : (b.run steps).Late i := by
  induction steps generalizing b with
  | nil => exact h
  | cons st rest ih => exact ih (down_step hm st) (h.step hm st)

/-- Its steps count no generation. -/
theorem Late.generation_step {i : Nat} (h : b.Late i) {st : Step H} (hst : st.submission? = some i) :
    (b.step st).generation = b.generation := by
  rw [Board.generation_step, if_neg]
  intro hc
  cases st with
  | number j =>
    cases hst
    obtain hp | hp := h _ (counts_number.mp hc) <;> cases hp
  | retire => cases hst
  | _ => cases hc

/-- Its first step ends it. -/
theorem Late.check (hm : b.mounted = false) {i : Nat} (hp : b.progress? i = some .handedIn) :
    (b.step (.check i)).progress? i = some .ignored := by
  obtain ⟨s, he⟩ := entry_of_progress? hp
  have hmove : (b.step (.check i)).entries = (b.move i .ignored).entries := by
    simp [Board.step, hp, hm, move]
  have he' := entries_move_self he .ignored
  rw [← hmove] at he'
  exact progress?_eq he'

/-! ### Who has asked the compiler -/

/-- Whoever has asked the compiler has a generation. -/
def CallsNumbered (b : Board H) : Prop := ∀ c ∈ b.calls.toList, (b.generationAt? c.1).isSome = true

theorem generationAt?_isSome_step {i : Nat} (h : (b.generationAt? i).isSome = true) (st : Step H) :
    ((b.step st).generationAt? i).isSome = true := by
  by_cases hst : st = .number i ∧ b.progress? i = some .admitted
  · obtain ⟨rfl, hp⟩ := hst
    rw [generationAt?_number hp]
    rfl
  · rwa [generationAt?_step hst]

theorem CallsNumbered.step (h : CallsNumbered b) (st : Step H) : CallsNumbered (b.step st) := by
  intro c hc
  apply generationAt?_isSome_step
  rw [calls_step] at hc
  rcases List.mem_append.mp hc with hold | hnew
  · exact h c hold
  · cases st with
    | start i =>
      simp only [sent?] at hnew
      split at hnew
      case h_1 s g he =>
        have hi : c.1 = i := by
          obtain ⟨found, -, rfl⟩ := Option.map_eq_some_iff.mp (Option.mem_toList.mp hnew)
          rfl
        rw [hi, generationAt?_eq he]
        rfl
      case h_2 => simp at hnew
    | _ => simp [sent?] at hnew

theorem callsNumbered_run (h : CallsNumbered b) (steps : List (Step H)) : CallsNumbered (b.run steps) := by
  induction steps generalizing b with
  | nil => exact h
  | cons st rest ih => exact ih (h.step st)

/-! ### The takedown -/

/-- **A takedown freezes the board.** Let `down` be the board right after the `close` of a takedown, at any place among
the steps of any submissions and of other takedowns, and `now` the same board after any further steps. What `now`
shows and how often it was written are what they were. A submission that had not begun by then has taken no
generation and never asked the compiler; when it begins it is ignored at once, and none of its steps, at whatever
moment, counts a generation or calls the compiler. -/
theorem takedown_freezes (before after : List (Step H)) :
    let down := run {} (before ++ [.close])
    let now := down.run after
    (now.mounted = false ∧ now.state = down.state ∧ now.version = down.version) ∧
    ∀ i, (∀ p, down.progress? i = some p → p = .handedIn) →
      (∀ p, now.progress? i = some p → p = .handedIn ∨ p = .ignored) ∧
      (now.progress? i = some .handedIn → (now.step (.check i)).progress? i = some .ignored) ∧
      (∀ st : Step H, st.submission? = some i →
        (now.step st).generation = now.generation ∧ (now.step st).calls.toList = now.calls.toList) ∧
      now.generationAt? i = none ∧ ∀ source, (i, source) ∉ now.calls.toList := by
  intro down now
  have hdown : down.mounted = false := by
    show (run {} (before ++ [.close])).mounted = false
    rw [run_append]
    exact mounted_step (run {} before) .close
  have hnow := down_run hdown after
  refine ⟨hnow, fun i hi => ?_⟩
  have hlate : now.Late i := Late.run hdown (fun p hp => .inl (hi p hp)) after
  have hcalls : CallsNumbered now := by
    apply callsNumbered_run
    apply callsNumbered_run
    simp [CallsNumbered]
  refine ⟨hlate, Late.check hnow.1, fun st hst => ⟨hlate.generation_step hst, ?_⟩, hlate.generationAt?, ?_⟩
  · rw [calls_step]
    have hsent : now.sent? st = none := by
      cases st with
      | start j =>
        cases hst
        simp only [sent?]
        split
        case h_1 s g he => obtain hp | hp := hlate _ (progress?_eq he) <;> cases hp
        case h_2 => rfl
      | _ => rfl
    simp [hsent]
  · intro source hmem
    have hsome := hcalls _ hmem
    simp [hlate.generationAt?] at hsome

/-- One submission waits for the compiler and another has been let in when the board is closed. -/
def underWay : List (Step Nat) :=
  [.handIn ⟨"const A = 1", .react⟩, .check 0, .number 0, .announce 0, .start 0,
    .handIn ⟨"const B = 2", .react⟩, .check 1]

/-- The first hears from the compiler, the second takes a generation and asks, and a third begins. -/
def afterwards : List (Step Nat) :=
  [.number 1, .reply 0 (.ok (.compiled "a")), .retire, .announce 1, .start 1, .verify 0, .settle 0,
    .handIn ⟨"const C = 3", .react⟩, .check 2, .number 2, .announce 2, .start 2]

theorem takedown_freezes_underWay :
    ((run {} (underWay ++ [.close])).run afterwards).state = .compiling ∧
    ((run {} (underWay ++ [.close])).run afterwards).generation = 3 ∧
    (∀ p, (run {} (underWay ++ [.close])).progress? 2 = some p → p = .handedIn) ∧
    ((run {} (underWay ++ [.close])).run afterwards).progress? 2 = some .ignored ∧
    ∀ source, (2, source) ∉ ((run {} (underWay ++ [.close])).run afterwards).calls.toList := by
  have hbegun : ∀ p, (run {} (underWay ++ [.close])).progress? 2 = some p → p = .handedIn := by
    intro p hp
    have hnone : (run {} (underWay ++ [.close])).progress? 2 = none := rfl
    rw [hnone] at hp
    cases hp
  obtain ⟨⟨-, hstate, -⟩, hlate⟩ := takedown_freezes underWay afterwards
  exact ⟨hstate, rfl, hbegun, rfl, (hlate 2 hbegun).2.2.2.2⟩

end Board
end LivePreview.Preview
