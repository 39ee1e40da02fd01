import LivePreview.Proofs.Surface.Cycle

/-! Parts of an update with the story of what happens in them.

A part is told as what it does together with its story, the beats on the way from a machine. A call of a cleanup is on
record with the machine from which it is made. Telling changes nothing: what is told here does what the update does
(`tellCycle_run`), and where it stops the story ends.

What a told computation leads to is stated for the story so far and the machine at hand, with one condition for the
end and one for a stop (`Told.Leads`). -/
namespace LivePreview.Surface
open Script Hook
variable {ω ε α β : Type} {m n : Machine}

/-- A cleanup and the hook call that it is kept for. -/
abbrev Entry := (Key × Nat) × Value

/-- A call that the host makes without arguments, and the machine from which it is made. -/
structure Call where
  function : Value
  start : Machine

/-- The call fails. -/
def Call.Raises (invoke : Invoke) (c : Call) : Prop :=
  ∃ fault stop, Run.first (invoke Trail.host c.function []) c.start = .error fault stop

inductive Beat where
  /-- A component has been put on the surface, with what cleanups it has brought. -/
  | placed (brought : List Entry)
  /-- A pass begins. -/
  | begun (start : Machine)
  /-- The pass has given its output. -/
  | passed (start stop : Machine)
  /-- State was set before the effects of the pass, which is dropped with them. -/
  | discarded
  /-- Cleanups have been taken out of the store together, and of them these are called. -/
  | swept (taken : List Entry) (calls : List Call)
  /-- An effect is called. -/
  | ran (effect : Effect Value) (start : Machine)
  /-- An effect has given a cleanup, which is kept for its hook call. -/
  | kept (call : Key × Nat) (cleanup : Value)
  /-- A handler is called with the value of its event. -/
  | handled (callback event : Value) (start : Machine)
  /-- The host calls a function by itself. -/
  | called (function : Value) (args : List Value) (start : Machine)

/-- A computation with its story. -/
structure Told (ω ε α : Type) where
  run : EStateM ε Machine α
  story : Machine → List ω

namespace Told

/-- A computation in which nothing is to be told. -/
def quiet (r : EStateM ε Machine α) : Told ω ε α := ⟨r, fun _ => []⟩

def tell (beat : Machine → ω) : Told ω ε Unit := ⟨Pure.pure (), fun m => [beat m]⟩

/-- The story goes on where the first part ends. -/
def andThen (t : Told ω ε α) (k : α → Told ω ε β) : Told ω ε β where
  run := t.run >>= fun a => (k a).run
  story m := t.story m ++ match t.run m with
    | .ok a m => (k a).story m
    | .error _ _ => []

instance : Monad (Told ω ε) where
  pure a := quiet (Pure.pure a)
  bind := andThen

def budgeted (panics : ε → Bool) (t : Told ω ε α) : Told ω ε α :=
  ⟨Script.budgeted panics t.run, fun m => t.story { m with steps := some m.allowance, taken := 0 }⟩

def ofRun (t : Told ω Fault α) : Told ω RenderError α := ⟨Cycle.ofRun t.run, t.story⟩

def across (t : Told ω Fault α) : Told ω Fault α := ⟨Run.across t.run, t.story⟩

/-- The whole story is one beat. -/
def as (t : Told ω ε α) (beat : List ω → Beat) : Told Beat ε α := ⟨t.run, fun m => [beat (t.story m)]⟩

end Told

/-! ### Parts of an update -/

section Telling
variable (invoke : Invoke) (order : Order) (render : Value) (props : Json)

/-- Functions are called one after another. -/
def tellCalls : List Value → Told Call Fault Unit
  | [] => return ()
  | f :: fs => do
    Told.tell (Call.mk f)
    let _ ← Told.quiet (Run.first (invoke Trail.host f []))
    tellCalls fs

def tellPass : Told Beat RenderError (List Node × Array Value) := do
  Told.tell .begun
  let start ← Told.quiet get
  let output ← Told.quiet (renderPass invoke render props)
  Told.tell (.passed start)
  return output

/-- The cleanups of the instances that a pass has left out. -/
def stale (s : Store Value) : List Entry := s.cleanups.filter fun c => !s.rendered.contains c.1.1

/-- Cleanups that have been taken out together are called within the allowance of one run. -/
def tellSweep (taken : List Entry) (cleanups : List Value) : Told Beat RenderError Unit :=
  ((tellCalls invoke cleanups).ofRun.budgeted RenderError.isPanic).as (.swept taken)

def tellStale : Told Beat RenderError Unit := do
  let m ← Told.quiet get
  let removed ← Told.quiet (Cycle.ofRun (Run.takeHooks (·.finishPass)))
  tellSweep invoke (stale m.hooks) (order.arrange m removed)

def tellClean (e : Effect Value) : Told Beat Fault Unit := do
  match ← Told.quiet (Run.takeHooks (·.takeCleanup e.key e.index)) with
  | some cleanup => (tellCalls invoke [cleanup]).as (.swept [((e.key, e.index), cleanup)])
  | none => return ()

def tellKept (e : Effect Value) (given : Value) : Told Beat Fault Unit :=
  match given with
  | .func place => do
    Told.quiet (Run.modifyHooks (·.setCleanup e.key e.index (.func place)))
    Told.tell fun _ => .kept (e.key, e.index) (.func place)
  | _ => return ()

def tellEffects : List (Effect Value) → Told Beat Fault Unit
  | [] => return ()
  | e :: es => do
    tellClean invoke e
    Told.tell (.ran e)
    tellKept e (← Told.quiet (Run.first (invoke Trail.host e.callback [])))
    tellEffects es

def tellSettle : Told Beat RenderError Unit := do
  let effects ← Told.quiet (Cycle.ofRun (Run.takeHooks (·.takeEffects)))
  (tellEffects invoke effects).ofRun.budgeted RenderError.isPanic

def tellRound : Told Beat RenderError (Option (List Node × Array Value)) := do
  let output ← tellPass invoke render props
  tellStale invoke order
  if ← Told.quiet isDirty then
    Told.tell fun _ => .discarded
    return none
  else
    tellSettle invoke
    if ← Told.quiet isDirty then return none else return some output

def tellCycle (limit : Nat) : Nat → Told Beat RenderError (List Node × Array Value)
  | 0 => Told.quiet (throw (.tooManyRerenders limit))
  | passes + 1 => do
    match ← tellRound invoke order render props with
    | some output => return output
    | none => tellCycle limit passes

end Telling

/-! ### Telling changes nothing -/

section Runs
variable {invoke : Invoke} {order : Order} {render : Value} {props : Json}

@[simp] theorem Told.run_pure (a : α) : (pure a : Told ω ε α).run = pure a := rfl
@[simp] theorem Told.run_quiet (r : EStateM ε Machine α) : (quiet r : Told ω ε α).run = r := rfl
@[simp] theorem Told.run_tell (beat : Machine → ω) : (tell beat : Told ω ε Unit).run = pure () := rfl
@[simp] theorem Told.run_bind (t : Told ω ε α) (k : α → Told ω ε β) :
    (t >>= k).run = t.run >>= fun a => (k a).run := rfl
@[simp] theorem Told.run_ofRun (t : Told ω Fault α) : t.ofRun.run = Cycle.ofRun t.run := rfl
@[simp] theorem Told.run_across (t : Told ω Fault α) : t.across.run = Run.across t.run := rfl
@[simp] theorem Told.run_as (t : Told ω ε α) (beat : List ω → Beat) : (t.as beat).run = t.run := rfl
@[simp] theorem Told.run_budgeted (panics : ε → Bool) (t : Told ω ε α) :
    (t.budgeted panics).run = Script.budgeted panics t.run := rfl
@[simp] theorem Told.run_ite {c : Prop} [Decidable c] (t k : Told ω ε α) :
    (if c then t else k).run = if c then t.run else k.run := apply_ite ..

@[simp] theorem tellCalls_run (fs : List Value) : (tellCalls invoke fs).run = callAll invoke fs := by
  induction fs with
  | nil => rfl
  | cons f fs ih => simp [tellCalls, callAll, ih]

theorem tellPass_run : (tellPass invoke render props).run = renderPass invoke render props := by
  simp [tellPass]

theorem tellStale_run : (tellStale invoke order).run = dropStale invoke order := by
  simp [tellStale, tellSweep, dropStale]

theorem tellClean_run (e : Effect Value) : (tellClean invoke e).run = cleanBefore invoke e := by
  unfold tellClean cleanBefore
  rw [Told.run_bind]
  refine bind_congr fun cleanup? => ?_
  cases cleanup? <;> simp [callAll]

theorem tellKept_run (e : Effect Value) (given : Value) : (tellKept e given).run = register e given := by
  cases given <;> simp [tellKept, register]

theorem tellEffects_run (effects : List (Effect Value)) :
    (tellEffects invoke effects).run = runEffects invoke effects := by
  induction effects with
  | nil => rfl
  | cons e es ih => simp [tellEffects, runEffects, tellClean_run, tellKept_run, ih]

theorem tellSettle_run : (tellSettle invoke).run = settleEffects invoke := by
  simp [tellSettle, settleEffects, tellEffects_run]

theorem tellRound_run : (tellRound invoke order render props).run = round invoke order render props := by
  simp [tellRound, round, tellPass_run, tellStale_run, tellSettle_run]

/-- **What is told is what an update does.** -/
theorem tellCycle_run (limit passes : Nat) :
    (tellCycle invoke order render props limit passes).run = cycle invoke order limit render props passes := by
  induction passes with
  | zero => rfl
  | succ passes ih =>
    rw [tellCycle, cycle, Told.run_bind, tellRound_run]
    refine bind_congr fun output? => ?_
    cases output? with
    | some output => rfl
    | none => exact ih

end Runs

/-! ### What is told -/

/-- The story of two parts is that of the first and, where this ends, that of the second. -/
theorem Told.story_bind_ok {t : Told ω ε α} {k : α → Told ω ε β} {a : α} (h : t.run m = .ok a n) :
    (t >>= k).story m = t.story m ++ (k a).story n := by
  show t.story m ++ _ = _
  rw [h]

theorem Told.story_bind_error {t : Told ω ε α} {k : α → Told ω ε β} {e : ε} (h : t.run m = .error e n) :
    (t >>= k).story m = t.story m := by
  show t.story m ++ _ = _
  rw [h, List.append_nil]

/-- Where nothing is told, the story is that of what follows. -/
theorem Told.story_quiet_ok {r : EStateM ε Machine α} {k : α → Told ω ε β} {a : α} (h : r m = .ok a n) :
    (quiet r >>= k).story m = (k a).story n := story_bind_ok (t := quiet r) h

theorem Told.story_quiet_error {r : EStateM ε Machine α} {k : α → Told ω ε β} {e : ε} (h : r m = .error e n) :
    (quiet r >>= k).story m = [] := story_bind_error (t := quiet r) h

/-- Only such beats are told. -/
structure Told.Tells (p : ω → Prop) (t : Told ω ε α) : Prop where
  all : ∀ m, ∀ beat ∈ t.story m, p beat

namespace Told.Tells
variable {p q : ω → Prop}

theorem imp {t : Told ω ε α} (h : t.Tells p) (hp : ∀ beat, p beat → q beat) : t.Tells q :=
  ⟨fun m beat hb => hp beat (h.all m beat hb)⟩

theorem quiet (r : EStateM ε Machine α) : (Told.quiet r).Tells p := ⟨fun _ _ h => absurd h List.not_mem_nil⟩

theorem pure (a : α) : (Pure.pure a : Told ω ε α).Tells p := quiet _

theorem tell {beat : Machine → ω} (h : ∀ m, p (beat m)) : (Told.tell beat : Told ω ε Unit).Tells p :=
  ⟨fun m _ hb => List.mem_singleton.1 hb ▸ h m⟩

theorem as {t : Told α ε β} {beat : List α → Beat} {p : Beat → Prop} (h : ∀ calls, p (beat calls)) :
    (t.as beat).Tells p := ⟨fun _ _ hb => List.mem_singleton.1 hb ▸ h _⟩

theorem bind {t : Told ω ε α} {k : α → Told ω ε β} (ht : t.Tells p) (hk : ∀ a, (k a).Tells p) :
    (t >>= k).Tells p := by
  refine ⟨fun m beat hb => ?_⟩
  cases hr : t.run m with
  | ok a n =>
    rw [story_bind_ok hr] at hb
    exact (List.mem_append.1 hb).elim (ht.all m beat) ((hk a).all n beat)
  | error e n => exact ht.all m beat (story_bind_error hr ▸ hb)

theorem ite {c : Prop} [Decidable c] {t k : Told ω ε α} (ht : t.Tells p) (hk : k.Tells p) :
    (if c then t else k).Tells p := by
  split
  · exact ht
  · exact hk

theorem ofRun {t : Told ω Fault α} (h : t.Tells p) : t.ofRun.Tells p := ⟨h.all⟩

theorem budgeted {panics : ε → Bool} {t : Told ω ε α} (h : t.Tells p) : (t.budgeted panics).Tells p :=
  ⟨fun _ => h.all _⟩

end Told.Tells

/-- What may happen while effects run. -/
def Beat.Settling : Beat → Prop
  | .swept _ _ | .ran _ _ | .kept _ _ => True
  | _ => False

section Tells
variable {invoke : Invoke} {order : Order} {render : Value} {props : Json} {p : Beat → Prop}

theorem tellStale_tells (h : ∀ taken calls, p (.swept taken calls)) : (tellStale invoke order).Tells p :=
  .bind (.quiet _) fun _ => .bind (.quiet _) fun _ => .as (h _)

/-- Only effects that have been taken out are run. -/
theorem tellEffects_tells (effects : List (Effect Value)) :
    (tellEffects invoke effects).Tells fun beat => beat.Settling ∧ ∀ e m, beat = .ran e m → e ∈ effects := by
  induction effects with
  | nil => exact .pure _
  | cons e es ih =>
    refine .bind (.bind (.quiet _) fun cleanup? => ?_) fun _ => .bind (.tell fun m => ⟨trivial, ?_⟩) fun _ =>
      .bind (.quiet _) fun given => .bind ?_ fun _ => ih.imp fun beat h => ⟨h.1, fun d m hd => ?_⟩
    · cases cleanup? with
      | none => exact .pure _
      | some cleanup => exact .as fun calls => ⟨trivial, nofun⟩
    · rintro d _ ⟨⟩
      exact List.mem_cons_self
    · cases given
      case func place => exact .bind (.quiet _) fun _ => .tell fun m => ⟨trivial, nofun⟩
      all_goals exact .pure _
    · exact List.mem_cons_of_mem e (h.2 d m hd)

end Tells

/-! ### Calls that are told -/

section Calls
variable {invoke : Invoke}

/-- Of functions that are called one after another the first ones are called, and all of them unless one fails. -/
theorem tellCalls_story (fs : List Value) (m : Machine) :
    ∃ rest, fs = ((tellCalls invoke fs).story m).map (·.function) ++ rest ∧
      (rest ≠ [] → ∃ call ∈ (tellCalls invoke fs).story m, call.Raises invoke) := by
  induction fs generalizing m with
  | nil => exact ⟨[], rfl, fun h => absurd rfl h⟩
  | cons f fs ih =>
    have hs : (tellCalls invoke (f :: fs)).story m = ⟨f, m⟩ ::
        (Told.quiet (Run.first (invoke Trail.host f [])) >>= fun _ => tellCalls invoke fs).story m := rfl
    rw [hs]
    cases hf : Run.first (invoke Trail.host f []) m with
    | ok v n =>
      rw [Told.story_quiet_ok hf]
      obtain ⟨rest, he, hr⟩ := ih n
      refine ⟨rest, congrArg (f :: ·) he, fun h => ?_⟩
      obtain ⟨call, hc, hcr⟩ := hr h
      exact ⟨call, List.mem_cons_of_mem _ hc, hcr⟩
    | error fault n =>
      rw [Told.story_quiet_error hf]
      exact ⟨fs, rfl, fun _ => ⟨⟨f, m⟩, List.mem_cons_self, fault, n, hf⟩⟩

/-- Functions are called to the last one where none fails. -/
theorem tellCalls_of_ok {fs : List Value} (h : callAll invoke fs m = .ok () n) :
    ((tellCalls invoke fs).story m).map (·.function) = fs := by
  induction fs generalizing m with
  | nil => rfl
  | cons f fs ih =>
    obtain ⟨v, l, hf, hr⟩ := bind_ok h
    have hs : (tellCalls invoke (f :: fs)).story m = ⟨f, m⟩ ::
        (Told.quiet (Run.first (invoke Trail.host f [])) >>= fun _ => tellCalls invoke fs).story m := rfl
    rw [hs, Told.story_quiet_ok hf]
    exact congrArg (f :: ·) (ih hr)

/-- The calls are of what has been taken out, and of all of it unless one of them fails. -/
def Made (invoke : Invoke) (taken : List Entry) (calls : List Call) : Prop :=
  (calls.map (·.function)).Subperm (taken.map (·.2)) ∧
    (calls.length < taken.length → ∃ call ∈ calls, call.Raises invoke)

theorem made_tellCalls {taken : List Entry} {fs : List Value} (h : fs.Perm (taken.map (·.2))) (m : Machine) :
    Made invoke taken ((tellCalls invoke fs).story m) := by
  obtain ⟨rest, he, hr⟩ := @tellCalls_story invoke fs m
  refine ⟨?_, fun hl => hr ?_⟩
  · refine (List.Sublist.subperm ?_).trans h.subperm
    conv_rhs => rw [he]
    exact List.sublist_append_left _ rest
  · rintro rfl
    have hn := h.length_eq
    rw [he, List.append_nil, List.length_map, List.length_map] at hn
    omega

end Calls

/-! ### Where a told computation leads -/

/-- Every beat is admitted by those before it. -/
def Fair (admits : List Beat → Beat → Prop) (log : List Beat) : Prop :=
  ∀ before beat rest, log = before ++ beat :: rest → admits before beat

theorem Fair.nil {admits : List Beat → Beat → Prop} : Fair admits [] :=
  fun before beat rest h => absurd h.symm (List.append_ne_nil_of_right_ne_nil before (List.cons_ne_nil beat rest))

theorem Fair.snoc {admits : List Beat → Beat → Prop} {log : List Beat} {beat : Beat} (h : Fair admits log)
    (ha : admits log beat) : Fair admits (log ++ [beat]) := by
  intro before b rest he
  obtain rfl | ⟨rest, last, rfl⟩ := List.eq_nil_or_concat rest
  · obtain ⟨rfl, hb⟩ := List.append_inj' he rfl
    cases hb
    exact ha
  · rw [List.concat_eq_append, ← List.cons_append, ← List.append_assoc] at he
    exact h before b rest (List.append_inj' he rfl).1

/-- From a story and a machine with `P` the told computation leads to a story and a machine with `Q` where it ends, and
to some with `E` where it stops. -/
structure Told.Leads (P : List Beat → Machine → Prop) (t : Told Beat ε α) (Q : α → List Beat → Machine → Prop)
    (E : List Beat → Machine → Prop) : Prop where
  ends : ∀ {log m a n}, P log m → t.run m = .ok a n → Q a (log ++ t.story m) n
  stops : ∀ {log m e n}, P log m → t.run m = .error e n → E (log ++ t.story m) n

namespace Told.Leads
variable {P P' E : List Beat → Machine → Prop} {Q : α → List Beat → Machine → Prop}
  {R : β → List Beat → Machine → Prop}

theorem imp {t : Told Beat ε α} (h : t.Leads P Q E) (hp : ∀ {log m}, P' log m → P log m) : t.Leads P' Q E :=
  ⟨fun hm he => h.ends (hp hm) he, fun hm he => h.stops (hp hm) he⟩

/-- A condition may be met in one of several ways. -/
theorem of_exists {ι : Sort*} {P : ι → List Beat → Machine → Prop} {t : Told Beat ε α}
    (h : ∀ i, t.Leads (P i) Q E) : t.Leads (fun log m => ∃ i, P i log m) Q E :=
  ⟨fun ⟨i, hm⟩ he => (h i).ends hm he, fun ⟨i, hm⟩ he => (h i).stops hm he⟩

theorem of_and {p : Prop} {t : Told Beat ε α} (h : p → t.Leads P Q E) : t.Leads (fun log m => p ∧ P log m) Q E :=
  ⟨fun hm he => (h hm.1).ends hm.2 he, fun hm he => (h hm.1).stops hm.2 he⟩

theorem pure {a : α} (h : ∀ {log m}, P log m → Q a log m) : (Pure.pure a : Told Beat ε α).Leads P Q E where
  ends hm he := by
    cases he
    exact (List.append_nil _).symm ▸ h hm
  stops _ he := nomatch he

theorem throw {e : ε} (h : ∀ {log m}, P log m → E log m) :
    (quiet (MonadExcept.throw e) : Told Beat ε α).Leads P Q E where
  ends _ he := nomatch he
  stops hm he := by
    cases he
    exact (List.append_nil _).symm ▸ h hm

theorem quiet {r : EStateM ε Machine α} (hq : ∀ {log m a n}, P log m → r m = .ok a n → Q a log n)
    (he : ∀ {log m e n}, P log m → r m = .error e n → E log n) : (Told.quiet r).Leads P Q E where
  ends hm h := (List.append_nil _).symm ▸ hq hm h
  stops hm h := (List.append_nil _).symm ▸ he hm h

theorem tell {beat : Machine → Beat} {Q : List Beat → Machine → Prop}
    (h : ∀ {log m}, P log m → Q (log ++ [beat m]) m) : (Told.tell beat : Told Beat ε Unit).Leads P (fun _ => Q) E where
  ends hm he := by
    cases he
    exact h hm
  stops _ he := nomatch he

theorem bind {t : Told Beat ε α} {k : α → Told Beat ε β} (ht : t.Leads P Q E) (hk : ∀ a, (k a).Leads (Q a) R E) :
    (t >>= k).Leads P R E where
  ends {log m b n} hm h := by
    obtain ⟨a, l, ha, hb⟩ := bind_ok h
    rw [story_bind_ok ha, ← List.append_assoc]
    exact (hk a).ends (ht.ends hm ha) hb
  stops {log m e n} hm h := by
    rw [run_bind] at h
    cases hr : t.run m with
    | ok a l =>
      rw [bind_of_ok hr] at h
      rw [story_bind_ok hr, ← List.append_assoc]
      exact (hk a).stops (ht.ends hm hr) h
    | error d l =>
      rw [bind_of_error hr] at h
      cases h
      rw [story_bind_error hr]
      exact ht.stops hm hr

theorem ite {c : Prop} [Decidable c] {t k : Told Beat ε α} (ht : t.Leads P Q E) (hk : k.Leads P Q E) :
    (if c then t else k).Leads P Q E := by
  split
  · exact ht
  · exact hk

/-- An allowance and a run for the host concern no condition that is about hook state alone. -/
theorem budgeted {P E : List Beat → Store Value → Prop} {Q : α → List Beat → Store Value → Prop}
    {f : ε → Bool} {t : Told Beat ε α}
    (h : t.Leads (fun log m => P log m.hooks) (fun a log m => Q a log m.hooks) (fun log m => E log m.hooks)) :
    (t.budgeted f).Leads (fun log m => P log m.hooks) (fun a log m => Q a log m.hooks)
      (fun log m => E log m.hooks) where
  ends {log m a n} hm he := by
    obtain ⟨l, hl, rfl⟩ := budgeted_ok he
    have hq := h.ends (m := { m with steps := some m.allowance, taken := 0 }) hm hl
    exact hq
  stops {log m e n} hm he := by
    change Script.budgeted f t.run m = .error e n at he
    unfold Script.budgeted at he
    split at he
    · exact nomatch he
    · rename_i hr
      have hs := h.stops (m := { m with steps := some m.allowance, taken := 0 }) hm hr
      cases he
      split <;> exact hs

theorem ofRun {t : Told Beat Fault α} (h : t.Leads P Q E) : t.ofRun.Leads P Q E where
  ends hm he := h.ends hm (ofRun_ok he)
  stops {log m e n} hm he := by
    change Cycle.ofRun t.run m = .error e n at he
    unfold Cycle.ofRun at he
    split at he
    · exact nomatch he
    · cases he
      exact h.stops hm ‹_›

end Told.Leads

/-! ### Passes again and again -/

section Cycles
variable {invoke : Invoke} {order : Order} {render : Value} {props : Json} {P E : List Beat → Machine → Prop}

/-- Whether state was set is only looked at. -/
theorem isDirty_leads : (Told.quiet isDirty).Leads P (fun _ => P) E := by
  refine .quiet (fun hp h => ?_) fun _ h => nomatch h
  cases h
  exact hp

/-- What each round keeps, all rounds of an update keep. -/
theorem tellCycle_leads_of_round (hr : (tellRound invoke order render props).Leads P (fun _ => P) E)
    (hw : ∀ {log m}, P log m → E log m) (limit passes : Nat) :
    (tellCycle invoke order render props limit passes).Leads P (fun _ => P) E := by
  induction passes with
  | zero => exact .throw hw
  | succ passes ih =>
    refine .bind hr fun output? => ?_
    cases output? with
    | some output => exact .pure fun h => h
    | none => exact ih

end Cycles

/-! ### Passes that are told -/

/-- The machines from which passes begin. -/
def Beat.passes (log : List Beat) : List Machine := log.flatMap fun
  | .begun start => [start]
  | _ => []

section Passes
variable {invoke : Invoke} {order : Order} {render : Value} {props : Json} {output : List Node × Array Value}

theorem passes_append (a b : List Beat) : Beat.passes (a ++ b) = Beat.passes a ++ Beat.passes b :=
  List.flatMap_append

theorem passes_bind {t : Told Beat ε α} {k : α → Told Beat ε β} (m : Machine) :
    Beat.passes ((t >>= k).story m) = Beat.passes (t.story m) ++ Beat.passes (match t.run m with
      | .ok a m => (k a).story m
      | .error _ _ => []) := passes_append ..

theorem passes_eq_nil {log : List Beat} (h : ∀ beat ∈ log, ∀ start, beat ≠ .begun start) : Beat.passes log = [] := by
  refine List.flatMap_eq_nil_iff.2 fun beat hb => ?_
  cases beat
  case begun start => exact absurd rfl (h _ hb start)
  all_goals rfl

theorem passes_tellPass (m : Machine) : Beat.passes ((tellPass invoke render props).story m) = [m] := by
  have hs : (tellPass invoke render props).story m = .begun m ::
      (Told.quiet (renderPass invoke render props) >>= fun output => do
        Told.tell (.passed m)
        return output).story m := rfl
  rw [hs]
  cases hr : renderPass invoke render props m with
  | ok output n =>
    rw [Told.story_quiet_ok hr]
    rfl
  | error e n =>
    rw [Told.story_quiet_error hr]
    rfl

/-- A round has one pass, from where it begins. -/
theorem passes_tellRound (m : Machine) : Beat.passes ((tellRound invoke order render props).story m) = [m] := by
  have hrest (output : List Node × Array Value) : (do
      tellStale invoke order
      if ← Told.quiet isDirty then
        Told.tell fun _ => .discarded
        return none
      else
        tellSettle invoke
        if ← Told.quiet isDirty then return none else return some output :
          Told Beat RenderError (Option (List Node × Array Value))).Tells fun beat => ∀ start, beat ≠ .begun start := by
    refine .bind (tellStale_tells fun _ _ => nofun) fun _ => .bind (.quiet _) fun dirty => .ite ?_ ?_
    · exact .bind (.tell fun _ => nofun) fun _ => .pure _
    · refine .bind (.bind (.quiet _) fun effects => .budgeted (.ofRun ?_)) fun _ => .bind (.quiet _) fun dirty =>
        .ite (.pure _) (.pure _)
      refine (tellEffects_tells effects).imp fun beat h start => ?_
      rintro rfl
      exact h.1
  cases hr : (tellPass invoke render props).run m with
  | ok output n =>
    have hs := Told.story_bind_ok (k := fun output => do
      tellStale invoke order
      if ← Told.quiet isDirty then
        Told.tell fun _ => .discarded
        return none
      else
        tellSettle invoke
        if ← Told.quiet isDirty then return none else return some output) hr
    have hn := passes_eq_nil ((hrest output).all n)
    unfold tellRound
    rw [hs, passes_append, passes_tellPass, hn]
    rfl
  | error e n =>
    unfold tellRound
    rw [Told.story_bind_error hr, passes_tellPass]

/-- What is told of passes again and again begins with the pass of the first round. -/
theorem passes_tellCycle_none (limit : Nat) {passes : Nat} (h : round invoke order render props m = .ok none n) :
    Beat.passes ((tellCycle invoke order render props limit (passes + 1)).story m) =
      m :: Beat.passes ((tellCycle invoke order render props limit passes).story n) := by
  have hr : (tellRound invoke order render props).run m = .ok none n := tellRound_run ▸ h
  rw [tellCycle, Told.story_bind_ok hr, passes_append, passes_tellRound]
  rfl

theorem passes_tellCycle_some (limit : Nat) {passes : Nat}
    (h : round invoke order render props m = .ok (some output) n) :
    Beat.passes ((tellCycle invoke order render props limit (passes + 1)).story m) = [m] := by
  have hr : (tellRound invoke order render props).run m = .ok (some output) n := tellRound_run ▸ h
  rw [tellCycle, Told.story_bind_ok hr, passes_append, passes_tellRound]
  rfl

theorem passes_tellCycle_error (limit : Nat) {passes : Nat} {e : RenderError}
    (h : round invoke order render props m = .error e n) :
    Beat.passes ((tellCycle invoke order render props limit (passes + 1)).story m) = [m] := by
  have hr : (tellRound invoke order render props).run m = .error e n := tellRound_run ▸ h
  rw [tellCycle, Told.story_bind_error hr, passes_tellRound]

/-- **The output of an update is that of the last pass that began in it**, and nothing has left the store dirty
since. -/
theorem cycle_ok {limit passes : Nat}
    (h : cycle invoke order limit render props passes m = .ok output n) :
    ∃ before after swept,
      (Beat.passes ((tellCycle invoke order render props limit passes).story m)).getLast? = some before ∧
        Settles invoke order render props before after swept output n := by
  induction passes generalizing m with
  | zero => exact nomatch h
  | succ passes ih =>
    obtain ⟨output?, l, hr, h⟩ := bind_ok h
    cases output? with
    | some out =>
      cases h
      obtain ⟨after, swept, hs⟩ := round_some hr
      exact ⟨m, after, swept, by rw [passes_tellCycle_some limit hr]; rfl, hs⟩
    | none =>
      obtain ⟨before, after, swept, hl, hs⟩ := ih h
      refine ⟨before, after, swept, ?_, hs⟩
      rw [passes_tellCycle_none limit hr, List.getLast?_cons, hl]
      rfl

end Passes
end LivePreview.Surface
