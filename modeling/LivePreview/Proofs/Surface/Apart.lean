import LivePreview.Proofs.Script.Barred
import LivePreview.Proofs.Surface.Capture
import Mathlib.Data.List.Induction

/-! Hooks work inside of component bodies and nowhere else.

A surface calls values in two ways: a pass calls component functions as bodies, and everything else is called outside
of bodies, as handlers, effects, cleanups and what the host calls by itself are. Here the two are told apart: bodies
are called in one way and everything else in another (`actApart`). A surface on which everything else is called with
hook functions barred goes through the same states (`hooks_only_in_bodies`). For no body runs when something else is
called: a pass that gives its output has closed its bodies, and what an error or a panic has left open is forgotten
before the cleanups are called. -/
namespace LivePreview.Surface
open Script Hook

/-! ### Bodies apart from everything else -/

section Apart
variable (body outside : Invoke) (order : Order) (render : Value) (props : Json)

def roundApart : Cycle (Option (List Node × Array Value)) := do
  let output ← renderPass body render props
  dropStale outside order
  if ← isDirty then return none
  else
    settleEffects outside
    if ← isDirty then return none else return some output

def cycleApart (limit : Nat) : Nat → Cycle (List Node × Array Value)
  | 0 => throw (.tooManyRerenders limit)
  | passes + 1 => do
    match ← roundApart body outside order render props with
    | some output => return output
    | none => cycleApart limit passes

variable (s : Surface)

def renderApart (phase : Phase) : Surface :=
  match s.mounted with
  | none => s
  | some mounted =>
    let c := mounted.component
    match cycleApart body outside s.order c.render mounted.props s.maxRerenders (s.maxRerenders + 1) c.machine with
    | .ok (nodes, handlers) machine =>
      { s with
        mounted := some { mounted.on machine with handlers }
        shown := .rendered nodes }
    | .error error machine =>
      let report : Report := ⟨error, c.name, phase⟩
      let (component, events) := release outside s.order { c with machine }
      { s with
        mounted := some { mounted with component, handlers := #[] }
        shown := .captured report
        events := s.events.push (.captured report) ++ events }

def flushApart : Surface :=
  match s.mounted with
  | none => s
  | some mounted =>
    if mounted.component.machine.hooks.dirty && !s.isCaptured then renderApart body outside s .update else s

/-- What an operation does to a surface that calls bodies in one way and everything else in another. -/
def actApart : Op → Surface
  | .mount c props => renderApart body outside ((s.unmount outside).1.place outside c props) .mount
  | .update props =>
    if s.isCaptured then s
    else
      match s.mounted with
      | none => s
      | some mounted => renderApart body outside { s with mounted := some { mounted with props } } .update
  | .flush => flushApart body outside s
  | .dispatch id event =>
    match s.handler? id with
    | .error _ => s
    | .ok (mounted, callback) =>
      flushApart body outside { s with mounted := some (handle outside callback event mounted).1 }
  | .unmount => (s.unmount outside).1
  | .call f args => (s.call outside f args).1

end Apart

/-! ### Where both are called in one way -/

section Together
variable (invoke : Invoke) (order : Order) (render : Value) (props : Json) (s : Surface)

theorem cycleApart_self (limit passes : Nat) :
    cycleApart invoke invoke order render props limit passes = cycle invoke order limit render props passes := by
  induction passes with
  | zero => rfl
  | succ passes ih =>
    refine bind_congr fun output? => ?_
    cases output? with
    | some output => rfl
    | none => exact ih

theorem renderApart_self (phase : Phase) : renderApart invoke invoke s phase = s.render invoke phase := by
  cases hm : s.mounted with
  | none => simp only [renderApart, Surface.render, hm]
  | some mounted =>
    cases hc : cycle invoke s.order s.maxRerenders mounted.component.render mounted.props (s.maxRerenders + 1)
        mounted.component.machine <;>
      simp only [renderApart, Surface.render, hm, cycleApart_self, hc]

theorem flushApart_self : flushApart invoke invoke s = s.flush invoke := by
  cases hm : s.mounted <;> simp only [flushApart, flush, hm, renderApart_self]

theorem actApart_self (op : Op) : actApart invoke invoke s op = act invoke s op := by
  cases op with
  | mount c props => exact renderApart_self invoke ((s.unmount invoke).1.place invoke c props) .mount
  | update props =>
    simp only [actApart, renderApart_self]
    rfl
  | flush => exact flushApart_self invoke s
  | dispatch id event =>
    simp only [actApart, act, dispatch, flushApart_self]
    cases s.handler? id <;> rfl
  | unmount | call f args => rfl

end Together

/-! ### Calls outside of bodies -/

section Outside
variable {ε α : Type} {P : Store Value → Prop} {body invoke outside : Invoke}

theorem ofRun_agree {r r' : Run α} (h : Agree P r r') : Agree P (Cycle.ofRun r) (Cycle.ofRun r') :=
  ⟨ofRun_stable h.toKeeps, fun m hm => by simp only [Cycle.ofRun, h.same m hm]⟩

theorem budgeted_agree (panics : ε → Bool) {r r' : EStateM ε Machine α} (h : Agree P r r') :
    Agree P (budgeted panics r) (budgeted panics r') := by
  refine ⟨budgeted_stable panics h.toKeeps, fun m hm => ?_⟩
  simp only [budgeted, h.same { m with steps := some m.allowance, taken := 0 } hm]

variable (hi : ∀ trail v args, Agree Idle (invoke trail v args) (outside trail v args))
include hi

theorem callAll_agree (fs : List Value) : Agree Idle (callAll invoke fs) (callAll outside fs) := by
  induction fs with
  | nil => exact .of_keeps (.pure ())
  | cons f fs ih => exact .bind (first_agree (hi ..)) fun _ => ih

theorem dropStale_agree (order : Order) : Agree Idle (dropStale invoke order) (dropStale outside order) := by
  refine .bind (.of_keeps .get) fun m => .bind (.of_keeps (ofRun_stable ⟨fun _ hm => hm⟩)) fun removed => ?_
  exact budgeted_agree _ (ofRun_agree (callAll_agree hi _))

theorem cleanBefore_agree (e : Effect Value) : Agree Idle (cleanBefore invoke e) (cleanBefore outside e) := by
  refine .bind (.of_keeps ⟨fun _ hm => hm⟩) fun cleanup? => ?_
  cases cleanup? with
  | none => exact .of_keeps (.pure ())
  | some cleanup => exact .bind (first_agree (hi ..)) fun _ => .of_keeps (.pure ())

theorem runEffects_agree (effects : List (Effect Value)) :
    Agree Idle (runEffects invoke effects) (runEffects outside effects) := by
  induction effects with
  | nil => exact .of_keeps (.pure ())
  | cons e es ih =>
    refine .bind (cleanBefore_agree hi e) fun _ => .bind (first_agree (hi ..)) fun given => ?_
    exact .bind (.of_keeps (register_stable (fun _ _ hs => hs) given)) fun _ => ih

theorem settleEffects_agree : Agree Idle (settleEffects invoke) (settleEffects outside) :=
  .bind (.of_keeps (ofRun_stable ⟨fun _ hm => hm⟩)) fun effects =>
    budgeted_agree _ (ofRun_agree (runEffects_agree hi effects))

/-- After the pass, which has closed its bodies, only what is outside of them is called. -/
theorem roundApart_eq (order : Order) (render : Value) (props : Json) :
    roundApart body invoke order render props = roundApart body outside order render props := by
  funext m
  unfold roundApart
  cases hp : renderPass body render props m with
  | error e n => rw [bind_of_error hp, bind_of_error hp]
  | ok output n =>
    rw [bind_of_ok hp, bind_of_ok hp]
    have hdirty : Agree Idle isDirty isDirty := .of_keeps (.bind .get fun _ => .pure _)
    refine (Matches.bind (dropStale_agree hi order) fun _ => .bind hdirty fun dirty =>
      .ite (.of_keeps (.pure none)) ?_).same
      n (renderPass_closes hp)
    refine .bind (settleEffects_agree hi) fun _ => .bind hdirty fun dirty => .of_keeps ?_
    exact .ite (.pure none) (.pure _)

theorem cycleApart_eq (order : Order) (render : Value) (props : Json) (limit passes : Nat) :
    cycleApart body invoke order render props limit passes =
      cycleApart body outside order render props limit passes := by
  induction passes with
  | zero => rfl
  | succ passes ih => simp only [cycleApart, roundApart_eq hi, ih]

/-- Whatever has been left open is forgotten before the cleanups are called. -/
theorem release_eq (order : Order) (c : Component) : release invoke order c = release outside order c := by
  have hsame : Run.forHost (callAll invoke (order.arrange c.machine c.machine.hooks.reset.1))
      { c.machine with hooks := c.machine.hooks.reset.2 } = Run.forHost _ _ :=
    (budgeted_agree Fault.isPanic (across_agree (callAll_agree hi _))).same _ rfl
  unfold release
  dsimp only
  rw [hsame]

theorem handle_agree (callback : Value) (event : Json) (mounted : Mounted)
    (hm : Idle mounted.component.machine.hooks) :
    handle invoke callback event mounted = handle outside callback event mounted := by
  have hcall : Agree Idle (handlerCall invoke callback event) (handlerCall outside callback event) :=
    .bind (.of_keeps (toValue_stable event)) fun v => .bind (hi ..) fun _ => .of_keeps (.pure ())
  have hsame : Run.forHost (handlerCall invoke callback event) mounted.component.machine = Run.forHost _ _ :=
    (budgeted_agree Fault.isPanic (across_agree hcall)).same _ hm
  rw [handle_eq, handle_eq, hsame]

variable (s : Surface)

theorem renderApart_eq (phase : Phase) : renderApart body invoke s phase = renderApart body outside s phase := by
  unfold renderApart
  simp only [cycleApart_eq hi, release_eq hi]

theorem flushApart_eq : flushApart body invoke s = flushApart body outside s := by
  unfold flushApart
  simp only [renderApart_eq hi]

theorem unmount_eq : s.unmount invoke = s.unmount outside := by
  unfold unmount
  simp only [release_eq hi]

theorem place_eq (c : Component) (props : Json) : s.place invoke c props = s.place outside c props := by
  unfold place
  rw [release_eq hi]

/-- No body of what is mounted runs. -/
def Rests (s : Surface) : Prop := ∀ mounted, s.mounted = some mounted → Idle mounted.component.machine.hooks

theorem actApart_eq (hs : Rests s) (op : Op) : actApart body invoke s op = actApart body outside s op := by
  cases op with
  | mount c props =>
    simp only [actApart]
    rw [renderApart_eq hi, unmount_eq hi, place_eq hi]
  | update props => simp only [actApart, renderApart_eq hi]
  | flush => exact flushApart_eq hi s
  | dispatch id event =>
    simp only [actApart]
    cases hh : s.handler? id with
    | error e => rfl
    | ok r =>
      obtain ⟨mounted, callback⟩ := r
      dsimp only
      rw [handle_agree hi callback event mounted (hs mounted (handler?_ok hh).1), flushApart_eq hi]
  | unmount => exact congrArg Prod.fst (unmount_eq hi s)
  | call f args =>
    simp only [actApart, call]
    cases hm : s.mounted with
    | none => rfl
    | some mounted =>
      dsimp only
      rw [(across_agree (hi Trail.host f args)).same _ (hs mounted hm)]

end Outside

/-! ### Runs of operations -/

section Runs
variable {invoke outside : Invoke} (hi : Scripted invoke) (limit : Nat) (order : Order) (ops : List Op)
include hi

/-- Nothing runs on a surface between operations, whatever has happened in them. -/
theorem rests_run : Rests (ops.foldl (act invoke) (fresh limit order)) := by
  intro mounted hm
  have hs := sound_run hi limit order ops
  have hsurface : ((Watched.fresh limit order).run invoke ops).surface =
      ops.foldl (act invoke) (fresh limit order) := surface_run _ ops
  rw [← hsurface] at hm
  cases hshown : ((Watched.fresh limit order).run invoke ops).surface.shown with
  | empty => exact nomatch hm.symm.trans (hs.empty.1 hshown)
  | captured report =>
    obtain ⟨mounted', hm', he, -⟩ := hs.captured report hshown
    cases hm.symm.trans hm'
    rw [he]
    rfl
  | rendered nodes =>
    obtain ⟨mounted', before, after, h⟩ := hs.rendered nodes hshown
    cases hm.symm.trans h.mounts
    exact h.confined.idle

/-- Two ways to call that agree while no body runs may be taken for one another outside of bodies. -/
theorem apart_of_agree (ha : ∀ trail v args, Agree Idle (invoke trail v args) (outside trail v args)) :
    ops.foldl (actApart invoke outside) (fresh limit order) = ops.foldl (act invoke) (fresh limit order) ∧
      ∀ mounted, (ops.foldl (act invoke) (fresh limit order)).mounted = some mounted → ∀ trail v args,
        invoke trail v args mounted.component.machine = outside trail v args mounted.component.machine := by
  constructor
  · induction ops using List.reverseRecOn with
    | nil => rw [List.foldl_nil, List.foldl_nil]
    | append_singleton ops op ih =>
      rw [List.foldl_append, List.foldl_append, ih]
      show actApart invoke outside _ op = act invoke _ op
      rw [← actApart_eq ha _ (rests_run hi limit order ops), actApart_self]
  · exact fun mounted hm trail v args => (ha trail v args).same _ (rests_run hi limit order ops mounted hm)

end Runs

/-- **Hooks work in component bodies alone.** Bodies apart, a surface does what it does where every hook function is
one that fails and touches nothing. So do, between operations, the calls that the host makes of whatever it has got
hold of; and a hook function that is called there fails at once and leaves the whole machine as it is. -/
theorem hooks_only_in_bodies (limit : Nat) (order : Order) (ops : List Op) :
    (∀ invoke trail args hook m, ∃ fault, barredHook invoke trail args hook m = .error fault m) ∧
      ops.foldl (actApart Script.invoke barred) (fresh limit order) =
        ops.foldl (act Script.invoke) (fresh limit order) ∧
      ∀ mounted, (ops.foldl (act Script.invoke) (fresh limit order)).mounted = some mounted →
        (∀ trail v args, Script.invoke trail v args mounted.component.machine =
          barred trail v args mounted.component.machine) ∧
        ∀ invoke trail args hook, ∃ fault, Hook.call invoke trail args hook mounted.component.machine =
          .error fault mounted.component.machine := by
  obtain ⟨hruns, hcalls⟩ := apart_of_agree scripted_invoke limit order ops invoke_agree
  refine ⟨barredHook_fails, hruns, fun mounted hm => ⟨hcalls mounted hm, fun invoke trail args hook => ?_⟩⟩
  rw [call_idle invoke trail args hook (rests_run scripted_invoke limit order ops mounted hm)]
  exact barredHook_fails ..

end LivePreview.Surface
