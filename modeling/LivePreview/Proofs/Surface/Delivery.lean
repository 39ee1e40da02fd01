import LivePreview.Proofs.Surface.Rerender
import LivePreview.Proofs.Surface.Wiring

/-! Events that end in an error.

An event that finds no handler is turned away, and nothing has run. A handler that fails leaves the surface as it
would be if it had returned where it failed: the flush that follows does the same work from the same hook state, and
where nothing has changed there is none (`dispatch_failed`). A panic of the host leaves the allowance of its run on
the machine, which the next pass replaces. -/
namespace LivePreview.Surface
open Script Hook
variable {invoke : Invoke} {s t : Surface} {id : Nat} {event : Json} {mounted : Mounted} {callback : Value}

/-- The run that returns where `r` fails. -/
def returning (r : Run Unit) : Run Unit := fun m =>
  match r m with
  | .ok _ n => .ok () n
  | .error _ n => .ok () n

theorem dispatch_eq_error {e : DispatchError} (invoke : Invoke) (event : Json) (h : s.handler? id = .error e) :
    s.dispatch invoke id event = (s, .error e) := by
  unfold dispatch
  rw [h]

/-- A search for a handler fails for want of one, and for no other reason. -/
theorem handler?_ne_handler (s : Surface) (id : Nat) (text : String) : s.handler? id ≠ .error (.handler text) := by
  unfold handler?
  split
  · simp
  · split
    · simp
    · split <;> simp

/-! ### The allowance left by a panic -/

/-- The surface with no run under way on its machine. -/
def disarm (s : Surface) : Surface :=
  { s with mounted := s.mounted.map fun mounted => mounted.on { mounted.component.machine with steps := none } }

section Steps
variable {order : Order} {render : Value} {props : Json} {m : Machine} {steps : Option Nat}

/-- A pass begins with an allowance of its own. -/
theorem renderPass_steps : renderPass invoke render props { m with steps } = renderPass invoke render props m := rfl

/-- What begins the same goes on the same. -/
theorem bind_eq_of_eq {ε α β : Type} {x : EStateM ε Machine α} {m n : Machine} (h : x m = x n)
    (f : α → EStateM ε Machine β) : (x >>= f) m = (x >>= f) n := by
  show EStateM.bind x f m = EStateM.bind x f n
  unfold EStateM.bind
  rw [h]

theorem cycle_steps (limit passes : Nat) : cycle invoke order limit render props (passes + 1) { m with steps } =
    cycle invoke order limit render props (passes + 1) m :=
  bind_eq_of_eq (bind_eq_of_eq renderPass_steps _) _

theorem render_steps (phase : Phase) :
    Surface.render invoke phase { s with mounted := some (mounted.on { m with steps }) } =
      Surface.render invoke phase { s with mounted := some (mounted.on m) } := by
  have hcycle : cycle invoke s.order s.maxRerenders mounted.component.render mounted.props (s.maxRerenders + 1)
      { m with steps } = cycle invoke s.order s.maxRerenders mounted.component.render mounted.props
        (s.maxRerenders + 1) m :=
    cycle_steps s.maxRerenders s.maxRerenders
  unfold Surface.render
  dsimp only [Mounted.on]
  rw [hcycle]

theorem flush_mounted : flush invoke { s with mounted := some mounted } =
    if mounted.component.machine.hooks.dirty && !s.isCaptured then
      Surface.render invoke .update { s with mounted := some mounted }
    else { s with mounted := some mounted } := rfl

/-- A flush renders the same whatever allowance is left, or it does not render. -/
theorem disarm_flush_steps : (flush invoke { s with mounted := some (mounted.on { m with steps }) }).disarm =
    (flush invoke { s with mounted := some (mounted.on m) }).disarm := by
  rw [flush_mounted, flush_mounted]
  show disarm (if (m.hooks.dirty && !s.isCaptured) = true then _ else _) =
    disarm (if (m.hooks.dirty && !s.isCaptured) = true then _ else _)
  split
  case isTrue => exact congrArg disarm (render_steps .update)
  case isFalse => rfl

end Steps

/-- A failed run and the one that returns there leave the same machine but for the allowance, and the same machine
altogether unless the host has panicked. -/
theorem forHost_returning {call : Run Unit} {m n : Machine} {fault : Fault} (h : Run.forHost call m = .error fault n) :
    Run.forHost (returning call) m = .ok () { n with steps := none } ∧
      (fault.isPanic = false → { n with steps := none } = n) := by
  unfold Run.forHost budgeted at h ⊢
  cases hcall : call { m with steps := some m.allowance, taken := 0 } with
  | ok a l =>
    simp only [Run.across, hcall] at h
    cases h
  | error e l =>
    simp only [Run.across, hcall] at h
    simp only [Run.across, returning, hcall]
    cases h
    split
    case isTrue hpanic => exact ⟨rfl, fun hno => absurd hpanic (by simp [hno])⟩
    case isFalse => exact ⟨rfl, fun _ => rfl⟩

/-! ### Failed events -/

/-- Two surfaces show the same, and what is mounted on them has the same handlers and the same hook storage. The same
has been reported of both. -/
structure SameShow (t u : Surface) : Prop where
  shown : t.shown = u.shown
  handlers : t.mounted.map (·.handlers) = u.mounted.map (·.handlers)
  hooks : t.mounted.map (·.component.machine.hooks) = u.mounted.map (·.component.machine.hooks)
  events : t.events = u.events

theorem SameShow.of_disarm {t u : Surface} (h : t.disarm = u.disarm) : SameShow t u := by
  have hmounted : t.disarm.mounted = u.disarm.mounted := congrArg Surface.mounted h
  have hshown : t.disarm.shown = u.disarm.shown := congrArg Surface.shown h
  have hevents : t.disarm.events = u.disarm.events := congrArg Surface.events h
  refine ⟨hshown, ?_, ?_, hevents⟩
  · have := congrArg (Option.map Mounted.handlers) hmounted
    simpa [disarm, Option.map_map, Function.comp_def, Mounted.on] using this
  · have := congrArg (Option.map fun mounted => mounted.component.machine.hooks) hmounted
    simpa [disarm, Option.map_map, Function.comp_def, Mounted.on] using this

/-- A handler has failed and its machine was left as `stopped`. The surface is like the one that a handler gives that
returns there, and the very same unless the host has panicked; and when no state was to be rendered before and the
handler has changed none, nothing is rendered. -/
structure HandlerFailed (invoke : Invoke) (event : Json) (s t : Surface) (mounted : Mounted) (callback : Value)
    (fault : Fault) (stopped : Machine) : Prop where
  ran : Run.forHost (handlerCall invoke callback event) mounted.component.machine = .error fault stopped
  returned : ∃ u, deliver invoke (returning (handlerCall invoke callback event)) mounted s = (u, .ok ()) ∧
    SameShow t u ∧ t.disarm = u.disarm ∧ (fault.isPanic = false → t = u)
  still : mounted.component.machine.hooks.dirty = false →
    ¬ Changed mounted.component.machine.hooks stopped.hooks →
      t = { s with mounted := some (mounted.on stopped) }

/-- **An event that ends in an error leaves nothing half done.** When it finds no handler, the surface is as before,
and no script was called: the answer is the same however scripts are called. When its handler fails, the surface is
as if it had returned there. -/
theorem dispatch_failed {e : DispatchError} (hi : Scripted invoke) (h : s.dispatch invoke id event = (t, .error e)) :
    match e with
    | .handler text => ∃ mounted callback fault stopped, s.handler? id = .ok (mounted, callback) ∧
        text = (Run.hostFault fault).message ∧ HandlerFailed invoke event s t mounted callback fault stopped
    | .captured | .notMounted | .unknownHandler _ =>
      t = s ∧ ∀ other : Invoke, s.dispatch other id event = (s, .error e) := by
  cases hh : s.handler? id with
  | error e' =>
    rw [dispatch_eq_error invoke event hh] at h
    obtain ⟨rfl, rfl⟩ : s = t ∧ e' = e := by simpa using h
    have hother : s = s ∧ ∀ other : Invoke, s.dispatch other id event = (s, .error e') :=
      ⟨rfl, fun other => dispatch_eq_error other event hh⟩
    cases e' with
    | handler text => exact absurd hh (handler?_ne_handler s id text)
    | captured => exact hother
    | notMounted => exact hother
    | unknownHandler => exact hother
  | ok found =>
    obtain ⟨mounted, callback⟩ := found
    rw [dispatch_eq_deliver invoke event hh] at h
    unfold deliver at h
    split at h
    case h_1 => cases h
    case h_2 fault stopped hrun =>
      obtain ⟨rfl, rfl⟩ : flush invoke { s with mounted := some (mounted.on stopped) } = t ∧
          DispatchError.handler (Run.hostFault fault).message = e := by simpa using h
      obtain ⟨hreturn, hsame⟩ := forHost_returning hrun
      refine ⟨mounted, callback, fault, stopped, rfl, rfl, hrun, ?_, fun hclean hstill => ?_⟩
      · have hdisarm : (flush invoke { s with mounted := some (mounted.on { stopped with steps := none }) }).disarm =
            (flush invoke { s with mounted := some (mounted.on stopped) }).disarm := disarm_flush_steps
        refine ⟨flush invoke { s with mounted := some (mounted.on { stopped with steps := none }) }, ?_, ?_, ?_, ?_⟩
        · unfold deliver
          rw [hreturn]
        · exact .of_disarm hdisarm.symm
        · exact hdisarm.symm
        · exact fun hno => by rw [hsame hno]
      · obtain ⟨n, hn, hacted⟩ := handle_acted hi callback event mounted
        have hstopped : (handle invoke callback event mounted).1 = mounted.on stopped := by
          unfold handle
          dsimp only
          rw [show Run.forHost (do
            let v ← event.toValue
            let _ ← invoke Trail.host callback [v]) mounted.component.machine = .error fault stopped from hrun]
        have hhooks : n.hooks = stopped.hooks :=
          congrArg (fun mounted => mounted.component.machine.hooks) (hn.symm.trans hstopped)
        have hdirty : stopped.hooks.dirty = false := by
          rw [hhooks] at hacted
          exact Bool.eq_false_iff.2 fun hd => hstill ((changed_iff hacted.path hclean).2 hd)
        rw [flush_mounted, Mounted.on, hdirty, Bool.false_and, if_neg Bool.false_ne_true]

/-- A component whose handler counts up and then fails. -/
def blowingCount : Component :=
  ((Component.attempt {} {} ("function Count()\n" ++
    "  local n, set = React.useState(0)\n" ++
    "  local function blow() set(n + 1) error('short') end\n" ++
    "  return React.createElement('b', \x7bonClick = blow\x7d, n)\nend") "Count").component?).getD default

/-- A surface on which the count is shown. -/
def countShown : Surface := act Script.invoke (Watched.fresh 25 {}).surface (.mount blowingCount (.obj []))

/-- The answer is that a handler has failed, and output is shown. -/
def failsShown : Surface × Except DispatchError Unit → Bool
  | (s, .error (.handler _)) => isRendered s
  | _ => false

theorem exists_of_failsShown {answer : Surface × Except DispatchError Unit} (h : failsShown answer = true) :
    ∃ t text nodes, answer = (t, .error (.handler text)) ∧ t.shown = .rendered nodes := by
  unfold failsShown at h
  split at h
  case h_1 t text =>
    obtain ⟨nodes, hnodes⟩ := exists_of_isRendered h
    exact ⟨t, text, nodes, rfl, hnodes⟩
  case h_2 => cases h

set_option maxRecDepth 100000 in
/-- The count is shown although the handler has failed. -/
theorem dispatch_failed_countShown : Scripted Script.invoke ∧ ∃ t text nodes,
    countShown.dispatch Script.invoke 0 .null = (t, .error (.handler text)) ∧
      t.shown = .rendered nodes ∧
      ∃ mounted callback fault stopped, countShown.handler? 0 = .ok (mounted, callback) ∧
        text = (Run.hostFault fault).message ∧
        HandlerFailed Script.invoke .null countShown t mounted callback fault stopped := by
  obtain ⟨t, text, nodes, hdispatch, hnodes⟩ :=
    exists_of_failsShown (show failsShown (countShown.dispatch Script.invoke 0 .null) = true by decide +kernel)
  exact ⟨scripted_invoke, t, text, nodes, hdispatch, hnodes, dispatch_failed scripted_invoke hdispatch⟩

end LivePreview.Surface
