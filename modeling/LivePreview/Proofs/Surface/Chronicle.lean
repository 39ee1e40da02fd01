import LivePreview.Proofs.Surface.Story

/-! The chronicle of a surface: what happens in its operations, beat by beat.

An operation is told as what it makes of a surface together with its story. The cleanups of what is released and the
handler of an event are called where this is told. Telling changes nothing: what is told here does what the operation
does (`tellAct_outcome`), and the chronicle of a run of operations is put together from their stories. -/
namespace LivePreview.Surface
open Script Hook
variable {α β : Type} {m n : Machine}

/-- What may happen outside of updates. -/
def Beat.Outside : Beat → Prop
  | .handled _ _ _ | .called _ _ _ => True
  | _ => False

/-- What something comes to, with the story of it. -/
structure Tale (α : Type) where
  outcome : α
  story : List Beat

namespace Tale

def tell (beat : Beat) : Tale Unit := ⟨(), [beat]⟩

instance : Monad Tale where
  pure a := ⟨a, []⟩
  bind t k := ⟨(k t.outcome).outcome, t.story ++ (k t.outcome).story⟩

theorem outcome_bind (t : Tale α) (k : α → Tale β) : (t >>= k).outcome = (k t.outcome).outcome := rfl

theorem story_bind (t : Tale α) (k : α → Tale β) : (t >>= k).story = t.story ++ (k t.outcome).story := rfl

end Tale

/-- What a told computation comes to from a machine. -/
def Told.tale {ε : Type} (t : Told Beat ε α) (m : Machine) : Tale (EStateM.Result ε Machine α) := ⟨t.run m, t.story m⟩

/-! ### Operations -/

/-- What can be done with a surface. Between the operations the host may call what scripts have given it, setters
among it; a component comes to the surface as it has been left elsewhere. -/
inductive Op where
  | mount (c : Component) (props : Json)
  | update (props : Json)
  | flush
  | dispatch (id : Nat) (event : Json)
  | unmount
  | call (f : Value) (args : List Value)

/-- Mounting takes down what is mounted before. -/
def act (invoke : Invoke) (s : Surface) : Op → Surface
  | .mount c props => (s.unmount invoke).1.mount invoke c props
  | .update props => s.update invoke props
  | .flush => s.flush invoke
  | .dispatch id event => (s.dispatch invoke id event).1
  | .unmount => (s.unmount invoke).1
  | .call f args => (s.call invoke f args).1

/-! ### Operations with their stories -/

section Telling
variable (invoke : Invoke)

/-- All cleanups of a component are swept when it is released. -/
def tellRelease (order : Order) (c : Component) : Tale (Component × Array SurfaceEvent) :=
  let (cleanups, hooks) := c.machine.hooks.reset
  let machine := { c.machine with hooks }
  if cleanups.isEmpty then return ({ c with machine }, #[])
  else do
    let calls := (tellCalls invoke (order.arrange c.machine cleanups)).across.budgeted Fault.isPanic
    match ← (calls.as (.swept c.machine.hooks.cleanups)).tale machine with
    | .ok _ machine => return ({ c with machine }, #[])
    | .error e machine => return ({ c with machine }, #[.cleanupFailed c.name (Run.hostFault e)])

def tellRender (phase : Phase) (s : Surface) : Tale Surface :=
  match s.mounted with
  | none => return s
  | some mounted => do
    let c := mounted.component
    match ← (tellCycle invoke s.order c.render mounted.props s.maxRerenders (s.maxRerenders + 1)).tale c.machine with
    | .ok (nodes, handlers) machine =>
      return { s with
        mounted := some { mounted.on machine with handlers }
        shown := .rendered nodes }
    | .error error machine =>
      let report : Report := ⟨error, c.name, phase⟩
      let (component, events) ← tellRelease invoke s.order { c with machine }
      return { s with
        mounted := some { mounted with component, handlers := #[] }
        shown := .captured report
        events := s.events.push (.captured report) ++ events }

def tellUnmount (s : Surface) : Tale (Surface × Option Component) :=
  match s.mounted with
  | none => return ({ s with shown := .empty }, none)
  | some mounted => do
    let (component, events) ← tellRelease invoke s.order mounted.component
    return ({ s with
        mounted := none
        shown := .empty
        events := s.events.push (.unmounting component.name) ++ events },
      some component)

def tellPlace (c : Component) (props : Json) (s : Surface) : Tale Surface := do
  Tale.tell (.placed c.machine.hooks.cleanups)
  let (component, events) ← tellRelease invoke s.order c
  return { s with
    mounted := some ⟨component, props, #[]⟩
    events := (s.events ++ events).push (.mounting c.name) }

def tellUpdate (props : Json) (s : Surface) : Tale Surface :=
  if s.isCaptured then return s
  else
    match s.mounted with
    | none => return s
    | some mounted => tellRender invoke .update { s with mounted := some { mounted with props } }

def tellFlush (s : Surface) : Tale Surface :=
  match s.mounted with
  | none => return s
  | some mounted =>
    if mounted.component.machine.hooks.dirty && !s.isCaptured then tellRender invoke .update s else return s

/-- The call of a handler with what the event is to a script. -/
def handlerCall (callback : Value) (event : Json) : Run Unit := do
  let v ← event.toValue
  let _ ← invoke Trail.host callback [v]

def tellHandler (callback : Value) (event : Json) : Told Beat Fault Unit := do
  let v ← Told.quiet event.toValue
  Told.tell (.handled callback v)
  let _ ← Told.quiet (invoke Trail.host callback [v])

def tellHandle (callback : Value) (event : Json) (mounted : Mounted) : Tale (Mounted × Except DispatchError Unit) := do
  match ← ((tellHandler invoke callback event).across.budgeted Fault.isPanic).tale mounted.component.machine with
  | .ok _ machine => return (mounted.on machine, .ok ())
  | .error e machine => return (mounted.on machine, .error (.handler (Run.hostFault e).message))

def tellDispatch (id : Nat) (event : Json) (s : Surface) : Tale (Surface × Except DispatchError Unit) :=
  match s.handler? id with
  | .error e => return (s, .error e)
  | .ok (mounted, callback) => do
    let (mounted, result) ← tellHandle invoke callback event mounted
    return (← tellFlush invoke { s with mounted := some mounted }, result)

def tellCall (f : Value) (args : List Value) (s : Surface) : Tale (Surface × Except Fault Unit) :=
  match s.mounted with
  | none => return (s, .ok ())
  | some mounted => do
    Tale.tell (.called f args mounted.component.machine)
    return s.call invoke f args

def tellAct (s : Surface) : Op → Tale Surface
  | .mount c props => do
    let (s, _) ← tellUnmount invoke s
    tellRender invoke .mount (← tellPlace invoke c props s)
  | .update props => tellUpdate invoke props s
  | .flush => tellFlush invoke s
  | .dispatch id event => do return (← tellDispatch invoke id event s).1
  | .unmount => do return (← tellUnmount invoke s).1
  | .call f args => do return (← tellCall invoke f args s).1

def tellActs (s : Surface) : List Op → Tale Surface
  | [] => return s
  | op :: ops => do tellActs (← tellAct invoke s op) ops

/-- What happens in an operation. -/
def beats (s : Surface) (op : Op) : List Beat := (tellAct invoke s op).story

/-- What happens in a run of operations. -/
def chronicle (s : Surface) (ops : List Op) : List Beat := (tellActs invoke s ops).story

end Telling

/-- A surface on which nothing has happened. -/
def fresh (limit : Nat) (order : Order) : Surface := { maxRerenders := limit, order }

/-! ### Telling changes nothing -/

section Outcomes
variable {invoke : Invoke} {s : Surface} {mounted : Mounted}

theorem tellRelease_outcome (order : Order) (c : Component) :
    (tellRelease invoke order c).outcome = release invoke order c := by
  have hr (fs : List Value) (beat : List Call → Beat) :
      (((tellCalls invoke fs).across.budgeted Fault.isPanic).as beat).run = Run.forHost (callAll invoke fs) := by
    rw [Run.forHost, ← tellCalls_run]
    rfl
  unfold tellRelease release
  dsimp only
  split
  · rfl
  · rw [Tale.outcome_bind, Told.tale, hr]
    cases Run.forHost (callAll invoke _) _ <;> rfl

theorem tellRender_outcome (phase : Phase) (s : Surface) :
    (tellRender invoke phase s).outcome = render invoke phase s := by
  unfold tellRender render
  cases s.mounted with
  | none => rfl
  | some mounted =>
    dsimp only
    rw [Tale.outcome_bind, Told.tale, tellCycle_run]
    dsimp only
    cases cycle invoke s.order s.maxRerenders mounted.component.render mounted.props (s.maxRerenders + 1)
        mounted.component.machine with
    | ok output machine => rfl
    | error error machine =>
      dsimp only
      rw [Tale.outcome_bind, tellRelease_outcome]
      rfl

theorem tellUnmount_outcome (s : Surface) : (tellUnmount invoke s).outcome = s.unmount invoke := by
  unfold tellUnmount unmount
  cases s.mounted with
  | none => rfl
  | some mounted =>
    dsimp only
    rw [Tale.outcome_bind, tellRelease_outcome]
    rfl

theorem tellPlace_outcome (c : Component) (props : Json) (s : Surface) :
    (tellPlace invoke c props s).outcome = s.place invoke c props := by
  unfold tellPlace place
  rw [Tale.outcome_bind, Tale.outcome_bind, tellRelease_outcome]
  rfl

theorem tellUpdate_outcome (props : Json) (s : Surface) :
    (tellUpdate invoke props s).outcome = s.update invoke props := by
  unfold tellUpdate update
  split
  · rfl
  · cases s.mounted with
    | none => rfl
    | some mounted => exact tellRender_outcome ..

theorem tellFlush_outcome (s : Surface) : (tellFlush invoke s).outcome = flush invoke s := by
  unfold tellFlush flush
  cases s.mounted with
  | none => rfl
  | some mounted =>
    dsimp only
    split
    · exact tellRender_outcome ..
    · rfl

theorem tellHandler_run (callback : Value) (event : Json) :
    (tellHandler invoke callback event).run = handlerCall invoke callback event := by
  simp [tellHandler, handlerCall]

theorem handle_eq (callback : Value) (event : Json) (mounted : Mounted) : handle invoke callback event mounted =
    match Run.forHost (handlerCall invoke callback event) mounted.component.machine with
    | .ok _ machine => (mounted.on machine, .ok ())
    | .error e machine => (mounted.on machine, .error (.handler (Run.hostFault e).message)) := rfl

theorem tellHandle_outcome (callback : Value) (event : Json) (mounted : Mounted) :
    (tellHandle invoke callback event mounted).outcome = handle invoke callback event mounted := by
  have hr : ((tellHandler invoke callback event).across.budgeted Fault.isPanic).run =
      Run.forHost (handlerCall invoke callback event) := by
    rw [Run.forHost, ← tellHandler_run]
    rfl
  rw [tellHandle, Tale.outcome_bind, Told.tale, hr, handle_eq]
  cases Run.forHost (handlerCall invoke callback event) mounted.component.machine <;> rfl

theorem tellDispatch_outcome (id : Nat) (event : Json) (s : Surface) :
    (tellDispatch invoke id event s).outcome = s.dispatch invoke id event := by
  unfold tellDispatch dispatch
  cases s.handler? id with
  | error e => rfl
  | ok found =>
    dsimp only
    rw [Tale.outcome_bind, tellHandle_outcome]
    refine congrArg (·, (handle invoke found.2 event found.1).2) ?_
    exact tellFlush_outcome _

theorem tellCall_outcome (f : Value) (args : List Value) (s : Surface) :
    (tellCall invoke f args s).outcome = s.call invoke f args := by
  cases hm : s.mounted with
  | none =>
    rw [tellCall, call, hm]
    rfl
  | some mounted =>
    rw [tellCall, hm]
    rfl

/-- **What is told of an operation is what the operation does.** -/
theorem tellAct_outcome (s : Surface) (op : Op) : (tellAct invoke s op).outcome = act invoke s op := by
  cases op with
  | mount c props =>
    unfold tellAct
    rw [Tale.outcome_bind, tellUnmount_outcome]
    dsimp only
    rw [Tale.outcome_bind, tellPlace_outcome, tellRender_outcome]
    rfl
  | update props => exact tellUpdate_outcome ..
  | flush => exact tellFlush_outcome s
  | dispatch id event => exact congrArg Prod.fst (tellDispatch_outcome ..)
  | unmount => exact congrArg Prod.fst (tellUnmount_outcome s)
  | call f args => exact congrArg Prod.fst (tellCall_outcome ..)

theorem tellActs_outcome (s : Surface) (ops : List Op) :
    (tellActs invoke s ops).outcome = ops.foldl (act invoke) s := by
  induction ops generalizing s with
  | nil => rfl
  | cons op ops ih =>
    rw [tellActs, Tale.outcome_bind, tellAct_outcome]
    exact ih _

theorem chronicle_cons (s : Surface) (op : Op) (ops : List Op) :
    chronicle invoke s (op :: ops) = beats invoke s op ++ chronicle invoke (act invoke s op) ops := by
  rw [chronicle, tellActs, Tale.story_bind, tellAct_outcome]
  rfl

end Outcomes

/-! ### Stories of operations -/

section Stories
variable {invoke : Invoke} {s : Surface} {mounted : Mounted}

theorem story_tellUnmount_none (hm : s.mounted = none) : (tellUnmount invoke s).story = [] := by
  unfold tellUnmount
  rw [hm]
  rfl

theorem story_tellUnmount_some (hm : s.mounted = some mounted) :
    (tellUnmount invoke s).story = (tellRelease invoke s.order mounted.component).story := by
  unfold tellUnmount
  rw [hm]
  exact List.append_nil _

theorem story_tellPlace (c : Component) (props : Json) (s : Surface) :
    (tellPlace invoke c props s).story =
      .placed c.machine.hooks.cleanups :: (tellRelease invoke s.order c).story :=
  congrArg (_ :: ·) (List.append_nil _)

theorem beats_mount (c : Component) (props : Json) (s : Surface) : beats invoke s (.mount c props) =
    (tellUnmount invoke s).story ++ ((tellPlace invoke c props (s.unmount invoke).1).story ++
      (tellRender invoke .mount ((s.unmount invoke).1.place invoke c props)).story) := by
  unfold beats tellAct
  rw [Tale.story_bind, tellUnmount_outcome]
  dsimp only
  rw [Tale.story_bind, tellPlace_outcome]

/-- The story of a render goes on with the release of what has failed. -/
theorem story_tellRender (phase : Phase) (hm : s.mounted = some mounted) : (tellRender invoke phase s).story =
    (tellCycle invoke s.order mounted.component.render mounted.props s.maxRerenders (s.maxRerenders + 1)).story
      mounted.component.machine ++
      match cycle invoke s.order s.maxRerenders mounted.component.render mounted.props (s.maxRerenders + 1)
        mounted.component.machine with
      | .ok _ _ => []
      | .error _ machine => (tellRelease invoke s.order { mounted.component with machine }).story := by
  unfold tellRender
  rw [hm]
  dsimp only
  rw [Tale.story_bind]
  unfold Told.tale
  dsimp only
  rw [tellCycle_run]
  cases cycle invoke s.order s.maxRerenders mounted.component.render mounted.props (s.maxRerenders + 1)
      mounted.component.machine with
  | ok output machine => rfl
  | error error machine => exact congrArg (_ ++ ·) (List.append_nil _)

/-- The story of an event is that of its handler, and then that of the flush. -/
theorem beats_dispatch {id : Nat} {callback : Value} (event : Json) (h : s.handler? id = .ok (mounted, callback)) :
    beats invoke s (.dispatch id event) = (tellHandle invoke callback event mounted).story ++
      (tellFlush invoke { s with mounted := some (handle invoke callback event mounted).1 }).story := by
  have hd : (tellDispatch invoke id event s).story = (tellHandle invoke callback event mounted).story ++
      ((tellFlush invoke { s with mounted := some (handle invoke callback event mounted).1 }).story ++ []) := by
    rw [tellDispatch, h]
    dsimp only
    rw [Tale.story_bind, tellHandle_outcome]
    rfl
  rw [beats, tellAct, Tale.story_bind, hd, List.append_nil]
  exact List.append_nil _

theorem beats_dispatch_error {id : Nat} {e : DispatchError} (event : Json) (h : s.handler? id = .error e) :
    beats invoke s (.dispatch id event) = [] := by
  rw [beats, tellAct, Tale.story_bind, tellDispatch, h]
  rfl

/-- Besides updates the calls of handlers and of the host are told, and nothing else. -/
theorem outside_tellHandle (callback : Value) (event : Json) (mounted : Mounted) :
    ∀ beat ∈ (tellHandle invoke callback event mounted).story, beat.Outside := by
  have ht : (tellHandler invoke callback event).Tells Beat.Outside :=
    .bind (.quiet _) fun v => .bind (.tell fun _ => trivial) fun _ => .bind (.quiet _) fun _ => .pure _
  have hs : (tellHandle invoke callback event mounted).story = (tellHandler invoke callback event).story
      { mounted.component.machine with steps := some mounted.component.machine.allowance, taken := 0 } := by
    unfold tellHandle
    rw [Tale.story_bind]
    generalize (Told.tale _ mounted.component.machine).outcome = r
    cases r <;> exact List.append_nil _
  rw [hs]
  exact ht.all _

theorem outside_call (f : Value) (args : List Value) (s : Surface) :
    ∀ beat ∈ beats invoke s (.call f args), beat.Outside := by
  unfold beats tellAct tellCall
  cases s.mounted with
  | none => exact fun beat h => absurd h List.not_mem_nil
  | some mounted => exact List.forall_mem_singleton.2 trivial

/-- What is released is swept, in one beat or none. -/
theorem story_tellRelease (order : Order) (c : Component) :
    (c.machine.hooks.cleanups = [] ∧ (tellRelease invoke order c).story = []) ∨
      ∃ start, (tellRelease invoke order c).story = [.swept c.machine.hooks.cleanups
        ((tellCalls invoke (order.arrange c.machine (c.machine.hooks.cleanups.map (·.2)))).story start)] := by
  unfold tellRelease
  dsimp only
  split
  · rename_i h
    exact .inl ⟨List.map_eq_nil_iff.1 (List.isEmpty_iff.1 h), rfl⟩
  · refine .inr ⟨{ c.machine with hooks := c.machine.hooks.reset.2, steps := some c.machine.allowance, taken := 0 }, ?_⟩
    rw [Tale.story_bind]
    generalize (Told.tale _ _).outcome = r
    cases r <;> exact List.append_nil _

/-! ### Passes of operations -/

theorem passes_of_outside {log : List Beat} (h : ∀ beat ∈ log, beat.Outside) : Beat.passes log = [] := by
  refine passes_eq_nil fun beat hb start => ?_
  rintro rfl
  exact h _ hb

theorem passes_tellRelease (order : Order) (c : Component) :
    Beat.passes (tellRelease invoke order c).story = [] := by
  obtain ⟨-, h⟩ | ⟨start, h⟩ := @story_tellRelease invoke order c <;>
  · rw [h]
    rfl

theorem passes_tellUnmount (s : Surface) : Beat.passes (tellUnmount invoke s).story = [] := by
  cases hm : s.mounted with
  | none =>
    rw [story_tellUnmount_none hm]
    rfl
  | some mounted =>
    rw [story_tellUnmount_some hm]
    exact passes_tellRelease ..

theorem passes_tellPlace (c : Component) (props : Json) (s : Surface) :
    Beat.passes (tellPlace invoke c props s).story = [] := by
  rw [story_tellPlace]
  exact passes_tellRelease ..

/-- The passes of a render are those of its update. -/
theorem passes_tellRender (phase : Phase) (hm : s.mounted = some mounted) :
    Beat.passes (tellRender invoke phase s).story = Beat.passes ((tellCycle invoke s.order mounted.component.render
      mounted.props s.maxRerenders (s.maxRerenders + 1)).story mounted.component.machine) := by
  rw [story_tellRender phase hm, passes_append]
  cases cycle invoke s.order s.maxRerenders mounted.component.render mounted.props (s.maxRerenders + 1)
      mounted.component.machine with
  | ok output machine => exact List.append_nil _
  | error e machine =>
    dsimp only
    rw [passes_tellRelease, List.append_nil]

end Stories

/-! ### A surface under watch -/

/-- A surface with the record of what has happened on it. -/
structure Watched where
  surface : Surface
  record : List Beat := []

namespace Watched

/-- A new surface. -/
def fresh (limit : Nat) (order : Order) : Watched := { surface := { maxRerenders := limit, order } }

def step (invoke : Invoke) (w : Watched) (op : Op) : Watched :=
  ⟨act invoke w.surface op, w.record ++ beats invoke w.surface op⟩

def run (invoke : Invoke) (w : Watched) (ops : List Op) : Watched := ops.foldl (step invoke) w

/-- What every operation keeps holds after every run. -/
theorem run_keeps {invoke : Invoke} {P : Watched → Prop} (hP : ∀ w op, P w → P (w.step invoke op)) (w : Watched)
    (ops : List Op) (hw : P w) : P (w.run invoke ops) := by
  induction ops generalizing w with
  | nil => exact hw
  | cons op ops ih => exact ih (w.step invoke op) (hP w op hw)

theorem run_append (invoke : Invoke) (w : Watched) (ops : List Op) (op : Op) :
    w.run invoke (ops ++ [op]) = (w.run invoke ops).step invoke op := by
  rw [run, List.foldl_append]
  rfl

end Watched
end LivePreview.Surface
