import LivePreview.Surface.Render

/-! The surface on which one component is mounted.

Whatever a mounted component throws is captured and shown in place of its output, and nothing is tried again: the
owner mounts anew. A mounted component belongs to the surface, which gives it back when it is unmounted. -/
namespace LivePreview
open Script

/-- What was going on when an error was captured. -/
inductive Phase where
  | mount
  | update
deriving DecidableEq, Repr

/-- A captured error: what went wrong, in which component, and when. -/
structure Report where
  error : RenderError
  component : String
  phase : Phase

/-- What a surface shows. -/
inductive Shown where
  | empty
  | rendered (nodes : List Node)
  | captured (report : Report)

/-- What happens on a surface apart from what it shows. -/
inductive SurfaceEvent where
  | mounting (component : String)
  | unmounting (component : String)
  | captured (report : Report)
  | cleanupFailed (component : String) (fault : HostFault)

/-- The order in which a store gives its cleanups. They are kept by hash, so that only which they are is sure; the
machine stands for the moment at which they are taken. -/
structure Order where
  arrange : Machine → List Value → List Value := fun _ cleanups => cleanups
  perm : ∀ m cleanups, (arrange m cleanups).Perm cleanups := by exact fun _ _ => .refl _

structure Mounted where
  component : Component
  props : Json
  handlers : Array Value

/-- The same component with its machine in another state. -/
def Mounted.on (mounted : Mounted) (machine : Machine) : Mounted :=
  { mounted with component := { mounted.component with machine } }

structure Surface where
  mounted : Option Mounted := none
  shown : Shown := .empty
  /-- How many further passes one update may take. -/
  maxRerenders : Nat := 25
  order : Order := {}
  events : Array SurfaceEvent := #[]

/-- Why an event does not reach its handler, or what the handler threw. -/
inductive DispatchError where
  | notMounted
  | captured
  | unknownHandler (id : Nat)
  | handler (text : String)
deriving DecidableEq, Repr

def DispatchError.message : DispatchError → String
  | .notMounted => "Nothing is mounted"
  | .captured => "The boundary is showing a captured error"
  | .unknownHandler id => "Unknown handler id " ++ toString id
  | .handler text => "Event handler failed: " ++ text

namespace Surface

/-! ### One update: passes until state settles, then effects -/

/-- A computation on the machine of a component that a render error may stop. -/
abbrev Cycle := EStateM RenderError Machine

def Cycle.ofRun (r : Run α) : Cycle α := fun m =>
  match r m with
  | .ok a m => .ok a m
  | .error e m => .error (.ofFault e) m

/-- Calls functions one after another; the first error ends it. -/
def callAll (invoke : Invoke) : List Value → Run Unit
  | [] => return ()
  | f :: fs => do
    let _ ← Run.first (invoke Trail.host f [])
    callAll invoke fs

/-- One pass, from properties to nodes and handlers. -/
def renderPass (invoke : Invoke) (render : Value) (props : Json) : Cycle (List Node × Array Value) := do
  Cycle.ofRun (Run.modifyHooks (·.beginPass))
  budgeted RenderError.isPanic (do
    let v ← Cycle.ofRun props.toProps
    (Pass.root invoke render v).run #[])

/-- Runs the cleanups of the instances that the pass has left out. -/
def dropStale (invoke : Invoke) (order : Order) : Cycle Unit := do
  let m ← get
  let removed ← Cycle.ofRun (Run.takeHooks (·.finishPass))
  budgeted RenderError.isPanic (Cycle.ofRun (callAll invoke (order.arrange m removed)))

/-- Takes out the cleanup of the effect's run before and calls it. -/
def cleanBefore (invoke : Invoke) (e : Hook.Effect Value) : Run Unit := do
  match ← Run.takeHooks (·.takeCleanup e.key e.index) with
  | some cleanup =>
    let _ ← Run.first (invoke Trail.host cleanup [])
  | none => return ()

/-- Keeps what an effect has given as its cleanup, if that is a function. -/
def register (e : Hook.Effect Value) (given : Value) : Run Unit :=
  match given with
  | .func place => Run.modifyHooks (·.setCleanup e.key e.index (.func place))
  | _ => return ()

/-- Runs effects in order: the cleanup of the run before, then the effect, whose result is the next cleanup. -/
def runEffects (invoke : Invoke) : List (Hook.Effect Value) → Run Unit
  | [] => return ()
  | e :: es => do
    cleanBefore invoke e
    register e (← Run.first (invoke Trail.host e.callback []))
    runEffects invoke es

/-- Runs the effects that the pass has queued. -/
def settleEffects (invoke : Invoke) : Cycle Unit := do
  let effects ← Cycle.ofRun (Run.takeHooks (·.takeEffects))
  budgeted RenderError.isPanic (Cycle.ofRun (runEffects invoke effects))

def isDirty : Cycle Bool := do return (← get).hooks.dirty

/-- One pass with what follows on it. It gives its output when the state is as it was in the end. A pass that
changes state before its effects is dropped with them. -/
def round (invoke : Invoke) (order : Order) (render : Value) (props : Json) :
    Cycle (Option (List Node × Array Value)) := do
  let output ← renderPass invoke render props
  dropStale invoke order
  if ← isDirty then return none
  else
    settleEffects invoke
    if ← isDirty then return none else return some output

/-- Renders until a pass and its effects leave the state as it is, in at most `passes` passes. -/
def cycle (invoke : Invoke) (order : Order) (limit : Nat) (render : Value) (props : Json) :
    Nat → Cycle (List Node × Array Value)
  | 0 => throw (.tooManyRerenders limit)
  | passes + 1 => do
    match ← round invoke order render props with
    | some output => return output
    | none => cycle invoke order limit render props passes

/-- Forgets all hook state and runs the cleanups that are left. A failure is an event and nothing more. -/
def release (invoke : Invoke) (order : Order) (c : Component) : Component × Array SurfaceEvent :=
  let (cleanups, hooks) := c.machine.hooks.reset
  let machine := { c.machine with hooks }
  if cleanups.isEmpty then ({ c with machine }, #[])
  else
    match Run.forHost (callAll invoke (order.arrange c.machine cleanups)) machine with
    | .ok _ machine => ({ c with machine }, #[])
    | .error e machine => ({ c with machine }, #[.cleanupFailed c.name (Run.hostFault e)])

/-! ### Operations -/

/-- Renders what is mounted. An error is captured, reported and shown. -/
def render (invoke : Invoke) (phase : Phase) (s : Surface) : Surface :=
  match s.mounted with
  | none => s
  | some mounted =>
    let c := mounted.component
    match cycle invoke s.order s.maxRerenders c.render mounted.props (s.maxRerenders + 1) c.machine with
    | .ok (nodes, handlers) machine =>
      { s with
        mounted := some { mounted.on machine with handlers }
        shown := .rendered nodes }
    | .error error machine =>
      let report : Report := ⟨error, c.name, phase⟩
      let (component, events) := release invoke s.order { c with machine }
      { s with
        mounted := some { mounted with component, handlers := #[] }
        shown := .captured report
        events := s.events.push (.captured report) ++ events }

def isCaptured (s : Surface) : Bool :=
  match s.shown with
  | .captured _ => true
  | _ => false

/-- Takes down what is mounted, if anything is, and gives it back. -/
def unmount (invoke : Invoke) (s : Surface) : Surface × Option Component :=
  match s.mounted with
  | none => ({ s with shown := .empty }, none)
  | some mounted =>
    let (component, events) := release invoke s.order mounted.component
    ({ s with
        mounted := none
        shown := .empty
        events := s.events.push (.unmounting component.name) ++ events },
      some component)

/-- Puts a component where nothing is mounted. Whatever hook state it has brought is released. -/
def place (invoke : Invoke) (c : Component) (props : Json) (s : Surface) : Surface :=
  let (component, events) := release invoke s.order c
  { s with
    mounted := some ⟨component, props, #[]⟩
    events := (s.events ++ events).push (.mounting c.name) }

/-- Mounts a component where nothing is mounted, and renders it. -/
def mount (invoke : Invoke) (c : Component) (props : Json) (s : Surface) : Surface :=
  render invoke .mount (s.place invoke c props)

/-- Renders anew with other properties, unless an error is shown. -/
def update (invoke : Invoke) (props : Json) (s : Surface) : Surface :=
  if s.isCaptured then s
  else
    match s.mounted with
    | none => s
    | some mounted => render invoke .update { s with mounted := some { mounted with props } }

/-- Renders anew when state has changed since the last pass. -/
def flush (invoke : Invoke) (s : Surface) : Surface :=
  match s.mounted with
  | none => s
  | some mounted => if mounted.component.machine.hooks.dirty && !s.isCaptured then render invoke .update s else s

/-- The handler with an id and what it belongs to, where an event can reach it. -/
def handler? (id : Nat) (s : Surface) : Except DispatchError (Mounted × Value) :=
  if s.isCaptured then .error .captured
  else
    match s.mounted with
    | none => .error .notMounted
    | some mounted =>
      match mounted.handlers[id]? with
      | none => .error (.unknownHandler id)
      | some callback => .ok (mounted, callback)

/-- Calls a handler with an event. -/
def handle (invoke : Invoke) (callback : Value) (event : Json) (mounted : Mounted) :
    Mounted × Except DispatchError Unit :=
  let call : Run Unit := do
    let v ← event.toValue
    let _ ← invoke Trail.host callback [v]
  match Run.forHost call mounted.component.machine with
  | .ok _ machine => (mounted.on machine, .ok ())
  | .error e machine => (mounted.on machine, .error (.handler (Run.hostFault e).message))

/-- Calls the handler with an id, then flushes. State that was set before the handler failed counts. -/
def dispatch (invoke : Invoke) (id : Nat) (event : Json) (s : Surface) : Surface × Except DispatchError Unit :=
  match s.handler? id with
  | .error e => (s, .error e)
  | .ok (mounted, callback) =>
    let (mounted, result) := handle invoke callback event mounted
    (flush invoke { s with mounted := some mounted }, result)

/-- The host calls a function of what is mounted by itself, without an allowance. -/
def call (invoke : Invoke) (f : Value) (args : List Value) (s : Surface) : Surface × Except Fault Unit :=
  match s.mounted with
  | none => (s, .ok ())
  | some mounted =>
    match Run.across (invoke Trail.host f args) mounted.component.machine with
    | .ok _ machine => ({ s with mounted := some (mounted.on machine) }, .ok ())
    | .error e machine => ({ s with mounted := some (mounted.on machine) }, .error e)

end Surface
end LivePreview
