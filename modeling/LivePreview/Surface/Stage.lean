import LivePreview.Surface.Basic

/-! A surface with the components that can be mounted on it.

Components are known by their number. A component that leaves the surface keeps its machine, so that it goes on
from there when it is mounted again. -/
namespace LivePreview
open Script

structure Stage where
  components : Array Component.Attempt := #[]
  surface : Surface := {}
  /-- The number of the component that is mounted. -/
  current : Option Nat := none
  /-- The functions that scripts have stashed, with the number of their component. -/
  stash : List (String × Nat × Value) := []
  journal : Array String := #[]

/-- Why the host cannot call a stashed function, or what it threw. -/
inductive StashError where
  | notStashed
  | call (text : String)

namespace Stage

/-- A machine without its reports, which are what it has logged and stashed. -/
def drained (m : Machine) : Machine := { m with journal := #[], stashed := [] }

/-- Takes over what the machine of a component has reported. -/
def collect (s : Stage) (i : Nat) (m : Machine) : Stage :=
  { s with
    journal := s.journal ++ m.journal
    stash := m.stashed.foldl (fun stash e => Assoc.insert e.1 (i, e.2) stash) s.stash }

/-- Adds a component, built or not, with the next number. -/
def add (s : Stage) (a : Component.Attempt) : Stage :=
  let s := s.collect s.components.size a.machine
  { s with components := s.components.push { a with machine := drained a.machine } }

/-- Takes over the reports of what is mounted. -/
def listen (s : Stage) : Stage :=
  match s.current, s.surface.mounted with
  | some i, some mounted =>
    let s := s.collect i mounted.component.machine
    { s with surface := { s.surface with mounted := some (mounted.on (drained mounted.component.machine)) } }
  | _, _ => s

/-- Puts a component back that has left the surface. -/
def putBack (s : Stage) (c : Component) : Stage :=
  match s.current with
  | none => s
  | some i =>
    let s := s.collect i c.machine
    { s with
      components := s.components.modify i fun a => { a with machine := drained c.machine }
      current := none }

def unmount (invoke : Invoke) (s : Stage) : Stage :=
  match s.surface.unmount invoke with
  | (surface, some c) => { s with surface }.putBack c
  | (surface, none) => { s with surface }

/-- The component with a number, where one was built. -/
def component? (s : Stage) (i : Nat) : Option Component := (s.components[i]?).bind (·.component?)

/-- Mounts the component with a number in place of what is mounted; none when there is no such component. -/
def mount? (invoke : Invoke) (i : Nat) (props : Json) (s : Stage) : Option Stage :=
  if (s.component? i).isNone then none
  else
    let s := s.unmount invoke
    (s.component? i).map fun c =>
      { s with surface := s.surface.mount invoke c props, current := some i }.listen

def update (invoke : Invoke) (props : Json) (s : Stage) : Stage :=
  { s with surface := s.surface.update invoke props }.listen

def flush (invoke : Invoke) (s : Stage) : Stage := { s with surface := s.surface.flush invoke }.listen

def dispatch (invoke : Invoke) (id : Nat) (event : Json) (s : Stage) : Stage × Except DispatchError Unit :=
  let (surface, result) := s.surface.dispatch invoke id event
  ({ s with surface }.listen, result)

/-- The host calls a stashed function by itself, without the surface and without an allowance. -/
def callStashed (invoke : Invoke) (name : String) (args : List Value) (s : Stage) : Stage × Except StashError Unit :=
  match s.stash.lookup name with
  | none => (s, .error .notStashed)
  | some (i, f) =>
    let failed (e : Fault) : StashError := .call (Run.hostFault e).message
    if s.surface.mounted.isSome && s.current == some i then
      let (surface, result) := s.surface.call invoke f args
      ({ s with surface }.listen, result.mapError failed)
    else
      match s.components[i]? with
      | none => (s, .error .notStashed)
      | some a =>
        let (machine, result) : Machine × Except StashError Unit :=
          match Run.across (invoke Trail.host f args) a.machine with
          | .ok _ m => (m, .ok ())
          | .error e m => (m, .error (failed e))
        let s := s.collect i machine
        ({ s with components := s.components.modify i fun a => { a with machine := drained machine } }, result)

end Stage
end LivePreview
