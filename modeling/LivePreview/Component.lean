import LivePreview.Script.Parser
import LivePreview.Script.Sandbox

/-! Components: scripts that have been run once and have left behind a function that renders. -/
namespace LivePreview
open Script

/-- Why a script does not make a component. -/
inductive BuildError where
  | invalidIdentifier (name : String)
  /-- The script is not well formed. -/
  | malformed
  | evaluation (fault : HostFault)
  | notCallable (name found : String)
deriving DecidableEq, Repr

def BuildError.message : BuildError → String
  | .invalidIdentifier name => "Invalid component identifier: " ++ name
  | .malformed => "Component code failed to evaluate: syntax error: the script is not well formed"
  | .evaluation fault => "Component code failed to evaluate: " ++ fault.message
  | .notCallable name found => "Component '" ++ name ++ "' is not callable (found " ++ found ++ ")"

/-- A component with the machine it lives on. -/
structure Component where
  name : String
  render : Value
  machine : Machine
deriving Inhabited

namespace Component

/-- Names that a script can return by itself. -/
def isIdentifier (name : String) : Bool :=
  match name.toList with
  | [] => false
  | c :: r => (Text.isLatin c || c == '_') && r.all Text.isPlainName

/-- The script of a component: its code and the return of its name. -/
def script (code name : String) : String := code ++ "\nreturn " ++ name

/-- Runs a script and gives what it returns. -/
def load (body : FuncBody) : Run Value := do
  Run.charge 0
  let main ← Run.newFunc (.closure body [])
  return (← invoke Trail.host main []).headD .nil

/-- The function that renders: the value itself, or a function that calls it when it is a table that can be
called. -/
def renderFunction? (v : Value) : Run (Option Value) := do
  match v with
  | .func place => return some (.func place)
  | .table place =>
    match (← Run.readTable place).call with
    | some (.func _) => some <$> Run.newFunc (.component v)
    | _ => return none
  | _ => return none

/-- The machine after the attempt to build a component, and the function that renders or why there is none. -/
structure Attempt where
  name : String
  machine : Machine
  result : Except BuildError Value

/-- Runs the code of a component on a fresh machine. -/
def attempt (binding : Binding) (limits : Limits) (code name : String) : Attempt :=
  let machine := Machine.fresh name binding limits
  if !isIdentifier name then ⟨name, machine, .error (.invalidIdentifier name)⟩
  else
    match FuncBody.ofScript? (script code name) with
    | none => ⟨name, machine, .error .malformed⟩
    | some body =>
      match Run.forHost (load body) machine with
      | .error e machine => ⟨name, machine, .error (.evaluation (Run.hostFault e))⟩
      | .ok v machine =>
        match renderFunction? v machine with
        | .ok (some render) machine => ⟨name, machine, .ok render⟩
        | .ok none machine => ⟨name, machine, .error (.notCallable name v.hostTypeName)⟩
        | .error e machine => ⟨name, machine, .error (.evaluation (Run.hostFault e))⟩

/-- The component of an attempt that succeeded. -/
def Attempt.component? (a : Attempt) : Option Component :=
  match a.result with
  | .ok render => some ⟨a.name, render, a.machine⟩
  | .error _ => none

end Component
end LivePreview
