import LivePreview.Script.Argument

/-! Hook functions as component bodies call them.

A hook call takes the next slot of the instance whose body runs. What it found or made there is what it gives;
functions that change the slot later know it by key and number. -/
namespace LivePreview.Hook
open Script

/-- Calls a function of the script from a hook. -/
def callScript (invoke : Invoke) (trail : Trail) (f : Value) (args : List Value) : Run Value :=
  Run.first (invoke (none :: trail) f args)

/-- What a hook call is told outside of every body. -/
def strayCall : HostFault := .runtime "Invalid hook call: hooks can only be called inside the body of a component"

/-- The slot of this hook call. -/
def takeSlot : Run (Key × Nat) := do
  match (← Run.hooks).nextSlot? with
  | some (slot, hooks) =>
    Run.modifyHooks fun _ => hooks
    return slot
  | none => Run.fault strayCall

/-- A list of dependencies, or nothing. -/
def dependencies (v : Value) : Run (Option (List Value)) :=
  match v with
  | .nil => return none
  | .table place => do return some (← Run.readTable place).sequence
  | v => Run.fault (.runtime ("hook dependencies must be an array, got " ++ v.hostTypeName))

def useState (invoke : Invoke) (trail : Trail) (args : List Value) : Run (List Value) := do
  let (key, index) ← takeSlot
  let value ← match (← Run.hooks).slot? key index with
    | some (.state value) => pure value
    | _ => do
      let value ← match Run.argument args 1 with
        | .func place => callScript invoke trail (.func place) []
        | v => pure v
      Run.modifyHooks fun s => s.keep key index (.state value)
      pure value
  return [value, ← Run.newFunc (.setter key index)]

/-- Sets the state of a hook call. A function is given the state there is. -/
def setState (invoke : Invoke) (trail : Trail) (key : Key) (index : Nat) (args : List Value) : Run (List Value) := do
  let next ← match Run.argument args 1 with
    | .func place => do
      let previous := match (← Run.hooks).slot? key index with
        | some (.state value) => value
        | _ => .nil
      callScript invoke trail (.func place) [previous]
    | v => pure v
  Run.modifyHooks fun s => s.update Value.equals key index next
  return []

/-- The state of a reducer hook. The reducer kept is always the one of the latest pass. -/
def useReducer (invoke : Invoke) (trail : Trail) (args : List Value) : Run (List Value) := do
  let reducer ← Run.functionArgument args 1
  let start? ← Run.optionalFunction args 3
  let (key, index) ← takeSlot
  let state ← match (← Run.hooks).slot? key index with
    | some (.reducer state _) => pure state
    | _ =>
      match start? with
      | some start => callScript invoke trail start [Run.argument args 2]
      | none => pure (Run.argument args 2)
  Run.modifyHooks fun s => s.keep key index (.reducer state reducer)
  return [state, ← Run.newFunc (.dispatcher key index)]

/-- Gives an action to the reducer of a hook call. -/
def dispatch (invoke : Invoke) (trail : Trail) (key : Key) (index : Nat) (args : List Value) : Run (List Value) := do
  match (← Run.hooks).slot? key index with
  | some (.reducer state reducer) => do
    let next ← callScript invoke trail reducer [state, Run.argument args 1]
    Run.modifyHooks fun s => s.update Value.equals key index next
    return []
  | _ => return []

def useRef (args : List Value) : Run (List Value) := do
  let (key, index) ← takeSlot
  match (← Run.hooks).slot? key index with
  | some (.ref cell) => return [cell]
  | _ =>
    let cell ← Run.newTable (({} : Table).setName "current" (Run.argument args 1))
    Run.modifyHooks fun s => s.keep key index (.ref cell)
    return [cell]

def useMemo (invoke : Invoke) (trail : Trail) (args : List Value) : Run (List Value) := do
  let factory ← Run.functionArgument args 1
  let (key, index) ← takeSlot
  let deps ← dependencies (Run.argument args 2)
  let kept? : Option Value := match (← Run.hooks).slot? key index with
    | some (.memo value previous) => if sameDeps Value.equals previous deps then some value else none
    | _ => none
  match kept? with
  | some value => return [value]
  | none =>
    let value ← callScript invoke trail factory []
    Run.modifyHooks fun s => s.keep key index (.memo value deps)
    return [value]

def useCallback (args : List Value) : Run (List Value) := do
  let callback ← Run.functionArgument args 1
  let (key, index) ← takeSlot
  let deps ← dependencies (Run.argument args 2)
  let kept? : Option Value := match (← Run.hooks).slot? key index with
    | some (.memo (.func place) previous) =>
      if sameDeps Value.equals previous deps then some (.func place) else none
    | _ => none
  match kept? with
  | some value => return [value]
  | none =>
    Run.modifyHooks fun s => s.keep key index (.memo callback deps)
    return [callback]

def useEffect (args : List Value) : Run (List Value) := do
  let callback ← Run.functionArgument args 1
  let (key, index) ← takeSlot
  let deps ← dependencies (Run.argument args 2)
  let unchanged : Bool := match (← Run.hooks).slot? key index with
    | some (.effect previous) => sameDeps Value.equals previous deps
    | _ => false
  if !unchanged then
    Run.modifyHooks fun s => (s.keep key index (.effect deps)).queue ⟨key, index, callback⟩
  return []

/-- Runs a hook function. -/
def call (invoke : Invoke) (trail : Trail) (args : List Value) : HookCall → Run (List Value)
  | .state => useState invoke trail args
  | .reducer => useReducer invoke trail args
  | .ref => useRef args
  | .memo => useMemo invoke trail args
  | .callback => useCallback args
  | .effect => useEffect args

end LivePreview.Hook
