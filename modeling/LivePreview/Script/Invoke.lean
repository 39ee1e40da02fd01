import LivePreview.Element
import LivePreview.Hook.Call
import LivePreview.Script.Eval
import LivePreview.Script.Library

/-! Calls of values: the one place where scripts, the standard library and the functions of the host meet. -/
namespace LivePreview.Script

/-- The trail of a call that the host makes. -/
def Trail.host : Trail := [none]

/-- Calls nest at most this deep. -/
def callDepth : Nat := 20000

/-- How a hook function is run, given how values are called. -/
abbrev HookRunner := Invoke → Trail → List Value → HookCall → Run (List Value)

/-- Calls a value, with hook functions run in a given way, when this is how values are called in turn. -/
def callBy (runHook : HookRunner) (invoke : Invoke) (trail : Trail) (v : Value) (args : List Value) :
    Run (List Value) := do
  let m ← get
  match v with
  | .func place =>
    match m.funcs[place]? with
    | none => return []
    | some func =>
      match func with
      | .closure (.mk params variadic body) scope =>
        let frame : Frame :=
          { invoke, trail, chunk := m.chunk, extra := if variadic then args.drop params else [], globals := m.globals }
        frame.enter scope params body args
      | .builtin b => LibraryCall.run ⟨b, trail, args⟩ invoke
      | .hook h => runHook invoke trail args h
      | .setter key index => Hook.setState invoke trail key index args
      | .dispatcher key index => Hook.dispatch invoke trail key index args
      | .createElement => Element.create args
      | .component target => do
        Run.tick
        let vs ← invoke (some ⟨"callable", 1⟩ :: trail) target [args.headD .nil]
        Run.tick
        return vs
      | .behind target => return [← Hook.callScript invoke trail target (args.drop 1)]
      | .log => do
        Run.log (← Run.textArgument args 1)
        return []
      | .stash => do
        let name ← Run.textArgument args 1
        Run.stash name (← Run.functionArgument args 2)
        return []
      | .callable => do
        let target := args.headD .nil
        let call ← match target with
          | .func _ => Run.newFunc (.behind target)
          | v => pure v
        return [← Run.newTable { call := some call }]
      | .panic => do
        Run.fault (.panic (← Run.textArgument args 1))
  | .table place =>
    match (m.tables.getD place {}).call with
    | some (.func handler) => invoke trail (.func handler) (v :: args)
    | _ => Run.fail (trail.headD none) v.callMessage
  | v => Run.fail (trail.headD none) v.callMessage

/-- Calls a value, with at most so many calls inside one another. Every call takes a step, whether a script or the host
makes it. -/
def invokeBy (runHook : HookRunner) : Nat → Invoke
  | 0, trail, _, _ => Run.fail (trail.headD none) "stack overflow"
  | depth + 1, trail, v, args => do
    Run.tick
    callBy runHook (invokeBy runHook depth) trail v args

def invokeWithin : Nat → Invoke := invokeBy Hook.call

def invoke : Invoke := invokeWithin callDepth

end LivePreview.Script
