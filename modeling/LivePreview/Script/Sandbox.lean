import LivePreview.Script.Invoke

/-! Fresh machines: the library, the runtime under its name, and limits. -/
namespace LivePreview.Script

/-- What a script may take: bytes of heap, and milliseconds for one run. -/
structure Limits where
  memory : Nat := 8 * 1024 * 1024
  time : Nat := 250

namespace Limits

/-- The steps a script takes in a millisecond. -/
def stepsPerMillisecond : Nat := 10000

def allowance (l : Limits) : Nat := l.time * stepsPerMillisecond

end Limits

/-- What is put into the scope of a component: the name of the runtime, and whether it has the functions that
let a script report to its host. -/
structure Binding where
  name : String := "React"
  instruments : Bool := false

namespace Machine

/-- A table of functions under names. -/
def tableOf (entries : List (String × Value)) : Table := entries.foldl (fun t e => t.setName e.1 e.2) {}

def libraryTable (entries : List (String × Builtin)) : Table :=
  tableOf (entries.map fun e => (e.1, .func e.2.place))

/-- The functions of the host, at their places behind the library. -/
def hostFunctions : List (String × Func) :=
  [("useState", .hook .state), ("useReducer", .hook .reducer), ("useRef", .hook .ref), ("useMemo", .hook .memo),
    ("useCallback", .hook .callback), ("useEffect", .hook .effect), ("createElement", .createElement)]

/-- The functions with which a script reports to its host. -/
def instrumentFunctions : List (String × Func) :=
  [("log", .log), ("stash", .stash), ("callable", .callable), ("panic", .panic)]

/-- The functions of a runtime, with their places. -/
def runtimeEntries (instruments : Bool) : List (String × Value) :=
  let funcs := hostFunctions ++ if instruments then instrumentFunctions else []
  let first := Builtin.all.length
  (funcs.zipIdx first).map fun (e, place) => (e.1, .func place)

/-- The table of the runtime. -/
def runtimeTable (instruments : Bool) : Table :=
  let t := tableOf (runtimeEntries instruments)
  let t := (t.setName "useLayoutEffect" (t.getName "useEffect")).setName "Fragment" (.ofString Element.fragment)
  if instruments then t.setName "null" .null else t

def stringTable : Table :=
  libraryTable [("rep", .repeated), ("upper", .upper), ("byte", .byte), ("format", .format), ("sub", .sub)]

def mathTable : Table :=
  (libraryTable [("floor", .floor), ("max", .max)]).setName "huge" (.num (1.0 / 0.0))

def tableTable : Table := libraryTable [("concat", .concat), ("insert", .insert)]

def utf8Table : Table := libraryTable [("char", .char)]

/-- The global variables of a script; the runtime may hide one of the library. -/
def globalTable (binding : Binding) : Table :=
  let basic := libraryTable
    [("assert", .assert), ("error", .error), ("ipairs", .ipairs), ("next", .next), ("pairs", .pairs),
      ("pcall", .pcall), ("select", .select), ("tonumber", .tonumber), ("tostring", .tostring), ("type", .type),
      ("unpack", .unpack)]
  let tables := [("string", .table 1), ("math", .table 2), ("table", .table 3), ("utf8", .table 4)]
  (tables.foldl (fun t e => t.setName e.1 e.2) basic).setName binding.name (.table 5)

/-- A machine for a script with a name. -/
def fresh (chunk : String) (binding : Binding) (limits : Limits) : Machine where
  chunk
  funcs := (Builtin.all.map Func.builtin ++ (hostFunctions ++ instrumentFunctions).map (·.2)).toArray
  tables :=
    #[globalTable binding, stringTable, mathTable, tableTable, utf8Table, runtimeTable binding.instruments]
  globals := 0
  strings := 1
  allowance := limits.allowance
  capacity := limits.memory

end Machine

/-- Runs with the allowance of one run. It is over when the run ends, except by a panic of the host. -/
def budgeted (panics : ε → Bool) (r : EStateM ε Machine α) : EStateM ε Machine α := fun m =>
  match r { m with steps := some m.allowance, taken := 0 } with
  | .ok a m => .ok a { m with steps := none }
  | .error e m => .error e (if panics e then m else { m with steps := none })

/-- Whether a fault is a panic of the host. -/
def Fault.isPanic : Fault → Bool
  | .raised (.failure (.panic _)) => true
  | _ => false

namespace Run

/-- Runs a script for the host, within the allowance of one run. -/
def forHost (r : Run α) : Run α := budgeted Fault.isPanic (across r)

end Run
end LivePreview.Script
