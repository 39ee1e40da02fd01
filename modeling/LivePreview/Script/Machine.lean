import LivePreview.Hook.Store
import LivePreview.Script.Value

/-! The machine that runs the script of one component: its heap, its hook state, what it has logged and stashed,
and what it may still spend. -/
namespace LivePreview.Script

/-- A place in a script that calls or fails. -/
structure Site where
  chunk : String
  line : Nat

/-- Who called whom, the last call first; a call from outside the script has no site. -/
abbrev Trail := List (Option Site)

/-- Why a script stops. -/
inductive Fault where
  /-- An error value, of the script's own or a fault of the host. -/
  | raised (v : Value)
  /-- The heap is full. -/
  | memory
deriving Inhabited

structure Machine where
  /-- The name of the script. -/
  chunk : String := ""
  cells : Array Value := #[]
  tables : Array Table := #[]
  funcs : Array Func := #[]
  /-- The place of the table of global variables. -/
  globals : Nat := 0
  /-- The place of the table in which methods of strings are looked up. -/
  strings : Nat := 0
  hooks : Hook.Store Value := {}
  journal : Array String := #[]
  stashed : List (String × Value) := []
  /-- How many steps one run may take. -/
  allowance : Nat := 0
  /-- The steps left of the run under way; without a limit when none is under way. -/
  steps : Option Nat := none
  /-- How many bytes the heap may take; 0 sets no limit. -/
  capacity : Nat := 0
  /-- The bytes that the run under way has taken so far. -/
  taken : Nat := 0
deriving Inhabited

/-- A computation on a machine that may stop. What was done before it stopped stays done. -/
abbrev Run := EStateM Fault Machine

/-- How a value is called: with the trail of calls that led here and the arguments. -/
abbrev Invoke := Trail → Value → List Value → Run (List Value)

namespace Run

def raise (v : Value) : Run α := throw (.raised v)

/-- Stops with a fault of the host. -/
def fault (f : HostFault) : Run α := raise (.failure f)

/-- The words that say where an error arose. -/
def position (site : Option Site) : String :=
  match site with
  | some s => s.chunk ++ ":" ++ toString s.line ++ ": "
  | none => ""

/-- Stops with an error message of the script, said to arise at a site. -/
def fail (site : Option Site) (message : String) : Run α := raise (.ofString (position site ++ message))

/-- The time of a run is over. -/
def overtime : HostFault := .runtime "script exceeded its time budget"

/-- Spends one step. When none is left, this one and every later one fails. -/
def tick : Run Unit := do
  match (← get).steps with
  | none => return
  | some 0 => fault overtime
  | some (n + 1) => modify fun m => { m with steps := some n }

/-- Bytes that every heap takes before a script runs. -/
def baseline : Nat := 50000

/-- Takes bytes of the heap. -/
def charge (bytes : Nat) : Run Unit := do
  let m ← get
  if m.capacity != 0 && m.capacity < baseline + m.taken + bytes then throw .memory
  modify fun m => { m with taken := m.taken + bytes }

/-! ### The heap -/

def newCell (v : Value) : Run Nat := do
  let place := (← get).cells.size
  modify fun m => { m with cells := m.cells.push v }
  return place

def readCell (place : Nat) : Run Value := do return (← get).cells.getD place .nil

def writeCell (place : Nat) (v : Value) : Run Unit :=
  modify fun m => { m with cells := m.cells.setIfInBounds place v }

def newTable (t : Table) : Run Value := do
  charge (64 + 16 * t.items.size + 32 * t.fields.length)
  let place := (← get).tables.size
  modify fun m => { m with tables := m.tables.push t }
  return .table place

def readTable (place : Nat) : Run Table := do return (← get).tables.getD place {}

/-- The bytes that an entry takes which makes a table grow. -/
def entrySize : Nat := 16

/-- Puts a value under a key of the table at a place. -/
def writeTable (place : Nat) (key v : Value) : Run Unit := do
  let before := ((← get).tables.getD place {}).items.size
  modify fun m => { m with tables := m.tables.modify place fun t => t.set key v }
  if before < ((← get).tables.getD place {}).items.size then charge entrySize

def newFunc (f : Func) : Run Value := do
  let place := (← get).funcs.size
  modify fun m => { m with funcs := m.funcs.push f }
  return .func place

/-- Strings below this size are not counted: those of one run are gone before they add up. -/
def smallString : Nat := 4096

def newString (s : ByteArray) : Run Value := do
  if smallString ≤ s.size then charge s.size
  return .str s

/-! ### Hook state, journal and stash -/

def hooks : Run (Hook.Store Value) := do return (← get).hooks

def modifyHooks (f : Hook.Store Value → Hook.Store Value) : Run Unit :=
  modify fun m => { m with hooks := f m.hooks }

/-- Changes the hook state and gives what the change gives. -/
def takeHooks (f : Hook.Store Value → α × Hook.Store Value) : Run α := do
  let (a, hooks) := f (← get).hooks
  modify fun m => { m with hooks }
  return a

def log (line : String) : Run Unit := modify fun m => { m with journal := m.journal.push line }

def stash (name : String) (v : Value) : Run Unit :=
  modify fun m => { m with stashed := Assoc.insert name v m.stashed }

/-! ### The border between script and host -/

/-- What a fault is to the host: an error value of the script is known to it by its text. -/
def hostFault : Fault → HostFault
  | .raised (.failure f) => f
  | .raised v => .runtime v.text
  | .memory => .memory

/-- Runs a script for the host: whatever stops it is a fault of the host from then on. -/
def across (r : Run α) : Run α := fun m =>
  match r m with
  | .ok a m => .ok a m
  | .error e m => .error (.raised (.failure (hostFault e))) m

/-- The first of the values that a call from the host gives. -/
def first (r : Run (List Value)) : Run Value := do return (← across r).headD .nil

end Run
end LivePreview.Script
