import LivePreview.Assoc

/-! The store of hook state.

Each component instance has a key. Hooks find their slot by the order of their calls within the instance: the
frame names the instance whose body runs and counts its calls. The store knows nothing of scripts: values are of
any type, and functions are values. -/
namespace LivePreview.Hook

/-- The name of a component instance: its place in the tree and the function that renders it. -/
abbrev Key := String

/-- What a hook call keeps from one pass to the next. -/
inductive Slot (V : Type) where
  | state (value : V)
  | reducer (state reducer : V)
  | ref (cell : V)
  | memo (value : V) (deps : Option (List V))
  | effect (deps : Option (List V))

/-- An effect to run after the pass: the hook call that queued it and its function. -/
structure Effect (V : Type) where
  key : Key
  index : Nat
  callback : V

/-- The state of all instances of one component. `frame` is the instance whose body runs, with the number of its
hook calls so far; `rendered` holds the instances of the current pass; `dirty` says that state changed since the
pass began. -/
structure Store (V : Type) where
  slots : List (Key × List (Slot V)) := []
  frame : Option (Key × Nat) := none
  rendered : List Key := []
  cleanups : List ((Key × Nat) × V) := []
  pending : List (Effect V) := []
  dirty : Bool := false

namespace Store
variable {V : Type}

/-- Forgets everything and gives the cleanups that were registered. -/
def reset (s : Store V) : List V × Store V := (s.cleanups.map (·.2), {})

def beginPass (s : Store V) : Store V := { s with rendered := [], frame := none, dirty := false }

/-- The body of the instance starts. -/
def enter (s : Store V) (key : Key) : Store V :=
  { s with rendered := if s.rendered.contains key then s.rendered else key :: s.rendered, frame := some (key, 0) }

/-- The body that runs has ended. -/
def exit (s : Store V) : Store V := { s with frame := none }

/-- Forgets the instances that this pass did not render and gives their cleanups. -/
def finishPass (s : Store V) : List V × Store V :=
  let here (key : Key) : Bool := s.rendered.contains key
  ((s.cleanups.filter fun c => !here c.1.1).map (·.2),
    { s with
      slots := s.slots.filter fun e => here e.1
      pending := s.pending.filter fun e => here e.key
      cleanups := s.cleanups.filter fun c => here c.1.1 })

/-- Empties the queue of effects. -/
def takeEffects (s : Store V) : List (Effect V) × Store V := (s.pending, { s with pending := [] })

/-- Takes out the cleanup of one hook call. -/
def takeCleanup (s : Store V) (key : Key) (index : Nat) : Option V × Store V :=
  (s.cleanups.lookup (key, index), { s with cleanups := Assoc.erase (key, index) s.cleanups })

def setCleanup (s : Store V) (key : Key) (index : Nat) (cleanup : V) : Store V :=
  { s with cleanups := Assoc.insert (key, index) cleanup s.cleanups }

/-- Counts one more hook call of the body that runs; there is none outside a body. -/
def nextSlot? (s : Store V) : Option ((Key × Nat) × Store V) :=
  s.frame.map fun (key, index) => ((key, index), { s with frame := some (key, index + 1) })

/-- The slots of an instance. -/
def slotsOf (s : Store V) (key : Key) : List (Slot V) := (s.slots.lookup key).getD []

/-- What the hook call with this number keeps. -/
def slot? (s : Store V) (key : Key) (index : Nat) : Option (Slot V) := (s.slotsOf key)[index]?

/-- Keeps `slot` for a hook call. A call beyond the slots there are gets the next one. -/
def keep (s : Store V) (key : Key) (index : Nat) (slot : Slot V) : Store V :=
  let slots := s.slotsOf key
  { s with slots := Assoc.insert key (if index < slots.length then slots.set index slot else slots ++ [slot]) s.slots }

/-- Queues an effect in the place of one that the same hook call queued. -/
def queue (s : Store V) (effect : Effect V) : Store V :=
  { s with
    pending := (s.pending.filter fun e => e.key != effect.key || e.index != effect.index) ++ [effect] }

/-- Gives a state or reducer hook a new value. Nothing happens when the instance is gone or the value is the one
it has. -/
def update (same : V → V → Bool) (s : Store V) (key : Key) (index : Nat) (next : V) : Store V :=
  match s.slot? key index with
  | some (.state value) =>
    if same value next then s else { s.keep key index (.state next) with dirty := true }
  | some (.reducer value reducer) =>
    if same value next then s else { s.keep key index (.reducer next reducer) with dirty := true }
  | _ => s

end Store

/-- Whether two lists of dependencies agree. A hook without a list agrees with nothing. -/
def sameDeps {V : Type} (same : V → V → Bool) : Option (List V) → Option (List V) → Bool
  | some a, some b => a.length == b.length && (a.zip b).all fun (x, y) => same x y
  | _, _ => false

end LivePreview.Hook
