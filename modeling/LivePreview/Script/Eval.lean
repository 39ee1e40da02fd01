import LivePreview.Script.Operation
import LivePreview.Script.Machine

/-! Evaluation of scripts, by recursion on their syntax. Every call of a value is left to an `Invoke`. -/
namespace LivePreview.Script

/-- What the body of a function runs in: how values are called, the calls that led here, the name of the script,
the extra arguments and the table of global variables. -/
structure Frame where
  invoke : Invoke
  trail : Trail
  chunk : String
  extra : List Value
  globals : Nat

/-- The cells of the variables in scope, the last one first. -/
abbrev Scope := List Nat

/-- How a statement ends: with the scope of the next one, by leaving the loop around, or by returning values. -/
inductive Flow where
  | next (scope : Scope)
  | leave
  | ret (values : List Value)

/-- The target of an assignment with its parts evaluated. -/
inductive Slot where
  | cell (place : Nat)
  | entry (line : Nat) (v key : Value)

namespace Run

/-- Repeats a step until it gives a result. -/
def iterate (step : α → Run (α ⊕ β)) : Nat → α → Run β
  | 0, _ => fault (.runtime "script exceeded its time budget")
  | fuel + 1, a => do
    match ← step a with
    | .inl a => iterate step fuel a
    | .inr b => return b

/-- More rounds than any loop takes. -/
def rounds : Nat := Nat.pow 2 60

end Run

/-- The value list with exactly `n` values: nil fills up, the rest is dropped. -/
def adjust : Nat → List Value → List Value
  | 0, _ => []
  | n + 1, [] => .nil :: adjust n []
  | n + 1, v :: vs => v :: adjust n vs

/-- New cells for values, added to a scope in order. -/
def bind (scope : Scope) : List Value → Run Scope
  | [] => return scope
  | v :: vs => do bind ((← Run.newCell v) :: scope) vs

namespace Frame
variable (f : Frame)

def fail (line : Nat) (message : String) : Run α := Run.fail (some ⟨f.chunk, line⟩) message

/-- The result of an operator, or its message as an error at a line. -/
def orFail (line : Nat) : Except String α → Run α
  | .ok a => return a
  | .error message => f.fail line message

/-- Calls a value from a line. -/
def call (line : Nat) (v : Value) (args : List Value) : Run (List Value) :=
  f.invoke (some ⟨f.chunk, line⟩ :: f.trail) v args

def index (line : Nat) (v key : Value) : Run Value := do
  match v with
  | .table place => return (← Run.readTable place).get key
  | .str _ => return (← Run.readTable (← get).strings).get key
  | v => f.fail line (v.indexMessage key)

/-- The method of a value with a name. -/
def findMethod (line : Nat) (v : Value) (name : ByteArray) : Run Value := do
  let m ← f.index line v (.str name)
  if m.isNil then
    f.fail line ("attempt to call missing method '" ++ Text.decodeLossy name ++ "' of " ++ v.typeName)
  return m

def setIndex (line : Nat) (v key new : Value) : Run Unit := do
  match v with
  | .table place =>
    match key.keyComplaint? with
    | some message => f.fail line message
    | none => Run.writeTable place key new
  | v => f.fail line (v.indexMessage key)

def binary (line : Nat) (op : BinaryOp) (a b : Value) : Run Value := do
  match op with
  | .concat =>
    let s ← f.orFail line (a.concatenate b)
    Run.newString s
  | .eq => return .bool (a.same b)
  | .ne => return .bool (!a.same b)
  | .lt => return .bool (← f.orFail line (a.less false b))
  | .le => return .bool (← f.orFail line (a.less true b))
  | .gt => return .bool (← f.orFail line (b.less false a))
  | .ge => return .bool (← f.orFail line (b.less true a))
  | op => f.orFail line (a.arithmetic op b)

def unary (line : Nat) (op : UnaryOp) (a : Value) : Run Value := do
  match op with
  | .not => return .bool !a.isTrue
  | .neg => f.orFail line a.negate
  | .len =>
    match a with
    | .str s => return .ofNat s.size
    | .table place => return .ofNat (← Run.readTable place).length
    | a => f.fail line ("attempt to get length of a " ++ a.typeName ++ " value")

/-- A number that bounds a loop. -/
def loopNumber (line : Nat) (what : String) (v : Value) : Run Float :=
  match v.asNumber? with
  | some x => return x
  | none => f.fail line ("invalid 'for' " ++ what ++ " (number expected, got " ++ v.typeName ++ ")")

/-- The next values of an iterator with its state and what it gave last. -/
def advance (line : Nat) (iterator state last : Value) : Run (List Value) := do
  match iterator with
  | .table place =>
    let t ← Run.readTable place
    if t.call.isSome then f.call line iterator [state, last]
    else
      Run.tick
      match t.entryAfter? last with
      | some (some (k, v)) => return [k, v]
      | _ => return []
  | .func _ => f.call line iterator [state, last]
  | v => f.fail line ("attempt to iterate over a " ++ v.typeName ++ " value")

/-- The table of a constructor: its items in order, and pairs at other keys. -/
def construct (items : List Value) (pairs : List (Value × Value)) : Run Value := do
  let t := Table.ofSequence items
  let isItem (key : Value) : Bool := match Table.place? key with
    | some i => i < items.length
    | none => false
  Run.newTable (pairs.foldl (fun t e => if isItem e.1 then t else t.set e.1 e.2) t)

def put (slot : Slot) (v : Value) : Run Unit :=
  match slot with
  | .cell place => Run.writeCell place v
  | .entry line t key => f.setIndex line t key v

def putAll : List Slot → List Value → Run Unit
  | slot :: slots, v :: vs => do
    f.put slot v
    putAll slots vs
  | _, _ => return ()

mutual

/-- The value of an expression, the first one where there are many. -/
def eval (scope : Scope) : Expr → Run Value
  | .nil => return .nil
  | .bool b => return .bool b
  | .num x => return .num x
  | .str s => return .str s
  | .extra => return f.extra.headD .nil
  | .var i => Run.readCell (scope.getD i 0)
  | .global name => do return (← Run.readTable f.globals).get (.str name)
  | .func body => Run.newFunc (.closure body scope)
  | .index line e key => do
    let v ← eval scope e
    let k ← eval scope key
    f.index line v k
  | .call line e args => do
    let v ← eval scope e
    let vs ← evalList scope args
    return (← f.call line v vs).headD .nil
  | .method line e name args => do
    let v ← eval scope e
    let m ← f.findMethod line v name
    let vs ← evalList scope args
    return (← f.call line m (v :: vs)).headD .nil
  | .binary line op a b => do
    let v ← eval scope a
    let w ← eval scope b
    f.binary line op v w
  | .unary line op a => do f.unary line op (← eval scope a)
  | .and a b => do
    let v ← eval scope a
    if v.isTrue then eval scope b else return v
  | .or a b => do
    let v ← eval scope a
    if v.isTrue then return v else eval scope b
  | .paren e => eval scope e
  | .table fields => do
    let (items, pairs) ← evalFields scope fields
    construct items pairs

/-- All values of an expression that may have any number of them. -/
def evalOpen (scope : Scope) : Expr → Run (List Value)
  | .extra => return f.extra
  | .call line e args => do
    let v ← eval scope e
    let vs ← evalList scope args
    f.call line v vs
  | .method line e name args => do
    let v ← eval scope e
    let m ← f.findMethod line v name
    let vs ← evalList scope args
    f.call line m (v :: vs)
  | _ => return []

/-- The values of expressions: one of each, and all of the last one. -/
def evalList (scope : Scope) : List Expr → Run (List Value)
  | [] => return []
  | [e] => if e.isOpen then evalOpen scope e else do return [← eval scope e]
  | e :: es => do
    let v ← eval scope e
    return v :: (← evalList scope es)

/-- The items and the pairs of a table constructor. -/
def evalFields (scope : Scope) : List Field → Run (List Value × List (Value × Value))
  | [] => return ([], [])
  | [.item e] => do
    if e.isOpen then return (← evalOpen scope e, []) else return ([← eval scope e], [])
  | .item e :: r => do
    let v ← eval scope e
    let (items, pairs) ← evalFields scope r
    return (v :: items, pairs)
  | .pair line key value :: r => do
    let k ← eval scope key
    let v ← eval scope value
    match k.keyComplaint? with
    | some message => f.fail line message
    | none =>
      let (items, pairs) ← evalFields scope r
      return (items, (k, v) :: pairs)

def target (scope : Scope) : Target → Run Slot
  | .var i => return .cell (scope.getD i 0)
  | .global name => return .entry 0 (.table f.globals) (.str name)
  | .index line e key => do
    let v ← eval scope e
    let k ← eval scope key
    return .entry line v k

def targets (scope : Scope) : List Target → Run (List Slot)
  | [] => return []
  | t :: ts => do
    let slot ← target scope t
    return slot :: (← targets scope ts)

def exec (scope : Scope) : Stat → Run Flow
  | .locals count values => do
    let vs ← evalList scope values
    return .next (← bind scope (adjust count vs))
  | .localFunc body => do
    let cell ← Run.newCell .nil
    Run.writeCell cell (← Run.newFunc (.closure body (cell :: scope)))
    return .next (cell :: scope)
  | .assign ts values => do
    let slots ← targets scope ts
    let vs ← evalList scope values
    f.putAll slots (adjust slots.length vs)
    return .next scope
  | .eval e => do
    let _ ← eval scope e
    return .next scope
  | .block body => do
    match ← execAll scope body with
    | .next _ => return .next scope
    | flow => return flow
  | .ite cond yes no => do
    let flow ← if (← eval scope cond).isTrue then execAll scope yes else execAll scope no
    match flow with
    | .next _ => return .next scope
    | flow => return flow
  | .loop cond body =>
    Run.iterate (fun () => do
      if !(← eval scope cond).isTrue then return .inr (.next scope)
      match ← execAll scope body with
      | .next _ =>
        Run.tick
        return .inl ()
      | .leave => return .inr (.next scope)
      | .ret vs => return .inr (.ret vs)) Run.rounds ()
  | .forNum line start limit step body => do
    let v ← eval scope start
    let w ← eval scope limit
    let u ← eval scope step
    let start ← f.loopNumber line "initial value" v
    let limit ← f.loopNumber line "limit" w
    let step ← f.loopNumber line "step" u
    Run.iterate (fun (x : Float) => do
      if !(if 0 < step then x ≤ limit else limit ≤ x) then return .inr (.next scope)
      let cell ← Run.newCell (.num x)
      match ← execAll (cell :: scope) body with
      | .next _ =>
        Run.tick
        return .inl (x + step)
      | .leave => return .inr (.next scope)
      | .ret vs => return .inr (.ret vs)) Run.rounds start
  | .forEach line count values body => do
    let vs ← evalList scope values
    let iterator := vs.getD 0 .nil
    let state := vs.getD 1 .nil
    Run.iterate (fun (last : Value) => do
      let found ← f.advance line iterator state last
      let first := found.headD .nil
      if first.isNil then return .inr (.next scope)
      let inner ← bind scope (adjust count found)
      match ← execAll inner body with
      | .next _ => return .inl first
      | .leave => return .inr (.next scope)
      | .ret vs => return .inr (.ret vs)) Run.rounds (vs.getD 2 .nil)
  | .ret values => do return .ret (← evalList scope values)
  | .leave => return .leave

def execAll (scope : Scope) : List Stat → Run Flow
  | [] => return .next scope
  | s :: ss => do
    match ← exec scope s with
    | .next scope => execAll scope ss
    | flow => return flow

end

/-- Runs the body of a function with arguments. -/
def enter (scope : Scope) (params : Nat) (body : List Stat) (args : List Value) : Run (List Value) := do
  let scope ← bind scope (adjust params args)
  let flow ← f.execAll scope body
  Run.tick
  match flow with
  | .ret vs => return vs
  | _ => return []

end Frame
end LivePreview.Script
