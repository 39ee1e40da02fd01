import LivePreview.Proofs.Hook.Calling

/-! Hook state as cells, one for each hook call of each instance.

A run is a log of passes, hook calls and updates together with what the store makes of them. `Allowed` says what is
asked of the log: hook calls follow the plan of their instance, updates come from functions that a hook has given,
and a pass that is finished has rendered every instance. `Plays` says what the store makes of an event. The
cell of a hook call is computed from the log alone, and from no event but its own calls and updates. -/
namespace LivePreview.Hook
open Script

/-- What a state, reducer or ref hook holds. -/
inductive Cell where
  | state (value : Value)
  | reducer (value rule : Value)
  | ref (table : Value)

namespace Cell

def value : Cell → Value
  | state v | reducer v _ | ref v => v

def set (next : Value) : Cell → Cell
  | state _ => state next
  | reducer _ rule => reducer next rule
  | ref t => ref t

end Cell

namespace Slot

/-- The cell in a slot; memos and effects have none. -/
def cell? : Slot Value → Option Cell
  | state v => some (.state v)
  | reducer v rule => some (.reducer v rule)
  | ref t => some (.ref t)
  | memo _ _ | effect _ => none

/-- Whether a hook fills slots of this kind. -/
def Of : Slot Value → HookCall → Prop
  | state _, .state | reducer _ _, .reducer | ref _, .ref => True
  | memo _ _, .memo | memo _ _, .callback | effect _, .effect => True
  | _, _ => False

theorem Of.state {slot : Slot Value} (h : slot.Of .state) : ∃ v, slot = Slot.state v := by
  cases slot with
  | state v => exact ⟨v, rfl⟩
  | _ => exact h.elim

theorem Of.reducer {slot : Slot Value} (h : slot.Of .reducer) : ∃ v rule, slot = Slot.reducer v rule := by
  cases slot with
  | reducer v rule => exact ⟨v, rule, rfl⟩
  | _ => exact h.elim

theorem Of.ref {slot : Slot Value} (h : slot.Of .ref) : ∃ t, slot = Slot.ref t := by
  cases slot with
  | ref t => exact ⟨t, rfl⟩
  | _ => exact h.elim

/-- Hooks without a cell fill slots without one. -/
theorem Of.cell? {slot : Slot Value} {hook : HookCall} (h : slot.Of hook)
    (hh : hook = .memo ∨ hook = .callback ∨ hook = .effect) : slot.cell? = none := by
  obtain rfl | rfl | rfl := hh <;> cases slot <;> first | rfl | exact h.elim

end Slot

/-- A hook call of the body of `key`, the `index`-th there, with the machine that it started from, what it gave and
the machine that it left. -/
structure Call where
  key : Key
  index : Nat
  hook : HookCall
  trail : Trail
  args : List Value
  machine : Machine
  given : List Value
  last : Machine

/-- The two kinds of functions that hooks give for changing their state. -/
inductive Handle where
  | setter
  | dispatcher

def Handle.hook : Handle → HookCall
  | setter => .state
  | dispatcher => .reducer

/-- A call of the setter or dispatcher of a hook. -/
structure Update where
  key : Key
  index : Nat
  handle : Handle
  trail : Trail
  args : List Value
  machine : Machine

inductive Event where
  | beginPass
  | enter (key : Key)
  | exit
  | finishPass
  | takeEffects
  | takeCleanup (key : Key) (index : Nat)
  | setCleanup (key : Key) (index : Nat) (cleanup : Value)
  | call (c : Call)
  | update (u : Update)

/-! ### Cells -/

/-- The value that a hook keeps of the one it holds and the next: of two that are equal, the old. -/
def settle (old next : Value) : Value := if old.equals next then old else next

namespace Call

/-- The cell of a hook after a call. The first call makes it, and a later one only brings the latest reducer. -/
def fill (invoke : Invoke) (c : Call) : Option Cell → Option Cell
  | none =>
    match c.hook with
    | .state => (initialState? invoke c.trail c.args (counted c.machine)).map .state
    | .reducer =>
      (initialReduced? invoke c.trail c.args (counted c.machine)).map fun v => .reducer v (Run.argument c.args 1)
    | .ref => some (.ref (.table c.machine.tables.size))
    | _ => none
  | some (.reducer v _) => some (.reducer v (Run.argument c.args 1))
  | some cell => some cell

/-- A call gives what its cell holds, and with a state or reducer the function that changes it. -/
def Gives (c : Call) (cell? : Option Cell) : Prop :=
  match c.hook with
  | .state => ∃ v place, cell? = some (.state v) ∧ c.given = [v, .func place] ∧
      c.last.funcs[place]? = some (.setter c.key c.index)
  | .reducer => ∃ v place, cell? = some (.reducer v (Run.argument c.args 1)) ∧ c.given = [v, .func place] ∧
      c.last.funcs[place]? = some (.dispatcher c.key c.index)
  | .ref => ∃ t, cell? = some (.ref t) ∧ c.given = [t]
  | _ => True

end Call

namespace Update

def run (invoke : Invoke) (u : Update) : Run (List Value) :=
  match u.handle with
  | .setter => setState invoke u.trail u.key u.index u.args
  | .dispatcher => dispatch invoke u.trail u.key u.index u.args

/-- The store after an update, also after one that has failed. -/
def after (invoke : Invoke) (u : Update) : Store Value := (Run.last (u.run invoke) u.machine).hooks

/-- What an update sets a cell to, unless its updater or reducer fails. -/
def next? (invoke : Invoke) (u : Update) : Cell → Option Value
  | .state v =>
    match u.handle with
    | .setter => updated? invoke u.trail u.args v u.machine
    | .dispatcher => none
  | .reducer v rule =>
    match u.handle with
    | .setter => none
    | .dispatcher => reduced? invoke u.trail u.args v rule u.machine
  | .ref _ => none

/-- The cell of a hook after an update through it. -/
def apply (settle : Value → Value → Value) (invoke : Invoke) (u : Update) (cell : Cell) : Cell :=
  match u.next? invoke cell with
  | some next => cell.set (settle cell.value next)
  | none => cell

/-- An update gives its hook another value than the one it holds. -/
def Changes (invoke : Invoke) (u : Update) (cell? : Option Cell) : Prop :=
  ∃ cell next, cell? = some cell ∧ u.next? invoke cell = some next ∧ cell.value.equals next = false

end Update

/-- What an event does to the cell of one hook call: nothing, unless it is a call or an update of that hook. -/
def Event.apply (settle : Value → Value → Value) (invoke : Invoke) (key : Key) (index : Nat) (e : Event)
    (cell? : Option Cell) : Option Cell :=
  match e with
  | .call c => if key = c.key ∧ index = c.index then c.fill invoke cell? else cell?
  | .update u => if key = u.key ∧ index = u.index then cell?.map (u.apply settle invoke) else cell?
  | _ => cell?

/-- The cell of one hook call after all events of a log. -/
def cell (settle : Value → Value → Value) (invoke : Invoke) (key : Key) (index : Nat) (log : List Event) :
    Option Cell :=
  log.foldl (fun cell? e => e.apply settle invoke key index cell?) none

/-! ### Runs -/

/-- The instance whose body runs at the end of a log, with the number of its hook calls so far. -/
def cursor (log : List Event) : Option (Key × Nat) :=
  log.foldl (fun at? e =>
    match e with
    | .enter key => some (key, 0)
    | .beginPass | .exit => none
    | .call _ => at?.map fun (key, count) => (key, count + 1)
    | _ => at?) none

/-- The instances that the pass at the end of a log has rendered so far. -/
def drawn (log : List Event) : List Key :=
  log.foldl (fun keys e =>
    match e with
    | .beginPass => []
    | .enter key => key :: keys
    | _ => keys) []

/-- What may come next in a log. No function that a hook, setter or dispatcher calls reaches the hook state, so that
the same comes of it when it is sealed. -/
def Allowed (invoke : Invoke) (plan : Key → Nat → HookCall) (log : List Event) : Event → Prop
  | .finishPass => ∀ c, .call c ∈ log → c.key ∈ drawn log
  | .call c => cursor log = some (c.key, c.index) ∧ c.hook = plan c.key c.index ∧
      Hook.call (sealed invoke) c.trail c.args c.hook c.machine = Hook.call invoke c.trail c.args c.hook c.machine
  | .update u => (∃ c, .call c ∈ log ∧ c.key = u.key ∧ c.index = u.index ∧ c.hook = u.handle.hook) ∧
      u.run (sealed invoke) u.machine = u.run invoke u.machine
  | _ => True

/-- What the store makes of an event. -/
inductive Plays (invoke : Invoke) (s : Store Value) : Event → Store Value → Prop
  | beginPass : Plays invoke s .beginPass s.beginPass
  | enter (key) : Plays invoke s (.enter key) (s.enter key)
  | exit : Plays invoke s .exit s.exit
  | finishPass : Plays invoke s .finishPass s.finishPass.2
  | takeEffects : Plays invoke s .takeEffects s.takeEffects.2
  | takeCleanup (key index) : Plays invoke s (.takeCleanup key index) (s.takeCleanup key index).2
  | setCleanup (key index v) : Plays invoke s (.setCleanup key index v) (s.setCleanup key index v)
  | call (c : Call) (hm : c.machine.hooks = s)
      (hr : Hook.call invoke c.trail c.args c.hook c.machine = .ok c.given c.last) :
      Plays invoke s (.call c) c.last.hooks
  | update (u : Update) (hm : u.machine.hooks = s) : Plays invoke s (.update u) (u.after invoke)

/-- Logs whose events are allowed, with the store that they lead to. -/
inductive Runs (invoke : Invoke) (plan : Key → Nat → HookCall) : List Event → Store Value → Prop
  | nil : Runs invoke plan [] {}
  | snoc {log s e t} (h : Runs invoke plan log s) (ha : Allowed invoke plan log e) (hp : Plays invoke s e t) :
      Runs invoke plan (log ++ [e]) t

/-- Since the last pass began, an update gave its hook another value than the one it held. -/
def Dirtied (invoke : Invoke) (log : List Event) : Prop :=
  ∃ before u after, log = before ++ .update u :: after ∧ .beginPass ∉ after ∧
    u.Changes invoke (cell settle invoke u.key u.index before)

variable {invoke : Invoke} {plan : Key → Nat → HookCall} {log : List Event} {s t : Store Value} {e : Event}

theorem cell_snoc (f : Value → Value → Value) (key : Key) (index : Nat) :
    cell f invoke key index (log ++ [e]) = e.apply f invoke key index (cell f invoke key index log) := by
  simp [cell]

theorem dirtied_snoc :
    Dirtied invoke (log ++ [e]) ↔ e ≠ .beginPass ∧ Dirtied invoke log ∨
      ∃ u, e = .update u ∧ u.Changes invoke (cell settle invoke u.key u.index log) := by
  constructor
  · rintro ⟨before, u, after, hlog, hpass, hchanges⟩
    obtain rfl | ⟨rest, last, rfl⟩ := List.eq_nil_or_concat after
    · obtain ⟨rfl, he⟩ := List.append_inj' hlog rfl
      exact .inr ⟨u, (List.cons.inj he).1, hchanges⟩
    · rw [List.concat_eq_append, ← List.cons_append, ← List.append_assoc] at hlog
      obtain ⟨rfl, he⟩ := List.append_inj' hlog rfl
      obtain ⟨rfl, -⟩ := List.cons.inj he
      refine .inl ⟨?_, before, u, rest, rfl, ?_, hchanges⟩
      · rintro rfl
        exact hpass (by simp)
      · exact fun h => hpass (by simp [h])
  · rintro (⟨he, before, u, after, rfl, hpass, hchanges⟩ | ⟨u, rfl, hchanges⟩)
    · exact ⟨before, u, after ++ [e], by simp, by simp [hpass, he.symm], hchanges⟩
    · exact ⟨log, u, [], by simp, by simp, hchanges⟩

/-- A table that a ref holds once it holds for good. -/
theorem cell_ref {key : Key} {index : Nat} {t : Value} (f : Value → Value → Value) (more : List Event)
    (h : cell f invoke key index log = some (.ref t)) : cell f invoke key index (log ++ more) = some (.ref t) := by
  induction more generalizing log with
  | nil => rwa [List.append_nil]
  | cons e more ih =>
    rw [List.append_cons]
    refine ih ?_
    rw [cell_snoc, h]
    cases e with
    | call c => simp [Event.apply, Call.fill]
    | update u => simp [Event.apply, Update.apply, Update.next?]
    | _ => rfl

end LivePreview.Hook
