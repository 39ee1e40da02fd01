import LivePreview.Proofs.Hook.Dependencies
import LivePreview.Proofs.Surface.Survival

/-! **Slots are aligned with hook calls, as long as these store in order.**

What a hook call keeps can be told from its own stores and updates alone (`kept`). The store knows it by its place
among the slots of the instance, and a slot beyond those there are is put behind the last one, whatever number its call
has. So from a moment on at which nothing is held for the instance, calls find what they have stored just as long as
every call before them has stored something as well (`InOrder`): until then the slots are what the calls keep, and the
first store that comes too early is not found by the call that made it. Calls are late when they have failed, or when
they still run. -/
namespace LivePreview.Hook
open Script

variable {invoke : Invoke} {trail : Trail} {args : List Value} {m n : Machine} {key : Key} {index place : Nat}
  {slot : Slot Value} {v rule next : Value}

/-! ### Hooks that find their slot, and their handles -/

theorem takeSlot_of_frame (hf : m.hooks.frame = some (key, index)) : takeSlot m = .ok (key, index) (counted m) :=
  takeSlot_some (by simp [Store.nextSlot?, Store.counted, hf])

theorem functionArgument_func {i : Nat} (h : Run.argument args i = .func place) :
    Run.functionArgument args i m = .ok (.func place) m := by
  rw [Run.functionArgument, h]
  rfl

theorem optionalFunction_some {i : Nat} (h : Run.argument args i = .nil ∨ ∃ start, Run.argument args i = .func start) :
    ∃ start?, Run.optionalFunction args i m = .ok start? m := by
  obtain h | ⟨start, h⟩ := h
  · exact ⟨none, by rw [Run.optionalFunction, h]; rfl⟩
  · refine ⟨some (.func start), ?_⟩
    rw [Run.optionalFunction, h, map_eq_pure_bind]
    exact bind_of_ok (functionArgument_func h)

theorem handle_some (v : Value) (f : Func) (m : Machine) :
    ∃ p n, (do return [v, ← Run.newFunc f] : Run (List Value)) m = .ok [v, .func p] n ∧ n.funcs[p]? = some f ∧
      n.hooks = m.hooks := by
  refine ⟨m.funcs.size, { m with funcs := m.funcs.push f }, rfl, ?_, rfl⟩
  show (m.funcs.push f)[m.funcs.size]? = _
  simp

theorem slot?_counted_of (hs : m.hooks.slot? key index = some slot) :
    (counted m).hooks.slot? key index = some slot :=
  (Store.slot?_counted ..).trans hs

theorem useState_found (hf : m.hooks.frame = some (key, index)) (hs : m.hooks.slot? key index = some (.state v)) :
    ∃ p n, useState invoke trail args m = .ok [v, .func p] n ∧ n.funcs[p]? = some (.setter key index) ∧
      n.hooks = m.hooks.counted := by
  rw [useState, bind_of_ok (takeSlot_of_frame hf)]
  dsimp only
  rw [hooks_bind, slot?_counted_of hs]
  exact handle_some v (.setter key index) (counted m)

theorem useReducer_found (hf : m.hooks.frame = some (key, index))
    (hs : m.hooks.slot? key index = some (.reducer v rule)) (hr : Run.argument args 1 = .func place)
    (hstart : Run.argument args 3 = .nil ∨ ∃ start, Run.argument args 3 = .func start) :
    ∃ p n, useReducer invoke trail args m = .ok [v, .func p] n ∧ n.funcs[p]? = some (.dispatcher key index) ∧
      n.hooks = m.hooks.counted.keep key index (.reducer v (.func place)) := by
  obtain ⟨start?, hstart⟩ := optionalFunction_some (m := m) hstart
  rw [useReducer, bind_of_ok (functionArgument_func hr), bind_of_ok hstart, bind_of_ok (takeSlot_of_frame hf)]
  dsimp only
  rw [hooks_bind, slot?_counted_of hs]
  exact handle_some v (.dispatcher key index)
    { counted m with hooks := (counted m).hooks.keep key index (.reducer v (.func place)) }

theorem useRef_found {cell : Value} (hf : m.hooks.frame = some (key, index))
    (hs : m.hooks.slot? key index = some (.ref cell)) : useRef args m = .ok [cell] (counted m) := by
  rw [useRef, bind_of_ok (takeSlot_of_frame hf)]
  dsimp only
  rw [hooks_bind, slot?_counted_of hs]
  rfl

theorem setState_value (hn : ∀ place, Run.argument args 1 ≠ .func place) :
    (Run.last (setState invoke trail key index args) m).hooks =
      m.hooks.update Value.equals key index (Run.argument args 1) := by
  unfold setState
  cases hv : Run.argument args 1
  case func place => exact absurd hv (hn place)
  all_goals rfl

theorem setState_updater (hp : Run.argument args 1 = .func place) (hs : m.hooks.slot? key index = some (.state v))
    (hc : callScript invoke trail (.func place) [v] m = .ok next n) :
    (Run.last (setState invoke trail key index args) m).hooks = n.hooks.update Value.equals key index next := by
  unfold setState
  rw [hp, Run.last]
  dsimp only
  rw [hooks_bind, hs, bind_of_ok hc]
  rfl

theorem dispatch_found (hs : m.hooks.slot? key index = some (.reducer v rule))
    (hc : callScript invoke trail rule [v, Run.argument args 1] m = .ok next n) :
    (Run.last (Hook.dispatch invoke trail key index args) m).hooks = n.hooks.update Value.equals key index next := by
  rw [Hook.dispatch, Run.last, hooks_bind, hs]
  dsimp only
  rw [bind_of_ok hc]
  rfl

theorem slot?_updated (s : Store Value) (key : Key) (index : Nat) (next : Value) :
    (s.update Value.equals key index next).slot? key index =
      (s.slot? key index).map (Slot.put Value.equals next) := by
  rw [Store.slot?_update, if_pos ⟨rfl, rfl⟩]

end LivePreview.Hook

namespace LivePreview.Surface
open Script Hook

variable {invoke : Invoke} {start s t : Store Value} {log rest : List Moment} {d : Deed} {key : Key} {index : Nat}
  {slot : Hook.Slot Value}

/-! ### What hook calls keep -/

/-- The slot that a deed stores, and the hook call that it stores it for. -/
def stored? : Deed → Option (Key × Nat × Hook.Slot Value)
  | .keep key index slot => some (key, index, slot)
  | .effect key index deps _ => some (key, index, .effect deps)
  | _ => none

/-- What a hook call keeps after one more deed. -/
def keeping (key : Key) (index : Nat) (kept? : Option (Hook.Slot Value)) (e : Moment) : Option (Hook.Slot Value) :=
  match stored? e.2 with
  | some (k, i, slot) => if key = k ∧ index = i then some slot else kept?
  | none =>
    match e.2 with
    | .update k i next => if key = k ∧ index = i then kept?.map (Slot.put Value.equals next) else kept?
    | .finishPass => if e.1.rendered.contains key then kept? else none
    | .reset => none
    | _ => kept?

/-- What a hook call keeps after what is in a log that starts with nothing held: what it has stored last since its
instance was forgotten, with the updates of its setter. -/
def kept (key : Key) (index : Nat) (log : List Moment) : Option (Hook.Slot Value) := log.foldl (keeping key index) none

theorem kept_snoc (key : Key) (index : Nat) (log : List Moment) (e : Moment) :
    kept key index (log ++ [e]) = keeping key index (kept key index log) e := by
  rw [kept, List.foldl_append]
  rfl

/-! ### Stores of an instance -/

/-- At each moment of a log at which a hook call of the instance stores a slot, `P` holds of what was before, the store
and the deed, the call and the slot. -/
def Storing (key : Key) (P : List Moment → Moment → Nat → Hook.Slot Value → Prop) (log : List Moment) : Prop :=
  ∀ before e rest index slot, log = before ++ e :: rest → stored? e.2 = some (key, index, slot) → P before e index slot

/-- Whenever a hook call stores a slot, every call before it in the body keeps one. -/
def InOrder (key : Key) : List Moment → Prop :=
  Storing key fun before _ index _ => ∀ j < index, (kept key j before).isSome = true

/-- Whatever a hook call stores is found there right after. -/
def Found (key : Key) : List Moment → Prop :=
  Storing key fun _ e index slot => (e.2.apply e.1).slot? key index = some slot

theorem storing_nil {P : List Moment → Moment → Nat → Hook.Slot Value → Prop} : Storing key P [] :=
  fun before e rest _ _ h => absurd h (by simp)

theorem storing_snoc {P : List Moment → Moment → Nat → Hook.Slot Value → Prop} {e : Moment} :
    Storing key P (log ++ [e]) ↔
      Storing key P log ∧ ∀ index slot, stored? e.2 = some (key, index, slot) → P log e index slot := by
  refine ⟨fun h => ⟨?_, fun index slot => h log e [] index slot rfl⟩, fun ⟨h, he⟩ => ?_⟩
  · rintro before f rest index slot rfl
    exact h before f (rest ++ [e]) index slot (by simp)
  · intro before f rest index slot hl hs
    rcases append_eq_cons hl with ⟨mid, rfl, rfl⟩ | ⟨mid, rfl, hr⟩
    · exact h before f mid index slot rfl hs
    · cases mid with
      | nil =>
        obtain ⟨rfl, -⟩ := List.cons.inj hr
        rw [List.append_nil]
        exact he index slot hs
      | cons g mid => exact absurd (congrArg List.length hr) (by simp)

/-! ### Slots beyond those there are -/

theorem slot?_of_stored {k : Key} {i : Nat} (hd : stored? d = some (k, i, slot)) (key : Key) (index : Nat) :
    (d.apply s).slot? key index = (s.keep k i slot).slot? key index := by
  cases d with
  | keep => cases hd; rfl
  | effect => cases hd; rfl
  | _ => cases hd

/-- **A slot is found where it was kept, unless there are too few before it.** -/
theorem slot?_keep_self : (s.keep key index slot).slot? key index = some slot ↔ index ≤ (s.slotsOf key).length := by
  constructor
  · intro h
    by_contra hi
    have hlt := Store.length_of_slot? h
    rw [Store.slotsOf_keep, beq_self_eq_true, if_pos rfl, if_neg (by omega), List.length_append, List.length_singleton]
      at hlt
    omega
  · intro hi
    rw [Store.slot?_keep hi, if_pos ⟨rfl, rfl⟩]

theorem slot?_keep_other {k : Key} (hk : key ≠ k) (i : Nat) :
    (s.keep k i slot).slot? key index = s.slot? key index := by
  rw [Store.slot?, Store.slotsOf_keep, beq_false_of_ne hk]
  rfl

theorem length_slotsOf_iff : index ≤ (s.slotsOf key).length ↔ ∀ j < index, (s.slot? key j).isSome = true := by
  have hsome (j : Nat) : (s.slot? key j).isSome = true ↔ j < (s.slotsOf key).length := by simp [Store.slot?]
  simp only [hsome]
  refine ⟨fun h j hj => by omega, fun h => ?_⟩
  cases index with
  | zero => exact Nat.zero_le _
  | succ index => exact h index (Nat.lt_succ_self index)

/-! ### Alignment -/

/-- The slots of the instance are what its hook calls keep. -/
def Aligned (key : Key) (log : List Moment) (s : Store Value) : Prop := ∀ index, s.slot? key index = kept key index log

/-- **One deed keeps the slots aligned**, when it stores nothing too early. -/
theorem Aligned.apply (h : Aligned key log s)
    (hd : ∀ index slot, stored? d = some (key, index, slot) → ∀ j < index, (kept key j log).isSome = true) :
    Aligned key (log ++ [(s, d)]) (d.apply s) := by
  intro index
  rw [kept_snoc, ← h index]
  cases hs : stored? d with
  | some stored =>
    obtain ⟨k, i, slot⟩ := stored
    rw [slot?_of_stored hs]
    by_cases hk : key = k
    · subst hk
      have hi : i ≤ (s.slotsOf key).length := length_slotsOf_iff.2 fun j hj => h j ▸ hd i slot hs j hj
      rw [Store.slot?_keep hi]
      simp [keeping, hs]
    · rw [slot?_keep_other hk]
      simp [keeping, hs, hk]
  | none =>
    cases d with
    | keep | effect => cases hs
    | call hook => exact s.slot?_counted key index
    | update k i next => exact Store.slot?_update ..
    | finishPass => exact Store.slot?_finishPass ..
    | reset => rfl
    | enter | exit | beginPass | takeEffects | takeCleanup | setCleanup | endEffects => rfl

/-- What a call stores is found just when it does not come too early. -/
theorem Aligned.found_iff (h : Aligned key log s) (hs : stored? d = some (key, index, slot)) :
    (d.apply s).slot? key index = some slot ↔ ∀ j < index, (kept key j log).isSome = true := by
  rw [slot?_of_stored hs, slot?_keep_self, length_slotsOf_iff]
  exact forall₂_congr fun j _ => by rw [h j]

theorem aligned_of_inOrder (hs : ∀ index, start.slot? key index = none) (h : Life start log s) (ho : InOrder key log) :
    Aligned key log s := by
  induction h with
  | nil => exact hs
  | @snoc log s h d hf ih =>
    obtain ⟨ho, hd⟩ := storing_snoc.1 ho
    exact (ih ho).apply hd

/-- **Stores are found just when they come in order.** -/
theorem inOrder_iff_found (hs : ∀ index, start.slot? key index = none) (h : Life start log s) :
    InOrder key log ↔ Found key log := by
  induction h with
  | nil => exact iff_of_true storing_nil storing_nil
  | @snoc log s h d hf ih =>
    constructor
    · intro ho
      obtain ⟨ho, hd⟩ := storing_snoc.1 ho
      exact storing_snoc.2 ⟨ih.1 ho, fun index slot hstored =>
        ((aligned_of_inOrder hs h ho).found_iff hstored).2 (hd index slot hstored)⟩
    · intro hfound
      obtain ⟨hfound, hd⟩ := storing_snoc.1 hfound
      have ho := ih.2 hfound
      exact storing_snoc.2 ⟨ho, fun index slot hstored =>
        ((aligned_of_inOrder hs h ho).found_iff hstored).1 (hd index slot hstored)⟩

/-! ### Hook calls and their handles -/

/-- A hook call finds what it keeps: a state, reducer or ref hook gives what it keeps, the first two with a function
that changes it. What such a function is given, or what comes of that, is set in what the call finds next. -/
structure Meets (invoke : Invoke) (key : Key) (index : Nat) (kept? : Option (Hook.Slot Value)) (s : Store Value) :
    Prop where
  found : s.slot? key index = kept?
  state : ∀ trail args m v, m.hooks = s → s.frame = some (key, index) → kept? = some (.state v) →
    ∃ place n, useState invoke trail args m = .ok [v, .func place] n ∧ n.funcs[place]? = some (.setter key index) ∧
      n.hooks = s.counted
  reducer : ∀ trail args m v rule place, m.hooks = s → s.frame = some (key, index) →
    kept? = some (.reducer v rule) → Run.argument args 1 = .func place →
    (Run.argument args 3 = .nil ∨ ∃ start, Run.argument args 3 = .func start) →
    ∃ p n, useReducer invoke trail args m = .ok [v, .func p] n ∧ n.funcs[p]? = some (.dispatcher key index) ∧
      n.hooks = s.counted.keep key index (.reducer v (.func place))
  ref : ∀ args m cell, m.hooks = s → s.frame = some (key, index) → kept? = some (.ref cell) →
    useRef args m = .ok [cell] (counted m)
  sets : ∀ trail args m, m.hooks = s → (∀ place, Run.argument args 1 ≠ .func place) →
    (Run.last (setState invoke trail key index args) m).hooks.slot? key index =
      kept?.map (Slot.put Value.equals (Run.argument args 1))
  updates : ∀ trail args m place v next n, m.hooks = s → Run.argument args 1 = .func place →
    kept? = some (.state v) → callScript invoke trail (.func place) [v] m = .ok next n →
    (Run.last (setState invoke trail key index args) m).hooks.slot? key index =
      (n.hooks.slot? key index).map (Slot.put Value.equals next)
  dispatches : ∀ trail args m v rule next n, m.hooks = s → kept? = some (.reducer v rule) →
    callScript invoke trail rule [v, Run.argument args 1] m = .ok next n →
    (Run.last (Hook.dispatch invoke trail key index args) m).hooks.slot? key index =
      (n.hooks.slot? key index).map (Slot.put Value.equals next)

theorem Aligned.meets (h : Aligned key log s) (index : Nat) : Meets invoke key index (kept key index log) s where
  found := h index
  state trail args m v hm hf hk := by
    subst hm
    exact useState_found hf ((h index).trans hk)
  reducer trail args m v rule place hm hf hk hr hstart := by
    subst hm
    exact useReducer_found hf ((h index).trans hk) hr hstart
  ref args m cell hm hf hk := by
    subst hm
    exact useRef_found hf ((h index).trans hk)
  sets trail args m hm hn := by
    subst hm
    rw [setState_value hn, slot?_updated, h index]
  updates trail args m place v next n hm hp hk hc := by
    subst hm
    rw [setState_updater hp ((h index).trans hk) hc, slot?_updated]
  dispatches trail args m v rule next n hm hk hc := by
    subst hm
    rw [dispatch_found ((h index).trans hk) hc, slot?_updated]

/-! ### Runs of operations -/

/-- **What a hook call stores is what it finds, just as long as the calls of its instance store in order**: in every
run, from each moment on at which nothing is held for the instance. -/
theorem slots_aligned_iff (hi : Recorded invoke) (limit : Nat) (order : Order) (ops : List Op) :
    ∃ log, Logged invoke limit order ops log ∧ ∀ before part rest s t, log = before ++ part ++ rest →
      Life {} before s → Life s part t → ∀ key, Absent key s →
        (InOrder key part ↔ Found key part) ∧
        (InOrder key part → ∀ index, Meets invoke key index (kept key index part) t) := by
  obtain ⟨log, hl⟩ := (Logged.nil : Logged invoke limit order [] []).exists_append hi ops
  exact ⟨log, hl, fun before part rest s t _ _ h key ha =>
    ⟨inOrder_iff_found ha.slots h, fun ho => (aligned_of_inOrder ha.slots h ho).meets⟩⟩

/-- A card with a word that a click sets. Its first hook call fails, and the body goes on. -/
def skewed : Component :=
  ((Component.attempt { instruments := true } {} ("local h = React.createElement\n" ++
    "function Card()\n" ++
    "  pcall(React.useState, function() error('no') end)\n" ++
    "  local word, set = React.useState('old')\n" ++
    "  return h('b', \x7bonClick = function() set('new') end\x7d, word)\nend") "Card").component?).getD default

/-- The card is mounted and clicked. In a body whose second call has failed, the first one has stored in order. -/
theorem slots_aligned_iff_skewed : Recorded Script.invoke ∧
    (∃ log, Logged Script.invoke 25 {} [.mount skewed (.obj []), .dispatch 0 .null] log ∧ ∀ key,
      (InOrder key log ↔ Found key log) ∧ (InOrder key log → ∀ index, Meets Script.invoke key index (kept key index log)
        (store ([.mount skewed (.obj []), .dispatch 0 .null].foldl (act Script.invoke) (fresh 25 {}))))) ∧
    ∃ log s, Life {} log s ∧ s.frame = some ("root", 2) ∧ InOrder "root" log ∧
      kept "root" 0 log = some (.state (.bool true)) := by
  refine ⟨recorded_invoke, ?_, ?_⟩
  · obtain ⟨log, hl, h⟩ := slots_aligned_iff recorded_invoke 25 {} [.mount skewed (.obj []), .dispatch 0 .null]
    exact ⟨log, hl, fun key => h [] log [] {} _ (List.append_nil log).symm .nil hl.span.1 key .empty⟩
  · have hstart : Life {} [] ({} : Store Value) := .nil
    have hcall := (hstart.snoc (.enter "root") trivial).snoc (.call .state) ⟨("root", 0), rfl⟩
    have hkeep := hcall.snoc (.keep "root" 0 (.state (.bool true)))
      ⟨_, _, .state, [], rfl, rfl, (fun _ he => by cases he), rfl, fun _ h => by cases h⟩
    refine ⟨_, _, hkeep.snoc (.call .memo) ⟨("root", 1), rfl⟩, rfl, ?_, rfl⟩
    -- Of the four deeds only the third stores, and no call is before its call.
    have hentered (e : Moment) (he : stored? e.2 = none) : InOrder "root" [e] :=
      storing_snoc.2 ⟨storing_nil, fun index slot hs => nomatch he.symm.trans hs⟩
    refine storing_snoc.2 ⟨storing_snoc.2 ⟨storing_snoc.2 ⟨hentered _ rfl, ?_⟩, ?_⟩, ?_⟩
    all_goals rintro index slot hs
    all_goals cases hs
    exact fun j hj => absurd hj (Nat.not_lt_zero j)

set_option maxRecDepth 100000 in
/-- It is not so that the setter which a hook call has given in the only pass that there was sets the state of this
call: what the call has stored stands in the place of the one before it, which has failed. -/
theorem setter_behind_failed_call : ¬ ∀ (c : Component) (props : Json) (key : Key) (index place : Nat) (v : Value),
    isRendered ([Op.mount c props].foldl (act Script.invoke) (fresh 25 {})) = true →
    (Beat.passes (beats Script.invoke (fresh 25 {}) (.mount c props))).length = 1 →
    setter? ([Op.mount c props].foldl (act Script.invoke) (fresh 25 {})) place = some (key, index) →
    (store ([Op.mount c props].foldl (act Script.invoke) (fresh 25 {}))).rendered.contains key = true →
      (store ([Op.mount c props, .call (.func place) [v]].foldl (act Script.invoke) (fresh 25 {}))).slot? key index =
          some (.state v) ∨
        ∃ w, (store ([Op.mount c props].foldl (act Script.invoke) (fresh 25 {}))).slot? key index = some (.state w) ∧
          w.equals v = true := by
  intro hall
  have h : isRendered ([Op.mount skewed (.obj [])].foldl (act Script.invoke) (fresh 25 {})) = true ∧
      (Beat.passes (beats Script.invoke (fresh 25 {}) (.mount skewed (.obj [])))).length = 1 ∧
      setter? ([Op.mount skewed (.obj [])].foldl (act Script.invoke) (fresh 25 {})) 36 = some ("root@34", 1) ∧
      (store ([Op.mount skewed (.obj [])].foldl (act Script.invoke) (fresh 25 {}))).rendered.contains "root@34" = true ∧
      ((store ([Op.mount skewed (.obj []), .call (.func 36) [.str "new".toUTF8]].foldl (act Script.invoke)
        (fresh 25 {}))).slot? "root@34" 1).isNone = true ∧
      ((store ([Op.mount skewed (.obj [])].foldl (act Script.invoke) (fresh 25 {}))).slot? "root@34" 1).isNone =
        true := by
    decide +kernel
  obtain ⟨h₁, h₂, h₃, h₄, h₅, h₆⟩ := h
  rcases hall skewed (.obj []) "root@34" 1 36 (.str "new".toUTF8) h₁ h₂ h₃ h₄ with hset | ⟨w, hw, -⟩
  · cases (Option.isNone_iff_eq_none.1 h₅).symm.trans hset
  · cases (Option.isNone_iff_eq_none.1 h₆).symm.trans hw

end LivePreview.Surface
