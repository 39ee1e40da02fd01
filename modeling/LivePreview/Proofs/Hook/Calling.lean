import LivePreview.Hook.Call
import LivePreview.Proofs.Assoc
import LivePreview.Proofs.Hook.Action
import LivePreview.Proofs.Script.Stable

/-! What one hook call does to the store, and what one call of a setter or dispatcher does.

The functions that a hook calls by itself are initialisers, factories, updaters and reducers. Here they run sealed
off from the hook state, as they do in any call in which they use no hook, setter or dispatcher. A hook call then
does one thing: its call is counted, and the slot with its number is filled or left as it is (`Filled`). Each hook
has one theorem that says with what. -/
namespace LivePreview.Hook
open Script

namespace Store
variable {V : Type} {s t : Store V} {key : Key} {index : Nat}

/-! ### Slots after a change -/

@[simp] theorem slot?_enter (s : Store V) (key k : Key) (i : Nat) : (s.enter key).slot? k i = s.slot? k i := rfl
@[simp] theorem slot?_exit (s : Store V) (k : Key) (i : Nat) : s.exit.slot? k i = s.slot? k i := rfl
@[simp] theorem slot?_beginPass (s : Store V) (k : Key) (i : Nat) : s.beginPass.slot? k i = s.slot? k i := rfl
@[simp] theorem slot?_takeEffects (s : Store V) (k : Key) (i : Nat) : s.takeEffects.2.slot? k i = s.slot? k i := rfl
@[simp] theorem slot?_takeCleanup (s : Store V) (key k : Key) (index i : Nat) :
    (s.takeCleanup key index).2.slot? k i = s.slot? k i := rfl
@[simp] theorem slot?_setCleanup (s : Store V) (key k : Key) (index i : Nat) (v : V) :
    (s.setCleanup key index v).slot? k i = s.slot? k i := rfl
@[simp] theorem slot?_queue (s : Store V) (e : Effect V) (k : Key) (i : Nat) :
    (s.queue e).slot? k i = s.slot? k i := rfl

theorem slotsOf_keep (s : Store V) (key : Key) (index : Nat) (slot : Slot V) (k : Key) :
    (s.keep key index slot).slotsOf k =
      if k == key then
        if index < (s.slotsOf key).length then (s.slotsOf key).set index slot else s.slotsOf key ++ [slot]
      else s.slotsOf k := by
  simp only [slotsOf, keep, Assoc.lookup_insert]
  cases k == key <;> simp

/-- A slot is kept in its place, or in the next one when it is the first beyond those there are. -/
theorem slot?_keep (hi : index ≤ (s.slotsOf key).length) (slot : Slot V) (k : Key) (i : Nat) :
    (s.keep key index slot).slot? k i = if k = key ∧ i = index then some slot else s.slot? k i := by
  unfold slot?
  rw [slotsOf_keep]
  by_cases hk : k = key
  · subst hk
    rw [beq_self_eq_true, if_pos rfl]
    by_cases hlt : index < (s.slotsOf k).length
    · rw [if_pos hlt, List.getElem?_set]
      by_cases he : i = index
      · subst he
        simp [hlt]
      · simp [he, Ne.symm he]
    · have hlen : (s.slotsOf k).length = index := by omega
      rw [if_neg hlt, List.getElem?_append, hlen]
      by_cases he : i = index
      · subst he
        simp
      · by_cases hb : i < index
        · simp [hb, he]
        · have hout : (s.slotsOf k)[i]? = none := List.getElem?_eq_none (by omega)
          have hsub : ([slot] : List (Slot V))[i - index]? = none := List.getElem?_eq_none (by simp; omega)
          simp [hb, he, hout, hsub]
  · simp [hk]

theorem slot?_finishPass (s : Store V) (k : Key) (i : Nat) :
    s.finishPass.2.slot? k i = if s.rendered.contains k then s.slot? k i else none := by
  have hlookup : s.finishPass.2.slots.lookup k = if s.rendered.contains k then s.slots.lookup k else none :=
    Assoc.lookup_filter s.rendered.contains k s.slots
  unfold slot? slotsOf
  rw [hlookup]
  split <;> simp

end Store

/-- The slot with another value, where it has one and the two are not the same. -/
def Slot.put {V : Type} (same : V → V → Bool) (next : V) : Slot V → Slot V
  | .state value => if same value next then .state value else .state next
  | .reducer value rule => if same value next then .reducer value rule else .reducer next rule
  | slot => slot

namespace Store
variable {V : Type} {s t : Store V} {key : Key} {index : Nat}

theorem length_of_slot? {slot : Slot V} (h : s.slot? key index = some slot) : index < (s.slotsOf key).length :=
  (List.getElem?_eq_some_iff.mp h).1

/-- An update changes the slot that it is for, and no other. -/
theorem slot?_update (same : V → V → Bool) (s : Store V) (key : Key) (index : Nat) (next : V) (k : Key) (i : Nat) :
    (s.update same key index next).slot? k i =
      if k = key ∧ i = index then (s.slot? k i).map (Slot.put same next) else s.slot? k i := by
  have hkeep {old new : Slot V} (h : s.slot? key index = some old) (hput : old.put same next = new) :
      (s.keep key index new).slot? k i =
        if k = key ∧ i = index then (s.slot? k i).map (Slot.put same next) else s.slot? k i := by
    rw [slot?_keep (Nat.le_of_lt (length_of_slot? h))]
    split
    case isTrue hki =>
      obtain ⟨rfl, rfl⟩ := hki
      rw [h, Option.map_some, hput]
    case isFalse => rfl
  have hsame {old : Slot V} (h : s.slot? key index = some old) (hput : old.put same next = old) :
      s.slot? k i = if k = key ∧ i = index then (s.slot? k i).map (Slot.put same next) else s.slot? k i := by
    split
    case isTrue hki =>
      obtain ⟨rfl, rfl⟩ := hki
      rw [h, Option.map_some, hput]
    case isFalse => rfl
  unfold update
  cases h : s.slot? key index with
  | none =>
    by_cases hki : k = key ∧ i = index
    · obtain ⟨rfl, rfl⟩ := hki
      simp [h]
    · simp [hki]
  | some slot =>
    cases slot with
    | state value =>
      show (if same value next then s else { s.keep key index (.state next) with dirty := true }).slot? k i = _
      cases hv : same value next with
      | true => exact hsame h (if_pos hv)
      | false => exact hkeep h (if_neg (ne_true_of_eq_false hv))
    | reducer value rule =>
      show (if same value next then s else { s.keep key index (.reducer next rule) with dirty := true }).slot? k i = _
      cases hv : same value next with
      | true => exact hsame h (if_pos hv)
      | false => exact hkeep h (if_neg (ne_true_of_eq_false hv))
    | ref _ | memo _ _ | effect _ => exact hsame h rfl

theorem frame_update (same : V → V → Bool) (s : Store V) (key : Key) (index : Nat) (next : V) :
    (s.update same key index next).frame = s.frame := by
  obtain ⟨-, hu⟩ | ⟨-, -, slot, hu⟩ := update_eq same s key index next <;> rw [hu]
  rfl

theorem rendered_update (same : V → V → Bool) (s : Store V) (key : Key) (index : Nat) (next : V) :
    (s.update same key index next).rendered = s.rendered :=
  (Act.update key index next).rendered

/-! ### What a hook call leaves -/

/-- The store with one more hook call of the body that runs. -/
def counted (s : Store V) : Store V :=
  match s.frame with
  | some (key, count) => { s with frame := some (key, count + 1) }
  | none => s

@[simp] theorem slot?_counted (s : Store V) (k : Key) (i : Nat) : s.counted.slot? k i = s.slot? k i := by
  unfold counted
  split <;> rfl

@[simp] theorem slotsOf_counted (s : Store V) (k : Key) : s.counted.slotsOf k = s.slotsOf k := by
  unfold counted
  split <;> rfl

@[simp] theorem dirty_counted (s : Store V) : s.counted.dirty = s.dirty := by
  unfold counted
  split <;> rfl

@[simp] theorem rendered_counted (s : Store V) : s.counted.rendered = s.rendered := by
  unfold counted
  split <;> rfl

theorem frame_counted (h : s.frame = some (key, index)) : s.counted.frame = some (key, index + 1) := by
  simp [counted, h]

/-- After the hook call number `index` of an instance the call is counted, its slot is `slot`, and every other slot is
as it was. -/
structure Filled (s t : Store V) (key : Key) (index : Nat) (slot : Slot V) : Prop where
  frame : t.frame = some (key, index + 1)
  slot? : ∀ k i, t.slot? k i = if k = key ∧ i = index then some slot else s.slot? k i
  dirty : t.dirty = s.dirty
  rendered : t.rendered = s.rendered

theorem Filled.kept {slot : Slot V} (hf : s.frame = some (key, index)) (h : s.slot? key index = some slot) :
    Filled s s.counted key index slot where
  frame := frame_counted hf
  slot? k i := by
    by_cases hki : k = key ∧ i = index
    · obtain ⟨rfl, rfl⟩ := hki
      simp [h]
    · simp [hki]
  dirty := by simp
  rendered := by simp

theorem Filled.keep (hf : s.frame = some (key, index)) (hi : index ≤ (s.slotsOf key).length) (slot : Slot V) :
    Filled s (s.counted.keep key index slot) key index slot where
  frame := frame_counted hf
  slot? k i := by rw [slot?_keep (by simpa using hi), slot?_counted]
  dirty := dirty_counted s
  rendered := rendered_counted s

theorem Filled.queue {slot : Slot V} (h : Filled s t key index slot) (e : Effect V) :
    Filled s (t.queue e) key index slot :=
  ⟨h.frame, h.slot?, h.dirty, h.rendered⟩

end Store

/-! ### Sealed calls -/

/-- Calls values as `invoke` does, with the hook state out of reach: what a call does to it is undone. -/
def sealed (invoke : Invoke) : Invoke := fun trail f args m =>
  match invoke trail f args m with
  | .ok vs n => .ok vs { n with hooks := m.hooks }
  | .error e n => .error e { n with hooks := m.hooks }

/-- The value that a run gives, if it ends with one. -/
def value? {α : Type} (r : Run α) (m : Machine) : Option α :=
  match r m with
  | .ok a _ => some a
  | .error _ _ => none

variable {invoke : Invoke} {trail : Trail} {args : List Value} {m n : Machine} {given : List Value}

theorem callScript_sealed (invoke : Invoke) (trail : Trail) (f : Value) (args : List Value) (m : Machine) :
    (Run.last (callScript (sealed invoke) trail f args) m).hooks = m.hooks ∧
      value? (callScript (sealed invoke) trail f args) m = value? (callScript invoke trail f args) m := by
  simp only [callScript, Run.first, Run.last, value?, Bind.bind, EStateM.bind, Run.across, sealed]
  cases invoke (none :: trail) f args m <;> exact ⟨rfl, rfl⟩

theorem callScript_ok {f v : Value} (h : callScript (sealed invoke) trail f args m = .ok v n) :
    n.hooks = m.hooks ∧ value? (callScript invoke trail f args) m = some v := by
  obtain ⟨hhooks, hvalue⟩ := callScript_sealed invoke trail f args m
  rw [last_of_ok h] at hhooks
  rw [← hvalue, value?, h]
  exact ⟨hhooks, rfl⟩

/-- The machine with one more hook call of the body that runs. -/
def counted (m : Machine) : Machine := { m with hooks := m.hooks.counted }

theorem slot?_hooks_counted (m : Machine) (key : Key) (index : Nat) :
    (counted m).hooks.slot? key index = m.hooks.slot? key index := Store.slot?_counted ..

theorem takeSlot_none (h : m.hooks.nextSlot? = none) : ∃ e, takeSlot m = .error e m := by
  rw [takeSlot, hooks_bind, h]
  exact ⟨_, rfl⟩

theorem takeSlot_some {slot : Key × Nat} {s : Store Value} (h : m.hooks.nextSlot? = some (slot, s)) :
    takeSlot m = .ok slot { m with hooks := s } := by
  rw [takeSlot, hooks_bind, h]
  rfl

theorem takeSlot_ok {slot taken : Key × Nat} (hf : m.hooks.frame = some slot) (h : takeSlot m = .ok taken n) :
    taken = slot ∧ n = counted m := by
  have hn : m.hooks.nextSlot? = some (slot, m.hooks.counted) := by simp [Store.nextSlot?, Store.counted, hf]
  rw [takeSlot_some hn] at h
  cases h
  exact ⟨rfl, rfl⟩

theorem hooks_ok {s : Store Value} (h : Run.hooks m = .ok s n) : s = m.hooks ∧ n = m := by
  cases h
  exact ⟨rfl, rfl⟩

theorem functionArgument_ok {i : Nat} {f : Value} (h : Run.functionArgument args i m = .ok f n) :
    (∃ place, f = .func place) ∧ Run.argument args i = f ∧ m = n := by
  unfold Run.functionArgument at h
  change EStateM.run _ m = _ at h
  split at h
  case h_1 place harg =>
    cases h
    exact ⟨⟨place, rfl⟩, harg, rfl⟩
  case h_2 => cases h

theorem optionalFunction_ok {i : Nat} {f? : Option Value} (h : Run.optionalFunction args i m = .ok f? n) :
    (f? = none ∧ Run.argument args i = .nil ∨ ∃ place, f? = some (.func place) ∧ Run.argument args i = .func place) ∧
      m = n := by
  unfold Run.optionalFunction at h
  split at h
  case isTrue hnil =>
    cases h
    refine ⟨.inl ⟨rfl, ?_⟩, rfl⟩
    cases harg : Run.argument args i <;> simp_all [Value.isNil]
  case isFalse =>
    rw [map_eq_pure_bind] at h
    obtain ⟨f, l, hf, h⟩ := bind_ok h
    obtain ⟨⟨place, rfl⟩, harg, rfl⟩ := functionArgument_ok hf
    cases h
    exact ⟨.inr ⟨place, rfl, harg⟩, rfl⟩

theorem dependencies_ok {v : Value} {deps : Option (List Value)} (h : dependencies v m = .ok deps n) : m = n := by
  unfold dependencies at h
  change EStateM.run _ m = _ at h
  split at h <;> cases h <;> rfl

theorem charge_ok {bytes : Nat} (h : Run.charge bytes m = .ok () n) : n.tables = m.tables ∧ n.hooks = m.hooks := by
  unfold Run.charge at h
  obtain ⟨l, m₁, hget, h⟩ := bind_ok h
  cases hget
  dsimp only at h
  split at h
  · cases h
  · cases h
    exact ⟨rfl, rfl⟩

theorem newTable_ok {t : Table} {v : Value} (h : Run.newTable t m = .ok v n) :
    v = .table m.tables.size ∧ n.hooks = m.hooks := by
  obtain ⟨_, l, hcharge, h⟩ := bind_ok h
  obtain ⟨htables, hhooks⟩ := charge_ok hcharge
  cases h
  exact ⟨by rw [htables], hhooks⟩

theorem newFunc_ok {f : Func} {v : Value} (h : Run.newFunc f m = .ok v n) :
    ∃ place, v = .func place ∧ n.funcs[place]? = some f ∧ n.hooks = m.hooks := by
  cases h
  refine ⟨m.funcs.size, rfl, ?_, rfl⟩
  show (m.funcs.push f)[m.funcs.size]? = some f
  simp

/-! ### Each hook -/

/-- What `useState` starts with: its argument, or what that gives when it is a function. -/
def initialState? (invoke : Invoke) (trail : Trail) (args : List Value) (m : Machine) : Option Value :=
  match Run.argument args 1 with
  | .func place => value? (callScript invoke trail (.func place) []) m
  | v => some v

/-- What `useReducer` starts with: its second argument, or what the third gives for it. -/
def initialReduced? (invoke : Invoke) (trail : Trail) (args : List Value) (m : Machine) : Option Value :=
  match Run.argument args 3 with
  | .func place => value? (callScript invoke trail (.func place) [Run.argument args 2]) m
  | _ => some (Run.argument args 2)

/-- What a hook gives last: its value, and a function for the slot. -/
theorem handle_ok {v : Value} {f : Func} (h : (do return [v, ← Run.newFunc f] : Run (List Value)) m = .ok given n) :
    ∃ place, given = [v, .func place] ∧ n.funcs[place]? = some f ∧ n.hooks = m.hooks := by
  obtain ⟨w, l, hw, h⟩ := bind_ok h
  obtain ⟨place, rfl, hplace, hhooks⟩ := newFunc_ok hw
  cases h
  exact ⟨place, rfl, hplace, hhooks⟩

section Each
variable {key : Key} {index : Nat}

theorem useState_ok (hf : m.hooks.frame = some (key, index)) (hi : index ≤ (m.hooks.slotsOf key).length)
    (h : useState (sealed invoke) trail args m = .ok given n) :
    ∃ v place, given = [v, .func place] ∧ n.funcs[place]? = some (.setter key index) ∧
      Store.Filled m.hooks n.hooks key index (.state v) ∧
      (m.hooks.slot? key index = some (.state v) ∨
        (∀ w, m.hooks.slot? key index ≠ some (.state w)) ∧
          initialState? invoke trail args (counted m) = some v) := by
  unfold useState at h
  obtain ⟨slot, m₁, hslot, h⟩ := bind_ok h
  obtain ⟨rfl, rfl⟩ := takeSlot_ok hf hslot
  obtain ⟨s, m₂, hs, h⟩ := bind_ok h
  obtain ⟨rfl, rfl⟩ := hooks_ok hs
  dsimp only at h
  rw [slot?_hooks_counted] at h
  have hfill {v : Value} {l : Machine} (hl : l.hooks = m.hooks.counted)
      (hv : initialState? invoke trail args (counted m) = some v)
      (hno : ∀ w, m.hooks.slot? key index ≠ some (.state w))
      (h : (do
        Run.modifyHooks fun s => s.keep key index (.state v)
        return [v, ← Run.newFunc (.setter key index)] : Run (List Value)) l = .ok given n) :
      ∃ v place, given = [v, .func place] ∧ n.funcs[place]? = some (.setter key index) ∧
        Store.Filled m.hooks n.hooks key index (.state v) ∧
        (m.hooks.slot? key index = some (.state v) ∨
          (∀ w, m.hooks.slot? key index ≠ some (.state w)) ∧
            initialState? invoke trail args (counted m) = some v) := by
    obtain ⟨place, hgiven, hplace, hhooks⟩ := handle_ok h
    refine ⟨v, place, hgiven, hplace, ?_, .inr ⟨hno, hv⟩⟩
    rw [hhooks]
    show Store.Filled m.hooks (l.hooks.keep key index (.state v)) key index (.state v)
    rw [hl]
    exact .keep hf hi _
  change EStateM.run _ (counted m) = _ at h
  split at h
  case h_1 v hv =>
    obtain ⟨place, hgiven, hplace, hhooks⟩ := handle_ok h
    refine ⟨v, place, hgiven, hplace, ?_, .inl hv⟩
    rw [hhooks]
    exact .kept hf hv
  case h_2 hno =>
    split at h
    case h_1 place harg =>
      obtain ⟨v, l, hv, h⟩ := bind_ok h
      obtain ⟨hl, hv⟩ := callScript_ok hv
      exact hfill hl (by simp [initialState?, harg, hv]) hno h
    case h_2 hnofunc =>
      refine hfill (l := counted m) rfl ?_ hno h
      unfold initialState?
      split
      case h_1 place harg => exact absurd harg (hnofunc place)
      case h_2 => rfl

theorem useReducer_ok (hf : m.hooks.frame = some (key, index)) (hi : index ≤ (m.hooks.slotsOf key).length)
    (h : useReducer (sealed invoke) trail args m = .ok given n) :
    ∃ v place, given = [v, .func place] ∧ n.funcs[place]? = some (.dispatcher key index) ∧
      Store.Filled m.hooks n.hooks key index (.reducer v (Run.argument args 1)) ∧
      ((∃ rule, m.hooks.slot? key index = some (.reducer v rule)) ∨
        (∀ w rule, m.hooks.slot? key index ≠ some (.reducer w rule)) ∧
          initialReduced? invoke trail args (counted m) = some v) := by
  unfold useReducer at h
  obtain ⟨rule, m₁, hrule, h⟩ := bind_ok h
  obtain ⟨-, rfl, rfl⟩ := functionArgument_ok hrule
  obtain ⟨start?, m₂, hstart, h⟩ := bind_ok h
  obtain ⟨hthird, rfl⟩ := optionalFunction_ok hstart
  obtain ⟨slot, m₃, hslot, h⟩ := bind_ok h
  obtain ⟨rfl, rfl⟩ := takeSlot_ok hf hslot
  obtain ⟨s, m₄, hs, h⟩ := bind_ok h
  obtain ⟨rfl, rfl⟩ := hooks_ok hs
  dsimp only at h
  rw [slot?_hooks_counted] at h
  have hfill {v : Value} {l : Machine} (hl : l.hooks = m.hooks.counted)
      (h : (do
        Run.modifyHooks fun s => s.keep key index (.reducer v (Run.argument args 1))
        return [v, ← Run.newFunc (.dispatcher key index)] : Run (List Value)) l = .ok given n) :
      ∃ place, given = [v, .func place] ∧ n.funcs[place]? = some (.dispatcher key index) ∧
        Store.Filled m.hooks n.hooks key index (.reducer v (Run.argument args 1)) := by
    obtain ⟨place, hgiven, hplace, hhooks⟩ := handle_ok h
    refine ⟨place, hgiven, hplace, ?_⟩
    rw [hhooks]
    show Store.Filled m.hooks (l.hooks.keep key index (.reducer v (Run.argument args 1))) key index _
    rw [hl]
    exact .keep hf hi _
  change EStateM.run _ (counted m) = _ at h
  split at h
  case h_1 v rule hv =>
    obtain ⟨place, hgiven, hplace, hfilled⟩ := hfill (l := counted m) rfl h
    exact ⟨v, place, hgiven, hplace, hfilled, .inl ⟨rule, hv⟩⟩
  case h_2 hno =>
    obtain ⟨rfl, harg⟩ | ⟨start, rfl, harg⟩ := hthird
    · obtain ⟨place, hgiven, hplace, hfilled⟩ := hfill (l := counted m) rfl h
      exact ⟨_, place, hgiven, hplace, hfilled, .inr ⟨hno, by simp [initialReduced?, harg]⟩⟩
    · obtain ⟨v, l, hv, h⟩ := bind_ok h
      obtain ⟨hl, hv⟩ := callScript_ok hv
      obtain ⟨place, hgiven, hplace, hfilled⟩ := hfill hl h
      exact ⟨v, place, hgiven, hplace, hfilled, .inr ⟨hno, by simp [initialReduced?, harg, hv]⟩⟩

theorem useRef_ok (hf : m.hooks.frame = some (key, index)) (hi : index ≤ (m.hooks.slotsOf key).length)
    (h : useRef args m = .ok given n) :
    ∃ v, given = [v] ∧ Store.Filled m.hooks n.hooks key index (.ref v) ∧
      (m.hooks.slot? key index = some (.ref v) ∨
        (∀ w, m.hooks.slot? key index ≠ some (.ref w)) ∧ v = .table m.tables.size) := by
  unfold useRef at h
  obtain ⟨slot, m₁, hslot, h⟩ := bind_ok h
  obtain ⟨rfl, rfl⟩ := takeSlot_ok hf hslot
  obtain ⟨s, m₂, hs, h⟩ := bind_ok h
  obtain ⟨rfl, rfl⟩ := hooks_ok hs
  rw [slot?_hooks_counted] at h
  change EStateM.run _ (counted m) = _ at h
  split at h
  case h_1 v hv =>
    cases h
    exact ⟨v, rfl, .kept hf hv, .inl hv⟩
  case h_2 hno =>
    obtain ⟨v, l, hnew, h⟩ := bind_ok h
    obtain ⟨hv, hl⟩ := newTable_ok hnew
    cases h
    refine ⟨v, rfl, ?_, .inr ⟨hno, hv⟩⟩
    show Store.Filled m.hooks (l.hooks.keep key index (.ref v)) key index (.ref v)
    rw [hl]
    exact .keep hf hi _

/-- The hooks with dependencies begin alike: with their function, their slot and the dependencies. -/
theorem watched_ok {next : Value → Key × Nat → Option (List Value) → Store Value → Run (List Value)}
    (hf : m.hooks.frame = some (key, index))
    (h : (do
      let f ← Run.functionArgument args 1
      let slot ← takeSlot
      let deps ← dependencies (Run.argument args 2)
      next f slot deps (← Run.hooks)) m = .ok given n) :
    ∃ deps, next (Run.argument args 1) (key, index) deps (counted m).hooks (counted m) = .ok given n := by
  obtain ⟨f, m₁, hfun, h⟩ := bind_ok h
  obtain ⟨-, rfl, rfl⟩ := functionArgument_ok hfun
  obtain ⟨slot, m₂, hslot, h⟩ := bind_ok h
  obtain ⟨rfl, rfl⟩ := takeSlot_ok hf hslot
  obtain ⟨deps, m₃, hdeps, h⟩ := bind_ok h
  obtain rfl := dependencies_ok hdeps
  obtain ⟨s, m₄, hs, h⟩ := bind_ok h
  obtain ⟨rfl, rfl⟩ := hooks_ok hs
  exact ⟨deps, h⟩

theorem useMemo_ok (hf : m.hooks.frame = some (key, index)) (hi : index ≤ (m.hooks.slotsOf key).length)
    (h : useMemo (sealed invoke) trail args m = .ok given n) :
    ∃ v deps, Store.Filled m.hooks n.hooks key index (.memo v deps) := by
  unfold useMemo at h
  obtain ⟨deps, h⟩ := watched_ok hf h
  dsimp only at h
  rw [slot?_hooks_counted] at h
  change EStateM.run _ (counted m) = _ at h
  split at h
  case h_1 v hkept =>
    cases h
    split at hkept
    case h_1 w previous hslot => exact ⟨w, previous, .kept hf hslot⟩
    case h_2 => cases hkept
  case h_2 =>
    obtain ⟨v, l, hv, h⟩ := bind_ok h
    obtain ⟨hl, -⟩ := callScript_ok hv
    cases h
    refine ⟨v, deps, ?_⟩
    show Store.Filled m.hooks (l.hooks.keep key index (.memo v deps)) key index (.memo v deps)
    rw [hl]
    exact .keep hf hi _

theorem useCallback_ok (hf : m.hooks.frame = some (key, index)) (hi : index ≤ (m.hooks.slotsOf key).length)
    (h : useCallback args m = .ok given n) :
    ∃ v deps, Store.Filled m.hooks n.hooks key index (.memo v deps) := by
  unfold useCallback at h
  obtain ⟨deps, h⟩ := watched_ok hf h
  dsimp only at h
  rw [slot?_hooks_counted] at h
  change EStateM.run _ (counted m) = _ at h
  split at h
  case h_1 v hkept =>
    cases h
    split at hkept
    case h_1 place previous hslot => exact ⟨.func place, previous, .kept hf hslot⟩
    case h_2 => cases hkept
  case h_2 =>
    cases h
    exact ⟨Run.argument args 1, deps, .keep hf hi _⟩

theorem useEffect_ok (hf : m.hooks.frame = some (key, index)) (hi : index ≤ (m.hooks.slotsOf key).length)
    (h : useEffect args m = .ok given n) : ∃ deps, Store.Filled m.hooks n.hooks key index (.effect deps) := by
  unfold useEffect at h
  obtain ⟨deps, h⟩ := watched_ok hf h
  dsimp only at h
  rw [slot?_hooks_counted] at h
  split at h
  case h_1 previous hslot =>
    cases hsame : sameDeps Value.equals previous deps with
    | false =>
      simp only [hsame] at h
      cases h
      exact ⟨deps, (Store.Filled.keep hf hi (.effect deps)).queue _⟩
    | true =>
      simp only [hsame] at h
      cases h
      exact ⟨previous, .kept hf hslot⟩
  case h_2 =>
    cases h
    exact ⟨deps, (Store.Filled.keep hf hi (.effect deps)).queue _⟩

end Each

/-! ### Setters and dispatchers -/

/-- What a setter sets, where the state is `v`: its argument, or what that gives for the state when it is a
function. -/
def updated? (invoke : Invoke) (trail : Trail) (args : List Value) (v : Value) (m : Machine) : Option Value :=
  match Run.argument args 1 with
  | .func place => value? (callScript invoke trail (.func place) [v]) m
  | next => some next

/-- What a dispatcher sets, where the state is `v` and the reducer `rule`. -/
def reduced? (invoke : Invoke) (trail : Trail) (args : List Value) (v rule : Value) (m : Machine) : Option Value :=
  value? (callScript invoke trail rule [v, Run.argument args 1]) m

/-- The store after an update to what was computed for it; where nothing was, because the computation failed, it is
as before. -/
def settled (s : Store Value) (key : Key) (index : Nat) (next? : Option Value) : Store Value :=
  match next? with
  | some next => s.update Value.equals key index next
  | none => s

theorem update_callScript {key : Key} {index : Nat} {f : Value} :
    (Run.last (do
        let next ← callScript (sealed invoke) trail f args
        Run.modifyHooks fun s => s.update Value.equals key index next
        return ([] : List Value)) m).hooks =
      settled m.hooks key index (value? (callScript invoke trail f args) m) := by
  obtain ⟨hhooks, hvalue⟩ := callScript_sealed invoke trail f args m
  rw [← hvalue]
  simp only [Run.last, value?, Bind.bind, EStateM.bind] at hhooks ⊢
  cases hr : callScript (sealed invoke) trail f args m with
  | ok next l =>
    rw [hr] at hhooks
    show l.hooks.update Value.equals key index next = m.hooks.update Value.equals key index next
    rw [hhooks]
  | error e l =>
    rw [hr] at hhooks
    exact hhooks

theorem setState_sealed {key : Key} {index : Nat} {v : Value} (h : m.hooks.slot? key index = some (.state v)) :
    (Run.last (setState (sealed invoke) trail key index args) m).hooks =
      settled m.hooks key index (updated? invoke trail args v m) := by
  unfold updated?
  cases harg : Run.argument args 1 with
  | func place =>
    have hrun : setState (sealed invoke) trail key index args m = (do
        let next ← callScript (sealed invoke) trail (.func place) [v]
        Run.modifyHooks fun s => s.update Value.equals key index next
        return ([] : List Value)) m := by
      simp only [setState, harg, hooks_bind, h]
    rw [Run.last, hrun]
    exact update_callScript
  | _ =>
    unfold setState
    rw [harg]
    rfl

theorem dispatch_sealed {key : Key} {index : Nat} {v rule : Value}
    (h : m.hooks.slot? key index = some (.reducer v rule)) :
    (Run.last (dispatch (sealed invoke) trail key index args) m).hooks =
      settled m.hooks key index (reduced? invoke trail args v rule m) := by
  have hrun : dispatch (sealed invoke) trail key index args m = (do
      let next ← callScript (sealed invoke) trail rule [v, Run.argument args 1]
      Run.modifyHooks fun s => s.update Value.equals key index next
      return ([] : List Value)) m := by
    rw [dispatch, hooks_bind, h]
  rw [Run.last, hrun]
  exact update_callScript

end LivePreview.Hook
