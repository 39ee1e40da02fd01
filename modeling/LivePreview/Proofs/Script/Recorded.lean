import LivePreview.Proofs.Hook.Life

/-! **Whatever a script does is in the log.**

A call of a value from a store with a log leaves a store whose log is longer, by deeds that scripts do. As in
`Faithful` the induction is on how deep calls may nest, but what a hook call keeps is said here with what the call has
found, so that it cannot be taken apart into acts: each hook function is followed from the call that is counted to the
slot that it keeps. -/
namespace LivePreview.Script
open Hook
variable {start : Store Value} {log : List Moment} {α : Type}

/-- Whatever value is called, what is done to the store is in its log. -/
def Recorded (invoke : Invoke) : Prop :=
  ∀ start log trail v args, Stable (Grown Deed.Scripted start log) (invoke trail v args)

/-- Scripts act where other deeds are allowed too. -/
theorem Recorded.stable {invoke : Invoke} (hi : Recorded invoke) {Q : Deed → Prop} (hQ : ∀ d, d.Scripted → Q d)
    (trail : Trail) (v : Value) (args : List Value) : Stable (Grown Q start log) (invoke trail v args) := by
  refine ⟨fun m ⟨rest, hr, h⟩ => ?_⟩
  exact (((hi start (log ++ rest) trail v args).keep m (.refl h)).imp hQ).after hr

/-! ### What is recorded is acts -/

theorem acted_of_deed {s : Store Value} {d : Deed} (h : Life start log s) (hf : Fits log s d) (hd : d.Scripted) :
    Store.Acted Value.equals s (d.apply s) := by
  cases d with
  | call hook =>
    obtain ⟨slot, hs⟩ := hf
    have hn : s.nextSlot? = some (slot, s.counted) := by simp [Store.nextSlot?, Store.counted, hs]
    exact .single ⟨false, .next hn⟩
  | keep key index slot => exact .single ⟨false, .keep slot (h.keeps hf)⟩
  | effect key index deps callback =>
    have hk : Store.Act Value.equals false s (s.keep key index (.effect deps)) := .keep _ (h.queues hf)
    exact .tail (.single ⟨false, hk⟩) ⟨false, .queue (e := ⟨key, index, callback⟩) (hk.isCalling (h.queues hf))⟩
  | update key index next => exact .single ⟨_, .update key index next⟩
  | _ => exact hd.elim

theorem acted_of_life {s t : Store Value} {rest : List Moment} (hs : Life start log s)
    (h : Life start (log ++ rest) t) (hr : ∀ e ∈ rest, e.2.Scripted) : Store.Acted Value.equals s t := by
  induction rest using List.reverseRecOn generalizing t with
  | nil =>
    rw [List.append_nil] at h
    exact hs.unique h ▸ .refl
  | append_singleton rest e ih =>
    rw [← List.append_assoc] at h
    obtain ⟨hl, hf, ht⟩ := h.last
    rw [ht]
    exact (ih hl fun d hd => hr d (List.mem_append_left _ hd)).trans (acted_of_deed hl hf (hr e (by simp)))

theorem Recorded.scripted {invoke : Invoke} (hi : Recorded invoke) : Scripted invoke := by
  intro trail v args m
  obtain ⟨rest, hr, h⟩ := (hi m.hooks [] trail v args).keep m (.refl .nil)
  exact acted_of_life .nil h hr

/-! ### Hook functions -/

/-- A hook call of this slot has just been counted. -/
structure Counted (start : Store Value) (hook : HookCall) (slot : Key × Nat) (log : List Moment) (m : Machine)
    (u : Store Value) : Prop where
  life : Life start (log ++ [(u, .call hook)]) m.hooks
  frame : u.frame = some slot
  hooks : m.hooks = u.counted

namespace Counted
variable {hook : HookCall} {slot : Key × Nat} {m : Machine} {u : Store Value}

theorem slot? (h : Counted start hook slot log m u) (key : Key) (index : Nat) :
    m.hooks.slot? key index = u.slot? key index := by
  rw [h.hooks, Store.slot?_counted]

/-- The call keeps its slot after whatever scripts it has called. -/
theorem keep (h : Counted start hook slot log m u) (kept : Hook.Slot Value)
    (hs : ∀ now, Suits hook (u.slot? slot.1 slot.2) now kept) :
    Stable (Grown Deed.Scripted start (log ++ [(u, .call hook)]))
      (Run.modifyHooks fun s => s.keep slot.1 slot.2 kept) := by
  refine ⟨fun m hm => hm.snoc (d := .keep slot.1 slot.2 kept) trivial fun rest hr _ => ?_⟩
  exact ⟨log, u, hook, rest, by simp, h.frame, hr, hs _⟩

end Counted

/-- What follows on taking a slot may count on the hook call having been counted. -/
theorem takeSlot_recorded (hook : HookCall) {k : Key × Nat → Run α}
    (hk : ∀ slot log m u, Counted start hook slot log m u →
      Grown Deed.Scripted start (log ++ [(u, .call hook)]) (Run.last (k slot) m).hooks) :
    Stable (Grown Deed.Scripted start log) (takeSlot >>= k) := by
  refine ⟨fun m ⟨rest, hr, h⟩ => ?_⟩
  cases hf : m.hooks.frame with
  | none =>
    obtain ⟨e, he⟩ := takeSlot_none (m := m) (by rw [Store.nextSlot?, hf, Option.map_none])
    rw [last_of_error (bind_of_error he)]
    exact ⟨rest, hr, h⟩
  | some slot =>
    have hn : m.hooks.nextSlot? = some (slot, m.hooks.counted) := by simp [Store.nextSlot?, Store.counted, hf]
    have hl : Run.last (takeSlot >>= k) m = Run.last (k slot) (Hook.counted m) := by
      rw [Run.last, bind_of_ok (takeSlot_some hn), Run.last]
      rfl
    have hc : Counted start hook slot (log ++ rest) (Hook.counted m) m.hooks :=
      ⟨h.snoc (.call hook) ⟨slot, hf⟩, hf, rfl⟩
    rw [hl]
    exact ((hk slot _ _ _ hc).after (List.forall_mem_singleton.2 trivial)).after hr

/-! ### Hook functions

In each of them the store is read right after the call is counted, so that what is found is what the call finds. -/

theorem useRef_recorded (args : List Value) : Stable (Grown Deed.Scripted start log) (useRef args) := by
  refine takeSlot_recorded .ref fun slot log m u hc => ?_
  have hg : Grown Deed.Scripted start (log ++ [(u, .call .ref)]) m.hooks := .refl hc.life
  show Grown _ _ _ (Run.last (Run.hooks >>= _) m).hooks
  rw [Run.last, hooks_bind, ← Run.last, hc.slot?]
  split
  · exact hg
  · rename_i hn
    exact (Keeps.bind (newTable_stable _) fun cell =>
      .bind (hc.keep (.ref cell) fun _ => ⟨rfl, hn⟩) fun _ => .pure [cell]).keep m hg

theorem useCallback_recorded (args : List Value) : Stable (Grown Deed.Scripted start log) (useCallback args) := by
  refine .bind (functionArgument_stable args 1) fun callback => ?_
  refine takeSlot_recorded .callback fun slot log m u hc => ?_
  refine Keeps.keep (P := .onHooks (Grown Deed.Scripted start (log ++ [(u, .call .callback)])))
    (.bind (dependencies_stable _) fun deps => .bind hooks_stable fun s => ?_) m (.refl hc.life)
  have hk := Keeps.bind (hc.keep (.memo callback deps) fun _ => .inr rfl) fun _ => .pure [callback]
  split
  · dsimp only
    split
    · exact .pure _
    · exact hk
  · exact hk

/-- An effect is queued right after its call is counted, where its dependencies have changed. -/
theorem settle_recorded {slot : Key × Nat} {m : Machine} {u : Store Value} (hc : Counted start .effect slot log m u)
    (callback : Value) (deps : Option (List Value)) :
    Grown Deed.Scripted start (log ++ [(u, .call .effect)])
      (Run.last (EffectCall.settle callback slot deps) m).hooks := by
  have he := EffectCall.settle_eq callback slot deps m
  rw [hc.slot?] at he
  cases ha : EffectCall.agrees (u.slot? slot.1 slot.2) deps with
  | true =>
    rw [ha, if_pos rfl] at he
    rw [last_of_ok he]
    exact .refl hc.life
  | false =>
    rw [ha, if_neg Bool.false_ne_true] at he
    rw [last_of_ok he]
    exact ⟨[(m.hooks, .effect slot.1 slot.2 deps callback)], List.forall_mem_singleton.2 trivial,
      hc.life.snoc (.effect slot.1 slot.2 deps callback) ⟨log, u, rfl, hc.frame, ha⟩⟩

theorem useEffect_recorded (args : List Value) : Stable (Grown Deed.Scripted start log) (useEffect args) := by
  refine .bind (functionArgument_stable args 1) fun callback => ?_
  refine takeSlot_recorded .effect fun slot log m u hc => ?_
  show Grown _ _ _ (Run.last (dependencies (Run.argument args 2) >>= EffectCall.settle callback slot) m).hooks
  cases hd : dependencies (Run.argument args 2) m with
  | error e n =>
    have hh := (dependencies_stable (Q := .onHooks (· = m.hooks)) (Run.argument args 2)).keep m rfl
    rw [last_of_error hd] at hh
    rw [last_of_error (bind_of_error hd), hh]
    exact .refl hc.life
  | ok deps n =>
    obtain rfl := dependencies_ok hd
    rw [Run.last, bind_of_ok hd, ← Run.last]
    exact settle_recorded hc callback deps

section Calls
variable {invoke : Invoke} (hi : Recorded invoke)
include hi

theorem callScript_recorded (trail : Trail) (v : Value) (args : List Value) :
    Stable (Grown Deed.Scripted start log) (callScript invoke trail v args) := first_stable (hi ..)

theorem useState_recorded (trail : Trail) (args : List Value) :
    Stable (Grown Deed.Scripted start log) (useState invoke trail args) := by
  refine takeSlot_recorded .state fun slot log m u hc => ?_
  have hg : Grown Deed.Scripted start (log ++ [(u, .call .state)]) m.hooks := .refl hc.life
  have hn (v : Value) : Stable (Grown Deed.Scripted start (log ++ [(u, .call .state)])) _ :=
    .bind (newFunc_stable (.setter slot.1 slot.2)) fun w => .pure [v, w]
  have hk (hf : ∀ v, u.slot? slot.1 slot.2 ≠ some (.state v)) (v : Value) :=
    Keeps.bind (hc.keep (.state v) fun _ => ⟨rfl, hf⟩) fun _ => .bind (.pure v) hn
  show Grown _ _ _ (Run.last (Run.hooks >>= _) m).hooks
  rw [Run.last, hooks_bind, ← Run.last, hc.slot?]
  split
  · exact (Keeps.bind (.pure _) hn).keep m hg
  · rename_i hf
    split
    · exact (Keeps.bind (callScript_recorded hi trail _ []) (hk hf)).keep m hg
    · exact (Keeps.bind (.pure _) (hk hf)).keep m hg

/-- A reducer that is found keeps its state as it is. -/
theorem useReducer_recorded (trail : Trail) (args : List Value) :
    Stable (Grown Deed.Scripted start log) (useReducer invoke trail args) := by
  refine .bind (functionArgument_stable args 1) fun reducer => .bind (optionalFunction_stable args 3) fun start? => ?_
  refine takeSlot_recorded .reducer fun slot log m u hc => ?_
  have hg : Grown Deed.Scripted start (log ++ [(u, .call .reducer)]) m.hooks := .refl hc.life
  have hn (v : Value) : Stable (Grown Deed.Scripted start (log ++ [(u, .call .reducer)])) _ :=
    .bind (newFunc_stable (.dispatcher slot.1 slot.2)) fun w => .pure [v, w]
  have hk (hf : ∀ v rule, u.slot? slot.1 slot.2 ≠ some (.reducer v rule)) (v : Value) :=
    Keeps.bind (hc.keep (.reducer v reducer) fun _ => ⟨rfl, .inl hf⟩) fun _ => hn v
  show Grown _ _ _ (Run.last (Run.hooks >>= _) m).hooks
  rw [Run.last, hooks_bind, ← Run.last, hc.slot?]
  split
  · rename_i v rule hv
    have hs : Fits (log ++ [(u, .call .reducer)]) m.hooks (.keep slot.1 slot.2 (.reducer v reducer)) :=
      ⟨log, u, .reducer, [], rfl, hc.frame, (fun _ he => by cases he), rfl, .inr ⟨rule, (hc.slot? ..).trans hv⟩⟩
    refine (hn v).keep { m with hooks := m.hooks.keep slot.1 slot.2 (.reducer v reducer) } ?_
    exact ⟨[(m.hooks, .keep slot.1 slot.2 (.reducer v reducer))], List.forall_mem_singleton.2 trivial,
      hc.life.snoc _ hs⟩
  · rename_i hf
    split
    · exact (Keeps.bind (callScript_recorded hi trail _ _) (hk hf)).keep m hg
    · exact (Keeps.bind (.pure _) (hk hf)).keep m hg

theorem useMemo_recorded (trail : Trail) (args : List Value) :
    Stable (Grown Deed.Scripted start log) (useMemo invoke trail args) := by
  refine .bind (functionArgument_stable args 1) fun factory => ?_
  refine takeSlot_recorded .memo fun slot log m u hc => ?_
  refine Keeps.keep (P := .onHooks (Grown Deed.Scripted start (log ++ [(u, .call .memo)])))
    (.bind (dependencies_stable _) fun deps => .bind hooks_stable fun s => ?_) m (.refl hc.life)
  have hc' : Stable (Grown Deed.Scripted start (log ++ [(u, .call .memo)])) (callScript invoke trail factory []) :=
    callScript_recorded hi trail factory []
  have hk := Keeps.bind hc' fun v => .bind (hc.keep (.memo v deps) fun _ => .inl rfl) fun _ => .pure [v]
  split
  · dsimp only
    split
    · exact .pure _
    · exact hk
  · exact hk

theorem call_recorded (trail : Trail) (args : List Value) (h : HookCall) :
    Stable (Grown Deed.Scripted start log) (Hook.call invoke trail args h) := by
  cases h with
  | state => exact useState_recorded hi trail args
  | reducer => exact useReducer_recorded hi trail args
  | ref => exact useRef_recorded args
  | memo => exact useMemo_recorded hi trail args
  | callback => exact useCallback_recorded args
  | effect => exact useEffect_recorded args

/-! ### Setters and dispatchers -/

omit hi in
theorem update_recorded (key : Key) (index : Nat) (next : Value) : Stable (Grown Deed.Scripted start log)
    (Run.modifyHooks fun s => s.update Value.equals key index next) :=
  ⟨fun _ hm => hm.snoc (d := .update key index next) trivial fun _ _ _ => trivial⟩

theorem setState_recorded (trail : Trail) (key : Key) (index : Nat) (args : List Value) :
    Stable (Grown Deed.Scripted start log) (setState invoke trail key index args) := by
  have hu (next : Value) : Stable (Grown Deed.Scripted start log) _ :=
    .bind (update_recorded key index next) fun _ => .pure ([] : List Value)
  unfold setState
  split
  · exact .bind hooks_stable fun s => .bind (callScript_recorded hi trail _ _) hu
  · exact .bind (.pure _) hu

theorem dispatch_recorded (trail : Trail) (key : Key) (index : Nat) (args : List Value) :
    Stable (Grown Deed.Scripted start log) (dispatch invoke trail key index args) := by
  refine .bind hooks_stable fun s => ?_
  split
  · exact .bind (callScript_recorded hi trail _ _) fun next => .bind (update_recorded key index next) fun _ => .pure _
  · exact .pure _

end Calls

theorem recorded_invokeWithin (depth : Nat) : Recorded (invokeWithin depth) := by
  induction depth with
  | zero => exact fun _ _ trail v args => .throw _
  | succ depth ih =>
    exact fun start log => invokeWithin_stable (ih start log) (call_recorded ih) (setState_recorded ih)
      (dispatch_recorded ih)

theorem recorded_invoke : Recorded invoke := recorded_invokeWithin callDepth

end LivePreview.Script
