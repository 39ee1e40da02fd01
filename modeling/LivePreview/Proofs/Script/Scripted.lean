import LivePreview.Proofs.Hook.Calling
import LivePreview.Proofs.Script.Evaluation
import LivePreview.Script.Invoke

/-! **Scripts change hook state by acts alone**: by counted hook calls that keep slots and queue effects, and by
setters and dispatchers. The induction is on how deep calls may nest; hook functions are the one place where the
store changes.

More is true: effects are queued by whole calls of `useEffect` and by nothing else. So the induction is made for what
such calls keep and acts that queue nothing (`Kept`); that acts are all there is follows (`Faithful.scripted`). -/
namespace LivePreview.Script
open Hook
variable {P : Store Value → Prop} {Q : Loose} {α : Type}

/-! ### Hook functions -/

/-- A property of the store that acts keep which queue nothing. -/
def Plain (P : Store Value → Prop) : Prop :=
  ∀ b s t, Store.Act Value.equals b s t → t.pending = s.pending → P s → P t

theorem Plain.of_closed (hP : Store.Closed Value.equals P) : Plain P := fun b s t ha _ => hP b s t ha

theorem Plain.and_isCalling (hP : Plain P) (key : Key) (index : Nat) :
    Plain fun s => P s ∧ s.IsCalling key index :=
  fun b s t ha hp hs => ⟨hP b s t ha hp hs.1, ha.isCalling hs.2⟩

@[grind ←]
theorem hooks_stable : Keeps Q Run.hooks := .bind .get fun _ => .pure _

/-- What follows on taking a slot may count on the hook call having been counted. -/
theorem takeSlot_stable (hP : Plain P) {k : Key × Nat → Run α}
    (hk : ∀ slot, Stable (fun s => P s ∧ s.IsCalling slot.1 slot.2) (k slot)) : Stable P (takeSlot >>= k) := by
  refine ⟨fun m hm => ?_⟩
  cases hn : m.hooks.nextSlot? with
  | none =>
    obtain ⟨e, he⟩ := takeSlot_none hn
    rwa [last_of_error (bind_of_error he)]
  | some r =>
    obtain ⟨slot, t⟩ := r
    have h : Run.last (takeSlot >>= k) m = Run.last (k slot) { m with hooks := t } := by
      rw [Run.last, bind_of_ok (takeSlot_some hn), Run.last]
    obtain ⟨hf, ht⟩ := Store.nextSlot?_eq hn
    rw [h]
    have hp : t.pending = m.hooks.pending := by rw [ht]
    refine ((hk slot).keep { m with hooks := t } ⟨hP _ _ _ (.next hn) hp hm, slot.2 + 1, ?_, Nat.lt_succ_self _⟩).1
    rw [ht]

theorem keep_stable (hP : Plain P) (slot : Key × Nat) (kept : Hook.Slot Value) :
    Stable (fun s => P s ∧ s.IsCalling slot.1 slot.2) (Run.modifyHooks fun s => s.keep slot.1 slot.2 kept) :=
  ⟨fun _ hm => hP.and_isCalling _ _ _ _ _ (.keep kept hm.2) rfl hm⟩

@[grind ←]
theorem functionArgument_stable (args : List Value) (i : Nat) : Keeps Q (Run.functionArgument args i) := by
  unfold Run.functionArgument
  split
  · exact .pure _
  · exact fault_stable _

@[grind ←]
theorem optionalFunction_stable (args : List Value) (i : Nat) : Keeps Q (Run.optionalFunction args i) :=
  .ite (.pure none) (.map some (functionArgument_stable args i))

@[grind ←]
theorem optionalTable_stable (args : List Value) (i : Nat) : Keeps Q (Run.optionalTable args i) := by
  unfold Run.optionalTable
  split
  · exact .pure none
  · exact .pure _
  · exact fault_stable _

@[grind ←]
theorem textArgument_stable (args : List Value) (i : Nat) : Keeps Q (Run.textArgument args i) := by
  unfold Run.textArgument
  split
  · exact .pure _
  · exact fault_stable _

@[grind ←]
theorem dependencies_stable (v : Value) : Keeps Q (dependencies v) := by
  cases v <;> grind [dependencies]

theorem useRef_stable (hP : Plain P) (args : List Value) : Stable P (useRef args) := by
  refine takeSlot_stable hP fun slot => .bind hooks_stable fun s => ?_
  split
  · exact .pure _
  · exact .bind (newTable_stable _) fun _ => .bind (keep_stable hP slot _) fun _ => .pure _

theorem useCallback_stable (hP : Plain P) (args : List Value) : Stable P (useCallback args) := by
  refine .bind (functionArgument_stable args 1) fun callback => takeSlot_stable hP fun slot => ?_
  refine .bind (dependencies_stable _) fun deps => .bind hooks_stable fun s => ?_
  have hk := Keeps.bind (keep_stable hP slot (.memo callback deps)) fun _ => .pure [callback]
  split
  · dsimp only
    split
    · exact .pure _
    · exact hk
  · exact hk

theorem useEffect_stable (hP : Store.Closed Value.equals P) (args : List Value) : Stable P (useEffect args) := by
  refine .bind (functionArgument_stable args 1) fun callback => takeSlot_stable (.of_closed hP) fun slot => ?_
  refine .bind (dependencies_stable _) fun deps => .bind hooks_stable fun s => ?_
  have hq : Stable (fun s => P s ∧ s.IsCalling slot.1 slot.2)
      (Run.modifyHooks fun s => (s.keep slot.1 slot.2 (.effect deps)).queue ⟨slot.1, slot.2, callback⟩) := by
    refine ⟨fun m hm => ?_⟩
    have ha : Store.Act Value.equals false m.hooks (m.hooks.keep slot.1 slot.2 (.effect deps)) := .keep _ hm.2
    have hq : Store.Act Value.equals false (m.hooks.keep slot.1 slot.2 (.effect deps)) _ :=
      .queue (e := ⟨slot.1, slot.2, callback⟩) (ha.isCalling hm.2)
    exact hP.and_isCalling _ _ _ _ _ hq (hP.and_isCalling _ _ _ _ _ ha hm)
  split
  · exact .ite (.bind hq fun _ => .pure _) (.pure _)
  · exact .bind hq fun _ => .pure _

theorem update_stable (hP : Plain P) (key : Key) (index : Nat) (next : Value) :
    Stable P (Run.modifyHooks fun s => s.update Value.equals key index next) :=
  ⟨fun m hm => hP _ _ _ (.update key index next) (m.hooks.update_pending _ key index next) hm⟩

/-! ### Whole calls of `useEffect` -/

/-- A property of the store that is kept by acts which queue nothing, and by whole calls of `useEffect`. -/
structure Kept (P : Store Value → Prop) : Prop where
  act : Plain P
  effect : ∀ args, Stable P (useEffect args)

theorem Kept.of_closed (hP : Store.Closed Value.equals P) : Kept P := ⟨.of_closed hP, useEffect_stable hP⟩

theorem Kept.and_isCalling (hP : Kept P) (key : Key) (index : Nat) : Kept fun s => P s ∧ s.IsCalling key index where
  act := hP.act.and_isCalling key index
  effect args := (hP.effect args).and (useEffect_stable (fun _ _ _ ha hs => ha.isCalling hs) args)

/-- Whatever value is called, what hook functions keep is kept. -/
def Faithful (invoke : Invoke) : Prop := ∀ P, Kept P → ∀ trail v args, Stable P (invoke trail v args)

theorem Faithful.scripted {invoke : Invoke} (hi : Faithful invoke) : Scripted invoke :=
  fun trail v args => Stable.acted fun P hP => hi P (.of_closed hP) trail v args

/-! ### Hook functions that call scripts -/

section Calls
variable {invoke : Invoke} (hi : Faithful invoke)
include hi

theorem callScript_stable (hP : Kept P) (trail : Trail) (v : Value) (args : List Value) :
    Stable P (callScript invoke trail v args) := first_stable (hi P hP ..)

theorem useState_stable (hP : Kept P) (trail : Trail) (args : List Value) :
    Stable P (useState invoke trail args) := by
  refine takeSlot_stable hP.act fun slot => .bind hooks_stable fun s => ?_
  have hn (v : Value) : Stable (fun s => P s ∧ s.IsCalling slot.1 slot.2) _ :=
    .bind (newFunc_stable (.setter slot.1 slot.2)) fun w => .pure [v, w]
  have hk (v : Value) := Keeps.bind (keep_stable hP.act slot (.state v)) fun _ => .bind (.pure v) hn
  split
  · exact .bind (.pure _) hn
  · split
    · exact .bind (callScript_stable hi (hP.and_isCalling _ _) trail _ []) fun v => hk v
    · exact .bind (.pure _) fun v => hk v

theorem setState_stable (hP : Kept P) (trail : Trail) (key : Key) (index : Nat)
    (args : List Value) : Stable P (setState invoke trail key index args) := by
  have hu (next : Value) : Stable P _ := .bind (update_stable hP.act key index next) fun _ => .pure ([] : List Value)
  unfold setState
  split
  · exact .bind hooks_stable fun s => .bind (callScript_stable hi hP trail _ _) hu
  · exact .bind (.pure _) hu

theorem useReducer_stable (hP : Kept P) (trail : Trail) (args : List Value) :
    Stable P (useReducer invoke trail args) := by
  refine .bind (functionArgument_stable args 1) fun reducer => .bind (optionalFunction_stable args 3) fun start? => ?_
  refine takeSlot_stable hP.act fun slot => .bind hooks_stable fun s => ?_
  have hk (v : Value) := Keeps.bind (keep_stable hP.act slot (.reducer v reducer)) fun _ =>
    .bind (newFunc_stable (.dispatcher slot.1 slot.2)) fun w => .pure [v, w]
  split
  · exact .bind (.pure _) hk
  · split
    · exact .bind (callScript_stable hi (hP.and_isCalling _ _) trail _ _) hk
    · exact .bind (.pure _) hk

theorem dispatch_stable (hP : Kept P) (trail : Trail) (key : Key) (index : Nat)
    (args : List Value) : Stable P (dispatch invoke trail key index args) := by
  refine .bind hooks_stable fun s => ?_
  split
  · exact .bind (callScript_stable hi hP trail _ _) fun next => .bind (update_stable hP.act key index next) fun _ =>
      .pure _
  · exact .pure _

theorem useMemo_stable (hP : Kept P) (trail : Trail) (args : List Value) :
    Stable P (useMemo invoke trail args) := by
  refine .bind (functionArgument_stable args 1) fun factory => takeSlot_stable hP.act fun slot => ?_
  refine .bind (dependencies_stable _) fun deps => .bind hooks_stable fun s => ?_
  have hk := Keeps.bind (callScript_stable hi (hP.and_isCalling slot.1 slot.2) trail factory []) fun v =>
    .bind (keep_stable hP.act slot (.memo v deps)) fun _ => .pure [v]
  split
  · dsimp only
    split
    · exact .pure _
    · exact hk
  · exact hk

theorem call_stable (hP : Kept P) (trail : Trail) (args : List Value) (h : HookCall) :
    Stable P (Hook.call invoke trail args h) := by
  cases h with
  | state => exact useState_stable hi hP trail args
  | reducer => exact useReducer_stable hi hP trail args
  | ref => exact useRef_stable hP.act args
  | memo => exact useMemo_stable hi hP trail args
  | callback => exact useCallback_stable hP.act args
  | effect => exact hP.effect args

end Calls

/-! ### Calls of values -/

theorem create_stable (args : List Value) : Keeps Q (Element.create args) := by
  refine .bind (optionalTable_stable args 2) fun place? => ?_
  cases place? <;> grind

section Invocations
variable {runHook runHook' : HookRunner} {depth : Nat}

/-- A call does the same where the calls in it, the hook functions and the setters and dispatchers do. -/
theorem callBy_agree {invoke invoke' : Invoke}
    (hi : ∀ trail v args, Matches Q (invoke trail v args) (invoke' trail v args))
    (hh : ∀ trail args h, Matches Q (runHook invoke trail args h) (runHook' invoke' trail args h))
    (hu : ∀ trail key index args,
      Matches Q (setState invoke trail key index args) (setState invoke' trail key index args))
    (hd : ∀ trail key index args,
      Matches Q (dispatch invoke trail key index args) (dispatch invoke' trail key index args))
    (trail : Trail) (v : Value) (args : List Value) :
    Matches Q (callBy runHook invoke trail v args) (callBy runHook' invoke' trail v args) := by
  refine .bind (.of_keeps .get) fun m => ?_
  cases v
  case func place =>
    dsimp only
    split
    · exact .of_keeps (.pure [])
    · split
      · apply Frame.enter_agree
        exact hi
      · exact LibraryCall.run_agree _ hi
      · exact hh ..
      · exact hu ..
      · exact hd ..
      · exact .of_keeps (create_stable args)
      · exact .bind (.of_keeps tick_stable) fun _ => .bind (hi ..) fun _ =>
          .of_keeps (.bind tick_stable fun _ => .pure _)
      · exact .bind (first_agree (hi ..)) fun _ => .of_keeps (.pure _)
      · exact .of_keeps (.bind (textArgument_stable args 1) fun s => .bind (log_stable s) fun _ => .pure _)
      · exact .of_keeps (.bind (textArgument_stable args 1) fun s => .bind (functionArgument_stable args 2) fun f =>
          .bind (stash_stable s f) fun _ => .pure _)
      · refine .of_keeps ?_
        split
        · exact .bind (newFunc_stable _) fun _ => .bind (newTable_stable _) fun _ => .pure _
        · exact .bind (.pure _) fun _ => .bind (newTable_stable _) fun _ => .pure _
      · exact .of_keeps (.bind (textArgument_stable args 1) fun _ => .throw _)
  case table place =>
    dsimp only
    split
    · exact hi ..
    · exact .of_keeps (.throw _)
  all_goals exact .of_keeps (.throw _)

/-- A call does the same where the calls below it, the hook functions and the setters and dispatchers do. -/
theorem invokeBy_agree
    (hi : ∀ trail v args, Matches Q (invokeBy runHook depth trail v args) (invokeBy runHook' depth trail v args))
    (hh : ∀ trail args h,
      Matches Q (runHook (invokeBy runHook depth) trail args h) (runHook' (invokeBy runHook' depth) trail args h))
    (hu : ∀ trail key index args,
      Matches Q (setState (invokeBy runHook depth) trail key index args)
        (setState (invokeBy runHook' depth) trail key index args))
    (hd : ∀ trail key index args,
      Matches Q (dispatch (invokeBy runHook depth) trail key index args)
        (dispatch (invokeBy runHook' depth) trail key index args))
    (trail : Trail) (v : Value) (args : List Value) :
    Matches Q (invokeBy runHook (depth + 1) trail v args) (invokeBy runHook' (depth + 1) trail v args) :=
  .bind (.of_keeps tick_stable) fun _ => callBy_agree hi hh hu hd trail v args

/-- A call keeps what the calls in it, the hook functions and the setters and dispatchers keep. -/
theorem callBy_stable {invoke : Invoke} (hi : ∀ trail v args, Keeps Q (invoke trail v args))
    (hh : ∀ trail args h, Keeps Q (Hook.call invoke trail args h))
    (hu : ∀ trail key index args, Keeps Q (setState invoke trail key index args))
    (hd : ∀ trail key index args, Keeps Q (dispatch invoke trail key index args))
    (trail : Trail) (v : Value) (args : List Value) : Keeps Q (callBy Hook.call invoke trail v args) :=
  (callBy_agree (fun _ _ _ => .of_keeps (hi ..)) (fun _ _ _ => .of_keeps (hh ..))
    (fun _ _ _ _ => .of_keeps (hu ..)) (fun _ _ _ _ => .of_keeps (hd ..)) trail v args).toKeeps

theorem invokeWithin_stable (hi : ∀ trail v args, Keeps Q (invokeWithin depth trail v args))
    (hh : ∀ trail args h, Keeps Q (Hook.call (invokeWithin depth) trail args h))
    (hu : ∀ trail key index args, Keeps Q (setState (invokeWithin depth) trail key index args))
    (hd : ∀ trail key index args, Keeps Q (dispatch (invokeWithin depth) trail key index args))
    (trail : Trail) (v : Value) (args : List Value) : Keeps Q (invokeWithin (depth + 1) trail v args) :=
  .bind tick_stable fun _ => callBy_stable hi hh hu hd trail v args

end Invocations

theorem faithful_invokeWithin (depth : Nat) : Faithful (invokeWithin depth) := by
  induction depth with
  | zero => exact fun P _ trail v args => .throw _
  | succ depth ih =>
    exact fun P hP => invokeWithin_stable (ih P hP) (call_stable ih hP) (setState_stable ih hP) (dispatch_stable ih hP)

theorem faithful_invoke : Faithful invoke := faithful_invokeWithin callDepth

theorem scripted_invoke : Scripted invoke := faithful_invoke.scripted

end LivePreview.Script
