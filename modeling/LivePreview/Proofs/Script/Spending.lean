import LivePreview.Proofs.Script.Scripted

/-! **Every call takes a step.**

No run of a script has more steps left in the end than at its start, and a call begins with spending one. So a call
that gives values leaves fewer steps than it found, and within an allowance only so many calls give values. -/
namespace LivePreview.Script
open Hook

/-- Whatever value is called, a call that gives values leaves fewer steps than it found. -/
def Paid (invoke : Invoke) : Prop :=
  ∀ trail v args m vs n k, invoke trail v args m = .ok vs n → m.steps = some k → ∃ j < k, n.steps = some j

variable {start : Machine}

/-! ### Hook functions -/

theorem modifyHooks_since (start : Machine) (f : Store Value → Store Value) :
    Keeps (.since start) (Run.modifyHooks f) :=
  ⟨fun _ hm => hm.trans (.of_eq rfl)⟩

theorem takeSlot_since : Keeps (.since start) takeSlot := by
  refine .bind hooks_stable fun s => ?_
  split
  · exact .bind (modifyHooks_since ..) fun _ => .pure _
  · exact fault_stable _

theorem useRef_since (args : List Value) : Keeps (.since start) (useRef args) := by
  refine .bind takeSlot_since fun slot => .bind hooks_stable fun s => ?_
  split
  · exact .pure _
  · exact .bind (newTable_stable _) fun _ => .bind (modifyHooks_since ..) fun _ => .pure _

theorem useCallback_since (args : List Value) : Keeps (.since start) (useCallback args) := by
  refine .bind (functionArgument_stable args 1) fun callback => .bind takeSlot_since fun slot => ?_
  refine .bind (dependencies_stable _) fun deps => .bind hooks_stable fun s => ?_
  dsimp only
  split
  · exact .pure _
  · exact .bind (modifyHooks_since ..) fun _ => .pure _

theorem useEffect_since (args : List Value) : Keeps (.since start) (useEffect args) := by
  refine .bind (functionArgument_stable args 1) fun callback => .bind takeSlot_since fun slot => ?_
  refine .bind (dependencies_stable _) fun deps => .bind hooks_stable fun s => ?_
  exact .ite (.bind (modifyHooks_since ..) fun _ => .pure _) (.pure _)

section Calls
variable {invoke : Invoke} (hi : ∀ trail v args, Keeps (.since start) (invoke trail v args))
include hi

theorem callScript_since (trail : Trail) (f : Value) (args : List Value) :
    Keeps (.since start) (callScript invoke trail f args) := first_stable (hi ..)

theorem useState_since (trail : Trail) (args : List Value) : Keeps (.since start) (useState invoke trail args) := by
  refine .bind takeSlot_since fun slot => .bind hooks_stable fun s => ?_
  have hn (v : Value) : Keeps (.since start) _ :=
    .bind (newFunc_stable (.setter slot.1 slot.2)) fun w => .pure [v, w]
  have hk (v : Value) := Keeps.bind (modifyHooks_since _ (·.keep slot.1 slot.2 (.state v))) fun _ => .bind (.pure v) hn
  split
  · exact .bind (.pure _) hn
  · split
    · exact .bind (callScript_since hi ..) hk
    · exact .bind (.pure _) hk

theorem useReducer_since (trail : Trail) (args : List Value) :
    Keeps (.since start) (useReducer invoke trail args) := by
  refine .bind (functionArgument_stable args 1) fun reducer => .bind (optionalFunction_stable args 3) fun start? => ?_
  refine .bind takeSlot_since fun slot => .bind hooks_stable fun s => ?_
  have hk (v : Value) := Keeps.bind (modifyHooks_since start (·.keep slot.1 slot.2 (.reducer v reducer)))
    fun _ => .bind (newFunc_stable (.dispatcher slot.1 slot.2)) fun w => .pure [v, w]
  split
  · exact .bind (.pure _) hk
  · split
    · exact .bind (callScript_since hi ..) hk
    · exact .bind (.pure _) hk

theorem useMemo_since (trail : Trail) (args : List Value) : Keeps (.since start) (useMemo invoke trail args) := by
  refine .bind (functionArgument_stable args 1) fun factory => .bind takeSlot_since fun slot => ?_
  refine .bind (dependencies_stable _) fun deps => .bind hooks_stable fun s => ?_
  have hk := Keeps.bind (callScript_since hi trail factory []) fun v =>
    .bind (modifyHooks_since _ (·.keep slot.1 slot.2 (.memo v deps))) fun _ => .pure [v]
  dsimp only
  split
  · exact .pure _
  · exact hk

theorem call_since (trail : Trail) (args : List Value) (h : HookCall) :
    Keeps (.since start) (Hook.call invoke trail args h) := by
  cases h with
  | state => exact useState_since hi trail args
  | reducer => exact useReducer_since hi trail args
  | ref => exact useRef_since args
  | memo => exact useMemo_since hi trail args
  | callback => exact useCallback_since args
  | effect => exact useEffect_since args

theorem setState_since (trail : Trail) (key : Key) (index : Nat) (args : List Value) :
    Keeps (.since start) (setState invoke trail key index args) := by
  have hu (next : Value) : Keeps (.since start) _ :=
    .bind (modifyHooks_since _ (·.update Value.equals key index next)) fun _ => .pure ([] : List Value)
  unfold setState
  split
  · exact .bind hooks_stable fun s => .bind (callScript_since hi ..) hu
  · exact .bind (.pure _) hu

theorem dispatch_since (trail : Trail) (key : Key) (index : Nat) (args : List Value) :
    Keeps (.since start) (dispatch invoke trail key index args) := by
  refine .bind hooks_stable fun s => ?_
  split
  · exact .bind (callScript_since hi ..) fun _ => .bind (modifyHooks_since ..) fun _ => .pure _
  · exact .pure _

end Calls

/-! ### Calls of values -/

/-- No call leaves more steps than it found. -/
theorem invokeWithin_since (start : Machine) (depth : Nat) (trail : Trail) (v : Value) (args : List Value) :
    Keeps (.since start) (invokeWithin depth trail v args) := by
  induction depth generalizing trail v args with
  | zero => exact .throw _
  | succ depth ih => exact invokeWithin_stable ih (call_since ih) (setState_since ih) (dispatch_since ih) trail v args

theorem paid_invokeWithin (depth : Nat) : Paid (invokeWithin depth) := by
  intro trail v args m vs n k h hk
  cases depth with
  | zero => exact nomatch h
  | succ depth =>
    cases k with
    | zero => exact nomatch (bind_of_error (tick_error hk)).symm.trans h
    | succ k =>
      -- what follows on the first step starts with one less
      let l : Machine := { m with steps := some k }
      have hcall : callBy Hook.call (invokeWithin depth) trail v args l = .ok vs n :=
        (bind_of_ok (tick_ok hk)).symm.trans h
      have hi := invokeWithin_since l depth
      have hrest := (callBy_stable hi (call_since hi) (setState_since hi) (dispatch_since hi) trail v args).keep l
        (.of_eq rfl)
      rw [last_of_ok hcall] at hrest
      obtain ⟨j, hj, hn⟩ := hrest k rfl
      exact ⟨j, Nat.lt_succ_of_le hj, hn⟩

/-- **A call that gives values has spent a step.** -/
theorem paid_invoke : Paid invoke := paid_invokeWithin callDepth

end LivePreview.Script
