import LivePreview.Proofs.Script.Scripted

/-! Scripts that run while no component body does.

Hook functions are run there as well, and every call of one fails. So a script does outside of bodies what it does
where hook functions are barred: they fail with the same faults and touch nothing (`barred`). The induction is on how
deep calls may nest, and its invariant is that no body runs, which setters and dispatchers keep. -/
namespace LivePreview.Script
open Hook
variable {α : Type} {m : Machine}

/-- No body runs. -/
def Idle (s : Store Value) : Prop := s.frame = none

/-! ### Hook functions outside of bodies -/

/-- A hook function that does nothing but fail. What it asks of its arguments is asked first. -/
def barredHook : HookRunner := fun _ _ args hook =>
  match hook with
  | .state | .ref => Run.fault strayCall
  | .reducer => do
    let _ ← Run.functionArgument args 1
    let _ ← Run.optionalFunction args 3
    Run.fault strayCall
  | .memo | .callback | .effect => do
    let _ ← Run.functionArgument args 1
    Run.fault strayCall

/-- Calls a value with hook functions barred. -/
def barred : Invoke := invokeBy barredHook callDepth

/-- A computation that leaves every machine as it is. -/
def Aloof (r : Run α) : Prop := ∀ m, (∃ a, r m = .ok a m) ∨ ∃ e, r m = .error e m

section Aloof
variable {β : Type} {r : Run β}

theorem Aloof.bind {k : β → Run α} (hr : Aloof r) (hk : ∀ a, Aloof (k a)) : Aloof (r >>= k) := by
  intro m
  rcases hr m with ⟨a, ha⟩ | ⟨e, he⟩
  · rw [bind_of_ok ha]
    exact hk a m
  · exact .inr ⟨e, bind_of_error he⟩

/-- What follows on it starts from the same machine. -/
theorem Aloof.bind_congr {k k' : β → Run α} (hr : Aloof r) (hk : ∀ a, k a m = k' a m) :
    (r >>= k) m = (r >>= k') m := by
  rcases hr m with ⟨a, ha⟩ | ⟨e, he⟩
  · rw [bind_of_ok ha, bind_of_ok ha]
    exact hk a
  · rw [bind_of_error he, bind_of_error he]

theorem Aloof.fails_bind {k : β → Run α} (hr : Aloof r) (hk : ∀ a, ∃ e, k a m = .error e m) :
    ∃ e, (r >>= k) m = .error e m := by
  rcases hr m with ⟨a, ha⟩ | ⟨e, he⟩
  · rw [bind_of_ok ha]
    exact hk a
  · exact ⟨e, bind_of_error he⟩

end Aloof

theorem aloof_functionArgument (args : List Value) (i : Nat) : Aloof (Run.functionArgument args i) := by
  unfold Run.functionArgument
  split
  · exact fun m => .inl ⟨_, rfl⟩
  · exact fun m => .inr ⟨_, rfl⟩

theorem aloof_optionalFunction (args : List Value) (i : Nat) : Aloof (Run.optionalFunction args i) := by
  unfold Run.optionalFunction
  split
  · exact fun m => .inl ⟨_, rfl⟩
  · rw [map_eq_pure_bind]
    exact (aloof_functionArgument args i).bind fun f m => .inl ⟨some f, rfl⟩

/-- A barred hook function fails on every machine, and leaves it as it is. -/
theorem barredHook_fails (invoke : Invoke) (trail : Trail) (args : List Value) (hook : HookCall) (m : Machine) :
    ∃ fault, barredHook invoke trail args hook m = .error fault m := by
  have hstray : ∃ fault, (Run.fault strayCall : Run (List Value)) m = .error fault m := ⟨_, rfl⟩
  cases hook with
  | state | ref => exact hstray
  | reducer =>
    exact (aloof_functionArgument args 1).fails_bind fun _ => (aloof_optionalFunction args 3).fails_bind fun _ => hstray
  | memo | callback | effect => exact (aloof_functionArgument args 1).fails_bind fun _ => hstray

/-- Outside of bodies there is no slot to take. -/
theorem takeSlot_idle {k : Key × Nat → Run α} (hm : Idle m.hooks) :
    (takeSlot >>= k) m = (Run.fault strayCall : Run α) m := by
  have hnext : m.hooks.nextSlot? = none := by rw [Store.nextSlot?, hm, Option.map_none]
  refine bind_of_error ?_
  unfold takeSlot
  rw [hooks_bind, hnext]
  rfl

/-- **A hook call outside of every body fails and changes nothing**, whatever it is given. -/
theorem call_idle (invoke : Invoke) (trail : Trail) (args : List Value) (hook : HookCall) (hm : Idle m.hooks) :
    Hook.call invoke trail args hook m = barredHook invoke trail args hook m := by
  cases hook with
  | state | ref => exact takeSlot_idle hm
  | reducer =>
    exact (aloof_functionArgument args 1).bind_congr fun _ => (aloof_optionalFunction args 3).bind_congr fun _ =>
      takeSlot_idle hm
  | memo | callback | effect => exact (aloof_functionArgument args 1).bind_congr fun _ => takeSlot_idle hm

/-! ### Scripts outside of bodies -/

section Agree
variable {invoke invoke' : Invoke}

theorem plain_idle : Plain Idle := fun _ _ _ ha _ hs => ha.frame_none hs

theorem setState_agree (hi : ∀ trail v args, Agree Idle (invoke trail v args) (invoke' trail v args)) (trail : Trail)
    (key : Key) (index : Nat) (args : List Value) :
    Agree Idle (setState invoke trail key index args) (setState invoke' trail key index args) := by
  have hu (next : Value) : Stable Idle _ :=
    .bind (update_stable plain_idle key index next) fun _ => .pure ([] : List Value)
  unfold setState
  split
  · exact .bind (.of_keeps hooks_stable) fun s => .bind (first_agree (hi ..)) fun next => .of_keeps (hu next)
  · exact .of_keeps (.bind (.pure _) hu)

theorem dispatch_agree (hi : ∀ trail v args, Agree Idle (invoke trail v args) (invoke' trail v args)) (trail : Trail)
    (key : Key) (index : Nat) (args : List Value) :
    Agree Idle (dispatch invoke trail key index args) (dispatch invoke' trail key index args) := by
  refine .bind (.of_keeps hooks_stable) fun s => ?_
  split
  · exact .bind (first_agree (hi ..)) fun next => .of_keeps (.bind (update_stable plain_idle key index next) fun _ =>
      .pure _)
  · exact .of_keeps (.pure _)

end Agree

theorem call_agree (invoke invoke' : Invoke) (trail : Trail) (args : List Value) (hook : HookCall) :
    Agree Idle (Hook.call invoke trail args hook) (barredHook invoke' trail args hook) where
  same m hm := call_idle invoke trail args hook hm
  keep m hm := by
    obtain ⟨fault, hf⟩ := barredHook_fails invoke trail args hook m
    rwa [last_of_error ((call_idle invoke trail args hook hm).trans hf)]

theorem invokeWithin_agree (depth : Nat) (trail : Trail) (v : Value) (args : List Value) :
    Agree Idle (invokeWithin depth trail v args) (invokeBy barredHook depth trail v args) := by
  induction depth generalizing trail v args with
  | zero => exact .of_keeps (.throw _)
  | succ depth ih =>
    exact invokeBy_agree ih (call_agree _ _) (setState_agree ih) (dispatch_agree ih) trail v args

/-- **Outside of bodies a script does what it does where hook functions are barred**, and starts no body. -/
theorem invoke_agree (trail : Trail) (v : Value) (args : List Value) :
    Agree Idle (invoke trail v args) (barred trail v args) := invokeWithin_agree callDepth trail v args

end LivePreview.Script
