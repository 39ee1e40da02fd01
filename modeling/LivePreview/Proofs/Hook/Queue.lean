import LivePreview.Proofs.Hook.Calling
import LivePreview.Proofs.Script.Scripted

/-! How effects come to be queued.

A call of `useEffect` fails, finds the dependencies that it is given where its own are kept, or queues its function
in the place of one that is queued for the same hook call (`EffectCall.cases`). Nothing else queues effects, so that
what a store has pending at the end of a stretch of script can be read off the calls on the way (`Traced`): it was
queued by one of them, or it was pending before and every call of its hook has failed or found its dependencies
unchanged. -/
namespace LivePreview.Hook
open Script

/-- A call of `useEffect`: its arguments, and the machine that it is made in. -/
structure EffectCall where
  args : List Value
  machine : Machine

@[simp] theorem Store.pending_counted {V : Type} (s : Store V) : s.counted.pending = s.pending := by
  unfold counted
  split <;> rfl

namespace EffectCall
variable {c : EffectCall} {e : Effect Value}

/-- The store that the call leaves. -/
def after (c : EffectCall) : Store Value := (Run.last (useEffect c.args) c.machine).hooks

/-- The hook call is the one that an effect belongs to. -/
def IsOf (c : EffectCall) (e : Effect Value) : Prop := c.machine.hooks.frame = some (e.key, e.index)

def Fails (c : EffectCall) : Prop := ∃ fault n, useEffect c.args c.machine = .error fault n

/-- Whether dependencies agree with those that a slot keeps. -/
def agrees (slot? : Option (Slot Value)) (deps : Option (List Value)) : Bool :=
  match slot? with
  | some (.effect previous) => sameDeps Value.equals previous deps
  | _ => false

/-- The dependencies that are kept for the hook call agree with those that it is given. -/
def Unchanged (c : EffectCall) : Prop := ∃ slot deps n, c.machine.hooks.frame = some slot ∧
  dependencies (Run.argument c.args 2) (counted c.machine) = .ok deps n ∧
    agrees (c.machine.hooks.slot? slot.1 slot.2) deps = true

/-- The function of the effect is passed in this call of its hook, and it is queued. -/
structure Queues (c : EffectCall) (e : Effect Value) : Prop where
  isOf : c.IsOf e
  passed : Run.argument c.args 1 = e.callback
  ends : ¬ c.Fails
  changed : ¬ c.Unchanged

/-! ### One call -/

/-- What a call finds out: its function, its slot and its dependencies. -/
def read (args : List Value) : Run (Value × (Key × Nat) × Option (List Value)) := do
  let callback ← Run.functionArgument args 1
  let slot ← takeSlot
  return (callback, slot, ← dependencies (Run.argument args 2))

/-- What a call does with what it has found out. -/
def settle (callback : Value) (slot : Key × Nat) (deps : Option (List Value)) : Run (List Value) := do
  let unchanged : Bool := match (← Run.hooks).slot? slot.1 slot.2 with
    | some (.effect previous) => sameDeps Value.equals previous deps
    | _ => false
  if !unchanged then
    Run.modifyHooks fun s => (s.keep slot.1 slot.2 (.effect deps)).queue ⟨slot.1, slot.2, callback⟩
  return []

theorem useEffect_eq (args : List Value) : useEffect args = read args >>= fun r => settle r.1 r.2.1 r.2.2 := by
  simp only [useEffect, read, bind_assoc]
  exact bind_congr fun callback => bind_congr fun slot => bind_congr fun deps => (pure_bind ..).symm

theorem takeSlot_frame {m n : Machine} {slot : Key × Nat} (h : takeSlot m = .ok slot n) :
    m.hooks.frame = some slot ∧ n = counted m := by
  cases hf : m.hooks.frame with
  | none =>
    obtain ⟨e, he⟩ := takeSlot_none (m := m) (by rw [Store.nextSlot?, hf, Option.map_none])
    rw [he] at h
    cases h
  | some s =>
    obtain ⟨rfl, rfl⟩ := takeSlot_ok hf h
    exact ⟨rfl, rfl⟩

theorem read_ok {args : List Value} {m n : Machine} {callback : Value} {slot : Key × Nat}
    {deps : Option (List Value)} (h : read args m = .ok (callback, slot, deps) n) :
    Run.argument args 1 = callback ∧ m.hooks.frame = some slot ∧ n = counted m ∧
      dependencies (Run.argument args 2) (counted m) = .ok deps (counted m) := by
  obtain ⟨f, m₁, hf, h⟩ := bind_ok h
  obtain ⟨-, rfl, rfl⟩ := functionArgument_ok hf
  obtain ⟨taken, m₂, hslot, h⟩ := bind_ok h
  obtain ⟨hframe, rfl⟩ := takeSlot_frame hslot
  obtain ⟨given, m₃, hdeps, h⟩ := bind_ok h
  obtain rfl := dependencies_ok hdeps
  cases h
  exact ⟨rfl, hframe, rfl, hdeps⟩

/-- Before dependencies are compared nothing is queued. -/
theorem read_stable (args : List Value) (pending : List (Effect Value)) :
    Stable (fun s => s.pending = pending) (read args) := by
  refine .bind (functionArgument_stable args 1) fun callback => ?_
  refine takeSlot_stable (fun _ _ _ _ hp hs => hp.trans hs) fun slot => ?_
  exact .bind (dependencies_stable _) fun _ => .pure _

theorem settle_eq (callback : Value) (slot : Key × Nat) (deps : Option (List Value)) (m : Machine) :
    settle callback slot deps m =
      if agrees (m.hooks.slot? slot.1 slot.2) deps then .ok [] m
      else .ok [] { m with
        hooks := (m.hooks.keep slot.1 slot.2 (.effect deps)).queue ⟨slot.1, slot.2, callback⟩ } := by
  have h : settle callback slot deps m = (do
      if !agrees (m.hooks.slot? slot.1 slot.2) deps then
        Run.modifyHooks fun s => (s.keep slot.1 slot.2 (.effect deps)).queue ⟨slot.1, slot.2, callback⟩
      return [] : Run (List Value)) m := rfl
  rw [h]
  cases agrees (m.hooks.slot? slot.1 slot.2) deps <;> rfl

/-- A call leaves what is pending alone, because it fails or its dependencies are unchanged, or it queues an effect. -/
theorem cases (c : EffectCall) :
    (c.after.pending = c.machine.hooks.pending ∧ (c.Fails ∨ c.Unchanged)) ∨
      ∃ e, c.Queues e ∧ c.after.pending = (c.machine.hooks.queue e).pending := by
  obtain ⟨args, m⟩ := c
  cases hr : read args m with
  | error fault n =>
    have hu : useEffect args m = .error fault n := by
      rw [useEffect_eq]
      simp only [Bind.bind, EStateM.bind, hr]
    have hp := (read_stable args m.hooks.pending).keep m rfl
    rw [last_of_error hr] at hp
    exact .inl ⟨by rw [after, last_of_error hu, hp], .inl ⟨fault, n, hu⟩⟩
  | ok r n =>
    obtain ⟨callback, slot, deps⟩ := r
    obtain ⟨hpassed, hframe, rfl, hdeps⟩ := read_ok hr
    have hu : useEffect args m = settle callback slot deps (counted m) := by
      rw [useEffect_eq]
      simp only [Bind.bind, EStateM.bind, hr]
    have hp : (counted m).hooks.pending = m.hooks.pending := Store.pending_counted m.hooks
    rw [settle_eq] at hu
    cases hk : agrees ((counted m).hooks.slot? slot.1 slot.2) deps with
    | true =>
      rw [hk, if_pos rfl] at hu
      refine .inl ⟨by rw [after, last_of_ok hu, hp], .inr ⟨slot, deps, _, hframe, hdeps, ?_⟩⟩
      rwa [counted, Store.slot?_counted] at hk
    | false =>
      rw [hk, if_neg Bool.false_ne_true] at hu
      refine .inr ⟨⟨slot.1, slot.2, callback⟩, ⟨hframe, hpassed, ?_, ?_⟩, ?_⟩
      · exact fun ⟨_, _, h⟩ => nomatch hu.symm.trans h
      · rintro ⟨slot', deps', n, hf, hd, ha⟩
        cases hframe.symm.trans hf
        cases hdeps.symm.trans hd
        rw [counted, Store.slot?_counted] at hk
        exact Bool.noConfusion (hk.symm.trans ha)
      · rw [after, last_of_ok hu]
        simp only [Store.queue, Store.keep, hp]

end EffectCall

/-! ### Calls on the way -/

/-- The calls of `useEffect` on the way from one store to another within a pass. Between them bodies start and end and
scripts act, and none of this queues an effect. -/
inductive Traced (s : Store Value) : List EffectCall → Store Value → Prop
  | refl : Traced s [] s
  | act {b calls t u} (h : Traced s calls t) (a : Store.Act Value.equals b t u) (hp : u.pending = t.pending) :
      Traced s calls u
  | enter {calls t} (h : Traced s calls t) (key : Key) : Traced s calls (t.enter key)
  | exit {calls t} (h : Traced s calls t) : Traced s calls t.exit
  | call {calls c} (h : Traced s calls c.machine.hooks) : Traced s (calls ++ [c]) c.after

variable {s t : Store Value} {calls : List EffectCall} {e : Effect Value}

/-- Whatever a script does is traced. -/
theorem traced_kept (s : Store Value) : Kept fun t => ∃ calls, Traced s calls t where
  act _ _ _ ha hp := fun ⟨calls, h⟩ => ⟨calls, h.act ha hp⟩
  effect args := ⟨fun m ⟨calls, h⟩ => ⟨calls ++ [⟨args, m⟩], h.call (c := ⟨args, m⟩)⟩⟩

/-- The effect was pending before, and no call of its hook has put another in its place: they have failed or found
their dependencies unchanged. -/
structure LeftOver (s : Store Value) (calls : List EffectCall) (e : Effect Value) : Prop where
  pending : e ∈ s.pending
  idle : ∀ c ∈ calls, c.IsOf e → c.Fails ∨ c.Unchanged

theorem mem_queue {V : Type} {s : Store V} {d e : Effect V} (h : e ∈ (s.queue d).pending) :
    e = d ∨ (e ∈ s.pending ∧ (e.key, e.index) ≠ (d.key, d.index)) := by
  rcases List.mem_append.1 h with h | h
  · obtain ⟨hm, hn⟩ := List.mem_filter.1 h
    refine .inr ⟨hm, fun he => ?_⟩
    simp [Prod.mk.inj he] at hn
  · exact .inl (List.mem_singleton.1 h)

/-- **What is pending was queued by a call on the way or is left over.** -/
theorem Traced.pending (h : Traced s calls t) (he : e ∈ t.pending) :
    (∃ c ∈ calls, c.Queues e) ∨ LeftOver s calls e := by
  induction h with
  | refl => exact .inr ⟨he, nofun⟩
  | act _ _ hp ih => exact ih (hp ▸ he)
  | enter _ key ih => exact ih he
  | exit _ ih => exact ih he
  | @call calls c _ ih =>
    have hold (hm : e ∈ c.machine.hooks.pending) (hc : c.IsOf e → c.Fails ∨ c.Unchanged) :
        (∃ d ∈ calls ++ [c], d.Queues e) ∨ LeftOver s (calls ++ [c]) e := by
      rcases ih hm with ⟨d, hd, hq⟩ | hl
      · exact .inl ⟨d, List.mem_append_left _ hd, hq⟩
      · refine .inr ⟨hl.pending, fun d hd ho => ?_⟩
        rcases List.mem_append.1 hd with hd | hd
        · exact hl.idle d hd ho
        · obtain rfl := List.mem_singleton.1 hd
          exact hc ho
    rcases c.cases with ⟨hp, hi⟩ | ⟨d, hq, hp⟩
    · exact hold (hp ▸ he) fun _ => hi
    · rcases mem_queue (hp ▸ he) with rfl | ⟨hm, hn⟩
      · exact .inl ⟨c, List.mem_append_right _ (List.mem_singleton_self c), hq⟩
      · refine hold hm fun ho => absurd ?_ hn
        exact Option.some.inj (ho.symm.trans hq.isOf)

/-- The two exclude each other. -/
theorem Traced.queued_iff (h : Traced s calls t) (he : e ∈ t.pending) :
    (∃ c ∈ calls, c.Queues e) ↔ ¬ LeftOver s calls e := by
  constructor
  · rintro ⟨c, hc, hq⟩ hl
    rcases hl.idle c hc hq.isOf with hf | hu
    · exact hq.ends hf
    · exact hq.changed hu
  · exact fun hn => (h.pending he).resolve_right hn

end LivePreview.Hook
