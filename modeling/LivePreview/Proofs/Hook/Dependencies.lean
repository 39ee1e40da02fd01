import LivePreview.Proofs.Hook.Life
import LivePreview.Proofs.Script.Scripted
import Mathlib

/-! **What hooks with dependencies make of a change in them.**

`useMemo`, `useCallback` and `useEffect` ask of the slot that their last call has left whether it goes with the
dependencies that they are given now. It does just when no value differs before the first nil: a list is read up to
there, so that a change behind a hole is missed. Between the two calls the store may do whatever a store does in its
life, as long as its instance is rendered in each pass and the hook is not called again. -/
namespace LivePreview.Script
variable {a b c : Value}

/-! ### Equal values

A number that is none and a caught fault differ from themselves, so that equality is no equivalence. -/

theorem Value.same_iff : a.same b = true ↔
    (∃ x y, a = .num x ∧ b = .num y ∧ (x == y) = true) ∨ (∀ x, a ≠ .num x) ∧ a = b := by
  have hs (s t : ByteArray) : (s == t) = true ↔ s = t := by
    rw [ByteArray.ext_iff]
    exact beq_iff_eq (a := s.data)
  cases a <;> cases b <;> simp [same, hs]

theorem Value.same_symm (h : a.same b = true) : b.same a = true := by
  rw [same_iff] at h ⊢
  obtain ⟨x, y, rfl, rfl, he⟩ | ⟨hn, rfl⟩ := h
  · refine .inl ⟨y, x, rfl, rfl, ?_⟩
    rw [Float.beq_iff_ne_nan_and_eq] at he ⊢
    grind
  · exact .inr ⟨hn, rfl⟩

theorem Value.same_trans (h : a.same b = true) (k : b.same c = true) : a.same c = true := by
  rw [same_iff] at h k ⊢
  obtain ⟨x, y, rfl, rfl, he⟩ | ⟨hn, rfl⟩ := h
  · obtain ⟨y', z, hy, rfl, hf⟩ | ⟨hn, -⟩ := k
    · cases hy
      refine .inl ⟨x, z, rfl, rfl, ?_⟩
      rw [Float.beq_iff_ne_nan_and_eq] at he hf ⊢
      grind
    · exact absurd rfl (hn y)
  · exact k

theorem Value.equals_iff : a.equals b = true ↔ (∀ f, a ≠ .failure f) ∧ a.same b = true := by
  cases a <;> simp [equals]

theorem Value.equals_symm (h : a.equals b = true) : b.equals a = true := by
  rw [equals_iff] at h ⊢
  refine ⟨fun f hb => ?_, same_symm h.2⟩
  obtain ⟨x, y, -, rfl, -⟩ | ⟨-, rfl⟩ := same_iff.1 h.2
  · exact nomatch hb
  · exact h.1 f hb

theorem Value.equals_trans (h : a.equals b = true) (k : b.equals c = true) : a.equals c = true := by
  rw [equals_iff] at h k ⊢
  exact ⟨h.1, same_trans h.2 k.2⟩

end LivePreview.Script

namespace LivePreview.Hook
open Script

/-! ### Lists of dependencies -/

section Lists
variable {V : Type} {same : V → V → Bool} {vs ws us : List V}

theorem sameDeps_iff : sameDeps same (some vs) (some ws) = true ↔ List.Forall₂ (fun v w => same v w = true) vs ws := by
  rw [sameDeps, Bool.and_eq_true, beq_iff_eq, List.all_eq_true, List.forall₂_iff_zip]
  exact and_congr_right fun _ => ⟨fun h a b hab => h (a, b) hab, fun h e he => h he⟩

/-- Where equality is symmetric and transitive, lists that agree agree with the same lists. -/
theorem sameDeps_congr (hs : ∀ a b, same a b = true → same b a = true)
    (ht : ∀ a b c, same a b = true → same b c = true → same a c = true)
    (h : sameDeps same (some vs) (some ws) = true) (us : List V) :
    sameDeps same (some vs) (some us) = sameDeps same (some ws) (some us) := by
  have hf := sameDeps_iff.1 h
  have hg : List.Forall₂ (fun v w => same v w = true) ws vs := hf.flip.imp fun a b => hs b a
  have hc {l₁ l₂ l₃ : List V} (h : List.Forall₂ (fun v w => same v w = true) l₁ l₂)
      (k : List.Forall₂ (fun v w => same v w = true) l₂ l₃) : List.Forall₂ (fun v w => same v w = true) l₁ l₃ := by
    induction h generalizing l₃ with
    | nil => exact k
    | cons hab _ ih =>
      cases k with
      | cons hbc k => exact .cons (ht _ _ _ hab hbc) (ih k)
  rw [Bool.eq_iff_iff, sameDeps_iff, sameDeps_iff]
  exact ⟨hc hg, hc hf⟩

end Lists

/-- What is read of a list of values: those before the first nil. -/
def readable (vs : List Value) : List Value := vs.takeWhile fun v => !v.isNil

/-- Two lists differ in a value, with no nil before it in either of them. A list goes on with nil behind its end. -/
def Departs (vs ws : List Value) : Prop :=
  ∃ j, (vs.getD j .nil).equals (ws.getD j .nil) = false ∧
    ∀ i < j, (vs.getD i .nil).isNil = false ∧ (ws.getD i .nil).isNil = false

/-- Two lists differ in a value. -/
def Differs (vs ws : List Value) : Prop := ∃ j, (vs.getD j .nil).equals (ws.getD j .nil) = false

theorem departs_iff (vs ws : List Value) : Departs vs ws ↔ (vs.headD .nil).equals (ws.headD .nil) = false ∨
    ((vs.headD .nil).isNil = false ∧ (ws.headD .nil).isNil = false ∧ Departs vs.tail ws.tail) := by
  have hz (l : List Value) : l.getD 0 .nil = l.headD .nil := by cases l <;> rfl
  have hs (l : List Value) (j : Nat) : l.getD (j + 1) .nil = l.tail.getD j .nil := by cases l <;> rfl
  constructor
  · rintro ⟨j, hj, hn⟩
    cases j with
    | zero => exact .inl (by rwa [hz, hz] at hj)
    | succ j =>
      have h0 := hn 0 j.succ_pos
      rw [hz, hz] at h0
      rw [hs, hs] at hj
      refine .inr ⟨h0.1, h0.2, j, hj, fun i hi => ?_⟩
      rw [← hs, ← hs]
      exact hn (i + 1) (Nat.succ_lt_succ hi)
  · rintro (h | ⟨hv, hw, j, hj, hn⟩)
    · exact ⟨0, by rwa [hz, hz], fun i hi => absurd hi (Nat.not_lt_zero i)⟩
    · refine ⟨j + 1, by rwa [hs, hs], fun i hi => ?_⟩
      cases i with
      | zero => exact ⟨by rwa [hz], by rwa [hz]⟩
      | succ i =>
        rw [hs, hs]
        exact hn i (Nat.lt_of_succ_lt_succ hi)

theorem readable_eq (vs : List Value) :
    readable vs = if (vs.headD .nil).isNil then [] else vs.headD .nil :: readable vs.tail := by
  cases vs with
  | nil => rfl
  | cons v vs =>
    show List.takeWhile _ (v :: vs) = if v.isNil then [] else v :: readable vs
    rw [List.takeWhile_cons]
    cases v.isNil <;> rfl

theorem equals_nil (v : Value) : v.equals .nil = v.isNil ∧ Value.nil.equals v = v.isNil := by
  cases v <;> exact ⟨rfl, rfl⟩

/-- **What is read of two lists agrees just when they differ in no value before a nil.** -/
theorem sameDeps_readable (vs ws : List Value) :
    sameDeps Value.equals (some (readable vs)) (some (readable ws)) = false ↔ Departs vs ws := by
  induction vs generalizing ws with
  | nil =>
    rw [departs_iff, readable_eq ws]
    show _ ↔ Value.nil.equals _ = false ∨ true = false ∧ _
    rw [(equals_nil _).2]
    cases (ws.headD .nil).isNil <;> simp [readable, sameDeps]
  | cons v vs ih =>
    rw [departs_iff, readable_eq ws, readable_eq (v :: vs)]
    show sameDeps Value.equals (some (if v.isNil then [] else v :: readable vs)) _ = false ↔
      v.equals _ = false ∨ v.isNil = false ∧ _ ∧ Departs vs ws.tail
    rw [← ih ws.tail]
    generalize ws.headD .nil = w
    cases hv : v.isNil with
    | true =>
      obtain rfl : v = .nil := by cases v <;> first | rfl | exact nomatch hv
      rw [(equals_nil w).2]
      cases w.isNil <;> simp [sameDeps]
    | false =>
      cases hw : w.isNil with
      | true =>
        obtain rfl : w = .nil := by cases w <;> first | rfl | exact nomatch hw
        simp [sameDeps, (equals_nil v).1, hv]
      | false =>
        have hc : sameDeps Value.equals (some (v :: readable vs)) (some (w :: readable ws.tail)) =
            (v.equals w && sameDeps Value.equals (some (readable vs)) (some (readable ws.tail))) := by
          simp [sameDeps, Bool.and_left_comm]
        simp only [Bool.false_eq_true, if_false, hc]
        cases v.equals w <;> simp

/-! ### Slots that stay -/

namespace Store
variable {V : Type} {same : V → V → Bool} {s t : Store V} {b : Bool}

theorem length_slotsOf_keep (s : Store V) (key : Key) (index : Nat) (slot : Slot V) (k : Key) :
    (s.slotsOf k).length ≤ ((s.keep key index slot).slotsOf k).length := by
  rw [slotsOf_keep]
  by_cases hk : k = key
  · subst hk
    rw [beq_self_eq_true, if_pos rfl]
    split
    · rw [List.length_set]
    · rw [List.length_append]
      exact Nat.le_add_right ..
  · rw [if_neg (by simpa using hk)]

/-- No act takes a slot away. -/
theorem Act.length_slotsOf (h : Act same b s t) (k : Key) : (s.slotsOf k).length ≤ (t.slotsOf k).length := by
  cases h with
  | next h =>
    rw [(nextSlot?_eq h).2]
    exact Nat.le_refl _
  | keep slot h => exact length_slotsOf_keep ..
  | queue h => exact Nat.le_refl _
  | update key index next =>
    obtain ⟨-, hu⟩ | ⟨-, -, slot, hu⟩ := update_eq same s key index next <;> rw [hu]
    exact length_slotsOf_keep s key index slot k

/-- Keeping a slot changes none of another hook call. -/
theorem slot?_keep_of_ne {key k : Key} {index i : Nat} {slot old : Slot V} (hs : s.slot? k i = some old)
    (hne : (k, i) ≠ (key, index)) : (s.keep key index slot).slot? k i = some old := by
  have hi := length_of_slot? hs
  unfold slot? at hs ⊢
  rw [slotsOf_keep]
  split
  · rename_i hk
    obtain rfl := beq_iff_eq.1 hk
    split
    · rw [List.getElem?_set_ne fun he => hne (by rw [he]), hs]
    · rw [List.getElem?_append_left hi, hs]
  · exact hs

end Store

/-- The life of a store between two calls of one hook: it is not called on the way, its instance is rendered in each
pass that is finished, and nothing is reset. -/
structure Between (key : Key) (index : Nat) (s : Store Value) (log : List Moment) (t : Store Value) : Prop where
  life : Life s log t
  calls : ∀ u hook, (u, .call hook) ∈ log → u.frame ≠ some (key, index)
  rendered : ∀ u, (u, .finishPass) ∈ log → key ∈ u.rendered
  lasts : ∀ u, (u, .reset) ∉ log

/-- A slot that no update changes stays as it is. -/
theorem Between.slot?_eq {key : Key} {index : Nat} {s t : Store Value} {log : List Moment} {slot : Slot Value}
    (h : Between key index s log t) (hp : ∀ next, slot.put Value.equals next = slot)
    (hs : s.slot? key index = some slot) : t.slot? key index = some slot := by
  induction log using List.reverseRecOn generalizing t with
  | nil => rwa [h.life.of_nil]
  | append_singleton log e ih =>
    obtain ⟨hl, hf, rfl⟩ := h.life.last
    have hm {d} (hd : d ∈ log) : d ∈ log ++ [e] := List.mem_append_left _ hd
    have he : e ∈ log ++ [e] := by simp
    have hu := ih ⟨hl, fun u hook hd => h.calls u hook (hm hd), fun u hd => h.rendered u (hm hd),
      fun u hd => h.lasts u (hm hd)⟩
    -- a slot is kept for a call on the way, and that is of another hook
    have hc {k i before u hook rest} (hlog : log = before ++ (u, .call hook) :: rest)
        (hk : u.frame = some (k, i)) : (key, index) ≠ (k, i) := by
      rintro ⟨⟩
      exact h.calls u hook (hm (by rw [hlog]; simp)) hk
    obtain ⟨u, d⟩ := e
    cases d with
    | call hook => exact (Store.slot?_counted ..).trans hu
    | keep k i slot =>
      obtain ⟨before, v, hook, rest, hlog, hk, -⟩ := hf
      exact Store.slot?_keep_of_ne hu (hc hlog hk)
    | effect k i deps callback =>
      obtain ⟨before, v, hlog, hk, -⟩ := hf
      exact Store.slot?_keep_of_ne hu (hc hlog hk)
    | update k i next =>
      refine (Store.slot?_update ..).trans ?_
      rw [hu, Option.map_some, hp, ite_self]
    | finishPass =>
      refine (Store.slot?_finishPass ..).trans ?_
      rw [if_pos (List.contains_iff_mem.2 (h.rendered u he)), hu]
    | reset => exact absurd he (h.lasts u)
    | _ => exact hu

/-! ### Calls with dependencies -/

/-- A hook with dependencies. -/
inductive Watcher where
  | memo
  | callback
  | effect

def Watcher.hook : Watcher → HookCall
  | memo => .memo
  | callback => .callback
  | effect => .effect

/-- A call of such a hook in the body of an instance, with a function and a list of dependencies. -/
structure Watch (key : Key) (index : Nat) where
  watcher : Watcher
  trail : Trail
  args : List Value
  machine : Machine
  deps : List Value
  frame : machine.hooks.frame = some (key, index)
  function : ∃ place, Run.argument args 1 = .func place
  list : ∃ place, Run.argument args 2 = .table place ∧ machine.tables.getD place {} = .ofSequence deps

namespace Watch
variable {key : Key} {index : Nat} {invoke : Invoke}

def run (invoke : Invoke) (w : Watch key index) : EStateM.Result Fault Machine (List Value) :=
  call invoke w.trail w.args w.watcher.hook w.machine

/-- What a call does for which nothing is kept that goes with its dependencies: the factory of a memo is called and
what it gives is kept, a callback is the one that is passed, and an effect is queued. -/
def renew (invoke : Invoke) (w : Watch key index) : Run (List Value) :=
  match w.watcher with
  | .memo => do
    let value ← callScript invoke w.trail (Run.argument w.args 1) []
    Run.modifyHooks fun s => s.keep key index (.memo value (some (readable w.deps)))
    return [value]
  | .callback => do
    Run.modifyHooks fun s => s.keep key index (.memo (Run.argument w.args 1) (some (readable w.deps)))
    return [Run.argument w.args 1]
  | .effect => do
    Run.modifyHooks fun s =>
      (s.keep key index (.effect (some (readable w.deps)))).queue ⟨key, index, Run.argument w.args 1⟩
    return []

/-- What a hook would give for a slot, and the dependencies that this goes with. -/
def kept? : Watcher → Slot Value → Option (List Value × Option (List Value))
  | .memo, .memo value deps => some ([value], deps)
  | .callback, .memo (.func place) deps => some ([.func place], deps)
  | .effect, .effect deps => some ([], deps)
  | _, _ => none

/-- What a hook gives for a slot that goes with these dependencies. -/
def found? (watcher : Watcher) (slot? : Option (Slot Value)) (deps : List Value) : Option (List Value) :=
  (slot?.bind (kept? watcher)).bind fun kept =>
    if sameDeps Value.equals kept.2 (some (readable deps)) then some kept.1 else none

/-- A call gives what it finds, and leaves everything but the count of calls as it is, or it makes that anew. -/
theorem run_eq (invoke : Invoke) (w : Watch key index) : w.run invoke =
    match found? w.watcher (w.machine.hooks.slot? key index) w.deps with
    | some given => .ok given (counted w.machine)
    | none => w.renew invoke (counted w.machine) := by
  obtain ⟨watcher, trail, args, m, deps, hf, ⟨f, hfunction⟩, place, harg, hlist⟩ := w
  have hread : dependencies (Run.argument args 2) (counted m) = .ok (some (readable deps)) (counted m) := by
    rw [harg, dependencies]
    show EStateM.Result.ok (some ((counted m).tables.getD place {}).sequence) (counted m) = _
    rw [show (counted m).tables = m.tables from rfl, hlist]
    rfl
  have hslot : takeSlot m = .ok (key, index) (counted m) :=
    takeSlot_some (by simp [Store.nextSlot?, Store.counted, hf])
  have hfun : Run.functionArgument args 1 m = .ok (.func f) m := by
    rw [Run.functionArgument, hfunction]
    rfl
  cases watcher with
  | memo =>
    show useMemo invoke trail args m = _
    unfold useMemo renew
    dsimp only
    rw [hfunction, bind_of_ok hfun, bind_of_ok hslot]
    dsimp only
    rw [bind_of_ok hread, hooks_bind, slot?_hooks_counted]
    cases m.hooks.slot? key index with
    | none => rfl
    | some slot =>
      cases slot with
      | memo value previous =>
        dsimp only [found?, kept?, Option.bind_some]
        cases sameDeps Value.equals previous (some (readable deps)) <;> rfl
      | _ => rfl
  | callback =>
    show useCallback args m = _
    unfold useCallback renew
    dsimp only
    rw [hfunction, bind_of_ok hfun, bind_of_ok hslot]
    dsimp only
    rw [bind_of_ok hread, hooks_bind, slot?_hooks_counted]
    cases m.hooks.slot? key index with
    | none => rfl
    | some slot =>
      cases slot with
      | memo value previous =>
        cases value with
        | func place =>
          dsimp only [found?, kept?, Option.bind_some]
          cases sameDeps Value.equals previous (some (readable deps)) <;> rfl
        | _ => rfl
      | _ => rfl
  | effect =>
    show useEffect args m = _
    unfold useEffect renew
    dsimp only
    rw [hfunction, bind_of_ok hfun, bind_of_ok hslot]
    dsimp only
    rw [bind_of_ok hread, hooks_bind, slot?_hooks_counted]
    cases m.hooks.slot? key index with
    | none => rfl
    | some slot =>
      cases slot with
      | effect previous =>
        dsimp only [found?, kept?, Option.bind_some]
        rcases Bool.eq_false_or_eq_true (sameDeps Value.equals previous (some (readable deps))) with hs | hs
        all_goals
          simp only [hs]
          rfl
      | _ => rfl

/-! ### What a call leaves -/

/-- A slot holds what a call has given, under dependencies that go with those of the call. -/
structure Leaves (w : Watch key index) (given : List Value) (s : Store Value) : Prop where
  exists_slot : ∃ slot deps, s.slot? key index = some slot ∧ kept? w.watcher slot = some (given, deps) ∧
    ∀ others, sameDeps Value.equals deps others = sameDeps Value.equals (some (readable w.deps)) others

theorem sameDeps_eq {previous deps : Option (List Value)} (h : sameDeps Value.equals previous deps = true)
    (others : Option (List Value)) : sameDeps Value.equals previous others = sameDeps Value.equals deps others := by
  cases previous with
  | none => exact nomatch h
  | some vs =>
    cases deps with
    | none => exact nomatch h
    | some ws =>
      cases others with
      | none => rfl
      | some us =>
        exact @sameDeps_congr _ Value.equals vs ws (fun _ _ => Value.equals_symm) (fun _ _ _ => Value.equals_trans) h us

/-- A factory takes no slot away. -/
theorem slots_callScript (hi : Scripted invoke) {trail : Trail} {f v : Value} {args : List Value} {m n : Machine}
    (h : callScript invoke trail f args m = .ok v n) (hl : index ≤ (m.hooks.slotsOf key).length) :
    index ≤ (n.hooks.slotsOf key).length := by
  have hk := (first_stable (hi.stable (P := fun s => index ≤ (s.slotsOf key).length)
    (fun b s t ha hs => hs.trans (ha.length_slotsOf key)) (none :: trail) f args)).keep m hl
  have he : Run.last (Run.first (invoke (none :: trail) f args)) m = n := last_of_ok h
  rwa [he] at hk

theorem leaves_of_run (hi : Scripted invoke) {w : Watch key index} {given : List Value} {n : Machine}
    (hl : index ≤ (w.machine.hooks.slotsOf key).length) (h : w.run invoke = .ok given n) :
    Leaves w given n.hooks := by
  rw [run_eq] at h
  split at h
  · rename_i hf
    cases h
    obtain ⟨⟨given', deps⟩, hk, hd⟩ := Option.bind_eq_some_iff.1 hf
    obtain ⟨slot, hs, hk⟩ := Option.bind_eq_some_iff.1 hk
    dsimp only at hd
    split at hd
    · cases hd
      exact ⟨slot, deps, (Store.slot?_counted ..).trans hs, hk, sameDeps_eq ‹_›⟩
    · exact nomatch hd
  · have hc : index ≤ ((counted w.machine).hooks.slotsOf key).length := by
      rwa [counted, Store.slotsOf_counted]
    obtain ⟨place, hp⟩ := w.function
    unfold renew at h
    have hs {m : Machine} (hm : index ≤ (m.hooks.slotsOf key).length) (slot : Slot Value) :
        (m.hooks.keep key index slot).slot? key index = some slot := by
      rw [Store.slot?_keep hm, if_pos ⟨rfl, rfl⟩]
    cases hw : w.watcher with
    | memo =>
      rw [hw] at h
      obtain ⟨v, l, hv, h⟩ := bind_ok h
      cases h
      exact ⟨_, _, hs (slots_callScript hi hv hc) _, by rw [hw]; rfl, fun _ => rfl⟩
    | callback =>
      rw [hw] at h
      cases h
      exact ⟨_, _, hs hc _, by rw [hw, hp]; rfl, fun _ => rfl⟩
    | effect =>
      rw [hw] at h
      cases h
      exact ⟨_, _, hs hc _, by rw [hw]; rfl, fun _ => rfl⟩

end Watch

/-- **What a hook with dependencies gives is made anew just when they differ before any nil**: the factory of a memo is
called again, a callback is the new one, an effect is queued. Otherwise the call gives what the call before it gave,
whatever calls of functions would do, and leaves everything else as it is. -/
theorem dependencies_compared {invoke : Invoke} (hi : Scripted invoke) {key : Key} {index : Nat}
    (c d : Watch key index) (hw : d.watcher = c.watcher) {given : List Value} {n : Machine} {log : List Moment}
    (hl : index ≤ (c.machine.hooks.slotsOf key).length) (hc : c.run invoke = .ok given n)
    (hb : Between key index n.hooks log d.machine.hooks) :
    (Departs c.deps d.deps → d.run invoke = d.renew invoke (counted d.machine)) ∧
      (¬ Departs c.deps d.deps → ∀ other, d.run other = .ok given (counted d.machine)) := by
  obtain ⟨slot, deps, hs, hk, hd⟩ := Watch.leaves_of_run hi hl hc
  have hp (next : Value) : slot.put Value.equals next = slot := by
    cases slot with
    | state | reducer => cases hc : c.watcher <;> exact nomatch hc ▸ hk
    | _ => rfl
  have hf : Watch.found? d.watcher (d.machine.hooks.slot? key index) d.deps =
      if sameDeps Value.equals (some (readable c.deps)) (some (readable d.deps)) then some given else none := by
    rw [hb.slot?_eq hp hs, hw, Watch.found?, Option.bind_some, hk, Option.bind_some, hd]
  rw [← sameDeps_readable]
  refine ⟨fun h => ?_, fun h other => ?_⟩
  · rw [Watch.run_eq, hf, h]
    rfl
  · rw [Watch.run_eq, hf, if_pos (Bool.eq_true_of_not_eq_false h)]

/-- A call of `useCallback` as the first hook of the root. -/
def callbackCall (f : Nat) (deps : List Value) (s : Store Value) (h : s.frame = some ("root", 0)) : Watch "root" 0 where
  watcher := .callback
  trail := Trail.host
  args := [.func f, .table 0]
  machine := { hooks := s, tables := #[.ofSequence deps] }
  deps := deps
  frame := h
  function := ⟨f, rfl⟩
  list := ⟨0, rfl, rfl⟩

/-- The root is rendered for the first time, with a callback. -/
def firstCallback (f : Nat) (deps : List Value) : Store Value :=
  (({} : Store Value).enter "root").counted.keep "root" 0 (.memo (.func f) (some (readable deps)))

/-- The pass ends, and in the next one the root is rendered again. -/
def rendersAgain (s : Store Value) : Store Value := s.exit.finishPass.2.beginPass.enter "root"

theorem between_rendersAgain (f : Nat) (deps : List Value) :
    ∃ log, Between "root" 0 (firstCallback f deps) log (rendersAgain (firstCallback f deps)) := by
  refine ⟨_, (((Life.nil.snoc .exit trivial).snoc .finishPass rfl).snoc .beginPass trivial).snoc
    (.enter "root") trivial,
    fun u hook h => by simp at h, fun u h => ?_, fun u h => by simp at h⟩
  obtain rfl : u = Deed.exit.apply (firstCallback f deps) := by simpa using h
  exact List.mem_singleton_self "root"

theorem dependencies_compared_callback : ∃ (c d : Watch "root" 0) (given : List Value) (n : Machine)
    (log : List Moment), Scripted Script.invoke ∧ d.watcher = c.watcher ∧
      0 ≤ (c.machine.hooks.slotsOf "root").length ∧ c.run Script.invoke = .ok given n ∧
      Between "root" 0 n.hooks log d.machine.hooks ∧ Departs c.deps d.deps ∧
      d.run Script.invoke = d.renew Script.invoke (counted d.machine) := by
  obtain ⟨log, hb⟩ := between_rendersAgain 0 [.bool false]
  let c := callbackCall 0 [.bool false] (({} : Store Value).enter "root") rfl
  let d := callbackCall 1 [.bool true] (rendersAgain (firstCallback 0 [.bool false])) rfl
  have hd : Departs c.deps d.deps := ⟨0, rfl, fun i hi => absurd hi (Nat.not_lt_zero i)⟩
  exact ⟨c, d, [.func 0], _, log, scripted_invoke, rfl, Nat.zero_le _, rfl, hb, hd,
    (dependencies_compared scripted_invoke c d rfl (Nat.zero_le _) rfl hb).1 hd⟩

/-- A value behind a hole is changed, and the callback of the pass before is given. -/
theorem change_behind_hole_missed : ¬ ∀ (c d : Watch "root" 0) (given : List Value) (n : Machine) (log : List Moment),
    d.watcher = c.watcher → c.run Script.invoke = .ok given n → Between "root" 0 n.hooks log d.machine.hooks →
      Differs c.deps d.deps → d.run Script.invoke = d.renew Script.invoke (counted d.machine) := by
  intro h
  obtain ⟨log, hb⟩ := between_rendersAgain 0 [.nil, .bool false]
  have hr := h (callbackCall 0 [.nil, .bool false] (({} : Store Value).enter "root") rfl)
    (callbackCall 1 [.nil, .bool true] (rendersAgain (firstCallback 0 [.nil, .bool false])) rfl) [.func 0] _ log rfl rfl
    hb ⟨1, rfl⟩
  have hg : EStateM.Result.ok [Value.func 0] _ = EStateM.Result.ok [Value.func 1] _ := hr
  exact nomatch hg

end LivePreview.Hook
